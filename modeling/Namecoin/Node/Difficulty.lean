import Mathlib.Data.Nat.Digits.Lemmas
import Namecoin.Node.Mined

/-! # Targets in headers

A header carries its target as bytes. `EncodeDifficulty` writes a target into 32 bytes,
`DecodeDifficulty` reads the field of a header back, and the validator compares what it reads with the
target of the chain (`enforceDifficultyTarget`).

* `toNatBE_encodeDifficulty`: 32 bytes hold every target below `2 ^ 256`, a larger one
  is written as the largest;
* `encodeDifficulty_decodeDifficulty`: each string of 32 bytes is the encoding of
  the target it is read as;
* `difficulty_faithful`: the two round trips, the order of the targets, and what the
  validator makes of it. -/

namespace Namecoin.Node.Difficulty

open Lib.ByteStrings Types.Defs Chain.Pow Node.Miner Node.Mined

def encodeDifficulty (target : Option ℤ) : Bytes :=
  let b := bigBytes (effectiveTarget target)
  if 32 < b.length then List.replicate 32 0xFF
  else if b.length = 32 then b
  else List.replicate (32 - b.length) 0 ++ b

/-! ### The length and the value of an encoding -/

theorem length_bigBytes_le_iff (x : ℤ) (k : ℕ) : (bigBytes x).length ≤ k ↔ x.natAbs < 256 ^ k := by
  rw [bigBytes, List.length_reverse, List.length_map]
  exact Nat.digits_length_le_iff (by decide) _

theorem length_encodeDifficulty (target : Option ℤ) : (encodeDifficulty target).length = 32 := by
  simp only [encodeDifficulty]
  split_ifs with hlong hfull
  · rfl
  · exact hfull
  · rw [List.length_append, List.length_replicate]
    omega

theorem toNatBE_encodeDifficulty (target : Option ℤ) :
    toNatBE (encodeDifficulty target) = min (effectiveTarget target).natAbs (2 ^ 256 - 1) := by
  have hpow : (256 : ℕ) ^ 32 = 2 ^ 256 := by norm_num
  have hfits := length_bigBytes_le_iff (effectiveTarget target) 32
  rw [hpow] at hfits
  simp only [encodeDifficulty]
  split_ifs with hlong hfull
  · have hones : toNatBE (List.replicate 32 0xFF) = 2 ^ 256 - 1 := by decide
    rw [hones]
    omega
  · rw [toNatBE_bigBytes]
    omega
  · rw [toNatBE_zeros, toNatBE_bigBytes]
    omega

theorem decodeDifficulty_of_length {b : Bytes} (h : b.length = 32) :
    decodeDifficulty (some b) = some (toNatBE b : ℤ) := by
  refine if_neg ?_
  rintro (rfl : b = [])
  cases h

theorem decodeDifficulty_encodeDifficulty {t : ℤ} (ht : 0 ≤ t) :
    decodeDifficulty (some (encodeDifficulty (some t))) = some (min t (2 ^ 256 - 1)) := by
  rw [decodeDifficulty_of_length (length_encodeDifficulty _), toNatBE_encodeDifficulty]
  show some ((min t.natAbs (2 ^ 256 - 1) : ℕ) : ℤ) = some (min t (2 ^ 256 - 1))
  congr 1
  omega

theorem encodeDifficulty_decodeDifficulty {b : Bytes} (h : b.length = 32) :
    encodeDifficulty (decodeDifficulty (some b)) = b := by
  have hlt : toNatBE b < 256 ^ 32 := h ▸ toNatBE_lt b
  rw [decodeDifficulty_of_length h]
  refine toNatBE_injective (by rw [length_encodeDifficulty, h]) ?_
  rw [toNatBE_encodeDifficulty]
  show min (toNatBE b : ℤ).natAbs (2 ^ 256 - 1) = toNatBE b
  omega

/-! ### The header of a block -/

/-- A header made for the target of the chain passes: what is read from it is never above that target. -/
theorem enforceDifficultyTarget_encode {blk : Block} {target : Option ℤ} (ht : ∀ t ∈ target, 0 ≤ t)
    (hblk : blk.header.difficulty = some (encodeDifficulty target)) :
    ∃ t, enforceDifficultyTarget blk target = .ok (some t) := by
  cases target with
  | none =>
    -- the default target is written, and a chain without a target takes what the header says
    refine ⟨toNatBE (encodeDifficulty none), ?_⟩
    simp only [enforceDifficultyTarget, hblk, decodeDifficulty_of_length (length_encodeDifficulty none)]
  | some t =>
    refine ⟨min t (2 ^ 256 - 1), ?_⟩
    simp only [enforceDifficultyTarget, hblk, decodeDifficulty_encodeDifficulty (ht t rfl)]
    exact if_neg (not_lt.mpr (min_le_left _ _))

/-- **Targets in headers.** A target that is not negative is written into 32 bytes and read back as
itself, or as `2 ^ 256 - 1` where it is larger; each string of 32 bytes is the encoding of what it is
read as; the order of two targets survives the round trip; and a header that is made for the target of
the chain is not refused for its difficulty. -/
theorem difficulty_faithful :
    (∀ t : ℤ, 0 ≤ t → (encodeDifficulty (some t)).length = 32 ∧
      decodeDifficulty (some (encodeDifficulty (some t))) = some (min t (2 ^ 256 - 1))) ∧
    (∀ b : Bytes, b.length = 32 → encodeDifficulty (decodeDifficulty (some b)) = b) ∧
    (∀ t₁ t₂ : ℤ, 0 ≤ t₁ → t₁ ≤ t₂ →
    ∃ d₁ d₂, decodeDifficulty (some (encodeDifficulty (some t₁))) = some d₁ ∧
      decodeDifficulty (some (encodeDifficulty (some t₂))) = some d₂ ∧ d₁ ≤ d₂) ∧
    ∀ (blk : Block) (target : Option ℤ), (∀ t ∈ target, 0 ≤ t) →
      blk.header.difficulty = some (encodeDifficulty target) →
      ∃ t, enforceDifficultyTarget blk target = .ok (some t) := by
  refine ⟨fun t ht => ⟨length_encodeDifficulty _, decodeDifficulty_encodeDifficulty ht⟩,
    fun b hb => encodeDifficulty_decodeDifficulty hb, fun t₁ t₂ h₁ h₁₂ => ?_,
    fun blk target ht hblk => enforceDifficultyTarget_encode ht hblk⟩
  exact ⟨_, _, decodeDifficulty_encodeDifficulty h₁, decodeDifficulty_encodeDifficulty (h₁.trans h₁₂),
    min_le_min_right _ h₁₂⟩

end Namecoin.Node.Difficulty
