import Namecoin.Lib.JsonCode
import Namecoin.Types.Defs

/-! # Primitives that can be run

An `Env` whose JSON is the binary code of the library and whose signatures all verify, for examples on
concrete inputs. The hash is a parameter; `listedHash` is one without collisions that gives the listed
byte strings short hashes, in the order of the list. -/

namespace Namecoin.Types.SampleEnv

open Lib.ByteStrings Lib.JsonCode Types.Defs

/-- An environment with the given hash. -/
def sampleEnv (sha256 : Bytes → Bytes) (h : ∀ b, sha256 b ≠ []) : Env where
  sha256 := sha256
  sha256_ne_nil := h
  ed25519Verify _ _ _ := true
  canonicaljson := valueCode
  json := binary
  floatRatio a b := (a.toInt : ℚ) / b.toInt

theorem sampleEnv_canonicalJson (sha256 : Bytes → Bytes) (h : ∀ b, sha256 b ≠ []) :
    (sampleEnv sha256 h).CanonicalJson where
  injective v w hvw := by
    have hnil : valueCode v ++ [] = valueCode w ++ [] := by
      rw [List.append_nil, List.append_nil]
      exact hvw
    exact (valueCode_append_inj hnil).1
  objects a b x y hxy := by
    obtain ⟨he, hrest⟩ := valueCode_append_inj hxy
    cases he
    exact ⟨rfl, hrest⟩

/-- The sample primitives with the simplest hash. -/
def plainEnv : Env := sampleEnv (1 :: ·) fun b => List.cons_ne_nil 1 b

theorem plainEnv_collisionFree : plainEnv.CollisionFree := fun _ _ h => List.cons_injective h

theorem plainEnv_canonicalJson : plainEnv.CanonicalJson := sampleEnv_canonicalJson _ _

/-- The hash that gives the members of a list their position, and marks all other byte strings. -/
def listedHash (l : List Bytes) (b : Bytes) : Bytes :=
  if b ∈ l then [UInt8.ofNat (l.idxOf b + 1)] else 0 :: b

theorem listedHash_ne_nil (l : List Bytes) (b : Bytes) : listedHash l b ≠ [] := by
  unfold listedHash; split_ifs <;> simp

theorem listedHash_injective {l : List Bytes} (hl : l.length < 255) :
    Function.Injective (listedHash l) := by
  have hbyte : ∀ b ∈ l, (UInt8.ofNat (l.idxOf b + 1)).toNat = l.idxOf b + 1 := fun b hb => by
    have := List.idxOf_lt_length_of_mem hb
    simp [Nat.mod_eq_of_lt (by omega : l.idxOf b + 1 < 256)]
  have hzero : ∀ b ∈ l, UInt8.ofNat (l.idxOf b + 1) ≠ 0 := fun b hb he => by
    have := hbyte b hb
    rw [he] at this
    simp at this
  intro a b h
  unfold listedHash at h
  split_ifs at h with ha hb hb
  · have h1 := hbyte a ha
    rw [(List.cons.inj h).1, hbyte b hb] at h1
    exact (List.idxOf_inj ha).mp (by omega)
  · exact absurd (List.cons.inj h).1 (hzero a ha)
  · exact absurd (List.cons.inj h).1.symm (hzero b hb)
  · exact (List.cons.inj h).2

theorem listedHash_singleton {a b : Bytes} (h : b ≠ a) : listedHash [a] b = listedHash [] b := by
  unfold listedHash
  rw [if_neg (by simpa using h), if_neg List.not_mem_nil]

theorem listedHash_self (a : Bytes) : listedHash [a] a = [1] := by
  unfold listedHash
  rw [if_pos (List.mem_singleton_self a), List.idxOf_cons_self]
  rfl

/-- The sample primitives with a listed hash. -/
def listedEnv (l : List Bytes) : Env := sampleEnv (listedHash l) (listedHash_ne_nil l)

theorem listedEnv_collisionFree {l : List Bytes} (hl : l.length < 255) : (listedEnv l).CollisionFree :=
  listedHash_injective hl

end Namecoin.Types.SampleEnv
