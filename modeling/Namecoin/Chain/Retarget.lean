import Mathlib.Data.Rat.Floor
import Namecoin.Chain.Atomic

/-! # Retargeting

After a block a chain with dynamic adjustment scales the target of the block by the time since the
block before (`AdjustDifficulty`): the longer that took, the larger the next target, within two
factors. The time is a number of nanoseconds in a machine word, computed from the timestamps of two
headers, which nothing checks.

* `adjustDifficulty_eq`: the next target is the target of the block times the ratio of the times, kept
  between the factors, rounded down, and at least 1;
* `laterIsEasier_iff_measured`: of two blocks that differ in their timestamps the one leads to no
  smaller target than the other on every chain exactly if no smaller time is measured for it;
* `later_iff`: for the timestamps of a range around that of the head, later ones never lead to smaller
  targets exactly if the time from the head to either end of the range has room in a machine word;
* `wrapped_spacing`: with the default factors, a second more makes the next target smaller. -/

namespace Namecoin.Chain.Retarget

open Types.Defs Types.BlockCodec Types.SampleEnv State.Strict Chain.Pow Chain.Stores Chain.Defs
open Chain.Apply Chain.Build
open Chain.Atomic (applyBlock_ok checks_of_settleHash)

variable {E : Env} {c c' : NamecoinChain} {S S' : Heap} {a b blk : Block} {t₀ t₁ t₂ t : Int64}

/-! ### The time between two blocks -/

/-- The time between two timestamps as `AdjustDifficulty` takes it: the number of nanoseconds in a
machine word, and a second if that is not positive. -/
def measured (t₀ t : Int64) : ℤ :=
  let ns := ((t.toInt - t₀.toInt) * 1000000000).bmod (2 ^ 64)
  if ns ≤ 0 then 1000000000 else ns

/-- The time between the timestamps is a number of nanoseconds that has room in a machine word. -/
def Fits (t₀ t : Int64) : Prop :=
  -2 ^ 63 ≤ (t.toInt - t₀.toInt) * 1000000000 ∧ (t.toInt - t₀.toInt) * 1000000000 < 2 ^ 63

theorem toInt_spacing (t₀ t : Int64) :
    ((t - t₀) * second).toInt = ((t.toInt - t₀.toInt) * 1000000000).bmod (2 ^ 64) := by
  rw [Int64.toInt_mul, Int64.toInt_sub, Int.bmod_mul_bmod]
  rfl

theorem toInt_normalised (t₀ t : Int64) :
    (if (t - t₀) * second ≤ 0 then second else (t - t₀) * second).toInt = measured t₀ t := by
  have hle : (t - t₀) * second ≤ 0 ↔ ((t.toInt - t₀.toInt) * 1000000000).bmod (2 ^ 64) ≤ 0 := by
    rw [Int64.le_iff_toInt_le, toInt_spacing]
    rfl
  unfold measured
  dsimp only
  split_ifs with h h' h'
  · rfl
  · exact absurd (hle.mp h) h'
  · exact absurd (hle.mpr h') h
  · exact toInt_spacing t₀ t

theorem measured_pos (t₀ t : Int64) : 0 < measured t₀ t := by
  unfold measured
  dsimp only
  split_ifs with h
  · decide
  · exact Int.not_le.mp h

theorem measured_lt (t₀ t : Int64) : measured t₀ t < 2 ^ 63 := by
  rw [← toInt_normalised]
  exact Int64.toInt_lt _

theorem measured_mono (h₁ : Fits t₀ t₁) (h₂ : Fits t₀ t₂) (h : t₁ ≤ t₂) :
    measured t₀ t₁ ≤ measured t₀ t₂ := by
  have hns : ∀ {t}, Fits t₀ t → ((t.toInt - t₀.toInt) * 1000000000).bmod (2 ^ 64) =
      (t.toInt - t₀.toInt) * 1000000000 := fun hf => Int.bmod_eq_of_le hf.1 hf.2
  have hle := Int64.le_iff_toInt_le.mp h
  unfold measured
  dsimp only
  rw [hns h₁, hns h₂]
  split_ifs <;> omega

theorem fits_of_between {lo hi : Int64} (hlo : Fits t₀ lo) (hhi : Fits t₀ hi)
    (h₁ : lo ≤ t) (h₂ : t ≤ hi) :
    Fits t₀ t := by
  have hle₁ := Int64.le_iff_toInt_le.mp h₁
  have hle₂ := Int64.le_iff_toInt_le.mp h₂
  unfold Fits at *
  omega

theorem measured_of_distance {d : ℤ} (h : t.toInt = t₀.toInt + d) :
    measured t₀ t = if (d * 1000000000).bmod (2 ^ 64) ≤ 0 then 1000000000
      else (d * 1000000000).bmod (2 ^ 64) := by
  unfold measured
  rw [h, add_sub_cancel_left]

theorem exists_between {lo hi : Int64} {d : ℤ} (h₁ : lo.toInt ≤ t₀.toInt + d)
    (h₂ : t₀.toInt + d ≤ hi.toInt) :
    ∃ t : Int64, t.toInt = t₀.toInt + d := by
  have hmin := Int64.le_toInt lo
  have hmax := Int64.toInt_lt hi
  exact ⟨.ofInt (t₀.toInt + d), Int64.toInt_ofInt_of_le (by omega) (by omega)⟩

theorem measured_wraps {hi : Int64} (h : t₀ ≤ hi) (hfits : ¬ Fits t₀ hi) :
    ∃ t₁ t₂, t₀ ≤ t₁ ∧ t₁ ≤ t₂ ∧ t₂ ≤ hi ∧ measured t₀ t₂ < measured t₀ t₁ := by
  have hle := Int64.le_iff_toInt_le.mp h
  unfold Fits at hfits
  obtain ⟨t₁, h₁⟩ : ∃ t : Int64, t.toInt = t₀.toInt + 9223372036 :=
    exists_between (show t₀.toInt ≤ _ by omega) (show _ ≤ hi.toInt by omega)
  obtain ⟨t₂, h₂⟩ : ∃ t : Int64, t.toInt = t₀.toInt + 9223372037 :=
    exists_between (show t₀.toInt ≤ _ by omega) (show _ ≤ hi.toInt by omega)
  refine ⟨t₁, t₂, ?_, ?_, ?_, ?_⟩
  · exact Int64.le_iff_toInt_le.mpr (by omega)
  · exact Int64.le_iff_toInt_le.mpr (by omega)
  · exact Int64.le_iff_toInt_le.mpr (by omega)
  · rw [measured_of_distance h₁, measured_of_distance h₂]
    decide

theorem measured_wraps_back {lo : Int64} (h : lo ≤ t₀) (hfits : ¬ Fits t₀ lo) :
    ∃ t, lo ≤ t ∧ t ≤ t₀ ∧ measured t₀ t₀ < measured t₀ t := by
  have hle := Int64.le_iff_toInt_le.mp h
  unfold Fits at hfits
  obtain ⟨t, ht⟩ : ∃ t : Int64, t.toInt = t₀.toInt + (-9223372037) :=
    exists_between (show lo.toInt ≤ _ by omega) (show _ ≤ t₀.toInt by omega)
  refine ⟨t, ?_, ?_, ?_⟩
  · exact Int64.le_iff_toInt_le.mpr (by omega)
  · exact Int64.le_iff_toInt_le.mpr (by omega)
  · rw [measured_of_distance ht, measured_of_distance (Int.add_zero _).symm]
    decide

/-! ### The next target -/

/-- The ratio of two times, kept between two factors. -/
def clamped (down up r : ℚ) : ℚ := max down (min r up)

/-- A target times a factor, rounded down, and at least 1. -/
def scaled (T : ℤ) (r : ℚ) : ℤ := max 1 ⌊T * r⌋

theorem scaled_mono {T : ℤ} (hT : 0 ≤ T) {r r' : ℚ} (h : r ≤ r') : scaled T r ≤ scaled T r' := by
  have hT' : (0 : ℚ) ≤ T := by exact_mod_cast hT
  exact max_le_max_left 1 (Int.floor_le_floor (mul_le_mul_of_nonneg_left h hT'))

theorem scaled_intCast {T m : ℤ} (hT : 1 ≤ T) (hm : 1 ≤ m) : scaled T m = T * m := by
  unfold scaled
  rw [← Int.cast_mul, Int.floor_intCast, max_eq_right (one_le_mul_of_one_le_of_one_le hT hm)]

theorem clamped_mono (down up : ℚ) {r r' : ℚ} (h : r ≤ r') : clamped down up r ≤ clamped down up r' :=
  max_le_max_left down (min_le_min_right up h)

theorem clamped_bounds {down up : ℚ} (h : down ≤ up) (r : ℚ) : down ≤ clamped down up r ∧
    clamped down up r ≤ up :=
  ⟨le_max_left _ _, max_le h (min_le_right _ _)⟩

/-- The time that blocks are meant to take. -/
def blockTime (targetBlockTime : Int64) : Int64 :=
  if targetBlockTime ≤ 0 then defaultTargetBlockTime else targetBlockTime

theorem blockTime_pos (targetBlockTime : Int64) : 0 < (blockTime targetBlockTime).toInt := by
  unfold blockTime
  split_ifs with h
  · decide
  · exact Int.not_le.mp fun hle => h (Int64.le_iff_toInt_le.mpr hle)

/-- **`AdjustDifficulty`.** -/
theorem adjustDifficulty_eq {target : Option ℤ} (hT : 0 ≤ effectiveTarget target) {up down : ℚ}
    (hdown : 0 < down) (hle : down ≤ up) (spacing targetBlockTime : Int64) :
    adjustDifficulty E target spacing targetBlockTime up down = scaled (effectiveTarget target)
      (clamped down up (E.floatRatio (if spacing ≤ 0 then second else spacing)
        (blockTime targetBlockTime))) := by
  have hclamp : ∀ r : ℚ, (if r < down then down else if up < r then up else r) = clamped down up r :=
      fun r => by
    unfold clamped
    split_ifs with h₁ h₂
    · rw [min_eq_left (h₁.le.trans hle), max_eq_left h₁.le]
    · rw [min_eq_right h₂.le, max_eq_right hle]
    · rw [min_eq_left (not_lt.mp h₂), max_eq_right (not_lt.mp h₁)]
  have hout : ∀ r : ℚ, 0 < r →
      (if (effectiveTarget target * r : ℚ).num / (effectiveTarget target * r : ℚ).den = 0 then 1
        else (effectiveTarget target * r : ℚ).num / (effectiveTarget target * r : ℚ).den) =
      scaled (effectiveTarget target) r := fun r hr => by
    have hnonneg : 0 ≤ ⌊(effectiveTarget target * r : ℚ)⌋ :=
      Int.floor_nonneg.mpr (mul_nonneg (by exact_mod_cast hT) hr.le)
    unfold scaled
    rw [Rat.floor_def'] at hnonneg ⊢
    split_ifs with hz <;> omega
  unfold adjustDifficulty
  dsimp only
  rw [if_neg (not_le.mpr (hdown.trans_le hle)), if_neg (not_le.mpr hdown), hclamp]
  exact hout _ (hdown.trans_le (clamped_bounds hle _).1)

/-! ### Accepted blocks -/

/-- The target of a block: that of its header, or else the one of the chain. -/
def targetOf (c : NamecoinChain) (blk : Block) : Option ℤ :=
  (decodeDifficulty blk.header.difficulty).or c.powTarget

theorem targetOf_nonneg (h : c.applyBlock E S blk = .ok (S', c')) :
    0 ≤ effectiveTarget (targetOf c blk) := by
  obtain ⟨st, data, hheader, -⟩ := applyBlock_ok h
  obtain ⟨-, -, t, ht, hwork⟩ := checks_of_settleHash hheader
  have htarget : t = targetOf c blk := by
    unfold enforceDifficultyTarget at ht
    unfold targetOf
    cases hd : decodeDifficulty blk.header.difficulty with
    | none =>
      rw [hd] at ht
      exact (Except.ok.inj ht).symm
    | some bt =>
      rw [hd] at ht
      cases hc : c.powTarget with
      | none =>
        rw [hc] at ht
        exact (Except.ok.inj ht).symm
      | some ct =>
        rw [hc] at ht
        dsimp only at ht
        split_ifs at ht
        exact (Except.ok.inj ht).symm
  unfold validateWorkForTarget at hwork
  split_ifs at hwork with hle
  rw [← htarget]
  exact (Int.natCast_nonneg _).trans hle

/-- The parameters of a chain that adjusts its target. -/
structure Adjusts (c : NamecoinChain) : Prop where
  dynamic : c.powParams.dynamic = true
  down : 0 < c.powParams.maxAdjustDown
  le : c.powParams.maxAdjustDown ≤ c.powParams.maxAdjustUp

/-- **The target after a block.** -/
theorem powTarget_after (hc : Adjusts c) (hts : c.headTS ≠ 0) (h : c.applyBlock E S blk = .ok (S', c')) :
    c'.powTarget = some (scaled (effectiveTarget (targetOf c blk)) (clamped c.powParams.maxAdjustDown
      c.powParams.maxAdjustUp (E.floatRatio (if (blk.header.timestamp - c.headTS) * second ≤ 0 then second
        else (blk.header.timestamp - c.headTS) * second) (blockTime c.powParams.targetBlockTime)))) := by
  have hT := targetOf_nonneg h
  obtain ⟨st, data, -, -, -, rfl⟩ := applyBlock_ok h
  show nextTarget E c.powParams (targetOf c blk) c.headTS blk.header.timestamp = _
  unfold nextTarget
  rw [if_pos ⟨hc.dynamic, hts⟩, adjustDifficulty_eq hT hc.down hc.le]

/-- The ratio of two times, without rounding. -/
def Exact (E : Env) : Prop := ∀ x y : Int64, E.floatRatio x y = (x.toInt : ℚ) / y.toInt

/-- Blocks that differ in their timestamps, and may differ in their `Hash`. -/
structure Restamped (a b : Block) : Prop where
  header : { a.header with timestamp := b.header.timestamp } = b.header
  transactions : a.transactions = b.transactions

theorem Restamped.targetOf_eq (h : Restamped a b) (c : NamecoinChain) : targetOf c a = targetOf c b := by
  unfold targetOf
  rw [← h.header]

/-- The next target of a chain is between the target `T` times the one factor and times the other. -/
def Within (c : NamecoinChain) (T next : ℤ) : Prop :=
  scaled T c.powParams.maxAdjustDown ≤ next ∧ next ≤ scaled T c.powParams.maxAdjustUp

/-- What two timestamps `t₁` and `t₂` of the next block do to the target after it, on any chain
with the head timestamp `t₀`: the later one does not lead to the smaller target, and both
targets are within the bounds. -/
def LaterIsEasier (E : Env) (t₀ t₁ t₂ : Int64) : Prop :=
  ∀ (c c₁ c₂ : NamecoinChain) (S S₁ S₂ : Heap) (a b : Block), Adjusts c → c.headTS = t₀ → Restamped a b →
    a.header.timestamp = t₁ → b.header.timestamp = t₂ →
    c.applyBlock E S a = .ok (S₁, c₁) → c.applyBlock E S b = .ok (S₂, c₂) →
    ∃ T₁ T₂, c₁.powTarget = some T₁ ∧ c₂.powTarget = some T₂ ∧ T₁ ≤ T₂ ∧
      Within c (effectiveTarget (targetOf c a)) T₁ ∧ Within c (effectiveTarget (targetOf c b)) T₂

theorem within_scaled (hc : Adjusts c) {T : ℤ} (hT : 0 ≤ T) (r : ℚ) :
    Within c T (scaled T (clamped c.powParams.maxAdjustDown c.powParams.maxAdjustUp r)) := by
  obtain ⟨hdown, hup⟩ := clamped_bounds hc.le r
  exact ⟨scaled_mono hT hdown, scaled_mono hT hup⟩

/-- **If the later block is measured as the later one**, it does not lead to the smaller target. -/
theorem laterIsEasier_of_measured (hE : Exact E) (h0 : t₀ ≠ 0) (h : measured t₀ t₁ ≤ measured t₀ t₂) :
    LaterIsEasier E t₀ t₁ t₂ := by
  rintro c c₁ c₂ S S₁ S₂ a b hc rfl hab rfl rfl ha hb
  have hT := targetOf_nonneg ha
  have hsame := hab.targetOf_eq c
  refine ⟨_, _, powTarget_after hc h0 ha, powTarget_after hc h0 hb, ?_, within_scaled hc hT _,
    within_scaled hc (hsame ▸ hT) _⟩
  rw [← hsame, hE, hE, toInt_normalised, toInt_normalised]
  refine scaled_mono hT (clamped_mono _ _ ?_)
  have hpos : (0 : ℚ) < (blockTime c.powParams.targetBlockTime).toInt := by exact_mod_cast blockTime_pos _
  exact div_le_div_of_nonneg_right (by exact_mod_cast h) hpos.le

/-! ### A chain and two blocks for any timestamps -/

/-- A block without transactions and with the given timestamp. -/
def stamped (E : Env) (height : UInt64) (prev : Slice UInt8) (t : Int64) : Block :=
  ⟨⟨height, prev, some (rootOf E []), t, 0, "", none⟩, [], none⟩

theorem applyBlock_stamped (hok : HeadOK c.headHash) (height : UInt64) (hheight : height = nextHeight c)
    (t : Int64) (hwork : (workOf E (stamped E height c.headHash t) : ℤ) ≤ effectiveTarget c.powTarget)
    (S : Heap) :
    ∃ S' st, c.applyBlock E S (stamped E height c.headHash t) =
      .ok (S', chainAfter E c (stamped E height c.headHash t) st) := by
  have hnext : NextBlock E c (stamped E height c.headHash t) :=
    ⟨.inl rfl, hheight, rfl, rfl, List.forall_mem_nil _, rfl, hwork⟩
  obtain ⟨data, -, happ⟩ := hnext.applyBlock (S := S) hok (.nil _)
  exact ⟨_, _, happ⟩

/-- **Any timestamps come about**: a chain with the given parameters whose first block has the
timestamp `t₀`, and two blocks on top of it that differ in their timestamps `t₁` and `t₂`. -/
theorem exists_stamped (E : Env) (cfg : PoWConfig) (t₀ t₁ t₂ : Int64) :
    ∃ (T : ℤ) (c c₁ c₂ : NamecoinChain) (S₁ S₂ : Heap) (a b : Block), 1 ≤ T ∧ ReachedChain E c ∧
      c.powParams = powParamsFromConfig cfg ∧ c.headTS = t₀ ∧ Restamped a b ∧ a.header.timestamp = t₁ ∧
      b.header.timestamp = t₂ ∧ targetOf c a = some T ∧ targetOf c b = some T ∧
      c.applyBlock E [] a = .ok (S₁, c₁) ∧ c.applyBlock E [] b = .ok (S₂, c₂) := by
  let g := stamped E 0 none t₀
  let a := stamped E 1 (some (computeHash E g)) t₁
  let b := stamped E 1 (some (computeHash E g)) t₂
  obtain ⟨T, hT, hg, ha, hb⟩ : ∃ T : ℤ, 1 ≤ T ∧ (workOf E g : ℤ) ≤ T ∧ (workOf E a : ℤ) ≤ T ∧
      (workOf E b : ℤ) ≤ T :=
    ⟨1 + workOf E g + workOf E a + workOf E b, by omega, by omega, by omega, by omega⟩
  let c₀ := configurePow { cfg with target := some T } (newNamecoinChain 0)
  obtain ⟨S, st, hfirst⟩ := applyBlock_stamped (c := c₀) rfl 0 rfl t₀ hg []
  -- there is no time to compare the first block with, so the target stays
  have htarget : (chainAfter E c₀ g st).powTarget = some T := by
    show nextTarget E _ _ 0 t₀ = some T
    unfold nextTarget
    rw [if_neg fun h => h.2 rfl]
    rfl
  have hle : ∀ {x : ℕ}, (x : ℤ) ≤ T → (x : ℤ) ≤ effectiveTarget (chainAfter E c₀ g st).powTarget :=
      fun h => by
    rw [htarget]
    exact h
  obtain ⟨S₁, st₁, hone⟩ := applyBlock_stamped (c := chainAfter E c₀ g st) (HeadOK.after _ _ _) 1
    rfl t₁ (hle ha) []
  obtain ⟨S₂, st₂, htwo⟩ := applyBlock_stamped (c := chainAfter E c₀ g st) (HeadOK.after _ _ _) 1
    rfl t₂ (hle hb) []
  exact ⟨T, _, _, _, _, _, a, b, hT, .step (.empty 0 _) hfirst, rfl, rfl, ⟨rfl, rfl⟩, rfl, rfl,
    htarget, htarget, hone, htwo⟩

/-! ### When the later block is the easier one -/

/-- Parameters that pass every time on: blocks are meant to take a nanosecond, and no
time is beyond the factors. -/
def wideConfig : PoWConfig := ⟨none, false, 1, 2 ^ 63, 1, ""⟩

theorem scaled_wide {T : ℤ} (hT : 1 ≤ T) (t₀ t : Int64) :
    scaled T (clamped 1 (2 ^ 63) ((measured t₀ t : ℚ) / (1 : ℤ))) = T * measured t₀ t := by
  have hpos : (1 : ℚ) ≤ measured t₀ t := by exact_mod_cast measured_pos t₀ t
  have hlt : (measured t₀ t : ℚ) ≤ 2 ^ 63 := by exact_mod_cast (measured_lt t₀ t).le
  unfold clamped
  rw [Int.cast_one, div_one, min_eq_left hlt, max_eq_right hpos]
  exact scaled_intCast hT (measured_pos t₀ t)

/-- **Two timestamps.** On all chains with the head timestamp `t₀` a block with the timestamp `t₂` does
not lead to a smaller target than the same block with the timestamp `t₁`, exactly if the time that is
measured for `t₂` is not below the one for `t₁`. -/
theorem laterIsEasier_iff_measured (hE : Exact E) (h0 : t₀ ≠ 0) :
    LaterIsEasier E t₀ t₁ t₂ ↔ measured t₀ t₁ ≤ measured t₀ t₂ := by
  constructor
  · intro h
    obtain ⟨T, c, c₁, c₂, S₁, S₂, a, b, hT, -, hparams, hts, hab, hat, hbt, hTa, hTb, ha, hb⟩ :=
      exists_stamped E wideConfig t₀ t₁ t₂
    have hc : Adjusts c := by
      constructor <;> rw [hparams] <;> norm_num [powParamsFromConfig, wideConfig]
    have htime : blockTime (powParamsFromConfig wideConfig).targetBlockTime = 1 := by decide
    obtain ⟨T₁, T₂, h₁, h₂, hle, -⟩ := h c c₁ c₂ [] S₁ S₂ a b hc hts hab hat hbt ha hb
    rw [powTarget_after hc (hts ▸ h0) ha, hTa, hat, hparams, htime, hts, hE, toInt_normalised] at h₁
    rw [powTarget_after hc (hts ▸ h0) hb, hTb, hbt, hparams, htime, hts, hE, toInt_normalised] at h₂
    have h₁' : T * measured t₀ t₁ = T₁ := (scaled_wide hT t₀ t₁).symm.trans (Option.some.inj h₁)
    have h₂' : T * measured t₀ t₂ = T₂ := (scaled_wide hT t₀ t₂).symm.trans (Option.some.inj h₂)
    rw [← h₁', ← h₂'] at hle
    exact le_of_mul_le_mul_left hle (show 0 < T by omega)
  · exact laterIsEasier_of_measured hE h0

/-- **Later blocks and easier targets.** For the head timestamp `t₀` and any two timestamps of a
range around it, the later one does not lead to the smaller target on any chain, and both targets are
within the factors, exactly if the number of nanoseconds from `t₀` to either end of the range has
room in a machine word. -/
theorem later_iff (hE : Exact E) (h0 : t₀ ≠ 0) {lo hi : Int64} (hlo : lo ≤ t₀) (hhi : t₀ ≤ hi) :
    (∀ t₁ t₂, lo ≤ t₁ → t₁ ≤ t₂ → t₂ ≤ hi → LaterIsEasier E t₀ t₁ t₂) ↔ Fits t₀ lo ∧ Fits t₀ hi := by
  constructor
  · intro h
    have hmono : ∀ {t₁ t₂}, lo ≤ t₁ → t₁ ≤ t₂ → t₂ ≤ hi → ¬ measured t₀ t₂ < measured t₀ t₁ :=
        fun h₁ h₁₂ h₂ =>
      Int.not_lt.mpr ((laterIsEasier_iff_measured hE h0).mp (h _ _ h₁ h₁₂ h₂))
    constructor
    · by_contra hfits
      obtain ⟨t, hlt, hle, hwrap⟩ := measured_wraps_back hlo hfits
      exact hmono hlt hle hhi hwrap
    · by_contra hfits
      obtain ⟨t₁, t₂, h₁, h₁₂, h₂, hwrap⟩ := measured_wraps hhi hfits
      exact hmono (Int64.le_trans hlo h₁) h₁₂ h₂ hwrap
  · rintro ⟨hflo, hfhi⟩ t₁ t₂ h₁ h₁₂ h₂
    refine laterIsEasier_of_measured hE h0 (measured_mono ?_ ?_ h₁₂)
    · exact fits_of_between hflo hfhi h₁ (Int64.le_trans h₁₂ h₂)
    · exact fits_of_between hflo hfhi (Int64.le_trans h₁ h₁₂) h₂

theorem exact_plainEnv : Exact plainEnv := fun _ _ => rfl

/-- The timestamps of the years before and after the head. -/
theorem later_within_a_year : Exact plainEnv ∧ (31536000 : Int64) ≠ 0 ∧ (0 : Int64) ≤ 31536000 ∧
    (31536000 : Int64) ≤ 63072000 ∧ ∀ t₁ t₂, 0 ≤ t₁ → t₁ ≤ t₂ → t₂ ≤ 63072000 →
      LaterIsEasier plainEnv 31536000 t₁ t₂ := by
  have hfits : Fits 31536000 0 ∧ Fits 31536000 63072000 := by
    unfold Fits
    decide
  exact ⟨exact_plainEnv, by decide, by decide, by decide,
    (later_iff exact_plainEnv (by decide) (by decide) (by decide)).mpr hfits⟩

/-- **A second more makes the next target smaller.** The time since the head is 9223372036 seconds for
the one block, the largest number of seconds that has room in a machine word of nanoseconds, and a
second more for the other. -/
theorem wrapped_spacing : ∃ (E : Env) (c c₁ c₂ : NamecoinChain) (S₁ S₂ : Heap) (a b : Block)
      (T₁ T₂ : ℤ), Exact E ∧
    ReachedChain E c ∧ c.powParams = powParamsFromConfig zeroPoWConfig ∧ Adjusts c ∧
    c.headTS = 1 ∧ Restamped a b ∧ a.header.timestamp = 9223372037 ∧ b.header.timestamp = 9223372038 ∧
    c.applyBlock E [] a = .ok (S₁, c₁) ∧ c.applyBlock E [] b = .ok (S₂, c₂) ∧
    c₁.powTarget = some T₁ ∧ c₂.powTarget = some T₂ ∧ T₂ < T₁ := by
  obtain ⟨T, c, c₁, c₂, S₁, S₂, a, b, hT, hreach, hparams, hts, hab, hat, hbt, hTa, hTb, ha, hb⟩ :=
    exists_stamped plainEnv zeroPoWConfig 1 9223372037 9223372038
  have hc : Adjusts c := by
    constructor <;> rw [hparams] <;>
      norm_num [powParamsFromConfig, zeroPoWConfig, defaultMaxAdjustDown, defaultMaxAdjustUp]
  have h0 : c.headTS ≠ 0 := by
    rw [hts]
    decide
  refine ⟨plainEnv, c, c₁, c₂, S₁, S₂, a, b, _, _, exact_plainEnv, hreach, hparams, hc, hts, hab,
    hat, hbt, ha, hb, powTarget_after hc h0 ha, powTarget_after hc h0 hb, ?_⟩
  have htime : (blockTime (powParamsFromConfig zeroPoWConfig).targetBlockTime).toInt = 10000000000 := by
    decide
  have hm₁ : measured 1 9223372037 = 9223372036000000000 := by decide
  have hm₂ : measured 1 9223372038 = 1000000000 := by decide
  rw [exact_plainEnv, exact_plainEnv, hat, hbt, hts, toInt_normalised, toInt_normalised, hparams,
    htime, hm₁, hm₂, hTa, hTb]
  have hsmall : clamped (powParamsFromConfig zeroPoWConfig).maxAdjustDown
      (powParamsFromConfig zeroPoWConfig).maxAdjustUp (((1000000000 : ℤ) : ℚ) / (10000000000 : ℤ)) ≤
      (1 : ℤ) := by
    norm_num [clamped, powParamsFromConfig, zeroPoWConfig, defaultMaxAdjustDown, defaultMaxAdjustUp]
  have hlarge : ((4 : ℤ) : ℚ) ≤ clamped (powParamsFromConfig zeroPoWConfig).maxAdjustDown
      (powParamsFromConfig zeroPoWConfig).maxAdjustUp
      (((9223372036000000000 : ℤ) : ℚ) / (10000000000 : ℤ)) := by
    norm_num [clamped, powParamsFromConfig, zeroPoWConfig, defaultMaxAdjustDown, defaultMaxAdjustUp]
  calc scaled T _ ≤ scaled T (1 : ℤ) := scaled_mono (by omega) hsmall
    _ = T * 1 := scaled_intCast hT le_rfl
    _ < T * 4 := by omega
    _ = scaled T (4 : ℤ) := (scaled_intCast hT (by decide)).symm
    _ ≤ scaled T _ := scaled_mono (by omega) hlarge

end Namecoin.Chain.Retarget
