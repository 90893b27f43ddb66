import Namecoin.Chain.Restart

/-! # The target of a fork

`ApplyBlock` moves the target of a live chain on after every block, and `rebuildPowStateForFork`
computes it anew from stored blocks. Both take the difficulty of a block from its header or else keep
the target they have, and both adjust it by the time since the block before unless that time is 0.

* `fork_target`: **after every block of a run** the two agree. -/

namespace Namecoin.Chain.Targets

open Lib.ByteStrings Types.Defs Types.BlockCodec Types.SampleEnv State.Defs Chain.Pow Chain.Stores
open Chain.Defs Chain.Apply Chain.Build Chain.Reload Chain.Restart

variable {E : Env} {cfg : PoWConfig} {c c' : NamecoinChain} {log : List (Block × NamecoinChain)}

/-- A chain that has had no block. -/
structure Blank (c : NamecoinChain) : Prop where
  headHash : c.headHash = none
  headHeight : c.headHeight = 0
  headTS : c.headTS = 0

/-- Successful calls of `ApplyBlock` on a chain, each block with the chain after it,
and the chain at the end. -/
inductive Applies (E : Env) : NamecoinChain → List (Block × NamecoinChain) → NamecoinChain → Prop
  | nil (c : NamecoinChain) : Applies E c [] c
  | cons {c c₁ c' : NamecoinChain} {S S' : Heap} {blk : Block} {log : List (Block × NamecoinChain)} :
    c.applyBlock E S blk = .ok (S', c₁) → Applies E c₁ log c' → Applies E c ((blk, c₁) :: log) c'

/-- The blocks as they are loaded from the store. -/
def stored (E : Env) (log : List (Block × NamecoinChain)) : List LoadedBlock :=
  log.map fun p => loaded E p.1

theorem Applies.snoc {c₁ : NamecoinChain} {S S' : Heap} {blk : Block} (h : Applies E c log c')
    (ha : c'.applyBlock E S blk = .ok (S', c₁)) : Applies E c (log ++ [(blk, c₁)]) c₁ := by
  induction h with
  | nil c => exact .cons ha (.nil _)
  | cons hone _ ih => exact .cons hone (ih ha)

theorem Applies.take (h : Applies E c log c') : ∀ {k : ℕ} {p : Block × NamecoinChain}, log[k]? = some p →
    Applies E c (log.take (k + 1)) p.2 := by
  induction h with
  | nil c => simp
  | cons ha _ ih =>
    intro k p hp
    cases k with
    | zero =>
      cases hp
      exact .cons ha (.nil _)
    | succ k => exact .cons ha (ih hp)

/-! ### Heights -/

theorem Applies.height (h : Applies E c log c') :
    HeadOK c.headHash → ∀ {i : ℕ} {p : Block × NamecoinChain},
    log[i]? = some p → p.1.header.height = nextHeight c + UInt64.ofNat i := by
  induction h with
  | nil c => simp
  | cons ha _ ih =>
    intro hok i p hp
    obtain ⟨st, data, hv, -, -, -, rfl⟩ := (applyBlock_ok_iff hok).mp ha
    have hblk := height_next (validateBlockHeader_ok_iff.mp hv).2.1
    cases i with
    | zero =>
      cases hp
      rw [hblk]
      exact (UInt64.add_zero _).symm
    | succ i =>
      rw [ih (HeadOK.after _ _ _) hp, UInt64.ofNat_add, ← hblk, UInt64.add_comm (UInt64.ofNat i),
        ← UInt64.add_assoc]
      rfl

/-! ### The target after a run -/

theorem Applies.params (h : Applies E c log c') : HeadOK c.headHash →
    c'.powSeed = c.powSeed ∧ c'.powParams = c.powParams := by
  induction h with
  | nil c => exact fun _ => ⟨rfl, rfl⟩
  | cons ha _ ih =>
    intro hok
    obtain ⟨st, data, -, -, -, -, rfl⟩ := (applyBlock_ok_iff hok).mp ha
    exact ih (HeadOK.after _ _ _)

theorem Applies.target (h : Applies E c log c') : HeadOK c.headHash → c.powTarget ≠ none →
    c'.powTarget ≠ none := by
  induction h with
  | nil c => exact fun _ ht => ht
  | cons ha _ ih =>
    intro hok ht
    obtain ⟨st, data, -, -, -, -, rfl⟩ := (applyBlock_ok_iff hok).mp ha
    refine ih (HeadOK.after _ _ _) (nextTarget_ne_none fun hnone => ht ?_)
    exact (Option.or_eq_none_iff.mp hnone).2

/-- **One loop follows the other**: from the target and the time of a live chain, the loop over the
stored blocks leads to those of the chain after them. -/
theorem Applies.forkPowLoop {k : UInt64} (h : Applies E c log c') : HeadOK c.headHash →
    (∀ p ∈ log, p.1.header.height ≤ k) →
    forkPowLoop E k c.powParams (stored E log) c.powTarget c.headTS = (c'.powTarget, c'.headTS) := by
  induction h with
  | nil c => exact fun _ _ => rfl
  | @cons c c₁ c' S S' blk log ha _ ih =>
    intro hok hle
    obtain ⟨st, data, -, -, hdata, -, rfl⟩ := (applyBlock_ok_iff hok).mp ha
    have hheader : (Block.reloaded (settleHash E blk)).header = blk.header := settleHash_header blk
    have hlow : ¬ k < (loaded E blk).height := UInt64.not_lt.mpr (hle _ List.mem_cons_self)
    show Defs.forkPowLoop E k c.powParams (loaded E blk :: stored E log) c.powTarget c.headTS = _
    rw [Defs.forkPowLoop, if_neg hlow, decode_loaded ⟨data, hdata⟩]
    dsimp only
    rw [hheader]
    exact ih (HeadOK.after _ _ _) fun p hp => hle p (List.mem_cons_of_mem _ hp)

/-- **A fork expects the same difficulty** as the chain it copies: for every height of a run, the
target and the time that are rebuilt from the stored blocks up to that height are those the live chain
had right after its block. -/
theorem fork_target (hc : Blank c) (h : Applies E (configurePow cfg c) log c') (k : UInt64) {blk : Block}
    {cₖ : NamecoinChain} (hk : log[k.toNat]? = some (blk, cₖ)) :
    rebuildPowStateForFork E (stored E (log.take (k.toNat + 1))) k c'.powSeed c'.powParams =
      (cₖ.powTarget, cₖ.headTS) := by
  have hok : HeadOK (configurePow cfg c).headHash := by
    show cloneBytes c.headHash = c.headHash
    rw [hc.headHash]
    rfl
  have htarget : (configurePow cfg c).powTarget = some (effectiveTarget cfg.target) :=
    if_pos (.inr ⟨hc.headHash, hc.headHeight⟩)
  have htake := h.take hk
  have hle : ∀ p ∈ log.take (k.toNat + 1), p.1.header.height ≤ k := fun p hp => by
    obtain ⟨i, hi, hget⟩ := List.mem_take_iff_getElem.mp hp
    have hheight := h.height hok (List.getElem?_eq_some_iff.mpr ⟨by omega, hget⟩)
    have hzero : nextHeight (configurePow cfg c) = 0 := if_pos hc.headHash
    have hk64 := k.toNat_lt
    rw [hheight, hzero, UInt64.zero_add, UInt64.le_iff_toNat_le,
      UInt64.toNat_ofNat_of_lt' (show i < 2 ^ 64 by omega)]
    omega
  have hloop := htake.forkPowLoop hok hle
  obtain ⟨hseed, hparams⟩ := h.params hok
  have hts : (configurePow cfg c).headTS = 0 := hc.headTS
  obtain ⟨t, ht⟩ := Option.ne_none_iff_exists'.mp
    (htake.target hok (by rw [htarget]; exact Option.some_ne_none _))
  rw [htarget, hts, ← hparams] at hloop
  unfold rebuildPowStateForFork
  rw [hseed]
  have heff : effectiveTarget (configurePow cfg c).powSeed = effectiveTarget cfg.target := rfl
  rw [heff, hloop]
  dsimp only at ht ⊢
  rw [ht]
  rfl

/-- After two blocks, the second of which has adjusted the target. -/
theorem fork_target_two : ∃ (E : Env) (c c₁ c₂ : NamecoinChain) (b₁ b₂ : Block), Blank c ∧
    Applies E (configurePow zeroPoWConfig c) [(b₁, c₁), (b₂, c₂)] c₂ ∧ c₂.powTarget ≠ c₁.powTarget ∧
    rebuildPowStateForFork E (stored E [(b₁, c₁), (b₂, c₂)]) 1 c₂.powSeed c₂.powParams =
      (c₂.powTarget, c₂.headTS) := by
  obtain ⟨S₁, hone⟩ := apply_one
  obtain ⟨S₂, htwo⟩ := apply_two S₁
  have hblank : Blank (newNamecoinChain 0) := ⟨rfl, rfl, rfl⟩
  have happlies := Applies.cons hone (.cons htwo (.nil _))
  refine ⟨twoEnv, newNamecoinChain 0, _, _, _, _, hblank, happlies, ?_, fork_target hblank happlies 1 rfl⟩
  show some (adjustDifficulty plainEnv (some defaultTarget) 0 _ _ _) ≠ some defaultTarget
  decide +kernel

end Namecoin.Chain.Targets
