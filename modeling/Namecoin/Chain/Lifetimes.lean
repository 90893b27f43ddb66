import Namecoin.Chain.History
import Namecoin.State.Expiry

/-! # Lifetimes of names on a chain

On a chain whose heights do not come near the largest machine word (`Low`), the expiry index agrees
with the records (`ReachedBy.indexed`). So a block at a height prunes exactly the names that have
expired by then (`index_agrees`). -/

namespace Namecoin.Chain.Lifetimes

open Types.Defs Types.TxCodec Types.SampleEnv State.Defs State.Strict State.Effects State.Invariant
open State.Fresh State.Expiry State.Wallet Chain.Stores Chain.Defs Chain.Apply Chain.Registration
open Chain.Ownership Chain.History

variable {E : Env} {c c' : NamecoinChain} {S S' : Heap} {blk : Block}

/-- The height of a block leaves room for the lifetime of a name. -/
def Low (blk : Block) : Prop := blk.header.height.toNat < 2 ^ 64 - maxDomainTTLBlocks.toNat

theorem Low.room (h : Low blk) : blk.header.height.toNat + maxDomainTTLBlocks.toNat < 2 ^ 64 := by
  unfold Low at h
  omega

theorem applied_height (hc : ReachedChain E c) (ha : c.applyBlock E S blk = .ok (S', c')) :
    c'.state.currentHeight = blk.header.height := by
  obtain ⟨st, hrun, heq⟩ := hc.freshRun ha
  have hheight : st.currentHeight = (atHeight blk.header.height c.state).currentHeight :=
    FreshRun.induct (P := fun _ s => s.currentHeight = (atHeight blk.header.height c.state).currentHeight)
      (fun _ _ _ _ _ _ _ _ hf ih => (freshStep_height hf).trans ih) hrun (List.nil_append _).symm rfl
  rw [heq]
  exact hheight.trans (atHeight_currentHeight _ _)

theorem state_height (hc : ReachedChain E c) :
    if c.headHash = none then c.state = newState else c.state.currentHeight = c.headHeight := by
  cases hc with
  | empty store cfg => exact if_pos rfl ▸ rfl
  | step hr ha =>
    have hheight := applied_height hr ha
    obtain ⟨st, data, -, -, -, -, rfl⟩ := (applyBlock_ok_iff hr.headOK).mp ha
    exact hheight

theorem height_le (hc : ReachedChain E c)
    (hlow : c.state.currentHeight.toNat + maxDomainTTLBlocks.toNat < 2 ^ 64)
    (ha : c.applyBlock E S blk = .ok (S', c')) :
    c.state.currentHeight.toNat ≤ blk.header.height.toNat := by
  obtain ⟨st, hv, -⟩ := hc.applied ha
  have hnext := ensureNextBlockFollows_ok_iff.mp (validateBlockHeader_ok_iff.mp hv).2.1
  have hstate := state_height hc
  split_ifs at hnext hstate with hnone
  · rw [hstate]
    exact Nat.zero_le _
  · have hone : (1 : ℕ) ≤ maxDomainTTLBlocks.toNat := by decide
    rw [hstate] at hlow ⊢
    rw [hnext.1, UInt64.toNat_add, UInt64.toNat_one, Nat.mod_eq_of_lt (by omega)]
    exact Nat.le_succ _

/-- **The transactions of a block** keep the index. -/
theorem indexed_freshRun {rest : List (String × Tx)} {s s' : NamecoinState} (hw : WellFormed s)
    (hi : Indexed s) (hroom : s.currentHeight.toNat + maxDomainTTLBlocks.toNat < 2 ^ 64)
    (hb : ∀ p ∈ rest, buildTransactionID E p.2 = .ok p.1) (hrun : FreshRun E rest s s') : Indexed s' := by
  refine (FreshRun.induct
    (P := fun _ s₁ => s₁.currentHeight = s.currentHeight ∧ WellFormed s₁ ∧ Indexed s₁)
    (fun pre id tx post s₀ s₁ hall _ hf ih => ?_) hrun (List.nil_append _).symm ⟨rfl, hw, hi⟩).2.2
  obtain ⟨hh, hw₀, hi₀⟩ := ih
  have hid := hb (id, tx) (by rw [hall]; simp)
  exact ⟨(freshStep_height hf).trans hh, hw₀.freshStep hid hf,
    hi₀.freshStep (by rw [hh]; exact hroom) hw₀.ttl hf⟩

/-- **The index** of a chain agrees with its records. -/
theorem indexed (hc : ReachedBy E Low c) :
    c.state.currentHeight.toNat + maxDomainTTLBlocks.toNat < 2 ^ 64 ∧ Indexed c.state := by
  induction hc with
  | empty store cfg =>
    exact ⟨(by decide : newState.currentHeight.toNat + maxDomainTTLBlocks.toNat < 2 ^ 64),
      indexed_newState⟩
  | @step S S' c c' blk hr hlow ha ih =>
    have hheight := applied_height hr.reached ha
    refine ⟨by rw [hheight]; exact hlow.room, ?_⟩
    obtain ⟨st, hrun, heq⟩ := hr.reached.freshRun ha
    have hstart := ih.2.atHeight (height_le hr.reached ih.1 ha)
    have hroom : (atHeight blk.header.height c.state).currentHeight.toNat + maxDomainTTLBlocks.toNat <
        2 ^ 64 := by
      rw [atHeight_currentHeight]; exact hlow.room
    have hb : ∀ p ∈ freshOf E c blk, buildTransactionID E p.2 = .ok p.1 :=
      fun p hp => (freshTxs_build hp).2.1
    have hst := indexed_freshRun (hr.reached.wellFormed.1.atHeight _) hstart hroom hb hrun
    rw [heq]
    exact hst.of_eq rfl rfl rfl

/-- What the expiry index of a state says of the records. -/
structure Agrees (s : NamecoinState) : Prop where
  record : ∀ d r, s.domains.lookup d = some r → r.domain = d ∧ s.currentHeight.toNat < r.expiresAt.toNat ∧
    r.expiresAt.toNat ≤ s.currentHeight.toNat + maxDomainTTLBlocks.toNat
  once : ∀ d r, s.domains.lookup d = some r → ∀ k, (bucket s k).count d = if k = r.expiresAt then 1 else 0
  listed : ∀ k d, d ∈ bucket s k → ∃ r, s.domains.lookup d = some r ∧ r.expiresAt = k

theorem agrees_of_indexed {s : NamecoinState} (h : Indexed s) : Agrees s := by
  refine ⟨fun d r hd => ⟨h.named d r hd, h.live d r hd⟩, fun d r hd k => ?_, fun k d hd => ?_⟩
  · rw [h.index, hd, expected]
    simp only [eq_comm]
  · have hcount := h.index k d
    have hpos := List.count_pos_iff.mpr hd
    cases hr : s.domains.lookup d with
    | none =>
      rw [hr, expected] at hcount
      omega
    | some r =>
      refine ⟨r, rfl, ?_⟩
      by_contra hne
      rw [hr, expected, if_neg hne] at hcount
      omega

/-- **The expiry index agrees with the records** in every state of a chain at low heights. A further block
leaves no record that expires at or before its height, and prunes no record that expires later. -/
theorem index_agrees (hc : ReachedBy E Low c) : Agrees c.state ∧
    ∀ (S S' : Heap) (blk : Block) (c' : NamecoinChain), Low blk → c.applyBlock E S blk = .ok (S', c') →
      Agrees c'.state ∧ (∀ d r, c'.state.domains.lookup d = some r → blk.header.height < r.expiresAt) ∧
      ∀ d r, c.state.domains.lookup d = some r → blk.header.height < r.expiresAt →
        (atHeight blk.header.height c.state).domains.lookup d = some r ∧ d ∈ c'.state.domains := by
  refine ⟨agrees_of_indexed (indexed hc).2, fun S S' blk c' hlow ha => ?_⟩
  have hi := (indexed (.step hc hlow ha)).2
  refine ⟨agrees_of_indexed hi, fun d r hd => ?_, fun d r hd hlt => ?_⟩
  · rw [UInt64.lt_iff_toNat_lt, ← applied_height hc.reached ha]
    exact (hi.live d r hd).1
  · have hd₀ := (indexed hc).2.atHeight_some.mpr ⟨hd, hlt⟩
    refine ⟨hd₀, ?_⟩
    obtain ⟨st, -, hst, hc'⟩ := hc.reached.applied ha
    have hlive : ¬ isExpired r (atHeight blk.header.height c.state).currentHeight := by
      rw [atHeight_currentHeight]
      exact fun h => absurd (UInt64.lt_of_lt_of_le hlt h.2) (UInt64.lt_irrefl _)
    rw [hc']
    rcases strictRun_record (applyBlockStrict_ok_iff.mp hst) (hc.reached.wellFormed.1.atHeight _)
      hd₀ (.inl hlive) with h | ⟨-, r', h, -⟩
    · exact Finmap.mem_of_lookup_eq_some h
    · exact Finmap.mem_of_lookup_eq_some h

/-- A chain on which a name is registered. -/
theorem index_agrees_site : ∃ (E : Env) (c : NamecoinChain), ReachedBy E Low c ∧
    "site" ∈ c.state.domains ∧ Agrees c.state := by
  obtain ⟨s₀, s₁, r, -, -, hrun₁, hr, -⟩ := register_ledger plainEnv_collisionFree plainEnv_canonicalJson
    (plainSigner 7) (show "site" ≠ "" by decide)
  obtain ⟨c, -, -, -, hc, hst, -⟩ := hrun₁.reached (by simp) (.nil _) []
  have hlow : ReachedBy _ Low c := hc.mono fun b hb => by
    have htwo : b.header.height.toNat < 2 := hb
    have hroom : 2 ≤ 2 ^ 64 - maxDomainTTLBlocks.toNat := by decide
    exact lt_of_lt_of_le htwo hroom
  exact ⟨_, c, hlow, by rw [hst]; exact Finmap.mem_of_lookup_eq_some hr, (index_agrees hlow).1⟩

end Namecoin.Chain.Lifetimes
