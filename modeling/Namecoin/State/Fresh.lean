import Namecoin.State.Invariant

/-! # The transactions of a block that take effect

`applyBlockStrict` skips a transaction whose ID is already applied, also if it was applied earlier in the
same block. `freshTxs` lists the others with their IDs; a run over the block is a run over that list
(`StrictRun.freshRun`, `StrictRun.of_freshRun`). -/

namespace Namecoin.State.Fresh

open Types.Defs Types.TxCodec State.Defs State.Effects State.Invariant

/-- The transactions that are not applied yet, with their IDs; `seen` are the IDs applied so far. -/
def freshTxs (E : Env) : Finset String → List Tx → List (String × Tx)
  | _, [] => []
  | seen, tx :: txs => match buildTransactionID E tx with
    | .error _ => freshTxs E seen txs
    | .ok txID =>
      if txID ∈ seen then freshTxs E seen txs else (txID, tx) :: freshTxs E (insert txID seen) txs

/-- Fresh steps one after the other. -/
inductive FreshRun (E : Env) : List (String × Tx) → NamecoinState → NamecoinState → Prop
  | nil (s : NamecoinState) : FreshRun E [] s s
  | cons {txID : String} {tx : Tx} {rest : List (String × Tx)} {s s₁ s' : NamecoinState} :
    txID ∉ s.txMap → FreshStep E txID tx s s₁ → FreshRun E rest s₁ s' →
    FreshRun E ((txID, tx) :: rest) s s'

variable {E : Env}

theorem freshTxs_cons_new {tx : Tx} {txs : List Tx} {seen : Finset String} {txID : String}
    (hb : buildTransactionID E tx = .ok txID) (hid : txID ∉ seen) :
    freshTxs E seen (tx :: txs) = (txID, tx) :: freshTxs E (insert txID seen) txs := by
  rw [freshTxs, hb]
  exact if_neg hid

theorem freshTxs_build : ∀ {txs : List Tx} {seen : Finset String} {e : String × Tx},
    e ∈ freshTxs E seen txs → e.2 ∈ txs ∧ buildTransactionID E e.2 = .ok e.1 ∧ e.1 ∉ seen
  | [], seen, e, h => by simp [freshTxs] at h
  | tx :: txs, seen, e, h => by
    rw [freshTxs] at h
    cases hb : buildTransactionID E tx with
    | error _ =>
      simp only [hb] at h
      exact ⟨List.mem_cons_of_mem _ (freshTxs_build h).1, (freshTxs_build h).2⟩
    | ok txID =>
      simp only [hb] at h
      split_ifs at h with hs
      · exact ⟨List.mem_cons_of_mem _ (freshTxs_build h).1, (freshTxs_build h).2⟩
      · rcases List.mem_cons.mp h with rfl | h
        · exact ⟨List.mem_cons_self, hb, hs⟩
        · obtain ⟨h1, h2, h3⟩ := freshTxs_build h
          exact ⟨List.mem_cons_of_mem _ h1, h2, fun hm => h3 (Finset.mem_insert_of_mem hm)⟩

theorem freshTxs_nodup : ∀ (txs : List Tx) (seen : Finset String),
    ((freshTxs E seen txs).map Prod.fst).Nodup
  | [], seen => by simp [freshTxs]
  | tx :: txs, seen => by
    rw [freshTxs]
    cases hb : buildTransactionID E tx with
    | error _ => exact freshTxs_nodup txs seen
    | ok txID =>
      dsimp only
      split_ifs
      · exact freshTxs_nodup txs seen
      · rw [List.map_cons, List.nodup_cons]
        refine ⟨fun hm => ?_, freshTxs_nodup txs _⟩
        obtain ⟨e, he, hid⟩ := List.mem_map.mp hm
        exact (freshTxs_build he).2.2 (by rw [hid]; exact Finset.mem_insert_self _ _)

theorem StrictRun.freshRun {txs : List Tx} {s s' : NamecoinState} (h : StrictRun E txs s s') :
    FreshRun E (freshTxs E s.txMap txs) s s' := by
  induction h with
  | nil s => exact .nil s
  | skip hb ha _ ih => rw [freshTxs, hb]; simpa only [if_pos ha] using ih
  | fresh hb ha hf _ ih =>
    rw [freshTxs, hb]
    simp only [if_neg ha]
    rw [freshStep_txMap hf] at ih
    exact .cons ha hf ih

theorem StrictRun.of_freshRun : ∀ {txs : List Tx} {s s' : NamecoinState},
    (∀ tx ∈ txs, ∃ txID, buildTransactionID E tx = .ok txID) →
    FreshRun E (freshTxs E s.txMap txs) s s' → StrictRun E txs s s'
  | [], s, s', _, h => by cases h; exact .nil s
  | tx :: txs, s, s', hb, h => by
    obtain ⟨txID, hid⟩ := hb tx (by simp)
    have hb' : ∀ tx ∈ txs, ∃ txID, buildTransactionID E tx = .ok txID :=
      fun t ht => hb t (List.mem_cons_of_mem _ ht)
    rw [freshTxs, hid] at h
    dsimp only at h
    split_ifs at h with ha
    · exact .skip hid ha (StrictRun.of_freshRun hb' h)
    · cases h with
      | cons _ hf hr =>
        rw [← freshStep_txMap hf] at hr
        exact .fresh hid ha hf (StrictRun.of_freshRun hb' hr)

theorem WellFormed.freshRun {rest : List (String × Tx)} {s s' : NamecoinState}
    (h : FreshRun E rest s s') :
    (∀ e ∈ rest, buildTransactionID E e.2 = .ok e.1) → WellFormed s → WellFormed s' := by
  induction h with
  | nil => exact fun _ hw => hw
  | cons _ hf _ ih =>
    exact fun hb hw => ih (fun e he => hb e (List.mem_cons_of_mem _ he))
      (hw.freshStep (hb _ List.mem_cons_self) hf)

end Namecoin.State.Fresh
