import Namecoin.State.Invariant

/-! # The canonical spend

What `DeterministicSpendPlan` returns (`CanonicalSpend`): distinct coins of the sender, at most one
output, back to the sender, and together with the amount not more than the coins are worth. The last is
an inequality because the loop adds the coins up in a machine word: if the sum wraps around, more is
spent than is accounted for. -/

namespace Namecoin.State.SpendPlan

open Lib.Maps Types.Defs State.Defs State.Utxo

/-- The exact sum of the amounts of some outputs. -/
def outputSum (outs : List TxOutput) : ℕ := (outs.map fun o => o.amount.toNat).sum

theorem spendLoop_spec (amount : UInt64) : ∀ (es : List UtxoEntry) (tot : UInt64), ∃ k,
    (spendLoop amount es tot).1 = (es.take k).map (fun e => ⟨e.txid, 0⟩) ∧ (es ≠ [] → 0 < k) ∧
      (spendLoop amount es tot).2.toNat ≤ tot.toNat + ((es.take k).map fun e => e.amount.toNat).sum
  | [], tot => ⟨0, rfl, by simp, by simp [spendLoop]⟩
  | e :: es, tot => by
    have hadd : (tot + e.amount).toNat ≤ tot.toNat + e.amount.toNat := by
      rw [UInt64.toNat_add]; exact Nat.mod_le _ _
    unfold spendLoop
    dsimp only
    split_ifs with h
    · exact ⟨1, by simp, by simp, by simpa using hadd⟩
    · obtain ⟨k, h1, -, h2⟩ := spendLoop_spec amount es (tot + e.amount)
      refine ⟨k + 1, by simp [h1], by simp, ?_⟩
      simp only [List.take_succ_cons, List.map_cons, List.sum_cons]
      omega

theorem mem_spendEntries {m : Map String UTXO} {e : UtxoEntry} :
    e ∈ spendEntries m ↔ ∃ u, m.lookup e.txid = some u ∧ e.amount = u.amount ∧ e.order = u.order := by
  unfold spendEntries
  rw [List.mem_insertionSort, List.mem_map]
  constructor
  · rintro ⟨⟨k, u⟩, hku, rfl⟩
    exact ⟨u, (mem_sortedEntries _).mp hku, rfl, rfl⟩
  · rintro ⟨u, hu, ha, ho⟩
    refine ⟨(e.txid, u), (mem_sortedEntries _).mpr hu, ?_⟩
    cases e
    simp_all

theorem nodup_spendEntries (m : Map String UTXO) : ((spendEntries m).map UtxoEntry.txid).Nodup := by
  have hperm := (List.perm_insertionSort entryLE ((sortedEntries (fun a b : String => a ≤ b) m).map
    fun e => (⟨e.1, e.2.amount, e.2.order⟩ : UtxoEntry))).map UtxoEntry.txid
  refine hperm.nodup_iff.mpr ?_
  rw [List.map_map]
  have : (UtxoEntry.txid ∘ fun e : String × UTXO => (⟨e.1, e.2.amount, e.2.order⟩ : UtxoEntry)) =
    Prod.fst := rfl
  rw [this, map_fst_sortedEntries]
  exact nodup_sortedKeys _ m

theorem spendEntries_singleton (key : String) (u : UTXO) :
    spendEntries ((∅ : Map String UTXO).insert key u) = [⟨key, u.amount, u.order⟩] := by
  have hkeys : sortedKeys (fun a b : String => a ≤ b) ((∅ : Map String UTXO).insert key u) = [key] := by
    have hset : ((∅ : Map String UTXO).insert key u).keys = {key} := Finset.ext fun t => by
      rw [Finmap.mem_keys, Finmap.mem_insert, Finset.mem_singleton]
      simp [Finmap.notMem_empty]
    refine Multiset.coe_eq_singleton.mp ?_
    rw [coe_sortedKeys, hset, Finset.singleton_val]
  unfold spendEntries sortedEntries
  rw [hkeys]
  simp

theorem amountsAt_entries {m : Map String UTXO} :
    ∀ {es : List UtxoEntry}, (∀ e ∈ es, e ∈ spendEntries m) →
    (es.map fun e => e.amount.toNat).sum = amountsAt m (es.map UtxoEntry.txid)
  | [], _ => rfl
  | e :: es, h => by
    obtain ⟨u, hu, ha, -⟩ := mem_spendEntries.mp (h e (by simp))
    have ih := amountsAt_entries fun e' he' => h e' (List.mem_cons_of_mem _ he')
    unfold amountsAt at ih ⊢
    simp only [List.map_cons, List.sum_cons, ih]
    rw [weightAt_of_lookup hu, ha]

/-- What the loop selects: distinct coins of the account, worth at least the sum it returns. -/
theorem spendLoop_selects (amount : UInt64) (m : Map String UTXO) :
    let sel := spendLoop amount (spendEntries m) 0
    (sel.1.map TxInput.txID).Nodup ∧ (∀ t ∈ sel.1.map TxInput.txID, t ∈ m) ∧ (∀ i ∈ sel.1, i.index = 0) ∧
      (sel.1 = [] → sel.2 = 0) ∧ sel.2.toNat ≤ amountsAt m (sel.1.map TxInput.txID) := by
  obtain ⟨k, hins, hk, htot⟩ := spendLoop_spec amount (spendEntries m) 0
  have hsub : ∀ e ∈ (spendEntries m).take k, e ∈ spendEntries m := fun e he => List.mem_of_mem_take he
  have hids : ((spendLoop amount (spendEntries m) 0).1).map TxInput.txID =
      ((spendEntries m).take k).map UtxoEntry.txid := by
    rw [hins, List.map_map]; rfl
  rw [amountsAt_entries hsub, UInt64.toNat_zero, Nat.zero_add] at htot
  dsimp only
  rw [hids]
  refine ⟨(nodup_spendEntries m).sublist ((List.take_sublist _ _).map _), fun t ht => ?_, fun i hi => ?_,
    fun hnil => ?_, htot⟩
  · obtain ⟨e, he, rfl⟩ := List.mem_map.mp ht
    obtain ⟨u, hu, -⟩ := mem_spendEntries.mp (hsub e he)
    exact Finmap.mem_of_lookup_eq_some hu
  · rw [hins] at hi
    obtain ⟨e, -, rfl⟩ := List.mem_map.mp hi
    rfl
  · rw [hins, List.map_eq_nil_iff, List.take_eq_nil_iff] at hnil
    have hes : spendEntries m = [] := by
      rcases hnil with h | h
      · by_contra hne; have := hk hne; omega
      · exact h
    rw [hes]
    rfl

theorem outputSum_changeOutputs (fromAddr : String) (leftover : UInt64) :
    outputSum (changeOutputs fromAddr leftover) = leftover.toNat := by
  unfold changeOutputs
  split_ifs with h
  · simp [outputSum]
  · have hz : leftover.toNat = 0 := by
      have := UInt64.le_iff_toNat_le.mp (UInt64.not_lt.mp h)
      simpa using this
    simp [outputSum, hz]

theorem changeOutputs_cases (fromAddr : String) (leftover : UInt64) :
    changeOutputs fromAddr leftover = [] ∨
      ∃ l, l ≠ 0 ∧ changeOutputs fromAddr leftover = [⟨fromAddr, l⟩] := by
  unfold changeOutputs
  split_ifs with h
  · exact .inr ⟨leftover, fun hz => absurd h (by rw [hz]; decide), rfl⟩
  · exact .inl rfl

/-- What a spend plan promises. -/
structure CanonicalSpend (st : NamecoinState) (fromAddr : String) (amount : UInt64) (ins : List TxInput)
    (outs : List TxOutput) : Prop where
  nodup : (ins.map TxInput.txID).Nodup
  owned : ∀ t ∈ ins.map TxInput.txID, t ∈ account st fromAddr
  index : ∀ i ∈ ins, i.index = 0
  zero : amount = 0 → ins = [] ∧ outs = []
  spends : amount ≠ 0 → ins ≠ []
  change : outs = [] ∨ ∃ leftover, leftover ≠ 0 ∧ outs = [⟨fromAddr, leftover⟩]
  covered : amount.toNat + outputSum outs ≤ amountsAt (account st fromAddr) (ins.map TxInput.txID)

/-- **The plan of the code keeps that promise.** -/
theorem spendPlan_ok {st : NamecoinState} {fromAddr : String} {amount : UInt64} {ins : Slice TxInput}
    {outs : Slice TxOutput} (h : deterministicSpendPlan st fromAddr amount = .ok (ins, outs)) :
    CanonicalSpend st fromAddr amount (elems ins) (elems outs) := by
  unfold deterministicSpendPlan at h
  split_ifs at h with h0
  · cases h
    exact ⟨by simp, by simp, by simp, fun _ => ⟨rfl, rfl⟩, fun hne => absurd h0 hne, .inl rfl,
      by simp [h0, outputSum, amountsAt]⟩
  · cases hl : st.utxoMap.lookup fromAddr with
    | none => simp [hl] at h
    | some m =>
      have hacc : account st fromAddr = m := by simp [account, hl]
      simp only [hl] at h
      split_ifs at h with hlt
      cases h
      obtain ⟨h1, h2, h3, h4, h5⟩ := spendLoop_selects amount m
      have hle := UInt64.not_lt.mp hlt
      refine ⟨h1, hacc ▸ h2, h3, fun h => absurd h h0, fun _ hnil => ?_, changeOutputs_cases _ _, ?_⟩
      · rw [h4 hnil] at hle
        exact h0 (UInt64.toNat_inj.mp (Nat.le_zero.mp (UInt64.le_iff_toNat_le.mp hle)))
      · rw [elems_some, elems_some, outputSum_changeOutputs, UInt64.toNat_sub_of_le _ _ hle, hacc]
        have := UInt64.le_iff_toNat_le.mp hle
        omega

theorem spendPlan_singleton {st : NamecoinState} {fromAddr key : String} {u : UTXO} {amount : UInt64}
    (hm : st.utxoMap.lookup fromAddr = some ((∅ : Map String UTXO).insert key u)) (h0 : amount ≠ 0)
    (hle : amount ≤ u.amount) : deterministicSpendPlan st fromAddr amount =
      .ok (some [⟨key, 0⟩], some (changeOutputs fromAddr (u.amount - amount))) := by
  unfold deterministicSpendPlan
  rw [if_neg h0, hm]
  dsimp only
  rw [spendEntries_singleton]
  simp only [spendLoop, UInt64.zero_add, if_pos hle, if_neg (UInt64.not_lt.mpr hle)]

end Namecoin.State.SpendPlan
