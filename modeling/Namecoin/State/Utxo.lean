import Namecoin.State.Defs
import Mathlib.Data.String.Basic

/-! # Coins

`namecoin_state_UTXO.go`: burning the inputs of a transaction, adding an output, and the canonical
choice of inputs (`deterministicSpendPlan`). `burnUTXO_ok_iff` and `appendUTXO_ok_iff` say what a
successful run does to the state, and `supply` is the exact sum of all amounts, in `ℕ`: the amounts
themselves are machine words. -/

namespace Namecoin.State.Utxo

open Lib.Maps Lib.Ops Types.Defs State.Defs

/-- The coins of an address; empty if the address has no entry. -/
def account (st : NamecoinState) (addr : String) : Map String UTXO := (st.utxoMap.lookup addr).getD ∅

/-- The state with the coins of one address replaced. -/
def withAccount (st : NamecoinState) (addr : String) (m : Map String UTXO) : NamecoinState :=
  { st with utxoMap := st.utxoMap.insert addr m }

/-- The exact value of a map of coins. -/
def value (m : Map String UTXO) : ℕ := total (fun u : UTXO => u.amount.toNat) m

/-- The exact sum of all amounts. -/
def supply (st : NamecoinState) : ℕ := total value st.utxoMap

/-! ### Burning -/

/-- The first loop of `BurnUTXO`: no input twice, every input present. -/
def checkInputs (userUTXOs : Map String UTXO) : List String → List String → Except Err Unit
  | _, [] => .ok ()
  | seen, txID :: rest =>
    if txID ∈ seen then .error (.msg ("duplicate utxo input " ++ txID))
    else if txID ∉ userUTXOs then .error (.msg ("burn txID " ++ txID ++ " not found"))
    else checkInputs userUTXOs (txID :: seen) rest

def burnUTXO (fromAddr : String) (txIDs : List String) : StateOp Unit := do
  let st ← get
  match st.utxoMap.lookup fromAddr with
  | none => throw (.msg ("burn txID " ++ fromAddr ++ " not found"))
  | some userUTXOs =>
    check (checkInputs userUTXOs [] txIDs)
    set (withAccount st fromAddr (txIDs.foldl (fun m txID => m.erase txID) userUTXOs))

theorem checkInputs_ok_iff {m : Map String UTXO} : ∀ {txIDs seen : List String} {u : Unit},
    checkInputs m seen txIDs = .ok u ↔
      txIDs.Nodup ∧ (∀ t ∈ txIDs, t ∉ seen) ∧ ∀ t ∈ txIDs, t ∈ m
  | [], seen, u => by simp [checkInputs]
  | a :: rest, seen, u => by
    rw [checkInputs]
    split_ifs with h1 h2
    · simp [h1]
    · rw [checkInputs_ok_iff]
      simp only [List.nodup_cons, List.mem_cons, forall_eq_or_imp, not_or]
      constructor
      · rintro ⟨hnd, hs, hm⟩
        exact ⟨⟨fun ha => (hs a ha).1 rfl, hnd⟩, ⟨h1, fun t ht => (hs t ht).2⟩, h2, hm⟩
      · rintro ⟨⟨ha, hnd⟩, ⟨-, hs⟩, -, hm⟩
        exact ⟨hnd, fun t ht => ⟨fun h => ha (h ▸ ht), hs t ht⟩, hm⟩
    · simp [h2]

/-- **A successful burn** erases distinct inputs, all present, from the account of the sender. -/
theorem burnUTXO_ok_iff {fromAddr : String} {txIDs : List String} {s s' : NamecoinState} {u : Unit} :
    burnUTXO fromAddr txIDs s = .ok u s' ↔ fromAddr ∈ s.utxoMap ∧ txIDs.Nodup ∧
      (∀ t ∈ txIDs, t ∈ account s fromAddr) ∧
      s' = withAccount s fromAddr (txIDs.foldl (fun m txID => m.erase txID) (account s fromAddr)) := by
  unfold burnUTXO
  rw [bind_run, get_run]
  cases h : s.utxoMap.lookup fromAddr with
  | none =>
    have := Finmap.lookup_eq_none.mp h
    simp [h, this]
  | some m =>
    have hmem := Finmap.mem_of_lookup_eq_some h
    have hacc : account s fromAddr = m := by simp [account, h]
    simp only [h, hacc, hmem, true_and]
    rw [bind_ok_iff]
    constructor
    · rintro ⟨a, s₁, h1, h2⟩
      obtain ⟨hc, rfl⟩ := check_ok_iff.mp h1
      obtain ⟨hnd, -, hm⟩ := checkInputs_ok_iff.mp hc
      cases h2
      exact ⟨hnd, hm, rfl⟩
    · rintro ⟨hnd, hm, rfl⟩
      exact ⟨(), s, check_ok_iff.mpr ⟨checkInputs_ok_iff.mpr ⟨hnd, by simp, hm⟩, rfl⟩, rfl⟩

theorem burnUTXO_error {fromAddr : String} {txIDs : List String} {s s' : NamecoinState} {e : Err}
    (h : burnUTXO fromAddr txIDs s = .error e s') : s' = s := by
  unfold burnUTXO at h
  rw [bind_run, get_run] at h
  cases hl : s.utxoMap.lookup fromAddr with
  | none => simp only [hl, throw_run] at h; cases h; rfl
  | some m =>
    simp only [hl, bind_run] at h
    cases hc : checkInputs m [] txIDs with
    | ok a => simp [hc] at h
    | error e' => simp only [hc, check_error, throw_run] at h; cases h; rfl

/-! ### Adding an output -/

def appendUTXO (utxo : UTXO) : StateOp Unit := do
  let st ← get
  let m := account st utxo.toAddr
  if utxo.txID ∈ m then throw (.msg "tx already exists")
  else
    set { withAccount st utxo.toAddr (m.insert utxo.txID { utxo with order := st.nextUTXOSeq }) with
      nextUTXOSeq := st.nextUTXOSeq + 1 }

/-- The state after an output has been added. -/
def withUTXO (utxo : UTXO) (s : NamecoinState) : NamecoinState :=
  { withAccount s utxo.toAddr
      ((account s utxo.toAddr).insert utxo.txID { utxo with order := s.nextUTXOSeq }) with
    nextUTXOSeq := s.nextUTXOSeq + 1 }

theorem appendUTXO_run (utxo : UTXO) (s : NamecoinState) :
    appendUTXO utxo s = if utxo.txID ∈ account s utxo.toAddr then .error (.msg "tx already exists") s
      else .ok () (withUTXO utxo s) := by
  unfold appendUTXO
  rw [bind_run, get_run]
  by_cases h : utxo.txID ∈ account s utxo.toAddr <;> simp [h, withUTXO]

/-- **A successful addition** puts the output under a fresh key of its owner. -/
theorem appendUTXO_ok_iff {utxo : UTXO} {s s' : NamecoinState} {u : Unit} :
    appendUTXO utxo s = .ok u s' ↔ utxo.txID ∉ account s utxo.toAddr ∧ s' = withUTXO utxo s := by
  rw [appendUTXO_run]
  split_ifs with h
  · simp [h]
  · simp only [h, not_false_eq_true, true_and]
    constructor
    · intro he; cases he; rfl
    · rintro rfl; rfl

/-! ### The supply -/

theorem supply_withAccount (st : NamecoinState) (addr : String) (m : Map String UTXO) :
    supply (withAccount st addr m) + value (account st addr) =
      supply st + value m := by
  have h := total_insert value st.utxoMap addr m
  have hw : weightAt value st.utxoMap addr = value (account st addr) := by
    unfold weightAt account
    cases st.utxoMap.lookup addr <;> simp [value]
  rw [hw] at h
  exact h

/-- The exact sum of the amounts of the coins under some keys of an account. -/
def amountsAt (m : Map String UTXO) (txIDs : List String) : ℕ :=
  (txIDs.map (weightAt (fun u : UTXO => u.amount.toNat) m)).sum

theorem supply_burn {fromAddr : String} {txIDs : List String} {s s' : NamecoinState} {u : Unit}
    (h : burnUTXO fromAddr txIDs s = .ok u s') :
    supply s' + amountsAt (account s fromAddr) txIDs = supply s := by
  obtain ⟨-, hnd, -, rfl⟩ := burnUTXO_ok_iff.mp h
  have h1 := supply_withAccount s fromAddr
    (txIDs.foldl (fun m txID => m.erase txID) (account s fromAddr))
  have h2 := total_foldl_erase (fun u : UTXO => u.amount.toNat) txIDs (account s fromAddr) hnd
  unfold value at h1
  unfold amountsAt
  omega

theorem supply_withUTXO {utxo : UTXO} {s : NamecoinState} (h : utxo.txID ∉ account s utxo.toAddr) :
    supply (withUTXO utxo s) = supply s + utxo.amount.toNat := by
  have h1 := supply_withAccount s utxo.toAddr
    ((account s utxo.toAddr).insert utxo.txID { utxo with order := s.nextUTXOSeq })
  have h2 : value ((account s utxo.toAddr).insert utxo.txID { utxo with order := s.nextUTXOSeq }) =
      utxo.amount.toNat + value (account s utxo.toAddr) := total_insert_of_notMem _ _ h
  have h3 : supply (withUTXO utxo s) = supply (withAccount s utxo.toAddr
    ((account s utxo.toAddr).insert utxo.txID { utxo with order := s.nextUTXOSeq })) := rfl
  omega

/-! ### The spend plan -/

structure UtxoEntry where
  txid : String
  amount : UInt64
  order : UInt64
deriving DecidableEq

/-- The comparison `DeterministicSpendPlan` sorts by: the order, then the transaction. -/
def entryLE (a b : UtxoEntry) : Prop := if a.order = b.order then a.txid ≤ b.txid else a.order < b.order

instance : DecidableRel entryLE := fun a b => by unfold entryLE; infer_instance

/-- The snapshot of an account, sorted. -/
def spendEntries (userUTXOs : Map String UTXO) : List UtxoEntry :=
  ((sortedEntries (fun a b : String => a ≤ b) userUTXOs).map fun e => ⟨e.1, e.2.amount,
    e.2.order⟩).insertionSort entryLE

/-- The selection loop: the inputs taken and their total, in machine arithmetic. -/
def spendLoop (amount : UInt64) : List UtxoEntry → UInt64 → List TxInput × UInt64
  | [], tot => ([], tot)
  | e :: es, tot =>
    let tot' := tot + e.amount
    if amount ≤ tot' then ([⟨e.txid, 0⟩], tot')
    else
      let r := spendLoop amount es tot'
      (⟨e.txid, 0⟩ :: r.1, r.2)

/-- The outputs of a plan: the change, if there is any, back to the sender. -/
def changeOutputs (fromAddr : String) (leftover : UInt64) : List TxOutput :=
  if 0 < leftover then [⟨fromAddr, leftover⟩] else []

def deterministicSpendPlan (st : NamecoinState) (fromAddr : String) (amount : UInt64) :
    Except Err (Slice TxInput × Slice TxOutput) :=
  if amount = 0 then .ok (some [], some [])
  else match st.utxoMap.lookup fromAddr with
    | none => .error (.msg "no utxos for sender")
    | some userUTXOs =>
      let (inputs, tot) := spendLoop amount (spendEntries userUTXOs) 0
      if tot < amount then .error (.msg "insufficient funds")
      else .ok (some inputs, some (changeOutputs fromAddr (tot - amount)))

end Namecoin.State.Utxo
