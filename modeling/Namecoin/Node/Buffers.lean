import Namecoin.Node.Mempool

/-! # The buffer of transactions

The `TxBuffer` keeps a list of IDs and a map from IDs to transactions. `Requeue` takes a list
and a map from its caller.

* `InStep`: the list has no duplicates and lists exactly the keys of the map; every call
  keeps it (`InStep.call`);
* `in_step`: after any calls the two are **in step**, `Drain` hands out what is buffered once each and
  in order, and `Requeue` of what was drained puts it back in the same order, behind what was added
  meanwhile, all of which is kept. -/

namespace Namecoin.Node.Buffers

open Lib.Maps Types.Defs Node.Mempool

variable {b : TxBuffer} {txs : Map String Tx} {ids : List String} {id : String}

/-- A call on a buffer. -/
inductive Call
  | add (tx : Tx) (txID : String)
  | remove (txID : String)
  | drain
  | requeue (order : List String) (txs : Map String Tx)

/-- The buffer after a call. -/
def after (b : TxBuffer) : Call → TxBuffer
  | .add tx txID => b.add tx txID
  | .remove txID => b.remove txID
  | .drain => b.drain.2
  | .requeue order txs => b.requeue order txs

/-- The buffer after several calls. -/
def afterAll (calls : List Call) : TxBuffer := calls.foldl after newTxBuffer

/-- The order has no duplicates and lists exactly the keys of the map. -/
structure InStep (b : TxBuffer) : Prop where
  nodup : b.order.Nodup
  keys : ∀ id, id ∈ b.order ↔ id ∈ b.txs

/-! ### Every call keeps the two in step -/

theorem inStep_new : InStep newTxBuffer :=
  ⟨List.nodup_nil, fun _ => iff_of_false List.not_mem_nil Finmap.notMem_empty⟩

theorem InStep.append (h : InStep b) (hnew : id ∉ b.txs) (tx : Tx) :
    InStep ⟨b.order ++ [id], b.txs.insert id tx⟩ := by
  constructor
  · refine List.nodup_append.mpr ⟨h.nodup, List.nodup_singleton id, fun x hx y hy heq => hnew ?_⟩
    rw [← List.mem_singleton.mp hy, ← heq]
    exact (h.keys x).mp hx
  · intro k
    rw [List.mem_append, List.mem_singleton, Finmap.mem_insert, h.keys, or_comm]

theorem InStep.add (h : InStep b) (tx : Tx) (txID : String) : InStep (b.add tx txID) := by
  unfold TxBuffer.add
  split_ifs with hin
  · exact h
  · exact h.append hin tx

theorem InStep.remove (h : InStep b) (txID : String) : InStep (b.remove txID) := by
  unfold TxBuffer.remove
  split_ifs with hin
  · refine ⟨h.nodup.erase txID, fun k => ?_⟩
    rw [h.nodup.mem_erase_iff, Finmap.mem_erase, h.keys]
  · exact h

theorem InStep.requeueOne (h : InStep b) (txs : Map String Tx) (id : String) :
    InStep (b.requeueOne txs id) := by
  unfold TxBuffer.requeueOne
  cases txs.lookup id with
  | none => exact h
  | some tx =>
    dsimp only
    split_ifs with hin
    · refine ⟨h.nodup, fun k => (h.keys k).trans ?_⟩
      rw [Finmap.mem_insert]
      exact ⟨.inr, fun hk => hk.elim (fun heq => heq ▸ hin) fun hk => hk⟩
    · exact h.append hin tx

theorem InStep.requeue (txs : Map String Tx) : ∀ (order : List String) {b : TxBuffer}, InStep b →
    InStep (b.requeue order txs)
  | [], _, h => h
  | id :: order, _, h => InStep.requeue txs order (h.requeueOne txs id)

theorem InStep.call (h : InStep b) (c : Call) : InStep (after b c) := by
  cases c with
  | add tx txID => exact h.add tx txID
  | remove txID => exact h.remove txID
  | drain => exact inStep_new
  | requeue order txs => exact h.requeue txs order

/-- **After any calls** the order and the map are in step. -/
theorem inStep_afterAll (calls : List Call) : InStep (afterAll calls) :=
  List.foldlRecOn calls after inStep_new fun _ h c _ => h.call c

/-! ### What `Drain` hands out -/

/-- `Drain` hands out the transactions once each, in order, and empties the buffer. -/
structure DrainsAll (b : TxBuffer) : Prop where
  order : b.drain.1.order = b.order
  pending : b.drain.1.pending.map some = b.order.map b.txs.lookup
  snapshot : b.drain.1.snapshot = b.txs
  emptied : b.drain.2 = newTxBuffer

theorem map_filterMap_lookup : ∀ {ids : List String}, (∀ id ∈ ids, id ∈ txs) →
    ((ids.filterMap fun id => (txs.lookup id).map (Prod.mk id)).map Prod.snd).map some =
      ids.map txs.lookup
  | [], _ => rfl
  | id :: ids, h => by
    obtain ⟨tx, htx⟩ := Finmap.mem_iff.mp (h id List.mem_cons_self)
    rw [List.filterMap_cons_some (by rw [htx]; rfl), List.map_cons, List.map_cons, List.map_cons, htx,
      map_filterMap_lookup fun k hk => h k (List.mem_cons_of_mem _ hk)]

theorem InStep.drainsAll (h : InStep b) : DrainsAll b := by
  refine ⟨rfl, map_filterMap_lookup fun id hid => (h.keys id).mp hid, Finmap.ext_lookup fun k => ?_, rfl⟩
  refine (lookup_snapshot b.txs k b.order ∅).trans ?_
  by_cases hin : k ∈ b.txs
  · exact if_pos ⟨(h.keys k).mpr hin, hin⟩
  · rw [if_neg fun hk => hin hk.2, Finmap.lookup_eq_none.mpr hin]
    rfl

/-! ### What `Requeue` puts back -/

theorem requeue_order : ∀ {ids : List String} {b : TxBuffer}, ids.Nodup → (∀ id ∈ ids, id ∈ txs) →
    (∀ id ∈ ids, id ∉ b.txs) → (b.requeue ids txs).order = b.order ++ ids
  | [], b, _, _, _ => (List.append_nil _).symm
  | id :: ids, b, hnodup, hin, hout => by
    obtain ⟨tx, htx⟩ := Finmap.mem_iff.mp (hin id List.mem_cons_self)
    obtain ⟨hid, hnodup⟩ := List.nodup_cons.mp hnodup
    have hone : b.requeueOne txs id = ⟨b.order ++ [id], b.txs.insert id tx⟩ := by
      unfold TxBuffer.requeueOne
      rw [htx]
      exact congrArg (TxBuffer.mk · _) (if_neg (hout id List.mem_cons_self))
    have hrest : ∀ k ∈ ids, k ∉ (b.requeueOne txs id).txs := fun k hk hmem => by
      rw [hone] at hmem
      rcases Finmap.mem_insert.mp hmem with rfl | hmem
      · exact hid hk
      · exact hout k (List.mem_cons_of_mem _ hk) hmem
    show ((b.requeueOne txs id).requeue ids txs).order = _
    rw [requeue_order hnodup (fun k hk => hin k (List.mem_cons_of_mem _ hk)) hrest, hone,
      List.append_assoc]
    rfl

theorem requeueOne_lookup (k id : String) (b : TxBuffer) : (b.requeueOne txs id).txs.lookup k =
    if k = id ∧ k ∈ txs then txs.lookup k else b.txs.lookup k := by
  unfold TxBuffer.requeueOne
  cases hl : txs.lookup id with
  | none =>
    refine (if_neg ?_).symm
    rintro ⟨rfl, hin⟩
    exact Finmap.lookup_eq_none.mp hl hin
  | some tx =>
    dsimp only
    rw [lookup_insert_ite]
    by_cases hk : k = id
    · subst hk
      rw [if_pos rfl, if_pos ⟨rfl, Finmap.mem_iff.mpr ⟨tx, hl⟩⟩, hl]
    · rw [if_neg hk, if_neg fun h => hk h.1]

theorem requeue_lookup (k : String) :
    ∀ (ids : List String) (b : TxBuffer), (b.requeue ids txs).txs.lookup k =
      if k ∈ ids ∧ k ∈ txs then txs.lookup k else b.txs.lookup k
  | [], b => by simp [TxBuffer.requeue]
  | id :: ids, b => by
    refine (requeue_lookup k ids (b.requeueOne txs id)).trans ?_
    rw [requeueOne_lookup]
    simp only [List.mem_cons]
    by_cases hids : k ∈ ids ∧ k ∈ txs
    · rw [if_pos hids, if_pos ⟨.inr hids.1, hids.2⟩]
    · rw [if_neg hids]
      by_cases hid : k = id ∧ k ∈ txs
      · rw [if_pos hid, if_pos ⟨.inl hid.1, hid.2⟩]
      · rw [if_neg hid, if_neg]
        rintro ⟨h | h, hin⟩
        · exact hid ⟨h, hin⟩
        · exact hids ⟨h, hin⟩

/-- Several calls of `Add`. -/
def addAll (b : TxBuffer) (adds : List (Tx × String)) : TxBuffer :=
  adds.foldl (fun b a => b.add a.1 a.2) b

theorem mem_addAll : ∀ (adds : List (Tx × String)) {b : TxBuffer}, id ∈ (addAll b adds).txs →
    id ∈ b.txs ∨ ∃ a ∈ adds, a.2 = id
  | [], _, h => .inl h
  | a :: adds, b, h => by
    rcases mem_addAll adds h with h | ⟨a', ha, heq⟩
    · rcases mem_add.mp h with rfl | h
      · exact .inr ⟨a, List.mem_cons_self, rfl⟩
      · exact .inl h
    · exact .inr ⟨a', List.mem_cons_of_mem _ ha, heq⟩

/-- The value that was added first under an ID. -/
def firstAdded (adds : List (Tx × String)) (id : String) : Option Tx :=
  (adds.find? (·.2 = id)).map Prod.fst

theorem addAll_lookup (id : String) :
    ∀ (adds : List (Tx × String)) (b : TxBuffer), (addAll b adds).txs.lookup id =
      if id ∈ b.txs then b.txs.lookup id else firstAdded adds id
  | [], b => by
    show b.txs.lookup id = _
    split_ifs with h
    · rfl
    · exact Finmap.lookup_eq_none.mpr h
  | (tx, txID) :: adds, b => by
    refine (addAll_lookup id adds (b.add tx txID)).trans ?_
    unfold firstAdded
    by_cases hin : txID ∈ b.txs
    · have hsame : b.add tx txID = b := if_pos hin
      rw [hsame]
      split_ifs with hid
      · rfl
      · rw [List.find?_cons_of_neg (by rintro h; exact hid (of_decide_eq_true h ▸ hin))]
    · have hnew : b.add tx txID = ⟨b.order ++ [txID], b.txs.insert txID tx⟩ := if_neg hin
      rw [hnew]
      by_cases hid : id = txID
      · subst hid
        rw [if_pos (Finmap.mem_insert.mpr (.inl rfl)), if_neg hin, Finmap.lookup_insert,
          List.find?_cons_of_pos (by exact decide_eq_true rfl)]
        rfl
      · rw [List.find?_cons_of_neg (by simpa using Ne.symm hid), Finmap.lookup_insert_of_ne _ hid]
        simp only [Finmap.mem_insert, hid, false_or]

theorem inStep_addAll : ∀ (adds : List (Tx × String)) {b : TxBuffer}, InStep b → InStep (addAll b adds)
  | [], _, h => h
  | a :: adds, _, h => inStep_addAll adds (h.add a.1 a.2)

/-- A buffer that is drained, gets new transactions, and gets back what was drained. -/
def rejoined (b : TxBuffer) (adds : List (Tx × String)) : TxBuffer :=
  (addAll b.drain.2 adds).requeue b.drain.1.order b.drain.1.snapshot

/-- The transactions that were drained come behind the new ones, in the same order, and none is lost or
duplicated: every drained one is there, every added one is there with the value that was added first
under its ID, and there are no others. -/
structure Rejoins (b : TxBuffer) (adds : List (Tx × String)) : Prop where
  order : (rejoined b adds).order = (addAll newTxBuffer adds).order ++ b.order
  drained : ∀ id ∈ b.txs, (rejoined b adds).txs.lookup id = b.txs.lookup id
  kept : ∀ a ∈ adds, a.2 ∈ (rejoined b adds).txs
  added : ∀ id ∉ b.txs, (rejoined b adds).txs.lookup id = firstAdded adds id
  inStep : InStep (rejoined b adds)

theorem InStep.rejoins (h : InStep b) {adds : List (Tx × String)} (hadds : ∀ a ∈ adds, a.2 ∉ b.txs) :
    Rejoins b adds := by
  obtain ⟨-, -, hsnapshot, -⟩ := h.drainsAll
  have heq : rejoined b adds = (addAll newTxBuffer adds).requeue b.order b.txs := by
    unfold rejoined
    rw [hsnapshot]
    rfl
  have hout : ∀ id ∈ b.order, id ∉ (addAll newTxBuffer adds).txs := fun id hid hmem => by
    rcases mem_addAll adds hmem with hmem | ⟨a, ha, rfl⟩
    · exact Finmap.notMem_empty hmem
    · exact hadds a ha ((h.keys _).mp hid)
  have hadded : ∀ id ∉ b.txs, (rejoined b adds).txs.lookup id = firstAdded adds id := fun id hid => by
    rw [heq, requeue_lookup, if_neg fun hk => hid hk.2, addAll_lookup]
    exact if_neg Finmap.notMem_empty
  constructor
  · rw [heq]
    exact requeue_order h.nodup (fun id hid => (h.keys id).mp hid) hout
  · intro id hid
    rw [heq, requeue_lookup, if_pos ⟨(h.keys id).mpr hid, hid⟩]
  · intro a ha
    have hfirst : (firstAdded adds a.2).isSome = true := by
      unfold firstAdded
      rw [Option.isSome_map, List.find?_isSome]
      exact ⟨a, ha, decide_eq_true rfl⟩
    obtain ⟨tx, htx⟩ := Option.isSome_iff_exists.mp hfirst
    exact Finmap.mem_iff.mpr ⟨tx, (hadded a.2 (hadds a ha)).trans htx⟩
  · exact hadded
  · rw [heq]
    exact (inStep_addAll adds inStep_new).requeue b.txs b.order

/-- **`Drain` and then `Requeue`** of its results is as if nothing had happened. -/
theorem InStep.rejoined_nil (h : InStep b) : rejoined b [] = b := by
  have hr : Rejoins b [] := h.rejoins fun a ha => absurd ha List.not_mem_nil
  have htxs : (rejoined b []).txs = b.txs := Finmap.ext_lookup fun k => by
    by_cases hin : k ∈ b.txs
    · exact hr.drained k hin
    · rw [hr.added k hin, Finmap.lookup_eq_none.mpr hin]
      rfl
  calc rejoined b [] = ⟨(rejoined b []).order, (rejoined b []).txs⟩ := rfl
    _ = b := by rw [hr.order, htxs]; rfl

/-- **The order and the map of the buffer are in step** after any calls. `Drain` hands out what is
buffered, once each and in order; `Requeue` of its results restores the buffer; and if transactions
with other IDs are added in between, what was drained comes behind them in its old order, and all
that was added is there. -/
theorem in_step (calls : List Call) : InStep (afterAll calls) ∧ DrainsAll (afterAll calls) ∧
    rejoined (afterAll calls) [] = afterAll calls ∧
    ∀ adds : List (Tx × String), (∀ a ∈ adds, a.2 ∉ (afterAll calls).txs) →
    Rejoins (afterAll calls) adds :=
  have h := inStep_afterAll calls
  ⟨h, h.drainsAll, h.rejoined_nil, fun _ hadds => h.rejoins hadds⟩

/-- A transaction of the given type. -/
def bareTx (type : String) : Tx := ⟨"", type, none, none, 0, .invalid, "", "", ""⟩

/-- Two transactions are drained, and two others are added before they come back, one of them twice. -/
theorem in_step_two : ∃ calls adds, (afterAll calls).order = ["a", "b"] ∧
    adds.map Prod.snd = ["c", "d", "c"] ∧ (∀ a ∈ adds, a.2 ∉ (afterAll calls).txs) ∧
    (rejoined (afterAll calls) adds).order = ["c", "d", "a", "b"] ∧
    Rejoins (afterAll calls) adds := by
  let calls : List Call := [.add (bareTx "1") "a", .add (bareTx "2") "b"]
  let adds : List (Tx × String) := [(bareTx "3", "c"), (bareTx "4", "d"), (bareTx "5", "c")]
  have hadds : ∀ a ∈ adds, a.2 ∉ (afterAll calls).txs := by
    decide
  exact ⟨calls, adds, by decide, rfl, hadds, by decide, (in_step calls).2.2.2 adds hadds⟩

end Namecoin.Node.Buffers
