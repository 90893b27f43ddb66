import Namecoin.Lib.Cells
import Namecoin.State.Defs

/-! # States in memory

A `NamecoinState` of the code is an object whose maps are references, and the maps of coins and of
expiring names hold references again. `Clone` therefore has to copy two of its maps twice over,
and `replaceWith` hands over references. The values of the other maps hold no references, so a
copy of the map is enough there.

`view` is the state that an object shows; `assign` is what an operation leaves behind that takes the
object to another state: it writes through the references of the object.

* `clone_spec`: a clone shows the same state and shares nothing with an older object;
* `assign_spec`, `assign_separate`: an operation on an object changes that object and no
  object that is separate;
* `exists_object`: every state is shown by some object. -/

namespace Namecoin.State.Objects

open Lib.Maps Lib.Cells Types.Defs State.Defs

/-- The maps of all states, by the field they belong to. -/
structure Memory where
  domains : List (Map String NameRecord)
  claimedDomains : List (Finset String)
  expires : Nested UInt64 (List String)
  commitments : List (Map String CommitmentRecord)
  utxoMap : Nested String (Map String UTXO)
  txMap : List (Finset String)

/-- A state as an object: references to its maps, and its numbers. -/
structure StateObj where
  domains : ℕ
  claimedDomains : ℕ
  expires : ℕ
  commitments : ℕ
  utxoMap : ℕ
  txMap : ℕ
  currentHeight : UInt64
  domainTTL : UInt64
  nextUTXOSeq : UInt64

/-- The order in which the maps of coins are listed. -/
abbrev nameLE (a b : String) : Prop := a ≤ b

/-- The state that an object shows. -/
def view (M : Memory) (o : StateObj) : NamecoinState where
  domains := M.domains[o.domains]?.getD ∅
  claimedDomains := M.claimedDomains[o.claimedDomains]?.getD ∅
  expires := M.expires.read wordLE o.expires
  commitments := M.commitments[o.commitments]?.getD ∅
  utxoMap := M.utxoMap.read nameLE o.utxoMap
  txMap := M.txMap[o.txMap]?.getD ∅
  currentHeight := o.currentHeight
  domainTTL := o.domainTTL
  nextUTXOSeq := o.nextUTXOSeq

def clone (M : Memory) (o : StateObj) : Memory × StateObj :=
  let expires := M.expires.copy wordLE o.expires
  let utxoMap := M.utxoMap.copy nameLE o.utxoMap
  ({ domains := M.domains ++ [M.domains[o.domains]?.getD ∅]
     claimedDomains := M.claimedDomains ++ [M.claimedDomains[o.claimedDomains]?.getD ∅]
     expires := expires.1
     commitments := M.commitments ++ [M.commitments[o.commitments]?.getD ∅]
     utxoMap := utxoMap.1
     txMap := M.txMap ++ [M.txMap[o.txMap]?.getD ∅] },
   { domains := M.domains.length
     claimedDomains := M.claimedDomains.length
     expires := expires.2
     commitments := M.commitments.length
     utxoMap := utxoMap.2
     txMap := M.txMap.length
     currentHeight := o.currentHeight
     domainTTL := o.domainTTL
     nextUTXOSeq := o.nextUTXOSeq })

/-- `replaceWith`: the references are those of the snapshot, but for `ClaimedDomains`. -/
def replaceWith (o snapshot : StateObj) : StateObj :=
  { o with
    domains := snapshot.domains
    expires := snapshot.expires
    commitments := snapshot.commitments
    utxoMap := snapshot.utxoMap
    txMap := snapshot.txMap
    currentHeight := snapshot.currentHeight
    domainTTL := snapshot.domainTTL
    nextUTXOSeq := snapshot.nextUTXOSeq }

/-- What an operation that takes the object to the state `st` leaves behind. -/
def assign (M : Memory) (o : StateObj) (st : NamecoinState) : Memory × StateObj :=
  ({ domains := M.domains.set o.domains st.domains
     claimedDomains := M.claimedDomains.set o.claimedDomains st.claimedDomains
     expires := M.expires.write wordLE o.expires st.expires
     commitments := M.commitments.set o.commitments st.commitments
     utxoMap := M.utxoMap.write nameLE o.utxoMap st.utxoMap
     txMap := M.txMap.set o.txMap st.txMap },
   { o with
     currentHeight := st.currentHeight
     domainTTL := st.domainTTL
     nextUTXOSeq := st.nextUTXOSeq })

/-- The maps of an object are there, and its nested maps have their cells for themselves. -/
structure Valid (M : Memory) (o : StateObj) : Prop where
  domains : o.domains < M.domains.length
  claimedDomains : o.claimedDomains < M.claimedDomains.length
  expires : Owned M.expires o.expires
  commitments : o.commitments < M.commitments.length
  utxoMap : Owned M.utxoMap o.utxoMap
  txMap : o.txMap < M.txMap.length

/-- Two objects share no map. -/
structure Separate (M : Memory) (o o' : StateObj) : Prop where
  domains : o.domains ≠ o'.domains
  claimedDomains : o.claimedDomains ≠ o'.claimedDomains
  expires : Apart M.expires o.expires o'.expires
  commitments : o.commitments ≠ o'.commitments
  utxoMap : Apart M.utxoMap o.utxoMap o'.utxoMap
  txMap : o.txMap ≠ o'.txMap

variable {M : Memory} {o o' : StateObj} {st : NamecoinState}

theorem view_ext {M' : Memory} {o' : StateObj} {st : NamecoinState}
    (hd : (view M' o').domains = st.domains) (hc : (view M' o').claimedDomains = st.claimedDomains)
    (he : (view M' o').expires = st.expires) (hm : (view M' o').commitments = st.commitments)
    (hu : (view M' o').utxoMap = st.utxoMap) (ht : (view M' o').txMap = st.txMap)
    (hh : o'.currentHeight = st.currentHeight) (hl : o'.domainTTL = st.domainTTL)
    (hs : o'.nextUTXOSeq = st.nextUTXOSeq) : view M' o' = st := by
  cases st
  unfold view at *
  dsimp only at *
  subst hd hc he hm hu ht hh hl hs
  rfl

/-! ### Flat maps -/

section flat

variable {α : Type} {l : List α} {i i' : ℕ} {v d : α}

theorem getD_append_new (l : List α) (v d : α) : (l ++ [v])[l.length]?.getD d = v := by
  rw [List.getElem?_concat_length]
  rfl

theorem getD_append_old (h : i < l.length) : (l ++ [v])[i]?.getD d = l[i]?.getD d := by
  rw [List.getElem?_append_left h]

theorem getD_set_self (h : i < l.length) : (l.set i v)[i]?.getD d = v := by
  rw [List.getElem?_set_self h]
  rfl

theorem getD_set_ne (h : i ≠ i') : (l.set i v)[i']?.getD d = l[i']?.getD d := by
  rw [List.getElem?_set_ne h]

end flat

/-! ### Clones -/

/-- **A clone shows the same state.** -/
theorem clone_spec (M : Memory) (o : StateObj) : view (clone M o).1 (clone M o).2 = view M o ∧
    Valid (clone M o).1 (clone M o).2 := by
  obtain ⟨he, hexp⟩ := read_copy (r := wordLE) M.expires o.expires
  obtain ⟨hu, hcoins⟩ := read_copy (r := nameLE) M.utxoMap o.utxoMap
  constructor
  · refine view_ext ?_ ?_ he ?_ hu ?_ rfl rfl rfl <;> exact getD_append_new _ _ _
  · refine ⟨?_, ?_, hexp, ?_, hcoins, ?_⟩ <;> simp [clone]

/-- **A clone shares nothing with an older object**, and does not change it. -/
theorem clone_separate (h : Valid M o') : view (clone M o).1 o' = view M o' ∧ Valid (clone M o).1 o' ∧
    Separate (clone M o).1 (clone M o).2 o' := by
  obtain ⟨he, hexp, hea⟩ := copy_apart (r := wordLE) (i := o.expires) h.expires
  obtain ⟨hu, hcoins, hua⟩ := copy_apart (r := nameLE) (i := o.utxoMap) h.utxoMap
  refine ⟨?_, ?_, ?_⟩
  · exact view_ext (getD_append_old h.domains) (getD_append_old h.claimedDomains) he
      (getD_append_old h.commitments) hu (getD_append_old h.txMap) rfl rfl rfl
  · have hlt : ∀ {α : Type} {l : List α} {i : ℕ} (v : α), i < l.length → i < (l ++ [v]).length := by
      intro α l i v hi
      rw [List.length_append]
      exact Nat.lt_add_right _ hi
    exact ⟨hlt _ h.domains, hlt _ h.claimedDomains, hexp, hlt _ h.commitments, hcoins, hlt _ h.txMap⟩
  · exact ⟨Nat.ne_of_gt h.domains, Nat.ne_of_gt h.claimedDomains, hea, Nat.ne_of_gt h.commitments, hua,
      Nat.ne_of_gt h.txMap⟩

/-! ### Operations on an object -/

/-- **An operation takes its object to the new state.** -/
theorem assign_spec (h : Valid M o) (st : NamecoinState) : view (assign M o st).1 (assign M o st).2 = st ∧
    Valid (assign M o st).1 (assign M o st).2 := by
  obtain ⟨he, hexp⟩ := read_write (r := wordLE) h.expires st.expires
  obtain ⟨hu, hcoins⟩ := read_write (r := nameLE) h.utxoMap st.utxoMap
  constructor
  · exact view_ext (getD_set_self h.domains) (getD_set_self h.claimedDomains) he
      (getD_set_self h.commitments) hu (getD_set_self h.txMap) rfl rfl rfl
  · have hlt : ∀ {α : Type} {l : List α} {i : ℕ} (v : α), i < l.length → i < (l.set i v).length := by
      intro α l i v hi
      rwa [List.length_set]
    exact ⟨hlt _ h.domains, hlt _ h.claimedDomains, hexp, hlt _ h.commitments, hcoins, hlt _ h.txMap⟩

/-- **An operation changes no separate object.** -/
theorem assign_separate (h : Valid M o) (h' : Valid M o') (ha : Separate M o o') (st : NamecoinState) :
    view (assign M o st).1 o' = view M o' ∧ Valid (assign M o st).1 o' := by
  obtain ⟨he, hexp, -⟩ := read_write_apart (r := wordLE) h.expires h'.expires ha.expires st.expires
  obtain ⟨hu, hcoins, -⟩ := read_write_apart (r := nameLE) h.utxoMap h'.utxoMap ha.utxoMap st.utxoMap
  constructor
  · exact view_ext (getD_set_ne ha.domains) (getD_set_ne ha.claimedDomains) he
      (getD_set_ne ha.commitments) hu (getD_set_ne ha.txMap) rfl rfl rfl
  · have hlt : ∀ {α : Type} {l : List α} {i i' : ℕ} (v : α), i' < l.length → i' < (l.set i v).length := by
      intro α l i i' v hi
      rwa [List.length_set]
    exact ⟨hlt _ h'.domains, hlt _ h'.claimedDomains, hexp, hlt _ h'.commitments, hcoins, hlt _ h'.txMap⟩

theorem view_replaceWith (M : Memory) (o snapshot : StateObj) :
    view M (replaceWith o snapshot) = Defs.replaceWith (view M o) (view M snapshot) := rfl

theorem Valid.replaceWith (h : Valid M o) (h' : Valid M o') : Valid M (replaceWith o o') :=
  ⟨h'.domains, h.claimedDomains, h'.expires, h'.commitments, h'.utxoMap, h'.txMap⟩

/-! ### Every state is shown -/

/-- A memory with one empty map of each kind. -/
def emptyMemory : Memory := ⟨[∅], [∅], ⟨[∅], []⟩, [∅], ⟨[∅], []⟩, [∅]⟩

/-- The object of these maps. -/
def emptyObj : StateObj := ⟨0, 0, 0, 0, 0, 0, 0, 0, 0⟩

theorem owned_empty {κ ν : Type} [DecidableEq κ] : Owned (⟨[∅], []⟩ : Nested κ ν) 0 := by
  refine ⟨Nat.one_pos, ⟨fun k j hj => ?_, fun k k' j hj => ?_⟩⟩
  · simp [Nested.refs] at hj
  · simp [Nested.refs] at hj

/-- **Every state** is shown by some object. -/
theorem exists_object (st : NamecoinState) : ∃ M o, Valid M o ∧ view M o = st := by
  have hempty : Valid emptyMemory emptyObj :=
    ⟨Nat.one_pos, Nat.one_pos, owned_empty, Nat.one_pos, owned_empty, Nat.one_pos⟩
  obtain ⟨hview, hvalid⟩ := assign_spec hempty st
  exact ⟨_, _, hvalid, hview⟩

end Namecoin.State.Objects
