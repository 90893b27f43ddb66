import Namecoin.Service.Steady

/-! # The transactions of the canonical chain

Which IDs are applied on the canonical chain, along calls whose turns are uncontested.

* `applied_call`: such a call applies IDs and takes none back;
* `extends_call`: a block on top of the canonical chain that is valid there has
  its transactions applied;
* `lone_call`: if no block waits for the block of the call, the IDs that are new are those of the
  block, the call reports a change and no error, or nothing is new. -/

namespace Namecoin.Service.Transactions

open Lib.WorkList Types.Defs Types.TxCodec Types.BlockCodec State.Defs Chain.Stores Chain.Defs
open Chain.Apply Service.Defs Service.Turns Service.Scenes Service.Branches Service.Refusals
open Service.Steady

variable {E : Env} {order : MapOrder} {visit : Finset ℕ → List ℕ} {s : ChainService}
  {index : ℤ} {blk : Block} {o : Outcome ChainService Block Err} {id : String}

/-- `IsTxApplied` of the canonical state. -/
def Applied (s : ChainService) (id : String) : Prop := isTxApplied (getLongestChain s).state id

instance (s : ChainService) (id : String) : Decidable (Applied s id) := by
  unfold Applied isTxApplied
  infer_instance

/-- One of the transactions has the ID. -/
def HasID (E : Env) (txs : List Tx) (id : String) : Prop := ∃ tx ∈ txs, buildTransactionID E tx = .ok id

theorem headOK_longest (hs : AllReplayed E s) : HeadOK (getLongestChain s).headHash := by
  obtain ⟨blks, hb⟩ := hs _ (List.mem_of_getElem? (getElem?_longest s))
  exact headOK_of_replayed hb

theorem applied_turn (ht : Turn E visit index s blk o) (hs : AllReplayed E s) (hu : Uncontested E s blk)
    (h : Applied s id) : Applied o.state id := by
  obtain ⟨-, heq | ⟨S, S', ha⟩⟩ := steady_turn ht hs hu
  · unfold Applied
    rw [heq]
    exact h
  · exact ((applyBlock_txMap (headOK_longest hs) ha).2 id).mpr (.inl h)

/-- Every turn of the call is uncontested. -/
def Calm (E : Env) (order : MapOrder) (s : ChainService) (blk : Block) : Prop :=
  Along (pendingWorker E order s.longestChainIndex) (fun _ => Uncontested E) 0 s [blk]

theorem applied_along {k : ℕ} {jobs : List Block}
    (h : Along (pendingWorker E order index) (fun _ => Uncontested E) k s jobs) (hs : AllReplayed E s) :
    AllReplayed E ((pendingWorker E order index).drain k s jobs).1 ∧
      ∀ id, Applied s id → Applied ((pendingWorker E order index).drain k s jobs).1 id := by
  have hall := h.invariant (I := fun s' _ => AllReplayed E s' ∧ ∀ id, Applied s id → Applied s' id)
    (fun n s' a _ hC hI => ?_) ⟨hs, fun _ h => h⟩
  · exact hall
  · have ht := processSingleBlock_turn E (order.visit n) index s' a
    exact ⟨replayed_turn ht hI.1, fun id h => applied_turn ht hI.1 hC (hI.2 id h)⟩

/-- **An uncontested call** takes no transaction back. -/
theorem applied_call (h : Calm E order s blk) (hs : AllReplayed E s) :
    AllReplayed E (appendBlockToLongestChain E order s blk).1 ∧
      ∀ id, Applied s id → Applied (appendBlockToLongestChain E order s blk).1 id := applied_along h hs

/-- The block is not known, it is on top of the canonical chain, and it is valid there. -/
structure Extends (E : Env) (s : ChainService) (blk : Block) : Prop where
  unknown : ¬ blockKnown s blk.hash blk.header.height
  parent : blk.header.height ≠ 0 → blk.header.prevHash ≠ none
  canonical : ∃ c, chainFor s blk = some (c, s.longestChainIndex)
  valid : ∃ r, (getLongestChain s).applyBlock E s.stores blk = .ok r

theorem Extends.origin (h : Extends E s blk) :
    Origin E visit s index blk s (getLongestChain s) s.longestChainIndex := by
  obtain ⟨c, hc⟩ := h.canonical
  unfold chainFor at hc
  split_ifs at hc with h0
  · rw [getLongestChain_eq (firstChain_some hc).1]
    exact .empty h0 hc
  · rw [getLongestChain_eq (firstChain_some hc).1]
    exact .head h0 (h.parent h0) hc

theorem extends_turn (h : Extends E s blk) (hs : AllReplayed E s) (hid : HasID E blk.transactions id) :
    Applied (processSingleBlock E visit index s blk).state id := by
  obtain ⟨⟨S, c'⟩, ha⟩ := h.valid
  obtain ⟨st, data, -, -, -, -, hc'⟩ := (applyBlock_ok_iff (headOK_longest hs)).mp ha
  unfold processSingleBlock
  rw [if_neg h.unknown, ensureChainForParent_ok_iff.mpr h.origin]
  dsimp only
  rw [ha]
  dsimp only
  obtain ⟨pool, heq⟩ := popWaitingChildren_eq (attach s S c' s.longestChainIndex (settleHash E blk))
    (settleHash E blk).hash
  rw [heq]
  show isTxApplied (getLongestChain (attach s S c' s.longestChainIndex (settleHash E blk))).state id
  rw [(attach_longest_chain S (settleHash E blk) (by rw [hc']; exact Option.some_ne_none _)).1]
  exact ((applyBlock_txMap (headOK_longest hs) ha).2 id).mpr (.inr hid)

/-- **A valid block on top of the canonical chain** has its transactions applied. -/
theorem extends_call (h : Extends E s blk) (hcalm : Calm E order s blk) (hs : AllReplayed E s)
    (hid : HasID E blk.transactions id) : Applied (appendBlockToLongestChain E order s blk).1 id := by
  have hturn := processSingleBlock_turn E (order.visit 0) s.longestChainIndex s blk
  show Applied ((pendingWorker E order s.longestChainIndex).drain 0 s [blk]).1 id
  rw [drain_cons]
  rcases hcalm with _ | ⟨-, hrest⟩
  exact (applied_along hrest (replayed_turn hturn hs)).2 id (extends_turn h hs hid)

/-! ### Calls that process one block -/

/-- No block waits for the block. -/
def Lone (E : Env) (s : ChainService) (blk : Block) : Prop :=
  waiting s (hashKeyHex blk.hash) = [] ∧ waiting s (hashKeyHex (settleHash E blk).hash) = []

theorem popWaitingChildren_nil {hash : Slice UInt8} (h : waiting s (hashKeyHex hash) = []) :
    (popWaitingChildren s hash).2 = [] := by
  unfold popWaitingChildren
  dsimp only
  split_ifs
  · rfl
  · rfl

theorem Lone.jobs (h : Lone E s blk) (ht : Turn E visit index s blk o) : o.jobs = [] := by
  cases ht with
  | known => exact popWaitingChildren_nil h.1
  | attached _ ho =>
    refine popWaitingChildren_nil ?_
    unfold waiting
    rw [orphansByPrev_attach, ho.orphansByPrev]
    exact h.2
  | _ => rfl

theorem failed_turn (ht : Turn E visit index s blk o) (hf : o.failure ≠ none) :
    getLongestChain o.state = getLongestChain s := by
  cases ht with
  | noFork => rfl
  | invalid _ ho => exact ho.getLongestChain
  | known => exact absurd rfl hf
  | unknownParent => exact absurd rfl hf
  | notNext => exact absurd rfl hf
  | attached => exact absurd rfl hf

theorem changed_of_applyBlock {c c' : NamecoinChain} {S S' : Heap} (hok : HeadOK c.headHash)
    (h : c.applyBlock E S blk = .ok (S', c')) :
    c.headHeight ≠ c'.headHeight ∨ ¬ bytesEqual (cloneBytes c.headHash) c'.headHash := by
  obtain ⟨st, data, hv, -, -, -, rfl⟩ := (applyBlock_ok_iff hok).mp h
  have hnext := ensureNextBlockFollows_ok_iff.mp (validateBlockHeader_ok_iff.mp hv).2.1
  by_cases hnone : c.headHash = none
  · right
    intro he
    rw [hnone] at he
    exact E.sha256_ne_nil _ (show [] = computeHash E blk from he).symm
  · left
    rw [if_neg hnone] at hnext
    intro he
    have hsucc : c.headHeight.toNat = (c.headHeight.toNat + 1) % 2 ^ 64 := by
      conv_lhs => rw [he, show (chainAfter E c blk st).headHeight = _ from hnext.1, UInt64.toNat_add]
      rfl
    omega

/-- **A call that processes one block**, uncontested: nothing changes on the canonical chain, or the
block is applied there and the call reports it. -/
theorem lone_call (hl : Lone E s blk) (hu : Uncontested E s blk) (hs : AllReplayed E s) :
    (∀ id, Applied (appendBlockToLongestChain E order s blk).1 id ↔ Applied s id) ∨
      ((appendBlockToLongestChain E order s blk).2 = (true, none) ∧
        (∃ S r, (getLongestChain s).applyBlock E S blk = .ok r) ∧
        (∀ tx ∈ blk.transactions, ∃ id, buildTransactionID E tx = .ok id) ∧
        ∀ id, Applied (appendBlockToLongestChain E order s blk).1 id ↔ Applied s id ∨
        HasID E blk.transactions id) := by
  have ht := processSingleBlock_turn E (order.visit 0) s.longestChainIndex s blk
  have hturn : processSingleBlock E (order.visit 0) s.longestChainIndex s blk =
      ⟨(processSingleBlock E (order.visit 0) s.longestChainIndex s blk).state, [],
        (processSingleBlock E (order.visit 0) s.longestChainIndex s blk).failure⟩ := by
    conv_rhs => rw [← hl.jobs ht]
  unfold appendBlockToLongestChain
  rw [appendBlockToChain_single hturn]
  dsimp only
  have hsame : getLongestChain (processSingleBlock E (order.visit 0) s.longestChainIndex s blk).state =
    getLongestChain s → ∀ id, Applied (processSingleBlock E (order.visit 0) s.longestChainIndex s
    blk).state id ↔ Applied s id :=
    fun heq id => by
      unfold Applied
      rw [heq]
  by_cases hf : (processSingleBlock E (order.visit 0) s.longestChainIndex s blk).failure = none
  · obtain ⟨-, heq | ⟨S, S', ha⟩⟩ := steady_turn ht hs hu
    · exact .inl (hsame heq)
    · have hok := headOK_longest hs
      obtain ⟨hnamed, happlied⟩ := applyBlock_txMap hok ha
      refine .inr ⟨?_, ⟨S, _, ha⟩, hnamed, happlied⟩
      rw [hf, decide_eq_true (show canonicalChanged _ _ _ from changed_of_applyBlock hok ha)]
  · exact .inl (hsame (failed_turn ht hf))

end Namecoin.Service.Transactions
