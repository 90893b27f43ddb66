import Mathlib.Data.Finset.Sort
import Namecoin.Chain.Overlays
import Namecoin.Chain.Reload
import Namecoin.Service.Turns

/-! # Calls on given services

What a call does when the end of its turn is known, and the services that a run of
blocks on one chain leads to:

* `appendBlockToChain_single`: a call whose block leads to no other block;
* `Single.call`: a service with one chain, after a block on top of that chain;
* `live_calls`: **every run on a fresh store is a sequence of calls**. -/

namespace Namecoin.Service.Scenes

open Lib.Maps Lib.ByteStrings Lib.WorkList Types.Defs Types.BlockCodec Chain.Pow Chain.Stores
open Chain.Defs Chain.Apply Chain.Reload Service.Defs Service.Turns

variable {E : Env} {visit : Finset ℕ → List ℕ} {s : ChainService} {index : ℤ} {blk : Block}

/-! ### Single turns -/

theorem popWaitingChildren_of_no_orphans (h : s.orphansByPrev = ∅) (hash : Slice UInt8) :
    popWaitingChildren s hash = (s, []) := by
  have hw : ∀ k, waiting s k = [] := fun k => by
    unfold waiting
    rw [h]
    rfl
  unfold popWaitingChildren
  dsimp only
  rw [hw]
  split_ifs
  · rfl
  · rfl
  · rename_i hne
    exact absurd rfl hne

theorem findHead_single {c : NamecoinChain} {hash : Slice UInt8} (hchains : s.chains = [c])
    (hc : c.headHash = hash) :
    findHeadByHash s hash = some (c, 0) := by
  unfold findHeadByHash firstChain
  rw [hchains]
  simp [bytesEqual, hc]

theorem processSingleBlock_attached {s₁ : ChainService} {c c' : NamecoinChain} {i : ℕ} {S : Heap}
    (hk : ¬ blockKnown s blk.hash blk.header.height) (ho : Origin E visit s index blk s₁ c i)
    (ha : c.applyBlock E s₁.stores blk = .ok (S, c')) (hnone : s.orphansByPrev = ∅) :
    processSingleBlock E visit index s blk = ⟨attach s₁ S c' i (settleHash E blk), [], none⟩ := by
  have hpool : (attach s₁ S c' i (settleHash E blk)).orphansByPrev = ∅ := by
    rw [orphansByPrev_attach, ho.orphansByPrev, hnone]
  unfold processSingleBlock
  rw [if_neg hk, ensureChainForParent_ok_iff.mpr ho]
  dsimp only
  rw [ha]
  dsimp only
  rw [popWaitingChildren_of_no_orphans hpool]

theorem processSingleBlock_invalid {s₁ : ChainService} {c : NamecoinChain} {i : ℕ} {e : Err}
    (hk : ¬ blockKnown s blk.hash blk.header.height) (ho : Origin E visit s index blk s₁ c i)
    (ha : c.applyBlock E s₁.stores blk = .error e) (he : isChainFollow e = false) :
    processSingleBlock E visit index s blk = ⟨s₁, [], some e⟩ := by
  unfold processSingleBlock
  rw [if_neg hk, ensureChainForParent_ok_iff.mpr ho]
  dsimp only
  rw [ha]
  dsimp only
  unfold handleApplyError
  rw [he]
  rfl

theorem processSingleBlock_notNext {s₁ : ChainService} {c : NamecoinChain} {i : ℕ} {text : String}
    (hk : ¬ blockKnown s blk.hash blk.header.height) (ho : Origin E visit s index blk s₁ c i)
    (ha : c.applyBlock E s₁.stores blk = .error (.chainFollow text)) :
    processSingleBlock E visit index s blk = ⟨storeOrphan s₁ (settleHash E blk), [], none⟩ := by
  unfold processSingleBlock
  rw [if_neg hk, ensureChainForParent_ok_iff.mpr ho]
  dsimp only
  rw [ha]
  rfl

theorem processSingleBlock_unknown (hk : ¬ blockKnown s blk.hash blk.header.height)
    (h0 : blk.header.height ≠ 0) (hp : blk.header.prevHash ≠ none)
    (hhead : findHeadByHash s blk.header.prevHash = none)
    (hindex : s.blockIndex.lookup (hashKeyHex blk.header.prevHash) = none) :
    processSingleBlock E visit index s blk = ⟨storeOrphan s blk, [], none⟩ := by
  have hmeta : getParentMeta s blk.header.prevHash = .error .unknownParent := by
    unfold getParentMeta
    rw [hindex]
  unfold processSingleBlock ensureChainForParent
  rw [if_neg hk, if_neg h0, if_neg hp, hhead]
  dsimp only
  rw [hmeta]
  rfl

theorem appendBlockToChain_single {order : MapOrder} {s' : ChainService} {e : Option Err}
    (h : processSingleBlock E (order.visit 0) index s blk = ⟨s', [], e⟩) :
    appendBlockToChain E order index s blk = (s', decide (canonicalChanged
      (cloneBytes (getLongestChain s).headHash) (getLongestChain s).headHeight s'), e) := by
  have hturn : (pendingWorker E order index).turn 0 s blk = ⟨s', [], e⟩ := h
  unfold appendBlockToChain processPendingBlocks
  rw [drain_cons, hturn, List.append_nil, drain_nil]
  cases e <;> rfl

theorem along_single {order : MapOrder} {C : ChainService → Block → Prop} {s' : ChainService}
    {e : Option Err} (h : processSingleBlock E (order.visit 0) index s blk = ⟨s', [], e⟩) (hC : C s blk) :
    Along (pendingWorker E order index) (fun _ => C) 0 s [blk] := by
  have hturn : (pendingWorker E order index).turn 0 s blk = ⟨s', [], e⟩ := h
  refine .cons hC ?_
  rw [hturn, List.append_nil]
  exact .nil 1 s'

theorem not_blockKnown_of_none (h : blk.hash = none) : ¬ blockKnown s blk.hash blk.header.height :=
  fun hk => hk.1 h

theorem visit_singleton (order : MapOrder) (n i : ℕ) : order.visit n {i} = [i] := by
  have hnd := order.nodup_visit n {i}
  have hmem : ∀ j, j ∈ order.visit n {i} ↔ j = i := fun j => by rw [order.mem_visit, Finset.mem_singleton]
  exact List.perm_singleton.mp ((List.perm_ext_iff_of_nodup hnd (List.nodup_singleton i)).mpr fun j => by
    rw [hmem, List.mem_singleton])

/-! ### One chain -/

/-- A service with one chain and no waiting blocks. -/
structure Single (S : Heap) (c : NamecoinChain) (s : ChainService) : Prop where
  stores : s.stores = S
  chains : s.chains = [c]
  index : s.longestChainIndex = 0
  orphans : s.orphansByPrev = ∅

variable {S S' : Heap} {c c' : NamecoinChain}

/-- The index after a block on the chain number `i`. -/
def indexed (E : Env) (s : ChainService) (i : ℕ) (blk : Block) : Map String BlockMeta :=
  (registerBlock s i (settleHash E blk)).blockIndex

theorem keepsLongest_self (h : c.headHash ≠ none) : keepsLongest c c :=
  .inr ⟨rfl, h, h, bytesLess_irrefl _⟩

theorem Single.origin (h : Single S c s) (hh : HeadOK c.headHash)
    (ha : c.applyBlock E S blk = .ok (S', c')) (h0 : blk.header.height = 0 → isEmpty c) :
    Origin E visit s index blk s c 0 := by
  obtain ⟨st, data, hv, -, -, -, -⟩ := (applyBlock_ok_iff hh).mp ha
  have hnext := ensureNextBlockFollows_ok_iff.mp (validateBlockHeader_ok_iff.mp hv).2.1
  by_cases hz : blk.header.height = 0
  · refine .empty hz ?_
    unfold firstChain
    rw [h.chains]
    simp [h0 hz]
  · have hsome : c.headHash ≠ none := fun hn => by
      rw [if_pos hn] at hnext
      exact hz hnext.1
    rw [if_neg hsome] at hnext
    refine .head hz (fun hn => ?_) ?_
    · rw [hn] at hnext
      refine hsome (hh.symm.trans ?_)
      exact if_pos hnext.2.symm
    · unfold findHeadByHash firstChain
      rw [h.chains]
      have : bytesEqual c.headHash blk.header.prevHash := hnext.2.symm
      simp [this]

/-- **A block on top of the only chain** that the service does not know. -/
theorem Single.next (h : Single S c s) (hh : HeadOK c.headHash)
    (hk : ¬ blockKnown s blk.hash blk.header.height) (ha : c.applyBlock E S blk = .ok (S', c'))
    (h0 : blk.header.height = 0 → isEmpty c) (order : MapOrder) (index : ℤ) :
    Single S' c' (appendBlockToChain E order index s blk).1 ∧
      (appendBlockToChain E order index s blk).1.blockIndex = indexed E s 0 blk ∧
      (appendBlockToChain E order index s blk).2.2 = none := by
  have ha' : c.applyBlock E s.stores blk = .ok (S', c') := by rw [h.stores]; exact ha
  have hturn := processSingleBlock_attached hk
    (h.origin hh ha h0 : Origin E (order.visit 0) s index blk s c 0) ha' h.orphans
  have hsome : c'.headHash ≠ none := by
    obtain ⟨st, data, -, -, -, -, rfl⟩ := (applyBlock_ok_iff hh).mp ha
    exact Option.some_ne_none _
  have hrival : rival s 0 c' = c' := if_pos h.index.symm
  have hlt : 0 < s.chains.length := by rw [h.chains]; exact Nat.one_pos
  rw [appendBlockToChain_single hturn]
  rcases attach_cases S' c' (settleHash E blk) hlt with ⟨-, heq⟩ | ⟨hnot, -⟩
  · rw [heq]
    refine ⟨⟨stores_registerBlock _ _ _, ?_, ?_, ?_⟩, ?_, rfl⟩
    · rw [chains_registerBlock]
      show s.chains.set 0 c' = [c']
      rw [h.chains]
      rfl
    · exact (longestChainIndex_registerBlock _ _ _).trans h.index
    · exact (orphansByPrev_registerBlock _ _ _).trans h.orphans
    · show _ = (registerBlock s 0 (settleHash E blk)).blockIndex
      unfold registerBlock
      split_ifs <;> rfl
  · rw [hrival] at hnot
    exact absurd (keepsLongest_self hsome) hnot

theorem Single.call (h : Single S c s) (hh : HeadOK c.headHash) (hb : blk.hash = none)
    (ha : c.applyBlock E S blk = .ok (S', c')) (h0 : blk.header.height = 0 → isEmpty c)
    (order : MapOrder) (index : ℤ) :
    Single S' c' (appendBlockToChain E order index s blk).1 ∧
      (appendBlockToChain E order index s blk).1.blockIndex = indexed E s 0 blk ∧
      (appendBlockToChain E order index s blk).2.2 = none :=
  h.next hh (not_blockKnown_of_none hb) ha h0 order index

theorem single_new (cfg : PoWConfig) : Single [.mem ∅] (configurePow cfg (newNamecoinChain 0))
    (newChainService E [.mem ∅] (configurePow cfg (newNamecoinChain 0))) ∧
    (newChainService E [.mem ∅] (configurePow cfg (newNamecoinChain 0))).blockIndex = ∅ := by
  have heq : newChainService E [.mem ∅] (configurePow cfg (newNamecoinChain 0)) =
      ⟨[.mem ∅], [configurePow cfg (newNamecoinChain 0)], 0, ∅, ∅, by simp⟩ := rfl
  rw [heq]
  exact ⟨⟨rfl, rfl, rfl, rfl⟩, rfl⟩

/-! ### A store with one block -/

theorem index_one {cfg : PoWConfig} {g : Block} {m : Map String Bytes} {c c₀ : NamecoinChain}
    (hrun : LiveRun E cfg [g] [.mem m] c) (hstore : c₀.store = 0) (hheight : c₀.headHeight = 0) :
    (newChainService E [.mem m] c₀).blockIndex.lookup (hashKeyHex (some (computeHash E g))) =
      some ⟨0, {0}⟩ := by
  obtain ⟨m', heq, hm⟩ := hrun.holds
  cases heq
  have hread : blockAtHeight E [.mem m] c₀ 0 = .ok (Block.reloaded (settleHash E g)) :=
    hm.blockAtHeight (by simp) (i := 0) (by simp) hstore
  have hnew : newChainService E [.mem m] c₀ =
      registerBlock ⟨[.mem m], [c₀], 0, ∅, ∅, by simp⟩ 0 (Block.reloaded (settleHash E g)) := by
    unfold newChainService indexChain
    rw [hheight]
    show indexHeight E 0 c₀ _ 0 = _
    unfold indexHeight
    rw [show blockAtHeight E _ c₀ (UInt64.ofNat 0) = _ from hread]
  have hgenesis : g.header.height = 0 := hm.heights 0 (by simp)
  have hfit : hashFits E g := hrun.fits g (by simp)
  have hhash : (Block.reloaded (settleHash E g)).hash = some (computeHash E g) := by
    show some (elems (settleHash E g).hash) = _
    rw [settleHash_hash hfit]
    rfl
  have hheader : (Block.reloaded (settleHash E g)).header = g.header := settleHash_header g
  rw [hnew, registerBlock, hhash, if_neg (Option.some_ne_none _), hheader, hgenesis]
  exact (lookup_insert_ite _ _ _ _).trans (if_pos rfl)

/-- The chains in the order of their numbers. -/
def numbered : MapOrder where
  visit _ chains := chains.sort (· ≤ ·)
  mem_visit _ _ _ := Finset.mem_sort _
  nodup_visit _ chains := Finset.sort_nodup chains _

/-- **Every run on a fresh store is a sequence of calls** on a service with one chain. -/
theorem live_calls {cfg : PoWConfig} {blks : List Block} (h : LiveRun E cfg blks S c)
    (hlen : blks.length ≤ 2 ^ 64) (hhash : ∀ b ∈ blks, b.hash = none) :
    ∃ s, Calls E (newChainService E [.mem ∅] (configurePow cfg (newNamecoinChain 0))) blks s ∧
    Single S c s := by
  induction h with
  | empty => exact ⟨_, .nil, (single_new cfg).1⟩
  | @step blks S S' c c' blk hrun ha ih =>
    rw [List.length_append, List.length_singleton] at hlen
    obtain ⟨s, hcalls, hs⟩ := ih (by omega) fun b hb => hhash b (List.mem_append_left _ hb)
    have h0 : blk.header.height = 0 → isEmpty c := fun hz => by
      obtain ⟨m, -, hm⟩ := (hrun.step ha).holds
      have hheight := hm.heights blks.length (by simp)
      rw [List.getElem_concat_length rfl] at hheight
      have hnat := congrArg UInt64.toNat (hheight.symm.trans hz)
      rw [UInt64.toNat_ofNat_of_lt' (show blks.length < 2 ^ 64 by omega)] at hnat
      obtain rfl : blks = [] := List.length_eq_zero_iff.mp hnat
      rw [hrun.of_nil.2]
      exact ⟨rfl, rfl⟩
    exact ⟨_, .snoc numbered 0 blk hcalls,
      (hs.call hrun.reached.headOK (hhash blk (by simp)) ha h0 numbered 0).1⟩

end Namecoin.Service.Scenes
