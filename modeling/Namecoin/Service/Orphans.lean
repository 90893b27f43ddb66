import Namecoin.Chain.Rejections
import Namecoin.Chain.Restart
import Namecoin.Service.Views

/-! # The pool of orphans

A block is put into the pool if its parent is unknown, and also if the chain that was found for its
parent does not accept it as the next block. The second case is meant for chains that have moved on;
but a block whose height does not fit, or whose parent can no longer be read where the index says, is
put into the pool although its parent is known.

* `orphans_lack`: in runs in which every block fits its parent (`Joins`), no block that
  waits has a known parent;
* `misplaced_child`: a child of the first block that claims height 5 waits for a block that is known. -/

namespace Namecoin.Service.Orphans

open Lib.Maps Lib.Ops Lib.ByteStrings Lib.WorkList Types.Defs Types.BlockCodec Types.SampleEnv
open Chain.Pow Chain.Stores Chain.Overlays Chain.Defs Chain.Apply Chain.Build Chain.Replay
open Chain.Reload Chain.Restart Chain.Forks Chain.Rejections Service.Defs Service.Turns
open Service.Scenes Service.Branches Service.Views

variable {E : Env} {visit : Finset ℕ → List ℕ} {s : ChainService} {index : ℤ} {blk : Block}
variable {c : NamecoinChain} {i : ℕ} {s₁ : ChainService}

/-! ### The pool and the index -/

theorem waiting_pop (s : ChainService) (hash : Slice UInt8) (k : String) :
    waiting (popWaitingChildren s hash).1 k = if hash ≠ none ∧ k = hashKeyHex hash then []
      else waiting s k := by
  unfold popWaitingChildren
  by_cases hn : hash = none
  · rw [if_pos hn, if_neg fun h => h.1 hn]
  · rw [if_neg hn]
    dsimp only
    split_ifs with hw hk hk
    · rw [hk.2, hw]
    · rfl
    · rw [hk.2]
      unfold waiting
      dsimp only
      rw [lookup_erase_ite, if_pos rfl]
      rfl
    · unfold waiting
      dsimp only
      rw [lookup_erase_ite, if_neg fun he => hk ⟨hn, he⟩]

/-- The block is put into the pool. -/
def stored (blk : Block) : Prop := blk.header.height ≠ 0 ∧ blk.header.prevHash ≠ none

instance (blk : Block) : Decidable (stored blk) := by unfold stored; infer_instance

theorem hashKeyHex_clone (h : Slice UInt8) : hashKeyHex (cloneBytes h) = hashKeyHex h := by
  unfold hashKeyHex
  rw [elems_cloneBytes]

theorem waiting_storeOrphan (s : ChainService) (blk : Block) (k : String) :
    waiting (storeOrphan s blk) k = if stored blk ∧ k = hashKeyHex blk.header.prevHash then waiting s k ++
      [cloneBlock blk] else waiting s k := by
  unfold storeOrphan
  by_cases hn : blk.header.height = 0 ∨ blk.header.prevHash = none
  · rw [if_pos hn, if_neg fun h => hn.elim h.1.1 h.1.2]
  · rw [if_neg hn]
    have hs : stored blk := not_or.mp hn
    have hkey : hashKeyHex (cloneBlock blk).header.prevHash = hashKeyHex blk.header.prevHash :=
      hashKeyHex_clone _
    dsimp only
    rw [hkey]
    unfold waiting
    dsimp only
    rw [lookup_insert_ite]
    split_ifs with h1 h2 h2
    · rw [h1]; rfl
    · exact absurd ⟨hs, h1⟩ h2
    · exact absurd h2.2 h1
    · rfl

/-! ### The invariant -/

/-- The entries of the index name chains of the service. -/
def Metas (s : ChainService) : Prop :=
  ∀ key m, s.blockIndex.lookup key = some m → m.chains.Nonempty ∧ ∀ i ∈ m.chains, i < s.chains.length

/-- The data under the key of a height: a block under whose `Hash` there is an entry in the index, and,
under the first key, one that can be replayed. -/
def Known (E : Env) (idx : Map String BlockMeta) (height : UInt64) (data : Bytes) : Prop :=
  (∀ b, data ≠ [] → decodeLoadedBlock E ⟨height, data⟩ = .ok b → b.hash ≠ none →
    idx.lookup (hashKeyHex b.hash) ≠ none) ∧
    (height = 0 → ∃ p, replayOne E replayStart ⟨0, data⟩ = .ok p)

/-- The chains, the stores and the index fit together. -/
structure Sound (E : Env) (s : ChainService) : Prop where
  replayed : AllReplayed E s
  readable : Readable (Known E s.blockIndex) s
  metas : Metas s

/-- What holds between two turns. -/
structure Orderly (E : Env) (s : ChainService) : Prop extends Sound E s where
  keys : ∀ k, ∀ b ∈ waiting s k, hashKeyHex b.header.prevHash = k
  lacking : ∀ k, waiting s k ≠ [] → s.blockIndex.lookup k = none

theorem Sound.pool (h : Sound E s) (pool : Map String (List Block)) :
    Sound E { s with orphansByPrev := pool } :=
  ⟨h.replayed, h.readable.congr rfl rfl, h.metas⟩

theorem Known.mono {idx idx' : Map String BlockMeta} (h : ∀ k, idx.lookup k ≠ none → idx'.lookup k ≠ none)
    {height : UInt64} {data : Bytes} (hk : Known E idx height data) : Known E idx' height data :=
  ⟨fun b hne hd hb => h _ (hk.1 b hne hd hb), hk.2⟩

theorem metas_registerBlock (h : Metas s) (hi : i < s.chains.length) (blk : Block) :
    Metas (registerBlock s i blk) := by
  intro key m hm
  rw [chains_registerBlock]
  rw [lookup_registerBlock] at hm
  split_ifs at hm with hk
  · cases hm
    unfold metaWith
    cases hl : s.blockIndex.lookup key with
    | none => exact ⟨Finset.singleton_nonempty i, fun j hj => Finset.mem_singleton.mp hj ▸ hi⟩
    | some old =>
      refine ⟨Finset.insert_nonempty _ _, fun j hj => ?_⟩
      rcases Finset.mem_insert.mp hj with rfl | hj
      · exact hi
      · exact (h key old hl).2 j hj
  · exact h key m hm

theorem lookup_registerBlock_ne_none {k : String} (h : s.blockIndex.lookup k ≠ none) :
    (registerBlock s i blk).blockIndex.lookup k ≠ none := by
  rw [lookup_registerBlock]
  split_ifs
  · exact Option.some_ne_none _
  · exact h

theorem blockAtHeight_ok_iff {S : Heap} {height : UInt64} {b : Block} :
    blockAtHeight E S c height = .ok b ↔ ∃ data, entry S c.store (encodeNamecoinBlockKey height) =
      some data ∧ data ≠ [] ∧ decodeLoadedBlock E ⟨height, data⟩ = .ok b := by
  unfold blockAtHeight Chain.Stores.get
  cases entry S c.store (encodeNamecoinBlockKey height) with
  | none => simp
  | some raw =>
    by_cases hraw : raw = []
    · simp [hraw, cloneBytes]
    · simp [hraw, cloneBytes]

/-- **Indexing a chain** whose blocks are all known adds no key. -/
theorem lookup_indexChain (hc : c ∈ s.chains) (h : Readable (Known E s.blockIndex) s)
    (k : String) : (indexChain E s i c).blockIndex.lookup k = none ↔ s.blockIndex.lookup k = none := by
  refine indexChain_induct (P := fun s' => s'.blockIndex.lookup k = none ↔ s.blockIndex.lookup k = none)
    (fun s' height b hle hb ih => ?_) Iff.rfl
  rw [lookup_registerBlock]
  split_ifs with hk
  · obtain ⟨data, hentry, hne, hdec⟩ := blockAtHeight_ok_iff.mp hb
    have hknown := (h.views c hc height hle data hentry).1 b hne hdec hk.1
    rw [← hk.2] at hknown
    simp [hknown]
  · exact ih

/-- **Indexing a chain** registers every block that the chain can read. -/
theorem lookup_indexChain_ne_none {height : UInt64} {b : Block}
    (hle : height ≤ c.headHeight) (hb : blockAtHeight E s.stores c height = .ok b)
    (hhash : b.hash ≠ none) :
    (indexChain E s i c).blockIndex.lookup (hashKeyHex b.hash) ≠ none := by
  have hmem : height.toNat ∈ List.range (c.headHeight.toNat + 1) :=
    List.mem_range.mpr (Nat.lt_succ_of_le (UInt64.le_iff_toNat_le.mp hle))
  obtain ⟨front, rest, hsplit⟩ := List.append_of_mem hmem
  unfold indexChain
  rw [hsplit, List.foldl_append, List.foldl_cons]
  -- the loop reads the same stores in every turn, and keeps what is registered
  have hstores : (front.foldl (indexHeight E i c) s).stores = s.stores :=
    List.foldlRecOn (motive := fun s' : ChainService => s'.stores = s.stores) _ _ rfl fun s' h k _ =>
      (stores_indexHeight i c s' k).trans h
  refine List.foldlRecOn (motive := fun s' : ChainService => s'.blockIndex.lookup
    (hashKeyHex b.hash) ≠ none) _ _ ?_ fun s' h k _ => ?_
  · rw [indexHeight, hstores, UInt64.ofNat_toNat, hb]
    dsimp only
    rw [lookup_registerBlock, if_pos ⟨hhash, rfl⟩]
    exact Option.some_ne_none _
  · unfold indexHeight
    split
    · exact h
    · exact lookup_registerBlock_ne_none h

theorem metas_indexChain (h : Metas s) (hi : i < s.chains.length) (c : NamecoinChain) :
    Metas (indexChain E s i c) := by
  have hall : Metas (indexChain E s i c) ∧ (indexChain E s i c).chains = s.chains :=
    indexChain_induct (P := fun s' => Metas s' ∧ s'.chains = s.chains) (fun s' _ b _ _ ih =>
      ⟨metas_registerBlock ih.1 (by rw [ih.2]; exact hi) b, (chains_registerBlock _ _ _).trans ih.2⟩)
        ⟨h, rfl⟩
  exact hall.1

theorem waiting_congr {s s' : ChainService} (h : s'.orphansByPrev = s.orphansByPrev) (k : String) :
    waiting s' k = waiting s k := by
  unfold waiting
  rw [h]

/-! ### A chain is made for a block -/

theorem metas_addChain (h : Metas s) (S : Heap) (f : NamecoinChain) : Metas (addChain s S f) := by
  intro key m hm
  obtain ⟨hne, hlt⟩ := h key m hm
  refine ⟨hne, fun i hi => (hlt i hi).trans ?_⟩
  show s.chains.length < (s.chains ++ [f]).length
  rw [List.length_append]
  exact Nat.lt_succ_self _

theorem metas_origin (ho : Origin E visit s index blk s₁ c i) (h : Metas s) : Metas s₁ := by
  cases ho with
  | empty => exact h
  | fresh => exact metas_addChain h _ _
  | head => exact h
  | fork =>
    refine metas_indexChain (metas_addChain h _ _) ?_ _
    show s.chains.length < (s.chains ++ [_]).length
    rw [List.length_append]
    exact Nat.lt_succ_self _

theorem sound_origin (ho : Origin E visit s index blk s₁ c i)
    (h : Sound E s) : Sound E s₁ ∧ ∀ k, s₁.blockIndex.lookup k = none ↔ s.blockIndex.lookup k = none := by
  have hkeys : ∀ k, s₁.blockIndex.lookup k = none ↔ s.blockIndex.lookup k = none := by
    cases ho with
    | empty => exact fun _ => Iff.rfl
    | fresh => exact fun _ => Iff.rfl
    | head => exact fun _ => Iff.rfl
    | @fork m base f _ _ _ _ hbase hf =>
      intro k
      obtain ⟨hle, hheight, hstore, -⟩ := fork_run hf
      have hadd := h.readable.add (pickBase_mem hbase) hstore (hheight ▸ hle) (sane_fork hf)
      exact lookup_indexChain (s := addChain s _ c)
        (List.mem_append_right _ (List.mem_singleton_self c)) hadd k
  refine ⟨⟨replayed_origin ho h.replayed, ?_, metas_origin ho h.metas⟩, hkeys⟩
  exact (readable_origin ho h.readable).mono fun _ _ hk => hk.mono fun k hne hn => hne ((hkeys k).mp hn)

theorem orderly_origin (ho : Origin E visit s index blk s₁ c i)
    (h : Orderly E s) : Orderly E s₁ ∧ ∀ k, s₁.blockIndex.lookup k = none ↔
    s.blockIndex.lookup k = none := by
  obtain ⟨hsound, hkeys⟩ := sound_origin ho h.toSound
  refine ⟨⟨hsound, ?_, ?_⟩, hkeys⟩
  · intro k
    rw [waiting_congr ho.orphansByPrev]
    exact h.keys k
  · intro k hk
    rw [waiting_congr ho.orphansByPrev] at hk
    exact (hkeys k).mpr (h.lacking k hk)

/-! ### A block is attached -/

theorem known_attached {c c' : NamecoinChain} {S : Heap}
    (ho : Origin E visit s index blk s₁ c i) (ha : c.applyBlock E s₁.stores blk = .ok (S, c'))
    (h : AllReplayed E s₁) {idx : Map String BlockMeta}
    (hidx : idx.lookup (hashKeyHex (settleHash E blk).hash) ≠ none) {data : Bytes}
    (hdata : marshal E (settleHash E blk) = .ok data) : Known E idx blk.header.height data := by
  refine ⟨fun b _ hd hn => ?_, firstReplays_attached ho ha h hdata⟩
  have hstored := decodeLoadedBlock_stored hdata
  rw [settleHash_header, hd] at hstored
  cases hstored
  exact hidx

theorem metas_attach (S : Heap) (c : NamecoinChain) (b : Block) (hi : i < s.chains.length) (h : Metas s) :
    Metas (attach s S c i b) := by
  intro key m hm
  obtain ⟨store, hchains⟩ := chains_attach S c b hi
  rw [blockIndex_attach s S c b hi] at hm
  obtain ⟨hne, hlt⟩ := metas_registerBlock h hi b key m hm
  rw [chains_registerBlock] at hlt
  refine ⟨hne, fun j hj => ?_⟩
  rw [hchains, List.length_set]
  exact hlt j hj

theorem sound_attach {c c' : NamecoinChain} {S : Heap}
    (ho : Origin E visit s index blk s₁ c i) (ha : c.applyBlock E s₁.stores blk = .ok (S, c'))
    (h : Sound E s₁) (hsome : (settleHash E blk).hash ≠ none) :
    Sound E (attach s₁ S c' i (settleHash E blk)) := by
  have hindex := blockIndex_attach s₁ S c' (settleHash E blk) ho.lt_length
  refine ⟨replayed_attach ho ha h.replayed, ?_, metas_attach S c' _ ho.lt_length h.metas⟩
  rw [hindex]
  refine readable_attach ho ha (h.readable.mono fun _ _ hk => hk.mono fun k =>
    lookup_registerBlock_ne_none) fun data hd => known_attached ho ha h.replayed ?_ hd
  rw [lookup_registerBlock, if_pos ⟨hsome, rfl⟩]
  exact Option.some_ne_none _

theorem settleHash_ne_none {S S' : Heap} {c c' : NamecoinChain} (hh : HeadOK c.headHash)
    (ha : c.applyBlock E S blk = .ok (S', c')) : (settleHash E blk).hash ≠ none := by
  obtain ⟨st, data, hv, -⟩ := (applyBlock_ok_iff hh).mp ha
  rw [settleHash_hash (validateBlockHeader_ok_iff.mp hv).1]
  exact Option.some_ne_none _

/-- **A block that is attached**, after the blocks that waited for it have left the pool. -/
theorem orderly_attach {c c' : NamecoinChain} {S : Heap}
    (ho : Origin E visit s index blk s₁ c i) (ha : c.applyBlock E s₁.stores blk = .ok (S, c'))
    (h : Orderly E s₁) :
    Orderly E (popWaitingChildren (attach s₁ S c' i (settleHash E blk)) (settleHash E blk).hash).1 := by
  have hsome : (settleHash E blk).hash ≠ none :=
    settleHash_ne_none (h.readable.heads c (List.mem_of_getElem? ho.getElem?)).1 ha
  obtain ⟨pool, heq⟩ := popWaitingChildren_eq (attach s₁ S c' i (settleHash E blk))
    (settleHash E blk).hash
  refine ⟨?_, fun k => ?_, fun k => ?_⟩
  · rw [heq]
    exact (sound_attach ho ha h.toSound hsome).pool pool
  · rw [waiting_pop]
    split_ifs
    · simp
    · rw [waiting_congr (orphansByPrev_attach _ _ _ _ _)]
      exact h.keys k
  · rw [waiting_pop]
    split_ifs with hk
    · exact fun hne => absurd rfl hne
    · rw [waiting_congr (orphansByPrev_attach _ _ _ _ _), heq]
      intro hw
      show (attach s₁ S c' i (settleHash E blk)).blockIndex.lookup k = none
      rw [blockIndex_attach s₁ S c' _ ho.lt_length, lookup_registerBlock, if_neg hk]
      exact h.lacking k hw

/-! ### A block is put into the pool -/

theorem Orderly.store (h : Orderly E s)
    (hk : stored blk → s.blockIndex.lookup (hashKeyHex blk.header.prevHash) = none) :
    Orderly E (storeOrphan s blk) := by
  obtain ⟨pool, heq⟩ := storeOrphan_eq s blk
  refine ⟨?_, fun k b hb => ?_, fun k hw => ?_⟩
  · rw [heq]
    exact h.toSound.pool pool
  · rw [waiting_storeOrphan] at hb
    split_ifs at hb with hnew
    · rcases List.mem_append.mp hb with hb | hb
      · exact h.keys k b hb
      · rw [List.mem_singleton.mp hb, hnew.2]
        exact hashKeyHex_clone _
    · exact h.keys k b hb
  · rw [waiting_storeOrphan] at hw
    rw [heq]
    show s.blockIndex.lookup k = none
    split_ifs at hw with hnew
    · rw [hnew.2]
      exact hk hnew.1
    · exact h.lacking k hw

theorem Orderly.pop (h : Orderly E s) (hash : Slice UInt8) : Orderly E (popWaitingChildren s hash).1 := by
  obtain ⟨pool, heq⟩ := popWaitingChildren_eq s hash
  refine ⟨?_, fun k b hb => ?_, fun k hw => ?_⟩
  · rw [heq]
    exact h.toSound.pool pool
  · rw [waiting_pop] at hb
    split_ifs at hb
    · cases hb
    · exact h.keys k b hb
  · rw [waiting_pop] at hw
    rw [heq]
    split_ifs at hw
    · exact absurd rfl hw
    · exact h.lacking k hw

theorem forkUpToHeight_errors (S : Heap) (c : NamecoinChain) (height : UInt64) (store : ℕ) :
    Errors (· ≠ .unknownParent) (c.forkUpToHeight E S height store) := by
  have hread : ∀ hs : List ℕ, Errors (· ≠ .unknownParent) (readBlocks S store hs) := by
    intro hs
    induction hs with
    | nil => exact .ok _
    | cons k hs ih =>
      rw [readBlocks]
      split
      · exact .error fun h => by cases h
      · exact Errors.bind ih fun _ => .ok _
  refine Errors.bind (.failIf fun h => by cases h) fun _ => Errors.bind (hread _) fun lbs => ?_
  exact Errors.bind (.failIf fun h => by cases h) fun _ => .ok _

/-- **`ErrUnknownParent`**: the block is a first one, or its parent is not known. -/
theorem unknown_parent (hm : Metas s) (hvisit : ∀ is i, i ∈ visit is ↔ i ∈ is)
    (h : ensureChainForParent E visit s index blk = .error .unknownParent) (hs : stored blk) :
    s.blockIndex.lookup (hashKeyHex blk.header.prevHash) = none := by
  unfold ensureChainForParent at h
  rw [if_neg hs.1, if_neg hs.2] at h
  cases hf : findHeadByHash s blk.header.prevHash with
  | some e => rw [hf] at h; cases h
  | none =>
    rw [hf] at h
    dsimp only at h
    cases hl : s.blockIndex.lookup (hashKeyHex blk.header.prevHash) with
    | none => rfl
    | some m =>
      exfalso
      have hmeta : getParentMeta s blk.header.prevHash = .ok m := by
        unfold getParentMeta
        rw [hl]
      rw [hmeta] at h
      have hfork : forkFromParentMeta E visit s m = .error .unknownParent := h
      unfold forkFromParentMeta at hfork
      cases hp : pickBase s (visit m.chains) none with
      | none =>
        -- the entry names a chain of the service
        obtain ⟨⟨i, hi⟩, hlt⟩ := hm _ m hl
        have hnone := pickBase_none hp i ((hvisit _ i).mpr hi)
        rw [List.getElem?_eq_getElem (hlt i hi)] at hnone
        cases hnone
      | some base =>
        rw [hp] at hfork
        refine Errors.bind (P := (· ≠ Err.unknownParent)) ?_ (fun _ => ?_) _ hfork rfl
        · exact forkUpToHeight_errors _ _ _ _
        · exact .ok _

/-! ### The condition -/

/-- A block whose parent is known fits it: it is the next block of every chain whose head is the
parent; and if there is no such chain, its height is the next one, and the longest chains that the
index names for the parent can read it. -/
def Joins (E : Env) (s : ChainService) (blk : Block) : Prop :=
  ∀ m, s.blockIndex.lookup (hashKeyHex blk.header.prevHash) = some m →
    (∀ c ∈ s.chains, bytesEqual c.headHash blk.header.prevHash →
      ensureNextBlockFollows c.headHeight c.headHash blk = .ok ()) ∧
    ((∀ c ∈ s.chains, ¬ bytesEqual c.headHash blk.header.prevHash) → blk.header.height = m.height + 1 ∧
      ∀ c, Longest s m.chains c → ∃ b, blockAtHeight E s.stores c m.height = .ok b ∧
        computeHash E b = elems blk.header.prevHash)

theorem fork_joins {base f : NamecoinChain} {height : UInt64} (h : Sound E s) (hbase : base ∈ s.chains)
    (hf : base.forkUpToHeight E (newOverlayStore s.stores base.store).1 height s.stores.length = .ok f)
    {b : Block} (hb : blockAtHeight E s.stores base height = .ok b) :
    f.headHash = some (computeHash E b) := by
  obtain ⟨data, hentry, -, hdec⟩ := blockAtHeight_ok_iff.mp hb
  obtain ⟨x, hx⟩ := Option.ne_none_iff_exists'.mp
    (fork_has_head (h.readable.mono fun _ _ hk => hk.2) hbase hf)
  obtain ⟨data', r, he, -, hr⟩ := fork_head hf hx
  rw [entry_newOverlayStore, hentry, Option.some.injEq] at he
  obtain ⟨b', -, hdec', -, -, -, -, rfl, -⟩ := replayOne_ok_iff.mp hr
  rw [← he, hdec] at hdec'
  cases hdec'
  exact hx

/-- **A turn with a block that fits its parent.** -/
theorem orderly_turn {o : Outcome ChainService Block Err} (hvisit : ∀ is i, i ∈ visit is ↔ i ∈ is)
    (ht : Turn E visit index s blk o)
    (hj : stored blk → ¬ blockKnown s blk.hash blk.header.height → Joins E s blk) (h : Orderly E s) :
    Orderly E o.state := by
  cases ht with
  | known => exact h.pop _
  | unknownParent _ he => exact h.store fun hs => unknown_parent h.metas hvisit he hs
  | noFork => exact h
  | @notNext s₁ c i text hk ho ha =>
    obtain ⟨h₁, hkeys⟩ := orderly_origin ho h
    have hok := (h₁.readable.heads c (List.mem_of_getElem? ho.getElem?)).1
    have herr := ((applyBlock_follow_iff hok).mp ha).2
    refine h₁.store fun hs => (hkeys _).mpr ?_
    unfold stored at hs
    rw [settleHash_header] at hs ⊢
    by_contra hne
    obtain ⟨m, hm⟩ := Option.ne_none_iff_exists'.mp hne
    obtain ⟨hhead, hfork⟩ := hj hs hk m hm
    have hnext : ensureNextBlockFollows c.headHeight c.headHash blk = .ok () := by
      cases ho with
      | empty h0 => exact absurd h0 hs.1
      | fresh h0 => exact absurd h0 hs.1
      | head _ _ hf =>
        obtain ⟨hi, heq⟩ := firstChain_some hf
        exact hhead c (List.mem_of_getElem? hi) heq
      | @fork m' base _ _ _ hf hl hbase hfk =>
        obtain rfl : m = m' := Option.some.inj (hm.symm.trans hl)
        obtain ⟨hheight, hshows⟩ := hfork (firstChain_none.mp hf)
        obtain ⟨b, hb, hhash⟩ := hshows base (longest_of_pickBase (hvisit _) hbase)
        have hf' := fork_joins h.toSound (pickBase_mem hbase) hfk hb
        refine ensureNextBlockFollows_ok_iff.mpr ?_
        rw [hf', if_neg (Option.some_ne_none _), (fork_run hfk).2.1]
        exact ⟨hheight, hhash.symm⟩
    rw [hnext] at herr
    cases herr
  | invalid _ ho => exact (orderly_origin ho h).1
  | attached _ ho ha => exact orderly_attach ho ha (orderly_origin ho h).1

/-! ### Runs -/

/-- A chain to start with: its head is one that blocks lead to, and if its store has a first
block, it can be replayed. -/
structure Start (E : Env) (m : Map String Bytes) (c : NamecoinChain) : Prop where
  store : c.store = 0
  replayed : ∃ blks, Replayed E blks (headOf c)
  first : ∀ data, m.lookup (encodeNamecoinBlockKey 0) = some data →
    ∃ p, replayOne E replayStart ⟨0, data⟩ = .ok p

theorem start_live {cfg : PoWConfig} {blks : List Block} {m : Map String Bytes}
    (h : LiveRun E cfg blks [.mem m] c) (hlen : blks.length ≤ 2 ^ 64) : Start E m c := by
  obtain ⟨m', heq, hm⟩ := h.holds
  cases heq
  refine ⟨hm.store, ReachedChain.replayed h.reached, fun data hd => ?_⟩
  cases blks with
  | nil =>
    rcases hm.keys _ data hd with hlast | ⟨b, hb, -⟩
    · exact absurd hlast (encode_ne_last 0)
    · cases hb
  | cons g rest =>
    have hblock := hm.block hlen g List.mem_cons_self
    have hheight : g.header.height = 0 := hm.heights 0 (by simp)
    rw [hheight, hd] at hblock
    obtain rfl := Option.some.inj hblock
    cases h.replay with
    | cons hone =>
      unfold loaded at hone
      rw [hheight] at hone
      exact ⟨_, hone⟩

/-- The condition on a turn: a block that is not known yet fits its parent. -/
def Fits (E : Env) (s : ChainService) (blk : Block) : Prop :=
  stored blk → ¬ blockKnown s blk.hash blk.header.height → Joins E s blk

theorem Start.orderly {m : Map String Bytes} (h : Start E m c) :
    Orderly E (newChainService E [.mem m] c) := by
  have hmetas : Metas ⟨[.mem m], [c], 0, ∅, ∅, by simp⟩ := fun key m hm => by cases hm
  have hwait : ∀ k, waiting (newChainService E [.mem m] c) k = [] := fun k =>
    waiting_congr (s := ⟨[.mem m], [c], 0, ∅, ∅, by simp⟩) (orphansByPrev_indexChain _ _ _) k
  refine ⟨⟨fun d hd => ?_, ?_, metas_indexChain hmetas Nat.one_pos c⟩, fun k b hb => ?_, fun k hk => ?_⟩
  · rw [newChainService, chains_indexChain, List.mem_singleton] at hd
    rw [hd]
    exact h.replayed
  · obtain ⟨blks, hb⟩ := h.replayed
    refine readable_new h.store (sane_of_replayed hb) fun k hk data hd =>
      ⟨fun b hne hdec hhash => ?_, fun h0 => ?_⟩
    · refine lookup_indexChain_ne_none hk (blockAtHeight_ok_iff.mpr ⟨data, ?_, hne, hdec⟩) hhash
      rw [h.store]
      exact hd
    · rw [h0] at hd
      exact h.first data hd
  · rw [hwait] at hb
    cases hb
  · exact absurd (hwait k) hk

/-- **Waiting orphans lack their parent** in runs in which every block fits its parent. -/
theorem orphans_lack {m : Map String Bytes} {c₀ : NamecoinChain} {calls : List Block} (h₀ : Start E m c₀)
    (h : CallsAlong E (Fits E) (newChainService E [.mem m] c₀) calls s) :
    ∀ k, ∀ b ∈ waiting s k, s.blockIndex.lookup (hashKeyHex b.header.prevHash) = none := by
  have ho : Orderly E s := by
    refine h.invariant (fun order n index s blk o ht hC hs => ?_) h₀.orderly
    exact orderly_turn (order.mem_visit n) ht hC hs
  intro k b hb
  rw [ho.keys k b hb]
  exact ho.lacking k fun hnil => by rw [hnil] at hb; cases hb

/-- A block of height 7 whose parent has the hash `2a`. -/
def stray : Block := ⟨⟨7, some [42], none, 1, 0, "", none⟩, [], none⟩

/-- A block whose parent is unknown waits for it. -/
theorem orphans_lack_stray : ∃ (E : Env) (c₀ : NamecoinChain) (s : ChainService),
    Start E ∅ c₀ ∧ CallsAlong E (Fits E) (newChainService E [.mem ∅] c₀) [stray] s ∧
      ∃ k, waiting s k ≠ [] ∧ ∀ b ∈ waiting s k, s.blockIndex.lookup (hashKeyHex b.header.prevHash) =
        none := by
  let c₀ := configurePow zeroPoWConfig (newNamecoinChain 0)
  obtain ⟨hs, hindex⟩ := single_new (E := plainEnv) zeroPoWConfig
  have hstart : Start plainEnv ∅ c₀ := ⟨rfl, ⟨[], .start⟩, fun data hd => by cases hd⟩
  have hlook : ∀ k, (newChainService plainEnv [.mem ∅] c₀).blockIndex.lookup k = none := fun k => by
    rw [hindex]
    rfl
  have hhead : findHeadByHash (newChainService plainEnv [.mem ∅] c₀) stray.header.prevHash = none := by
    refine firstChain_none.mpr fun c hc => ?_
    rw [hs.chains, List.mem_singleton] at hc
    rw [hc]
    decide
  have hturn : processSingleBlock plainEnv (numbered.visit 0) 0
    (newChainService plainEnv [.mem ∅] c₀) stray =
    ⟨storeOrphan (newChainService plainEnv [.mem ∅] c₀) stray, [], none⟩ :=
    processSingleBlock_unknown (not_blockKnown_of_none rfl) (by decide) (by decide) hhead (hlook _)
  have hcalls : CallsAlong plainEnv (Fits plainEnv) (newChainService plainEnv [.mem ∅] c₀) [stray]
      (appendBlockToChain plainEnv numbered 0 (newChainService plainEnv [.mem ∅] c₀) stray).1 := by
    show CallsAlong plainEnv (Fits plainEnv) _ ([] ++ [stray]) _
    refine .snoc numbered 0 stray .nil (.cons (fun _ _ m hm => ?_) ?_)
    · rw [hlook] at hm
      cases hm
    · show Along _ _ _ _ ([] ++ (processSingleBlock plainEnv (numbered.visit 0) 0 _ stray).jobs)
      rw [hturn]
      exact .nil _ _
  refine ⟨plainEnv, c₀, _, hstart, hcalls, hashKeyHex stray.header.prevHash, ?_,
    orphans_lack hstart hcalls _⟩
  rw [congrArg Prod.fst (appendBlockToChain_single hturn), waiting_storeOrphan, if_pos ⟨by decide, rfl⟩]
  simp

/-! ### A block that does not fit its parent -/

/-- **A child of the first block that claims height 5** waits for the first block, which is known. -/
theorem misplaced_child : ∃ (E : Env) (m : Map String Bytes) (c₀ : NamecoinChain) (blk : Block)
      (s : ChainService),
    Start E m c₀ ∧ Calls E (newChainService E [.mem m] c₀) [blk] s ∧
      ∃ k, ∃ b ∈ waiting s k, s.blockIndex.lookup (hashKeyHex b.header.prevHash) ≠ none := by
  obtain ⟨target, m, c, -, -, hrun⟩ := quiet_live plainEnv
  let g := blockAt plainEnv 0 none [] 0
  let blk := blockAt plainEnv 5 (some (computeHash plainEnv g)) [] 0
  let s := newChainService plainEnv [.mem m] c
  obtain ⟨m', heq, hm⟩ := hrun.holds
  cases heq
  obtain ⟨hhash, hheight, -, -⟩ := hm.stamp g rfl
  have hchains : s.chains = [c] := chains_indexChain _ _ _
  have hstart : Start plainEnv m c := start_live hrun (by simp)
  have ho : Origin plainEnv (numbered.visit 0) s 0 blk s c 0 :=
    .head (by decide) (Option.some_ne_none _) (findHead_single hchains hhash)
  obtain ⟨text, herr⟩ : ∃ text, ensureNextBlockFollows c.headHeight c.headHash blk =
      .error (.chainFollow text) := by
    unfold ensureNextBlockFollows
    rw [hhash, if_neg (Option.some_ne_none _), hheight]
    exact ⟨_, rfl⟩
  have hbad : c.applyBlock plainEnv s.stores blk = .error (.chainFollow text) :=
    (applyBlock_follow_iff hrun.reached.headOK).mpr ⟨.inl rfl, herr⟩
  have hturn := processSingleBlock_notNext (not_blockKnown_of_none rfl) ho hbad
  refine ⟨plainEnv, m, c, blk, _, hstart, .snoc numbered 0 blk .nil, hashKeyHex blk.header.prevHash,
    cloneBlock (settleHash plainEnv blk), ?_, ?_⟩
  · have hstored : stored (settleHash plainEnv blk) := by
      unfold stored
      rw [settleHash_header]
      exact ⟨by decide, Option.some_ne_none _⟩
    rw [congrArg Prod.fst (appendBlockToChain_single hturn), waiting_storeOrphan,
      if_pos ⟨hstored, by rw [settleHash_header]⟩]
    simp
  · rw [congrArg Prod.fst (appendBlockToChain_single hturn)]
    obtain ⟨pool, heq⟩ := storeOrphan_eq s (settleHash plainEnv blk)
    have hkey : hashKeyHex (cloneBlock (settleHash plainEnv blk)).header.prevHash =
        hashKeyHex (some (computeHash plainEnv g)) := by
      show hashKeyHex (cloneBytes (settleHash plainEnv blk).header.prevHash) = _
      rw [hashKeyHex_clone, settleHash_header]
      rfl
    have hknown : s.blockIndex.lookup (hashKeyHex (some (computeHash plainEnv g))) = some ⟨0, {0}⟩ :=
      index_one hrun hm.store hheight
    rw [heq, hkey]
    show s.blockIndex.lookup _ ≠ none
    rw [hknown]
    exact Option.some_ne_none _

end Namecoin.Service.Orphans
