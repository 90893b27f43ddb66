import Namecoin.Chain.Replay
import Namecoin.Service.Defs

/-! # Turns of the loop over pending blocks

What `processSingleBlockUnlocked` can do with a block, said once: `Origin` lists the chains a block can
be applied to, and `Turn` the six ways a turn can end (`processSingleBlock_turn`). No turn puts more
into the pool of orphans than the block it was given, so the loop ends; `AppendBlockToChain` runs it,
and `Calls` are the services that sequences of calls lead to.

* `Turn.invariant`: what is kept when a chain is made and when a block is
  attached, is kept by every turn;
* `Calls.invariant`: and so it holds after every sequence of calls. -/

namespace Namecoin.Service.Turns

open Lib.Maps Lib.Ops Lib.WorkList Types.Defs Types.BlockCodec Chain.Stores Chain.Defs Service.Defs

variable {E : Env} {visit : Finset ℕ → List ℕ} {s : ChainService} {index : ℤ} {blk : Block}
variable {c : NamecoinChain} {i : ℕ} {s₀ s₁ : ChainService} {blks : List Block}

/-! ### The chain of the parent -/

theorem firstChain_some {p : NamecoinChain → Prop} [DecidablePred p]
    (h : firstChain s p = some (c, i)) : s.chains[i]? = some c ∧ p c := by
  have hmem := List.mem_of_find?_eq_some h
  have hp := List.find?_some h
  exact ⟨List.mem_zipIdx_iff_getElem?.mp hmem, by simpa using hp⟩

theorem firstChain_none {p : NamecoinChain → Prop} [DecidablePred p] :
    firstChain s p = none ↔ ∀ c ∈ s.chains, ¬ p c := by
  unfold firstChain
  rw [List.find?_eq_none]
  constructor
  · intro h c hc
    obtain ⟨i, hi⟩ := List.mem_iff_getElem?.mp hc
    simpa using h (c, i) (List.mem_zipIdx_iff_getElem?.mpr hi)
  · rintro h ⟨c, i⟩ he
    simpa using h c (List.mem_iff_getElem?.mpr ⟨i, List.mem_zipIdx_iff_getElem?.mp he⟩)

/-- The service after the empty chain of `newEmptyChainFrom` has been appended. -/
def withEmpty (s : ChainService) (ref : NamecoinChain) : ChainService :=
  addChain s (newEmptyChainFrom s.stores ref).1 (newEmptyChainFrom s.stores ref).2

/-- The service after a fork of `base` has been appended and indexed. -/
def withFork (E : Env) (s : ChainService) (base f : NamecoinChain) : ChainService :=
  indexChain E (addChain s (newOverlayStore s.stores base.store).1 f) s.chains.length f

/-- The chain that a block is applied to, with its number and the service after it has been made: the
first chain without blocks or a new one for a block of height 0, and otherwise the first chain that has
the parent as its head or a fork that ends at the height of the parent. -/
inductive Origin (E : Env) (visit : Finset ℕ → List ℕ) (s : ChainService) (index : ℤ) (blk : Block) :
    ChainService → NamecoinChain → ℕ → Prop
  | empty {c : NamecoinChain} {i : ℕ} : blk.header.height = 0 → firstChain s isEmpty = some (c, i) →
    Origin E visit s index blk s c i
  | fresh {ref : NamecoinChain} : blk.header.height = 0 → firstChain s isEmpty = none → 0 ≤ index →
    s.chains[index.toNat]? = some ref →
    Origin E visit s index blk (withEmpty s ref) (newEmptyChainFrom s.stores ref).2 s.chains.length
  | head {c : NamecoinChain} {i : ℕ} : blk.header.height ≠ 0 → blk.header.prevHash ≠ none →
    findHeadByHash s blk.header.prevHash = some (c, i) → Origin E visit s index blk s c i
  | fork {m : BlockMeta} {base f : NamecoinChain} : blk.header.height ≠ 0 → blk.header.prevHash ≠ none →
    findHeadByHash s blk.header.prevHash = none →
    s.blockIndex.lookup (hashKeyHex blk.header.prevHash) = some m →
    pickBase s (visit m.chains) none = some base →
    base.forkUpToHeight E (newOverlayStore s.stores base.store).1 m.height s.stores.length = .ok f →
    Origin E visit s index blk (withFork E s base f) f s.chains.length

theorem handleGenesis_ok_iff {s' : ChainService} :
    handleGenesis s index = .ok (s', c, i) ↔ (firstChain s isEmpty = some (c, i) ∧ s' = s) ∨
      (firstChain s isEmpty = none ∧ 0 ≤ index ∧ ∃ ref, s.chains[index.toNat]? = some ref ∧
      s' = withEmpty s ref ∧
        c = (newEmptyChainFrom s.stores ref).2 ∧ i = s.chains.length) := by
  unfold handleGenesis
  cases hf : firstChain s isEmpty with
  | some e =>
    obtain ⟨c', i'⟩ := e
    simp only [Except.ok.injEq, Prod.mk.injEq, Option.some.injEq, reduceCtorEq, false_and, or_false]
    constructor
    · rintro ⟨rfl, rfl, rfl⟩
      exact ⟨⟨rfl, rfl⟩, rfl⟩
    · rintro ⟨⟨rfl, rfl⟩, rfl⟩
      exact ⟨rfl, rfl, rfl⟩
  | none =>
    simp only [reduceCtorEq, false_and, true_and, false_or]
    split_ifs with hneg
    · simp only [false_iff]
      exact fun h => absurd h.1 (not_le.mpr hneg)
    · cases hr : s.chains[index.toNat]? with
      | none => simp
      | some ref =>
        simp only [Except.ok.injEq, Prod.mk.injEq, Option.some.injEq, exists_eq_left',
          not_lt.mp hneg, true_and]
        constructor
        · rintro ⟨rfl, rfl, rfl⟩
          exact ⟨rfl, rfl, rfl⟩
        · rintro ⟨rfl, rfl, rfl⟩
          exact ⟨rfl, rfl, rfl⟩

theorem forkFromParentMeta_ok_iff {m : BlockMeta} {s' : ChainService} :
    forkFromParentMeta E visit s m = .ok (s', c, i) ↔
    ∃ base, pickBase s (visit m.chains) none = some base ∧
      base.forkUpToHeight E (newOverlayStore s.stores base.store).1 m.height s.stores.length = .ok c ∧
      s' = withFork E s base c ∧ i = s.chains.length := by
  unfold forkFromParentMeta
  cases pickBase s (visit m.chains) none with
  | none => simp
  | some base =>
    simp only [Option.some.injEq, exists_eq_left', except_bind_ok_iff]
    constructor
    · rintro ⟨f, hf, h⟩
      cases h
      exact ⟨hf, rfl, rfl⟩
    · rintro ⟨hf, rfl, rfl⟩
      exact ⟨c, hf, rfl⟩

/-- **`ensureChainForParentUnlocked`** returns the chain of `Origin`. -/
theorem ensureChainForParent_ok_iff {s' : ChainService} :
    ensureChainForParent E visit s index blk = .ok (s', c, i) ↔ Origin E visit s index blk s' c i := by
  unfold ensureChainForParent
  constructor
  · intro h
    split_ifs at h with h0 hp
    · rcases handleGenesis_ok_iff.mp h with ⟨hf, rfl⟩ | ⟨hf, hi, ref, hr, rfl, rfl, rfl⟩
      · exact .empty h0 hf
      · exact .fresh h0 hf hi hr
    · cases hf : findHeadByHash s blk.header.prevHash with
      | some e =>
        rw [hf] at h
        cases h
        exact .head h0 hp hf
      | none =>
        rw [hf] at h
        obtain ⟨m, hm, hfork⟩ := except_bind_ok_iff.mp h
        obtain ⟨base, hbase, hok, rfl, rfl⟩ := forkFromParentMeta_ok_iff.mp hfork
        unfold getParentMeta at hm
        cases hl : s.blockIndex.lookup (hashKeyHex blk.header.prevHash) with
        | none => rw [hl] at hm; cases hm
        | some m' =>
          rw [hl] at hm
          cases hm
          exact .fork h0 hp hf hl hbase hok
  · intro h
    cases h with
    | empty h0 hf =>
      rw [if_pos h0]
      exact handleGenesis_ok_iff.mpr (.inl ⟨hf, rfl⟩)
    | fresh h0 hf hi hr =>
      rw [if_pos h0]
      exact handleGenesis_ok_iff.mpr (.inr ⟨hf, hi, _, hr, rfl, rfl, rfl⟩)
    | head h0 hp hf => rw [if_neg h0, if_neg hp, hf]
    | fork h0 hp hf hl hbase hok =>
      rw [if_neg h0, if_neg hp, hf]
      refine except_bind_ok_iff.mpr ⟨_, ?_, forkFromParentMeta_ok_iff.mpr ⟨_, hbase, hok, rfl, rfl⟩⟩
      unfold getParentMeta
      rw [hl]

/-! ### The ends of a turn -/

/-- The ends of a turn of the loop with the block `blk`. -/
inductive Turn (E : Env) (visit : Finset ℕ → List ℕ) (index : ℤ) (s : ChainService) (blk : Block) :
    Outcome ChainService Block Err → Prop
  | known : blockKnown s blk.hash blk.header.height → Turn E visit index s blk
    ⟨(popWaitingChildren s blk.hash).1, (popWaitingChildren s blk.hash).2, none⟩
  | unknownParent : ¬ blockKnown s blk.hash blk.header.height →
    ensureChainForParent E visit s index blk = .error .unknownParent →
    Turn E visit index s blk ⟨storeOrphan s blk, [], none⟩
  | noFork {e : Err} : ¬ blockKnown s blk.hash blk.header.height →
    ensureChainForParent E visit s index blk = .error e → e ≠ .unknownParent →
    Turn E visit index s blk ⟨s, [], some e⟩
  | notNext {s₁ : ChainService} {c : NamecoinChain} {i : ℕ} {text : String} :
    ¬ blockKnown s blk.hash blk.header.height → Origin E visit s index blk s₁ c i →
    c.applyBlock E s₁.stores blk = .error (.chainFollow text) →
    Turn E visit index s blk ⟨storeOrphan s₁ (settleHash E blk), [], none⟩
  | invalid {s₁ : ChainService} {c : NamecoinChain} {i : ℕ} {e : Err} :
    ¬ blockKnown s blk.hash blk.header.height → Origin E visit s index blk s₁ c i →
    c.applyBlock E s₁.stores blk = .error e → isChainFollow e = false →
    Turn E visit index s blk ⟨s₁, [], some e⟩
  | attached {s₁ : ChainService} {c c' : NamecoinChain} {i : ℕ} {S : Heap} :
    ¬ blockKnown s blk.hash blk.header.height → Origin E visit s index blk s₁ c i →
    c.applyBlock E s₁.stores blk = .ok (S, c') → Turn E visit index s blk
    ⟨(popWaitingChildren (attach s₁ S c' i (settleHash E blk)) (settleHash E blk).hash).1,
      (popWaitingChildren (attach s₁ S c' i (settleHash E blk)) (settleHash E blk).hash).2, none⟩

/-- **Every turn ends in one of these ways.** -/
theorem processSingleBlock_turn (E : Env) (visit : Finset ℕ → List ℕ) (index : ℤ)
    (s : ChainService) (blk : Block) :
    Turn E visit index s blk (processSingleBlock E visit index s blk) := by
  unfold processSingleBlock
  split_ifs with hk
  · exact .known hk
  · cases he : ensureChainForParent E visit s index blk with
    | error e =>
      dsimp only
      unfold handleParentError
      split_ifs with hu
      · exact .unknownParent hk (hu ▸ he)
      · exact .noFork hk he hu
    | ok p =>
      obtain ⟨s₁, c, i⟩ := p
      have ho := ensureChainForParent_ok_iff.mp he
      dsimp only
      cases ha : c.applyBlock E s₁.stores blk with
      | ok q => exact .attached hk ho ha
      | error e =>
        dsimp only
        unfold handleApplyError
        split_ifs with hf
        · cases e with
          | chainFollow text => exact .notNext hk ho ha
          | unknownParent => cases hf
          | panic text => cases hf
          | msg text => cases hf
        · exact .invalid hk ho ha (by simpa using hf)

/-! ### What stays the same -/

@[simp] theorem chains_registerBlock (s : ChainService) (i : ℕ) (blk : Block) :
    (registerBlock s i blk).chains = s.chains := by
  unfold registerBlock
  split_ifs <;> rfl

@[simp] theorem stores_registerBlock (s : ChainService) (i : ℕ) (blk : Block) :
    (registerBlock s i blk).stores = s.stores := by
  unfold registerBlock
  split_ifs <;> rfl

@[simp] theorem stores_indexHeight (i : ℕ) (c : NamecoinChain) (s : ChainService) (h : ℕ) :
    (indexHeight E i c s h).stores = s.stores := by
  unfold indexHeight
  split
  · rfl
  · exact stores_registerBlock _ _ _

theorem indexChain_induct {P : ChainService → Prop}
    (h : ∀ s' height blk, height ≤ c.headHeight → blockAtHeight E s.stores c height = .ok blk → P s' →
      P (registerBlock s' i blk)) (hs : P s) : P (indexChain E s i c) := by
  have hall : P (indexChain E s i c) ∧ (indexChain E s i c).stores = s.stores := by
    unfold indexChain
    refine List.foldlRecOn (motive := fun s' => P s' ∧ s'.stores = s.stores) _ _ ⟨hs, rfl⟩
      fun s' hP k hk => ?_
    have hle : UInt64.ofNat k ≤ c.headHeight := by
      have hlt := c.headHeight.toNat_lt
      rw [List.mem_range] at hk
      rw [UInt64.le_iff_toNat_le, UInt64.toNat_ofNat_of_lt' (show k < 2 ^ 64 by omega)]
      omega
    unfold indexHeight
    cases hb : blockAtHeight E s'.stores c (UInt64.ofNat k) with
    | error e => exact hP
    | ok blk => exact ⟨h s' _ blk hle (hP.2 ▸ hb) hP.1, (stores_registerBlock _ _ _).trans hP.2⟩
  exact hall.1

@[simp] theorem chains_indexChain (s : ChainService) (i : ℕ) (c : NamecoinChain) :
    (indexChain E s i c).chains = s.chains :=
  indexChain_induct (P := fun s' => s'.chains = s.chains)
    (fun s' _ blk _ _ h => (chains_registerBlock s' _ blk).trans h) rfl

@[simp] theorem stores_indexChain (s : ChainService) (i : ℕ) (c : NamecoinChain) :
    (indexChain E s i c).stores = s.stores :=
  indexChain_induct (P := fun s' => s'.stores = s.stores)
    (fun s' _ blk _ _ h => (stores_registerBlock s' _ blk).trans h) rfl

theorem getElem?_longest (s : ChainService) : s.chains[s.longestChainIndex]? = some (getLongestChain s) :=
  List.getElem?_eq_getElem s.longest_lt

theorem getLongestChain_eq {s : ChainService} (h : s.chains[s.longestChainIndex]? = some c) :
    getLongestChain s = c := Option.some.inj ((getElem?_longest s).symm.trans h)

theorem longestChainIndex_registerBlock (s : ChainService) (i : ℕ) (blk : Block) :
    (registerBlock s i blk).longestChainIndex = s.longestChainIndex := by
  unfold registerBlock
  split_ifs <;> rfl

theorem longestChainIndex_indexChain (s : ChainService) (i : ℕ) (c : NamecoinChain) :
    (indexChain E s i c).longestChainIndex = s.longestChainIndex :=
  indexChain_induct (P := fun s' => s'.longestChainIndex = s.longestChainIndex)
    (fun s' _ blk _ _ h => (longestChainIndex_registerBlock s' _ blk).trans h) rfl

theorem getLongestChain_registerBlock (s : ChainService) (i : ℕ) (blk : Block) :
    getLongestChain (registerBlock s i blk) = getLongestChain s := getLongestChain_eq (by
  rw [chains_registerBlock, longestChainIndex_registerBlock, getElem?_longest])

theorem getLongestChain_indexChain (s : ChainService) (i : ℕ) (c : NamecoinChain) :
    getLongestChain (indexChain E s i c) = getLongestChain s :=
  indexChain_induct (P := fun s' => getLongestChain s' = getLongestChain s)
    (fun s' _ blk _ _ h => (getLongestChain_registerBlock s' _ blk).trans h) rfl

theorem getLongestChain_addChain (s : ChainService) (S : Heap) (c : NamecoinChain) :
    getLongestChain (addChain s S c) = getLongestChain s := getLongestChain_eq (by
  show (s.chains ++ [c])[s.longestChainIndex]? = _
  rw [List.getElem?_append_left s.longest_lt, getElem?_longest])

theorem getLongestChain_setChain (s : ChainService) (S : Heap) (i : ℕ) (c : NamecoinChain) :
    getLongestChain (setChain s S i c) = if i = s.longestChainIndex then c else getLongestChain s :=
  getLongestChain_eq (by
    show (s.chains.set i c)[s.longestChainIndex]? = _
    rw [List.getElem?_set, getElem?_longest]
    have hlt := s.longest_lt
    split_ifs with h h'
    · rfl
    · exact absurd (h ▸ hlt) h'
    · rfl)

theorem Origin.getElem? (h : Origin E visit s index blk s₁ c i) :
    s₁.chains[i]? = some c := by
  cases h with
  | empty _ hf => exact (firstChain_some hf).1
  | fresh => exact List.getElem?_concat_length
  | head _ _ hf => exact (firstChain_some hf).1
  | fork =>
    unfold withFork
    rw [chains_indexChain]
    exact List.getElem?_concat_length

theorem Origin.chains (h : Origin E visit s index blk s₁ c i) :
    s₁.chains = s.chains ∨ s₁.chains = s.chains ++ [c] := by
  cases h with
  | empty => exact .inl rfl
  | fresh => exact .inr rfl
  | head => exact .inl rfl
  | fork => exact .inr (chains_indexChain _ _ _)

theorem Origin.longestChainIndex
    (h : Origin E visit s index blk s₁ c i) : s₁.longestChainIndex = s.longestChainIndex := by
  cases h with
  | empty => rfl
  | fresh => rfl
  | head => rfl
  | fork => exact longestChainIndex_indexChain _ _ _

theorem Origin.getLongestChain
    (h : Origin E visit s index blk s₁ c i) : Defs.getLongestChain s₁ = Defs.getLongestChain s := by
  cases h with
  | empty => rfl
  | fresh => exact getLongestChain_addChain _ _ _
  | head => rfl
  | fork => exact (getLongestChain_indexChain _ _ _).trans (getLongestChain_addChain _ _ _)

theorem commitStore_snd (S : Heap) (c : NamecoinChain) :
    ∃ store, (commitStore S c).2 = { c with store := store } := by
  unfold commitStore
  cases baseOf S c.store with
  | none => exact ⟨c.store, rfl⟩
  | some base => exact ⟨base, rfl⟩

/-- The canonical chain that the candidate number `i` is compared with. -/
def rival (s : ChainService) (i : ℕ) (c : NamecoinChain) : NamecoinChain :=
  if i = s.longestChainIndex then c else getLongestChain s

/-- The candidate has become the longest chain. -/
structure Promoted (s s' : ChainService) (S : Heap) (c : NamecoinChain) (i : ℕ) (blk : Block) : Prop where
  stores : s'.stores = (commitStore S c).1
  chains : s'.chains = s.chains.set i (commitStore S c).2
  index : s'.longestChainIndex = i
  blockIndex : s'.blockIndex = (registerBlock s i blk).blockIndex

/-- **A block is attached**: the candidate does not become the longest chain, or
its store is committed. -/
theorem attach_cases (S : Heap) (c : NamecoinChain) (blk : Block) (hi : i < s.chains.length) :
    (keepsLongest c (rival s i c) ∧ attach s S c i blk = registerBlock (setChain s S i c) i blk) ∨
      (¬ keepsLongest c (rival s i c) ∧ Promoted s (attach s S c i blk) S c i blk) := by
  have hrival : getLongestChain (registerBlock (setChain s S i c) i blk) = rival s i c :=
    (getLongestChain_registerBlock _ _ _).trans (getLongestChain_setChain s S i c)
  have hchains : (registerBlock (setChain s S i c) i blk).chains = s.chains.set i c :=
    chains_registerBlock _ i blk
  have hstores : (registerBlock (setChain s S i c) i blk).stores = S := stores_registerBlock _ i blk
  have hindex : (registerBlock (setChain s S i c) i blk).blockIndex =
      (registerBlock s i blk).blockIndex := by
    unfold registerBlock
    split_ifs <;> rfl
  have hlt : i < (registerBlock (setChain s S i c) i blk).chains.length := by
    rwa [hchains, List.length_set]
  unfold attach maybePromoteLongest
  rw [hrival]
  by_cases hk : keepsLongest c (rival s i c)
  · exact .inl ⟨hk, if_pos hk⟩
  · right
    rw [if_neg hk]
    dsimp only
    rw [dif_pos hlt]
    refine ⟨hk, ?_, ?_, rfl, hindex⟩
    · show (commitStore _ c).1 = _
      rw [hstores]
    · show List.set _ i (commitStore _ c).2 = _
      rw [hstores, hchains, List.set_set]

theorem Promoted.getLongestChain {s s' : ChainService} {S : Heap}
    (h : Promoted s s' S c i blk) (hi : i < s.chains.length) :
    Defs.getLongestChain s' = (commitStore S c).2 := getLongestChain_eq (by
  rw [h.chains, h.index, List.getElem?_set_self hi])

theorem chains_attach (S : Heap) (c : NamecoinChain) (blk : Block) (hi : i < s.chains.length) :
    ∃ store, (attach s S c i blk).chains = s.chains.set i { c with store := store } := by
  rcases attach_cases S c blk hi with ⟨-, heq⟩ | ⟨-, h⟩
  · rw [heq, chains_registerBlock]
    exact ⟨c.store, rfl⟩
  · obtain ⟨store, hstore⟩ := commitStore_snd S c
    exact ⟨store, by rw [h.chains, hstore]⟩

theorem Origin.lt_length (h : Origin E visit s index blk s₁ c i) :
    i < s₁.chains.length := (List.getElem?_eq_some_iff.mp h.getElem?).1

/-! ### The pool of orphans -/

theorem popWaitingChildren_eq (s : ChainService) (hash : Slice UInt8) :
    ∃ pool, (popWaitingChildren s hash).1 = { s with orphansByPrev := pool } := by
  unfold popWaitingChildren
  dsimp only
  split_ifs
  · exact ⟨s.orphansByPrev, rfl⟩
  · exact ⟨s.orphansByPrev, rfl⟩
  · exact ⟨_, rfl⟩

theorem storeOrphan_eq (s : ChainService) (blk : Block) :
    ∃ pool, storeOrphan s blk = { s with orphansByPrev := pool } := by
  unfold storeOrphan
  dsimp only
  split_ifs
  · exact ⟨s.orphansByPrev, rfl⟩
  · exact ⟨_, rfl⟩

@[simp] theorem orphansByPrev_registerBlock (s : ChainService) (i : ℕ) (blk : Block) :
    (registerBlock s i blk).orphansByPrev = s.orphansByPrev := by
  unfold registerBlock
  split_ifs <;> rfl

@[simp] theorem orphansByPrev_attach (s : ChainService) (S : Heap) (c : NamecoinChain)
    (i : ℕ) (blk : Block) :
    (attach s S c i blk).orphansByPrev = s.orphansByPrev := by
  unfold attach maybePromoteLongest
  dsimp only
  split_ifs
  · exact orphansByPrev_registerBlock _ i blk
  · exact orphansByPrev_registerBlock _ i blk
  · exact orphansByPrev_registerBlock _ i blk

@[simp] theorem orphansByPrev_indexChain (s : ChainService) (i : ℕ) (c : NamecoinChain) :
    (indexChain E s i c).orphansByPrev = s.orphansByPrev :=
  indexChain_induct (P := fun s' => s'.orphansByPrev = s.orphansByPrev)
    (fun s' _ blk _ _ h => (orphansByPrev_registerBlock s' _ blk).trans h) rfl

theorem Origin.orphansByPrev (h : Origin E visit s index blk s₁ c i) :
    s₁.orphansByPrev = s.orphansByPrev := by
  cases h with
  | empty => rfl
  | fresh => rfl
  | head => rfl
  | fork => exact orphansByPrev_indexChain _ _ _

/-- The number of blocks that wait for their parent. -/
def waitingCount (s : ChainService) : ℕ := total List.length s.orphansByPrev

theorem waitingCount_congr {s s' : ChainService} (h : s'.orphansByPrev = s.orphansByPrev) :
    waitingCount s' = waitingCount s := congrArg (total List.length) h

theorem weightAt_waiting (s : ChainService) (k : String) :
    weightAt List.length s.orphansByPrev k = (waiting s k).length := by
  unfold weightAt waiting
  cases s.orphansByPrev.lookup k <;> rfl

theorem waitingCount_popWaitingChildren (s : ChainService) (hash : Slice UInt8) :
    waitingCount (popWaitingChildren s hash).1 + (popWaitingChildren s hash).2.length =
      waitingCount s := by
  unfold popWaitingChildren
  dsimp only
  split_ifs
  · rfl
  · rfl
  · have h := total_erase List.length s.orphansByPrev (hashKeyHex hash)
    rw [weightAt_waiting] at h
    exact h

theorem waitingCount_storeOrphan (s : ChainService) (blk : Block) :
    waitingCount (storeOrphan s blk) ≤ waitingCount s ∨ waitingCount (storeOrphan s blk) =
      waitingCount s + 1 := by
  unfold storeOrphan
  dsimp only
  split_ifs
  · exact .inl le_rfl
  · right
    have h := total_insert List.length s.orphansByPrev (hashKeyHex (cloneBlock blk).header.prevHash)
      (waiting s (hashKeyHex (cloneBlock blk).header.prevHash) ++ [cloneBlock blk])
    rw [weightAt_waiting, List.length_append, List.length_singleton] at h
    unfold waitingCount
    dsimp only
    omega

/-- **No turn adds more to the pool** than the block it was given, and then it leads to no other block. -/
theorem Turn.bounded {o : Outcome ChainService Block Err} (h : Turn E visit index s blk o) :
    waitingCount o.state + o.jobs.length ≤ waitingCount s ∨
      (waitingCount o.state = waitingCount s + 1 ∧ o.jobs = []) := by
  cases h with
  | known => exact .inl (waitingCount_popWaitingChildren s blk.hash).le
  | unknownParent => exact (waitingCount_storeOrphan s blk).imp id fun h => ⟨h, rfl⟩
  | noFork => exact .inl le_rfl
  | @notNext s₁ _ _ _ _ ho =>
    have hcount := waitingCount_storeOrphan s₁ (settleHash E blk)
    rw [waitingCount_congr ho.orphansByPrev] at hcount
    exact hcount.imp id fun h => ⟨h, rfl⟩
  | invalid _ ho => exact .inl (waitingCount_congr ho.orphansByPrev).le
  | attached _ ho =>
    left
    refine (waitingCount_popWaitingChildren _ _).trans_le ?_
    rw [waitingCount_congr (orphansByPrev_attach _ _ _ _ _), waitingCount_congr ho.orphansByPrev]

/-! ### The loop -/

variable (E) in
/-- The turns of `processPendingBlocksUnlocked`. -/
def pendingWorker (order : MapOrder) (index : ℤ) : Worker ChainService Block Err where
  turn n s blk := processSingleBlock E (order.visit n) index s blk
  pool := waitingCount
  bounded n s blk := (processSingleBlock_turn E (order.visit n) index s blk).bounded

variable (E) in
/-- `processPendingBlocksUnlocked`. -/
def processPendingBlocks (order : MapOrder) (index : ℤ) (s : ChainService) (initial : Block) :
    ChainService × Option Err := (pendingWorker E order index).drain 0 s [initial]

/-- **The loop over the pending blocks ends**, whatever waits in the pool and
whatever block is delivered. -/
theorem draining_ends (E : Env) (order : MapOrder) (index : ℤ) (s : ChainService) (blk : Block) :
    ∃ k ≤ (waitingCount s + 1) ^ 2 + 1, (pendingWorker E order index).after k ⟨0, s, [blk], none⟩ =
      some ⟨k, (processPendingBlocks E order index s blk).1, [],
      (processPendingBlocks E order index s blk).2⟩ := by
  obtain ⟨k, hk, hafter⟩ := (pendingWorker E order index).ends 0 s [blk] none
  refine ⟨k, hk, hafter.trans ?_⟩
  rw [Nat.zero_add, Option.none_or]
  rfl

/-- `canonicalChangedUnlocked`. -/
def canonicalChanged (beforeHash : Slice UInt8) (beforeHeight : UInt64) (s : ChainService) : Prop :=
  beforeHeight ≠ (getLongestChain s).headHeight ∨ ¬ bytesEqual beforeHash (getLongestChain s).headHash

instance (hash : Slice UInt8) (height : UInt64) (s : ChainService) :
    Decidable (canonicalChanged hash height s) := by
  unfold canonicalChanged; infer_instance

variable (E) in
/-- `AppendBlockToChain`: the service, whether the canonical head has changed, and the error. -/
def appendBlockToChain (order : MapOrder) (index : ℤ) (s : ChainService) (blk : Block) :
    ChainService × Bool × Option Err :=
  let beforeHash := cloneBytes (getLongestChain s).headHash
  let beforeHeight := (getLongestChain s).headHeight
  let (s', firstErr) := processPendingBlocks E order index s blk
  (s', decide (canonicalChanged beforeHash beforeHeight s'), firstErr)

variable (E) in
def appendBlockToLongestChain (order : MapOrder) (s : ChainService) (blk : Block) :
    ChainService × Bool × Option Err := appendBlockToChain E order s.longestChainIndex s blk

/-- The services reached by calls of `AppendBlockToChain`, with the blocks of the calls. -/
inductive Calls (E : Env) (s₀ : ChainService) : List Block → ChainService → Prop
  | nil : Calls E s₀ [] s₀
  | snoc {blks : List Block} {s : ChainService} (order : MapOrder) (index : ℤ) (blk : Block) :
    Calls E s₀ blks s → Calls E s₀ (blks ++ [blk]) (appendBlockToChain E order index s blk).1

/-- The services reached by calls of `AppendBlockToChain` whose turns all meet the condition `C`. -/
inductive CallsAlong (E : Env) (C : ChainService → Block → Prop) (s₀ : ChainService) :
    List Block → ChainService → Prop
  | nil : CallsAlong E C s₀ [] s₀
  | snoc {blks : List Block} {s : ChainService} (order : MapOrder) (index : ℤ) (blk : Block) :
    CallsAlong E C s₀ blks s → Along (pendingWorker E order index) (fun _ => C) 0 s [blk] →
    CallsAlong E C s₀ (blks ++ [blk]) (appendBlockToChain E order index s blk).1

/-- The services reached by calls of `AppendBlockToLongestChain` whose turns all
meet the condition `C`. -/
inductive Deliveries (E : Env) (C : ChainService → Block → Prop) (s₀ : ChainService) :
    List Block → ChainService → Prop
  | nil : Deliveries E C s₀ [] s₀
  | snoc {blks : List Block} {s : ChainService} (order : MapOrder) (blk : Block) :
    Deliveries E C s₀ blks s → Along (pendingWorker E order s.longestChainIndex) (fun _ => C) 0 s [blk] →
    Deliveries E C s₀ (blks ++ [blk]) (appendBlockToLongestChain E order s blk).1

theorem Deliveries.next (h : Deliveries E (fun _ _ => True) s₀ blks s)
    (order : MapOrder) (blk : Block) : Deliveries E (fun _ _ => True) s₀ (blks ++ [blk])
    (appendBlockToLongestChain E order s blk).1 := .snoc order blk h (Along.trivial 0 s [blk])

theorem Deliveries.callsAlong {C : ChainService → Block → Prop}
    (h : Deliveries E C s₀ blks s) : CallsAlong E C s₀ blks s := by
  induction h with
  | nil => exact .nil
  | snoc order blk _ halong ih => exact .snoc order _ blk ih halong

theorem Deliveries.calls {C : ChainService → Block → Prop}
    (h : Deliveries E C s₀ blks s) : Calls E s₀ blks s := by
  induction h with
  | nil => exact .nil
  | snoc order blk _ _ ih => exact .snoc order _ blk ih

/-! ### Invariants -/

theorem Turn.invariant {I : ChainService → Prop} {o : Outcome ChainService Block Err}
    (h : Turn E visit index s blk o) (hpool : ∀ s pool, I s → I { s with orphansByPrev := pool })
    (horigin : ∀ s₁ c i, Origin E visit s index blk s₁ c i → I s₁)
    (hattach : ∀ s₁ c i S c', Origin E visit s index blk s₁ c i →
    c.applyBlock E s₁.stores blk = .ok (S, c') → I (attach s₁ S c' i (settleHash E blk))) (hs :
    I s) : I o.state := by
  have hpop : ∀ s hash, I s → I (popWaitingChildren s hash).1 := fun s hash h => by
    obtain ⟨pool, heq⟩ := popWaitingChildren_eq s hash
    rw [heq]
    exact hpool s pool h
  have hstore : ∀ s blk, I s → I (storeOrphan s blk) := fun s blk h => by
    obtain ⟨pool, heq⟩ := storeOrphan_eq s blk
    rw [heq]
    exact hpool s pool h
  cases h with
  | known => exact hpop s _ hs
  | unknownParent => exact hstore s _ hs
  | noFork => exact hs
  | notNext _ ho => exact hstore _ _ (horigin _ _ _ ho)
  | invalid _ ho => exact horigin _ _ _ ho
  | attached _ ho ha => exact hpop _ _ (hattach _ _ _ _ _ ho ha)

/-- **What every turn keeps, every call keeps.** -/
theorem appendBlockToChain_invariant {I : ChainService → Prop} {order : MapOrder}
    (hturn : ∀ visit s blk o, Turn E visit index s blk o → I s → I o.state) (hs : I s) :
    I (appendBlockToChain E order index s blk).1 :=
  (Along.trivial (w := pendingWorker E order index) 0 s [blk]).invariant (I := fun s _ => I s)
    (fun n s a _ _ h => hturn _ s a _ (processSingleBlock_turn E (order.visit n) index s a) h) hs

theorem Calls.invariant {I : ChainService → Prop}
    (h : Calls E s₀ blks s) (hturn : ∀ visit index s blk o, Turn E visit index s blk o → I s → I o.state)
    (hs : I s₀) : I s := by
  induction h with
  | nil => exact hs
  | snoc order index blk _ ih =>
    exact appendBlockToChain_invariant (fun visit s blk o h => hturn visit index s blk o h) ih

/-- **What every turn keeps under a condition, every call keeps** whose turns meet it. -/
theorem CallsAlong.invariant {C : ChainService → Block → Prop} {I : ChainService → Prop}
    (h : CallsAlong E C s₀ blks s)
    (hturn : ∀ (order : MapOrder) n index s blk o, Turn E (order.visit n) index s blk o → C s blk →
    I s → I o.state) (hs : I s₀) : I s := by
  induction h with
  | nil => exact hs
  | snoc order index blk _ halong ih =>
    refine halong.invariant (I := fun s _ => I s) (fun n s a _ hC h => ?_) ih
    exact hturn order n index s a _ (processSingleBlock_turn E (order.visit n) index s a) hC h

/-- The same for deliveries; the invariant may depend on the index that a call has started with. -/
theorem Deliveries.invariant {C : ChainService → Block → Prop} {I : ℤ → ChainService → Prop}
    (h : Deliveries E C s₀ blks s) (hcall : ∀ index s, I index s → I s.longestChainIndex s)
    (hturn : ∀ (order : MapOrder) n index s blk o, Turn E (order.visit n) index s blk o →
    C s blk → I index s →
      I index o.state) (hs : I s₀.longestChainIndex s₀) : I s.longestChainIndex s := by
  induction h with
  | nil => exact hs
  | @snoc blks s order blk _ halong ih =>
    refine hcall s.longestChainIndex _ (halong.invariant
      (I := fun s' _ => I s.longestChainIndex s') ?_ ih)
    exact fun n s' a _ hC h => hturn order n _ s' a _
      (processSingleBlock_turn E (order.visit n) _ s' a) hC h

/-! ### Entries of the index -/

theorem lookup_registerBlock (s : ChainService) (i : ℕ) (blk : Block) (k : String) :
    (registerBlock s i blk).blockIndex.lookup k = if blk.hash ≠ none ∧ k = hashKeyHex blk.hash then
      some (metaWith (s.blockIndex.lookup k) blk.header.height i) else s.blockIndex.lookup k := by
  unfold registerBlock
  by_cases hn : blk.hash = none
  · rw [if_pos hn, if_neg fun h => h.1 hn]
  · rw [if_neg hn]
    dsimp only
    rw [lookup_insert_ite]
    split_ifs with h1 h2 h2
    · rw [h1]
    · exact absurd ⟨hn, h1⟩ h2
    · exact absurd h2.2 h1
    · rfl

theorem blockIndex_attach (s : ChainService) (S : Heap) (c : NamecoinChain) (blk : Block)
    (hi : i < s.chains.length) :
    (attach s S c i blk).blockIndex = (registerBlock s i blk).blockIndex := by
  rcases attach_cases S c blk hi with ⟨-, heq⟩ | ⟨-, hp⟩
  · rw [heq]
    unfold registerBlock
    split_ifs <;> rfl
  · exact hp.blockIndex

/-- The index has an entry for the key, with the given height, that names the chain number `i`. -/
def Entered (s : ChainService) (key : String) (height : UInt64) (i : ℕ) : Prop :=
  ∃ m, s.blockIndex.lookup key = some m ∧ m.height = height ∧ i ∈ m.chains

theorem Entered.register {key : String} {height : UInt64} (h : Entered s key height i)
    (j : ℕ) (b : Block) :
    Entered (registerBlock s j b) key height i := by
  obtain ⟨m, hm, hheight, hi⟩ := h
  unfold Entered
  rw [lookup_registerBlock]
  split_ifs
  · rw [hm]
    exact ⟨_, rfl, hheight, Finset.mem_insert_of_mem hi⟩
  · exact ⟨m, hm, hheight, hi⟩

/-- **An entry of the index stays.** -/
theorem Entered.turn {key : String} {height : UInt64} {o : Outcome ChainService Block Err}
    (ht : Turn E visit index s blk o) (h : Entered s key height i) : Entered o.state key height i := by
  have horigin : ∀ s₁ c j, Origin E visit s index blk s₁ c j → Entered s₁ key height i :=
      fun s₁ c j ho => by
    cases ho with
    | empty => exact h
    | fresh => exact h
    | head => exact h
    | fork =>
      exact indexChain_induct (P := fun s' => Entered s' key height i)
        (fun _ _ b _ _ hs => hs.register _ b) h
  refine ht.invariant (fun _ _ h => h) horigin (fun s₁ c j S c' ho _ => ?_) h
  unfold Entered
  rw [blockIndex_attach _ _ _ _ ho.lt_length]
  exact (horigin s₁ c j ho).register j _

end Namecoin.Service.Turns
