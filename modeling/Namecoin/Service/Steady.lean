import Namecoin.Service.Refusals

/-! # Runs without reorganisations

A block that is better than the canonical head and is not on top of it makes another chain the
canonical one. As long as no such block is processed (`Uncontested`), the canonical chain stays the
same chain and only grows.

* `keepsLongest_iff`: when a chain that has accepted a block becomes the canonical one;
* `steady_turn`: the canonical chain after an uncontested turn;
* `two_firsts`: a reorganisation, by a second first block whose hash is smaller. -/

namespace Namecoin.Service.Steady

open Lib.Maps Lib.ByteStrings Lib.WorkList Types.Defs Types.BlockCodec Types.SampleEnv State.Defs
open State.Strict State.Effects Chain.Stores Chain.Overlays Chain.Defs Chain.Apply Chain.Build
open Service.Defs Service.Turns Service.Scenes Service.Branches Service.Views Service.Refusals

variable {E : Env} {visit : Finset ℕ → List ℕ} {s : ChainService} {index : ℤ} {blk : Block}

/-- The block is better than the head of the chain. -/
def Overtakes (E : Env) (l : NamecoinChain) (blk : Block) : Prop :=
  l.headHeight < blk.header.height ∨ (blk.header.height = l.headHeight ∧
    (l.headHash = none ∨ bytesLess (computeHash E blk) (elems l.headHash)))

/-- **A chain whose head is the block** becomes the canonical one exactly if the block is better. -/
theorem keepsLongest_iff {c l : NamecoinChain} (hhash : c.headHash = some (computeHash E blk))
    (hheight : c.headHeight = blk.header.height) : keepsLongest c l ↔ ¬ Overtakes E l blk := by
  unfold keepsLongest Overtakes
  rw [hhash, hheight]
  constructor
  · rintro (hlt | ⟨heq, hsome, -, hless⟩)
    · rintro (hgt | ⟨heq, -⟩)
      · exact UInt64.lt_asymm hlt hgt
      · exact UInt64.ne_of_lt hlt heq
    · rintro (hgt | ⟨-, hnone | hbetter⟩)
      · exact UInt64.ne_of_lt hgt heq.symm
      · exact hsome hnone
      · exact hless hbetter
  · intro h
    rw [not_or, not_and_or, not_or] at h
    rcases UInt64.lt_or_eq_of_le (UInt64.not_lt.mp h.1) with hlt | heq
    · exact .inl hlt
    · obtain ⟨hsome, hless⟩ := h.2.resolve_left fun hne => hne heq
      exact .inr ⟨heq, hsome, Option.some_ne_none _, hless⟩

/-- The condition on a turn: a block that is not known yet and is better than the canonical head is on
top of the canonical chain. -/
def Uncontested (E : Env) (s : ChainService) (blk : Block) : Prop :=
  ¬ blockKnown s blk.hash blk.header.height → Overtakes E (getLongestChain s) blk →
    ∃ c, chainFor s blk = some (c, s.longestChainIndex)

theorem attach_longest (S : Heap) {c : NamecoinChain} (b : Block) (hsome : c.headHash ≠ none) :
    attach s S c s.longestChainIndex b = registerBlock (setChain s S s.longestChainIndex c)
      s.longestChainIndex b := by
  rcases attach_cases S c b s.longest_lt with ⟨-, heq⟩ | ⟨hnot, -⟩
  · exact heq
  · rw [rival, if_pos rfl] at hnot
    exact absurd (keepsLongest_self hsome) hnot

theorem attach_longest_chain (S : Heap) {c : NamecoinChain} (b : Block) (hsome : c.headHash ≠ none) :
    getLongestChain (attach s S c s.longestChainIndex b) = c ∧
      (attach s S c s.longestChainIndex b).longestChainIndex = s.longestChainIndex := by
  rw [attach_longest S b hsome, getLongestChain_registerBlock, getLongestChain_setChain, if_pos rfl]
  exact ⟨rfl, longestChainIndex_registerBlock _ _ _⟩

theorem attach_other (S : Heap) {c : NamecoinChain} (b : Block) {i : ℕ} (hi : i < s.chains.length)
    (hne : i ≠ s.longestChainIndex) (hkeep : keepsLongest c (getLongestChain s)) :
    attach s S c i b = registerBlock (setChain s S i c) i b ∧ getLongestChain (attach s S c i b) =
      getLongestChain s ∧ (attach s S c i b).longestChainIndex = s.longestChainIndex := by
  have heq : attach s S c i b = registerBlock (setChain s S i c) i b := by
    rcases attach_cases S c b hi with ⟨-, heq⟩ | ⟨hnot, -⟩
    · exact heq
    · rw [rival, if_neg hne] at hnot
      exact absurd hkeep hnot
  rw [heq, getLongestChain_registerBlock, getLongestChain_setChain, if_neg hne]
  exact ⟨rfl, rfl, longestChainIndex_registerBlock _ _ _⟩

theorem attach_better (S : Heap) {c : NamecoinChain} (b : Block) {i : ℕ} (hi : i < s.chains.length)
    (hne : i ≠ s.longestChainIndex) (hnot : ¬ keepsLongest c (getLongestChain s)) :
    Promoted s (attach s S c i b) S c i b := by
  rcases attach_cases S c b hi with ⟨hkeep, -⟩ | ⟨-, hp⟩
  · rw [rival, if_neg hne] at hkeep
    exact absurd hkeep hnot
  · exact hp

/-- **An uncontested turn** leaves the canonical chain as it is, or it accepts the block. -/
theorem steady_turn {o : Outcome ChainService Block Err} (ht : Turn E visit index s blk o)
    (hs : AllReplayed E s) (hu : Uncontested E s blk) : o.state.longestChainIndex = s.longestChainIndex ∧
      (getLongestChain o.state = getLongestChain s ∨
        ∃ S S', (getLongestChain s).applyBlock E S blk = .ok (S', getLongestChain o.state)) := by
  have hpool : ∀ (s' : ChainService) (pool : Map String (List Block)),
      getLongestChain { s' with orphansByPrev := pool } = getLongestChain s' := fun _ _ => rfl
  cases ht with
  | known =>
    obtain ⟨pool, heq⟩ := popWaitingChildren_eq s blk.hash
    rw [heq]
    exact ⟨rfl, .inl (hpool s pool)⟩
  | unknownParent =>
    obtain ⟨pool, heq⟩ := storeOrphan_eq s blk
    rw [heq]
    exact ⟨rfl, .inl (hpool s pool)⟩
  | noFork => exact ⟨rfl, .inl rfl⟩
  | @notNext s₁ _ _ _ _ ho =>
    obtain ⟨pool, heq⟩ := storeOrphan_eq s₁ (settleHash E blk)
    rw [heq]
    exact ⟨ho.longestChainIndex, .inl ((hpool s₁ pool).trans ho.getLongestChain)⟩
  | invalid _ ho => exact ⟨ho.longestChainIndex, .inl ho.getLongestChain⟩
  | @attached s₁ c c' i S hk ho ha =>
    obtain ⟨pool, heq⟩ := popWaitingChildren_eq (attach s₁ S c' i (settleHash E blk))
      (settleHash E blk).hash
    rw [heq]
    show (attach s₁ S c' i (settleHash E blk)).longestChainIndex = _ ∧
      (getLongestChain (attach s₁ S c' i (settleHash E blk)) = _ ∨
        ∃ S₀ S', (getLongestChain s).applyBlock E S₀ blk =
          .ok (S', getLongestChain (attach s₁ S c' i (settleHash E blk))))
    obtain ⟨blks, hb⟩ := replayed_origin ho hs c (List.mem_of_getElem? ho.getElem?)
    obtain ⟨hhash, hheight, -, -⟩ := grown ho (sane_of_replayed hb) ha
    by_cases hi : i = s₁.longestChainIndex
    · subst hi
      obtain ⟨hl, hidx⟩ := attach_longest_chain (s := s₁) S (settleHash E blk) (c := c')
        (by rw [hhash]; exact Option.some_ne_none _)
      have hc : getLongestChain s = c := by
        rw [← ho.getLongestChain]
        exact getLongestChain_eq ho.getElem?
      rw [hl, hidx]
      exact ⟨ho.longestChainIndex, .inr ⟨s₁.stores, S, hc ▸ ha⟩⟩
    · have hkeep : keepsLongest c' (getLongestChain s₁) := by
        rw [ho.getLongestChain, keepsLongest_iff hhash hheight]
        intro hover
        obtain ⟨d, hd⟩ := hu hk hover
        rcases origin_made ho with ⟨-, hfor⟩ | ⟨hnone, -, -⟩
        · rw [hfor] at hd
          cases hd
          exact hi ho.longestChainIndex.symm
        · rw [hnone] at hd
          cases hd
      obtain ⟨-, hl, hidx⟩ := attach_other S (settleHash E blk) ho.lt_length hi hkeep
      rw [hl, hidx]
      exact ⟨ho.longestChainIndex, .inl ho.getLongestChain⟩

/-! ### A second first block -/

/-- A service with two chains, of which the second one is the canonical one. -/
structure Pair (c c' : NamecoinChain) (s : ChainService) : Prop where
  chains : s.chains = [c, c']
  index : s.longestChainIndex = 1
  orphans : s.orphansByPrev = ∅

section second

variable {S S' : Heap} {c c' : NamecoinChain}

/-- **A second first block** gets a chain of its own. -/
theorem single_second (h : Single S c s) (hsome : c.headHash ≠ none) (h0 : blk.header.height = 0)
    (hb : blk.hash = none)
    (ha : (newEmptyChainFrom S c).2.applyBlock E (newEmptyChainFrom S c).1 blk = .ok (S', c'))
    (order : MapOrder) :
    Origin E (order.visit 0) s s.longestChainIndex blk (withEmpty s c)
      (newEmptyChainFrom s.stores c).2 1 ∧
      processSingleBlock E (order.visit 0) s.longestChainIndex s blk =
        ⟨attach (withEmpty s c) S' c' 1 (settleHash E blk), [], none⟩ := by
  have hfirst : firstChain s isEmpty = none := firstChain_none.mpr fun d hd he => by
    rw [h.chains, List.mem_singleton] at hd
    exact hsome (hd ▸ he.1)
  have ho : Origin E (order.visit 0) s s.longestChainIndex blk (withEmpty s c)
    (newEmptyChainFrom s.stores c).2 s.chains.length :=
    .fresh h0 hfirst (by omega) (by rw [h.index, h.chains]; rfl)
  have hlen : s.chains.length = 1 := by rw [h.chains]; rfl
  rw [hlen] at ho
  exact ⟨ho, processSingleBlock_attached (not_blockKnown_of_none hb) ho
    (by rw [← h.stores] at ha; exact ha) h.orphans⟩

theorem head_second (ha : (newEmptyChainFrom S c).2.applyBlock E (newEmptyChainFrom S c).1
    blk = .ok (S', c')) :
    c'.headHash = some (computeHash E blk) ∧ c'.headHeight = blk.header.height := by
  obtain ⟨st, data, -, -, -, -, rfl⟩ := (applyBlock_ok_iff (c := (newEmptyChainFrom S c).2) rfl).mp ha
  exact ⟨rfl, rfl⟩

theorem withEmpty_single (h : Single S c s) : getLongestChain (withEmpty s c) = c ∧
    (withEmpty s c).longestChainIndex = 0 ∧ (withEmpty s c).chains =
      [c, (newEmptyChainFrom s.stores c).2] := by
  refine ⟨?_, h.index, ?_⟩
  · refine getLongestChain_eq (List.getElem?_append_left ?_ |>.trans ?_)
    · rw [h.chains]
      exact h.index ▸ Nat.one_pos
    · rw [h.chains]
      exact h.index ▸ rfl
  · show s.chains ++ [_] = _
    rw [h.chains]
    rfl

/-- **A second first block** that is better than the head of the only chain. -/
theorem single_rival (h : Single S c s) (hsome : c.headHash ≠ none) (h0 : blk.header.height = 0)
    (hb : blk.hash = none)
    (ha : (newEmptyChainFrom S c).2.applyBlock E (newEmptyChainFrom S c).1 blk = .ok (S', c'))
    (hover : Overtakes E c blk) (order : MapOrder) :
    (appendBlockToLongestChain E order s blk).1.stores = (commitStore S' c').1 ∧
      Pair c (commitStore S' c').2 (appendBlockToLongestChain E order s blk).1 := by
  obtain ⟨ho, hturn⟩ := single_second h hsome h0 hb ha order
  obtain ⟨hhash, hheight⟩ := head_second ha
  obtain ⟨hl, hindex, hchains⟩ := withEmpty_single h
  have hp := attach_better S' (settleHash E blk) ho.lt_length (by rw [hindex]; exact Nat.one_ne_zero)
    (by rw [hl, keepsLongest_iff hhash hheight]; exact not_not.mpr hover)
  unfold appendBlockToLongestChain
  rw [appendBlockToChain_single hturn]
  refine ⟨hp.stores, ?_, hp.index, ?_⟩
  · show (attach (withEmpty s c) S' c' 1 (settleHash E blk)).chains = _
    rw [hp.chains, hchains]
    rfl
  · rw [orphansByPrev_attach, ho.orphansByPrev, h.orphans]

/-- A second first block that is not better is on a chain beside the canonical one. -/
theorem single_beside (h : Single S c s) (hsome : c.headHash ≠ none) (h0 : blk.header.height = 0)
    (hb : blk.hash = none)
    (ha : (newEmptyChainFrom S c).2.applyBlock E (newEmptyChainFrom S c).1 blk = .ok (S', c'))
    (hover : ¬ Overtakes E c blk) (order : MapOrder) :
    (appendBlockToLongestChain E order s blk).1.chains.length = 2 ∧
      getLongestChain (appendBlockToLongestChain E order s blk).1 = c := by
  obtain ⟨ho, hturn⟩ := single_second h hsome h0 hb ha order
  obtain ⟨hhash, hheight⟩ := head_second ha
  obtain ⟨hl, hindex, hchains⟩ := withEmpty_single h
  obtain ⟨heq, hlong, -⟩ := attach_other S' (settleHash E blk) ho.lt_length
    (by rw [hindex]; exact Nat.one_ne_zero) (by rw [hl, keepsLongest_iff hhash hheight]; exact hover)
  unfold appendBlockToLongestChain
  rw [appendBlockToChain_single hturn]
  refine ⟨?_, hlong.trans hl⟩
  show (attach (withEmpty s c) S' c' 1 (settleHash E blk)).chains.length = 2
  rw [heq, chains_registerBlock]
  show ((withEmpty s c).chains.set 1 c').length = 2
  rw [hchains]
  rfl

end second

/-- A first block that chains without blocks accept if their target is fixed. -/
structure First (E : Env) (target : ℤ) (blk : Block) (data : Bytes) (st : NamecoinState) : Prop where
  hash : blk.hash = none
  height : blk.header.height = 0
  marshal : marshal E (settleHash E blk) = .ok data
  accepted : ∀ S store, (emptyChain target store).applyBlock E S blk =
    .ok (persist E S store blk data, chainAfter E (emptyChain target store) blk st)

theorem first_blockAt {target : ℤ} {txs : List Tx} {nonce : UInt64} {st : NamecoinState}
    (hp : ∀ tx ∈ txs, tx.payload ≠ .invalid) (hrun : StrictRun E txs (atHeight 0 newState) st)
    (hwork : (workOf E (blockAt E 0 none txs nonce) : ℤ) ≤ target) :
    ∃ data, First E target (blockAt E 0 none txs nonce) data st := by
  obtain ⟨data, hd, -⟩ := applyBlock_blockOn (c := emptyChain target 0) (S := []) rfl hp hrun hwork
  refine ⟨data, rfl, rfl, hd, fun S store => ?_⟩
  obtain ⟨data', hd', ha⟩ := applyBlock_blockOn (c := emptyChain target store) (S := S) rfl hp hrun hwork
  cases hd.symm.trans hd'
  exact ha

theorem first_quiet (E : Env) (nonce : UInt64) {target : ℤ}
    (hwork : (workOf E (blockAt E 0 none [] nonce) : ℤ) ≤ target) :
    ∃ data, First E target (blockAt E 0 none [] nonce) data (atHeight 0 newState) :=
  first_blockAt (by simp) (.nil _) hwork

theorem first_delivery {C : ChainService → Block → Prop} {target : ℤ} {g : Block} {data : Bytes}
    {st : NamecoinState} (hg : First E target g data st)
    (hC : C (newChainService E [.mem ∅] (emptyChain target 0)) g) : ∃ s,
    Deliveries E C (newChainService E [.mem ∅] (emptyChain target 0)) [g] s ∧
      Single (persist E [.mem ∅] 0 g data) (chainAfter E (emptyChain target 0) g st) s ∧
      Entered s (hashKeyHex (some (computeHash E g))) 0 0 := by
  have hs : Single [.mem ∅] (emptyChain target 0) (newChainService E [.mem ∅] (emptyChain target 0)) :=
    (single_new (staticConfig target)).1
  have ha := hg.accepted [.mem ∅] 0
  have hempty : g.header.height = 0 → isEmpty (emptyChain target 0) := fun _ => ⟨rfl, rfl⟩
  have hturn := processSingleBlock_attached (not_blockKnown_of_none hg.hash) (hs.origin rfl ha hempty :
    Origin E (numbered.visit 0) _ (newChainService E [.mem ∅] (emptyChain target 0)).longestChainIndex
    g _ _ _) (by rw [hs.stores]; exact ha) hs.orphans
  obtain ⟨hsingle, hindex, -⟩ := hs.call rfl hg.hash ha hempty numbered
    (newChainService E [.mem ∅] (emptyChain target 0)).longestChainIndex
  refine ⟨_, .snoc numbered g .nil (along_single hturn hC), hsingle, ?_⟩
  have hhash : (settleHash E g).hash = some (computeHash E g) :=
    settleHash_hash (.inl (by rw [hg.hash]; rfl))
  unfold Entered appendBlockToLongestChain
  rw [hindex, indexed, lookup_registerBlock, hhash, if_pos ⟨Option.some_ne_none _, rfl⟩,
    show (newChainService E [.mem ∅] (emptyChain target 0)).blockIndex =
    ∅ from (single_new (staticConfig target)).2]
  exact ⟨_, rfl, (congrArg BlockHeader.height (settleHash_header g)).trans hg.height,
    Finset.mem_singleton_self 0⟩

section firsts

variable {C : ChainService → Block → Prop} {target : ℤ} {g g' : Block} {data data' : Bytes}
  {st st' : NamecoinState}

/-- **Two first blocks**, the one with the larger hash first: both chains are on the oldest store,
which shows the second block. -/
theorem two_firsts (hg : First E target g data st) (hg' : First E target g' data' st')
    (hless : bytesLess (computeHash E g') (computeHash E g))
    (hC : C (newChainService E [.mem ∅] (emptyChain target 0)) g)
    (hC' : ∀ s, Single (persist E [.mem ∅] 0 g data) (chainAfter E (emptyChain target 0) g st) s →
    C s g') : ∃ s, Deliveries E C (newChainService E [.mem ∅] (emptyChain target 0)) [g, g'] s ∧
      Pair (chainAfter E (emptyChain target 0) g st) (chainAfter E (emptyChain target 0) g' st') s ∧
      0 < s.stores.length ∧ baseOf s.stores 0 = none ∧
      entry s.stores 0 (encodeNamecoinBlockKey 0) = some data' ∧
      Entered s (hashKeyHex (some (computeHash E g))) 0 0 := by
  obtain ⟨s₁, hd₁, hs₁, hentered⟩ := first_delivery (C := C) hg hC
  have hover : Overtakes E (chainAfter E (emptyChain target 0) g st) g' :=
    .inr ⟨hg'.height.trans hg.height.symm, .inr hless⟩
  have haccepted := hg'.accepted (.overlay 0 ∅ ∅ :: persist E [.mem ∅] 0 g data) 1
  have hturn := (single_second hs₁ (Option.some_ne_none _) hg'.height hg'.hash haccepted numbered).2
  have hd := hd₁.snoc numbered g' (along_single hturn (hC' s₁ hs₁))
  obtain ⟨hS, hpair⟩ := single_rival hs₁ (Option.some_ne_none _) hg'.height hg'.hash
    haccepted hover numbered
  generalize hT : persist E (.overlay 0 ∅ ∅ :: persist E [.mem ∅] 0 g data) 1 g' data' = T at *
  have hlayered : Layered T := by
    have hempty : Layered [.mem ∅] := True.intro
    have hold : Layered (persist E [.mem ∅] 0 g data) := (hempty.set _ _ _).set _ _ _
    have hnew : Layered (.overlay 0 ∅ ∅ :: persist E [.mem ∅] 0 g data) := ⟨Nat.one_pos, rfl, hold⟩
    rw [← hT]
    exact (hnew.set _ _ _).set _ _ _
  have hbase : baseOf T 1 = some 0 := by
    rw [← hT, baseOf_persist]
    rfl
  obtain ⟨own, del, hobj⟩ := baseOf_eq_some_iff.mp hbase
  have hcommit : commitStore T (chainAfter E (emptyChain target 1) g' st') =
      (commit T 1, chainAfter E (emptyChain target 0) g' st') := by
    unfold commitStore
    rw [show (chainAfter E (emptyChain target 1) g' st').store = 1 from rfl, hbase]
    rfl
  rw [hcommit] at hpair hS
  dsimp only at hpair hS
  have hstays : Entered (appendBlockToLongestChain E numbered s₁ g').1
      (hashKeyHex (some (computeHash E g))) 0 0 :=
    appendBlockToChain_invariant (I := fun s => Entered s (hashKeyHex (some (computeHash E g))) 0 0)
      (fun _ _ _ _ ht h => h.turn ht) hentered
  refine ⟨_, hd, hpair, ?_, ?_, ?_, hstays⟩
  · rw [hS, length_commit hlayered hobj, ← hT]
    exact Nat.two_pos
  · rw [hS, baseOf_commit hlayered hobj, ← hT, baseOf_persist]
    rfl
  · rw [hS, entry_commit_base hlayered hobj, ← hT, ← hg'.height]
    exact entry_persist_self data' Nat.one_lt_two

/-- **Two first blocks**, the second of which does not have the smaller hash. -/
theorem firsts_beside (hg : First E target g data st) (hg' : First E target g' data' st')
    (hless : ¬ bytesLess (computeHash E g') (computeHash E g))
    (hC : C (newChainService E [.mem ∅] (emptyChain target 0)) g)
    (hC' : ∀ s, ¬ Overtakes E (getLongestChain s) g' → C s g') : ∃ s,
    Deliveries E C (newChainService E [.mem ∅] (emptyChain target 0)) [g, g'] s ∧ s.chains.length = 2 ∧
      getLongestChain s = chainAfter E (emptyChain target 0) g st := by
  obtain ⟨s₁, hd₁, hs₁, -⟩ := first_delivery (C := C) hg hC
  have haccepted := hg'.accepted (.overlay 0 ∅ ∅ :: persist E [.mem ∅] 0 g data) 1
  have hover : ¬ Overtakes E (chainAfter E (emptyChain target 0) g st) g' := by
    rintro (hlt | ⟨-, hnone | hlt⟩)
    · rw [hg'.height] at hlt
      exact UInt64.not_lt_zero hlt
    · cases hnone
    · exact hless hlt
  have hlong : getLongestChain s₁ = chainAfter E (emptyChain target 0) g st :=
    getLongestChain_eq (by rw [hs₁.index, hs₁.chains]; rfl)
  have hturn := (single_second hs₁ (Option.some_ne_none _) hg'.height hg'.hash haccepted numbered).2
  exact ⟨_, hd₁.snoc numbered g' (along_single hturn (hC' s₁ (by rwa [hlong]))),
    single_beside hs₁ (Option.some_ne_none _) hg'.height hg'.hash haccepted hover numbered⟩

end firsts

/-- Of the first blocks with nonces 0 and 1, the latter has the smaller hash. -/
theorem plain_firsts_less : bytesLess (computeHash plainEnv (blockAt plainEnv 0 none [] 1))
    (computeHash plainEnv (blockAt plainEnv 0 none [] 0)) := by decide +kernel

theorem plain_rivals : ∃ (target : ℤ) (data data' : Bytes),
    First plainEnv target (blockAt plainEnv 0 none [] 0) data (atHeight 0 newState) ∧
      First plainEnv target (blockAt plainEnv 0 none [] 1) data' (atHeight 0 newState) := by
  let target : ℤ := workOf plainEnv (blockAt plainEnv 0 none [] 0) + workOf plainEnv
    (blockAt plainEnv 0 none [] 1)
  obtain ⟨data, hg⟩ := first_quiet plainEnv 0 (show (_ : ℤ) ≤ target by omega)
  obtain ⟨data', hg'⟩ := first_quiet plainEnv 1 (show (_ : ℤ) ≤ target by omega)
  exact ⟨target, data, data', hg, hg'⟩

end Namecoin.Service.Steady
