import Namecoin.Service.Choice
import Namecoin.Service.Orphans
import Namecoin.Service.Steady

/-! # Which block an error is about

`AppendBlockToChain` processes the block it is given and then every block that has been waiting for it,
and returns the first error. A block that waits has not been checked, so the error may be about such a
block while the block of the call has been attached.

* `attributed_iff`: **a call whose block is attached or known returns no error** exactly if no block
  that it takes out of the pool is rejected;
* `blamed_parent`: a block is attached and its call returns an error. -/

namespace Namecoin.Service.Attribution

open Lib.ByteStrings Lib.WorkList Types.Defs Types.BlockCodec Types.SampleEnv State.Defs
open State.Strict State.Effects Chain.Pow Chain.Stores Chain.Defs Chain.Apply Chain.Build
open Chain.Rejections Chain.Restart Service.Defs Service.Turns Service.Scenes Service.Choice
open Service.Orphans Service.Steady

variable {E : Env} {visit : Finset ℕ → List ℕ} {s : ChainService} {index : ℤ} {blk : Block}

/-- The block is not known, and no chain can be made for it although its parent is known, or the chain
of its parent rejects it for another reason than that it is not the next block. -/
def Rejects (E : Env) (visit : Finset ℕ → List ℕ) (index : ℤ) (s : ChainService) (blk : Block) : Prop :=
  ¬ blockKnown s blk.hash blk.header.height ∧
    ((∃ e, ensureChainForParent E visit s index blk = .error e ∧ e ≠ .unknownParent) ∨
      ∃ s₁ c i e, ensureChainForParent E visit s index blk = .ok (s₁, c, i) ∧
        c.applyBlock E s₁.stores blk = .error e ∧ isChainFollow e = false)

/-- **A turn reports an error** exactly if the block is rejected. -/
theorem turn_failure_iff : (processSingleBlock E visit index s blk).failure = none ↔
    ¬ Rejects E visit index s blk := by
  have ht := processSingleBlock_turn E visit index s blk
  generalize processSingleBlock E visit index s blk = o at ht
  cases ht with
  | known hk => exact iff_of_true rfl fun h => h.1 hk
  | unknownParent _ he =>
    refine iff_of_true rfl fun ⟨_, h⟩ => ?_
    rcases h with ⟨e, he', hne⟩ | ⟨s₁, c, i, e, hok, -⟩
    · cases he.symm.trans he'
      exact hne rfl
    · cases he.symm.trans hok
  | noFork hk he hne => exact iff_of_false (Option.some_ne_none _) fun h => h ⟨hk, .inl ⟨_, he, hne⟩⟩
  | notNext _ ho ha =>
    have hok := ensureChainForParent_ok_iff.mpr ho
    refine iff_of_true rfl fun ⟨_, h⟩ => ?_
    rcases h with ⟨e, he', -⟩ | ⟨s₁, c, i, e, hok', ha', hf⟩
    · cases hok.symm.trans he'
    · cases hok.symm.trans hok'
      cases ha.symm.trans ha'
      cases hf
  | invalid hk ho ha hf =>
    exact iff_of_false (Option.some_ne_none _) fun h =>
      h ⟨hk, .inr ⟨_, _, _, _, ensureChainForParent_ok_iff.mpr ho, ha, hf⟩⟩
  | attached _ ho ha =>
    have hok := ensureChainForParent_ok_iff.mpr ho
    refine iff_of_true rfl fun ⟨_, h⟩ => ?_
    rcases h with ⟨e, he', -⟩ | ⟨s₁, c, i, e, hok', ha', -⟩
    · cases hok.symm.trans he'
    · cases hok.symm.trans hok'
      cases ha.symm.trans ha'

/-- The block is known, or it is attached to a chain. -/
def Taken (E : Env) (visit : Finset ℕ → List ℕ) (index : ℤ) (s : ChainService) (blk : Block) : Prop :=
  blockKnown s blk.hash blk.header.height ∨ ∃ s₁ c i r, ensureChainForParent E visit s index blk =
    .ok (s₁, c, i) ∧ c.applyBlock E s₁.stores blk = .ok r

theorem Taken.not_rejects (h : Taken E visit index s blk) : ¬ Rejects E visit index s blk := by
  rintro ⟨hk, hr⟩
  obtain ⟨s₁, c, i, r, hok, ha⟩ := h.resolve_left hk
  rcases hr with ⟨e, he, -⟩ | ⟨s₁', c', i', e, hok', ha', -⟩
  · cases hok.symm.trans he
  · cases hok.symm.trans hok'
    cases ha.symm.trans ha'

/-- **Errors are about the block of the call** exactly if none of the blocks that the call takes out
of the pool is rejected. -/
theorem attributed_iff {order : MapOrder} (h : Taken E (order.visit 0) index s blk) :
    (appendBlockToChain E order index s blk).2.2 = none ↔
      Along (pendingWorker E order index) (fun n s a => ¬ Rejects E (order.visit n) index s a) 1
        (processSingleBlock E (order.visit 0) index s blk).state
        (processSingleBlock E (order.visit 0) index s blk).jobs := by
  have hcond : (fun n s a => ((pendingWorker E order index).turn n s a).failure = none) =
      fun n s a => ¬ Rejects E (order.visit n) index s a := by
    funext n s a
    exact propext turn_failure_iff
  have hturn : (pendingWorker E order index).turn 0 s blk =
    processSingleBlock E (order.visit 0) index s blk := rfl
  show (processPendingBlocks E order index s blk).2 = none ↔ _
  unfold processPendingBlocks
  rw [drain_failure_iff, hcond, ← hturn]
  constructor
  · rintro (_ | ⟨-, hrest⟩)
    exact hrest
  · exact fun hrest => .cons h.not_rejects hrest

/-! ### A first block that another one waits for -/

theorem child_waits {c : NamecoinChain} {g x : Block} (index : ℤ) (hs : Single [.mem ∅] c s)
    (hc : c.headHash = none) (hindex : s.blockIndex = ∅) (h0 : x.header.height ≠ 0)
    (hprev : x.header.prevHash = some (computeHash E g)) (order : MapOrder) :
    (appendBlockToChain E order index s x).1 = storeOrphan s x ∧
      waiting (storeOrphan s x) (hashKeyHex (some (computeHash E g))) = [cloneBlock x] := by
  have hnone : x.header.prevHash ≠ none := by
    rw [hprev]
    exact Option.some_ne_none _
  have hlook : ∀ k, s.blockIndex.lookup k = none := fun k => by
    rw [hindex]
    rfl
  have hk : ¬ blockKnown s x.hash x.header.height := by
    rintro ⟨-, m, hm, -⟩
    rw [hlook] at hm
    cases hm
  have hhead : findHeadByHash s x.header.prevHash = none := by
    refine firstChain_none.mpr fun d hd he => ?_
    rw [hs.chains, List.mem_singleton] at hd
    rw [hd, hc, hprev] at he
    exact E.sha256_ne_nil _ he.symm
  have hturn : processSingleBlock E (order.visit 0) index s x = ⟨storeOrphan s x, [], none⟩ :=
    processSingleBlock_unknown hk h0 hnone hhead (hlook _)
  refine ⟨congrArg Prod.fst (appendBlockToChain_single hturn), ?_⟩
  have hnil : waiting s (hashKeyHex (some (computeHash E g))) = [] := by
    unfold waiting
    rw [hs.orphans]
    rfl
  rw [waiting_storeOrphan, hprev, if_pos ⟨⟨h0, hnone⟩, rfl⟩, hnil]
  rfl

/-- **The turn of a first block** hands over the block that waits for it. -/
theorem first_wakes {target : ℤ} {g x : Block} {data : Bytes} {st : NamecoinState}
    (hg : First E target g data st) (hchains : s.chains = [emptyChain target 0])
    (hindex : s.longestChainIndex = 0) (hw : waiting s (hashKeyHex (some (computeHash E g))) = [x])
    (visit : Finset ℕ → List ℕ) :
    ensureChainForParent E visit s s.longestChainIndex g =
      .ok (s, emptyChain target 0, s.longestChainIndex) ∧
    ∃ s', processSingleBlock E visit s.longestChainIndex s g = ⟨s', [x], none⟩ ∧
      s'.chains = [chainAfter E (emptyChain target 0) g st] ∧
      s'.blockIndex = (registerBlock s 0 (settleHash E g)).blockIndex ∧
      ∀ k, waiting s' k = if k = hashKeyHex (some (computeHash E g)) then [] else waiting s k := by
  have hok : ensureChainForParent E visit s s.longestChainIndex g =
      .ok (s, emptyChain target 0, s.longestChainIndex) := by
    refine ensureChainForParent_ok_iff.mpr (.empty hg.height ?_)
    unfold firstChain
    rw [hchains, hindex]
    rfl
  have ha := hg.accepted s.stores 0
  have hsettled : (settleHash E g).hash = some (computeHash E g) :=
    settleHash_hash (.inl (by rw [hg.hash]; rfl))
  have hattach := attach_longest (s := s) (persist E s.stores 0 g data) (settleHash E g)
    (show (chainAfter E (emptyChain target 0) g st).headHash ≠ none from Option.some_ne_none _)
  generalize hA : attach s (persist E s.stores 0 g data) (chainAfter E (emptyChain target 0) g st)
    s.longestChainIndex (settleHash E g) = A at hattach
  have hAw : ∀ k, waiting A k = waiting s k := fun k => by
    rw [← hA]
    exact waiting_congr (orphansByPrev_attach _ _ _ _ _) _
  refine ⟨hok, (popWaitingChildren A (some (computeHash E g))).1, ?_, ?_, ?_, fun k => ?_⟩
  · have hpop : (popWaitingChildren A (some (computeHash E g))).2 = [x] := by
      unfold popWaitingChildren
      rw [if_neg (Option.some_ne_none _)]
      dsimp only
      rw [hAw, hw, if_neg (List.cons_ne_nil _ _)]
    unfold processSingleBlock
    rw [if_neg (not_blockKnown_of_none hg.hash), hok]
    dsimp only
    rw [show (emptyChain target 0).applyBlock E s.stores g = _ from ha]
    dsimp only
    rw [hA, hsettled, ← hpop]
  · obtain ⟨pool, hpool⟩ := popWaitingChildren_eq A (some (computeHash E g))
    rw [hpool]
    show A.chains = _
    rw [hattach, chains_registerBlock]
    show s.chains.set s.longestChainIndex _ = _
    rw [hchains, hindex]
    rfl
  · obtain ⟨pool, hpool⟩ := popWaitingChildren_eq A (some (computeHash E g))
    rw [hpool]
    show A.blockIndex = _
    rw [hattach, hindex]
    unfold registerBlock
    split_ifs <;> rfl
  · rw [waiting_pop, hAw]
    simp only [ne_eq, Option.some_ne_none, not_false_iff, true_and]

theorem jobs_eq_nil (visit : Finset ℕ → List ℕ) (index : ℤ) (blk : Block) (h : ∀ k, waiting s k = []) :
    (processSingleBlock E visit index s blk).jobs = [] := by
  have hpop : ∀ (s₁ : ChainService) hash, (∀ k, waiting s₁ k = []) →
      (popWaitingChildren s₁ hash).2 = [] := by
    intro s₁ hash h₁
    unfold popWaitingChildren
    dsimp only
    rw [if_pos (h₁ _), ite_self]
  have ht := processSingleBlock_turn E visit index s blk
  generalize processSingleBlock E visit index s blk = o at ht
  cases ht with
  | known => exact hpop s _ h
  | attached _ ho ha =>
    refine hpop _ _ fun k => ?_
    rw [waiting_congr ((orphansByPrev_attach _ _ _ _ _).trans ho.orphansByPrev) k]
    exact h k
  | _ => rfl

/-- A first block, with a block that waits for it and is then attached too. -/
theorem attributed_woken : ∃ (E : Env) (order : MapOrder) (cfg : PoWConfig) (x : Block)
      (s : ChainService) (g : Block),
    Calls E (newChainService E [.mem ∅] (configurePow cfg (newNamecoinChain 0))) [x] s ∧
    (∃ k, waiting s k = [x]) ∧
      Taken E (order.visit 0) s.longestChainIndex s g ∧
      (appendBlockToLongestChain E order s g).2.2 = none := by
  let g := blockAt plainEnv 0 none [] 0
  let x := blockAt plainEnv 1 (some (computeHash plainEnv g)) [] 0
  let target : ℤ := workOf plainEnv g + workOf plainEnv x
  obtain ⟨data, hg⟩ := first_quiet plainEnv 0 (show (workOf plainEnv g : ℤ) ≤ target by omega)
  obtain ⟨hs, hindex⟩ := single_new (E := plainEnv) (staticConfig target)
  generalize hnew : newChainService plainEnv [.mem ∅]
    (configurePow (staticConfig target) (newNamecoinChain 0)) = s₀ at hs hindex
  have hclone : cloneBlock x = x := by
    have hprev : cloneBytes (some (computeHash plainEnv g)) = _ :=
      cloneBytes_some (plainEnv.sha256_ne_nil _)
    have hroot : cloneBytes (some (rootOf plainEnv [])) = _ :=
      cloneBytes_some (rootOf_ne_nil plainEnv [] (by simp))
    unfold cloneBlock
    dsimp only [x, blockAt]
    rw [hprev, hroot]
    rfl
  have h1 : x.header.height ≠ 0 := (by decide : (1 : UInt64) ≠ 0)
  obtain ⟨hcall, hw⟩ := child_waits (x := x) (g := g) 0 hs rfl hindex h1 rfl numbered
  rw [hclone] at hw
  have hcalls : Calls plainEnv s₀ [x] (storeOrphan s₀ x) := hcall ▸ Calls.snoc numbered 0 _ .nil
  obtain ⟨pool, hpool⟩ := storeOrphan_eq s₀ x
  obtain ⟨hok, s', hturn, hchains, -, hwait⟩ :=
    first_wakes (s := storeOrphan s₀ x) hg (by rw [hpool]; exact hs.chains)
      (by rw [hpool]; exact hs.index) hw (numbered.visit 0)
  have htaken : Taken plainEnv (numbered.visit 0) (storeOrphan s₀ x).longestChainIndex
      (storeOrphan s₀ x) g :=
    .inr ⟨_, _, _, _, hok, hg.accepted _ 0⟩
  refine ⟨plainEnv, numbered, staticConfig target, x, storeOrphan s₀ x, g, hnew ▸ hcalls, ⟨_, hw⟩, htaken,
    (attributed_iff htaken).mpr ?_⟩
  rw [hturn]
  -- the block that has been waiting is on top of the one that has been attached
  obtain ⟨S', ha⟩ := applyBlock_quiet (S := s'.stores)
    (HeadOK.after (E := plainEnv) (emptyChain target 0) g (atHeight 0 newState)) rfl
    (show (workOf plainEnv x : ℤ) ≤ target by omega)
  refine .cons (Taken.not_rejects (.inr ⟨s', _, 0, _, ensureChainForParent_ok_iff.mpr (.head h1 ?_ ?_),
    ha⟩)) ?_
  · exact Option.some_ne_none _
  · exact findHead_single hchains rfl
  · have hnil : ∀ k, waiting s' k = [] := fun k => by
      rw [hwait]
      split_ifs with hk
      · rfl
      · rw [waiting_storeOrphan, if_neg fun h => hk h.2]
        unfold waiting
        rw [hs.orphans]
        rfl
    rw [show ((pendingWorker plainEnv numbered (storeOrphan s₀ x).longestChainIndex).turn 1 s' x).jobs =
      [] from jobs_eq_nil _ _ _ hnil]
    exact .nil _ _

/-! ### A block that waits and is invalid -/

theorem cloneBlock_rootless (E : Env) (g : Block) : cloneBlock (rootless E g) = rootless E g := by
  have hprev : cloneBytes (some (computeHash E g)) = some (computeHash E g) :=
    cloneBytes_some (E.sha256_ne_nil _)
  unfold cloneBlock rootless
  dsimp only
  rw [hprev]
  rfl

theorem applyBlock_rootless {c : NamecoinChain} {g : Block} (hhash : c.headHash = some (computeHash E g))
    (hheight : c.headHeight = 0) (S : Heap) :
    c.applyBlock E S (rootless E g) = .error (.msg "txRoot mismatch") := by
  refine applyBlock_bad_root (by rw [hhash]; exact cloneBytes_some (E.sha256_ne_nil _)) (.inl rfl) ?_
    (computeTxRoot_rootOf (by simp [rootless])) fun he => rootOf_ne_nil E [] (by simp) he.symm
  refine ensureNextBlockFollows_ok_iff.mpr ?_
  rw [hhash, if_neg (Option.some_ne_none _), hheight]
  exact ⟨rfl, rfl⟩

theorem blamed {target : ℤ} {g : Block} {data : Bytes} {st : NamecoinState}
    (hg : First E target g data st)
    (hs : Single [.mem ∅] (emptyChain target 0) { s with orphansByPrev := ∅ })
    (hw : waiting s (hashKeyHex (some (computeHash E g))) = [rootless E g]) (order : MapOrder) :
    Taken E (order.visit 0) s.longestChainIndex s g ∧
    (appendBlockToLongestChain E order s g).2.2 ≠ none := by
  obtain ⟨hok, s', hturn, hchains, -, -⟩ := first_wakes (s := s) hg hs.chains hs.index hw (order.visit 0)
  refine ⟨.inr ⟨_, _, _, _, hok, hg.accepted s.stores 0⟩, fun hnone => ?_⟩
  -- the block is attached, and the one that waits is the only other one
  have halong := (drain_failure_iff 0 s [g]).mp hnone
  cases halong with
  | cons _ hrest =>
    rw [show (pendingWorker E order s.longestChainIndex).turn 0 s g = _ from hturn] at hrest
    cases hrest with
    | cons hfail _ =>
      refine turn_failure_iff.mp hfail ⟨not_blockKnown_of_none rfl, .inr ?_⟩
      refine ⟨_, chainAfter E (emptyChain target 0) g st, 0, _,
        ensureChainForParent_ok_iff.mpr (.head ?_ ?_ ?_), applyBlock_rootless rfl hg.height _, rfl⟩
      · exact (by decide : (1 : UInt64) ≠ 0)
      · exact Option.some_ne_none _
      · exact findHead_single hchains rfl

theorem rootless_waits {c : NamecoinChain} (g : Block) (index : ℤ) (hs : Single [.mem ∅] c s)
    (hc : c.headHash = none) (hindex : s.blockIndex = ∅) (order : MapOrder) :
    (appendBlockToChain E order index s (rootless E g)).1 = storeOrphan s (rootless E g) ∧
      waiting (storeOrphan s (rootless E g)) (hashKeyHex (some (computeHash E g))) = [rootless E g] := by
  have h0 : (rootless E g).header.height ≠ 0 := (by decide : (1 : UInt64) ≠ 0)
  have hwaits := child_waits (x := rootless E g) (g := g) index hs hc hindex h0 rfl order
  rwa [cloneBlock_rootless] at hwaits

/-- **A block is attached and its call returns an error**: a block without a transaction root
has been waiting for it. -/
theorem blamed_parent : ∃ (E : Env) (order : MapOrder) (cfg : PoWConfig) (calls : List Block)
      (s : ChainService)
    (g : Block), Calls E (newChainService E [.mem ∅] (configurePow cfg (newNamecoinChain 0))) calls s ∧
      Taken E (order.visit 0) s.longestChainIndex s g ∧
      (appendBlockToLongestChain E order s g).2.2 ≠ none := by
  obtain ⟨data, hg⟩ := first_quiet plainEnv 0 le_rfl
  let target : ℤ := workOf plainEnv (blockAt plainEnv 0 none [] 0)
  obtain ⟨hs, hindex⟩ := single_new (E := plainEnv) (staticConfig target)
  obtain ⟨hcall, hw⟩ := rootless_waits (E := plainEnv) (blockAt plainEnv 0 none [] 0) 0 hs
    rfl hindex numbered
  have hcalls : Calls plainEnv (newChainService plainEnv [.mem ∅] (configurePow (staticConfig target)
      (newNamecoinChain 0))) [rootless plainEnv (blockAt plainEnv 0 none [] 0)] _ := Calls.snoc
      numbered 0 _ .nil
  rw [hcall] at hcalls
  obtain ⟨pool, hpool⟩ := storeOrphan_eq (newChainService plainEnv [.mem ∅]
    (configurePow (staticConfig target) (newNamecoinChain 0)))
    (rootless plainEnv (blockAt plainEnv 0 none [] 0))
  refine ⟨plainEnv, numbered, _, _, _, _, hcalls, blamed hg ?_ hw numbered⟩
  rw [hpool]
  exact ⟨hs.stores, hs.chains, hs.index, rfl⟩

end Namecoin.Service.Attribution
