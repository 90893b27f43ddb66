import Namecoin.Service.Attribution
import Namecoin.Service.Convergence

/-! # Copies in the pool

A block whose parent is not known is put into the pool as a copy. `cloneBlock` copies the slices of the
header with `CloneBytes`, which turns a slice that is empty and not nil into nil. The JSON text of the
header tells the two apart, so the copy of such a block has another hash.

* `cloneBlock_header_iff`: the headers that are copied as they are;
* `processSingleBlock_copy`: a turn with such a copy does what a turn with the block itself does;
* `copies_iff`: the copy has the hash of the block, and is taken in its place, exactly if no slice of
  the header is empty and not nil;
* `parked_copy_refused`: a block that is accepted after its parent, and lost if it comes before. -/

namespace Namecoin.Service.Copies

open Lib.Ops Lib.ByteStrings Lib.WorkList Types.Defs Types.BlockCodec Types.SampleEnv State.Defs
open State.Strict State.Effects Chain.Pow Chain.Stores Chain.Defs Chain.Apply Chain.Build
open Chain.Lines Chain.Rejections Service.Defs Service.Turns Service.Scenes Service.Orphans
open Service.Steady Service.Attribution Service.Convergence

variable {E : Env} {a b : Block} {c c' : NamecoinChain} {S S' : Heap} {s : ChainService}
  {visit : Finset ℕ → List ℕ} {index : ℤ}

/-! ### What is copied as it is -/

theorem cloneBytes_eq_iff (x : Slice UInt8) : cloneBytes x = x ↔ x ≠ some [] := by
  unfold cloneBytes
  rcases x with _ | _ | ⟨y, ys⟩
  · simp [elems]
  · simp [elems]
  · simp [elems]

theorem cloneBlock_header_iff (b : Block) : (cloneBlock b).header = b.header ↔
    b.header.prevHash ≠ some [] ∧ b.header.txRoot ≠ some [] ∧ b.header.difficulty ≠ some [] := by
  rw [← cloneBytes_eq_iff, ← cloneBytes_eq_iff, ← cloneBytes_eq_iff]
  obtain ⟨⟨height, prevHash, txRoot, timestamp, nonce, miner, difficulty⟩, txs, hash⟩ := b
  simp [cloneBlock]

theorem cloneBlock_cloneBlock (b : Block) : cloneBlock (cloneBlock b) = cloneBlock b := by
  simp only [cloneBlock, cloneBytes_cloneBytes]

theorem computeHash_cloneBlock_iff (hc : E.CollisionFree) (b : Block) :
    computeHash E (cloneBlock b) = computeHash E b ↔ (cloneBlock b).header = b.header := by
  constructor
  · exact fun h => serializeHeader_injective (hc h)
  · intro h
    unfold computeHash
    rw [h]

/-! ### Turns with a copy -/

theorem validateBlockHeader_twin (h : Twin E a b) (height : UInt64) (hash : Slice UInt8)
    (target : Option ℤ) :
    validateBlockHeader E height hash a target = validateBlockHeader E height hash b target := by
  have hfits : ∀ e : Err, (failIf (¬ hashFits E a) e : Except Err Unit) = failIf (¬ hashFits E b) e :=
    fun e => if_congr (not_congr h.fits) rfl rfl
  have hfollow := ensureNextBlockFollows_congr h.header height hash
  have htarget := enforceDifficultyTarget_congr h.header target
  have hwork : ∀ t, validateWorkForTarget E a t = validateWorkForTarget E b t := fun t => by
    have hvalid : isBlockComplexityValid E a t ↔ isBlockComplexityValid E b t := by
      unfold isBlockComplexityValid
      rw [h.hash_eq]
    unfold validateWorkForTarget
    exact if_congr hvalid rfl rfl
  unfold validateBlockHeader
  simp only [hfits, hfollow, htarget, hwork, h.header, h.transactions]

theorem validateBlock_twin (h : Twin E a b) (height : UInt64) (hash : Slice UInt8) (target : Option ℤ)
    (st : NamecoinState) :
    validateBlock E height hash a target st = validateBlock E height hash b target st := by
  have hstrict : applyBlockStrict E a st = applyBlockStrict E b st := by
    unfold applyBlockStrict
    rw [h.header, h.transactions]
  unfold validateBlock
  rw [validateBlockHeader_twin h, hstrict]

/-- A chain, whatever its head, does with a block what it does with a twin. -/
theorem applyBlock_twin (h : Twin E a b) (c : NamecoinChain) (S : Heap) :
    c.applyBlock E S a = c.applyBlock E S b := by
  unfold NamecoinChain.applyBlock
  dsimp only
  rw [validateBlock_twin h, h.header]
  refine except_bind_congr fun st hv => ?_
  have hfits := (validateBlockHeader_ok_iff.mp (validateBlock_ok_iff.mp hv).1).1
  rw [h.settleHash_eq hfits]

theorem not_blockKnown_clone (h : ¬ blockKnown s b.hash b.header.height) :
    ¬ blockKnown s (cloneBlock b).hash (cloneBlock b).header.height := by
  rintro ⟨hne, hm⟩
  refine h ⟨fun hn => hne ?_, ?_⟩
  · show cloneBytes b.hash = none
    rw [hn]
    rfl
  · have hkey : hashKeyHex (cloneBlock b).hash = hashKeyHex b.hash := hashKeyHex_clone _
    rwa [hkey] at hm

theorem storeOrphan_congr (hheader : a.header = b.header) (hclone : cloneBlock a = cloneBlock b) :
    storeOrphan s a = storeOrphan s b := by
  unfold storeOrphan
  rw [hheader, hclone]

/-- **A turn with the copy** of a block whose header is copied as it is does what a
turn with the block does. -/
theorem processSingleBlock_copy (hheader : (cloneBlock b).header = b.header)
    (hk : ¬ blockKnown s b.hash b.header.height) :
    processSingleBlock E visit index s (cloneBlock b) = processSingleBlock E visit index s b := by
  have htwin : Twin E (cloneBlock b) b := twin_cloneBlock (Twin.refl b) hheader
  have hparent : ensureChainForParent E visit s index (cloneBlock b) =
      ensureChainForParent E visit s index b := by
    unfold ensureChainForParent
    rw [hheader]
  unfold processSingleBlock
  rw [if_neg (not_blockKnown_clone hk), if_neg hk, hparent]
  cases ensureChainForParent E visit s index b with
  | error e =>
    show handleParentError s (cloneBlock b) e = handleParentError s b e
    unfold handleParentError
    rw [storeOrphan_congr hheader (cloneBlock_cloneBlock b)]
  | ok p =>
    obtain ⟨s₁, c, i⟩ := p
    dsimp only
    rw [applyBlock_twin htwin]
    by_cases hfits : hashFits E b
    · rw [htwin.settleHash_eq hfits]
    · -- the `Hash` is wrong, and no chain accepts the block
      have hsettle : settleHash E (cloneBlock b) = cloneBlock b ∧ settleHash E b = b := by
        unfold settleHash
        exact ⟨if_neg fun h => hfits (htwin.fits.mp h), if_neg hfits⟩
      rw [hsettle.1, hsettle.2]
      cases ha : c.applyBlock E s₁.stores b with
      | error e =>
        show handleApplyError s₁ (cloneBlock b) e = handleApplyError s₁ b e
        unfold handleApplyError
        rw [storeOrphan_congr hheader (cloneBlock_cloneBlock b)]
      | ok r =>
        unfold NamecoinChain.applyBlock at ha
        obtain ⟨st, hv, -⟩ := except_bind_ok_iff.mp ha
        exact absurd (validateBlockHeader_ok_iff.mp (validateBlock_ok_iff.mp hv).1).1 hfits

/-- **Copies of blocks.** The copy of a block has the hash of the block, and in every state of the
service that does not know the block a turn with the copy does what a turn with the block does, exactly
if none of the slices `PrevHash`, `TxRoot` and `Difficulty` of the header is empty and not nil. -/
theorem copies_iff (hc : E.CollisionFree) (b : Block) :
    (computeHash E (cloneBlock b) = computeHash E b ∧
      ∀ (visit : Finset ℕ → List ℕ) (index : ℤ) (s : ChainService),
      ¬ blockKnown s b.hash b.header.height →
        processSingleBlock E visit index s (cloneBlock b) = processSingleBlock E visit index s b) ↔
    b.header.prevHash ≠ some [] ∧ b.header.txRoot ≠ some [] ∧ b.header.difficulty ≠ some [] := by
  rw [computeHash_cloneBlock_iff hc, cloneBlock_header_iff]
  refine ⟨And.left, fun h => ⟨h, fun visit index s hk => ?_⟩⟩
  exact processSingleBlock_copy ((cloneBlock_header_iff b).mpr h) hk

/-- A child of a first block that is copied as it is. -/
theorem copies_child : ∃ (E : Env) (b : Block), E.CollisionFree ∧ b.header.height = 1 ∧
    computeHash E (cloneBlock b) = computeHash E b ∧
    ∀ (visit : Finset ℕ → List ℕ) (index : ℤ) (s : ChainService), ¬ blockKnown s b.hash b.header.height →
      processSingleBlock E visit index s (cloneBlock b) = processSingleBlock E visit index s b := by
  let E := plainEnv
  let b := blockAt E 1 (some (computeHash E (blockAt E 0 none [] 0))) [] 0
  have hprev : b.header.prevHash ≠ some [] := fun h => E.sha256_ne_nil _ (Option.some.inj h)
  have hroot : b.header.txRoot ≠ some [] := fun h =>
    rootOf_ne_nil E [] (List.forall_mem_nil _) (Option.some.inj h)
  have hdifficulty : b.header.difficulty ≠ some [] := (Option.some_ne_none _).symm
  exact ⟨E, b, plainEnv_collisionFree, rfl, (copies_iff plainEnv_collisionFree b).mpr
    ⟨hprev, hroot, hdifficulty⟩⟩

/-! ### A block that comes before its parent -/

theorem lookup_settled {i : ℕ} {s' : ChainService} (hfits : hashFits E b)
    (hs' : s'.blockIndex = (registerBlock s i (settleHash E b)).blockIndex) (hash : Bytes) :
    s'.blockIndex.lookup (hashKeyHex (some hash)) = if hash = computeHash E b then
      some (metaWith (s.blockIndex.lookup (hashKeyHex (some hash))) b.header.height i)
    else s.blockIndex.lookup (hashKeyHex (some hash)) := by
  have hkey : hashKeyHex (some hash) = hashKeyHex (some (computeHash E b)) ↔ hash = computeHash E b :=
    ⟨fun h => hashKeyHex_inj h, fun h => by rw [h]⟩
  rw [hs', lookup_registerBlock, settleHash_hash hfits, settleHash_header]
  simp only [ne_eq, Option.some_ne_none, not_false_iff, true_and, hkey]

theorem not_blockKnown_of_lookup {hash : Bytes} (h : s.blockIndex.lookup (hashKeyHex (some hash)) = none)
    (height : UInt64) : ¬ blockKnown s (some hash) height := by
  rintro ⟨-, m, hm, -⟩
  rw [h] at hm
  cases hm

theorem not_hashFits_copy (hhash : b.hash = some (computeHash E b))
    (hne : computeHash E (cloneBlock b) ≠ computeHash E b) : ¬ hashFits E (cloneBlock b) := by
  have helems : elems (cloneBlock b).hash = computeHash E b := by
    show elems (cloneBytes b.hash) = _
    rw [hhash, elems_cloneBytes]
    rfl
  unfold hashFits
  rw [helems]
  rintro (hnil | heq)
  · exact E.sha256_ne_nil _ hnil
  · exact hne heq.symm

section child

variable {target : ℤ} {g : Block} {data : Bytes} {st : NamecoinState} (hg : First E target g data st)
  (hhash : b.hash = some (computeHash E b)) (h0 : b.header.height ≠ 0)
  (hprev : b.header.prevHash = some (computeHash E g)) (hbg : computeHash E b ≠ computeHash E g)
include hg hhash h0 hbg

theorem known_after_parent
    (ha : (chainAfter E (emptyChain target 0) g st).applyBlock E (persist E [.mem ∅] 0 g data)
    b = .ok (S', c')) :
    ∃ s, Calls E (newChainService E [.mem ∅] (emptyChain target 0)) [g, b] s ∧
      blockKnown s b.hash b.header.height := by
  obtain ⟨hs₀, hempty⟩ := single_new (E := E) (staticConfig target)
  obtain ⟨hs₁, hindex₁, -⟩ := hs₀.call rfl hg.hash (hg.accepted [.mem ∅] 0)
    (fun _ => ⟨rfl, rfl⟩) numbered 0
  have hlook₁ := lookup_settled (.inl (by rw [hg.hash]; rfl)) hindex₁ (computeHash E b)
  rw [if_neg hbg, hempty] at hlook₁
  have hk := not_blockKnown_of_lookup hlook₁ b.header.height
  rw [← hhash] at hk
  obtain ⟨-, hindex₂, -⟩ := hs₁.next (HeadOK.after _ _ _) hk ha (fun h => absurd h h0) numbered 0
  have hlook₂ := lookup_settled (.inr (by rw [hhash]; rfl)) hindex₂ (computeHash E b)
  rw [if_pos rfl, hlook₁] at hlook₂
  refine ⟨_, .snoc numbered 0 b (.snoc numbered 0 g .nil), ?_⟩
  rw [hhash]
  exact ⟨Option.some_ne_none _, _, hlook₂, rfl⟩

include hprev in
/-- **A child whose copy has another hash** waits as a copy if it is delivered before the first block.
The copy is refused when the first block comes, and nothing is left of it. -/
theorem lost_before_parent (hne : computeHash E (cloneBlock b) ≠ computeHash E b) :
    ∃ s, Calls E (newChainService E [.mem ∅] (emptyChain target 0)) [b, g] s ∧
      ¬ blockKnown s b.hash b.header.height ∧ ∀ k, waiting s k = [] := by
  obtain ⟨hs₀, hempty⟩ := single_new (E := E) (staticConfig target)
  generalize hnew : newChainService E [.mem ∅] (configurePow (staticConfig target) (newNamecoinChain 0)) =
    s₀ at hs₀ hempty
  rw [show newChainService E [.mem ∅] (emptyChain target 0) = s₀ from hnew]
  obtain ⟨hcall, hw⟩ := child_waits (x := b) (g := g) 0 hs₀ rfl hempty h0 hprev numbered
  obtain ⟨pool, hpool⟩ := storeOrphan_eq s₀ b
  have hlongest : (storeOrphan s₀ b).longestChainIndex = 0 := by rw [hpool]; exact hs₀.index
  obtain ⟨-, s', hturn, hchains, hindex, hwaiting⟩ := first_wakes (s := storeOrphan s₀ b) hg
    (by rw [hpool]; exact hs₀.chains) hlongest hw (numbered.visit 0)
  have hlook := lookup_settled (.inl (by rw [hg.hash]; rfl)) hindex (computeHash E b)
  rw [if_neg hbg, show (storeOrphan s₀ b).blockIndex = ∅ by rw [hpool]; exact hempty] at hlook
  have hk := not_blockKnown_of_lookup hlook b.header.height
  rw [← hhash] at hk
  -- the first block is the head of the only chain when the copy has its turn
  have ho : Origin E (numbered.visit 1) s' 0 (cloneBlock b) s'
      (chainAfter E (emptyChain target 0) g st) 0 := by
    have hcopy : (cloneBlock b).header.prevHash = some (computeHash E g) := by
      show cloneBytes b.header.prevHash = _
      rw [hprev]
      exact cloneBytes_some (E.sha256_ne_nil _)
    exact .head h0 (by rw [hcopy]; exact Option.some_ne_none _) (findHead_single hchains hcopy.symm)
  have hbad := applyBlock_bad_hash (S := s'.stores) (HeadOK.after (E := E) (emptyChain target 0) g st)
    (not_hashFits_copy hhash hne)
  have hturn' := processSingleBlock_invalid (not_blockKnown_clone hk) ho hbad rfl
  have hend : (appendBlockToChain E numbered 0 (storeOrphan s₀ b) g).1 = s' := by
    rw [hlongest] at hturn
    have hfirst : (pendingWorker E numbered 0).turn 0 (storeOrphan s₀ b) g = ⟨s', [cloneBlock b], none⟩ :=
      hturn
    have hsecond : (pendingWorker E numbered 0).turn 1 s' (cloneBlock b) = ⟨s', [], _⟩ := hturn'
    show ((pendingWorker E numbered 0).drain 0 (storeOrphan s₀ b) [g]).1 = s'
    rw [drain_cons, hfirst, List.nil_append, drain_cons, hsecond, List.append_nil, drain_nil]
  refine ⟨s', ?_, hk, fun k => ?_⟩
  · have hcalls : Calls E s₀ [b, g] _ := .snoc numbered 0 g (.snoc numbered 0 b .nil)
    rwa [hcall, hend] at hcalls
  · rw [hwaiting]
    split_ifs with hkey
    · rfl
    · rw [waiting_storeOrphan, hprev, if_neg fun h => hkey h.2]
      unfold waiting
      rw [hs₀.orphans]
      rfl

end child

/-- The child of a first block whose `Difficulty` is empty and not nil, with its `Hash`. -/
def emptyDifficulty (E : Env) (g : Block) : Block :=
  let header : BlockHeader := ⟨1, some (computeHash E g), some (rootOf E []), 1, 0, "", some []⟩
  ⟨header, [], some (E.sha256 (serializeHeader E header))⟩

theorem applyBlock_emptyDifficulty {target : ℤ} {g : Block} {st : NamecoinState}
    (hheight : g.header.height = 0) (hstatic : Static target (chainAfter E (emptyChain target 0) g st))
    (hwork : (workOf E (emptyDifficulty E g) : ℤ) ≤ target) (S : Heap) :
    ∃ r, (chainAfter E (emptyChain target 0) g st).applyBlock E S (emptyDifficulty E g) = .ok r := by
  have hone : (1 : UInt64) = nextHeight (chainAfter E (emptyChain target 0) g st) := by
    show (1 : UInt64) = g.header.height + 1
    rw [hheight]
    rfl
  have hnext : NextBlock E (chainAfter E (emptyChain target 0) g st) (emptyDifficulty E g) :=
    ⟨.inr rfl, hone, rfl, rfl, List.forall_mem_nil _, rfl, by rw [hstatic.target]; exact hwork⟩
  obtain ⟨data, -, happ⟩ := hnext.applyBlock (S := S) (HeadOK.after _ _ _) (.nil _)
  exact ⟨_, happ⟩

theorem lost_emptyDifficulty (hc : E.CollisionFree) {g : Block} (hg : g = blockAt E 0 none [] 0) :
    ∃ s₀ s s', Calls E s₀ [g, emptyDifficulty E g] s ∧ Calls E s₀ [emptyDifficulty E g, g] s' ∧
      blockKnown s (emptyDifficulty E g).hash 1 ∧ ¬ blockKnown s' (emptyDifficulty E g).hash 1 ∧
      ∀ k, waiting s' k = [] := by
  obtain ⟨target, hgt, hbt⟩ : ∃ t : ℤ, (workOf E g : ℤ) ≤ t ∧ (workOf E (emptyDifficulty E g) : ℤ) ≤ t :=
    ⟨_, le_max_left _ _, le_max_right _ _⟩
  obtain ⟨data, hfirst⟩ := first_quiet E 0 (hg ▸ hgt)
  have hstatic : Static target (chainAfter E (emptyChain target 0) g (atHeight 0 newState)) := by
    rw [hg]
    exact (static_emptyChain target 0).after _
  rw [← hg] at hfirst
  have hne : computeHash E (cloneBlock (emptyDifficulty E g)) ≠ computeHash E (emptyDifficulty E g) :=
      fun h =>
    ((cloneBlock_header_iff _).mp ((computeHash_cloneBlock_iff hc _).mp h)).2.2 rfl
  have hbg : computeHash E (emptyDifficulty E g) ≠ computeHash E g := fun h => by
    have hheader : (emptyDifficulty E g).header = g.header := serializeHeader_injective (hc h)
    have hone : (1 : UInt64) = 0 := (congrArg BlockHeader.height hheader).trans hfirst.height
    exact absurd hone (by decide)
  obtain ⟨⟨S', c'⟩, ha⟩ := applyBlock_emptyDifficulty hfirst.height hstatic hbt
    (persist E [.mem ∅] 0 g data)
  have h0 : (emptyDifficulty E g).header.height ≠ 0 := show (1 : UInt64) ≠ 0 by decide
  obtain ⟨s, hcalls, hknown⟩ := known_after_parent hfirst rfl h0 hbg ha
  obtain ⟨s', hcalls', hlost, hw⟩ := lost_before_parent hfirst rfl h0 rfl hbg hne
  exact ⟨_, s, s', hcalls, hcalls', hknown, hlost, hw⟩

/-- **A block that is lost if it comes before its parent**: the child of a first block with an empty
`Difficulty` that is not nil, and the `Hash` of its header. -/
theorem parked_copy_refused : ∃ (E : Env) (s₀ s s' : ChainService) (g b : Block), E.CollisionFree ∧
    computeHash E (cloneBlock b) ≠ computeHash E b ∧ Calls E s₀ [g, b] s ∧ Calls E s₀ [b, g] s' ∧
      blockKnown s b.hash b.header.height ∧ ¬ blockKnown s' b.hash b.header.height ∧
      ∀ k, waiting s' k = [] := by
  obtain ⟨s₀, s, s', hcalls, hcalls', hknown, hlost, hw⟩ :=
    lost_emptyDifficulty plainEnv_collisionFree rfl
  refine ⟨plainEnv, s₀, s, s', _, _, plainEnv_collisionFree, fun h => ?_, hcalls, hcalls',
    hknown, hlost, hw⟩
  exact ((cloneBlock_header_iff _).mp ((computeHash_cloneBlock_iff plainEnv_collisionFree _).mp h)).2.2
    rfl

end Namecoin.Service.Copies
