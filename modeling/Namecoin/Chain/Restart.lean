import Namecoin.Chain.Reload

/-! # The target after a restart

`NewPeer` loads the chain and then configures its proof of work. `LoadNamecoinChain` rebuilds the
target with the default parameters and the default first target, and adjusts it at every block but the
first; the live chain uses the parameters and the target of its configuration, and does not adjust at a
block whose predecessor has the time 0.

* `restart_target`: the two agree on the runs of `Restartable`;
* `static_restart`: with a fixed target that is not the default one, they differ after one block. -/

namespace Namecoin.Chain.Restart

open Lib.Maps Lib.ByteStrings Types.Defs Types.BlockCodec Types.SampleEnv State.Defs State.Strict
open State.Effects Chain.Pow Chain.Stores Chain.Defs Chain.Apply Chain.Build Chain.Registration
open Chain.Reload

variable {E : Env} {cfg : PoWConfig} {blks : List Block} {S : Heap} {c : NamecoinChain}

/-- The chain of a node after a restart. -/
def restarted (E : Env) (cfg : PoWConfig) (S : Heap) (store : ℕ) : NamecoinChain :=
  configurePow cfg (loadNamecoinChain E S store).2

/-- The parameters every chain is loaded with. -/
def loadParams : PowParams := powParamsFromConfig zeroPoWConfig

/-- A block on top of the given ones is adjusted alike: it is the first one, or the configured
parameters are the default ones and the block before it has a time. -/
def Paced (cfg : PoWConfig) (blks : List Block) : Prop :=
  ∀ last, blks.getLast? = some last → powParamsFromConfig cfg = loadParams ∧ last.header.timestamp ≠ 0

/-- The runs at whose end the loop that loads a chain and the live chain have the same target: a block
is adjusted alike, and it has a difficulty or the targets before it have been the same. -/
inductive Restartable (cfg : PoWConfig) : List Block → Prop
  | empty : effectiveTarget cfg.target = effectiveTarget none → Restartable cfg []
  | next {blks : List Block} {blk : Block} : Paced cfg blks → Restartable cfg blks →
    Restartable cfg (blks ++ [blk])
  | stated {blks : List Block} {blk : Block} :
    Paced cfg blks → decodeDifficulty blk.header.difficulty ≠ none →
    Restartable cfg (blks ++ [blk])

theorem restartable_default (h : ∀ b ∈ blks, b.header.timestamp ≠ 0) :
    Restartable zeroPoWConfig blks := by
  induction blks using List.reverseRecOn with
  | nil => exact .empty rfl
  | append_singleton blks blk ih =>
    have hfront : ∀ b ∈ blks, b.header.timestamp ≠ 0 := fun b hb => h b (List.mem_append_left _ hb)
    exact .next (fun last hlast => ⟨rfl, hfront last (List.mem_of_getLast? hlast)⟩) (ih hfront)

/-! ### The parameters of a run -/

theorem LiveRun.powParams (h : LiveRun E cfg blks S c) : c.powParams = powParamsFromConfig cfg := by
  induction h with
  | empty => rfl
  | step hrun ha ih =>
    obtain ⟨st, data, -, -, -, -, rfl⟩ := (applyBlock_ok_iff hrun.reached.headOK).mp ha
    exact ih

theorem LiveRun.powTarget_some (h : LiveRun E cfg blks S c) : c.powTarget ≠ none := by
  induction h with
  | empty =>
    unfold configurePow newNamecoinChain
    simp
  | @step blks S S' c c' blk hrun ha ih =>
    obtain ⟨st, data, -, -, -, -, rfl⟩ := (applyBlock_ok_iff hrun.reached.headOK).mp ha
    refine nextTarget_ne_none fun hnone => ih ?_
    exact (Option.or_eq_none_iff.mp hnone).2

/-! ### The loop over the blocks of a run -/

/-- The target and the time after the loop of `rebuildPowState` over stored blocks. -/
def loadLoop (E : Env) (height : UInt64) (blks : List Block) : Option ℤ × Option Int64 :=
  loadPowLoop E height loadParams (blks.map (loaded E)) (some (effectiveTarget none)) none

/-- **One block more** adjusts the target, unless it is the first one. -/
theorem loadLoop_snoc {height : UInt64} {blk : Block}
    (hle : ∀ b ∈ blks ++ [blk], b.header.height ≤ height)
    (hp : ∃ data, marshal E (settleHash E blk) = .ok data) :
    loadLoop E height (blks ++ [blk]) =
      (match (loadLoop E height blks).2 with
        | some ts =>
          some (adjustDifficulty E ((decodeDifficulty blk.header.difficulty).or
            (loadLoop E height blks).1) ((blk.header.timestamp - ts) * second) loadParams.targetBlockTime
            loadParams.maxAdjustUp loadParams.maxAdjustDown)
        | none => (decodeDifficulty blk.header.difficulty).or (loadLoop E height blks).1,
      some blk.header.timestamp) := by
  have hheader : (Block.reloaded (settleHash E blk)).header = blk.header := settleHash_header blk
  have hmap : ∀ lb ∈ blks.map (loaded E), lb.height ≤ height := fun lb hlb => by
    obtain ⟨b, hb, rfl⟩ := List.mem_map.mp hlb
    exact hle b (List.mem_append_left _ hb)
  have hlast : ¬ height < (loaded E blk).height := UInt64.not_lt.mpr (hle blk (by simp))
  unfold loadLoop
  rw [List.map_append, List.map_singleton, loadPowLoop_append _ _ hmap, loadPowLoop, if_neg hlast,
    decode_loaded hp]
  simp only [hheader, loadPowLoop]
  rfl

theorem loadLoop_time {height : UInt64} {last : Block} (hle : ∀ b ∈ blks, b.header.height ≤ height)
    (hp : ∀ b ∈ blks, ∃ data, marshal E (settleHash E b) = .ok data) (hlast : blks.getLast? = some last) :
    (loadLoop E height blks).2 = some last.header.timestamp := by
  obtain ⟨front, rfl⟩ := List.getLast?_eq_some_iff.mp hlast
  rw [loadLoop_snoc hle (hp last (by simp))]

/-- **The loop and the live chain agree** after one block more. -/
theorem loadLoop_step {S' : Heap} {c' : NamecoinChain} {height : UInt64} {blk : Block}
    (hrun : LiveRun E cfg blks S c) (ha : c.applyBlock E S blk = .ok (S', c'))
    (hle : ∀ b ∈ blks ++ [blk], b.header.height ≤ height)
    (hprev : (loadLoop E height blks).1 = c.powTarget ∨ decodeDifficulty blk.header.difficulty ≠ none)
    (htop : Paced cfg blks) : (loadLoop E height (blks ++ [blk])).1 = c'.powTarget := by
  obtain ⟨m, -, hm⟩ := hrun.holds
  obtain ⟨m', -, hm'⟩ := (LiveRun.step hrun ha).holds
  obtain ⟨st, data, -, -, -, -, rfl⟩ := (applyBlock_ok_iff hrun.reached.headOK).mp ha
  have hblk : (decodeDifficulty blk.header.difficulty).or (loadLoop E height blks).1 =
      (decodeDifficulty blk.header.difficulty).or c.powTarget := by
    rcases hprev with h | h
    · rw [h]
    · obtain ⟨d, hd⟩ := Option.ne_none_iff_exists'.mp h
      rw [hd, Option.some_or, Option.some_or]
  rw [loadLoop_snoc hle (hm'.data blk (by simp)), hblk]
  show _ = nextTarget E c.powParams _ c.headTS _
  unfold nextTarget
  cases hl : blks.getLast? with
  | none =>
    obtain rfl := List.getLast?_eq_none_iff.mp hl
    rw [hrun.of_nil.2, if_neg (by simp [configurePow, newNamecoinChain])]
    rfl
  | some last =>
    obtain ⟨hparams, hts⟩ := htop last hl
    rw [loadLoop_time (fun b hb => hle b (List.mem_append_left _ hb)) hm.data hl,
      LiveRun.powParams hrun, hparams, (hm.stamp last hl).2.2.1, if_pos ⟨rfl, hts⟩]

theorem Restartable.loadLoop_target {height : UInt64} (h : Restartable cfg blks) :
    ∀ {S : Heap} {c : NamecoinChain}, LiveRun E cfg blks S c → (∀ b ∈ blks, b.header.height ≤ height) →
    (loadLoop E height blks).1 = c.powTarget := by
  induction h with
  | empty h =>
    intro S c hrun _
    rw [hrun.of_nil.2]
    exact congrArg some h.symm
  | next htop _ ih =>
    intro S c hrun hle
    obtain ⟨S₀, c₀, hrun₀, ha⟩ := hrun.last
    exact loadLoop_step hrun₀ ha hle (.inl (ih hrun₀ fun b hb => hle b (List.mem_append_left _ hb))) htop
  | stated htop hd =>
    intro S c hrun hle
    obtain ⟨S₀, c₀, hrun₀, ha⟩ := hrun.last
    exact loadLoop_step hrun₀ ha hle (.inr hd) htop

/-! ### The restarted chain -/

theorem restarted_target (hc : E.CollisionFree) {front : List Block} {blk : Block}
    (hrun : LiveRun E cfg (front ++ [blk]) S c) (hlen : (front ++ [blk]).length ≤ 2 ^ 64) :
    nextPowTarget (restarted E cfg S c.store) =
      some ((loadLoop E c.headHeight (front ++ [blk])).1.getD (effectiveTarget none)) := by
  obtain ⟨seed, hload⟩ := hrun.load hc hlen
  obtain ⟨m, -, hm⟩ := hrun.holds
  have hhead : ¬ (c.headHash = none ∧ c.headHeight = 0) := fun h => by simpa using hm.empty.mp h.1
  unfold restarted nextPowTarget configurePow
  rw [hload]
  simp only [reduceCtorEq, false_or, if_neg hhead]
  rfl

/-- **A restart does not change the target** of the runs of `Restartable`, nor of
a chain without blocks. -/
theorem restart_target (hc : E.CollisionFree) (hrun : LiveRun E cfg blks S c)
    (hlen : blks.length ≤ 2 ^ 64) (h : blks = [] ∨ Restartable cfg blks) :
    nextPowTarget (restarted E cfg S c.store) = nextPowTarget c := by
  rcases List.eq_nil_or_concat' blks with rfl | ⟨front, blk, rfl⟩
  · obtain ⟨m, hS, hm⟩ := hrun.holds
    have hscan : scanBlocks S c.store = [] := by rw [hS, hm.store, hm.scanBlocks hlen, List.map_nil]
    have hload : (loadNamecoinChain E S c.store).2 = newNamecoinChain c.store := by
      unfold loadNamecoinChain loadScanned
      rw [hscan]
    rw [restarted, hload, hrun.of_nil.2]
    rfl
  · obtain ⟨m, -, hm⟩ := hrun.holds
    have hle : ∀ b ∈ front ++ [blk], b.header.height ≤ c.headHeight := fun b hb => by
      rw [(hm.stamp blk (by simp)).2.1]
      exact hm.height_le hlen (by simp) (loaded E b) (List.mem_map_of_mem hb)
    have htarget := (h.resolve_left (by simp)).loadLoop_target hrun hle
    obtain ⟨t, ht⟩ := Option.ne_none_iff_exists'.mp (LiveRun.powTarget_some hrun)
    rw [restarted_target hc hrun hlen, htarget, nextPowTarget, ht]
    rfl

/-! ### Runs of empty blocks -/

theorem applyBlock_quiet (hok : HeadOK c.headHash) (hs : c.state.expires = ∅)
    (hwork : (workOf E (blockOn E c [] 0) : ℤ) ≤ effectiveTarget c.powTarget) :
    ∃ S', c.applyBlock E S (blockOn E c [] 0) =
      .ok (S', chainAfter E c (blockOn E c [] 0) (setHeight (nextHeight c) c.state)) := by
  have hstep : StrictRun E [] (atHeight (nextHeight c) c.state) (setHeight (nextHeight c) c.state) := by
    rw [atHeight_of_no_expires hs]
    exact .nil _
  obtain ⟨data, -, ha⟩ := applyBlock_blockOn hok (by simp) hstep hwork
  exact ⟨_, ha⟩

theorem quiet_live (E : Env) : ∃ (target : ℤ) (m : Map String Bytes) (c : NamecoinChain),
    defaultTarget < target ∧ Static target c ∧
      LiveRun E (staticConfig target) [blockAt E 0 none [] 0] [.mem m] c := by
  let blk := blockAt E 0 none [] 0
  let target : ℤ := 2 ^ 240 + workOf E blk + 1
  have hempty : LiveRun E (staticConfig target) [] [.mem ∅] (emptyChain target 0) := .empty
  have hwork : (workOf E blk : ℤ) ≤ target := by
    show (workOf E blk : ℤ) ≤ 2 ^ 240 + workOf E blk + 1
    omega
  obtain ⟨S, ha⟩ := applyBlock_quiet hempty.reached.headOK rfl hwork
  have hrun := hempty.step ha
  obtain ⟨m, rfl, -⟩ := hrun.holds
  have hlt : (2 : ℤ) ^ 240 < 2 ^ 240 + workOf E blk + 1 := by omega
  exact ⟨target, m, _, hlt, (static_emptyChain target 0).after _, hrun⟩

/-- **With a fixed target other than the default one**, a node expects another target after a restart. -/
theorem static_restart : ∃ (E : Env) (cfg : PoWConfig) (blks : List Block) (S : Heap) (c : NamecoinChain),
    E.CollisionFree ∧ LiveRun E cfg blks S c ∧ blks.length = 1 ∧
      nextPowTarget (restarted E cfg S c.store) ≠ nextPowTarget c := by
  obtain ⟨target, m, c, hlt, hstatic, hrun⟩ := quiet_live plainEnv
  refine ⟨plainEnv, _, _, _, c, plainEnv_collisionFree, hrun, rfl, ?_⟩
  obtain ⟨m', -, hm⟩ := hrun.holds
  have hle : ∀ b ∈ [] ++ [blockAt plainEnv 0 none [] 0], b.header.height ≤ c.headHeight := fun b hb => by
    rw [(hm.stamp _ rfl).2.1]
    simp at hb
    rw [hb]
    exact UInt64.le_refl _
  have hload := restarted_target plainEnv_collisionFree
    (show LiveRun plainEnv _ ([] ++ [_]) _ c from hrun) (by simp)
  rw [hload, loadLoop_snoc hle (hm.data _ (by simp)), nextPowTarget, hstatic.target]
  intro heq
  have htarget : defaultTarget = target := Option.some.inj heq
  exact absurd htarget (ne_of_lt hlt)

/-- The headers of two empty blocks whose hashes are `[1]` and `[2]`. -/
def firstHeader : BlockHeader := ⟨0, none, some [0], 1, 0, "", none⟩

@[inherit_doc firstHeader]
def secondHeader : BlockHeader := ⟨1, some [1], some [0], 1, 0, "", none⟩

/-- The primitives that give these headers their hashes. -/
def twoEnv : Env := listedEnv [serializeHeader plainEnv firstHeader,
    serializeHeader plainEnv secondHeader]

theorem twoEnv_root : rootOf twoEnv [] = [0] := by
  show listedHash [serializeHeader plainEnv firstHeader, serializeHeader plainEnv secondHeader] [] = [0]
  refine if_neg fun hmem => ?_
  simp only [List.mem_cons, List.not_mem_nil, or_false] at hmem
  rcases hmem with h | h
  · exact plainEnv.json.encode_ne_nil _ h.symm
  · exact plainEnv.json.encode_ne_nil _ h.symm

theorem twoEnv_first {b : Block} (h : b.header = firstHeader) : computeHash twoEnv b = [1] := by
  show listedHash _ (serializeHeader plainEnv b.header) = [1]
  rw [h]
  unfold listedHash
  rw [if_pos (by simp), List.idxOf_cons_self]
  rfl

theorem twoEnv_second {b : Block} (h : b.header = secondHeader) : computeHash twoEnv b = [2] := by
  have hne : serializeHeader plainEnv firstHeader ≠ serializeHeader plainEnv secondHeader := fun he =>
    absurd (congrArg BlockHeader.height (serializeHeader_injective he)) (by decide)
  show listedHash _ (serializeHeader plainEnv b.header) = [2]
  rw [h]
  unfold listedHash
  rw [if_pos (by simp), List.idxOf_cons_ne _ hne, List.idxOf_cons_self]
  rfl

/-- The chain of a node with the default configuration, before any block and after
the first one of `twoEnv`. -/
def defaultChain : NamecoinChain := configurePow zeroPoWConfig (newNamecoinChain 0)

@[inherit_doc defaultChain]
def oneBlock : NamecoinChain :=
  chainAfter twoEnv defaultChain (blockOn twoEnv defaultChain [] 0) (setHeight 0 defaultChain.state)

theorem twoEnv_one : computeHash twoEnv (blockOn twoEnv defaultChain [] 0) = [1] := by
  refine twoEnv_first ?_
  show BlockHeader.mk 0 none (some (rootOf twoEnv [])) 1 0 "" none = firstHeader
  rw [twoEnv_root]
  rfl

theorem twoEnv_two : computeHash twoEnv (blockOn twoEnv oneBlock [] 0) = [2] := by
  refine twoEnv_second ?_
  show BlockHeader.mk (0 + 1) (some (computeHash twoEnv (blockOn twoEnv defaultChain [] 0)))
    (some (rootOf twoEnv [])) 1 0 "" none = secondHeader
  rw [twoEnv_root, twoEnv_one]
  rfl

/-- The first of two blocks on the default chain. -/
theorem apply_one : ∃ S, defaultChain.applyBlock twoEnv [.mem ∅] (blockOn twoEnv defaultChain [] 0) =
    .ok (S, oneBlock) :=
  applyBlock_quiet rfl rfl (by rw [workOf, twoEnv_one]; decide)

/-- The second of two blocks on the default chain. -/
theorem apply_two (S : Heap) : ∃ S', oneBlock.applyBlock twoEnv S (blockOn twoEnv oneBlock [] 0) =
    .ok (S', chainAfter twoEnv oneBlock (blockOn twoEnv oneBlock [] 0) (setHeight 1 oneBlock.state)) :=
  applyBlock_quiet (HeadOK.after _ _ _) rfl (by rw [workOf, twoEnv_two]; decide)

/-- With the default configuration, two blocks with a time are loaded with the live target. -/
theorem restart_target_default : ∃ (E : Env) (blks : List Block) (S : Heap) (c : NamecoinChain),
    E.CollisionFree ∧ LiveRun E zeroPoWConfig blks S c ∧ blks.length = 2 ∧
    Restartable zeroPoWConfig blks ∧
      nextPowTarget (restarted E zeroPoWConfig S c.store) = nextPowTarget c := by
  have hfree : twoEnv.CollisionFree := listedEnv_collisionFree (by simp)
  obtain ⟨S₁, hone⟩ := apply_one
  obtain ⟨S₂, htwo⟩ := apply_two S₁
  have hrun := (LiveRun.step .empty hone : LiveRun twoEnv zeroPoWConfig _ _ _).step htwo
  have hstamps : Restartable zeroPoWConfig [blockOn twoEnv defaultChain [] 0,
      blockOn twoEnv oneBlock [] 0] :=
    restartable_default (by simp [blockOn, blockAt])
  exact ⟨twoEnv, _, S₂, _, hfree, hrun, rfl, hstamps, restart_target hfree hrun (by simp) (.inr hstamps)⟩

end Namecoin.Chain.Restart
