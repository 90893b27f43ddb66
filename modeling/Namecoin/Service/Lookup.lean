import Namecoin.Service.Mirror
import Namecoin.Service.Orphans

/-! # The chain for a parent

`ensureChainForParentUnlocked` is meant to return a chain whose head is the parent of a block. If the
parent is inside a chain, the chain is rebuilt from the store of a longest chain that has the parent,
by height; another branch may have written its blocks there in the meantime.

* `fork_iff`: when a fork ends in a given block;
* `parent_lookup`: in every state that calls lead to, a chain with the right head is returned in all
  orders of iteration if and only if there is a chain with that head, or the store of every longest
  chain that has the parent shows the branch of the parent;
* `wrong_branch`: a state in which the chain returned ends in another block. -/

namespace Namecoin.Service.Lookup

open Lib.ByteStrings Lib.WorkList Types.Defs Types.BlockCodec Types.SampleEnv State.Defs
open State.Effects Chain.Pow Chain.Stores Chain.Overlays Chain.Defs Chain.Apply Chain.Replay
open Chain.Reload Chain.Forks Chain.Backing Chain.Build Service.Defs Service.Turns Service.Scenes
open Service.Views Service.Orphans Service.Steady Service.Mirror

variable {E : Env} {visit : Finset ℕ → List ℕ} {s : ChainService} {index : ℤ} {blk : Block}

/-! ### Forks -/

/-- The store shows a block under the key of a height, as `ReplayBlocks` accepts it. -/
def ShowsBlock (E : Env) (S : Heap) (store : ℕ) (k : ℕ) (b : Block) : Prop :=
  ∃ data, get S store (encodeNamecoinBlockKey (UInt64.ofNat k)) = some data ∧
    StoredAs E ⟨UInt64.ofNat k, data⟩ b ∧ hashFits E b

/-- The store shows, from height 0 up to the given one, blocks each on top of the one before, the last
one of which has the given hash. -/
def ShowsBranch (E : Env) (S : Heap) (store : ℕ) (height : UInt64) (hash : Bytes) : Prop :=
  ∃ (blks : List Block) (r : ReplayState), Replayed E blks r ∧ r.headHash = some hash ∧
    blks.length = height.toNat + 1 ∧ ∀ k (hk : k < blks.length), ShowsBlock E S store k blks[k]

/-- The store shows something at height 0, but no block that can be replayed. -/
def ShowsNothing (E : Env) (S : Heap) (store : ℕ) (height : UInt64) : Prop :=
  height = 0 ∧ ∃ data, get S store (encodeNamecoinBlockKey 0) = some data ∧
    ∀ p, replayOne E replayStart ⟨0, data⟩ ≠ .ok p

theorem replayRun_of_replayed {blks : List Block} {r : ReplayState} (h : Replayed E blks r) :
    ∀ {f : ℕ → LoadedBlock}, (∀ k (hk : k < blks.length), StoredAs E (f k) blks[k] ∧ hashFits E blks[k]) →
      ∃ hashes, ReplayRun E replayStart ((List.range blks.length).map f) hashes r := by
  induction h with
  | start => exact fun _ => ⟨[], .nil _⟩
  | @step blks r b state _ hnext happly ih =>
    intro f hf
    obtain ⟨hashes, hrun⟩ := ih fun k hk => by
      have hold := hf k (by rw [List.length_append]; omega)
      rwa [List.getElem_append_left hk] at hold
    obtain ⟨⟨hdec, hroot⟩, hfits⟩ := hf blks.length (by simp)
    rw [List.getElem_concat_length rfl] at hdec hroot hfits
    refine ⟨hashes ++ [computeHash E b], ?_⟩
    rw [List.length_append, List.length_singleton, List.range_succ, List.map_append, List.map_singleton]
    exact hrun.snoc (replayOne_ok_iff.mpr ⟨b, state, hdec, hfits, hnext, hroot, happly, rfl, rfl⟩)

/-- **When a fork ends in a block with a given hash.** -/
theorem fork_iff {S : Heap} {store : ℕ} {base : NamecoinChain} {height : UInt64} {hash : Bytes} :
    (∃ f, base.forkUpToHeight E S height store = .ok f ∧ f.headHash = some hash) ↔
      height ≤ base.headHeight ∧ ShowsBranch E S store height hash := by
  constructor
  · rintro ⟨f, hf, hhash⟩
    obtain ⟨hle, lbs, hread, hheight, rfl⟩ := forkUpToHeight_ok_iff.mp hf
    have hne : (replayBlocks E none lbs replayStart).1.headHash ≠ none := fun hnone => by
      rw [show (replayBlocks E none lbs replayStart).1.headHash = some hash from hhash] at hnone
      cases hnone
    obtain ⟨hashes, hrun⟩ := (shown_of_read hread).replayRun height.toNat_lt
      (by rw [hheight, UInt64.ofNat_toNat]) hne
    obtain ⟨blks, hb, hall⟩ := ReplayRun.blocks hrun .start
    have hreads := readBlocks_get hread
    have hlen : blks.length = height.toNat + 1 := by
      rw [← hall.length_eq, ← hreads.length_eq, List.length_range]
    refine ⟨hle, blks, _, hb, hhash, hlen, fun k hk => ?_⟩
    have hkl : k < lbs.length := by rw [hall.length_eq]; exact hk
    obtain ⟨hget, hkey⟩ := hreads.get (i := k) (by rw [List.length_range]; omega) hkl
    obtain ⟨hstored, hfits⟩ := hall.get hkl hk
    simp only [List.get_eq_getElem, List.getElem_range] at hget hkey hstored hfits
    refine ⟨lbs[k].raw, hget, ?_, hfits⟩
    rwa [← hkey]
  · rintro ⟨hle, blks, r, hb, hhash, hlen, hshows⟩
    choose! data hget hstored hfits using hshows
    obtain ⟨hashes, hrun⟩ := replayRun_of_replayed hb (f := fun k => ⟨UInt64.ofNat k, data k⟩)
      fun k hk => ⟨hstored k hk, hfits k hk⟩
    have hread : readBlocks S store (List.range (height.toNat + 1)) =
        .ok ((List.range blks.length).map fun k =>
        ⟨UInt64.ofNat k, data k⟩) := by
      rw [← hlen]
      exact readBlocks_map fun k hk => ⟨hget k (List.mem_range.mp hk), rfl⟩
    have hend : (replayBlocks E none ((List.range blks.length).map fun k => ⟨UInt64.ofNat k, data k⟩)
        replayStart).1 = r :=
      congrArg Prod.fst hrun.replayBlocks_none
    have hheight : r.headHeight = height := by
      rw [hlen, List.range_succ, List.map_append, List.map_singleton] at hrun
      obtain ⟨-, -, -, -, -, hlast⟩ := ReplayRun.last hrun
      rw [hlast, UInt64.ofNat_toNat]
    refine ⟨_, forkUpToHeight_ok_iff.mpr ⟨hle, _, hread, by rw [hend]; exact hheight, rfl⟩, ?_⟩
    rw [hend]
    exact hhash

theorem fork_none_iff {S : Heap} {store : ℕ} {base : NamecoinChain} {height : UInt64} :
    (∃ f, base.forkUpToHeight E S height store = .ok f ∧ f.headHash = none) ↔
      height ≤ base.headHeight ∧ ShowsNothing E S store height := by
  constructor
  · rintro ⟨f, hf, hnone⟩
    obtain ⟨hle, -, -, hzero, -⟩ := fork_run hf
    obtain rfl := hzero hnone
    obtain ⟨-, lbs, hread, -, rfl⟩ := forkUpToHeight_ok_iff.mp hf
    cases readBlocks_get hread with
    | @cons _ lb _ rest hlb hrest =>
      cases hrest
      obtain ⟨k, raw⟩ := lb
      obtain ⟨hget, rfl⟩ := hlb
      refine ⟨hle, rfl, raw, hget, fun ⟨hash, r⟩ hr => ?_⟩
      have hrun : (replayBlocks E none [⟨0, raw⟩] replayStart).1 = r :=
        congrArg Prod.fst (ReplayRun.replayBlocks_none (.cons hr (.nil _)))
      obtain ⟨_, _, -, -, -, -, -, -, rfl⟩ := replayOne_ok_iff.mp hr
      have hhead : (replayBlocks E none [⟨0, raw⟩] replayStart).1.headHash = none := hnone
      rw [hrun] at hhead
      cases hhead
  · rintro ⟨hle, rfl, data, hget, hbad⟩
    have hread : readBlocks S store (List.range ((0 : UInt64).toNat + 1)) = .ok [⟨0, data⟩] := by
      refine readBlocks_map (f := fun _ => ⟨0, data⟩) fun k (hk : k ∈ [0]) => ?_
      rw [List.mem_singleton.mp hk]
      exact ⟨hget, rfl⟩
    have hend : replayBlocks E none [⟨0, data⟩] replayStart = (replayStart, false) := by
      rw [replayBlocks]
      cases hr : replayOne E replayStart ⟨0, data⟩ with
      | error e => rfl
      | ok p => exact absurd hr (hbad p)
    refine ⟨_, forkUpToHeight_ok_iff.mpr ⟨hle, _, hread, by rw [hend]; rfl, rfl⟩, ?_⟩
    rw [hend]
    rfl

/-! ### The base of a fork -/

theorem pickBase_keep {c : NamecoinChain} : ∀ {is : List ℕ},
    (∀ j ∈ is, ∀ d, s.chains[j]? = some d → d.headHeight ≤ c.headHeight) → pickBase s is (some c) = some c
  | [], _ => rfl
  | i :: is, h => by
    have hrest := pickBase_keep fun j hj => h j (List.mem_cons_of_mem _ hj)
    rw [pickBase.eq_def]
    dsimp only
    cases hi : s.chains[i]? with
    | none => exact hrest
    | some d =>
      dsimp only
      rw [if_neg (UInt64.not_lt.mpr (h i List.mem_cons_self d hi))]
      exact hrest

/-- The chain number `i` is visited first. -/
def favouring (i : ℕ) : MapOrder where
  visit _ chains := if i ∈ chains then i :: (chains.erase i).sort (· ≤ ·) else chains.sort (· ≤ ·)
  mem_visit _ chains j := by
    split_ifs with hi
    · rw [List.mem_cons, Finset.mem_sort, Finset.mem_erase]
      by_cases hj : j = i
      · simp [hj, hi]
      · simp [hj]
    · exact Finset.mem_sort _
  nodup_visit _ chains := by
    split_ifs
    · exact List.nodup_cons.mpr ⟨by simp, Finset.sort_nodup _ _⟩
    · exact Finset.sort_nodup _ _

theorem pickBase_favouring {is : Finset ℕ} {base : NamecoinChain} (h : Longest s is base) :
    ∃ i, pickBase s ((favouring i).visit 0 is) none = some base := by
  obtain ⟨⟨i, hi, hbase⟩, hmax⟩ := h
  refine ⟨i, ?_⟩
  have hvisit : (favouring i).visit 0 is = i :: (is.erase i).sort (· ≤ ·) := if_pos hi
  rw [hvisit, pickBase.eq_def]
  dsimp only
  rw [hbase]
  refine pickBase_keep fun j hj d hd => hmax j ?_ d hd
  exact Finset.mem_of_mem_erase ((Finset.mem_sort _).mp hj)

theorem exists_base {is : Finset ℕ} (hne : is.Nonempty) (hlt : ∀ i ∈ is, i < s.chains.length)
    (hvisit : ∀ is i, i ∈ visit is ↔ i ∈ is) : ∃ base, pickBase s (visit is) none = some base ∧
    Longest s is base := by
  cases hbase : pickBase s (visit is) none with
  | some base => exact ⟨base, rfl, longest_of_pickBase (hvisit is) hbase⟩
  | none =>
    obtain ⟨i, hi⟩ := hne
    have hnone := pickBase_none hbase i ((hvisit is i).mpr hi)
    rw [List.getElem?_eq_getElem (hlt i hi)] at hnone
    cases hnone

/-! ### Lookups -/

/-- **The lookup is right**: it succeeds, and the head of the chain that it returns is the parent. -/
def Finds (E : Env) (visit : Finset ℕ → List ℕ) (s : ChainService) (index : ℤ) (blk : Block) : Prop :=
  ∃ s₁ c i, ensureChainForParent E visit s index blk = .ok (s₁, c, i) ∧
    bytesEqual c.headHash blk.header.prevHash

/-- The store of a chain shows the branch of the block with the given hash. (The hash of no bytes
stands for the empty branch, which a store shows whose first block cannot be replayed.) -/
def ShowsParent (E : Env) (s : ChainService) (base : NamecoinChain) (height : UInt64)
    (hash : Bytes) : Prop :=
  height ≤ base.headHeight ∧
    (ShowsBranch E s.stores base.store height hash ∨
    (hash = [] ∧ ShowsNothing E s.stores base.store height))

theorem shows_congr {S S' : Heap} {store store' : ℕ} (h : ∀ key, entry S' store' key = entry S store key)
    {height : UInt64} {hash : Bytes} :
    (ShowsBranch E S' store' height hash ↔ ShowsBranch E S store height hash) ∧
      (ShowsNothing E S' store' height ↔ ShowsNothing E S store height) := by
  have hget : ∀ key, get S' store' key = get S store key := fun key => get_congr (h key)
  unfold ShowsBranch ShowsBlock ShowsNothing
  simp only [hget, and_self]

theorem showsParent_iff {base : NamecoinChain} {height : UInt64} {hash : Slice UInt8} :
    ShowsParent E s base height (elems hash) ↔
      ∃ f, base.forkUpToHeight E (newOverlayStore s.stores base.store).1 height s.stores.length = .ok f ∧
        bytesEqual f.headHash hash := by
  obtain ⟨hbranch, hnothing⟩ := @shows_congr E _ _ _ _
    (fun key => entry_newOverlayStore s.stores base.store key) height (elems hash)
  unfold ShowsParent
  rw [← hbranch, ← hnothing]
  constructor
  · rintro ⟨hle, hb | ⟨hnil, hn⟩⟩
    · obtain ⟨f, hf, hhash⟩ := fork_iff.mpr ⟨hle, hb⟩
      refine ⟨f, hf, ?_⟩
      rw [hhash]
      rfl
    · obtain ⟨f, hf, hnone⟩ := fork_none_iff.mpr ⟨hle, hn⟩
      refine ⟨f, hf, ?_⟩
      rw [hnone]
      exact hnil.symm
  · rintro ⟨f, hf, heq⟩
    have helems : elems f.headHash = elems hash := heq
    cases hhead : f.headHash with
    | none =>
      obtain ⟨hle, hn⟩ := fork_none_iff.mp ⟨f, hf, hhead⟩
      rw [hhead] at helems
      exact ⟨hle, .inr ⟨helems.symm, hn⟩⟩
    | some x =>
      rw [hhead] at helems
      obtain ⟨hle, hb⟩ := fork_iff.mp ⟨f, hf, hhead⟩
      rw [← helems]
      exact ⟨hle, .inl hb⟩

theorem metas_turn {o : Outcome ChainService Block Err} (ht : Turn E visit index s blk o) (h : Metas s) :
    Metas o.state :=
  ht.invariant (fun _ _ h => h) (fun _ _ _ ho => metas_origin ho h)
    (fun _ _ _ S c' ho _ => metas_attach S c' _ ho.lt_length (metas_origin ho h)) h

theorem metas_calls {S : Heap} {c₀ : NamecoinChain} {calls : List Block}
    (h : Calls E (newChainService E S c₀) calls s) : Metas s := by
  have hnew : Metas ⟨S, [c₀], 0, ∅, ∅, by simp⟩ := fun key m hm => by cases hm
  exact h.invariant (fun _ _ _ _ _ ht h => metas_turn ht h) (metas_indexChain hnew Nat.one_pos c₀)

/-- **The chain for a parent.** In every state that calls lead to, the lookup for a block whose
parent is in the index is right in all orders of iteration, if and only if the block has a parent and
either a chain has it as its head, or the store of every longest chain that the index names for it
shows the branch of the parent. -/
theorem parent_lookup {S : Heap} {c₀ : NamecoinChain} {calls : List Block}
    (h : Calls E (newChainService E S c₀) calls s) (index : ℤ) (blk : Block)
    (hheight : blk.header.height ≠ 0) {bm : BlockMeta}
    (hmeta : s.blockIndex.lookup (hashKeyHex blk.header.prevHash) = some bm) :
    (∀ (order : MapOrder) (turn : ℕ), Finds E (order.visit turn) s index blk) ↔
      blk.header.prevHash ≠ none ∧ ((∃ c ∈ s.chains, bytesEqual c.headHash blk.header.prevHash) ∨
        ∀ base, Longest s bm.chains base →
        ShowsParent E s base bm.height (elems blk.header.prevHash)) := by
  constructor
  · intro hfinds
    obtain ⟨s₁, c, i, hok, -⟩ := hfinds numbered 0
    have hsome : blk.header.prevHash ≠ none := by
      cases ensureChainForParent_ok_iff.mp hok with
      | empty h0 => exact absurd h0 hheight
      | fresh h0 => exact absurd h0 hheight
      | head _ hp => exact hp
      | fork _ hp => exact hp
    refine ⟨hsome, ?_⟩
    by_cases hhead : ∃ c ∈ s.chains, bytesEqual c.headHash blk.header.prevHash
    · exact .inl hhead
    · refine .inr fun base hbase => ?_
      obtain ⟨j, hpick⟩ := pickBase_favouring hbase
      obtain ⟨s₂, f, k, hok', hf⟩ := hfinds (favouring j) 0
      cases ensureChainForParent_ok_iff.mp hok' with
      | empty h0 => exact absurd h0 hheight
      | fresh h0 => exact absurd h0 hheight
      | head _ _ hfirst =>
        obtain ⟨hget, heq⟩ := firstChain_some hfirst
        exact absurd ⟨_, List.mem_of_getElem? hget, heq⟩ hhead
      | fork _ _ _ hm hpick' hfork =>
        cases hmeta.symm.trans hm
        cases hpick.symm.trans hpick'
        exact showsParent_iff.mpr ⟨f, hfork, hf⟩
  · rintro ⟨hsome, hcase⟩ order turn
    cases hfirst : findHeadByHash s blk.header.prevHash with
    | some e =>
      obtain ⟨c, i⟩ := e
      exact ⟨s, c, i, ensureChainForParent_ok_iff.mpr (.head hheight hsome hfirst),
        (firstChain_some hfirst).2⟩
    | none =>
      have hshows := hcase.resolve_left fun ⟨c, hc, heq⟩ => firstChain_none.mp hfirst c hc heq
      obtain ⟨hnonempty, hlt⟩ := metas_calls h _ _ hmeta
      obtain ⟨base, hpick, hbase⟩ := exists_base hnonempty hlt (order.mem_visit turn)
      obtain ⟨f, hfork, heq⟩ := showsParent_iff.mp (hshows base hbase)
      exact ⟨_, f, _, ensureChainForParent_ok_iff.mpr (.fork hheight hsome hfirst hmeta hpick hfork), heq⟩

/-- A block on top of a first block that has been replaced is found the chain of that block. -/
theorem parent_lookup_rivals : ∃ (E : Env) (cfg : PoWConfig) (g g' blk : Block) (s : ChainService),
    Calls E (newChainService E [.mem ∅] (configurePow cfg (newNamecoinChain 0))) [g, g'] s ∧
    blk.header.height ≠ 0 ∧
      (∃ bm, s.blockIndex.lookup (hashKeyHex blk.header.prevHash) = some bm) ∧
      (getLongestChain s).headHash ≠ blk.header.prevHash ∧
      ∀ (order : MapOrder) (turn : ℕ), Finds E (order.visit turn) s s.longestChainIndex blk := by
  obtain ⟨target, data, data', hg, hg'⟩ := plain_rivals
  obtain ⟨s, hd, hp, -, -, -, bm, hm, -, -⟩ :=
    two_firsts (C := fun _ _ => True) hg hg' plain_firsts_less True.intro fun _ _ => True.intro
  let blk : Block := blockAt plainEnv 1 (some (computeHash plainEnv (blockAt plainEnv 0 none [] 0))) [] 0
  have h0 : blk.header.height ≠ 0 := (by decide : (1 : UInt64) ≠ 0)
  refine ⟨plainEnv, staticConfig target, _, _, blk, s, hd.calls, h0, ⟨bm, hm⟩, fun heq => ?_, ?_⟩
  · rw [getLongestChain_eq (by rw [hp.index, hp.chains]; rfl)] at heq
    exact bytesLess_irrefl _ (Option.some.inj heq ▸ plain_firsts_less)
  · have hmem := List.mem_cons_self (a := chainAfter plainEnv (emptyChain target 0)
      (blockAt plainEnv 0 none [] 0) (atHeight 0 newState)) (l :=
      [chainAfter plainEnv (emptyChain target 0) (blockAt plainEnv 0 none [] 1) (atHeight 0 newState)])
    rw [← hp.chains] at hmem
    exact (parent_lookup hd.calls _ blk h0 hm).mpr ⟨Option.some_ne_none _, .inl ⟨_, hmem, rfl⟩⟩

/-- **The wrong fork**: after a late child, the first block of its chain has been replaced in the
store. Any other child of that block gets a chain that ends in the block of the other branch. -/
theorem wrong_fork {target : ℤ} {g g' a x : Block} {data' : Bytes} {st' : NamecoinState}
    (hc : E.CollisionFree) (hg' : First E target g' data' st')
    (hless : bytesLess (computeHash E g') (computeHash E g)) (hs : Late E g g' a data' s)
    (hmetas : Metas s) (hvisit : ∀ is i, i ∈ visit is ↔ i ∈ is) (index : ℤ) (h0 : x.header.height ≠ 0)
    (hprev : x.header.prevHash = some (computeHash E g)) :
    ∃ s₁ f i, ensureChainForParent E visit s index x = .ok (s₁, f, i) ∧
    f.headHash = some (computeHash E g') := by
  obtain ⟨c, c', hchains, hstore, hhash, hheight, hhash', hheight'⟩ := hs.chains
  obtain ⟨bm, hm, hbm, hmem⟩ := hs.entered
  have hother : computeHash E g' ≠ computeHash E g := fun heq => bytesLess_irrefl _ (heq ▸ hless)
  have hchild : computeHash E a ≠ computeHash E g := fun heq => by
    have hheader := serializeHeader_injective (hc heq)
    have h01 := hs.height.symm.trans ((congrArg BlockHeader.height hheader).trans hs.first)
    exact absurd h01 (by decide)
  have hhead : findHeadByHash s x.header.prevHash = none := by
    refine firstChain_none.mpr fun d hd' => ?_
    rw [hprev]
    rw [hchains, List.mem_cons, List.mem_singleton] at hd'
    rcases hd' with rfl | rfl
    · rw [hhash]
      exact hchild
    · rw [hhash']
      exact hother
  -- the base is the chain of `g` and `a`, and the first block its store shows is that of the other branch
  have hone := replayOne_stored (c := emptyChain target 0) rfl (hg'.accepted [] 0)
  rw [loaded, dataOf_eq hg'.marshal, hg'.height] at hone
  obtain ⟨f, hfork, hf⟩ : ∃ f, c.forkUpToHeight E (newOverlayStore s.stores c.store).1 bm.height
    s.stores.length = .ok f ∧ f.headHash = some (computeHash E g') := by
    have hget : get (newOverlayStore s.stores c.store).1 s.stores.length (encodeNamecoinBlockKey 0) =
    some data' := by
      unfold Namecoin.Chain.Stores.get
      rw [entry_newOverlayStore, hstore, hs.entry]
      exact cloneBytes_some (marshal_ne_nil hg'.marshal)
    have hread := readBlocks_map (f := fun _ => ⟨0, data'⟩) fun k (hk : k ∈ [0]) => by
      rw [List.mem_singleton.mp hk]
      exact ⟨hget, rfl⟩
    have hreplay : replayBlocks E none [⟨0, data'⟩] replayStart =
        (headOf (chainAfter E (emptyChain target 0) g' st'), false) :=
      ReplayRun.replayBlocks_none (.cons hone (.nil _))
    rw [hbm]
    refine ⟨_, forkUpToHeight_ok_iff.mpr ⟨UInt64.zero_le, _, hread, ?_, rfl⟩, ?_⟩
    · rw [List.map_singleton, hreplay]
      exact hg'.height
    · rw [List.map_singleton, hreplay]
      rfl
  obtain ⟨hnonempty, hlt⟩ := hmetas _ _ hm
  obtain ⟨base, hpick, hbase⟩ := exists_base hnonempty hlt hvisit
  have hlong : c.headHeight ≤ base.headHeight := hbase.2 0 hmem c (by rw [hchains]; rfl)
  have hbaseEq : base = c := by
    have hin := hbase.mem
    rw [hchains, List.mem_cons, List.mem_singleton] at hin
    rcases hin with heq | heq
    · exact heq
    · rw [heq, hheight, hheight'] at hlong
      exact absurd hlong (by decide)
  rw [hbaseEq] at hpick
  refine ⟨_, f, _, ensureChainForParent_ok_iff.mpr
    (.fork h0 ?_ hhead (by rw [hprev]; exact hm) hpick hfork), hf⟩
  rw [hprev]
  exact Option.some_ne_none _

/-- **A fork from the wrong branch**: the first block of a chain has been replaced in the store by
the first block of another branch. For another child of it, a chain is returned that ends in the
block of the other branch. -/
theorem wrong_branch : ∃ (E : Env) (cfg : PoWConfig) (calls : List Block) (s : ChainService)
      (blk : Block) (hash : Bytes),
    Calls E (newChainService E [.mem ∅] (configurePow cfg (newNamecoinChain 0))) calls s ∧
    blk.header.height ≠ 0 ∧
      (∃ bm, s.blockIndex.lookup (hashKeyHex blk.header.prevHash) = some bm) ∧
      blk.header.prevHash ≠ some hash ∧
      ∀ (order : MapOrder) (turn : ℕ) (index : ℤ), (∃ s₁ c i,
        ensureChainForParent E (order.visit turn) s index blk = .ok (s₁, c, i) ∧ c.headHash = some hash) ∧
        ¬ Finds E (order.visit turn) s index blk := by
  obtain ⟨target, g, g', a, b, data', st', s, s', hg', hless, -, ⟨hd, hs⟩, -⟩ := exists_late
  obtain ⟨bm, hm, -⟩ := hs.entered
  have hother : computeHash plainEnv g' ≠ computeHash plainEnv g :=
    fun heq => bytesLess_irrefl _ (heq ▸ hless)
  have h0 : a.header.height ≠ 0 := by rw [hs.height]; decide
  refine ⟨plainEnv, staticConfig target, _, s, a, computeHash plainEnv g', hd.calls, h0,
    ⟨bm, by rw [hs.prevHash]; exact hm⟩, ?_, fun order turn index => ?_⟩
  · rw [hs.prevHash]
    exact fun heq => hother (Option.some.inj heq).symm
  obtain ⟨s₁, f, i, hok, hf⟩ := wrong_fork plainEnv_collisionFree hg' hless hs (metas_calls hd.calls)
    (order.mem_visit turn) index h0 hs.prevHash
  refine ⟨⟨s₁, f, i, hok, hf⟩, ?_⟩
  rintro ⟨s₂, d, j, hok', heq⟩
  cases hok.symm.trans hok'
  rw [hf, hs.prevHash] at heq
  exact hother heq

end Namecoin.Service.Lookup
