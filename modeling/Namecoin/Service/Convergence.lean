import Namecoin.Chain.Lines
import Namecoin.Service.Choice
import Namecoin.Service.Lookup

/-! # The order in which blocks are delivered

Blocks that are delivered in another order take other ways through the service: on top of a head, on a
fork, or through the pool. What they should lead to is the best of all lines that consist of them
(`Leads`), whatever the order is.

* `Sighted`: the condition on a turn: if a fork is needed for a block, the store of every chain that
  may be forked shows the branch of its parent;
* `Charted`, `Accounted`: what is kept in every turn: the chains of the service are lines, and every
  block that has been delivered is indexed, waits for its parent, or is accepted by no line;
* `leads_of_deliveries`: the canonical chain is the best line;
* `order_free`: **the order of delivery does not matter**;
* `order_matters`: without the condition it does. -/

namespace Namecoin.Service.Convergence

open Lib.Maps Lib.Ops Lib.ByteStrings Lib.WorkList Types.Defs Types.BlockCodec Types.SampleEnv
open State.Defs Chain.Pow Chain.Stores Chain.Overlays Chain.Defs Chain.Apply Chain.Rejections
open Chain.Forks Chain.Lines Chain.Build Service.Defs Service.Turns Service.Scenes Service.Views
open Service.Orphans Service.Choice Service.Steady Service.Mirror Service.Lookup

variable {E : Env} {cfg : PoWConfig} {B : List Block} {visit : Finset ℕ → List ℕ}
  {s s₁ : ChainService} {index : ℤ} {a b blk : Block} {c c' d : NamecoinChain} {i : ℕ} {S : Heap}

/-! ### The best line -/

/-- The chain is one that a line leads to, on some store. -/
def Grown (E : Env) (cfg : PoWConfig) (B : List Block) (c : NamecoinChain) : Prop :=
  ∃ blks d n, Line E cfg B blks d ∧ c = { d with store := n }

/-- The chain is that of a line, and no line has a better head. -/
structure Leads (E : Env) (cfg : PoWConfig) (B : List Block) (l : NamecoinChain) : Prop where
  grown : Grown E cfg B l
  best : ∀ blks d x, Line E cfg B blks d → d.headHash = some x → AtLeast l d.headHeight x

/-- What a service shows of its canonical chain. -/
structure SameView (s s' : ChainService) : Prop where
  headHash : (getLongestChain s).headHash = (getLongestChain s').headHash
  headHeight : (getLongestChain s).headHeight = (getLongestChain s').headHeight
  state : (getLongestChain s).state = (getLongestChain s').state

theorem Grown.headOK (h : Grown E cfg B c) : HeadOK c.headHash := by
  obtain ⟨blks, d, n, hl, rfl⟩ := h
  exact hl.headOK

theorem Grown.move (h : Grown E cfg B c) (n : ℕ) : Grown E cfg B { c with store := n } := by
  obtain ⟨blks, d, k, hl, rfl⟩ := h
  exact ⟨blks, d, n, hl, rfl⟩

theorem Leads.unique (hc : E.CollisionFree) (ht : Telling B) (h : Leads E cfg B c)
    (h' : Leads E cfg B c') :
    ∃ n, c' = { c with store := n } := by
  obtain ⟨blks, d, n, hl, rfl⟩ := h.grown
  obtain ⟨blks', d', n', hl', rfl⟩ := h'.grown
  suffices hhash : d'.headHash = d.headHash by
    rw [hl.unique hc ht hl' hhash]
    exact ⟨n', rfl⟩
  cases hx : d.headHash with
  | none =>
    cases hy : d'.headHash with
    | none => rfl
    | some y => exact absurd hx (h.best _ _ y hl' hy).1
  | some x =>
    have hat := h'.best _ _ x hl hx
    cases hy : d'.headHash with
    | none => exact absurd hy hat.1
    | some y =>
      obtain ⟨-, hat⟩ := hat
      obtain ⟨-, hat'⟩ := h.best _ _ y hl' hy
      dsimp only at hat hat'
      rw [hy] at hat
      rw [hx] at hat'
      rcases hat with hlt | ⟨heq, hless⟩
      · rcases hat' with hgt | ⟨heq, -⟩
        · exact absurd hgt (UInt64.lt_asymm hlt)
        · exact absurd hlt (heq ▸ UInt64.lt_irrefl _)
      · rcases hat' with hgt | ⟨-, hless'⟩
        · exact absurd hgt (heq ▸ UInt64.lt_irrefl _)
        · rcases bytesLess_trichotomy x y with h1 | h1 | h1
          · exact absurd h1 hless
          · exact congrArg some h1.symm
          · exact absurd h1 hless'

/-! ### Blocks that no line accepts -/

/-- No line accepts the block. -/
def Dead (E : Env) (cfg : PoWConfig) (B : List Block) (b : Block) : Prop :=
  ∀ blks d S r, Line E cfg B blks d → (d.headHash ≠ none → b.header.height ≠ 0) →
    d.applyBlock E S b ≠ .ok r

theorem Dead.twin (h : Dead E cfg B a) (ht : Twin E a b) : Dead E cfg B b := by
  intro blks d S ⟨S', d'⟩ hl hz ha
  refine h blks d S (S', d') hl (fun hn => ?_) (ht.symm.applyBlock hl.headOK ha)
  rw [ht.header]
  exact hz hn

theorem dead_of_not_fits (h : ¬ hashFits E b) : Dead E cfg B b :=
  fun _ _ _ _ hl _ ha => h (applyBlock_fits hl.headOK ha)

theorem elems_ne_nil {h : Slice UInt8} (hok : HeadOK h) (hne : h ≠ none) : elems h ≠ [] := by
  cases h with
  | none => exact absurd rfl hne
  | some x =>
    rintro rfl
    cases hok

theorem headOK_ext {h h' : Slice UInt8} (hok : HeadOK h) (hok' : HeadOK h') (heq : elems h = elems h') :
    h = h' := by
  cases h with
  | none =>
    by_contra hne
    exact elems_ne_nil hok' (Ne.symm hne) heq.symm
  | some x =>
    cases h' with
    | none => exact absurd heq (elems_ne_nil hok (Option.some_ne_none _))
    | some y => exact congrArg some heq

theorem hashKeyHex_inj {h h' : Slice UInt8} (heq : hashKeyHex h = hashKeyHex h') : elems h = elems h' :=
  hexEncode_injective heq

theorem line_parent {blks : List Block} {r : Heap × NamecoinChain} (hl : Line E cfg B blks d)
    (h0 : b.header.height ≠ 0) (ha : d.applyBlock E S b = .ok r) :
    d.headHash ≠ none ∧ elems d.headHash = elems b.header.prevHash := by
  have hnext := ensureNextBlockFollows_ok_iff.mp (applyBlock_follows hl.headOK ha)
  split_ifs at hnext with hn
  · exact absurd hnext.1 h0
  · exact ⟨hn, (show elems b.header.prevHash = elems d.headHash from hnext.2).symm⟩

theorem dead_of_no_parent (h0 : b.header.height ≠ 0) (hp : b.header.prevHash = none) :
    Dead E cfg B b := by
  intro blks d S r hl _ ha
  obtain ⟨hne, heq⟩ := line_parent hl h0 ha
  rw [hp] at heq
  exact elems_ne_nil hl.headOK hne heq

/-! ### The conditions -/

/-- The header of a block determines its transactions, and is kept in the pool. (`cloneBlock` turns a
slice that is not nil and empty into nil, which changes the hash of the header.) -/
structure Regular (B : List Block) : Prop where
  telling : Telling B
  cloned : ∀ b ∈ B, b.header.height ≠ 0 → (cloneBlock b).header = b.header

/-- The condition on a turn: if the parent of a block that is not known yet is indexed and no
chain has it as its head, the store of every longest chain that the index names for it shows
the branch of the parent. -/
def Sighted (E : Env) (s : ChainService) (blk : Block) : Prop :=
  ¬ blockKnown s blk.hash blk.header.height → blk.header.height ≠ 0 →
    ∀ m, s.blockIndex.lookup (hashKeyHex blk.header.prevHash) = some m →
      (∀ c ∈ s.chains, ¬ bytesEqual c.headHash blk.header.prevHash) →
      ∀ base, Longest s m.chains base → ShowsParent E s base m.height (elems blk.header.prevHash)

/-! ### The chains and the index -/

/-- The chains of the service are lines, what they can read are blocks of `B`, and the index has heads
of lines, none of which is better than the canonical one. -/
structure Charted (E : Env) (cfg : PoWConfig) (B : List Block) (s : ChainService) :
    Prop extends Sound E s where
  grown : ∀ c ∈ s.chains, Grown E cfg B c
  stems : Readable (Stems E B) s
  index : ∀ key m, s.blockIndex.lookup key = some m → ∃ blks d, Line E cfg B blks d ∧ d.headHash ≠ none ∧
    key = hashKeyHex d.headHash ∧ m.height = d.headHeight
  ranked : Ranked E (getLongestChain s) s
  best : ∀ blks d x, Line E cfg B blks d → d.headHash = some x →
    s.blockIndex.lookup (hashKeyHex (some x)) ≠ none → AtLeast (getLongestChain s) d.headHeight x

theorem Charted.withPool (h : Charted E cfg B s) (pool : Map String (List Block)) :
    Charted E cfg B { s with orphansByPrev := pool } :=
  ⟨h.toSound.pool pool, h.grown, h.stems.congr rfl rfl, h.index,
    ⟨h.ranked.readable.congr rfl rfl, h.ranked.best⟩, h.best⟩

theorem grown_empty (h : Grown E cfg B c) (S : Heap) : Grown E cfg B (newEmptyChainFrom S c).2 := by
  obtain ⟨blks, d, n, hl, rfl⟩ := h
  obtain ⟨hseed, hparams⟩ := hl.params
  refine ⟨[], _, S.length, .start, ?_⟩
  have hstart : configurePow cfg (newNamecoinChain 0) =
    ⟨0, newState, none, 0, some (effectiveTarget cfg.target), some (effectiveTarget cfg.target),
    powParamsFromConfig cfg, 0⟩ := by
    unfold configurePow
    rw [if_pos (.inr ⟨rfl, rfl⟩)]
    rfl
  unfold newEmptyChainFrom
  dsimp only
  rw [hseed, hparams, hstart]
  rfl

theorem Sighted.fork_head (h : Sighted E s blk) (hvisit : ∀ is i, i ∈ visit is ↔ i ∈ is)
    (hk : ¬ blockKnown s blk.hash blk.header.height) (h0 : blk.header.height ≠ 0) {m : BlockMeta}
    {base f : NamecoinChain} (hhead : findHeadByHash s blk.header.prevHash = none)
    (hm : s.blockIndex.lookup (hashKeyHex blk.header.prevHash) = some m)
    (hbase : pickBase s (visit m.chains) none = some base)
    (hf : base.forkUpToHeight E (newOverlayStore s.stores base.store).1 m.height s.stores.length =
    .ok f) :
    elems f.headHash = elems blk.header.prevHash := by
  have hshows := h hk h0 m hm (firstChain_none.mp hhead) base (longest_of_pickBase (hvisit _) hbase)
  obtain ⟨f', hf', heq⟩ := showsParent_iff.mp hshows
  cases hf.symm.trans hf'
  exact heq

/-- **The chain that is made for a block is a line**, and no other line accepts the block. -/
theorem Charted.made (h : Charted E cfg B s) (hc : E.CollisionFree) (ht : Telling B)
    (hvisit : ∀ is i, i ∈ visit is ↔ i ∈ is) (hs : Sighted E s blk)
    (hk : ¬ blockKnown s blk.hash blk.header.height) (ho : Origin E visit s index blk s₁ c i) :
    Grown E cfg B c ∧
      ∀ blks d T r, Line E cfg B blks d → (d.headHash ≠ none → blk.header.height ≠ 0) →
      d.applyBlock E T blk = .ok r →
        d.headHash = c.headHash := by
  -- a block of height 0 is only accepted by the line without blocks, and another one by lines that end
  -- in its parent
  have hfirst : blk.header.height = 0 → c.headHash = none → ∀ blks d T r, Line E cfg B blks d →
      (d.headHash ≠ none → blk.header.height ≠ 0) → d.applyBlock E T blk = .ok r →
      d.headHash = c.headHash := by
    intro h0 hn blks d T r _ hz _
    rw [hn]
    by_contra hne
    exact hz hne h0
  have hother : blk.header.height ≠ 0 → HeadOK c.headHash → elems c.headHash = elems blk.header.prevHash →
      ∀ blks d T r, Line E cfg B blks d → (d.headHash ≠ none → blk.header.height ≠ 0) →
      d.applyBlock E T blk = .ok r → d.headHash = c.headHash := by
    intro h0 hok heq blks d T r hl _ ha
    exact headOK_ext hl.headOK hok ((line_parent hl h0 ha).2.trans heq.symm)
  cases ho with
  | empty h0 hf =>
    obtain ⟨hi, hempty⟩ := firstChain_some hf
    exact ⟨h.grown c (List.mem_of_getElem? hi), hfirst h0 hempty.1⟩
  | fresh h0 _ _ hr => exact ⟨grown_empty (h.grown _ (List.mem_of_getElem? hr)) _, hfirst h0 rfl⟩
  | head h0 _ hf =>
    obtain ⟨hi, heq⟩ := firstChain_some hf
    have hgrown := h.grown c (List.mem_of_getElem? hi)
    exact ⟨hgrown, hother h0 hgrown.headOK heq⟩
  | @fork m base _ h0 hp hhead hm hbase hf =>
    have heq := hs.fork_head hvisit hk h0 hhead hm hbase hf
    have hok : HeadOK c.headHash := (sane_fork hf).1
    refine ⟨?_, hother h0 hok heq⟩
    obtain ⟨blks, d, hl, hne, hkey, hheight⟩ := h.index _ m hm
    obtain ⟨_, dbase, n, hlbase, hbaseEq⟩ := h.grown base (pickBase_mem hbase)
    have hhash : c.headHash = d.headHash := headOK_ext hok hl.headOK (heq.trans (hashKeyHex_inj hkey))
    obtain ⟨hle, -⟩ := fork_run hf
    have hfork := hl.fork hc ht hne ?_ ?_ hf (fun k hk data hd => ?_) hhash
    · exact ⟨blks, d, _, hl, hfork⟩
    · rw [hbaseEq]
      exact hlbase.params.1.trans hl.params.1.symm
    · rw [hbaseEq]
      exact hlbase.params.2.trans hl.params.2.symm
    · rw [entry_newOverlayStore] at hd
      exact h.stems.views base (pickBase_mem hbase) k (UInt64.le_trans hk hle) data hd

theorem Charted.dead (h : Charted E cfg B s) (hc : E.CollisionFree) (ht : Telling B)
    (hvisit : ∀ is i, i ∈ visit is ↔ i ∈ is) (hs : Sighted E s blk)
    (hk : ¬ blockKnown s blk.hash blk.header.height) (ho : Origin E visit s index blk s₁ c i) {e : Err}
    (ha : c.applyBlock E s₁.stores blk = .error e) :
    Dead E cfg B blk := by
  intro blks d T ⟨T', d'⟩ hl hz hacc
  obtain ⟨⟨blks₀, d₀, n, hl₀, rfl⟩, hparent⟩ := h.made hc ht hvisit hs hk ho
  obtain rfl := hl₀.unique hc ht hl (hparent blks d T _ hl hz hacc)
  obtain ⟨T'', hok⟩ := applyBlock_at n hl.headOK hacc s₁.stores
  rw [hok] at ha
  cases ha

theorem origin_index (h : Sound E s) (ho : Origin E visit s index blk s₁ c i)
    {key : String} {m : BlockMeta} (hm : s₁.blockIndex.lookup key = some m) :
    ∃ m₀, s.blockIndex.lookup key = some m₀ ∧ m₀.height = m.height := by
  cases ho with
  | empty => exact ⟨m, hm, rfl⟩
  | fresh => exact ⟨m, hm, rfl⟩
  | head => exact ⟨m, hm, rfl⟩
  | @fork m' base _ _ _ _ _ hbase hf =>
    obtain ⟨hle, hheight, hstore, -⟩ := fork_run hf
    have hread := h.readable.add (pickBase_mem hbase) hstore (hheight ▸ hle) (sane_fork hf)
    have hmem : c ∈ (addChain s (newOverlayStore s.stores base.store).1 c).chains :=
      List.mem_append_right _ (List.mem_singleton_self c)
    -- what is registered is in the index already, where its height is kept
    have hall := indexChain_induct (E := E) (s := addChain s (newOverlayStore s.stores base.store).1 c)
      (P := fun s' => (s.blockIndex.lookup key ≠ none → s'.blockIndex.lookup key ≠ none) ∧ ∀ m,
        s'.blockIndex.lookup key = some m → ∃ m₀, s.blockIndex.lookup key = some m₀ ∧
        m₀.height = m.height)
      (i := s.chains.length) (c := c) (fun s' height b hle hb ih => ?_) ⟨fun h => h,
        fun m hm => ⟨m, hm, rfl⟩⟩
    · exact hall.2 m hm
    · refine ⟨fun hne => lookup_registerBlock_ne_none (ih.1 hne), fun m hm => ?_⟩
      rw [lookup_registerBlock] at hm
      split_ifs at hm with hkey
      · obtain ⟨data, hentry, hne, hdec⟩ := blockAtHeight_ok_iff.mp hb
        have hknown := (hread.views c hmem height hle data hentry).1 b hne hdec hkey.1
        rw [← hkey.2] at hknown
        obtain ⟨old, hold⟩ := Option.ne_none_iff_exists'.mp (ih.1 hknown)
        rw [hold] at hm
        cases hm
        exact ih.2 old hold
      · exact ih.2 m hm

/-- **A chain is made for a block.** -/
theorem Charted.origin (h : Charted E cfg B s) (hc : E.CollisionFree) (ht : Telling B)
    (hvisit : ∀ is i, i ∈ visit is ↔ i ∈ is) (hs : Sighted E s blk)
    (hk : ¬ blockKnown s blk.hash blk.header.height) (ho : Origin E visit s index blk s₁ c i) :
    Charted E cfg B s₁ ∧ ∀ k, s₁.blockIndex.lookup k = none ↔ s.blockIndex.lookup k = none := by
  obtain ⟨hsound, hkeys⟩ := sound_origin ho h.toSound
  have hlong := ho.getLongestChain
  refine ⟨⟨hsound, fun d hd => ?_, readable_origin ho h.stems, fun key m hm => ?_, ?_,
    fun blks d x hl hx hne => ?_⟩, hkeys⟩
  · rcases ho.chains with heq | heq
    · exact h.grown d (heq ▸ hd)
    · rw [heq, List.mem_append, List.mem_singleton] at hd
      rcases hd with hd | rfl
      · exact h.grown d hd
      · exact (h.made hc ht hvisit hs hk ho).1
  · obtain ⟨m₀, hm₀, hheight⟩ := origin_index h.toSound ho hm
    rw [← hheight]
    exact h.index key m₀ hm₀
  · rw [hlong]
    exact ranked_origin ho h.ranked
  · rw [hlong]
    exact h.best blks d x hl hx fun hn => hne ((hkeys _).mpr hn)

/-- **A block of `B` is attached.** -/
theorem Charted.attach (h : Charted E cfg B s₁) (hc : E.CollisionFree) (ht : Telling B) (hb : b ∈ B)
    (hab : Twin E blk b) (ho : Origin E visit s index blk s₁ c i)
    (ha : c.applyBlock E s₁.stores blk = .ok (S, c')) :
    Charted E cfg B (attach s₁ S c' i (settleHash E blk)) := by
  have hmem := List.mem_of_getElem? ho.getElem?
  have hok := (h.grown c hmem).headOK
  have hfits := applyBlock_fits hok ha
  have hhash := settleHash_hash hfits
  obtain ⟨hhead, hheight⟩ := applyBlock_head hok ha
  have hgrown : Grown E cfg B c' := by
    obtain ⟨blks, d, n, hl, rfl⟩ := h.grown c hmem
    obtain ⟨T', d', hd', rfl⟩ := applyBlock_of_at hl.headOK ha
    refine ⟨_, d', n, .next hl hb (fun hne => ?_) (hab.applyBlock hl.headOK hd'), rfl⟩
    rw [← hab.header]
    exact origin_height ho hne
  have hindex := blockIndex_attach s₁ S c' (settleHash E blk) ho.lt_length
  obtain ⟨himp, hranked⟩ := ranked_attach ho ha h.ranked
  obtain ⟨store, hchains⟩ := chains_attach S c' (settleHash E blk) ho.lt_length
  refine ⟨sound_attach ho ha h.toSound (by rw [hhash]; exact Option.some_ne_none _), fun e he => ?_,
    readable_attach ho ha h.stems fun data hd => ?_, fun key m hm => ?_, hranked,
    fun blks d x hl hx hne => ?_⟩
  · rw [hchains] at he
    rcases List.mem_or_eq_of_mem_set he with he | rfl
    · exact h.grown e he
    · exact hgrown.move store
  · refine ⟨b, hb, hab.fits.mp hfits, by rw [← hab.header], ?_⟩
    rw [← hab.settleHash_eq (hab.fits.mp hfits)]
    exact hd
  · rw [hindex, lookup_registerBlock] at hm
    split_ifs at hm with hkey
    · cases hold : s₁.blockIndex.lookup key with
      | some m₀ =>
        rw [hold] at hm
        cases hm
        exact h.index key m₀ hold
      | none =>
        rw [hold] at hm
        cases hm
        obtain ⟨blks, d, n, hl, rfl⟩ := hgrown
        have hd : d.headHash = some (computeHash E blk) := hhead
        refine ⟨blks, d, hl, by rw [hd]; exact Option.some_ne_none _, ?_, ?_⟩
        · rw [hkey.2, hhash, hd]
        · show (settleHash E blk).header.height = d.headHeight
          rw [settleHash_header]
          exact hheight.symm
    · exact h.index key m hm
  · rw [hindex, lookup_registerBlock] at hne
    split_ifs at hne with hkey
    · rw [hhash] at hkey
      have heq : x = computeHash E blk := hashKeyHex_inj hkey.2
      have hsame : d.headHeight = c'.headHeight := by
        obtain ⟨blks', d', n, hl', rfl⟩ := hgrown
        have hd' : d'.headHash = some (computeHash E blk) := hhead
        rw [hl'.unique hc ht hl (by rw [hx, hd', heq])]
      rw [hsame]
      refine hranked.best { c' with store := store } ?_ x ?_
      · rw [hchains]
        exact List.mem_of_getElem? (List.getElem?_set_self ho.lt_length)
      · rw [heq]
        exact hhead
    · exact (h.best blks d x hl hx hne).improve himp

/-! ### The pool -/

/-- The block is in the index, is still to be processed, waits, or is accepted by no line. -/
def Placed (E : Env) (cfg : PoWConfig) (B : List Block) (s : ChainService) (jobs : List Block)
    (b : Block) : Prop :=
  s.blockIndex.lookup (hashKeyHex (some (computeHash E b))) ≠ none ∨ (∃ a ∈ jobs, Twin E a b) ∨
    (∃ k, ∃ a ∈ waiting s k, Twin E a b) ∨ Dead E cfg B b

/-- A block that waits: if its parent is in the index, no line accepts it. -/
structure Waits (E : Env) (cfg : PoWConfig) (B : List Block) (s : ChainService) (k : String) (a : Block) :
    Prop where
  twin : ∃ b ∈ B, Twin E a b
  key : hashKeyHex a.header.prevHash = k
  height : a.header.height ≠ 0
  idle : s.blockIndex.lookup k ≠ none → Dead E cfg B a

/-- The blocks `delivered` are accounted for while the blocks `jobs` are still to be processed. -/
structure Accounted (E : Env) (cfg : PoWConfig) (B delivered : List Block) (s : ChainService)
    (jobs : List Block) :
    Prop where
  pending : ∀ a ∈ jobs, ∃ b ∈ B, Twin E a b
  pool : ∀ k, ∀ a ∈ waiting s k, Waits E cfg B s k a
  placed : ∀ b ∈ delivered, Placed E cfg B s jobs b

variable {delivered rest jobs : List Block} {s₂ s' : ChainService} {hash : Slice UInt8}

/-- A turn with the block `a`: what it takes out of the pool is to be processed, and `a` is placed. -/
theorem Accounted.step (h : Accounted E cfg B delivered s (a :: rest))
    (hkeys : ∀ k, s.blockIndex.lookup k ≠ none → s'.blockIndex.lookup k ≠ none)
    (hjobs : ∀ x ∈ jobs, ∃ k, x ∈ waiting s k)
    (hleave : ∀ k, ∀ x ∈ waiting s k, x ∈ waiting s' k ∨ x ∈ jobs)
    (hpool : ∀ k, ∀ x ∈ waiting s' k, Waits E cfg B s' k x)
    (hplaced : ∀ b, Twin E a b → Placed E cfg B s' (rest ++ jobs) b) :
    Accounted E cfg B delivered s' (rest ++ jobs) := by
  refine ⟨fun x hx => ?_, hpool, fun b hb => ?_⟩
  · rcases List.mem_append.mp hx with hx | hx
    · exact h.pending x (List.mem_cons_of_mem a hx)
    · obtain ⟨k, hk⟩ := hjobs x hx
      exact (h.pool k x hk).twin
  · rcases h.placed b hb with hindex | ⟨x, hx, htwin⟩ | ⟨k, x, hx, htwin⟩ | hdead
    · exact .inl (hkeys _ hindex)
    · rcases List.mem_cons.mp hx with rfl | hx
      · exact hplaced b htwin
      · exact .inr (.inl ⟨x, List.mem_append_left _ hx, htwin⟩)
    · rcases hleave k x hx with hx | hx
      · exact .inr (.inr (.inl ⟨k, x, hx, htwin⟩))
      · exact .inr (.inl ⟨x, List.mem_append_right _ hx, htwin⟩)
    · exact .inr (.inr (.inr hdead))

theorem Waits.keep {k : String} (h : Waits E cfg B s k a)
    (hkey : s'.blockIndex.lookup k ≠ none → s.blockIndex.lookup k ≠ none) : Waits E cfg B s' k a :=
  ⟨h.twin, h.key, h.height, fun hne => h.idle (hkey hne)⟩

theorem popWaitingChildren_jobs (s : ChainService) (hsome : hash ≠ none) :
    (popWaitingChildren s hash).2 = waiting s (hashKeyHex hash) := by
  unfold popWaitingChildren
  rw [if_neg hsome]
  dsimp only
  split_ifs with hw
  · exact hw.symm
  · rfl

theorem Accounted.pop (h : Accounted E cfg B delivered s (a :: rest)) (hsome : hash ≠ none)
    (hw : ∀ k, waiting s₂ k = waiting s k)
    (hkeys : ∀ k, s.blockIndex.lookup k ≠ none → s₂.blockIndex.lookup k ≠ none)
    (hnew : ∀ k, s₂.blockIndex.lookup k ≠ none → s.blockIndex.lookup k ≠ none ∨ k = hashKeyHex hash)
    (hplaced : ∀ b, Twin E a b → s₂.blockIndex.lookup (hashKeyHex (some (computeHash E b))) ≠ none ∨
    Dead E cfg B b) :
    Accounted E cfg B delivered (popWaitingChildren s₂ hash).1
      (rest ++ (popWaitingChildren s₂ hash).2) := by
  have hindex : (popWaitingChildren s₂ hash).1.blockIndex = s₂.blockIndex := by
    obtain ⟨pool, heq⟩ := popWaitingChildren_eq s₂ hash
    rw [heq]
  rw [popWaitingChildren_jobs s₂ hsome, hw]
  refine h.step (fun k hk => ?_) (fun x hx => ⟨_, hx⟩) (fun k x hx => ?_)
    (fun k x hx => ?_) fun b hab => ?_
  · rw [hindex]
    exact hkeys k hk
  · rw [waiting_pop, hw]
    by_cases hk : k = hashKeyHex hash
    · exact .inr (hk ▸ hx)
    · rw [if_neg fun hp => hk hp.2]
      exact .inl hx
  · rw [waiting_pop, hw] at hx
    split_ifs at hx with hk
    · cases hx
    · refine (h.pool k x hx).keep fun hne => ?_
      rw [hindex] at hne
      exact (hnew k hne).resolve_right fun heq => hk ⟨hsome, heq⟩
  · rcases hplaced b hab with hp | hdead
    · refine .inl ?_
      rw [hindex]
      exact hp
    · exact .inr (.inr (.inr hdead))

theorem twin_cloneBlock (hab : Twin E a b) (hb : (cloneBlock b).header = b.header) :
    Twin E (cloneBlock a) b := by
  have hheader : (cloneBlock a).header = b.header := by
    rw [← hb]
    unfold cloneBlock
    dsimp only
    rw [hab.header]
  refine ⟨hheader, hab.transactions, Iff.trans ?_ hab.fits⟩
  have hhash : elems (cloneBlock a).hash = elems a.hash := elems_cloneBytes _
  have hcompute : computeHash E (cloneBlock a) = computeHash E a := by
    unfold computeHash
    rw [hheader, hab.header]
  unfold hashFits
  rw [hhash, hcompute]

theorem Accounted.store (h : Accounted E cfg B delivered s (a :: rest)) (hr : Regular B) {x : Block}
    (hxa : Twin E x a) (hw : ∀ k, waiting s₂ k = waiting s k)
    (hkeys : ∀ k, s₂.blockIndex.lookup k = none ↔ s.blockIndex.lookup k = none)
    (hidle : s.blockIndex.lookup (hashKeyHex x.header.prevHash) ≠ none → Dead E cfg B x)
    (hlost : ¬ stored x → Dead E cfg B x) :
    Accounted E cfg B delivered (storeOrphan s₂ x) (rest ++ []) := by
  obtain ⟨b, hb, hab⟩ := h.pending a List.mem_cons_self
  have hxb : Twin E x b := hxa.trans hab
  have hindex : (storeOrphan s₂ x).blockIndex = s₂.blockIndex := by
    obtain ⟨pool, heq⟩ := storeOrphan_eq s₂ x
    rw [heq]
  have hback : ∀ k, (storeOrphan s₂ x).blockIndex.lookup k ≠ none → s.blockIndex.lookup k ≠ none :=
      fun k hne hn => by
    rw [hindex] at hne
    exact hne ((hkeys k).mpr hn)
  have hclone : stored x → Twin E (cloneBlock x) b := fun hx =>
    twin_cloneBlock hxb (hr.cloned b hb fun h0 => hx.1 (hxb.header ▸ h0))
  refine h.step (fun k hne => ?_) (by simp) (fun k y hy => .inl ?_) (fun k y hy => ?_) fun b' hab' => ?_
  · rw [hindex]
    exact fun hn => hne ((hkeys k).mp hn)
  · rw [waiting_storeOrphan, hw]
    split_ifs
    · exact List.mem_append_left _ hy
    · exact hy
  · rw [waiting_storeOrphan, hw] at hy
    split_ifs at hy with hx
    · rcases List.mem_append.mp hy with hy | hy
      · exact (h.pool k y hy).keep (hback k)
      · rw [List.mem_singleton.mp hy]
        refine ⟨⟨b, hb, hclone hx.1⟩, ?_, hx.1.1, fun hne => ?_⟩
        · rw [hx.2]
          exact hashKeyHex_clone _
        · rw [hx.2] at hne
          exact ((hidle (hback _ hne)).twin hxb).twin (hclone hx.1).symm
    · exact (h.pool k y hy).keep (hback k)
  · by_cases hx : stored x
    · refine .inr (.inr (.inl ⟨hashKeyHex x.header.prevHash, cloneBlock x, ?_, ?_⟩))
      · rw [waiting_storeOrphan, if_pos ⟨hx, rfl⟩]
        exact List.mem_append_right _ (List.mem_singleton_self _)
      · exact (hclone hx).trans (hab.symm.trans hab')
    · exact .inr (.inr (.inr (((hlost hx).twin hxa).twin hab')))

/-! ### Turns -/

/-- The number of the chain that is used for first blocks is one of the service. -/
def InRange (index : ℤ) (s : ChainService) : Prop := 0 ≤ index ∧ index.toNat < s.chains.length

theorem inRange_turn {o : Outcome ChainService Block Err} (ht : Turn E visit index s blk o)
    (h : InRange index s) :
    InRange index o.state := by
  have horigin : ∀ s₁ c i, Origin E visit s index blk s₁ c i → InRange index s₁ := fun s₁ c i ho => by
    refine ⟨h.1, ?_⟩
    rcases ho.chains with heq | heq
    · rw [heq]
      exact h.2
    · rw [heq, List.length_append]
      exact Nat.lt_add_right _ h.2
  refine ht.invariant (fun _ _ h => h) horigin (fun s₁ c i S c' ho _ => ⟨h.1, ?_⟩) h
  obtain ⟨store, hchains⟩ := chains_attach S c' (settleHash E blk) ho.lt_length
  rw [hchains, List.length_set]
  exact (horigin s₁ c i ho).2

theorem first_found (E : Env) (visit : Finset ℕ → List ℕ) (h0 : blk.header.height = 0)
    (h : InRange index s) :
    ∃ p, ensureChainForParent E visit s index blk = .ok p := by
  unfold ensureChainForParent handleGenesis
  rw [if_pos h0]
  cases firstChain s isEmpty with
  | some e => exact ⟨_, rfl⟩
  | none =>
    dsimp only
    rw [if_neg (not_lt.mpr h.1), List.getElem?_eq_getElem h.2]
    exact ⟨_, rfl⟩

/-- **A block whose parent is in sight** gets a chain if its parent is in the index. -/
theorem Sighted.found (h : Sighted E s blk) (index : ℤ) (hm : Metas s)
    (hvisit : ∀ is i, i ∈ visit is ↔ i ∈ is) (hk : ¬ blockKnown s blk.hash blk.header.height)
    (hs : stored blk) (hl : s.blockIndex.lookup (hashKeyHex blk.header.prevHash) ≠ none) :
    ∃ p, ensureChainForParent E visit s index blk = .ok p := by
  obtain ⟨m, hmeta⟩ := Option.ne_none_iff_exists'.mp hl
  cases hhead : findHeadByHash s blk.header.prevHash with
  | some e => exact ⟨_, ensureChainForParent_ok_iff.mpr (.head hs.1 hs.2 hhead)⟩
  | none =>
    obtain ⟨hnonempty, hlt⟩ := hm _ m hmeta
    obtain ⟨base, hpick, hbase⟩ := exists_base hnonempty hlt hvisit
    obtain ⟨f, hf, -⟩ := showsParent_iff.mp (h hk hs.1 m hmeta (firstChain_none.mp hhead) base hbase)
    exact ⟨_, ensureChainForParent_ok_iff.mpr (.fork hs.1 hs.2 hhead hmeta hpick hf)⟩

/-- A block for which no chain is found: its parent is not in the index, or it has none. -/
theorem Sighted.lost (h : Sighted E s blk) (hm : Metas s) (hvisit : ∀ is i, i ∈ visit is ↔ i ∈ is)
    (hk : ¬ blockKnown s blk.hash blk.header.height) (hrange : InRange index s) {e : Err}
    (he : ensureChainForParent E visit s index blk = .error e) :
    e = .unknownParent ∧ blk.header.height ≠ 0 ∧
      (blk.header.prevHash ≠ none → s.blockIndex.lookup (hashKeyHex blk.header.prevHash) = none) := by
  have h0 : blk.header.height ≠ 0 := fun h0 => by
    obtain ⟨p, hp⟩ := first_found E visit h0 hrange
    rw [hp] at he
    cases he
  have hnone : blk.header.prevHash ≠ none → s.blockIndex.lookup (hashKeyHex blk.header.prevHash) = none :=
      fun hp => by
    by_contra hl
    obtain ⟨p, hok⟩ := h.found index hm hvisit hk ⟨h0, hp⟩ hl
    rw [hok] at he
    cases he
  refine ⟨?_, h0, hnone⟩
  unfold ensureChainForParent at he
  rw [if_neg h0] at he
  split_ifs at he with hp
  · cases he
    rfl
  · cases hhead : findHeadByHash s blk.header.prevHash with
    | some e =>
      rw [hhead] at he
      cases he
    | none =>
      rw [hhead] at he
      have hmeta : getParentMeta s blk.header.prevHash = .error .unknownParent := by
        unfold getParentMeta
        rw [hnone hp]
      rw [hmeta] at he
      cases he
      rfl

theorem Charted.known (h : Charted E cfg B s) (hk : blockKnown s a.hash a.header.height)
    (hab : Twin E a b) :
    s.blockIndex.lookup (hashKeyHex (some (computeHash E b))) ≠ none ∨ Dead E cfg B b := by
  obtain ⟨-, m, hm, -⟩ := hk
  by_cases hfits : hashFits E a
  · left
    obtain ⟨blks, d, hl, hne, hkey, -⟩ := h.index _ m hm
    have hhash : elems a.hash = computeHash E b := by
      rw [← hab.hash_eq]
      refine hfits.resolve_left fun hnil => elems_ne_nil hl.headOK hne ?_
      rw [← hashKeyHex_inj hkey, hnil]
    have hsame : hashKeyHex (some (computeHash E b)) = hashKeyHex a.hash := by
      unfold hashKeyHex
      rw [hhash]
      rfl
    rw [hsame, show s.blockIndex.lookup (hashKeyHex a.hash) = some m from hm]
    exact Option.some_ne_none _
  · exact .inr ((dead_of_not_fits hfits).twin hab)

/-- **A turn in sight** keeps the service charted and accounts for the block. -/
theorem charted_turn {o : Outcome ChainService Block Err} (hc : E.CollisionFree) (hr : Regular B)
    (hvisit : ∀ is i, i ∈ visit is ↔ i ∈ is) (ht : Turn E visit index s a o) (hs : Sighted E s a)
    (h : Charted E cfg B s) (hacc : Accounted E cfg B delivered s (a :: rest))
    (hrange : InRange index s) :
    Charted E cfg B o.state ∧ Accounted E cfg B delivered o.state (rest ++ o.jobs) := by
  obtain ⟨b, hb, hab⟩ := hacc.pending a List.mem_cons_self
  cases ht with
  | known hk =>
    refine ⟨?_, hacc.pop hk.1 (fun _ => rfl) (fun _ hne => hne) (fun _ hne => .inl hne) fun b' hab' =>
      h.known hk hab'⟩
    obtain ⟨pool, heq⟩ := popWaitingChildren_eq s a.hash
    rw [heq]
    exact h.withPool pool
  | unknownParent hk he =>
    obtain ⟨-, h0, hnone⟩ := hs.lost h.metas hvisit hk hrange he
    refine ⟨?_, hacc.store hr (Twin.refl a) (fun _ => rfl) (fun _ => Iff.rfl)
      (fun hne => ?_) fun hx => ?_⟩
    · obtain ⟨pool, heq⟩ := storeOrphan_eq s a
      rw [heq]
      exact h.withPool pool
    · by_cases hp : a.header.prevHash = none
      · exact dead_of_no_parent h0 hp
      · exact absurd (hnone hp) hne
    · exact dead_of_no_parent h0 (by_contra fun hp => hx ⟨h0, hp⟩)
  | noFork hk he hne => exact absurd (hs.lost h.metas hvisit hk hrange he).1 hne
  | @notNext s₁ c i text hk ho ha =>
    obtain ⟨h₁, hkeys⟩ := h.origin hc hr.telling hvisit hs hk ho
    have hdead := (h.dead hc hr.telling hvisit hs hk ho ha).twin (twin_settleHash a).symm
    refine ⟨?_, hacc.store hr (twin_settleHash a) (waiting_congr ho.orphansByPrev) hkeys
      (fun _ => hdead) fun _ => hdead⟩
    obtain ⟨pool, heq⟩ := storeOrphan_eq s₁ (settleHash E a)
    rw [heq]
    exact h₁.withPool pool
  | @invalid s₁ c i e hk ho ha _ =>
    obtain ⟨h₁, hkeys⟩ := h.origin hc hr.telling hvisit hs hk ho
    have hdead := h.dead hc hr.telling hvisit hs hk ho ha
    have hw := waiting_congr ho.orphansByPrev
    refine ⟨h₁, hacc.step (fun k hne hn => hne ((hkeys k).mp hn)) (by simp)
      (fun k x hx => .inl (by rwa [hw])) (fun k x hx => ?_) fun b' hab' =>
      .inr (.inr (.inr (hdead.twin hab')))⟩
    rw [hw] at hx
    exact (hacc.pool k x hx).keep fun hne hn => hne ((hkeys k).mpr hn)
  | @attached s₁ c c' i S hk ho ha =>
    obtain ⟨h₁, hkeys⟩ := h.origin hc hr.telling hvisit hs hk ho
    have hok := (h₁.grown c (List.mem_of_getElem? ho.getElem?)).headOK
    have hhash := settleHash_hash (applyBlock_fits hok ha)
    have hsome : (settleHash E a).hash ≠ none := by rw [hhash]; exact Option.some_ne_none _
    have h₂ := h₁.attach hc hr.telling hb hab ho ha
    have hindex := blockIndex_attach s₁ S c' (settleHash E a) ho.lt_length
    refine ⟨?_, hacc.pop hsome (fun k => ?_) (fun k hne => ?_) (fun k hne => ?_) fun b' hab' => .inl ?_⟩
    · obtain ⟨pool, heq⟩ := popWaitingChildren_eq (Defs.attach s₁ S c' i (settleHash E a))
        (settleHash E a).hash
      rw [heq]
      exact h₂.withPool pool
    · rw [waiting_congr (orphansByPrev_attach _ _ _ _ _), waiting_congr ho.orphansByPrev]
    · rw [hindex]
      exact lookup_registerBlock_ne_none fun hn => hne ((hkeys k).mp hn)
    · rw [hindex, lookup_registerBlock] at hne
      split_ifs at hne with hkey
      · exact .inr hkey.2
      · exact .inl fun hn => hne ((hkeys k).mpr hn)
    · rw [hindex, lookup_registerBlock, if_pos ⟨hsome, by rw [hhash, hab'.hash_eq]⟩]
      exact Option.some_ne_none _

/-! ### Deliveries -/

theorem charted_new (E : Env) (cfg : PoWConfig) (B : List Block) :
    Charted E cfg B (newChainService E [.mem ∅] (configurePow cfg (newNamecoinChain 0))) ∧
      Accounted E cfg B [] (newChainService E [.mem ∅] (configurePow cfg (newNamecoinChain 0))) [] := by
  obtain ⟨hone, hindex⟩ := single_new (E := E) cfg
  have hstart : Start E ∅ (configurePow cfg (newNamecoinChain 0)) :=
    ⟨rfl, ⟨[], .start⟩, fun data hd => by cases hd⟩
  have hlook : ∀ k, (newChainService E [.mem ∅] (configurePow cfg (newNamecoinChain 0))).blockIndex.lookup
      k = none :=
    fun k => by
      rw [hindex]
      rfl
  refine ⟨⟨hstart.orderly.toSound, fun c hc => ?_, ?_, fun key m hm => ?_, (settled_live .empty).ranked,
    fun _ _ x _ _ hne => absurd (hlook _) hne⟩, by simp, fun k a ha => ?_, by simp⟩
  · rw [hone.chains, List.mem_singleton] at hc
    rw [hc]
    exact ⟨[], _, 0, .start, rfl⟩
  · exact readable_new rfl ⟨rfl, fun _ => rfl⟩ fun _ _ data hd => by cases hd
  · rw [hlook] at hm
    cases hm
  · have hw : waiting (newChainService E [.mem ∅] (configurePow cfg (newNamecoinChain 0))) k = [] := by
      unfold waiting
      rw [hone.orphans]
      rfl
    rw [hw] at ha
    cases ha

theorem charted_deliveries {calls : List Block} (hc : E.CollisionFree) (hr : Regular B)
    (h : Deliveries E (Sighted E) (newChainService E [.mem ∅] (configurePow cfg (newNamecoinChain 0)))
    calls s) :
    (∀ b ∈ calls, b ∈ B) → Charted E cfg B s ∧ Accounted E cfg B calls s [] := by
  induction h with
  | nil => exact fun _ => charted_new E cfg B
  | @snoc blks s order blk _ halong ih =>
    intro hB
    obtain ⟨hch, hacc⟩ := ih fun b hb => hB b (List.mem_append_left _ hb)
    have hblk : blk ∈ B := hB blk (List.mem_append_right _ (List.mem_singleton_self _))
    have hstart : Accounted E cfg B (blks ++ [blk]) s [blk] := by
      refine ⟨fun a ha => ⟨blk, hblk, ?_⟩, hacc.pool, fun b hb => ?_⟩
      · rw [List.mem_singleton.mp ha]
        exact Twin.refl blk
      · rcases List.mem_append.mp hb with hb | hb
        · rcases hacc.placed b hb with hp | ⟨a, ha, -⟩ | hp
          · exact .inl hp
          · cases ha
          · exact .inr (.inr hp)
        · exact .inr (.inl ⟨b, hb, Twin.refl b⟩)
    have hall := halong.invariant (I := fun s' jobs => (Charted E cfg B s' ∧
      Accounted E cfg B (blks ++ [blk]) s' jobs) ∧ InRange s.longestChainIndex s')
      (fun n s' a rest hC hI => ?_) ⟨⟨hch, hstart⟩, Int.natCast_nonneg _, s.longest_lt⟩
    · exact hall.1
    · have ht := processSingleBlock_turn E (order.visit n) s.longestChainIndex s' a
      exact ⟨charted_turn hc hr (order.mem_visit n) ht hC hI.1.1 hI.1.2 hI.2, inRange_turn ht hI.2⟩

/-- **Every line is in the index** when all blocks have been delivered. -/
theorem Accounted.complete {blks : List Block} (h : Accounted E cfg B B s []) (hl : Line E cfg B blks d) :
    d.headHash ≠ none → s.blockIndex.lookup (hashKeyHex d.headHash) ≠ none := by
  induction hl with
  | start => exact fun hn => absurd rfl hn
  | @next blks c c' S S' b hl hb hz ha ih =>
    intro _
    rw [(applyBlock_head hl.headOK ha).1]
    rcases h.placed b hb with hp | ⟨a, ha', -⟩ | ⟨k, a, hw, htwin⟩ | hdead
    · exact hp
    · cases ha'
    · obtain ⟨-, hkey, h0, hidle⟩ := h.pool k a hw
      have hb0 : b.header.height ≠ 0 := htwin.header ▸ h0
      obtain ⟨hne, heq⟩ := line_parent hl hb0 ha
      have hk : k = hashKeyHex c.headHash := by
        rw [← hkey, htwin.header]
        unfold hashKeyHex
        rw [heq]
      exact absurd ha (((hidle (hk ▸ ih hne)).twin htwin) _ _ _ _ hl hz)
    · exact absurd ha (hdead _ _ _ _ hl hz)

/-- **The canonical chain is the best line** of the blocks that have been delivered. -/
theorem leads_of_deliveries {calls : List Block} (hc : E.CollisionFree) (hr : Regular calls)
    (h : Deliveries E (Sighted E) (newChainService E [.mem ∅] (configurePow cfg (newNamecoinChain 0)))
    calls s) :
    Leads E cfg calls (getLongestChain s) := by
  obtain ⟨hch, hacc⟩ := charted_deliveries hc hr h fun _ hb => hb
  refine ⟨hch.grown _ (List.mem_of_getElem? (getElem?_longest s)),
    fun blks d x hl hx => hch.best blks d x hl hx ?_⟩
  rw [← hx]
  exact hacc.complete hl (by rw [hx]; exact Option.some_ne_none _)

/-- **The order of delivery does not matter**: if every turn is in sight, services that have got the
same blocks have the same canonical head and state. -/
theorem order_free {calls calls' : List Block} (hc : E.CollisionFree) (hr : Regular calls)
    (hperm : calls.Perm calls')
    (h : Deliveries E (Sighted E) (newChainService E [.mem ∅] (configurePow cfg (newNamecoinChain 0)))
    calls s) (h' : Deliveries E (Sighted E)
      (newChainService E [.mem ∅] (configurePow cfg (newNamecoinChain 0))) calls' s') :
    SameView s s' := by
  have hr' : Regular calls' := by
    refine ⟨fun a ha b hb => hr.telling a (hperm.mem_iff.mpr ha) b (hperm.mem_iff.mpr hb), fun b hb => ?_⟩
    exact hr.cloned b (hperm.mem_iff.mpr hb)
  have hleads := leads_of_deliveries hc hr h
  obtain ⟨⟨blks, d, n, hl, heq⟩, hbest⟩ := leads_of_deliveries hc hr' h'
  have hleads' : Leads E cfg calls (getLongestChain s') :=
    ⟨⟨blks, d, n, hl.mono fun b => hperm.mem_iff.mpr, heq⟩, fun blks d x hl =>
      hbest blks d x (hl.mono fun b => hperm.mem_iff.mp)⟩
  obtain ⟨store, hsame⟩ := hleads.unique hc hr.telling hleads'
  exact ⟨by rw [hsame], by rw [hsame], by rw [hsame]⟩

/-! ### First blocks -/

theorem first_turn (E : Env) (visit : Finset ℕ → List ℕ) (index : ℤ) (h0 : blk.header.height = 0)
    (hpool : s.orphansByPrev = ∅) :
    ∃ s' e, processSingleBlock E visit index s blk = ⟨s', [], e⟩ ∧ s'.orphansByPrev = ∅ := by
  have hstore : ∀ (s' : ChainService) (b : Block), b.header.height = 0 → storeOrphan s' b = s' :=
      fun s' b hb => by
    unfold storeOrphan
    rw [if_pos (.inl hb)]
  have hturn := processSingleBlock_turn E visit index s blk
  generalize processSingleBlock E visit index s blk = o at hturn ⊢
  cases hturn with
  | known => exact ⟨s, none, by rw [popWaitingChildren_of_no_orphans hpool], hpool⟩
  | unknownParent => exact ⟨s, none, by rw [hstore s blk h0], hpool⟩
  | @noFork e => exact ⟨s, some e, rfl, hpool⟩
  | @notNext s₁ c i text _ ho =>
    have hsettled : (settleHash E blk).header.height = 0 := by rw [settleHash_header, h0]
    exact ⟨s₁, none, by rw [hstore s₁ _ hsettled], by rw [ho.orphansByPrev, hpool]⟩
  | @invalid s₁ c i e _ ho => exact ⟨s₁, some e, rfl, by rw [ho.orphansByPrev, hpool]⟩
  | @attached s₁ c c' i S _ ho =>
    have hempty : (Defs.attach s₁ S c' i (settleHash E blk)).orphansByPrev = ∅ := by
      rw [orphansByPrev_attach, ho.orphansByPrev, hpool]
    exact ⟨_, none, by rw [popWaitingChildren_of_no_orphans hempty], hempty⟩

theorem sighted_firsts (E : Env) (cfg : PoWConfig) (calls : List Block) :
    (∀ b ∈ calls, b.header.height = 0) →
    ∃ s, Deliveries E (Sighted E) (newChainService E [.mem ∅] (configurePow cfg (newNamecoinChain 0)))
      calls s ∧ s.orphansByPrev = ∅ := by
  induction calls using List.reverseRecOn with
  | nil => exact fun _ => ⟨_, .nil, (single_new (E := E) cfg).1.orphans⟩
  | append_singleton calls b ih =>
    intro hall
    obtain ⟨s, hd, hpool⟩ := ih fun x hx => hall x (List.mem_append_left _ hx)
    have h0 := hall b (List.mem_append_right _ (List.mem_singleton_self b))
    obtain ⟨s', e, hturn, hpool'⟩ := first_turn E (numbered.visit 0) s.longestChainIndex h0 hpool
    refine ⟨_, .snoc numbered b hd (along_single hturn fun _ hne => absurd h0 hne), ?_⟩
    unfold appendBlockToLongestChain
    rw [appendBlockToChain_single hturn]
    exact hpool'

/-- Two first blocks in both orders. -/
theorem order_free_firsts : ∃ (E : Env) (cfg : PoWConfig) (g g' : Block) (s s' : ChainService), g ≠ g' ∧
    Deliveries E (Sighted E) (newChainService E [.mem ∅] (configurePow cfg (newNamecoinChain 0)))
      [g, g'] s ∧ Deliveries E (Sighted E)
        (newChainService E [.mem ∅] (configurePow cfg (newNamecoinChain 0))) [g', g] s' ∧
      (getLongestChain s).headHash ≠ none ∧ SameView s s' := by
  let first (nonce : UInt64) : Block := blockAt plainEnv 0 none [] nonce
  let target : ℤ := workOf plainEnv (first 0)
  obtain ⟨data, hg⟩ := first_quiet plainEnv 0 (le_refl target)
  have hall : ∀ b ∈ [first 0, first 1], b.header.height = 0 ∧ b.transactions = [] := by
    simp [first, blockAt]
  have hr : Regular [first 0, first 1] :=
    ⟨fun a ha b hb _ => (hall a ha).2.trans (hall b hb).2.symm, fun b hb hne => absurd (hall b hb).1 hne⟩
  have hperm : [first 0, first 1].Perm [first 1, first 0] := .swap _ _ _
  obtain ⟨s, hd, -⟩ := sighted_firsts plainEnv (staticConfig target) _ fun b hb => (hall b hb).1
  obtain ⟨s', hd', -⟩ := sighted_firsts plainEnv (staticConfig target) [first 1, first 0] fun b hb =>
    (hall b (hperm.mem_iff.mpr hb)).1
  refine ⟨plainEnv, staticConfig target, first 0, first 1, s, s', fun heq => ?_, hd, hd', ?_,
    order_free plainEnv_collisionFree hr hperm hd hd'⟩
  · have h01 : (0 : UInt64) = 1 := congrArg (fun b => b.header.nonce) heq
    exact absurd h01 (by decide)
  · have hline : Line plainEnv (staticConfig target) [first 0, first 1] ([] ++ [first 0]) _ :=
      .next .start List.mem_cons_self (fun hne => absurd rfl hne) (hg.accepted [.mem ∅] 0)
    exact ((leads_of_deliveries plainEnv_collisionFree hr hd).best _ _ _ hline rfl).1

/-! ### Blocks of an abandoned branch -/

theorem getLongestChain_misplaced {order : MapOrder} {f : NamecoinChain} {hash : Bytes}
    (hnone : blk.hash = none)
    (hok : ensureChainForParent E (order.visit 0) s s.longestChainIndex blk = .ok (s₁, f, i))
    (hf : f.headHash = some hash) (hne : hash ≠ [])
    (hprev : ¬ bytesEqual blk.header.prevHash (some hash)) :
    getLongestChain (appendBlockToLongestChain E order s blk).1 = getLongestChain s := by
  have ho := ensureChainForParent_ok_iff.mp hok
  have hhead : HeadOK f.headHash := by
    rw [hf]
    exact cloneBytes_some hne
  obtain ⟨text, hfollow⟩ : ∃ text, ensureNextBlockFollows f.headHeight f.headHash blk =
      .error (.chainFollow text) := by
    unfold ensureNextBlockFollows failIf
    rw [hf, if_neg (Option.some_ne_none _)]
    by_cases hheight : blk.header.height = f.headHeight + 1
    · rw [if_neg (not_not.mpr hheight), if_pos hprev]
      exact ⟨_, rfl⟩
    · rw [if_pos hheight]
      exact ⟨_, rfl⟩
  have hfits : hashFits E blk := .inl (by rw [hnone]; rfl)
  have hturn := processSingleBlock_notNext (not_blockKnown_of_none hnone) ho
    ((applyBlock_follow_iff hhead).mpr ⟨hfits, hfollow⟩)
  unfold appendBlockToLongestChain
  rw [appendBlockToChain_single hturn]
  obtain ⟨pool, heq⟩ := storeOrphan_eq s₁ (settleHash E blk)
  rw [heq]
  exact ho.getLongestChain

theorem late_sibling {target : ℤ} {g g' x : Block} {data' : Bytes} {st' : NamecoinState}
    (hc : E.CollisionFree) (hg' : First E target g' data' st')
    (hless : bytesLess (computeHash E g') (computeHash E g)) (hs : Late E g g' a data' s)
    (hmetas : Metas s) (hnone : x.hash = none) (h0 : x.header.height ≠ 0)
    (hprev : x.header.prevHash = some (computeHash E g)) (order : MapOrder) :
    (getLongestChain (appendBlockToLongestChain E order s x).1).headHash = some (computeHash E a) := by
  obtain ⟨s₁, f, i, hok, hf⟩ := wrong_fork hc hg' hless hs hmetas
    (order.mem_visit 0) s.longestChainIndex h0 hprev
  have hother : computeHash E g ≠ computeHash E g' := fun heq => bytesLess_irrefl _ (heq ▸ hless)
  rw [getLongestChain_misplaced hnone hok hf (E.sha256_ne_nil _) (by rw [hprev]; exact hother), hs.head.1]

/-- **The order of delivery matters**: of two children of an abandoned first block, the one that is
delivered first becomes the canonical head. The other one is put in the pool, since the chain for it is
forked from the wrong branch. -/
theorem order_matters : ∃ (E : Env) (cfg : PoWConfig) (calls calls' : List Block) (s s' : ChainService),
    E.CollisionFree ∧ calls.Nodup ∧ calls.Perm calls' ∧
      Deliveries E (fun _ _ => True) (newChainService E [.mem ∅] (configurePow cfg (newNamecoinChain 0)))
        calls s ∧
      Deliveries E (fun _ _ => True) (newChainService E [.mem ∅] (configurePow cfg (newNamecoinChain 0)))
        calls' s' ∧
      ¬ SameView s s' := by
  obtain ⟨target, g, g', a, b, data', st', s, s', hg', hless, ⟨hna, hnb, hab⟩, ⟨hd, hs⟩, hd', hs'⟩ :=
    exists_late
  have ha0 : a.header.height ≠ 0 := by rw [hs.height]; decide
  have hb0 : b.header.height ≠ 0 := by rw [hs'.height]; decide
  have hlate := late_sibling plainEnv_collisionFree hg' hless hs (metas_calls hd.calls) hnb hb0
    hs'.prevHash numbered
  have hlate' := late_sibling plainEnv_collisionFree hg' hless hs' (metas_calls hd'.calls) hna ha0
    hs.prevHash numbered
  refine ⟨plainEnv, staticConfig target, [g, g', a, b], [g, g', b, a], _, _, plainEnv_collisionFree, ?_,
    .cons _ (.cons _ (.swap _ _ _)), hd.next numbered b, hd'.next numbered a, fun hsame => hab ?_⟩
  · have hgg : g ≠ g' := fun heq => bytesLess_irrefl _ (heq ▸ hless)
    have hlow : ∀ {x y : Block}, x.header.height = 0 → y.header.height ≠ 0 → x ≠ y :=
      fun hx hy heq => hy (heq ▸ hx)
    simp [hgg, hlow hs.first ha0, hlow hs.first hb0, hlow hg'.height ha0, hlow hg'.height hb0,
      show a ≠ b from fun heq => hab (heq ▸ rfl)]
  · have hhash := hlate.symm.trans (hsame.headHash.trans hlate')
    exact serializeHeader_injective (plainEnv_collisionFree (Option.some.inj hhash))

end Namecoin.Service.Convergence
