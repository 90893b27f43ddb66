import Namecoin.Chain.Backing
import Namecoin.Chain.Restart
import Namecoin.Service.Steady

/-! # The store of the canonical chain

The oldest store is meant to hold the canonical chain: a chain that becomes the canonical one commits
its overlay. But a chain that has been the canonical one keeps writing to that store, a fork of a fork
is committed only to the store of the fork, and a commit leaves the blocks of another branch below the
fork if the fork was taken after a commit.

* `mirrored`: **the oldest store mirrors the canonical chain** in every state that is reached
  by turns that are `Clear`;
* `late_block`: without that condition it does not. -/

namespace Namecoin.Service.Mirror

open Lib.Maps Lib.ByteStrings Lib.WorkList Types.Defs Types.BlockCodec Types.SampleEnv State.Defs
open State.Strict State.Effects Chain.Pow Chain.Stores Chain.Overlays Chain.Defs Chain.Apply
open Chain.Registration Chain.Build Chain.Replay Chain.Reload Chain.Forks Chain.Backing Service.Defs
open Service.Turns Service.Scenes Service.Branches Service.Views Service.Refusals Service.Steady

variable {E : Env} {visit : Finset ℕ → List ℕ} {s s₁ : ChainService} {index : ℤ} {blk : Block}
  {lbs : List LoadedBlock} {c c' : NamecoinChain} {i : ℕ} {S : Heap}

/-! ### The invariant -/

/-- The key of the head, or that of a height below `n`. -/
def KeyBelow (n : ℕ) (key : String) : Prop :=
  key = namecoinLastBlockKey ∨ ∃ i < n, key = encodeNamecoinBlockKey (UInt64.ofNat i)

theorem KeyBelow.mono {n n' : ℕ} {key : String} (hn : n ≤ n') (h : KeyBelow n key) : KeyBelow n' key :=
  h.imp id fun ⟨i, hi, hkey⟩ => ⟨i, hi.trans_le hn, hkey⟩

/-- The oldest store holds the canonical chain, whose blocks are `lbs`, and no store holds a higher
block. A chain without blocks is on the oldest store or directly on top of it. -/
structure Mirrors (E : Env) (lbs : List LoadedBlock) (s : ChainService) : Prop where
  replayed : AllReplayed E s
  readable : Readable (FirstReplays E) s
  store : (getLongestChain s).store = 0
  backed : Backed E s.stores 0 lbs (getLongestChain s)
  last : entry s.stores 0 namecoinLastBlockKey = (getLongestChain s).headHash
  layers : LayersHold (fun key _ => KeyBelow lbs.length key) s.stores
  keys : ∀ key data, entry s.stores 0 key = some data → KeyBelow lbs.length key
  empties : ∀ c ∈ s.chains, isEmpty c → c.store = 0 ∨ baseOf s.stores c.store = some 0

/-- The chain that a call has started with is on the oldest store. -/
def Home (index : ℤ) (s : ChainService) : Prop := ∃ ref, s.chains[index.toNat]? = some ref ∧ ref.store = 0

theorem Home.store (h : Home index s) {ref : NamecoinChain} (href : s.chains[index.toNat]? = some ref) :
    ref.store = 0 := by
  obtain ⟨ref', href', hstore⟩ := h
  exact Option.some.inj (href.symm.trans href') ▸ hstore

theorem Mirrors.stores_pos (h : Mirrors E lbs s) : 0 < s.stores.length := by
  have hlt := h.readable.stores _ (List.mem_of_getElem? (getElem?_longest s))
  rwa [h.store] at hlt

theorem Mirrors.pool (h : Mirrors E lbs s) (pool : Map String (List Block)) :
    Mirrors E lbs { s with orphansByPrev := pool } :=
  ⟨h.replayed, h.readable.congr rfl rfl, h.store, h.backed, h.last, h.layers, h.keys, h.empties⟩

/-! ### A chain is made for a block -/

theorem Mirrors.add (h : Mirrors E lbs s) {base : ℕ} {f : NamecoinChain}
    (hS : s₁.stores = .overlay base ∅ ∅ :: s.stores) (hchains : s₁.chains = s.chains ++ [f])
    (hl : getLongestChain s₁ = getLongestChain s) (hr : AllReplayed E s₁)
    (hread : Readable (FirstReplays E) s₁) (hf : isEmpty f → base = 0 ∧ f.store = s.stores.length) :
    Mirrors E lbs s₁ := by
  have hentry : ∀ key, entry s₁.stores 0 key = entry s.stores 0 key := fun key => by
    rw [hS, entry_cons _ h.stores_pos]
  refine ⟨hr, hread, hl ▸ h.store, ?_, ?_, ?_, fun key data hd => h.keys key data (hentry key ▸ hd),
    fun d hd he => ?_⟩
  · rw [hl]
    exact h.backed.congr rfl fun i _ => hentry _
  · rw [hl, hentry]
    exact h.last
  · rw [hS]
    exact h.layers.cons base
  · rw [hchains, List.mem_append, List.mem_singleton] at hd
    rcases hd with hd | rfl
    · rw [hS, baseOf_cons _ (h.readable.stores d hd)]
      exact h.empties d hd he
    · obtain ⟨rfl, hstore⟩ := hf he
      right
      rw [hS, hstore]
      unfold baseOf
      rw [obj, if_pos rfl]

/-- **A chain that is made for a block.** -/
theorem mirror_origin (ho : Origin E visit s index blk s₁ c i) (h : Mirrors E lbs s)
    (hhome : Home index s) : Mirrors E lbs s₁ := by
  have hr := replayed_origin ho h.replayed
  have hread := readable_origin ho h.readable
  have hl := ho.getLongestChain
  cases ho with
  | empty => exact h
  | head => exact h
  | fresh _ _ _ href => exact h.add rfl rfl hl hr hread fun _ => ⟨hhome.store href, rfl⟩
  | fork _ _ _ _ hbase hf =>
    refine h.add (stores_indexChain _ _ _) (chains_indexChain _ _ _) hl hr hread fun he => ?_
    exact absurd he.1 (fork_has_head h.readable (pickBase_mem hbase) hf)

/-! ### A block is attached -/

theorem layers_persist {n : ℕ} (h : LayersHold (fun key _ => KeyBelow n key) S)
    (hkey : KeyBelow n (encodeNamecoinBlockKey blk.header.height)) (store : ℕ) (data : Bytes) :
    LayersHold (fun key _ => KeyBelow n key) (persist E S store blk data) := by
  have hfirst : LayersHold _ (set S store _ data) := LayersHold.set h hkey store
  exact LayersHold.set hfirst (show KeyBelow n namecoinLastBlockKey from .inl rfl) store

theorem keys_persist {n : ℕ} {id : ℕ} (h : ∀ key data, entry S id key = some data → KeyBelow n key)
    (hkey : KeyBelow n (encodeNamecoinBlockKey blk.header.height)) (store : ℕ) (data : Bytes) :
    ∀ key d, entry (persist E S store blk data) id key = some d → KeyBelow n key := by
  intro key d hd
  rw [persist] at hd
  rcases entry_set_cases store namecoinLastBlockKey (computeHash E blk)
    (set S store (encodeNamecoinBlockKey blk.header.height) data) id key with heq | ⟨hlast, -⟩
  · rw [heq] at hd
    rcases entry_set_cases store (encodeNamecoinBlockKey blk.header.height) data S id
      key with heq | ⟨rfl, -⟩
    · exact h key d (heq ▸ hd)
    · exact hkey
  · exact .inl hlast

theorem entry_persist_last (data : Bytes) {store : ℕ} (h : store < S.length) :
    entry (persist E S store blk data) store namecoinLastBlockKey = some (computeHash E blk) := by
  rw [persist]
  exact entry_set_self (by rwa [length_set])

theorem empties_set {S' : Heap} (hbase : ∀ id, baseOf S' id = baseOf s.stores id) (h : Mirrors E lbs s)
    {d : NamecoinChain} (hd : d.headHash ≠ none) : ∀ c ∈ s.chains.set i d, isEmpty c → c.store = 0 ∨
    baseOf S' c.store = some 0 := by
  intro c hc he
  rw [hbase]
  rcases List.mem_or_eq_of_mem_set hc with hc | rfl
  · exact h.empties c hc he
  · exact absurd he.1 hd

theorem mirror_extended (ho : Origin E visit s index blk s₁ c s₁.longestChainIndex)
    (ha : c.applyBlock E s₁.stores blk = .ok (S, c')) (h : Mirrors E lbs s₁) :
    Mirrors E (lbs ++ [loaded E blk]) (attach s₁ S c' s₁.longestChainIndex (settleHash E blk)) := by
  have hr := replayed_attach ho ha h.replayed
  have hread := readable_attach ho ha h.readable fun data hd => firstReplays_attached ho ha h.replayed hd
  have hc : getLongestChain s₁ = c := getLongestChain_eq ho.getElem?
  have hsane := h.readable.heads c (List.mem_of_getElem? ho.getElem?)
  have hstore : c.store = 0 := hc ▸ h.store
  have hlt : c.store < s₁.stores.length := hstore ▸ h.stores_pos
  have hbacked : Backed E s₁.stores c.store lbs c := by
    rw [hstore, ← hc]
    exact h.backed
  obtain ⟨hnew, hheight, hfull⟩ := hbacked.applied hsane.1 hlt ha (origin_height ho)
  obtain ⟨hhash, -, -, -⟩ := grown ho hsane ha
  have hsome : c'.headHash ≠ none := by rw [hhash]; exact Option.some_ne_none _
  obtain ⟨hl, -⟩ := attach_longest_chain (s := s₁) S (settleHash E blk) hsome
  have heq := attach_longest (s := s₁) S (settleHash E blk) hsome
  have hS : (attach s₁ S c' s₁.longestChainIndex (settleHash E blk)).stores = S := by
    rw [heq]
    exact stores_registerBlock _ _ _
  have hchains : (attach s₁ S c' s₁.longestChainIndex (settleHash E blk)).chains =
      s₁.chains.set s₁.longestChainIndex c' := by
    rw [heq]
    exact chains_registerBlock _ _ _
  have hkey : KeyBelow (lbs ++ [loaded E blk]).length (encodeNamecoinBlockKey blk.header.height) :=
    .inr ⟨lbs.length, by simp, by rw [hheight]⟩
  have hmono : ∀ key, KeyBelow lbs.length key → KeyBelow (lbs ++ [loaded E blk]).length key := fun key =>
    KeyBelow.mono (by simp)
  obtain ⟨st, data, -, -, -, rfl, hc'⟩ := (applyBlock_ok_iff hsane.1).mp ha
  have hstore' : c'.store = c.store := by rw [hc']; rfl
  refine ⟨hr, hread, ?_, ?_, ?_, ?_, ?_, ?_⟩
  · rw [hl, hstore', hstore]
  · rw [hS, hl, ← hstore]
    exact hnew
  · rw [hS, hl, hhash, ← hstore]
    exact entry_persist_last data hlt
  · rw [hS]
    exact layers_persist (fun b d del hm key v hv => hmono key (h.layers b d del hm key v hv)) hkey _ _
  · rw [hS]
    exact keys_persist (fun key d hd => hmono key (h.keys key d hd)) hkey _ _
  · rw [hS, hchains]
    exact empties_set (baseOf_persist _ _ _) h hsome

theorem Mirrors.keyBelow (h : Mirrors E lbs s) (hnot : ¬ Overtakes E (getLongestChain s) blk) :
    KeyBelow lbs.length (encodeNamecoinBlockKey blk.header.height) := by
  have hle : blk.header.height ≤ (getLongestChain s).headHeight :=
    UInt64.not_lt.mp fun hlt => hnot (.inl hlt)
  have hsane := h.readable.heads _ (List.mem_of_getElem? (getElem?_longest s))
  have hsome : (getLongestChain s).headHash ≠ none := fun hnone => by
    refine hnot (.inr ⟨?_, .inl hnone⟩)
    rw [hsane.2 hnone] at hle ⊢
    exact UInt64.le_antisymm hle UInt64.zero_le
  have hcount := h.backed.headHeight fun hnil => hsome (h.backed.eq_nil_iff.mp hnil)
  have hnat := UInt64.le_iff_toNat_le.mp hle
  exact .inr ⟨blk.header.height.toNat, by omega, by rw [UInt64.ofNat_toNat]⟩

theorem mirror_aside (ho : Origin E visit s index blk s₁ c i)
    (ha : c.applyBlock E s₁.stores blk = .ok (S, c')) (h : Mirrors E lbs s₁)
    (hi : i ≠ s₁.longestChainIndex) (hstore : c.store ≠ 0)
    (hnot : ¬ Overtakes E (getLongestChain s₁) blk) :
    Mirrors E lbs (attach s₁ S c' i (settleHash E blk)) := by
  have hr := replayed_attach ho ha h.replayed
  have hread := readable_attach ho ha h.readable fun data hd => firstReplays_attached ho ha h.replayed hd
  have hsane := h.readable.heads c (List.mem_of_getElem? ho.getElem?)
  obtain ⟨hhash, hheight, -, -⟩ := grown ho hsane ha
  obtain ⟨heq, hl, -⟩ := attach_other S (settleHash E blk) ho.lt_length hi
    ((keepsLongest_iff hhash hheight).mpr hnot)
  have hS : (attach s₁ S c' i (settleHash E blk)).stores = S := by
    rw [heq]
    exact stores_registerBlock _ _ _
  have hchains : (attach s₁ S c' i (settleHash E blk)).chains = s₁.chains.set i c' := by
    rw [heq]
    exact chains_registerBlock _ _ _
  obtain ⟨st, data, -, -, -, rfl, -⟩ := (applyBlock_ok_iff hsane.1).mp ha
  have hentry : ∀ key, entry (persist E s₁.stores c.store blk data) 0 key = entry s₁.stores 0 key :=
      fun key => by
    rw [persist, Chain.Stores.set, entry_update_of_lt (Nat.pos_of_ne_zero hstore), Chain.Stores.set,
      entry_update_of_lt (Nat.pos_of_ne_zero hstore)]
  refine ⟨hr, hread, ?_, ?_, ?_, ?_, ?_, ?_⟩
  · rw [hl]
    exact h.store
  · rw [hS, hl]
    exact h.backed.congr rfl fun i _ => hentry _
  · rw [hS, hl, hentry]
    exact h.last
  · rw [hS]
    exact layers_persist h.layers (h.keyBelow hnot) _ _
  · rw [hS]
    exact fun key d hd => h.keys key d (hentry key ▸ hd)
  · rw [hS, hchains]
    exact empties_set (baseOf_persist _ _ _) h (by rw [hhash]; exact Option.some_ne_none _)

/-- Another chain becomes the canonical one: its store is an overlay of the oldest
one and shows its blocks. -/
theorem mirror_promoted {lbs' : List LoadedBlock} (ho : Origin E visit s index blk s₁ c i)
    (ha : c.applyBlock E s₁.stores blk = .ok (S, c')) (h : Mirrors E lbs s₁)
    (hi : i ≠ s₁.longestChainIndex) (hover : Overtakes E (getLongestChain s₁) blk)
    (hbase : baseOf s₁.stores c.store = some 0) (hbacked : Backed E s₁.stores c.store lbs' c) :
    Mirrors E (lbs' ++ [loaded E blk]) (attach s₁ S c' i (settleHash E blk)) := by
  have hr := replayed_attach ho ha h.replayed
  have hread := readable_attach ho ha h.readable fun data hd => firstReplays_attached ho ha h.replayed hd
  have hmem := List.mem_of_getElem? ho.getElem?
  have hsane := h.readable.heads c hmem
  have hlt := h.readable.stores c hmem
  obtain ⟨hhash, hhead, -, -⟩ := grown ho hsane ha
  obtain ⟨hnew, hheight, hfull⟩ := hbacked.applied hsane.1 hlt ha (origin_height ho)
  have hp := attach_better S (settleHash E blk) ho.lt_length hi
    (by rw [keepsLongest_iff hhash hhead]; exact not_not.mpr hover)
  obtain ⟨st, data, -, -, -, rfl, hc'⟩ := (applyBlock_ok_iff hsane.1).mp ha
  have hstore' : c'.store = c.store := by rw [hc']; rfl
  have hlayered : Layered (persist E s₁.stores c.store blk data) :=
    (h.readable.layered.set _ _ _).set _ _ _
  have hbase' : baseOf (persist E s₁.stores c.store blk data) c'.store = some 0 := by
    rw [baseOf_persist, hstore', hbase]
  obtain ⟨own, del, hobj⟩ := baseOf_eq_some_iff.mp hbase'
  have hcommit : commitStore (persist E s₁.stores c.store blk data) c' =
      (commit (persist E s₁.stores c.store blk data) c'.store, { c' with store := 0 }) := by
    unfold commitStore
    rw [hbase']
  have hl : getLongestChain (attach s₁ (persist E s₁.stores c.store blk data) c' i (settleHash E blk)) =
      { c' with store := 0 } := by rw [hp.getLongestChain ho.lt_length, hcommit]
  have hS := hp.stores.trans (congrArg Prod.fst hcommit)
  have hchains := hp.chains.trans (congrArg (fun p => s₁.chains.set i p.2) hcommit)
  have hview := entry_commit_base hlayered hobj
  -- no store holds a block above the new head
  have hcount : lbs.length ≤ (lbs' ++ [loaded E blk]).length := by
    rw [List.length_append, List.length_singleton]
    by_cases hnil : lbs = []
    · rw [hnil]
      exact Nat.zero_le _
    · have hold := h.backed.headHeight hnil
      have hle : (getLongestChain s₁).headHeight ≤ blk.header.height := by
        rcases hover with hgt | ⟨heq, -⟩
        · exact UInt64.le_of_lt hgt
        · rw [heq]
          exact UInt64.le_refl _
      have hnat := UInt64.le_iff_toNat_le.mp hle
      rw [hheight, UInt64.toNat_ofNat_of_lt' hfull] at hnat
      omega
  have hkey : KeyBelow (lbs' ++ [loaded E blk]).length (encodeNamecoinBlockKey blk.header.height) :=
    .inr ⟨lbs'.length, by simp, by rw [hheight]⟩
  have hlayers := layers_persist (E := E) (fun b d del hm key v hv =>
    (h.layers b d del hm key v hv).mono hcount) hkey c.store data
  have hkeys := keys_persist (E := E) (fun key d hd => (h.keys key d hd).mono hcount) hkey c.store data
  refine ⟨hr, hread, ?_, ?_, ?_, ?_, fun key d hd => ?_, ?_⟩
  · rw [hl]
  · rw [hS, hl]
    refine hnew.congr rfl fun k _ => ?_
    rw [hview, hstore']
  · rw [hS, hl, hview, hstore']
    exact (entry_persist_last data hlt).trans hhash.symm
  · rw [hS]
    exact LayersHold.commit hlayered hlayers hobj
  · rw [hS, hview, (entry_overlay hlayered hobj).2.2] at hd
    cases hown : own.lookup key with
    | some v => exact hlayers 0 own del (obj_mem hobj) key v hown
    | none =>
      rw [hown] at hd
      exact hkeys key d hd
  · rw [hS, hchains]
    refine empties_set (fun id => ?_) h (show c'.headHash ≠
      none by rw [hhash]; exact Option.some_ne_none _)
    rw [baseOf_commit hlayered hobj, baseOf_persist]

/-! ### Turns -/

/-- What the store of a chain shows leads to the head of the chain. -/
def Rereads (E : Env) (s : ChainService) (c : NamecoinChain) : Prop :=
  ∃ f, c.forkUpToHeight E s.stores c.headHeight c.store = .ok f ∧ f.headHash = c.headHash ∧
    f.state = c.state

/-- The condition on a turn with a block that is not known yet. The chain that is there for the
block is the canonical one, or it is not on the oldest store; and if the block is better than the
canonical head, that chain is the canonical one, or it has no blocks, or its store is directly on
top of the oldest one and still shows its blocks; and a chain that would be forked for such a block
is on the oldest store. -/
structure Clear (E : Env) (s : ChainService) (blk : Block) : Prop where
  apart : ∀ c i, chainFor s blk = some (c, i) → i = s.longestChainIndex ∨ c.store ≠ 0
  direct : Overtakes E (getLongestChain s) blk → ∀ c i, chainFor s blk = some (c, i) →
    i = s.longestChainIndex ∨ isEmpty c ∨ (baseOf s.stores c.store = some 0 ∧ Rereads E s c)
  forked : Overtakes E (getLongestChain s) blk → chainFor s blk = none →
    ∀ m, s.blockIndex.lookup (hashKeyHex blk.header.prevHash) = some m → ∀ base, Longest s m.chains base →
    base.store = 0

theorem clear_origin (ho : Origin E visit s index blk s₁ c i) (hvisit : ∀ is i, i ∈ visit is ↔ i ∈ is)
    (hclear : Clear E s blk) (h : Mirrors E lbs s) (h₁ : Mirrors E lbs s₁)
    (hhome : Home index s) :
    i = s₁.longestChainIndex ∨ (c.store ≠ 0 ∧ (Overtakes E (getLongestChain s₁) blk →
      baseOf s₁.stores c.store = some 0 ∧ ∃ lbs', Backed E s₁.stores c.store lbs' c)) := by
  rw [ho.longestChainIndex, ho.getLongestChain]
  have hnil : ∀ {d : NamecoinChain} {S : Heap}, d ∈ s₁.chains → d.headHash = none →
      ∃ lbs', Backed E S d.store lbs' d := fun {d S} hd hnone => by
    obtain ⟨blks, hb⟩ := h₁.replayed d hd
    exact ⟨[], backed_nil (replayed_none hb hnone) S d.store⟩
  have hthere : s₁ = s → chainFor s blk = some (c, i) → i = s.longestChainIndex ∨ (c.store ≠ 0 ∧
      (Overtakes E (getLongestChain s) blk →
        baseOf s₁.stores c.store = some 0 ∧ ∃ lbs', Backed E s₁.stores c.store lbs' c)) := by
    rintro rfl hfor
    have hmem := List.mem_of_getElem? ho.getElem?
    by_cases hi : i = s₁.longestChainIndex
    · exact .inl hi
    · have hstore := (hclear.apart c i hfor).resolve_left hi
      refine .inr ⟨hstore, fun hover => ?_⟩
      rcases (hclear.direct hover c i hfor).resolve_left hi with hempty | ⟨hbase, f, hf, hhash, hstate⟩
      · exact ⟨(h₁.empties c hmem hempty).resolve_left hstore, hnil hmem hempty.1⟩
      · refine ⟨hbase, ?_⟩
        by_cases hnone : c.headHash = none
        · exact hnil hmem hnone
        · obtain ⟨lbs', hb⟩ := backed_fork hf (hhash ▸ hnone)
          have hhead : headOf c = headOf f := by
            unfold headOf
            rw [hhash, hstate, (fork_run hf).2.1]
          exact ⟨lbs', hb.congr hhead fun _ _ => rfl⟩
  have hmem := List.mem_of_getElem? ho.getElem?
  rcases origin_made ho with ⟨heq, hfor⟩ | ⟨hfor, -, -⟩
  · exact hthere heq hfor
  · cases ho with
    | empty h0 hf => exact hthere rfl ((if_pos h0).trans hf)
    | head h0 hp hf => exact hthere rfl ((if_neg h0).trans hf)
    | @fresh ref _ _ _ href =>
      refine .inr ⟨h.stores_pos.ne', fun _ => ⟨?_, hnil hmem rfl⟩⟩
      show baseOf (.overlay ref.store ∅ ∅ :: s.stores) s.stores.length = some 0
      unfold baseOf
      rw [obj, if_pos rfl, hhome.store href]
    | @fork m base _ _ _ _ hl hbase hf =>
      obtain ⟨-, -, hstore, -⟩ := fork_run hf
      have hhead := fork_has_head h.readable (pickBase_mem hbase) hf
      have hS : (withFork E s base c).stores = .overlay base.store ∅ ∅ :: s.stores :=
        stores_indexChain _ _ _
      refine .inr ⟨hstore ▸ h.stores_pos.ne', fun hover => ⟨?_, ?_⟩⟩
      · rw [hS, hstore]
        unfold baseOf
        rw [obj, if_pos rfl, hclear.forked hover hfor m hl base (longest_of_pickBase (hvisit _) hbase)]
      · obtain ⟨lbs', hb⟩ := backed_fork hf hhead
        rw [hS, hstore]
        exact ⟨lbs', hb⟩

theorem home_origin (ho : Origin E visit s index blk s₁ c i) (h : Home index s) : Home index s₁ := by
  obtain ⟨ref, href, hstore⟩ := h
  refine ⟨ref, ?_, hstore⟩
  rcases ho.chains with heq | heq
  · rw [heq, href]
  · rw [heq, List.getElem?_append_left (List.getElem?_eq_some_iff.mp href).1, href]

theorem home_attach (ho : Origin E visit s index blk s₁ c i)
    (ha : c.applyBlock E s₁.stores blk = .ok (S, c')) (h : Mirrors E lbs s₁) (hhome : Home index s₁) :
    Home index (attach s₁ S c' i (settleHash E blk)) := by
  have hsane := h.readable.heads c (List.mem_of_getElem? ho.getElem?)
  obtain ⟨st, data, -, -, -, rfl, hc'⟩ := (applyBlock_ok_iff hsane.1).mp ha
  have hstore' : c'.store = c.store := by rw [hc']; rfl
  have hset : ∀ d : NamecoinChain, (i = index.toNat → d.store = 0) →
      ∃ ref, (s₁.chains.set i d)[index.toNat]? = some ref ∧ ref.store = 0 := fun d hd => by
    by_cases hi : i = index.toNat
    · rw [← hi]
      exact ⟨d, List.getElem?_set_self ho.lt_length, hd hi⟩
    · rw [List.getElem?_set_ne hi]
      exact hhome
  rcases attach_cases (persist E s₁.stores c.store blk data) c'
    (settleHash E blk) ho.lt_length with ⟨-, heq⟩ | ⟨-, hp⟩
  · unfold Home
    rw [heq, chains_registerBlock]
    exact hset c' fun hi => hstore'.trans (hhome.store (hi ▸ ho.getElem?))
  · unfold Home
    rw [hp.chains]
    refine hset _ fun hi => ?_
    have hzero : c.store = 0 := hhome.store (hi ▸ ho.getElem?)
    -- the oldest store is not an overlay, so there is nothing to commit
    obtain ⟨-, hground, -⟩ := h.readable.layered.ground h.stores_pos
    have hnone : baseOf (persist E s₁.stores c.store blk data) c'.store = none := by
      rw [baseOf_persist, hstore', hzero, hground]
    unfold commitStore
    rw [hnone]
    exact hstore'.trans hzero

/-- **A clear turn** keeps the mirror. -/
theorem mirror_turn {o : Outcome ChainService Block Err} (ht : Turn E visit index s blk o)
    (hvisit : ∀ is i, i ∈ visit is ↔ i ∈ is)
    (hclear : ¬ blockKnown s blk.hash blk.header.height → Clear E s blk) (h : Mirrors E lbs s)
    (hhome : Home index s) : (∃ lbs', Mirrors E lbs' o.state) ∧ Home index o.state := by
  have hpop : ∀ {s' : ChainService} (hash : Slice UInt8), (∃ lbs', Mirrors E lbs' s') ∧ Home index s' →
      (∃ lbs', Mirrors E lbs' (popWaitingChildren s' hash).1) ∧
      Home index (popWaitingChildren s' hash).1 := by
    rintro s' hash ⟨⟨lbs', h'⟩, hh⟩
    obtain ⟨pool, heq⟩ := popWaitingChildren_eq s' hash
    rw [heq]
    exact ⟨⟨lbs', h'.pool pool⟩, hh⟩
  have hstore : ∀ {s' : ChainService} (b : Block), Mirrors E lbs s' → Home index s' →
      (∃ lbs', Mirrors E lbs' (storeOrphan s' b)) ∧ Home index (storeOrphan s' b) :=
      fun {s'} b h' hh => by
    obtain ⟨pool, heq⟩ := storeOrphan_eq s' b
    rw [heq]
    exact ⟨⟨lbs, h'.pool pool⟩, hh⟩
  have horigin : ∀ {s₁ : ChainService} {c : NamecoinChain} {i : ℕ}, Origin E visit s index blk s₁ c i →
      Mirrors E lbs s₁ ∧ Home index s₁ := fun ho => ⟨mirror_origin ho h hhome, home_origin ho hhome⟩
  cases ht with
  | known => exact hpop _ ⟨⟨lbs, h⟩, hhome⟩
  | unknownParent => exact hstore _ h hhome
  | noFork => exact ⟨⟨lbs, h⟩, hhome⟩
  | notNext _ ho => exact hstore _ (horigin ho).1 (horigin ho).2
  | invalid _ ho => exact ⟨⟨lbs, (horigin ho).1⟩, (horigin ho).2⟩
  | @attached s₁ c c' i S hk ho ha =>
    obtain ⟨h₁, hhome₁⟩ := horigin ho
    refine hpop _ ⟨?_, home_attach ho ha h₁ hhome₁⟩
    by_cases hi : i = s₁.longestChainIndex
    · subst hi
      exact ⟨_, mirror_extended ho ha h₁⟩
    · obtain ⟨hne, hready⟩ := (clear_origin ho hvisit (hclear hk) h h₁ hhome).resolve_left hi
      by_cases hover : Overtakes E (getLongestChain s₁) blk
      · obtain ⟨hbase, lbs', hb⟩ := hready hover
        exact ⟨_, mirror_promoted ho ha h₁ hi hover hbase hb⟩
      · exact ⟨_, mirror_aside ho ha h₁ hi hne hover⟩

/-! ### Runs -/

/-- The oldest store mirrors the canonical chain: under the keys of the heights up to that of the head
it has the blocks that lead to the head, under the key of the last block it has the hash of the head,
and the chain that is loaded has that head. -/
structure Mirrored (E : Env) (s : ChainService) : Prop where
  blocks : ∃ blks, Replayed E blks (headOf (getLongestChain s)) ∧
    ((getLongestChain s).headHash ≠ none → blks.length = (getLongestChain s).headHeight.toNat + 1) ∧
    ∀ i (hi : i < blks.length), ∃ data, entry s.stores 0 (encodeNamecoinBlockKey (UInt64.ofNat i)) =
    some data ∧ decodeLoadedBlock E ⟨UInt64.ofNat i, data⟩ = .ok blks[i]
  last : entry s.stores 0 namecoinLastBlockKey = (getLongestChain s).headHash
  load : E.CollisionFree → (loadNamecoinChain E s.stores 0).2.headHash = (getLongestChain s).headHash ∧
    (loadNamecoinChain E s.stores 0).2.headHeight = (getLongestChain s).headHeight

theorem Mirrors.shown (h : Mirrors E lbs s) : Mirrored E s := by
  refine ⟨?_, h.last, fun hc => ?_⟩
  · obtain ⟨hashes, hrun⟩ := h.backed.replay
    obtain ⟨blks, hb, hall⟩ := ReplayRun.replayed hrun .start
    refine ⟨blks, hb, fun hsome => ?_, fun i hi => ?_⟩
    · rw [← hall.length_eq]
      exact (h.backed.headHeight fun hnil => hsome (h.backed.eq_nil_iff.mp hnil)).symm
    · have hi' : i < lbs.length := hall.length_eq ▸ hi
      have hheight := Shown.height_eq h.backed.shown hi'
      refine ⟨lbs[i].raw, ?_, ?_⟩
      · rw [← hheight]
        exact h.backed.shown.entries _ (List.getElem_mem hi')
      · rw [← hheight]
        exact (hall.get hi' hi).1
  · have hload := h.backed.load hc h.readable.layered h.stores_pos h.last h.keys
    exact ⟨congrArg ReplayState.headHash hload, congrArg ReplayState.headHeight hload⟩

theorem mirrors_new (cfg : PoWConfig) :
    Mirrors E [] (newChainService E [.mem ∅] (configurePow cfg (newNamecoinChain 0))) := by
  obtain ⟨hs, -⟩ := single_new (E := E) cfg
  have hl : getLongestChain (newChainService E [.mem ∅] (configurePow cfg (newNamecoinChain 0))) =
      configurePow cfg (newNamecoinChain 0) := getLongestChain_eq (by rw [hs.index, hs.chains]; rfl)
  have hmem : ∀ c ∈ (newChainService E [.mem ∅] (configurePow cfg (newNamecoinChain 0))).chains,
      c = configurePow cfg (newNamecoinChain 0) :=
      fun c hc => by rwa [hs.chains, List.mem_singleton] at hc
  refine ⟨fun c hc => ?_, ?_, ?_, ?_, ?_, ?_, ?_, fun c hc _ => ?_⟩
  · rw [hmem c hc]
    exact ⟨[], .start⟩
  · exact readable_new rfl ⟨rfl, fun _ => rfl⟩ fun _ _ data hd => by simp at hd
  · rw [hl]
    rfl
  · rw [hl]
    exact backed_nil rfl _ _
  · rw [hl, hs.stores]
    rfl
  · rw [hs.stores]
    exact fun b d del hm => by simp at hm
  · rw [hs.stores]
    exact fun key data hd => by cases hd
  · rw [hmem c hc]
    exact .inl rfl

/-- **The oldest store mirrors the canonical chain** in every state that is reached by clear turns. -/
theorem mirrored {cfg : PoWConfig} {calls : List Block}
    (h : Deliveries E (fun s blk => ¬ blockKnown s blk.hash blk.header.height → Clear E s blk)
      (newChainService E [.mem ∅] (configurePow cfg (newNamecoinChain 0))) calls s) : Mirrored E s := by
  have hall := h.invariant (I := fun index s => (∃ lbs, Mirrors E lbs s) ∧ Home index s)
    (fun index s hI => ?_) (fun order n index s blk o ht hC hI => ?_) ?_
  · obtain ⟨⟨lbs, hm⟩, -⟩ := hall
    exact hm.shown
  · obtain ⟨⟨lbs, hm⟩, -⟩ := hI
    exact ⟨⟨lbs, hm⟩, _, getElem?_longest s, hm.store⟩
  · obtain ⟨⟨lbs, hm⟩, hhome⟩ := hI
    exact mirror_turn ht (order.mem_visit n) hC hm hhome
  · have hm := mirrors_new (E := E) cfg
    exact ⟨⟨[], hm⟩, _, getElem?_longest _, hm.store⟩

theorem clear_single {c : NamecoinChain} (h : Single S c s) (hstore : c.store = 0)
    (h0 : blk.header.height = 0) :
    Clear E s blk := by
  have hfor : ∀ d i, chainFor s blk = some (d, i) → i = s.longestChainIndex := fun d i hfor => by
    unfold chainFor at hfor
    rw [if_pos h0] at hfor
    have hget := (firstChain_some hfor).1
    rw [h.chains] at hget
    obtain ⟨hlt, -⟩ := List.getElem?_eq_some_iff.mp hget
    rw [List.length_singleton] at hlt
    rw [h.index]
    omega
  refine ⟨fun d i hd => .inl (hfor d i hd), fun _ d i hd => .inl (hfor d i hd),
    fun _ _ m _ base hbase => ?_⟩
  have hmem := hbase.mem
  rw [h.chains, List.mem_singleton] at hmem
  rw [hmem, hstore]

/-- A second first block replaces the first one, also in the store. -/
theorem mirrored_rivals : ∃ (E : Env) (cfg : PoWConfig) (g g' : Block) (s : ChainService),
    Deliveries E (fun s blk => ¬ blockKnown s blk.hash blk.header.height → Clear E s blk)
      (newChainService E [.mem ∅] (configurePow cfg (newNamecoinChain 0))) [g, g'] s ∧
      s.longestChainIndex = 1 ∧ (getLongestChain s).headHash = some (computeHash E g') ∧
      Mirrored E s := by
  obtain ⟨target, data, data', hg, hg'⟩ := plain_rivals
  have hs := (single_new (E := plainEnv) (staticConfig target)).1
  obtain ⟨s, hd, hp, -⟩ := two_firsts (C := fun s blk => ¬ blockKnown s blk.hash blk.header.height →
    Clear plainEnv s blk) hg hg' plain_firsts_less (fun _ => clear_single hs rfl rfl) fun s h _ =>
    clear_single h rfl rfl
  refine ⟨plainEnv, staticConfig target, _, _, s, hd, hp.index, ?_, mirrored hd⟩
  rw [getLongestChain_eq (by rw [hp.index, hp.chains]; rfl)]
  rfl

/-! ### A late block on an abandoned branch -/

theorem not_mirrored {g a : Block} {data : Bytes} (hc : E.CollisionFree) (h0 : g.header.height = 0)
    (hdata : marshal E (settleHash E g) = .ok data)
    (hentry : entry s.stores 0 (encodeNamecoinBlockKey 0) = some data)
    (hhash : (getLongestChain s).headHash = some (computeHash E a))
    (hheight : (getLongestChain s).headHeight = 1) (hprev : elems a.header.prevHash ≠ computeHash E g) :
    ¬ Mirrored E s := by
  intro hm
  obtain ⟨blks, hb, hlen, hshown⟩ := hm.blocks
  have htwo : blks.length = 2 := by
    rw [hlen (by rw [hhash]; exact Option.some_ne_none _), hheight]
    rfl
  obtain ⟨x, y, rfl⟩ := List.length_eq_two.mp htwo
  have hbranch := branch_of_replayed hb
  obtain ⟨d, hd, hdec⟩ := hshown 0 (by simp)
  cases hentry.symm.trans hd
  have hx : computeHash E x = computeHash E g := by
    have hstored := decodeLoadedBlock_stored hdata
    rw [settleHash_header, h0] at hstored
    cases hdec.symm.trans hstored
    exact computeHash_settleHash g
  have hy : y.header = a.header := by
    have hlast : some (computeHash E a) = some (computeHash E y) :=
      hhash.symm.trans (hbranch.last y rfl).1
    exact serializeHeader_injective (hc (Option.some.inj hlast).symm)
  obtain ⟨-, hlink⟩ := List.isChain_pair.mp hbranch.links
  exact hprev (by rw [← hy, hlink, hx])

/-- A service after the first block `g` of the canonical chain has been replaced by `g'` and
has then got the successor `a` of its own. The chain of `g` and `a` is the canonical one again,
but the store shows `g'`. -/
structure Late (E : Env) (g g' a : Block) (data' : Bytes) (s : ChainService) : Prop where
  chains : ∃ c c', s.chains = [c, c'] ∧ c.store = 0 ∧ c.headHash = some (computeHash E a) ∧
    c.headHeight = 1 ∧ c'.headHash = some (computeHash E g') ∧ c'.headHeight = 0
  index : s.longestChainIndex = 0
  entry : entry s.stores 0 (encodeNamecoinBlockKey 0) = some data'
  entered : Entered s (hashKeyHex (some (computeHash E g))) 0 0
  first : g.header.height = 0
  height : a.header.height = 1
  prevHash : a.header.prevHash = some (computeHash E g)

theorem Late.head {g g' a : Block} {data' : Bytes} (h : Late E g g' a data' s) :
    (getLongestChain s).headHash = some (computeHash E a) ∧ (getLongestChain s).headHeight = 1 := by
  obtain ⟨c, c', hchains, -, hhash, hheight, -⟩ := h.chains
  rw [getLongestChain_eq (c := c) (by rw [h.index, hchains]; rfl)]
  exact ⟨hhash, hheight⟩

/-- **A late child**: a second first block that is better, and then a child of the first one. -/
theorem late_child {target : ℤ} {g g' : Block} {data data' : Bytes} {st st' : NamecoinState}
    (hg : First E target g data st) (hg' : First E target g' data' st')
    (hless : bytesLess (computeHash E g') (computeHash E g))
    (hstatic : Static target (chainAfter E (emptyChain target 0) g st))
    (hquiet : (chainAfter E (emptyChain target 0) g st).state.expires = ∅) {nonce : UInt64}
    (hwork : (workOf E (blockOn E (chainAfter E (emptyChain target 0) g st) [] nonce) : ℤ) ≤ target) :
    ∃ s, Deliveries E (fun _ _ => True) (newChainService E [.mem ∅] (emptyChain target 0))
      [g, g', blockOn E (chainAfter E (emptyChain target 0) g st) [] nonce] s ∧
      Late E g g' (blockOn E (chainAfter E (emptyChain target 0) g st) [] nonce) data' s := by
  obtain ⟨s, hd, hp, hlen, hground, hentry, hentered⟩ :=
    two_firsts (C := fun _ _ => True) hg hg' hless True.intro fun _ _ => True.intro
  generalize hcdef : chainAfter E (emptyChain target 0) g st = c at *
  have hhash : c.headHash = some (computeHash E g) := by rw [← hcdef]; rfl
  have hheight : c.headHeight = 0 := by rw [← hcdef]; exact hg.height
  have hstore : c.store = 0 := by rw [← hcdef]; rfl
  have hok : HeadOK c.headHash := by rw [hhash]; exact cloneBytes_some (E.sha256_ne_nil _)
  have hstep : StrictRun E [] (atHeight (nextHeight c) c.state) (setHeight (nextHeight c) c.state) := by
    rw [atHeight_of_no_expires hquiet]
    exact .nil _
  have hle : (toNatBE (computeHash E (blockOn E c [] nonce)) : ℤ) ≤ effectiveTarget c.powTarget := by
    rw [hstatic.target]
    exact hwork
  obtain ⟨dataA, -, ha⟩ := applyBlock_blockOn (S := s.stores) hok (by simp) hstep hle
  generalize hadef : blockOn E c [] nonce = a at *
  have h1 : a.header.height = 1 := by
    rw [← hadef]
    show nextHeight c = 1
    rw [nextHeight, hhash, if_neg (Option.some_ne_none _), hheight]
    rfl
  have hprev : a.header.prevHash = some (computeHash E g) := by rw [← hadef]; exact hhash
  have hnone : a.hash = none := by rw [← hadef]; rfl
  -- the abandoned chain is the one whose head is the parent
  have ho : Origin E (numbered.visit 0) s s.longestChainIndex a s c 0 := by
    refine .head (by rw [h1]; decide) (by rw [hprev]; exact Option.some_ne_none _) ?_
    unfold findHeadByHash firstChain
    rw [hp.chains, hprev]
    simp [bytesEqual, hhash]
  have hturn := processSingleBlock_attached (not_blockKnown_of_none hnone) ho ha hp.orphans
  have hdel := hd.next numbered a
  unfold appendBlockToLongestChain at hdel
  rw [appendBlockToChain_single hturn] at hdel
  have hover : Overtakes E (getLongestChain s) a := by
    left
    rw [getLongestChain_eq (c := chainAfter E (emptyChain target 0) g' st')
      (by rw [hp.index, hp.chains]; rfl), h1]
    show g'.header.height < 1
    rw [hg'.height]
    decide
  have hbetter := attach_better (persist E s.stores c.store a dataA) (settleHash E a) ho.lt_length
    (c := chainAfter E c a (setHeight (nextHeight c) c.state)) (by rw [hp.index]; decide)
    (by rw [keepsLongest_iff rfl rfl]; exact not_not.mpr hover)
  have hbase : baseOf (persist E s.stores c.store a dataA)
      (chainAfter E c a (setHeight (nextHeight c) c.state)).store = none := by
    rw [baseOf_persist, show (chainAfter E c a _).store = c.store from rfl, hstore, hground]
  have hcommit : commitStore (persist E s.stores c.store a dataA)
      (chainAfter E c a (setHeight (nextHeight c) c.state)) =
      (persist E s.stores c.store a dataA, chainAfter E c a (setHeight (nextHeight c) c.state)) := by
    unfold commitStore
    rw [hbase]
  have hstays : Entered (appendBlockToChain E numbered s.longestChainIndex s a).1
      (hashKeyHex (some (computeHash E g))) 0 0 :=
    appendBlockToChain_invariant (I := fun s => Entered s (hashKeyHex (some (computeHash E g))) 0 0)
      (fun _ _ _ _ ht h => h.turn ht) hentered
  rw [appendBlockToChain_single hturn] at hstays
  refine ⟨_, hdel, ⟨⟨chainAfter E c a (setHeight (nextHeight c) c.state),
    chainAfter E (emptyChain target 0) g' st', ?_, hstore, rfl, h1, rfl, hg'.height⟩, hbetter.index, ?_,
    hstays, hg.height, h1, hprev⟩⟩
  · rw [hbetter.chains, hcommit, hp.chains]
    rfl
  · rw [hbetter.stores, hcommit, persist, entry_set_of_ne (encode_ne_last 0), entry_set_of_ne, hentry]
    rw [h1]
    exact fun heq => absurd (encode_injective heq) (by decide)

theorem Late.not_mirrored {target : ℤ} {g g' a : Block} {data' : Bytes} {st' : NamecoinState}
    (hc : E.CollisionFree) (hg' : First E target g' data' st')
    (hless : bytesLess (computeHash E g') (computeHash E g)) (h : Late E g g' a data' s) :
    ¬ Mirrored E s := by
  refine Mirror.not_mirrored hc hg'.height hg'.marshal h.entry h.head.1 h.head.2 ?_
  rw [h.prevHash]
  exact fun heq => bytesLess_irrefl _ (heq ▸ hless)

/-- Two children of a first block, of which either one comes late: after that first
block and a better one. -/
theorem exists_late : ∃ (target : ℤ) (g g' a b : Block) (data' : Bytes) (st' : NamecoinState)
      (s s' : ChainService),
    First plainEnv target g' data' st' ∧ bytesLess (computeHash plainEnv g') (computeHash plainEnv g) ∧
      (a.hash = none ∧ b.hash = none ∧ a.header ≠ b.header) ∧
      (Deliveries plainEnv (fun _ _ => True) (newChainService plainEnv [.mem ∅] (emptyChain target 0))
        [g, g', a] s ∧ Late plainEnv g g' a data' s) ∧
      (Deliveries plainEnv (fun _ _ => True) (newChainService plainEnv [.mem ∅] (emptyChain target 0))
        [g, g', b] s' ∧ Late plainEnv g g' b data' s') := by
  let first (nonce : UInt64) : Block := blockAt plainEnv 0 none [] nonce
  let next (nonce : UInt64) : Block := blockAt plainEnv 1 (some (computeHash plainEnv (first 0))) [] nonce
  let target : ℤ := workOf plainEnv (first 0) + workOf plainEnv (first 1) + workOf plainEnv (next 0) +
    workOf plainEnv (next 1)
  obtain ⟨data₀, h₀⟩ := first_quiet plainEnv 0 (show (workOf plainEnv (first 0) : ℤ) ≤ target by omega)
  obtain ⟨data₁, h₁⟩ := first_quiet plainEnv 1 (show (workOf plainEnv (first 1) : ℤ) ≤ target by omega)
  have hstatic : Static target (chainAfter plainEnv (emptyChain target 0) (first 0)
      (atHeight 0 newState)) :=
    (static_emptyChain target 0).after _
  have hne : (next 0).header ≠ (next 1).header := fun heq => by
    have h01 : (0 : UInt64) = 1 := congrArg BlockHeader.nonce heq
    exact absurd h01 (by decide)
  obtain ⟨s, hs⟩ := late_child h₀ h₁ plain_firsts_less hstatic rfl
    (show (workOf plainEnv (next 0) : ℤ) ≤ target by omega)
  obtain ⟨s', hs'⟩ := late_child h₀ h₁ plain_firsts_less hstatic rfl
    (show (workOf plainEnv (next 1) : ℤ) ≤ target by omega)
  exact ⟨target, first 0, first 1, next 0, next 1, _, _, s, s', h₁, plain_firsts_less,
    ⟨rfl, rfl, hne⟩, hs, hs'⟩

/-- **A late block on an abandoned branch** is written over the blocks of the canonical chain. -/
theorem late_block : ∃ (E : Env) (cfg : PoWConfig) (calls : List Block) (s : ChainService),
    Deliveries E (fun _ _ => True) (newChainService E [.mem ∅] (configurePow cfg (newNamecoinChain 0)))
      calls s ∧ ¬ Mirrored E s := by
  obtain ⟨target, g, g', a, b, data', st', s, s', hg', hless, -, ⟨hd, hs⟩, -⟩ := exists_late
  exact ⟨plainEnv, staticConfig target, _, s, hd, hs.not_mirrored plainEnv_collisionFree hg' hless⟩

end Namecoin.Service.Mirror
