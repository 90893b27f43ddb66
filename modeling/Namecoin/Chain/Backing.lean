import Namecoin.Chain.Forks
import Namecoin.Chain.Overlays

/-! # Chains that their store shows

A store may show, under the keys of the heights from 0 on, blocks that lead to the head of a chain
(`Backed`). A block that the chain accepts is one more of them (`Backed.applied`), and a fork is backed
by the store it has been read from (`backed_fork`).

* `Backed.load`: **`LoadNamecoinChain` returns the head** of a chain that the oldest store backs, if
  that store has no other blocks and the head is the last one that has been written. -/

namespace Namecoin.Chain.Backing

open Lib.ByteStrings Types.Defs Types.TxCodec Types.BlockCodec Chain.Stores Chain.Overlays
open Chain.Defs Chain.Apply Chain.Replay Chain.Reload Chain.Forks

variable {E : Env} {S S' : Heap} {id id' : ℕ} {lbs : List LoadedBlock}
  {c c' : NamecoinChain} {blk : Block}

/-- The blocks that a store shows lead to the head of the chain. -/
structure Backed (E : Env) (S : Heap) (id : ℕ) (lbs : List LoadedBlock) (c : NamecoinChain) : Prop where
  shown : Shown S id lbs.length lbs
  length_le : lbs.length ≤ 2 ^ 64
  replay : ∃ hashes, ReplayRun E replayStart lbs hashes (headOf c)

theorem Shown.height_eq (h : Shown S id lbs.length lbs) {i : ℕ} (hi : i < lbs.length) :
    lbs[i].height = UInt64.ofNat i := by
  have hmap := congrArg (·[i]?) h.heights
  simpa [hi] using hmap

theorem Shown.congr (h : Shown S id lbs.length lbs)
    (he : ∀ i < lbs.length, entry S' id' (encodeNamecoinBlockKey (UInt64.ofNat i)) =
      entry S id (encodeNamecoinBlockKey (UInt64.ofNat i))) : Shown S' id' lbs.length lbs := by
  refine ⟨h.heights, fun lb hlb => ?_⟩
  obtain ⟨i, hi, hheight⟩ := h.height hlb
  rw [hheight, he i hi, ← hheight]
  exact h.entries lb hlb

theorem ReplayRun.last {r r' : ReplayState} {front : List LoadedBlock} {lb : LoadedBlock}
    {hashes : List Bytes} (h : ReplayRun E r (front ++ [lb]) hashes r') :
    ∃ hs hash, hashes = hs ++ [hash] ∧ hash ≠ [] ∧
      r'.headHash = some hash ∧ r'.headHeight = lb.height := by
  obtain ⟨r₁, hx, hy, -, hlast, rfl⟩ := ReplayRun.append_inv h
  cases hlast with
  | cons hone hnil =>
    cases hnil
    obtain ⟨b, state, hdec, -, -, -, -, rfl, rfl⟩ := replayOne_ok_iff.mp hone
    exact ⟨hx, _, rfl, E.sha256_ne_nil _, rfl, decodeLoadedBlock_height hdec⟩

/-- The stored bytes are those of a block, and its transaction root is right. -/
def StoredAs (E : Env) (lb : LoadedBlock) (b : Block) : Prop :=
  decodeLoadedBlock E lb = .ok b ∧ computeTxRoot E b.transactions = .ok (elems b.header.txRoot)

/-- The blocks of a replay, decoded; the hashes they are stored with fit. -/
theorem ReplayRun.blocks {r r' : ReplayState} {hashes : List Bytes} (h : ReplayRun E r lbs hashes r') :
    ∀ {front : List Block}, Replayed E front r → ∃ blks, Replayed E (front ++ blks) r' ∧
      List.Forall₂ (fun lb b => StoredAs E lb b ∧ hashFits E b) lbs blks := by
  induction h with
  | nil r => exact fun {front} hf => ⟨[], by rwa [List.append_nil], .nil⟩
  | cons hone _ ih =>
    intro front hf
    obtain ⟨b, state, hdec, hfits, hnext, hroot, ha, -, rfl⟩ := replayOne_ok_iff.mp hone
    obtain ⟨blks, hb, hall⟩ := ih (.step hf hnext ha)
    exact ⟨b :: blks, by rwa [List.append_assoc] at hb, .cons ⟨⟨hdec, hroot⟩, hfits⟩ hall⟩

theorem ReplayRun.replayed {r r' : ReplayState} {hashes : List Bytes} (h : ReplayRun E r lbs hashes r')
    {front : List Block} (hf : Replayed E front r) : ∃ blks, Replayed E (front ++ blks) r' ∧
      List.Forall₂ (StoredAs E) lbs blks := by
  obtain ⟨blks, hb, hall⟩ := ReplayRun.blocks h hf
  exact ⟨blks, hb, hall.imp fun _ _ hs => hs.1⟩

theorem Backed.eq_nil_iff (h : Backed E S id lbs c) : lbs = [] ↔ c.headHash = none := by
  obtain ⟨hashes, hrun⟩ := h.replay
  rcases List.eq_nil_or_concat' lbs with rfl | ⟨front, lb, rfl⟩
  · have hnone : (headOf c).headHash = none := by
      generalize headOf c = r at hrun
      cases hrun
      rfl
    exact iff_of_true rfl hnone
  · obtain ⟨_, hash, -, -, hhash, -⟩ := ReplayRun.last hrun
    refine iff_of_false (by simp) fun hn => ?_
    rw [show (headOf c).headHash = none from hn] at hhash
    cases hhash

theorem Backed.headHeight (h : Backed E S id lbs c) (hne : lbs ≠ []) :
    c.headHeight.toNat + 1 = lbs.length := by
  obtain ⟨hashes, hrun⟩ := h.replay
  obtain ⟨front, lb, rfl⟩ := (List.eq_nil_or_concat' lbs).resolve_left hne
  obtain ⟨_, _, -, -, -, hheight⟩ := ReplayRun.last hrun
  have hlast := Shown.height_eq h.shown (i := front.length) (by simp)
  have hle := h.length_le
  rw [List.length_append, List.length_singleton] at hle ⊢
  rw [List.getElem_concat_length rfl] at hlast
  rw [show c.headHeight = _ from hheight, hlast,
    UInt64.toNat_ofNat_of_lt' (show front.length < 2 ^ 64 by omega)]

theorem Backed.congr (h : Backed E S id lbs c) (hc : headOf c' = headOf c)
    (he : ∀ i < lbs.length, entry S' id' (encodeNamecoinBlockKey (UInt64.ofNat i)) =
      entry S id (encodeNamecoinBlockKey (UInt64.ofNat i))) : Backed E S' id' lbs c' :=
  ⟨Shown.congr h.shown he, h.length_le, by rw [hc]; exact h.replay⟩

/-- **One more block**: a chain that accepts a block and writes it to the store that shows its blocks. -/
theorem Backed.applied (h : Backed E S c.store lbs c) (hh : HeadOK c.headHash)
    (hstore : c.store < S.length) (ha : c.applyBlock E S blk = .ok (S', c'))
    (hwrap : c.headHash ≠ none → blk.header.height ≠ 0) :
    Backed E S' c.store (lbs ++ [loaded E blk]) c' ∧ blk.header.height = UInt64.ofNat lbs.length ∧
      lbs.length < 2 ^ 64 := by
  obtain ⟨hashes, hrun⟩ := h.replay
  have hone := replayOne_stored hh ha
  obtain ⟨st, data, hv, -, hdata, rfl, rfl⟩ := (applyBlock_ok_iff hh).mp ha
  have hnext := ensureNextBlockFollows_ok_iff.mp (validateBlockHeader_ok_iff.mp hv).2.1
  have hheight : blk.header.height = UInt64.ofNat lbs.length := by
    by_cases hnone : c.headHash = none
    · rw [if_pos hnone] at hnext
      rw [h.eq_nil_iff.mpr hnone, hnext.1]
      rfl
    · rw [if_neg hnone] at hnext
      have hcount := h.headHeight fun hnil => hnone (h.eq_nil_iff.mp hnil)
      rw [hnext.1, ← hcount, UInt64.ofNat_add, UInt64.ofNat_toNat]
      rfl
  have hlt : lbs.length < 2 ^ 64 := by
    refine lt_of_le_of_ne h.length_le fun hfull => ?_
    have hne : c.headHash ≠ none := fun hnone => by
      rw [h.eq_nil_iff.mpr hnone] at hfull
      cases hfull
    exact hwrap hne (by rw [hheight, hfull]; rfl)
  refine ⟨⟨⟨?_, fun lb hlb => ?_⟩, ?_, _, hrun.snoc hone⟩, hheight, hlt⟩
  · rw [List.length_append, List.length_singleton, List.range_succ, List.map_append, List.map_append,
      h.shown.heights, List.map_singleton, List.map_singleton, ← hheight]
    rfl
  · rw [persist, entry_set_of_ne (encode_ne_last _)]
    rcases List.mem_append.mp hlb with hlb | hlb
    · -- an older block has another height
      obtain ⟨k, hk, hkey⟩ := h.shown.height hlb
      rw [entry_set_of_ne fun he => ?_]
      · exact h.shown.entries lb hlb
      · have heq := encode_injective he
        rw [hkey, hheight] at heq
        have hnat := congrArg UInt64.toNat heq
        rw [UInt64.toNat_ofNat_of_lt' (hk.trans hlt), UInt64.toNat_ofNat_of_lt' hlt] at hnat
        omega
    · rw [List.mem_singleton.mp hlb]
      show entry (set S c.store (encodeNamecoinBlockKey blk.header.height) data) c.store
        (encodeNamecoinBlockKey blk.header.height) = some (dataOf E blk)
      rw [entry_set_self hstore, dataOf_eq hdata]
  · rw [List.length_append, List.length_singleton]
    exact hlt

theorem backed_fork {base f : NamecoinChain} {height : UInt64}
    (h : base.forkUpToHeight E S height id = .ok f) (hne : f.headHash ≠ none) :
    ∃ lbs, Backed E S id lbs f := by
  obtain ⟨-, -, -, -, lbs, hs, -, hrun⟩ := fork_run h
  have hlen : lbs.length = height.toNat + 1 := by
    have := congrArg List.length hs.heights
    simpa using this
  have hlt := height.toNat_lt
  exact ⟨lbs, hlen ▸ hs, by omega, hrun hne⟩

theorem backed_nil (h : headOf c = replayStart) (S : Heap) (id : ℕ) : Backed E S id [] c :=
  ⟨⟨rfl, by simp⟩, by simp, [], by rw [h]; exact .nil _⟩

/-- **The chain that is loaded** from the oldest store. -/
theorem Backed.load (hc : E.CollisionFree) (h : Backed E S 0 lbs c) (hl : Layered S) (hlen : 0 < S.length)
    (hlast : entry S 0 namecoinLastBlockKey = c.headHash)
    (hkeys : ∀ key data, entry S 0 key = some data → key = namecoinLastBlockKey ∨
      ∃ i < lbs.length, key = encodeNamecoinBlockKey (UInt64.ofNat i)) :
    headOf (loadNamecoinChain E S 0).2 = headOf c := by
  obtain ⟨m, -, hentry, hentries⟩ := hl.ground hlen
  obtain ⟨hashes, hrun⟩ := h.replay
  have hfiled : Filed m lbs := by
    refine ⟨fun key data hd => ?_, fun lb hlb => ?_, ?_⟩
    · rcases hkeys key data ((hentry key).trans hd) with hkey | ⟨i, hi, hkey⟩
      · exact .inl hkey
      · exact .inr ⟨lbs[i], List.getElem_mem hi, by rw [hkey, Shown.height_eq h.shown hi]⟩
    · rw [← hentry]
      exact h.shown.entries lb hlb
    · have hle := h.length_le
      refine List.pairwise_iff_getElem.mpr fun i j hi hj hij => ?_
      rw [Shown.height_eq h.shown hi, Shown.height_eq h.shown hj, UInt64.lt_iff_toNat_lt,
        UInt64.toNat_ofNat_of_lt' (show i < 2 ^ 64 by omega),
        UInt64.toNat_ofNat_of_lt' (show j < 2 ^ 64 by omega)]
      exact hij
  have hscan := hfiled.scanBlocks hentries
  rcases List.eq_nil_or_concat' lbs with rfl | ⟨front, lb, rfl⟩
  · have hstart : headOf c = replayStart := by
      generalize headOf c = r at hrun
      cases hrun
      rfl
    unfold loadNamecoinChain loadScanned
    rw [hscan, hstart]
    rfl
  · obtain ⟨hs, hash, rfl, hnil, hhash, -⟩ := ReplayRun.last hrun
    have hget : Stores.get S 0 namecoinLastBlockKey = some hash := by
      unfold Stores.get
      rw [hlast, show c.headHash = some hash from hhash]
      exact cloneBytes_some hnil
    have hreplay : (replayBlocks E (Stores.get S 0 namecoinLastBlockKey) (front ++ [lb]) replayStart).1 =
        headOf c := by
      rw [hget]
      exact hrun.replayBlocks_last rfl (hrun.hash_notMem hc hfiled.sorted)
    obtain ⟨seed, hload⟩ := loadNamecoinChain_of_scan hscan (by simp) hreplay
    rw [hload]
    rfl

end Namecoin.Chain.Backing
