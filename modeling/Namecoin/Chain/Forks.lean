import Namecoin.Chain.Reload

/-! # What a fork replays

`forkUpToHeight` reads one block for each height and replays them, skipping those that fail. A fork
that ends at the height it was asked for has skipped none, unless it has no block at all.

* `fork_run`: all the blocks that a fork with a head has read were replayed;
* `fork_head`: so its head is what its store shows at the height, replayed. -/

namespace Namecoin.Chain.Forks

open Lib.Ops Lib.ByteStrings Types.Defs Types.BlockCodec Chain.Stores Chain.Defs Chain.Apply
open Chain.Replay Chain.Reload

variable {E : Env}

/-! ### The loops -/

theorem entry_of_get {S : Heap} {id : ℕ} {key : String} {data : Bytes}
    (h : Stores.get S id key = some data) :
    entry S id key = some data := by
  unfold Stores.get at h
  cases he : entry S id key with
  | none => rw [he] at h; cases h
  | some v =>
    rw [he] at h
    dsimp only [cloneBytes] at h
    split_ifs at h
    exact h

/-- Loaded blocks that a store shows under the keys of the heights from 0 on. -/
structure Shown (S : Heap) (store n : ℕ) (lbs : List LoadedBlock) : Prop where
  heights : lbs.map LoadedBlock.height = (List.range n).map UInt64.ofNat
  entries : ∀ lb ∈ lbs, entry S store (encodeNamecoinBlockKey lb.height) = some lb.raw

theorem readBlocks_get {S : Heap} {store : ℕ} : ∀ {hs : List ℕ} {lbs : List LoadedBlock},
    readBlocks S store hs = .ok lbs →
      List.Forall₂ (fun h lb => Stores.get S store (encodeNamecoinBlockKey (UInt64.ofNat h)) =
        some lb.raw ∧ lb.height = UInt64.ofNat h) hs lbs
  | [], lbs, hr => by
    cases hr
    exact .nil
  | h :: hs, lbs, hr => by
    rw [readBlocks] at hr
    cases hg : Stores.get S store (encodeNamecoinBlockKey (UInt64.ofNat h)) with
    | none =>
      rw [hg] at hr
      cases hr
    | some raw =>
      rw [hg] at hr
      obtain ⟨rest, hrest, hr⟩ := except_bind_ok_iff.mp hr
      cases hr
      exact .cons ⟨hg, rfl⟩ (readBlocks_get hrest)

theorem shown_of_read {S : Heap} {store n : ℕ} {lbs : List LoadedBlock}
    (h : readBlocks S store (List.range n) = .ok lbs) : Shown S store n lbs := by
  suffices hall : lbs.map LoadedBlock.height = (List.range n).map UInt64.ofNat ∧
      ∀ lb ∈ lbs, entry S store (encodeNamecoinBlockKey lb.height) = some lb.raw from ⟨hall.1, hall.2⟩
  have hread := readBlocks_get h
  clear h
  generalize List.range n = hs at hread ⊢
  induction hread with
  | nil => simp
  | cons hlb _ ih =>
    refine ⟨?_, List.forall_mem_cons.mpr ⟨?_, ih.2⟩⟩
    · rw [List.map_cons, List.map_cons, hlb.2, ih.1]
    · rw [hlb.2]
      exact entry_of_get hlb.1

theorem Shown.snoc {S : Heap} {store n : ℕ} {lbs : List LoadedBlock} (h : Shown S store (n + 1) lbs) :
    ∃ front lb, lbs = front ++ [lb] ∧ Shown S store n front ∧ lb.height = UInt64.ofNat n := by
  obtain ⟨hheights, hentries⟩ := h
  rw [List.range_succ, List.map_append, List.map_singleton] at hheights
  obtain ⟨front, last, rfl, hfront, hlast⟩ := List.map_eq_append_iff.mp hheights
  obtain ⟨lb, rfl, hlb⟩ := List.map_eq_singleton_iff.mp hlast
  exact ⟨front, lb, rfl, ⟨hfront, fun b hb => hentries b (List.mem_append_left _ hb)⟩, hlb⟩

theorem Shown.height {S : Heap} {store n : ℕ} {lbs : List LoadedBlock} (h : Shown S store n lbs)
    {lb : LoadedBlock} (hlb : lb ∈ lbs) : ∃ k < n, lb.height = UInt64.ofNat k := by
  have hmem : lb.height ∈ (List.range n).map UInt64.ofNat := h.heights ▸ List.mem_map_of_mem hlb
  obtain ⟨k, hk, heq⟩ := List.mem_map.mp hmem
  exact ⟨k, List.mem_range.mp hk, heq.symm⟩

theorem replayBlocks_append : ∀ {xs ys : List LoadedBlock} {r : ReplayState},
    (replayBlocks E none (xs ++ ys) r).1 = (replayBlocks E none ys (replayBlocks E none xs r).1).1
  | [], _, _ => rfl
  | lb :: xs, ys, r => by
    rw [List.cons_append, replayBlocks, replayBlocks]
    cases replayOne E r lb with
    | error e => exact replayBlocks_append
    | ok p =>
      obtain ⟨hash, r'⟩ := p
      simpa using replayBlocks_append

theorem replayBlocks_height : ∀ (lbs : List LoadedBlock) (r : ReplayState),
    (replayBlocks E none lbs r).1 = r ∨ ((replayBlocks E none lbs r).1.headHash ≠ none ∧
      ∃ lb ∈ lbs, (replayBlocks E none lbs r).1.headHeight = lb.height)
  | [], _ => .inl rfl
  | lb :: lbs, r => by
    rw [replayBlocks]
    cases hr : replayOne E r lb with
    | error e =>
      rcases replayBlocks_height lbs r with h | ⟨hne, b, hb, h⟩
      · exact .inl h
      · exact .inr ⟨hne, b, List.mem_cons_of_mem _ hb, h⟩
    | ok p =>
      obtain ⟨hash, r'⟩ := p
      obtain ⟨b, state, hdec, -, -, -, -, -, rfl⟩ := replayOne_ok_iff.mp hr
      simp only [ne_eq, not_true_eq_false, false_and, if_false]
      right
      rcases replayBlocks_height lbs ⟨state, some (computeHash E b),
        b.header.height⟩ with h | ⟨hne, b', hb, h⟩
      · rw [h]
        exact ⟨Option.some_ne_none _, lb, List.mem_cons_self, decodeLoadedBlock_height hdec⟩
      · exact ⟨hne, b', List.mem_cons_of_mem _ hb, h⟩

/-! ### All blocks are replayed -/

variable {S : Heap} {store n : ℕ} {lbs : List LoadedBlock}

theorem Shown.replayOne_last {front : List LoadedBlock} {lb : LoadedBlock}
    (hfront : Shown S store n front) (hn : n < 2 ^ 64)
    (hheight : (replayBlocks E none (front ++ [lb]) replayStart).1.headHeight = UInt64.ofNat n)
    (hne : (replayBlocks E none (front ++ [lb]) replayStart).1.headHash ≠ none) :
    ∃ hash, replayOne E (replayBlocks E none front replayStart).1 lb =
      .ok (hash, (replayBlocks E none (front ++ [lb]) replayStart).1) := by
  rw [replayBlocks_append, replayBlocks] at hheight hne ⊢
  cases hr : replayOne E (replayBlocks E none front replayStart).1 lb with
  | error e =>
    rw [hr] at hheight hne
    rcases replayBlocks_height (E := E) front replayStart with heq | ⟨-, b, hb, hlast⟩
    · exact absurd (congrArg ReplayState.headHash heq) hne
    · -- a block before the last one does not have the height of the last one
      obtain ⟨k, hk, hheight'⟩ := hfront.height hb
      have heq : UInt64.ofNat n = UInt64.ofNat k := hheight.symm.trans (hlast.trans hheight')
      have hnat := congrArg UInt64.toNat heq
      rw [UInt64.toNat_ofNat_of_lt' (hk.trans hn), UInt64.toNat_ofNat_of_lt' hn] at hnat
      omega
  | ok p =>
    obtain ⟨hash, r'⟩ := p
    exact ⟨hash, by simp [replayBlocks]⟩

/-- **No block is skipped** on the way to the last height. -/
theorem Shown.replayRun : ∀ {n : ℕ} {lbs : List LoadedBlock}, Shown S store (n + 1) lbs → n < 2 ^ 64 →
    (replayBlocks E none lbs replayStart).1.headHeight = UInt64.ofNat n →
    (replayBlocks E none lbs replayStart).1.headHash ≠ none →
    ∃ hashes, ReplayRun E replayStart lbs hashes (replayBlocks E none lbs replayStart).1 := by
  intro n
  induction n with
  | zero =>
    intro lbs hs hn hheight hne
    obtain ⟨front, lb, rfl, hfront, hlb⟩ := hs.snoc
    obtain ⟨hash, hr⟩ := hfront.replayOne_last hn hheight hne
    obtain rfl : front = [] := List.map_eq_nil_iff.mp hfront.heights
    exact ⟨[hash], .cons hr (.nil _)⟩
  | succ n ih =>
    intro lbs hs hn hheight hne
    obtain ⟨front, lb, rfl, hfront, hlb⟩ := hs.snoc
    obtain ⟨hash, hr⟩ := hfront.replayOne_last hn hheight hne
    obtain ⟨b, state, hdec, -, hnext, -, -, -, -⟩ := replayOne_ok_iff.mp hr
    have hb : b.header.height = UInt64.ofNat (n + 1) := (decodeLoadedBlock_height hdec).trans hlb
    have hfollows := ensureNextBlockFollows_ok_iff.mp hnext
    split_ifs at hfollows with hnone
    · -- only a block of height 0 is the first one
      have hnat := congrArg UInt64.toNat (hb.symm.trans hfollows.1)
      rw [UInt64.toNat_ofNat_of_lt' hn] at hnat
      cases hnat
    · have hprev : (replayBlocks E none front replayStart).1.headHeight = UInt64.ofNat n := by
        have heq := hb.symm.trans hfollows.1
        rw [UInt64.ofNat_add] at heq
        exact ((UInt64.add_left_inj 1).mp heq).symm
      obtain ⟨hashes, hrun⟩ := ih hfront (by omega) hprev hnone
      exact ⟨_, hrun.snoc hr⟩

/-- **All the blocks that a fork with a head has read were replayed.** -/
theorem fork_run {base f : NamecoinChain} {height : UInt64}
    (h : base.forkUpToHeight E S height store = .ok f) :
    height ≤ base.headHeight ∧ f.headHeight = height ∧ f.store = store ∧
    (f.headHash = none → height = 0) ∧
      ∃ lbs, Shown S store (height.toNat + 1) lbs ∧ f = forkOf E base store lbs (headOf f) ∧
        (f.headHash ≠ none → ∃ hashes, ReplayRun E replayStart lbs hashes (headOf f)) := by
  obtain ⟨hle, lbs, hread, hheight, rfl⟩ := forkUpToHeight_ok_iff.mp h
  have hs := shown_of_read hread
  refine ⟨hle, hheight, rfl, fun hnone => ?_, lbs, hs, rfl, fun hne => ?_⟩
  · have hnone' : (replayBlocks E none lbs replayStart).1.headHash = none := hnone
    rcases replayBlocks_height (E := E) lbs replayStart with heq | ⟨hne, -⟩
    · exact hheight.symm.trans (congrArg ReplayState.headHeight heq)
    · exact absurd hnone' hne
  · exact hs.replayRun height.toNat_lt (by rw [hheight, UInt64.ofNat_toNat]) hne

theorem ReplayRun.append_inv {r' : ReplayState} {ys : List LoadedBlock} : ∀ {xs : List LoadedBlock}
    {r : ReplayState} {hashes : List Bytes}, ReplayRun E r (xs ++ ys) hashes r' → ∃ r₁ hx hy,
      ReplayRun E r xs hx r₁ ∧ ReplayRun E r₁ ys hy r' ∧ hashes = hx ++ hy
  | [], r, hashes, h => ⟨r, [], hashes, .nil r, h, rfl⟩
  | lb :: xs, r, hashes, h => by
    cases h with
    | cons hone hrest =>
      obtain ⟨r₁, hx, hy, hxs, hys, rfl⟩ := ReplayRun.append_inv hrest
      exact ⟨r₁, _, hy, .cons hone hxs, hys, rfl⟩

/-- **The head of a fork** is what its store shows at the height, replayed. -/
theorem fork_head {base f : NamecoinChain} {height : UInt64}
    (h : base.forkUpToHeight E S height store = .ok f) {x : Bytes} (hx : f.headHash = some x) :
    ∃ data r, entry S store (encodeNamecoinBlockKey height) = some data ∧
      (height = 0 → r = replayStart) ∧ replayOne E r ⟨height, data⟩ = .ok (x, headOf f) := by
  obtain ⟨-, -, -, -, lbs, hs, -, hrun⟩ := fork_run h
  obtain ⟨hashes, hrun⟩ := hrun (by rw [hx]; exact Option.some_ne_none _)
  obtain ⟨front, ⟨k, data⟩, rfl, hfront, hlb⟩ := hs.snoc
  obtain rfl : k = height := hlb.trans (UInt64.ofNat_toNat)
  obtain ⟨r, _, _, hpre, hlast, -⟩ := ReplayRun.append_inv hrun
  cases hlast with
  | @cons _ r₁ _ _ _ hash _ hone hnil =>
    cases hnil
    obtain ⟨b, state, -, -, -, -, -, rfl, heq⟩ := replayOne_ok_iff.mp hone
    have hhash : f.headHash = some (computeHash E b) := congrArg ReplayState.headHash heq
    rw [hx, Option.some.injEq] at hhash
    refine ⟨data, r, hs.entries ⟨k, data⟩ (by simp), fun h0 => ?_, hhash ▸ hone⟩
    rw [h0] at hfront
    obtain rfl : front = [] := List.map_eq_nil_iff.mp hfront.heights
    cases hpre
    rfl

theorem fork_zero {base f : NamecoinChain} (h : base.forkUpToHeight E S 0 store = .ok f) {data : Bytes}
    (hentry : entry S store (encodeNamecoinBlockKey 0) = some data) {hash : Bytes} {r : ReplayState}
    (hr : replayOne E replayStart ⟨0, data⟩ = .ok (hash, r)) : f.headHash = r.headHash := by
  obtain ⟨-, lbs, hread, -, rfl⟩ := forkUpToHeight_ok_iff.mp h
  obtain ⟨front, ⟨k, raw⟩, rfl, hfront, hk⟩ := (shown_of_read hread).snoc
  obtain rfl : front = [] := List.map_eq_nil_iff.mp hfront.heights
  obtain rfl : k = 0 := hk
  have hraw := (shown_of_read hread).entries ⟨0, raw⟩ (by simp)
  obtain rfl : data = raw := Option.some.inj (hentry.symm.trans hraw)
  show (replayBlocks E none [⟨0, data⟩] replayStart).1.headHash = _
  rw [replayBlocks, hr]
  simp [replayBlocks]

end Namecoin.Chain.Forks
