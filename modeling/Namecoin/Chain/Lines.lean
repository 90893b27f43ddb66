import Namecoin.Chain.Backing
import Namecoin.Chain.Targets

/-! # Lines of blocks

A line consists of blocks of a given list, each one accepted by the chain that the blocks before it
lead to. What a line leads to does not depend on stores, and if the header of a block determines its
transactions, it is determined by the hash of the head.

* `Line.unique`: lines with the same head lead to the same chain;
* `Line.fork`: **a fork that has read blocks of the list** and ends in the head of a line is the chain
  of the line, with its state and its target. -/

namespace Namecoin.Chain.Lines

open Lib.ByteStrings Types.Defs Types.BlockCodec State.Strict Chain.Pow Chain.Stores Chain.Defs
open Chain.Apply Chain.Replay Chain.Reload Chain.Forks Chain.Backing Chain.Targets

variable {E : Env} {cfg : PoWConfig} {B blks : List Block} {a b : Block}
  {c d d' : NamecoinChain} {S S' : Heap}

/-! ### Blocks that differ in their `Hash` -/

/-- Blocks with the same header and transactions, whose `Hash` fits alike. -/
structure Twin (E : Env) (a b : Block) : Prop where
  header : a.header = b.header
  transactions : a.transactions = b.transactions
  fits : hashFits E a ↔ hashFits E b

theorem Twin.refl (a : Block) : Twin E a a := ⟨rfl, rfl, Iff.rfl⟩

theorem Twin.symm (h : Twin E a b) : Twin E b a := ⟨h.header.symm, h.transactions.symm, h.fits.symm⟩

theorem Twin.trans {x : Block} (h : Twin E a b) (h' : Twin E b x) : Twin E a x :=
  ⟨h.header.trans h'.header, h.transactions.trans h'.transactions, h.fits.trans h'.fits⟩

theorem Twin.hash_eq (h : Twin E a b) : computeHash E a = computeHash E b := by
  unfold computeHash
  rw [h.header]

theorem twin_settleHash (a : Block) : Twin E (settleHash E a) a := by
  refine ⟨settleHash_header a, settleHash_transactions a, fun h => ?_, hashFits_settleHash⟩
  by_contra hn
  unfold Defs.settleHash at h
  rw [if_neg hn] at h
  exact hn h

theorem Twin.settleHash_eq (h : Twin E a b) (hb : hashFits E b) : settleHash E a = settleHash E b := by
  have hhash := h.hash_eq
  obtain ⟨hdr, txs, x⟩ := a
  obtain ⟨hdr', txs', y⟩ := b
  obtain rfl : hdr = hdr' := h.header
  obtain rfl : txs = txs' := h.transactions
  unfold settleHash
  rw [if_pos (h.fits.mpr hb), if_pos hb, hhash]

theorem Twin.applyBlock (h : Twin E a b) (hok : HeadOK c.headHash)
    (ha : c.applyBlock E S a = .ok (S', d)) :
    c.applyBlock E S b = .ok (S', d) := by
  obtain ⟨st, data, hv, hs, hdata, rfl, rfl⟩ := (applyBlock_ok_iff hok).mp ha
  obtain ⟨hfits, hrest⟩ := validateBlockHeader_ok_iff.mp hv
  rw [h.settleHash_eq (h.fits.mp hfits)] at hdata
  have hfits' := h.fits.mp hfits
  obtain ⟨hdr, txs, x⟩ := a
  obtain ⟨hdr', txs', y⟩ := b
  obtain rfl : hdr = hdr' := h.header
  obtain rfl : txs = txs' := h.transactions
  exact (applyBlock_ok_iff hok).mpr ⟨st, data, validateBlockHeader_ok_iff.mpr ⟨hfits', hrest⟩, hs,
    hdata, rfl, rfl⟩

/-- The header determines the transactions. -/
def Telling (B : List Block) : Prop :=
  ∀ a ∈ B, ∀ b ∈ B, a.header = b.header → a.transactions = b.transactions

theorem Telling.twin (h : Telling B) (hc : E.CollisionFree) (ha : a ∈ B) (hb : b ∈ B) (hfa : hashFits E a)
    (hfb : hashFits E b) (hhash : computeHash E a = computeHash E b) : Twin E a b := by
  have hheader : a.header = b.header := serializeHeader_injective (hc hhash)
  exact ⟨hheader, h a ha b hb hheader, iff_of_true hfa hfb⟩

/-! ### Stores -/

theorem applyBlock_at (n : ℕ) (hok : HeadOK d.headHash) (ha : d.applyBlock E S b = .ok (S', d'))
    (T : Heap) :
    ∃ T', ({ d with store := n } : NamecoinChain).applyBlock E T b =
      .ok (T', { d' with store := n }) := by
  obtain ⟨st, data, hv, hs, hdata, rfl, rfl⟩ := (applyBlock_ok_iff hok).mp ha
  exact ⟨_, (applyBlock_ok_iff (c := { d with store := n }) hok).mpr ⟨st, data, hv, hs, hdata, rfl, rfl⟩⟩

theorem applyBlock_of_at {n : ℕ} (hok : HeadOK d.headHash)
    (ha : ({ d with store := n } : NamecoinChain).applyBlock E S b = .ok (S', c)) :
    ∃ T' d', d.applyBlock E S b = .ok (T', d') ∧ c = { d' with store := n } := by
  obtain ⟨st, data, hv, hs, hdata, rfl, rfl⟩ := (applyBlock_ok_iff (c := { d with store := n }) hok).mp ha
  exact ⟨_, _, (applyBlock_ok_iff hok).mpr ⟨st, data, hv, hs, hdata, rfl, rfl⟩, rfl⟩

/-! ### Heads -/

theorem head_unique {h h' : Slice UInt8} {k k' : UInt64} (hok : HeadOK h) (hok' : HeadOK h')
    (hf : ensureNextBlockFollows k h b = .ok ()) (hf' : ensureNextBlockFollows k' h' b = .ok ())
    (hz : h ≠ none → b.header.height ≠ 0) : h' = h := by
  have hnext := ensureNextBlockFollows_ok_iff.mp hf
  have hnext' := ensureNextBlockFollows_ok_iff.mp hf'
  have hnil : HeadOK (some []) → False := fun hn => by cases hn
  cases h with
  | none =>
    rw [if_pos rfl] at hnext
    cases h' with
    | none => rfl
    | some y =>
      rw [if_neg (Option.some_ne_none _)] at hnext'
      have hy : elems b.header.prevHash = y := hnext'.2
      rw [hnext.2] at hy
      subst hy
      exact (hnil hok').elim
  | some x =>
    rw [if_neg (Option.some_ne_none _)] at hnext
    cases h' with
    | none =>
      rw [if_pos rfl] at hnext'
      exact absurd hnext'.1 (hz (Option.some_ne_none _))
    | some y =>
      rw [if_neg (Option.some_ne_none _)] at hnext'
      exact congrArg some ((show elems b.header.prevHash = y from hnext'.2).symm.trans hnext.2)

theorem follows_congr {k : UInt64} {h : Slice UInt8} (hheader : a.header = b.header)
    (hf : ensureNextBlockFollows k h a = .ok ()) : ensureNextBlockFollows k h b = .ok () :=
  (ensureNextBlockFollows_congr hheader k h).symm.trans hf

theorem applyBlock_follows (hok : HeadOK c.headHash) (ha : c.applyBlock E S b = .ok (S', d)) :
    ensureNextBlockFollows c.headHeight c.headHash b = .ok () := by
  obtain ⟨st, data, hv, -⟩ := (applyBlock_ok_iff hok).mp ha
  exact (validateBlockHeader_ok_iff.mp hv).2.1

theorem applyBlock_fits (hok : HeadOK c.headHash) (ha : c.applyBlock E S b = .ok (S', d)) :
    hashFits E b := by
  obtain ⟨st, data, hv, -⟩ := (applyBlock_ok_iff hok).mp ha
  exact (validateBlockHeader_ok_iff.mp hv).1

theorem applyBlock_head (hok : HeadOK c.headHash) (ha : c.applyBlock E S b = .ok (S', d)) :
    d.headHash = some (computeHash E b) ∧ d.headHeight = b.header.height := by
  obtain ⟨st, data, -, -, -, -, rfl⟩ := (applyBlock_ok_iff hok).mp ha
  exact ⟨rfl, rfl⟩

/-! ### Lines -/

/-- The chain that blocks of `B` lead to, each one accepted on top of those before. A block of height 0
is only accepted as a first one. -/
inductive Line (E : Env) (cfg : PoWConfig) (B : List Block) : List Block → NamecoinChain → Prop
  | start : Line E cfg B [] (configurePow cfg (newNamecoinChain 0))
  | next {blks : List Block} {c c' : NamecoinChain} {S S' : Heap} {b : Block} :
    Line E cfg B blks c → b ∈ B → (c.headHash ≠ none → b.header.height ≠ 0) →
    c.applyBlock E S b = .ok (S', c') → Line E cfg B (blks ++ [b]) c'

theorem Line.mono {B' : List Block} (hB : ∀ b ∈ B, b ∈ B') (h : Line E cfg B blks c) :
    Line E cfg B' blks c := by
  induction h with
  | start => exact .start
  | next _ hb hz ha ih => exact .next ih (hB _ hb) hz ha

theorem Line.headOK (h : Line E cfg B blks c) : HeadOK c.headHash := by
  induction h with
  | start => rfl
  | next _ _ _ ha ih =>
    rw [(applyBlock_head ih ha).1]
    exact cloneBytes_some (E.sha256_ne_nil _)

theorem Line.empty (h : Line E cfg B blks c) (hn : c.headHash = none) :
    blks = [] ∧ c = configurePow cfg (newNamecoinChain 0) := by
  cases h with
  | start => exact ⟨rfl, rfl⟩
  | next hl _ _ ha =>
    rw [(applyBlock_head hl.headOK ha).1] at hn
    cases hn

theorem Line.length (h : Line E cfg B blks c) :
    c.headHash ≠ none → blks.length = c.headHeight.toNat + 1 := by
  induction h with
  | start => exact fun hn => absurd rfl hn
  | @next blks c c' S S' b hl hb hz ha ih =>
    intro _
    obtain ⟨-, hheight⟩ := applyBlock_head hl.headOK ha
    have hnext := ensureNextBlockFollows_ok_iff.mp (applyBlock_follows hl.headOK ha)
    rw [List.length_append, List.length_singleton, hheight]
    by_cases hn : c.headHash = none
    · rw [if_pos hn] at hnext
      rw [(hl.empty hn).1, hnext.1]
      rfl
    · rw [if_neg hn] at hnext
      have hlt := c.headHeight.toNat_lt
      have heq : b.header.height.toNat = (c.headHeight.toNat + 1) % 2 ^ 64 := by
        rw [hnext.1, UInt64.toNat_add]
        rfl
      have hne : b.header.height.toNat ≠ 0 := fun h0 => hz hn (UInt64.toNat.inj h0)
      rw [ih hn]
      omega

/-- **Lines with the same head** lead to the same chain. -/
theorem Line.unique (hc : E.CollisionFree) (ht : Telling B) (h : Line E cfg B blks c) :
    ∀ {blks' : List Block} {c' : NamecoinChain}, Line E cfg B blks' c' →
    c'.headHash = c.headHash → c' = c := by
  induction h with
  | start => exact fun h' hhash => (h'.empty hhash).2
  | @next blks c c₁ S S₁ b hl hb hz ha ih =>
    intro blks' c' h' hhash
    have hhead := (applyBlock_head hl.headOK ha).1
    rw [hhead] at hhash
    cases h' with
    | start => cases hhash
    | @next blks₀ c₀ _ S' S₂ b' hl' hb' hz' ha' =>
      rw [(applyBlock_head hl'.headOK ha').1, Option.some.injEq] at hhash
      have htwin := ht.twin hc hb' hb (applyBlock_fits hl'.headOK ha')
        (applyBlock_fits hl.headOK ha) hhash
      have hparent : c₀.headHash = c.headHash :=
        head_unique hl.headOK hl'.headOK (applyBlock_follows hl.headOK ha)
          (follows_congr htwin.header (applyBlock_follows hl'.headOK ha')) hz
      obtain rfl := ih hl' hparent
      have hsame := htwin.applyBlock hl'.headOK ha'
      obtain ⟨st, data, -, hs, -, -, rfl⟩ := (applyBlock_ok_iff hl.headOK).mp ha
      obtain ⟨st', data', -, hs', -, -, rfl⟩ := (applyBlock_ok_iff hl.headOK).mp hsame
      rw [hs] at hs'
      cases hs'
      rfl

/-! ### Forks -/

theorem Line.replay (h : Line E cfg B blks c) :
    ReplayRun E replayStart (blks.map (loaded E)) (blks.map (computeHash E)) (headOf c) := by
  induction h with
  | start => exact .nil _
  | next hl _ _ ha ih =>
    rw [List.map_append, List.map_append]
    exact ih.snoc (replayOne_stored hl.headOK ha)

theorem Line.applies (h : Line E cfg B blks c) :
    ∃ log, Applies E (configurePow cfg (newNamecoinChain 0)) log c ∧
    log.map Prod.fst = blks ∧ ∀ p, log.getLast? = some p → p.2 = c := by
  induction h with
  | start => exact ⟨[], .nil _, rfl, by simp⟩
  | @next blks c c' S S' b hl hb hz ha ih =>
    obtain ⟨log, hlog, hmap, -⟩ := ih
    refine ⟨log ++ [(b, c')], hlog.snoc ha, by rw [List.map_append, hmap]; rfl, fun p hp => ?_⟩
    rw [List.getLast?_concat] at hp
    exact (congrArg Prod.snd (Option.some.inj hp)).symm

theorem Line.params (h : Line E cfg B blks c) :
    c.powSeed = (configurePow cfg (newNamecoinChain 0)).powSeed ∧
    c.powParams = (configurePow cfg (newNamecoinChain 0)).powParams := by
  obtain ⟨log, hlog, -⟩ := h.applies
  exact hlog.params rfl

theorem Line.rebuilt (h : Line E cfg B blks c) (hne : c.headHash ≠ none) :
    rebuildPowStateForFork E (blks.map (loaded E)) c.headHeight c.powSeed c.powParams =
      (c.powTarget, c.headTS) := by
  obtain ⟨log, hlog, hmap, hlast⟩ := h.applies
  have hlen : log.length = c.headHeight.toNat + 1 := by
    rw [← h.length hne, ← hmap, List.length_map]
  have hget : log[c.headHeight.toNat]? = log.getLast? := by
    rw [List.getLast?_eq_getElem?, hlen, Nat.add_sub_cancel]
  obtain ⟨⟨b, d⟩, hp⟩ : ∃ p, log[c.headHeight.toNat]? = some p :=
    ⟨_, List.getElem?_eq_getElem (by omega)⟩
  obtain rfl : d = c := hlast _ (hget.symm.trans hp)
  have htarget := fork_target ⟨rfl, rfl, rfl⟩ hlog d.headHeight hp
  rw [← hlen, List.take_length] at htarget
  rw [← hmap, List.map_map]
  exact htarget

theorem ReplayRun.headOK {lbs : List LoadedBlock} {hashes : List Bytes} {r : ReplayState}
    (h : ReplayRun E replayStart lbs hashes r) : HeadOK r.headHash := by
  rcases List.eq_nil_or_concat' lbs with rfl | ⟨front, lb, rfl⟩
  · cases h
    rfl
  · obtain ⟨-, hash, -, hne, hsome, -⟩ := ReplayRun.last h
    rw [hsome]
    exact cloneBytes_some hne

/-- What is stored of a block of `B`. -/
def Stems (E : Env) (B : List Block) (height : UInt64) (data : Bytes) : Prop :=
  ∃ b ∈ B, hashFits E b ∧ b.header.height = height ∧ marshal E (settleHash E b) = .ok data

theorem Stems.loaded {lb : LoadedBlock} (h : Stems E B lb.height lb.raw) :
    ∃ b ∈ B, hashFits E b ∧ lb = loaded E b ∧
    decodeLoadedBlock E lb = .ok (Block.reloaded (settleHash E b)) := by
  obtain ⟨b, hb, hfits, hheight, hdata⟩ := h
  obtain ⟨height, raw⟩ := lb
  have hlb : (⟨height, raw⟩ : LoadedBlock) = Reload.loaded E b := by
    unfold Reload.loaded
    rw [hheight, dataOf_eq hdata]
  exact ⟨b, hb, hfits, hlb, hlb ▸ decode_loaded ⟨raw, hdata⟩⟩

/-- **Blocks of `B` that replay to the head of a line** are those of the line. -/
theorem Line.read (hc : E.CollisionFree) (ht : Telling B) (h : Line E cfg B blks c) :
    ∀ {lbs : List LoadedBlock} {hashes : List Bytes} {r : ReplayState},
    ReplayRun E replayStart lbs hashes r →
      (∀ lb ∈ lbs, Stems E B lb.height lb.raw) → r.headHash = c.headHash → lbs = blks.map (loaded E) := by
  induction h with
  | start =>
    intro lbs hashes r hrun _ hhash
    rcases List.eq_nil_or_concat' lbs with rfl | ⟨front, lb, rfl⟩
    · rfl
    · obtain ⟨-, hash, -, -, hsome, -⟩ := ReplayRun.last hrun
      rw [hsome] at hhash
      cases hhash
  | @next blks c c₁ S S₁ b hl hb hz ha ih =>
    intro lbs hashes r hrun hstems hhash
    rw [(applyBlock_head hl.headOK ha).1] at hhash
    rcases List.eq_nil_or_concat' lbs with rfl | ⟨front, lb, rfl⟩
    · cases hrun
      cases hhash
    · obtain ⟨r₁, hx, hy, hfront, hone, -⟩ := ReplayRun.append_inv hrun
      obtain ⟨b', hb', hfits, hlb, hdec⟩ := (hstems lb (by simp)).loaded
      cases hone with
      | cons hone hnil =>
        cases hnil
        obtain ⟨b₂, state, hdec', -, hnext, -, -, -, rfl⟩ := replayOne_ok_iff.mp hone
        cases hdec.symm.trans hdec'
        have hheader : (Block.reloaded (settleHash E b')).header = b'.header := settleHash_header b'
        have heq : computeHash E b' = computeHash E b := by
          rw [← Option.some.inj hhash]
          unfold computeHash
          rw [hheader]
        have htwin := ht.twin hc hb' hb hfits (applyBlock_fits hl.headOK ha) heq
        have hparent : r₁.headHash = c.headHash := head_unique hl.headOK (ReplayRun.headOK hfront)
          (applyBlock_follows hl.headOK ha) (follows_congr (hheader.trans htwin.header) hnext) hz
        have hfronts := ih hfront (fun x hx => hstems x (List.mem_append_left _ hx)) hparent
        rw [List.map_append, hfronts, List.map_singleton, hlb]
        unfold Reload.loaded dataOf
        rw [htwin.header, htwin.settleHash_eq (applyBlock_fits hl.headOK ha)]

/-- **A fork that ends in the head of a line**, and has read only blocks of `B`,
is the chain of the line. -/
theorem Line.fork (hc : E.CollisionFree) (ht : Telling B) (h : Line E cfg B blks c)
    (hne : c.headHash ≠ none) {base f : NamecoinChain} {height : UInt64} {store : ℕ}
    (hseed : base.powSeed = c.powSeed) (hparams : base.powParams = c.powParams)
    (hf : base.forkUpToHeight E S height store = .ok f)
    (hstems : ∀ k ≤ height, ∀ data, entry S store (encodeNamecoinBlockKey k) = some data →
    Stems E B k data) (hhash : f.headHash = c.headHash) : f = { c with store := store } := by
  obtain ⟨-, -, -, -, lbs, hshown, hfork, hrun⟩ := fork_run hf
  obtain ⟨hashes, hrun⟩ := hrun (by rw [hhash]; exact hne)
  have hread : lbs = blks.map (loaded E) := h.read hc ht hrun (fun lb hlb => ?_) hhash
  · have hhead : headOf f = headOf c := by
      have hold := congrArg Prod.fst hrun.replayBlocks_none
      rw [hread, h.replay.replayBlocks_none] at hold
      exact hold.symm
    have hrebuilt := h.rebuilt hne
    rw [hfork, hhead, hread]
    unfold forkOf
    dsimp only [headOf]
    rw [hseed, hparams, hrebuilt]
  · obtain ⟨k, hk, hheight⟩ := hshown.height hlb
    refine hstems lb.height ?_ lb.raw (hshown.entries lb hlb)
    have hlt := height.toNat_lt
    rw [hheight, UInt64.le_iff_toNat_le, UInt64.toNat_ofNat_of_lt' (show k < 2 ^ 64 by omega)]
    omega

end Namecoin.Chain.Lines
