import Namecoin.Chain.Registration
import Namecoin.Chain.Replay

/-! # What a run leaves in its store

A chain that starts on a fresh store writes every accepted block under the key of its height, and the
hash of the head under a key of its own. As long as the heights do not wrap around, the store holds the
blocks of the run (`LiveRun.holds`), and replaying them leads back to the head (`LiveRun.replay`).

* `stored_round_trip`: **a stored block is read back** with the same hash, root and IDs;
* `replay_live`: `LoadNamecoinChain` and `forkUpToHeight` return the live chain;
* `wrapped_reload`: after 2^64 + 1 blocks they do not. -/

namespace Namecoin.Chain.Reload

open Lib.Maps Lib.Ops Lib.ByteStrings Lib.Decimal Types.Defs Types.TxCodec Types.BlockCodec
open Types.SampleEnv State.Defs State.Strict State.Wallet Chain.Pow Chain.Stores Chain.Defs
open Chain.Apply Chain.Build Chain.Registration Chain.Replay

variable {E : Env}
variable {blk : Block} {lbs : List LoadedBlock}

/-! ### Keys -/

theorem blockKeySuffix_encode (h : UInt64) :
    blockKeySuffix (encodeNamecoinBlockKey h) = some (fixedDigits 20 h.toNat) := by
  unfold blockKeySuffix encodeNamecoinBlockKey
  simp

theorem parse_encode (h : UInt64) : parseNamecoinBlockHeight (encodeNamecoinBlockKey h) = .ok h := by
  unfold parseNamecoinBlockHeight
  have hlt : h.toNat < 2 ^ 64 := h.toNat_lt
  have hdigits : parseDigits 0 (fixedDigits 20 h.toNat) = some h.toNat :=
    parseDigits_fixedDigits (by omega)
  rw [blockKeySuffix_encode]
  cases hs : fixedDigits 20 h.toNat with
  | nil => exact absurd hs (fixedDigits_ne_nil 19 _)
  | cons c cs =>
    rw [hs] at hdigits
    simp only [hdigits, if_pos hlt, UInt64.ofNat_toNat]

theorem encode_injective : Function.Injective encodeNamecoinBlockKey := fun a b h => by
  have := parse_encode a
  rw [h, parse_encode b] at this
  exact (Except.ok.inj this).symm

theorem parse_last : ∃ e, parseNamecoinBlockHeight namecoinLastBlockKey = .error e := ⟨_, rfl⟩

theorem encode_ne_last (h : UInt64) : encodeNamecoinBlockKey h ≠ namecoinLastBlockKey := fun he => by
  obtain ⟨e, herr⟩ := parse_last
  rw [← he, parse_encode] at herr
  cases herr

/-! ### Stored blocks -/

/-- What is stored of a block. -/
def dataOf (E : Env) (blk : Block) : Bytes :=
  match marshal E (settleHash E blk) with
  | .ok data => data
  | .error _ => []

/-- A stored block as it is loaded. -/
def loaded (E : Env) (blk : Block) : LoadedBlock := ⟨blk.header.height, dataOf E blk⟩

theorem dataOf_eq {data : Bytes} (h : marshal E (settleHash E blk) = .ok data) :
    dataOf E blk = data := by
  unfold dataOf
  rw [h]

theorem marshal_ne_nil {b : Block} {data : Bytes} (h : marshal E b = .ok data) : data ≠ [] := by
  obtain ⟨ts, -, h⟩ := except_bind_ok_iff.mp h
  cases h
  exact E.json.encode_ne_nil _

theorem rootBytes_reloaded : ∀ (i : ℕ) (txs : List Tx), rootBytes E i (txs.map Tx.reloaded) =
      rootBytes E i txs
  | _, [] => rfl
  | i, tx :: txs => by
    have hone : serializeTransactionForTxRoot E (Tx.reloaded tx) =
        serializeTransactionForTxRoot E tx := by
      unfold serializeTransactionForTxRoot Tx.reloaded
      rw [payloadValue_reloaded]
      rfl
    rw [List.map_cons, rootBytes, rootBytes, hone, rootBytes_reloaded (i + 1) txs]

/-- What a stored block has in common with the block that is read back: the header and so the hash,
the transaction root, the IDs of the transactions, their inputs and outputs down to nil and empty,
and the bytes of `Hash`. -/
structure Survives (E : Env) (b b' : Block) : Prop where
  header : b'.header = b.header
  computeHash : computeHash E b' = computeHash E b
  txRoot : computeTxRoot E b'.transactions = computeTxRoot E b.transactions
  txIDs : b'.transactions.map (buildTransactionID E) = b.transactions.map (buildTransactionID E)
  slices : b'.transactions.map (fun tx => (tx.inputs, tx.outputs)) = b.transactions.map fun tx =>
    (tx.inputs, tx.outputs)
  hash : elems b'.hash = elems b.hash

theorem survives_reloaded (b : Block) : Survives E b (Block.reloaded b) := by
  refine ⟨rfl, rfl, ?_, ?_, ?_, rfl⟩
  · exact congrArg (Except.map E.sha256) (rootBytes_reloaded 0 b.transactions)
  · show (b.transactions.map Tx.reloaded).map (buildTransactionID E) = _
    rw [List.map_map]
    exact List.map_congr_left fun tx _ => buildTransactionID_reloaded tx
  · show (b.transactions.map Tx.reloaded).map _ = _
    rw [List.map_map]
    rfl

/-- **Stored blocks survive the round trip**: a block whose payloads are nil or JSON can be written,
and what is read back has the same hash, root and IDs. -/
theorem stored_round_trip {b : Block} (h : ∀ tx ∈ b.transactions, tx.payload ≠ .invalid) :
    ∃ data b', marshal E b = .ok data ∧ unmarshal E data = .ok b' ∧ Survives E b b' := by
  obtain ⟨data, hdata⟩ := marshal_ok h
  exact ⟨data, Block.reloaded b, hdata, unmarshal_marshal hdata, survives_reloaded b⟩

/-- A block with a nil and an empty slice in its header and in its transaction, and a nil payload. -/
theorem stored_round_trip_nil : ∃ (b b' : Block) (data : Bytes), b.header.prevHash = none ∧
    b.header.difficulty = some [] ∧ b.transactions.map (fun tx => (tx.inputs, tx.outputs)) =
      [(none, some [])] ∧
    marshal plainEnv b = .ok data ∧ unmarshal plainEnv data = .ok b' ∧ Survives plainEnv b b' := by
  let b : Block := ⟨⟨0, none, some [1], 5, 7, "miner", some []⟩,
    [⟨"a", "Reward", none, some [], 1, .nil, "", "", ""⟩], none⟩
  obtain ⟨data, b', hm, hu, hs⟩ := stored_round_trip (E := plainEnv) (b := b) (by simp [b])
  exact ⟨b, b', data, rfl, rfl, rfl, hm, hu, hs⟩

theorem decodeLoadedBlock_stored {b : Block} {data : Bytes} (h : marshal E b = .ok data) :
    decodeLoadedBlock E ⟨b.header.height, data⟩ = .ok (Block.reloaded b) := by
  have hheader : (Block.reloaded b).header = b.header := rfl
  unfold decodeLoadedBlock
  rw [unmarshal_marshal h]
  simp only [Except.mapError, bind, Except.bind, hheader]
  split_ifs with h0
  · rfl
  · rw [failIf, if_neg (by simp)]
    rfl

theorem decodeLoadedBlock_height {lb : LoadedBlock} (h : decodeLoadedBlock E lb = .ok blk) :
    blk.header.height = lb.height := by
  unfold decodeLoadedBlock at h
  obtain ⟨b, -, h⟩ := except_bind_ok_iff.mp h
  split_ifs at h with h0
  · cases h
    rfl
  · obtain ⟨⟨⟩, hf, h⟩ := except_bind_ok_iff.mp h
    cases h
    exact not_not.mp (failIf_ok_iff.mp hf)

theorem decode_loaded (hp : ∃ data, marshal E (settleHash E blk) = .ok data) :
    decodeLoadedBlock E (loaded E blk) = .ok (Block.reloaded (settleHash E blk)) := by
  obtain ⟨data, hdata⟩ := hp
  have h := decodeLoadedBlock_stored hdata
  rw [settleHash_header] at h
  unfold loaded
  rw [dataOf_eq hdata]
  exact h

/-- **A stored block replays** on the head it was accepted on, to the head it led to. -/
theorem replayOne_stored {S S' : Heap} {c c' : NamecoinChain} (hh : HeadOK c.headHash)
    (ha : c.applyBlock E S blk = .ok (S', c')) :
    replayOne E (headOf c) (loaded E blk) = .ok (computeHash E blk, headOf c') := by
  obtain ⟨st, data, hv, hst, hdata, -, rfl⟩ := (applyBlock_ok_iff hh).mp ha
  obtain ⟨hfit, hnext, hroot, -⟩ := validateBlockHeader_ok_iff.mp hv
  have hhash : computeHash E (Block.reloaded (settleHash E blk)) = computeHash E blk := by
    unfold computeHash
    rw [show (Block.reloaded (settleHash E blk)).header = (settleHash E blk).header from rfl,
      settleHash_header]
  have hheader : (Block.reloaded (settleHash E blk)).header = blk.header := settleHash_header blk
  have htxs : (Block.reloaded (settleHash E blk)).transactions = blk.transactions.map Tx.reloaded := by
    show (settleHash E blk).transactions.map Tx.reloaded = _
    rw [settleHash_transactions]
  refine replayOne_ok_iff.mpr ⟨_, replaceWith c.state st, decode_loaded ⟨data, hdata⟩, ?_, ?_, ?_,
    applyBlock_of_strict (neutral_reloaded E) hst hheader htxs, hhash.symm, ?_⟩
  · right
    rw [hhash]
    show elems (some (elems (settleHash E blk).hash)) = _
    rw [settleHash_hash hfit]
    rfl
  · exact (ensureNextBlockFollows_congr hheader _ _).trans hnext
  · rw [htxs, hheader]
    unfold computeTxRoot at hroot ⊢
    rw [rootBytes_reloaded]
    exact hroot
  · rw [hhash, hheader]
    rfl

/-! ### Runs on a fresh store -/

/-- A chain on a fresh store, after the given blocks. -/
inductive LiveRun (E : Env) (cfg : PoWConfig) : List Block → Heap → NamecoinChain → Prop
  | empty : LiveRun E cfg [] [.mem ∅] (configurePow cfg (newNamecoinChain 0))
  | step {blks : List Block} {S S' : Heap} {c c' : NamecoinChain} {blk : Block} : LiveRun E cfg blks S c →
    c.applyBlock E S blk = .ok (S', c') → LiveRun E cfg (blks ++ [blk]) S' c'

variable {cfg : PoWConfig} {blks : List Block} {S : Heap} {c : NamecoinChain}

theorem LiveRun.reached (h : LiveRun E cfg blks S c) : ReachedChain E c := by
  induction h with
  | empty => exact .empty 0 cfg
  | step _ ha ih => exact .step ih ha

theorem LiveRun.of_nil (h : LiveRun E cfg [] S c) :
    S = [.mem ∅] ∧ c = configurePow cfg (newNamecoinChain 0) := by
  generalize hb : ([] : List Block) = blks at h
  cases h with
  | empty => exact ⟨rfl, rfl⟩
  | step => simp at hb

theorem LiveRun.fits (h : LiveRun E cfg blks S c) : ∀ blk ∈ blks, hashFits E blk := by
  induction h with
  | empty => simp
  | step hrun ha ih =>
    obtain ⟨st, data, hv, -⟩ := (applyBlock_ok_iff hrun.reached.headOK).mp ha
    intro b hb
    rcases List.mem_append.mp hb with hb | hb
    · exact ih b hb
    · rw [List.mem_singleton.mp hb]
      exact (validateBlockHeader_ok_iff.mp hv).1

/-- What the store of a run holds, as far as it does not depend on the number of blocks. -/
structure Holds (E : Env) (blks : List Block) (m : Map String Bytes) (c : NamecoinChain) : Prop where
  store : c.store = 0
  keys : ∀ key data, m.lookup key = some data → key = namecoinLastBlockKey ∨
    ∃ blk ∈ blks, key = encodeNamecoinBlockKey blk.header.height
  data : ∀ blk ∈ blks, ∃ d, marshal E (settleHash E blk) = .ok d
  heights : ∀ i (h : i < blks.length), blks[i].header.height = UInt64.ofNat i
  next : nextHeight c = UInt64.ofNat blks.length
  empty : c.headHash = none ↔ blks = []
  last : m.lookup namecoinLastBlockKey = c.headHash
  block : blks.length ≤ 2 ^ 64 → ∀ blk ∈ blks,
    m.lookup (encodeNamecoinBlockKey blk.header.height) = some (dataOf E blk)
  stamp : ∀ blk, blks.getLast? = some blk → c.headHash = some (computeHash E blk) ∧
    c.headHeight = blk.header.height ∧ c.headTS = blk.header.timestamp ∧
    m.lookup (encodeNamecoinBlockKey blk.header.height) = some (dataOf E blk)

theorem LiveRun.holds (h : LiveRun E cfg blks S c) : ∃ m, S = [.mem m] ∧ Holds E blks m c := by
  induction h with
  | empty =>
    exact ⟨∅, rfl, rfl, by simp, by simp, by simp, rfl, by simp [configurePow, newNamecoinChain],
      rfl, by simp, by simp⟩
  | @step blks S S' c c' blk hrun ha ih =>
    obtain ⟨m, rfl, hm⟩ := ih
    obtain ⟨st, data, hv, -, hdata, hS', rfl⟩ := (applyBlock_ok_iff hrun.reached.headOK).mp ha
    have hnext := ensureNextBlockFollows_ok_iff.mp (validateBlockHeader_ok_iff.mp hv).2.1
    have hheight : blk.header.height = nextHeight c := height_next (validateBlockHeader_ok_iff.mp hv).2.1
    have hpersist : S' = [.mem ((m.insert (encodeNamecoinBlockKey blk.header.height) data).insert
        namecoinLastBlockKey (computeHash E blk))] := by
      rw [hS', hm.store]
      rfl
    refine ⟨_, hpersist, hm.store, fun key d hd => ?_, fun b hb => ?_, fun i hi => ?_, ?_, ?_, ?_,
      fun hlen b hb => ?_, fun b hb => ?_⟩
    · rw [lookup_insert_ite] at hd
      split_ifs at hd with hlast
      · exact .inl hlast
      · rw [lookup_insert_ite] at hd
        split_ifs at hd with hkey
        · exact .inr ⟨blk, by simp, hkey⟩
        · rcases hm.keys key d hd with h | ⟨b, hb, h⟩
          · exact .inl h
          · exact .inr ⟨b, List.mem_append_left _ hb, h⟩
    · rcases List.mem_append.mp hb with hb | hb
      · exact hm.data b hb
      · rw [List.mem_singleton.mp hb]
        exact ⟨data, hdata⟩
    · rcases Nat.lt_or_ge i blks.length with hlt | hge
      · rw [List.getElem_append_left hlt]
        exact hm.heights i hlt
      · have : i = blks.length := by simp at hi; omega
        subst this
        simp [hheight, hm.next]
    · show blk.header.height + 1 = _
      rw [hheight, hm.next, List.length_append, UInt64.ofNat_add]
      rfl
    · simp [chainAfter]
    · rw [lookup_insert_ite, if_pos rfl]
      rfl
    · rw [lookup_insert_ite, if_neg (encode_ne_last _), lookup_insert_ite]
      rcases List.mem_append.mp hb with hb | hb
      · rw [List.length_append, List.length_singleton] at hlen
        rw [if_neg fun he => ?_]
        · exact hm.block (by omega) b hb
        · -- an older block has another height
          obtain ⟨i, hi, rfl⟩ := List.getElem_of_mem hb
          have hsame := encode_injective he
          rw [hm.heights i hi, hheight, hm.next] at hsame
          have := congrArg UInt64.toNat hsame
          rw [UInt64.toNat_ofNat_of_lt' (show i < 2 ^ 64 by omega),
            UInt64.toNat_ofNat_of_lt' (show blks.length < 2 ^ 64 by omega)] at this
          omega
      · rw [List.mem_singleton.mp hb, if_pos rfl, dataOf_eq hdata]
    · rw [List.getLast?_append_of_ne_nil _ (by simp), List.getLast?_singleton, Option.some.injEq] at hb
      subst hb
      refine ⟨rfl, rfl, rfl, ?_⟩
      rw [lookup_insert_ite, if_neg (encode_ne_last _), lookup_insert_ite, if_pos rfl, dataOf_eq hdata]

/-! ### The replay of a run -/

/-- Loaded blocks that all replay, with their hashes. -/
inductive ReplayRun (E : Env) : ReplayState → List LoadedBlock → List Bytes → ReplayState → Prop
  | nil (r : ReplayState) : ReplayRun E r [] [] r
  | cons {r r₁ r' : ReplayState} {lb : LoadedBlock} {lbs : List LoadedBlock} {hash : Bytes}
    {hashes : List Bytes} :
    replayOne E r lb = .ok (hash, r₁) → ReplayRun E r₁ lbs hashes r' →
    ReplayRun E r (lb :: lbs) (hash :: hashes) r'

theorem ReplayRun.snoc {r r₁ r' : ReplayState} {lb : LoadedBlock} {hash : Bytes}
    {hashes : List Bytes} (h : ReplayRun E r lbs hashes r₁) (hlast : replayOne E r₁ lb = .ok (hash, r')) :
    ReplayRun E r (lbs ++ [lb]) (hashes ++ [hash]) r' := by
  induction h with
  | nil r => exact .cons hlast (.nil _)
  | cons hone _ ih => exact .cons hone (ih hlast)

theorem ReplayRun.replayBlocks_none {r r' : ReplayState} {hashes : List Bytes}
    (h : ReplayRun E r lbs hashes r') : replayBlocks E none lbs r = (r', false) := by
  induction h with
  | nil r => rfl
  | cons hone _ ih =>
    rw [replayBlocks, hone]
    simpa using ih

theorem ReplayRun.replayBlocks_last {r r' : ReplayState} {hashes : List Bytes}
    (h : ReplayRun E r lbs hashes r') : ∀ {front : List Bytes} {head : Bytes}, hashes = front ++ [head] →
      head ∉ front → (replayBlocks E (some head) lbs r).1 = r' := by
  induction h with
  | nil r => intro front head he _; simp at he
  | @cons r r₁ r' lb lbs hash hashes hone hrest ih =>
    intro front head he hnew
    rw [replayBlocks, hone]
    dsimp only
    cases front with
    | nil =>
      rw [List.nil_append, List.cons.injEq] at he
      obtain ⟨rfl, rfl⟩ := he
      cases hrest
      rw [if_pos ⟨by simp, rfl⟩]
    | cons a front =>
      rw [List.cons_append, List.cons.injEq] at he
      obtain ⟨rfl, rfl⟩ := he
      have hne : ¬ ((some head : Slice UInt8) ≠ none ∧ bytesEqual (some hash) (some head)) := fun hc =>
        hnew (List.mem_cons.mpr (.inl hc.2.symm))
      rw [if_neg hne]
      exact ih rfl fun hm => hnew (List.mem_cons_of_mem _ hm)

/-- **The blocks of a run replay** to the head of the chain. -/
theorem LiveRun.replay (h : LiveRun E cfg blks S c) :
    ReplayRun E replayStart (blks.map (loaded E)) (blks.map (computeHash E)) (headOf c) := by
  induction h with
  | empty => exact .nil _
  | step hrun ha ih =>
    rw [List.map_append, List.map_append]
    exact ih.snoc (replayOne_stored hrun.reached.headOK ha)

/-! ### What is read from the store -/

section store

variable {m : Map String Bytes}

theorem Holds.pairwise_lt (h : Holds E blks m c) (hlen : blks.length ≤ 2 ^ 64) :
    (blks.map (loaded E)).Pairwise fun a b => a.height < b.height := by
  rw [List.pairwise_map, List.pairwise_iff_getElem]
  intro i j hi hj hij
  show blks[i].header.height < blks[j].header.height
  rw [h.heights i hi, h.heights j hj, UInt64.lt_iff_toNat_lt,
    UInt64.toNat_ofNat_of_lt' (show i < 2 ^ 64 by omega),
    UInt64.toNat_ofNat_of_lt' (show j < 2 ^ 64 by omega)]
  exact hij

/-- The entries that are blocks. -/
def blockEntry (e : String × Bytes) : Option LoadedBlock :=
  match parseNamecoinBlockHeight e.1 with
  | .ok h => some ⟨h, e.2⟩
  | .error _ => none

/-- A store of the given blocks, in the order of their heights, and of a head. -/
structure Filed (m : Map String Bytes) (lbs : List LoadedBlock) : Prop where
  keys : ∀ key data, m.lookup key = some data → key = namecoinLastBlockKey ∨
    ∃ lb ∈ lbs, key = encodeNamecoinBlockKey lb.height
  entries : ∀ lb ∈ lbs, m.lookup (encodeNamecoinBlockKey lb.height) = some lb.raw
  sorted : lbs.Pairwise fun a b => a.height < b.height

theorem Filed.blockEntry_some (h : Filed m lbs) {e : String × Bytes}
    (he : m.lookup e.1 = some e.2) {lb : LoadedBlock} (hb : blockEntry e = some lb) :
    e.1 = encodeNamecoinBlockKey lb.height ∧ lb ∈ lbs := by
  unfold blockEntry at hb
  rcases h.keys e.1 e.2 he with hlast | ⟨⟨height, raw⟩, hmem, hkey⟩
  · obtain ⟨err, herr⟩ := parse_last
    rw [hlast, herr] at hb
    cases hb
  · rw [hkey, parse_encode] at hb
    cases hb
    rw [hkey, h.entries _ hmem, Option.some.injEq] at he
    exact ⟨hkey, he ▸ hmem⟩

theorem Filed.height_inj (h : Filed m lbs) {a b : LoadedBlock} (ha : a ∈ lbs) (hb : b ∈ lbs)
    (he : a.height = b.height) : a = b := by
  have hraw := h.entries a ha
  rw [he, h.entries b hb, Option.some.injEq] at hraw
  cases a
  cases b
  cases he
  cases hraw
  rfl

theorem scanBlocks_sorted (S : Heap) (store : ℕ) :
    (scanBlocks S store).Pairwise fun a b => a.height ≤ b.height :=
  have : Std.Total fun a b : LoadedBlock => a.height ≤ b.height := ⟨fun _ _ => UInt64.le_total _ _⟩
  have : IsTrans LoadedBlock fun a b => a.height ≤ b.height := ⟨fun _ _ _ => UInt64.le_trans⟩
  List.pairwise_insertionSort _ _

theorem scanBlocks_perm (S : Heap) (store : ℕ) :
    (scanBlocks S store).Perm ((Stores.entries S store).filterMap blockEntry) :=
  List.perm_insertionSort _ _

/-- **`LoadNamecoinChain` scans** the blocks of a store in their order. -/
theorem Filed.scanBlocks (h : Filed m lbs) {S : Heap} {store : ℕ}
    (hS : Stores.entries S store = sortedEntries (fun a b : String => a ≤ b) m) :
    scanBlocks S store = lbs := by
  have hentries : (sortedEntries (fun a b : String => a ≤ b) m).Nodup :=
    List.Nodup.of_map Prod.fst (by rw [map_fst_sortedEntries]; exact nodup_sortedKeys _ m)
  have hscan : ((sortedEntries (fun a b : String => a ≤ b) m).filterMap blockEntry).Nodup := by
    refine List.Pairwise.filterMap blockEntry (fun a a' haa b hb b' hb' hbb => ?_)
      (List.Pairwise.and_mem.mp hentries)
    obtain ⟨ha, ha', hne⟩ := haa
    have hl := (mem_sortedEntries _).mp ha
    have hl' := (mem_sortedEntries _).mp ha'
    have hkey := ((h.blockEntry_some hl hb).1).trans (hbb ▸ (h.blockEntry_some hl' hb').1.symm)
    refine hne (Prod.ext hkey ?_)
    rw [hkey, hl'] at hl
    exact (Option.some.inj hl).symm
  have hnodup : lbs.Nodup := List.Pairwise.imp (S := (· ≠ ·)) (fun {a b} hab he => by
    rw [he] at hab
    exact UInt64.lt_irrefl _ hab) h.sorted
  have hperm : ((sortedEntries (fun a b : String => a ≤ b) m).filterMap blockEntry).Perm lbs := by
    rw [List.perm_ext_iff_of_nodup hscan hnodup]
    intro lb
    rw [List.mem_filterMap]
    constructor
    · rintro ⟨e, he, hb⟩
      exact (h.blockEntry_some ((mem_sortedEntries _).mp he) hb).2
    · intro hmem
      refine ⟨(encodeNamecoinBlockKey lb.height, lb.raw),
        (mem_sortedEntries _).mpr (h.entries lb hmem), ?_⟩
      unfold blockEntry
      rw [parse_encode]
  have hsort := (scanBlocks_perm S store).trans (hS ▸ hperm)
  refine hsort.eq_of_pairwise (fun a b ha hb hab hba => ?_) (scanBlocks_sorted S store)
    (h.sorted.imp UInt64.le_of_lt)
  exact h.height_inj (hsort.mem_iff.mp ha) hb (UInt64.le_antisymm hab hba)

theorem Holds.filed (h : Holds E blks m c) (hlen : blks.length ≤ 2 ^ 64) :
    Filed m (blks.map (loaded E)) := by
  refine ⟨fun key data hd => ?_, fun lb hlb => ?_, h.pairwise_lt hlen⟩
  · rcases h.keys key data hd with hlast | ⟨blk, hmem, hkey⟩
    · exact .inl hlast
    · exact .inr ⟨_, List.mem_map_of_mem hmem, hkey⟩
  · obtain ⟨blk, hblk, rfl⟩ := List.mem_map.mp hlb
    exact h.block hlen blk hblk

theorem Holds.scanBlocks (h : Holds E blks m c) (hlen : blks.length ≤ 2 ^ 64) :
    scanBlocks [.mem m] 0 = blks.map (loaded E) := (h.filed hlen).scanBlocks rfl

theorem readBlocks_map {S : Heap} {store : ℕ} {f : ℕ → LoadedBlock} : ∀ {hs : List ℕ},
    (∀ h ∈ hs, get S store (encodeNamecoinBlockKey (UInt64.ofNat h)) = some (f h).raw ∧
      (f h).height = UInt64.ofNat h) → readBlocks S store hs = .ok (hs.map f)
  | [], _ => rfl
  | h :: rest, hall => by
    obtain ⟨hget, hheight⟩ := hall h List.mem_cons_self
    rw [readBlocks, hget, readBlocks_map fun k hk => hall k (List.mem_cons_of_mem _ hk), ← hheight]
    rfl

theorem get_congr {S S' : Heap} {id id' : ℕ} {key : String} (h : entry S id key = entry S' id' key) :
    Stores.get S id key = Stores.get S' id' key := by
  unfold Stores.get
  rw [h]

theorem readBlocks_congr {S S' : Heap} {id id' : ℕ} (h : ∀ key, entry S id key = entry S' id' key) :
    ∀ hs : List ℕ, Defs.readBlocks S id hs = Defs.readBlocks S' id' hs
  | [] => rfl
  | k :: hs => by
    rw [Defs.readBlocks, Defs.readBlocks, get_congr (h _), readBlocks_congr h hs]

theorem Holds.get (h : Holds E blks m c) (hlen : blks.length ≤ 2 ^ 64) {i : ℕ} (hi : i < blks.length) :
    Stores.get [.mem m] 0 (encodeNamecoinBlockKey (UInt64.ofNat i)) = some (dataOf E blks[i]) := by
  have hlook := h.block hlen blks[i] (List.getElem_mem hi)
  obtain ⟨d, hd⟩ := h.data blks[i] (List.getElem_mem hi)
  rw [h.heights i hi] at hlook
  have hentry : entry [.mem m] 0 (encodeNamecoinBlockKey (UInt64.ofNat i)) = some (dataOf E blks[i]) :=
    hlook
  unfold Stores.get
  rw [hentry]
  exact cloneBytes_some (by rw [dataOf_eq hd]; exact marshal_ne_nil hd)

/-- **`forkUpToHeight` reads** the same blocks. -/
theorem Holds.readBlocks (h : Holds E blks m c) (hlen : blks.length ≤ 2 ^ 64) :
    readBlocks [.mem m] 0 (List.range blks.length) = .ok (blks.map (loaded E)) := by
  have hmap : blks.map (loaded E) = (List.range blks.length).map fun i =>
      ((blks[i]?).map (loaded E)).getD ⟨0, []⟩ := by
    refine List.ext_getElem (by simp) fun i h1 h2 => ?_
    have hi : i < blks.length := by simpa using h1
    simp [hi]
  rw [hmap]
  refine readBlocks_map fun i hi => ?_
  rw [List.mem_range] at hi
  rw [List.getElem?_eq_getElem hi, Option.map_some, Option.getD_some]
  exact ⟨h.get hlen hi, h.heights i hi⟩

/-- **`blockAtHeight` reads** the block of the height. -/
theorem Holds.blockAtHeight (h : Holds E blks m c) (hlen : blks.length ≤ 2 ^ 64) {i : ℕ}
    (hi : i < blks.length) {d : NamecoinChain} (hd : d.store = 0) :
    blockAtHeight E [.mem m] d (UInt64.ofNat i) = .ok (Block.reloaded (settleHash E blks[i])) := by
  unfold Defs.blockAtHeight
  rw [hd, h.get hlen hi]
  have hdec := decode_loaded (h.data blks[i] (List.getElem_mem hi))
  unfold loaded at hdec
  rwa [h.heights i hi] at hdec

theorem Holds.height_le (h : Holds E blks m c) (hlen : blks.length ≤ 2 ^ 64)
    (hlast : blks.getLast? = some blk) : ∀ lb ∈ blks.map (loaded E), lb.height ≤ blk.header.height := by
  intro lb hlb
  obtain ⟨b, hb, rfl⟩ := List.mem_map.mp hlb
  obtain ⟨i, hi, rfl⟩ := List.getElem_of_mem hb
  rw [List.getLast?_eq_getElem?, List.getElem?_eq_some_iff] at hlast
  obtain ⟨hn, rfl⟩ := hlast
  show blks[i].header.height ≤ _
  rw [h.heights i hi, h.heights _ hn, UInt64.le_iff_toNat_le,
    UInt64.toNat_ofNat_of_lt' (show i < 2 ^ 64 by omega),
    UInt64.toNat_ofNat_of_lt' (show blks.length - 1 < 2 ^ 64 by omega)]
  omega

end store

/-! ### The loops that rebuild the target -/

section pow

variable {height : UInt64} {params : PowParams} {lbs : List LoadedBlock}

theorem forkPowLoop_append {rest : List LoadedBlock} :
    ∀ {lbs : List LoadedBlock} (t : Option ℤ) (ts : Int64),
    (∀ lb ∈ lbs, lb.height ≤ height) → forkPowLoop E height params (lbs ++ rest) t ts =
      forkPowLoop E height params rest (forkPowLoop E height params lbs t ts).1
        (forkPowLoop E height params lbs t ts).2
  | [], t, ts, _ => rfl
  | lb :: lbs, t, ts, h => by
    have hlb := UInt64.not_lt.mpr (h lb List.mem_cons_self)
    have hrest : ∀ lb ∈ lbs, lb.height ≤ height := fun b hb => h b (List.mem_cons_of_mem _ hb)
    rw [List.cons_append, forkPowLoop, forkPowLoop, if_neg hlb, if_neg hlb]
    cases decodeLoadedBlock E lb with
    | error e => exact forkPowLoop_append t ts hrest
    | ok blk => exact forkPowLoop_append _ _ hrest

theorem loadPowLoop_append {rest : List LoadedBlock} : ∀ {lbs : List LoadedBlock} (t : Option ℤ)
    (ts : Option Int64), (∀ lb ∈ lbs, lb.height ≤ height) →
    loadPowLoop E height params (lbs ++ rest) t ts =
      loadPowLoop E height params rest (loadPowLoop E height params lbs t ts).1
        (loadPowLoop E height params lbs t ts).2
  | [], t, ts, _ => rfl
  | lb :: lbs, t, ts, h => by
    have hlb := UInt64.not_lt.mpr (h lb List.mem_cons_self)
    have hrest : ∀ lb ∈ lbs, lb.height ≤ height := fun b hb => h b (List.mem_cons_of_mem _ hb)
    rw [List.cons_append, loadPowLoop, loadPowLoop, if_neg hlb, if_neg hlb]
    cases decodeLoadedBlock E lb with
    | error e => exact loadPowLoop_append t ts hrest
    | ok blk => exact loadPowLoop_append _ _ hrest

theorem forkPowLoop_time {lb : LoadedBlock} (h : ∀ lb' ∈ lbs ++ [lb], lb'.height ≤ height)
    (hd : decodeLoadedBlock E lb = .ok blk) (t : Option ℤ) (ts : Int64) :
    (forkPowLoop E height params (lbs ++ [lb]) t ts).2 = blk.header.timestamp := by
  rw [forkPowLoop_append t ts fun b hb => h b (List.mem_append_left _ hb), forkPowLoop,
    if_neg (UInt64.not_lt.mpr (h lb (by simp))), hd]
  rfl

theorem loadPowLoop_time {lb : LoadedBlock} (h : ∀ lb' ∈ lbs ++ [lb], lb'.height ≤ height)
    (hd : decodeLoadedBlock E lb = .ok blk) (t : Option ℤ) (ts : Option Int64) :
    (loadPowLoop E height params (lbs ++ [lb]) t ts).2 = some blk.header.timestamp := by
  rw [loadPowLoop_append t ts fun b hb => h b (List.mem_append_left _ hb), loadPowLoop,
    if_neg (UInt64.not_lt.mpr (h lb (by simp))), hd]
  rfl

end pow

/-! ### The reloaded chain -/

/-- Two chains with the same head and the same state. -/
structure SameHead (a b : NamecoinChain) : Prop where
  headHash : a.headHash = b.headHash
  headHeight : a.headHeight = b.headHeight
  headTS : a.headTS = b.headTS
  state : a.state = b.state

theorem ReplayRun.hashes {r r' : ReplayState} {hashes : List Bytes} (h : ReplayRun E r lbs hashes r') :
    List.Forall₂ (fun lb hash => ∃ b, decodeLoadedBlock E lb = .ok b ∧ hash = computeHash E b)
      lbs hashes := by
  induction h with
  | nil => exact .nil
  | cons hone _ ih =>
    obtain ⟨b, -, hdec, -, -, -, -, rfl, -⟩ := replayOne_ok_iff.mp hone
    exact .cons ⟨b, hdec, rfl⟩ ih

theorem ReplayRun.hash_notMem (hc : E.CollisionFree) {r r' : ReplayState}
    {front : List Bytes} {head : Bytes} (h : ReplayRun E r lbs (front ++ [head]) r')
    (hlt : lbs.Pairwise fun a b => a.height < b.height) : head ∉ front := by
  intro hm
  obtain ⟨i, hi, rfl⟩ := List.getElem_of_mem hm
  have hall := h.hashes
  have hlen : lbs.length = front.length + 1 := by rw [hall.length_eq]; simp
  have hi' : i < lbs.length := by omega
  have hlast : front.length < lbs.length := by omega
  obtain ⟨b, hb, hhash⟩ := hall.get hi' (by simp; omega)
  obtain ⟨b', hb', hhash'⟩ := hall.get hlast (by simp)
  simp only [List.get_eq_getElem, List.getElem_append_left hi,
    List.getElem_concat_length] at hb hb' hhash hhash'
  have hheader : b.header = b'.header := serializeHeader_injective (hc (hhash.symm.trans hhash'))
  have hheight := congrArg BlockHeader.height hheader
  rw [decodeLoadedBlock_height hb, decodeLoadedBlock_height hb'] at hheight
  have hbelow := List.pairwise_iff_getElem.mp hlt i front.length hi' hlast hi
  rw [hheight] at hbelow
  exact UInt64.lt_irrefl _ hbelow

theorem loadNamecoinChain_of_scan {S : Heap} {store : ℕ}
    (hscan : Defs.scanBlocks S store = lbs) (hne : lbs ≠ []) {r : ReplayState}
    (hr : (replayBlocks E (Stores.get S store namecoinLastBlockKey) lbs replayStart).1 = r) :
    ∃ seed, (loadNamecoinChain E S store).2 = ⟨store, r.state, r.headHash, r.headHeight, seed,
      some ((loadPowLoop E r.headHeight (powParamsFromConfig zeroPoWConfig) lbs
        (some (effectiveTarget none)) none).1.getD (effectiveTarget none)),
        powParamsFromConfig zeroPoWConfig,
      (loadPowLoop E r.headHeight (powParamsFromConfig zeroPoWConfig) lbs (some (effectiveTarget none))
        none).2.getD 0⟩ := by
  subst hr
  unfold loadNamecoinChain loadScanned
  rw [hscan]
  cases lbs with
  | nil => exact absurd rfl hne
  | cons first rest => exact ⟨_, rfl⟩

theorem LiveRun.load (hc : E.CollisionFree) {front : List Block}
    (hrun : LiveRun E cfg (front ++ [blk]) S c) (hlen : (front ++ [blk]).length ≤ 2 ^ 64) :
    ∃ seed, (loadNamecoinChain E S c.store).2 = ⟨c.store, c.state, c.headHash, c.headHeight, seed,
      some ((loadPowLoop E c.headHeight (powParamsFromConfig zeroPoWConfig)
        ((front ++ [blk]).map (loaded E)) (some (effectiveTarget none)) none).1.getD
          (effectiveTarget none)),
      powParamsFromConfig zeroPoWConfig, c.headTS⟩ := by
  obtain ⟨m, rfl, hm⟩ := hrun.holds
  obtain ⟨hhash, hheight, hts, -⟩ := hm.stamp blk (by simp)
  have hget : Stores.get [.mem m] c.store namecoinLastBlockKey = some (computeHash E blk) := by
    have hentry : entry [.mem m] 0 namecoinLastBlockKey = some (computeHash E blk) := hm.last.trans hhash
    unfold Stores.get
    rw [hm.store, hentry]
    exact cloneBytes_some (E.sha256_ne_nil _)
  have hscan := hm.scanBlocks hlen
  rw [← hm.store] at hscan
  have hreplay : (replayBlocks E (Stores.get [.mem m] c.store namecoinLastBlockKey)
      ((front ++ [blk]).map (loaded E)) replayStart).1 = headOf c := by
    rw [hget]
    have hhashes : ReplayRun E replayStart ((front ++ [blk]).map (loaded E))
        (front.map (computeHash E) ++ [computeHash E blk]) (headOf c) := by simpa using hrun.replay
    exact hrun.replay.replayBlocks_last (by simp) (hhashes.hash_notMem hc (hm.pairwise_lt hlen))
  obtain ⟨seed, hload⟩ := loadNamecoinChain_of_scan hscan (by simp) hreplay
  refine ⟨seed, hload.trans ?_⟩
  have hle := hm.height_le hlen (show (front ++ [blk]).getLast? = some blk by simp)
  have hdec := decode_loaded (hm.data blk (by simp))
  have htime : (loadPowLoop E c.headHeight (powParamsFromConfig zeroPoWConfig)
    ((front ++ [blk]).map (loaded E)) (some (effectiveTarget none)) none).2 = some c.headTS := by
    rw [List.map_append, List.map_singleton] at hle ⊢
    rw [hheight, loadPowLoop_time hle hdec, hts]
    exact congrArg (fun h => some h.timestamp) (settleHash_header blk)
  show NamecoinChain.mk _ _ _ _ _ _ _ _ = _
  rw [show (headOf c).headHeight = c.headHeight from rfl, htime]
  rfl

theorem LiveRun.fork {front : List Block} (hrun : LiveRun E cfg (front ++ [blk]) S c)
    (hlen : (front ++ [blk]).length < 2 ^ 64) {S' : Heap} {id : ℕ}
    (hS : ∀ key, entry S' id key = entry S c.store key) {base : NamecoinChain}
    (hbase : c.headHeight ≤ base.headHeight) :
    ∃ f, base.forkUpToHeight E S' c.headHeight id = .ok f ∧ SameHead f c := by
  obtain ⟨m, rfl, hm⟩ := hrun.holds
  obtain ⟨-, hheight, hts, -⟩ := hm.stamp blk (by simp)
  have hcount : c.headHeight.toNat + 1 = (front ++ [blk]).length := by
    have hlast := hm.heights front.length (by simp)
    rw [List.length_append, List.length_singleton] at hlen ⊢
    rw [List.getElem_append_right (le_refl _)] at hlast
    simp only [Nat.sub_self, List.getElem_singleton] at hlast
    rw [hheight, hlast, UInt64.toNat_ofNat_of_lt' (show front.length < 2 ^ 64 by omega)]
  have hread : readBlocks S' id (List.range (c.headHeight.toNat + 1)) =
      .ok ((front ++ [blk]).map (loaded E)) := by
    rw [readBlocks_congr hS, hcount, hm.store]
    exact hm.readBlocks hlen.le
  have hle := hm.height_le hlen.le (show (front ++ [blk]).getLast? = some blk by simp)
  have htime : (forkPowLoop E c.headHeight base.powParams ((front ++ [blk]).map (loaded E))
      (some (effectiveTarget base.powSeed)) 0).2 = c.headTS := by
    rw [List.map_append, List.map_singleton] at hle ⊢
    rw [hheight, forkPowLoop_time hle (decode_loaded (hm.data blk (by simp))), hts]
    exact congrArg BlockHeader.timestamp (settleHash_header blk)
  have hreplay : (replayBlocks E none ((front ++ [blk]).map (loaded E)) replayStart).1 = headOf c := by
    rw [hrun.replay.replayBlocks_none]
  refine ⟨_, forkUpToHeight_ok_iff.mpr ⟨hbase, _, hread, by rw [hreplay]; rfl, rfl⟩, ?_⟩
  rw [hreplay]
  exact ⟨rfl, rfl, htime, rfl⟩

/-- **Replay reconstructs the live chain**, from the store of a run of fewer than 2^64 blocks. -/
theorem replay_live (hc : E.CollisionFree) (hrun : LiveRun E cfg blks S c) (hne : blks ≠ [])
    (hlen : blks.length < 2 ^ 64) : SameHead (loadNamecoinChain E S c.store).2 c ∧
      ∃ f, c.forkUpToHeight E S (UInt64.ofNat (blks.length - 1)) c.store = .ok f ∧ SameHead f c := by
  obtain ⟨front, blk, rfl⟩ := (List.eq_nil_or_concat' blks).resolve_left hne
  obtain ⟨seed, hload⟩ := hrun.load hc hlen.le
  obtain ⟨m, -, hm⟩ := hrun.holds
  have hheight : c.headHeight = UInt64.ofNat ((front ++ [blk]).length - 1) := by
    rw [(hm.stamp blk (by simp)).2.1]
    have := hm.heights front.length (by simp)
    simpa using this
  rw [← hheight]
  exact ⟨by rw [hload]; exact ⟨rfl, rfl, rfl, rfl⟩, hrun.fork hlen (fun _ => rfl) (UInt64.le_refl _)⟩

/-! ### Runs of the ledger on a fresh store -/

theorem LedgerRun.live {target : ℤ} {h : UInt64} {s s' : NamecoinState} {tss : List (List Tx)}
    (hrun : LedgerRun E h s tss s') : ∀ {blks : List Block} {S : Heap} {c : NamecoinChain},
      LiveRun E cfg blks S c → Static target c → h = nextHeight c → c.state = s →
      (∀ b ∈ blocksFrom E h c.headHash tss, (workOf E b : ℤ) ≤ target) →
      ∃ S' c', LiveRun E cfg (blks ++ blocksFrom E h c.headHash tss) S' c' ∧ c'.state = s' := by
  induction hrun with
  | nil h s => exact fun {blks S c} hl _ _ hst _ => ⟨S, c, by simpa [blocksFrom] using hl, hst⟩
  | @cons h s st s' txs rest hp hstep _ ih =>
    intro blks S c hl hs hh hst hwork
    subst hh hst
    obtain ⟨S₁, ha⟩ := extend_reached hl.reached hs hp hstep (hwork _ (by simp [blocksFrom, blockOn])) S
    obtain ⟨S', c', hl', hst'⟩ := ih (.step hl ha) (hs.after st) rfl rfl
      fun b hb => hwork b (List.mem_cons_of_mem _ hb)
    refine ⟨S', c', ?_, hst'⟩
    rw [List.append_assoc] at hl'
    exact hl'

theorem length_blocksFrom : ∀ (tss : List (List Tx)) (h : UInt64) (prev : Slice UInt8),
    (blocksFrom E h prev tss).length = tss.length
  | [], _, _ => rfl
  | _ :: tss, _, _ => congrArg (· + 1) (length_blocksFrom tss _ _)

theorem hash_blocksFrom : ∀ (tss : List (List Tx)) (h : UInt64) (prev : Slice UInt8),
    ∀ b ∈ blocksFrom E h prev tss, b.hash = none
  | [], _, _, b, hb => by cases hb
  | txs :: tss, h, prev, b, hb => by
    rcases List.mem_cons.mp hb with rfl | hb
    · rfl
    · exact hash_blocksFrom tss _ _ b hb

/-- **A run of the ledger is a run on a fresh store**, with blocks whose `Hash` is missing. -/
theorem exists_live {s : NamecoinState} {tss : List (List Tx)} (hrun : LedgerRun E 0 newState tss s) :
    ∃ cfg blks S c, LiveRun E cfg blks S c ∧ blks.length = tss.length ∧ c.state = s ∧
    ∀ b ∈ blks, b.hash = none := by
  let target : ℤ := ((blocksFrom E 0 none tss).map (workOf E)).sum
  have hwork : ∀ b ∈ blocksFrom E 0 none tss, (workOf E b : ℤ) ≤ target := fun b hb =>
    Int.ofNat_le.mpr (List.le_sum_of_mem (List.mem_map_of_mem hb))
  have hempty : LiveRun E (staticConfig target) [] [.mem ∅] (emptyChain target 0) := .empty
  obtain ⟨S, c, hl, hst⟩ := LedgerRun.live hrun hempty (static_emptyChain target 0) rfl rfl hwork
  rw [List.nil_append] at hl
  exact ⟨_, _, S, c, hl, length_blocksFrom tss _ _, hst, hash_blocksFrom tss _ _⟩

/-- A run of two blocks that pay and spend a coin is loaded back. -/
theorem replay_live_commit : ∃ (E : Env) (cfg : PoWConfig) (blks : List Block) (S : Heap)
      (c : NamecoinChain),
    E.CollisionFree ∧ LiveRun E cfg blks S c ∧ blks.length = 2 ∧
    SameHead (loadNamecoinChain E S c.store).2 c := by
  obtain ⟨s, hrun, -⟩ := commit_ledger plainEnv_collisionFree plainEnv_canonicalJson
    (plainSigner 7) "site" 1
  obtain ⟨cfg, blks, S, c, hl, hlen, -⟩ := exists_live hrun
  have htwo : blks.length = 2 := hlen
  have hne : blks ≠ [] := fun h => by rw [h] at htwo; cases htwo
  exact ⟨_, cfg, blks, S, c, plainEnv_collisionFree, hl, htwo,
    (replay_live plainEnv_collisionFree hl hne (by rw [htwo]; decide)).1⟩

/-! ### When the heights wrap around -/

theorem LiveRun.last {front : List Block} (h : LiveRun E cfg (front ++ [blk]) S c) :
    ∃ S₀ c₀, LiveRun E cfg front S₀ c₀ ∧ c₀.applyBlock E S₀ blk = .ok (S, c) := by
  generalize hb : front ++ [blk] = blks at h
  cases h with
  | empty => simp at hb
  | step hrun ha =>
    obtain ⟨rfl, hone⟩ := List.append_inj' hb rfl
    cases hone
    exact ⟨_, _, hrun, ha⟩

theorem LiveRun.prevHash {front : List Block} (h : LiveRun E cfg (front ++ [blk]) S c)
    (hne : front ≠ []) : elems blk.header.prevHash ≠ [] := by
  obtain ⟨S₀, c₀, hrun, ha⟩ := h.last
  obtain ⟨st, hv, -⟩ := hrun.reached.applied ha
  have hnext := ensureNextBlockFollows_ok_iff.mp (validateBlockHeader_ok_iff.mp hv).2.1
  obtain ⟨m, -, hm⟩ := hrun.holds
  obtain ⟨b, hb⟩ := Option.isSome_iff_exists.mp (List.getLast?_isSome.mpr hne)
  have hhash := (hm.stamp b hb).1
  rw [hhash, if_neg (Option.some_ne_none _)] at hnext
  rw [show elems blk.header.prevHash = computeHash E b from hnext.2]
  exact E.sha256_ne_nil _

theorem replayBlocks_stuck {stored : Slice UInt8} {r : ReplayState} : ∀ {lbs : List LoadedBlock},
    (∀ lb ∈ lbs, ∀ p, replayOne E r lb ≠ .ok p) → replayBlocks E stored lbs r = (r, false)
  | [], _ => rfl
  | lb :: lbs, h => by
    rw [replayBlocks]
    cases hr : replayOne E r lb with
    | error e => exact replayBlocks_stuck fun b hb => h b (List.mem_cons_of_mem _ hb)
    | ok p => exact absurd hr (h lb List.mem_cons_self p)

/-- A run whose last block has height 0 again cannot be replayed: nothing in the
store is a first block. -/
theorem LiveRun.stuck {front : List Block} (h : LiveRun E cfg (front ++ [blk]) S c)
    (hne : front ≠ []) (h0 : blk.header.height = 0) :
    (loadNamecoinChain E S c.store).2.headHash = none := by
  obtain ⟨m, rfl, hm⟩ := h.holds
  have hall : ∀ lb ∈ Defs.scanBlocks [.mem m] c.store, ∀ p, replayOne E replayStart lb ≠ .ok p := by
    intro lb hlb p hp
    obtain ⟨hash, r'⟩ := p
    obtain ⟨b, state, hdec, -, hnext, -⟩ := replayOne_ok_iff.mp hp
    have hfirst := ensureNextBlockFollows_ok_iff.mp hnext
    rw [show replayStart.headHash = none from rfl, if_pos rfl] at hfirst
    have hzero : lb.height = 0 := (decodeLoadedBlock_height hdec).symm.trans hfirst.1
    -- the entry under the key of height 0 is the last block
    obtain ⟨e, he, hlb⟩ := List.mem_filterMap.mp ((List.perm_insertionSort _ _).mem_iff.mp hlb)
    rw [hm.store] at he
    have hlook := (mem_sortedEntries _).mp (show e ∈ sortedEntries (fun a b : String => a ≤ b) m from he)
    have hlb' : lb = loaded E blk := by
      rcases hm.keys e.1 e.2 hlook with hlast | ⟨b', -, hkey⟩
      · obtain ⟨err, herr⟩ := parse_last
        rw [hlast, herr] at hlb
        cases hlb
      · rw [hkey, parse_encode] at hlb
        cases hlb
        have hb' : b'.header.height = blk.header.height :=
          (show b'.header.height = 0 from hzero).trans h0.symm
        rw [hkey, hb', (hm.stamp blk (by simp)).2.2.2] at hlook
        rw [loaded, hb', Option.some.inj hlook]
    rw [hlb', decode_loaded (hm.data blk (by simp))] at hdec
    cases hdec
    have hprev : elems (settleHash E blk).header.prevHash = [] := hfirst.2
    rw [settleHash_header] at hprev
    exact h.prevHash hne hprev
  have hstuck : (replayBlocks E (Stores.get [.mem m] c.store namecoinLastBlockKey)
      (Defs.scanBlocks [.mem m] c.store) replayStart).1 = replayStart := by rw [replayBlocks_stuck hall]
  by_cases hnil : Defs.scanBlocks [.mem m] c.store = []
  · unfold loadNamecoinChain loadScanned
    rw [hnil]
    rfl
  · obtain ⟨seed, hload⟩ := loadNamecoinChain_of_scan rfl hnil hstuck
    rw [hload]
    rfl

/-- **After 2^64 + 1 empty blocks** the first block has been overwritten, and nothing is replayed. -/
theorem wrapped_reload : ¬ ∀ (E : Env) (cfg : PoWConfig) (blks : List Block) (S : Heap)
      (c : NamecoinChain),
    E.CollisionFree → LiveRun E cfg blks S c → blks ≠ [] → SameHead (loadNamecoinChain E S c.store).2 c ∧
      ∃ f, c.forkUpToHeight E S (UInt64.ofNat (blks.length - 1)) c.store = .ok f ∧ SameHead f c := by
  intro hall
  obtain ⟨height, hrun⟩ := quiet_run (E := plainEnv) (2 ^ 64 + 1) 0 (s := newState) rfl
  obtain ⟨cfg, blks, S, c, hl, hlen, -⟩ := exists_live hrun
  rw [List.length_replicate] at hlen
  obtain ⟨front, blk, rfl⟩ := (List.eq_nil_or_concat' blks).resolve_left fun h => by
    rw [h] at hlen
    cases hlen
  have hfront : front.length = 2 ^ 64 := by
    rw [List.length_append, List.length_singleton] at hlen
    omega
  obtain ⟨m, -, hm⟩ := hl.holds
  have h0 : blk.header.height = 0 := by
    have hlast := hm.heights front.length (by simp)
    rw [List.getElem_append_right (le_refl _)] at hlast
    simp only [Nat.sub_self, List.getElem_singleton] at hlast
    rw [hlast, hfront]
    rfl
  have hsame := (hall plainEnv cfg _ S c plainEnv_collisionFree hl (by simp)).1.headHash
  have hne : front ≠ [] := fun h => by rw [h] at hfront; cases hfront
  rw [hl.stuck hne h0, (hm.stamp blk (by simp)).1] at hsame
  cases hsame

end Namecoin.Chain.Reload
