import Namecoin.Sharing.Blobs
import Namecoin.Types.SampleEnv

/-! # Download after upload

What `Upload` has stored, `Download` on the same node puts together again, however the reader
delivers the data. The chunks and the metafile share one store; without collisions of the hash they
do not get into each other's way.

* `readFull_full`, `readFull_short`, `readFull_empty`: what `io.ReadFull` reads
  from any split of the data;
* `storeChunks_exec`: the loop of `Upload` stores the chunks of the data, unless they are too long;
* `download_stored`: `Download` returns the chunks that a stored metafile lists;
* `upload_download`: the round trip, and when `Upload` succeeds;
* `upload_alone`, `download_alone`: calls that run alone on a node do what is said here. -/

namespace Namecoin.Sharing.RoundTrip

open Lib.ByteStrings Lib.Maps Lib.Programs Types.Defs Types.SampleEnv Sharing.Blobs

/-! ### Reading -/

theorem fill_spec : ∀ (r : Reader) (n : ℕ),
    (n ≤ r.bytes.length → (r.fill n).1 = r.bytes.take n ∧ (r.fill n).2.2.bytes = r.bytes.drop n ∧
      (r.fill n).2.2.err = r.err) ∧
    (r.bytes.length < n → (r.fill n).1 = r.bytes ∧ (r.fill n).2.1 = some r.err)
  | r, 0 => by
    rw [Reader.fill.eq_1]
    exact ⟨fun _ => ⟨rfl, rfl, rfl⟩, fun h => absurd h (Nat.not_lt_zero _)⟩
  | .ended e, n + 1 => by
    refine ⟨fun h => ?_, fun _ => ⟨rfl, rfl⟩⟩
    simp [Reader.bytes] at h
  | .last w e, n + 1 => by
    rw [Reader.fill.eq_3]
    simp only [Reader.bytes, Reader.err]
    split_ifs with hle
    · refine ⟨fun h => ?_, fun _ => ⟨rfl, rfl⟩⟩
      have hlen : w.length = n + 1 := by omega
      rw [← hlen, List.take_length, List.drop_length]
      exact ⟨rfl, rfl, rfl⟩
    · exact ⟨fun _ => ⟨rfl, rfl, rfl⟩, fun h => absurd h (by omega)⟩
  | .piece w r, n + 1 => by
    rw [Reader.fill.eq_4]
    simp only [Reader.bytes, Reader.err, List.length_append]
    split_ifs with hle
    · obtain ⟨hfull, hshort⟩ := fill_spec r (n + 1 - w.length)
      constructor
      · intro h
        obtain ⟨hbytes, hrest, herr⟩ := hfull (by omega)
        rw [List.take_append, List.drop_append, List.take_of_length_le hle, List.drop_eq_nil_of_le hle,
          List.nil_append]
        exact ⟨congrArg (w ++ ·) hbytes, hrest, herr⟩
      · intro h
        obtain ⟨hbytes, herr⟩ := hshort (by omega)
        exact ⟨congrArg (w ++ ·) hbytes, herr⟩
    · constructor
      · intro h
        rw [List.take_append_of_le_length (by omega), List.drop_append_of_le_length (by omega)]
        exact ⟨rfl, rfl, rfl⟩
      · intro h
        omega

variable {r : Reader} {n : ℕ}

theorem readFull_full (h : n ≤ r.bytes.length) :
    ∃ r', readFull r n = (r.bytes.take n, none, r') ∧ r'.bytes = r.bytes.drop n ∧ r'.err = r.err := by
  obtain ⟨hbytes, hrest, herr⟩ := (fill_spec r n).1 h
  refine ⟨(r.fill n).2.2, ?_, hrest, herr⟩
  have hlen : n ≤ (r.bytes.take n).length := by
    rw [List.length_take]
    omega
  simp only [readFull, hbytes]
  rw [if_pos hlen]

theorem readFull_short (heof : r.err = .eof) (hne : r.bytes ≠ []) (h : r.bytes.length < n) :
    ∃ r', readFull r n = (r.bytes, some .unexpectedEOF, r') := by
  obtain ⟨hbytes, herr⟩ := (fill_spec r n).2 h
  refine ⟨(r.fill n).2.2, ?_⟩
  simp only [readFull, hbytes, herr, heof]
  rw [if_neg (by omega), if_pos ⟨hne, trivial⟩]

theorem readFull_empty (heof : r.err = .eof) (hnil : r.bytes = []) (h : 0 < n) :
    ∃ r', readFull r n = ([], some .eof, r') := by
  obtain ⟨hbytes, herr⟩ := (fill_spec r n).2 (by rw [hnil]; exact h)
  rw [hnil] at hbytes
  refine ⟨(r.fill n).2.2, ?_⟩
  simp only [readFull, hbytes, herr, heof]
  rw [if_neg (by rw [List.length_nil]; omega), if_neg fun hc => hc.1 rfl]

/-! ### Keys as lines of a text -/

/-- The bytes of hexadecimal digits. -/
def isDigit (c : UInt8) : Bool := (48 ≤ c && c ≤ 57) || (97 ≤ c && c ≤ 102)

theorem digit_spec {n : ℕ} (h : n < 16) : isDigit (UInt8.ofNat (hexDigit n).toNat) = true ∧
    Char.ofNat (UInt8.ofNat (hexDigit n).toNat).toNat = hexDigit n := by
  interval_cases n <;> decide

theorem mem_hexChars {b : Bytes} {d : Char} (h : d ∈ hexChars b) : ∃ n < 16, d = hexDigit n := by
  obtain ⟨x, -, hx⟩ := List.mem_flatMap.mp h
  have hlt := UInt8.toNat_lt x
  rcases List.mem_cons.mp hx with rfl | hx
  · exact ⟨_, by omega, rfl⟩
  · exact ⟨_, by omega, List.mem_singleton.mp hx⟩

theorem isDigit_encodeToString {b : Bytes} {c : UInt8} (h : c ∈ encodeToString b) : isDigit c = true := by
  obtain ⟨d, hd, rfl⟩ := List.mem_map.mp h
  obtain ⟨n, hn, rfl⟩ := mem_hexChars hd
  exact (digit_spec hn).1

theorem encodeToString_injective : Function.Injective encodeToString := by
  have hback : ∀ b : Bytes, (encodeToString b).map (fun c => Char.ofNat c.toNat) = hexChars b := by
    intro b
    rw [encodeToString, List.map_map]
    refine (List.map_congr_left fun d hd => ?_).trans (List.map_id _)
    obtain ⟨n, hn, rfl⟩ := mem_hexChars hd
    exact (digit_spec hn).2
  intro a b h
  have hchars : hexChars a = hexChars b := by rw [← hback a, h, hback b]
  have hread := unhexChars_hexChars a
  rw [hchars, unhexChars_hexChars] at hread
  exact (Option.some.inj hread).symm

theorem encodeToString_ne_nil {b : Bytes} (h : b ≠ []) : encodeToString b ≠ [] := fun he =>
  h (encodeToString_injective (he.trans rfl))

theorem dropCode_digits {codes : List Bytes} (hcodes : ∀ code ∈ codes, code.head?.any (isDigit · = false))
    {s : Bytes} (hs : ∀ c ∈ s, isDigit c = true) : dropCode codes s = s := by
  have hfind : codes.find? (·.isPrefixOf s) = none := by
    refine List.find?_eq_none.mpr fun code hcode hpre => ?_
    have hhead := hcodes code hcode
    cases code with
    | nil => simp at hhead
    | cons b rest =>
      cases s with
      | nil => simp at hpre
      | cons c s =>
        have hb : b = c := by simp [List.isPrefixOf] at hpre; exact hpre.1
        simp [hb, hs c List.mem_cons_self] at hhead
  rw [dropCode, hfind]

theorem trimSpace_digits {s : Bytes} (hs : ∀ c ∈ s, isDigit c = true) : trimSpace s = s := by
  have hleft : dropCodes spaces s = s := Function.iterate_fixed (dropCode_digits (by decide) hs) _
  have hright : dropCodes (spaces.map List.reverse) s.reverse = s.reverse :=
    Function.iterate_fixed (dropCode_digits (by decide) fun c hc => hs c (List.mem_reverse.mp hc)) _
  rw [trimSpace, hleft, hright, List.reverse_reverse]

/-! ### Chunks and the metafile -/

/-- The chunks of the data: `size` bytes each, but for the last one. -/
def chunks (size : ℕ) (data : Bytes) : List Bytes :=
  (List.range ((data.length + size - 1) / size)).map fun i => (data.drop (i * size)).take size

variable {size : ℕ} {data : Bytes}

theorem chunks_nil (hsize : 0 < size) : chunks size [] = [] := by
  rw [chunks, List.length_nil, Nat.zero_add, Nat.div_eq_of_lt (by omega)]
  rfl

theorem chunks_cons (hsize : 0 < size) (hne : data ≠ []) :
    chunks size data = data.take size :: chunks size (data.drop size) := by
  have hpos := List.length_pos_of_ne_nil hne
  have hcount : (data.length + size - 1) / size = ((data.drop size).length + size - 1) / size + 1 := by
    rw [List.length_drop]
    by_cases hle : size ≤ data.length
    · rw [show data.length + size - 1 = data.length - size + size - 1 + size by omega,
        Nat.add_div_right _ hsize]
    · rw [show data.length - size + size - 1 = size - 1 by omega,
        Nat.div_eq_of_lt (by omega : size - 1 < size), show data.length + size - 1 =
        data.length - 1 + size by omega, Nat.add_div_right _ hsize,
        Nat.div_eq_of_lt (by omega : data.length - 1 < size)]
  rw [chunks, hcount, List.range_succ_eq_map, List.map_cons, List.map_map, Nat.zero_mul, List.drop_zero]
  refine congrArg _ (List.map_congr_left fun i _ => ?_)
  simp only [Function.comp_apply, List.drop_drop, Nat.succ_mul, Nat.add_comm]

theorem chunks_spec (hsize : 0 < size) : ∀ {data : Bytes},
    (chunks size data).flatten = data ∧ ∀ chunk ∈ chunks size data, chunk ≠ [] := by
  intro data
  induction hlen : data.length using Nat.strong_induction_on generalizing data with
  | _ len ih =>
    by_cases hne : data = []
    · subst hne
      rw [chunks_nil hsize]
      exact ⟨rfl, fun _ h => nomatch h⟩
    · have hpos := List.length_pos_of_ne_nil hne
      obtain ⟨hflat, hchunks⟩ := ih (data.drop size).length (by rw [List.length_drop]; omega) rfl
      rw [chunks_cons hsize hne, List.flatten_cons, hflat, List.take_append_drop]
      refine ⟨rfl, fun chunk hchunk => ?_⟩
      rcases List.mem_cons.mp hchunk with rfl | hchunk
      · intro hnil
        rcases List.take_eq_nil_iff.mp hnil with h | h
        · omega
        · exact hne h
      · exact hchunks chunk hchunk

variable (E : Env)

/-- The metafile of the data. -/
def metafile (size : ℕ) (data : Bytes) : Bytes := metafileOf ((chunks size data).map (hexKey E))

variable {E}

theorem hexKey_ne_nil {v : Bytes} : hexKey E v ≠ [] := encodeToString_ne_nil (E.sha256_ne_nil v)

theorem hexKey_injective (hE : E.CollisionFree) : Function.Injective (hexKey E) := fun _ _ h =>
  hE (encodeToString_injective h)

theorem trimSpace_hexKey {v : Bytes} : trimSpace (hexKey E v) = hexKey E v :=
  trimSpace_digits fun _ => isDigit_encodeToString

theorem splitOn_metafileOf {vs : List Bytes} (hne : vs ≠ []) :
    (metafileOf (vs.map (hexKey E))).splitOn metafileSep = vs.map (hexKey E) := by
  refine List.splitOn_intercalate metafileSep (fun key hkey hsep => ?_) (by simpa using hne)
  obtain ⟨v, -, rfl⟩ := List.mem_map.mp hkey
  exact absurd (isDigit_encodeToString hsep) (by decide)

theorem metafileOf_ne_nil {vs : List Bytes} (hne : vs ≠ []) : metafileOf (vs.map (hexKey E)) ≠ [] := by
  intro hnil
  have hlines := splitOn_metafileOf (E := E) hne
  rw [hnil, List.splitOn_nil] at hlines
  cases vs with
  | nil => exact hne rfl
  | cons v vs => exact hexKey_ne_nil (List.cons.inj hlines).1.symm

/-! ### What is stored -/

/-- The store after the given blobs have been stored. -/
def storeAll (E : Env) (s : Store) (vs : List Bytes) : Store :=
  vs.foldl (fun s v => s.set (hexKey E v) v) s

/-- The blob is stored under its hash. -/
def Has (E : Env) (s : Store) (v : Bytes) : Prop := s.data.lookup (hexKey E v) = some v

variable {s : Store} {v w : Bytes}

theorem has_set_self : Has E (s.set (hexKey E v) v) v := Finmap.lookup_insert _

theorem Has.set (hE : E.CollisionFree) (h : Has E s v) : Has E (s.set (hexKey E w) w) v := by
  unfold Has Store.set
  rw [lookup_insert_ite]
  split_ifs with hkey
  · rw [hexKey_injective hE hkey]
  · exact h

theorem has_storeAll (hE : E.CollisionFree) : ∀ {vs : List Bytes} {s : Store}, v ∈ vs ∨ Has E s v →
    Has E (storeAll E s vs) v
  | [], _, h => by
    rcases h with h | h
    · cases h
    · exact h
  | w :: vs, s, h => by
    have hrest : v ∈ vs ∨ Has E (s.set (hexKey E w) w) v := by
      rcases h with h | h
      · rcases List.mem_cons.mp h with rfl | h
        · exact .inr has_set_self
        · exact .inl h
      · exact .inr (h.set hE)
    change Has E (storeAll E (s.set (hexKey E w) w) vs) v
    exact has_storeAll hE hrest

theorem Has.get (h : Has E s v) (hne : v ≠ []) : s.get (hexKey E v) = some v := by
  unfold Store.get
  rw [h]
  cases v with
  | nil => exact absurd rfl hne
  | cons b bs => rfl

variable {conf : Conf} {peers : Bytes → Peers}

theorem exec_get {key : Bytes} : (get key).run.exec (handle conf peers) s = (.ok (s.get key), s) := rfl

theorem getChunks_exec : ∀ {vs : List Bytes}, (∀ v ∈ vs, Has E s v ∧ v ≠ []) →
    (getChunks E (vs.map (hexKey E))).run.exec (handle conf peers) s = (.ok vs.flatten, s)
  | [], _ => rfl
  | v :: vs, h => by
    obtain ⟨hv, hne⟩ := h v List.mem_cons_self
    have hchunk : (getChunk E (trimSpace (hexKey E v))).run.exec (handle conf peers) s = (.ok v, s) := by
      rw [trimSpace_hexKey, getChunk, if_neg hexKey_ne_nil, exec_run_bind, exec_get, hv.get hne]
      rfl
    rw [List.map_cons, getChunks, exec_run_bind, hchunk]
    dsimp only
    rw [exec_run_bind, getChunks_exec fun w hw => h w (List.mem_cons_of_mem _ hw)]
    rfl

/-! ### Uploads -/

theorem chunks_short (hne : data ≠ []) (h : data.length < size) : chunks size data = [data] := by
  rw [chunks_cons (by omega) hne, List.take_of_length_le h.le, List.drop_eq_nil_of_le h.le,
    chunks_nil (by omega)]

theorem storeChunks_full {rounds total : ℕ} {chunk : Bytes} {r' : Reader}
    (hread : readFull r size = (chunk, none, r')) (hsmall : total + chunk.length ≤ maxSize) :
    storeChunks E size (rounds + 1) r total = do
      set (hexKey E chunk) chunk
      return hexKey E chunk :: (← storeChunks E size rounds r' (total + chunk.length)) := by
  rw [storeChunks, hread]
  exact if_neg (Nat.not_lt.mpr hsmall)

theorem storeChunks_last {rounds total : ℕ} {chunk : Bytes} {r' : Reader}
    (hread : readFull r size = (chunk, some .unexpectedEOF, r'))
    (hsmall : total + chunk.length ≤ maxSize) :
    storeChunks E size (rounds + 1) r total = do
      set (hexKey E chunk) chunk
      return [hexKey E chunk] := by
  rw [storeChunks, hread]
  exact if_neg (Nat.not_lt.mpr hsmall)

theorem storeChunks_large {rounds total : ℕ} {chunk : Bytes} {err : Option ReadErr} {r' : Reader}
    (hread : readFull r size = (chunk, err, r')) (herr : err = none ∨ err = some .unexpectedEOF)
    (hlarge : maxSize < total + chunk.length) :
    storeChunks E size (rounds + 1) r total = fail "data too large: exceeds 2 MiB" := by
  rw [storeChunks, hread]
  rcases herr with rfl | rfl
  · exact if_pos hlarge
  · exact if_pos hlarge

/-- **The loop of `Upload`** stores the chunks of the data and returns their keys,
unless the data are too long. -/
theorem storeChunks_exec (hsize : 0 < size) :
    ∀ {rounds : ℕ} {r : Reader} {total : ℕ} {s : Store}, r.err = .eof →
    r.bytes.length < rounds → total ≤ maxSize →
    if total + r.bytes.length ≤ maxSize then
      (storeChunks E size rounds r total).run.exec (handle conf peers) s =
        (.ok ((chunks size r.bytes).map (hexKey E)), storeAll E s (chunks size r.bytes))
    else ∃ e s', (storeChunks E size rounds r total).run.exec (handle conf peers) s = (.error e, s')
  | 0, _, _, _, _, hrounds, _ => absurd hrounds (Nat.not_lt_zero _)
  | rounds + 1, r, total, s, heof, hrounds, htotal => by
    by_cases hnil : r.bytes = []
    · obtain ⟨r', hread⟩ := readFull_empty heof hnil hsize
      rw [hnil, List.length_nil, if_pos (by omega), chunks_nil hsize, storeChunks, hread]
      rfl
    have hpos := List.length_pos_of_ne_nil hnil
    by_cases hle : size ≤ r.bytes.length
    · -- a full chunk, and the rounds that follow
      obtain ⟨r', hread, hbytes, herr⟩ := readFull_full hle
      have hlen : (r.bytes.take size).length = size := by
        rw [List.length_take]
        omega
      have hdrop : r'.bytes.length = r.bytes.length - size := by rw [hbytes, List.length_drop]
      by_cases hsmall : total + size ≤ maxSize
      · have ih := @storeChunks_exec hsize rounds r' (total + size)
          (s.set (hexKey E (r.bytes.take size)) (r.bytes.take size)) (herr.trans heof) (by omega) hsmall
        rw [show total + size + r'.bytes.length = total + r.bytes.length by omega] at ih
        rw [storeChunks_full hread (by omega), hlen, chunks_cons hsize hnil, ← hbytes]
        split_ifs at ih ⊢ with hfits
        · rw [exec_run_bind]
          change Prog.exec _ (ExceptT.run (storeChunks E size rounds r' (total + size) >>= _))
            (s.set _ _) = _
          rw [exec_run_bind, ih]
          rfl
        · obtain ⟨e, s', he⟩ := ih
          refine ⟨e, s', ?_⟩
          rw [exec_run_bind]
          change Prog.exec _ (ExceptT.run (storeChunks E size rounds r' (total + size) >>= _))
            (s.set _ _) = _
          rw [exec_run_bind, he]
      · rw [if_neg (by omega), storeChunks_large hread (.inl rfl) (by omega)]
        exact ⟨_, _, rfl⟩
    · -- the last chunk, which is not full
      obtain ⟨r', hread⟩ := readFull_short (n := size) heof hnil (by omega)
      split_ifs with hfits
      · rw [storeChunks_last hread hfits, chunks_short hnil (by omega)]
        rfl
      · rw [storeChunks_large hread (.inr rfl) (by omega)]
        exact ⟨_, _, rfl⟩

/-- The node has a socket with an address. -/
def Valid (conf : Conf) : Prop := ∃ address, conf.socket = some address ∧ address ≠ ""

theorem validateNode_valid (h : Valid conf) : validateNode conf = pure () := by
  obtain ⟨address, hsocket, hne⟩ := h
  rw [validateNode, hsocket]
  exact if_neg hne

theorem validateNode_invalid (h : ¬ Valid conf) : ∃ text, validateNode conf = fail text := by
  unfold validateNode
  split
  · exact ⟨_, rfl⟩
  · rename_i address hsocket
    refine ⟨"node address not set", if_pos ?_⟩
    by_contra hne
    exact h ⟨address, hsocket, hne⟩

theorem size_pos (conf : Conf) : 0 < conf.size.toNat := by
  unfold Conf.size
  split_ifs with h
  · decide
  · rcases Nat.eq_zero_or_pos conf.chunkSize.toNat with h0 | h0
    · exact absurd (UInt64.toNat_inj.mp h0) h
    · exact h0

theorem size_toInt (h : conf.size.toNat ≤ conf.maxAlloc) : conf.size.toInt64.toInt = conf.size.toNat := by
  have hmax := conf.maxAlloc_lt
  have hbits : conf.size.toInt64.toInt = conf.size.toBitVec.toInt := rfl
  rw [hbits, BitVec.toInt_eq_toNat_cond, UInt64.toNat_toBitVec, if_pos (by omega)]

/-- When `Upload` succeeds: the node is valid, the buffer can be made, the data are neither empty nor
too long, and their metafile fits in one chunk. -/
structure Uploads (E : Env) (conf : Conf) (data : Bytes) : Prop where
  valid : Valid conf
  alloc : conf.size.toNat ≤ conf.maxAlloc
  nonempty : data ≠ []
  small : data.length ≤ maxSize
  fits : (metafile E conf.size.toNat data).length ≤ conf.size.toNat

/-- The store after an upload. -/
def uploaded (E : Env) (conf : Conf) (s : Store) (data : Bytes) : Store :=
  (storeAll E s (chunks conf.size.toNat data)).set (hexKey E (metafile E conf.size.toNat data))
    (metafile E conf.size.toNat data)

/-- What `Upload` does with the keys of the chunks. -/
def finish (E : Env) (conf : Conf) (keys : List Bytes) : Call Bytes :=
  if keys = [] then fail "empty data"
  else if conf.size.toInt64.toInt < (metafileOf keys).length then fail "metafile too large for one chunk"
  else do
    set (hexKey E (metafileOf keys)) (metafileOf keys)
    return hexKey E (metafileOf keys)

theorem upload_eq (hvalid : Valid conf) (halloc : conf.size.toNat ≤ conf.maxAlloc) :
    upload E conf (some r) = storeChunks E conf.size.toNat (r.bytes.length + 1) r 0 >>=
      finish E conf := by
  rw [upload, validateNode_valid hvalid]
  exact if_neg (Nat.not_lt.mpr halloc)

theorem upload_panics (hvalid : Valid conf) (halloc : conf.maxAlloc < conf.size.toNat) :
    upload E conf (some r) = throw .panic := by
  rw [upload, validateNode_valid hvalid]
  exact if_pos halloc

theorem map_hexKey_chunks (hne : data ≠ []) : (chunks conf.size.toNat data).map (hexKey E) ≠ [] := by
  rw [Ne, List.map_eq_nil_iff, chunks_cons (size_pos conf) hne]
  exact List.cons_ne_nil _ _

theorem upload_exec (heof : r.err = .eof) (h : Uploads E conf r.bytes) :
    (upload E conf (some r)).run.exec (handle conf peers) s =
      (.ok (hexKey E (metafile E conf.size.toNat r.bytes)), uploaded E conf s r.bytes) := by
  have hloop := @storeChunks_exec _ E conf peers (size_pos conf) _ _ 0 s heof
    (Nat.lt_succ_self _) (Nat.zero_le _)
  have hsmall := h.small
  have hfits : ¬ conf.size.toInt64.toInt < (metafile E conf.size.toNat r.bytes).length := by
    rw [size_toInt h.alloc]
    have := h.fits
    omega
  rw [if_pos (by omega)] at hloop
  rw [upload_eq h.valid h.alloc, exec_run_bind, hloop]
  dsimp only
  rw [finish, if_neg (map_hexKey_chunks h.nonempty), ← metafile, if_neg hfits]
  rfl

theorem upload_fails (heof : r.err = .eof) (h : ¬ Uploads E conf r.bytes) :
    ∃ e s', (upload E conf (some r)).run.exec (handle conf peers) s = (.error e, s') := by
  by_cases hvalid : Valid conf
  · by_cases halloc : conf.size.toNat ≤ conf.maxAlloc
    · have hloop := @storeChunks_exec _ E conf peers (size_pos conf) _ _ 0 s heof
        (Nat.lt_succ_self _) (Nat.zero_le _)
      rw [upload_eq hvalid halloc, exec_run_bind]
      split_ifs at hloop with hsmall
      · rw [hloop]
        dsimp only
        by_cases hne : r.bytes = []
        · rw [hne, chunks_nil (size_pos conf)]
          exact ⟨_, _, rfl⟩
        · have hfits : conf.size.toInt64.toInt < (metafile E conf.size.toNat r.bytes).length := by
            rw [size_toInt halloc]
            by_contra hle
            exact h ⟨hvalid, halloc, hne, by omega, by omega⟩
          rw [finish, if_neg (map_hexKey_chunks hne), ← metafile, if_pos hfits]
          exact ⟨_, _, rfl⟩
      · obtain ⟨e, s', he⟩ := hloop
        rw [he]
        exact ⟨e, s', rfl⟩
    · rw [upload_panics hvalid (by omega)]
      exact ⟨_, _, rfl⟩
  · obtain ⟨text, htext⟩ := validateNode_invalid hvalid
    rw [upload, htext]
    exact ⟨_, _, rfl⟩

/-! ### Downloads -/

theorem download_stored {vs : List Bytes} (hvalid : Valid conf) (hvs : vs ≠ [])
    (hchunks : ∀ v ∈ vs, Has E s v ∧ v ≠ []) (hmeta : Has E s (metafileOf (vs.map (hexKey E)))) :
    (download E conf (hexKey E (metafileOf (vs.map (hexKey E))))).run.exec (handle conf peers) s =
      (.ok vs.flatten, s) := by
  have hget := hmeta.get (metafileOf_ne_nil hvs)
  have hfile : (getMetafile (hexKey E (metafileOf (vs.map (hexKey E))))).run.exec (handle conf peers) s =
      (.ok (metafileOf (vs.map (hexKey E))), s) := by
    rw [getMetafile, exec_run_bind, exec_get, hget]
    rfl
  rw [download, validateNode_valid hvalid, trimSpace_hexKey]
  change Prog.exec _ (ExceptT.run (if _ = _ then _ else _)) s = _
  rw [if_neg hexKey_ne_nil, exec_run_bind, hfile]
  dsimp only
  rw [splitOn_metafileOf hvs, getChunks_exec hchunks]

theorem download_uploaded (hE : E.CollisionFree) (h : Uploads E conf data) :
    (download E conf (hexKey E (metafile E conf.size.toNat data))).run.exec (handle conf peers)
      (uploaded E conf s data) = (.ok data, uploaded E conf s data) := by
  obtain ⟨hflat, hchunks⟩ := @chunks_spec _ (size_pos conf) data
  have hvs : chunks conf.size.toNat data ≠ [] := fun hnil => h.nonempty (by rw [← hflat, hnil]; rfl)
  have hall : ∀ v ∈ chunks conf.size.toNat data, Has E (uploaded E conf s data) v ∧ v ≠ [] := fun v hv =>
    ⟨(has_storeAll hE (.inl hv)).set hE, hchunks v hv⟩
  have hexec := @download_stored _ _ _ peers _ h.valid hvs hall has_set_self
  rw [hflat] at hexec
  exact hexec

/-- **Download undoes upload**, without collisions of the hash: what `Upload` took from a reader,
however it delivered it, `Download` returns; and `Upload` takes all data that are not empty, at most
2 MiB long and have a metafile that fits in one chunk, if the node is configured and its chunks are
not too large to be made. -/
theorem upload_download {E : Env} (hE : E.CollisionFree) (conf : Conf) (r : Reader) (heof : r.err = .eof)
    (peers : Bytes → Peers) (s : Store) :
    (∀ mh s', (upload E conf (some r)).run.exec (handle conf peers) s = (.ok mh, s') →
      ∀ peers', ((download E conf mh).run.exec (handle conf peers') s').1 = .ok r.bytes) ∧
    (Uploads E conf r.bytes → ∃ mh s', (upload E conf (some r)).run.exec (handle conf peers) s =
      (.ok mh, s')) := by
  refine ⟨fun mh s' hup peers' => ?_, fun h => ⟨_, _, upload_exec heof h⟩⟩
  by_cases h : Uploads E conf r.bytes
  · rw [upload_exec heof h] at hup
    cases hup
    rw [download_uploaded hE h]
  · obtain ⟨e, s₁, he⟩ := @upload_fails _ _ s _ peers heof h
    rw [he] at hup
    cases hup

/-- A reader that delivers three bytes in two pieces, the second one with the end. -/
def twoPieces : Reader := .piece [1, 2] (.last [3] .eof)

/-- A node with the given chunk size. -/
def nodeOf (chunkSize : UInt64) : Conf := ⟨some "a", chunkSize, 0, 2 ^ 48, addressable⟩

theorem uploads_twoPieces : Uploads plainEnv (nodeOf 64) twoPieces.bytes :=
  ⟨⟨"a", rfl, by decide⟩, by decide, by decide, by decide, by decide +kernel⟩

/-- Three bytes that come in two pieces, and back. -/
theorem upload_download_pieces : ∃ mh s',
    (upload plainEnv (nodeOf 64) (some twoPieces)).run.exec (handle (nodeOf 64) fun _ => .noEntry)
      ⟨∅, []⟩ = (.ok mh, s') ∧
      ((download plainEnv (nodeOf 64) mh).run.exec (handle (nodeOf 64) fun _ => .noEntry) s').1 =
        .ok [1, 2, 3] := by
  obtain ⟨hback, hup⟩ := upload_download plainEnv_collisionFree (nodeOf 64) twoPieces rfl
    (fun _ => .noEntry) ⟨∅, []⟩
  obtain ⟨mh, s', hexec⟩ := hup uploads_twoPieces
  exact ⟨mh, s', hexec, hback mh s' hexec _⟩

/-- **A chunk size that is too large**: from 2^63 on, no buffer can be made. One byte is not uploaded
although its metafile fits in a chunk. -/
theorem oversized : Valid (nodeOf 0x8000000000000000) ∧
    (metafile plainEnv (2 ^ 63) [1]).length ≤ (nodeOf 0x8000000000000000).size.toNat ∧
    ∀ peers s, (upload plainEnv (nodeOf 0x8000000000000000) (some (.last [1] .eof))).run.exec
      (handle (nodeOf 0x8000000000000000) peers) s = (.error .panic, s) := by
  refine ⟨⟨"a", rfl, by decide⟩, by decide +kernel, fun peers s => ?_⟩
  rw [upload_panics ⟨"a", rfl, by decide⟩ (by decide +kernel)]
  rfl

/-! ### Calls alone on a node -/

theorem call_alone {α : Type} {done : List Outcome} {a : Event} (c : Call α)
    (o : Except Failure α → Outcome)
    (ha : ∀ n, step E conf n a = some (n.launch (c.run.bind fun r => .ret (o r)))) :
    (sharing E conf).Goes (fun _ _ => True) ⟨s, [], done⟩
      ⟨(c.run.exec (handle conf peers) s).2, [], o (c.run.exec (handle conf peers) s).1 :: done⟩ := by
  refine .head ⟨a, trivial, ha _⟩ ?_
  have hturns := @advances_exec _ _ _ _ (handle conf peers) done (c.run.bind fun r => .ret (o r)) s
  rw [exec_bind] at hturns
  exact hturns.lift id fun P P' h => ⟨.turn 0 peers, trivial, h⟩

theorem upload_alone {done : List Outcome} (data : Option Reader) :
    (sharing E conf).Goes (fun _ _ => True) ⟨s, [], done⟩
      ⟨((upload E conf data).run.exec (handle conf peers) s).2, [],
        .uploaded ((upload E conf data).run.exec (handle conf peers) s).1 :: done⟩ :=
  call_alone (a := .upload data) (upload E conf data) .uploaded fun _ => rfl

theorem download_alone {done : List Outcome} (metahash : Bytes) :
    (sharing E conf).Goes (fun _ _ => True) ⟨s, [], done⟩
      ⟨((download E conf metahash).run.exec (handle conf peers) s).2, [],
        .downloaded metahash ((download E conf metahash).run.exec (handle conf peers) s).1 :: done⟩ :=
  call_alone (a := .download metahash) (download E conf metahash) (.downloaded metahash) fun _ => rfl

end Namecoin.Sharing.RoundTrip
