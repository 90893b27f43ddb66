import Namecoin.Sharing.Blobs
import Namecoin.Types.SampleEnv

/-! # Keys of blobs

The blob store is meant to be content-addressed: the key of a blob is its hash. `Download` checks the
hash of a chunk that another peer sends before it stores the chunk, but not the hash of a metafile.

* `download_keeps`, `upload_keeps`: what the calls write, as long as what they read from the store and
  the metafiles from other peers have the hashes asked for;
* `content_addressed`: if the metafiles from other peers have the hashes asked for, the store is
  content-addressed in every run of calls, and a download returns the chunks of a metafile with the
  hash asked for; a metafile with another hash is written to the store at the next turn of the call;
* `poisoned`: a download that returns what the other peer likes. -/

namespace Namecoin.Sharing.Addressing

open Lib.ByteStrings Lib.Maps Lib.Programs Lib.Systems Types.Defs Types.SampleEnv Sharing.Blobs

variable (E : Env)
variable {conf : Conf} {key : Bytes}

/-! ### What the calls write -/

/-- What is read has the hash asked for, except for chunks from other peers, which
the call checks itself. -/
def Assumed : (o : Op) → Ans o → Prop
  | .get key, a => ∀ v, a = some v → hexKey E v = key
  | .set _ _, _ => True
  | .fetch true key, a => ∀ v, a = .ok v → hexKey E v = key
  | .fetch false _, _ => True

/-- What is written has its hash as the key. -/
def Addressed : Op → Prop
  | .set key value => hexKey E value = key
  | _ => True

/-- A program writes blobs under their hashes, and its result is as `Q` says. -/
abbrev Writes {α : Type} (Q : α → Prop) (p : Prog Op Ans α) : Prop := p.Keeps (Assumed E) (Addressed E) Q

/-- Data that consist of the chunks listed in a metafile with the given hash. -/
def FromMetafile (metahash data : Bytes) : Prop :=
  ∃ (metafile : Bytes) (chunks : List Bytes), hexKey E metafile = trimSpace metahash ∧
    List.Forall₂ (fun line chunk => hexKey E chunk = trimSpace line)
    (metafile.splitOn metafileSep) chunks ∧ data = chunks.flatten

/-- A result that, if there is one, is as `Q` says. -/
def Returns {α : Type} (Q : α → Prop) (r : Except Failure α) : Prop := ∀ v, r = .ok v → Q v

variable {E} {α β : Type} {R : Except Failure α → Prop} {Q : α → Prop}

theorem returns_ok {v : α} (h : Q v) : Returns Q (.ok v) := by
  rintro _ ⟨⟩
  exact h

theorem returns_error {e : Failure} : Returns Q (.error e) := by
  rintro _ ⟨⟩

theorem writes_get {f : Option Bytes → Call α} (hnone : Writes E R (f none).run)
    (hsome : ∀ v, hexKey E v = key → Writes E R (f (some v)).run) : Writes E R (get key >>= f).run := by
  refine ⟨trivial, fun a ha => ?_⟩
  cases a with
  | none => exact hnone
  | some v => exact hsome v (ha v rfl)

theorem writes_set {key value : Bytes} {f : Unit → Call α} (hkey : hexKey E value = key)
    (hf : Writes E R (f ()).run) : Writes E R (set key value >>= f).run := ⟨hkey, fun _ _ => hf⟩

theorem writes_fetch {metafile : Bool} {f : Bytes → Call α} (herr : ∀ e, R (.error e))
    (hok : ∀ v, (metafile = true → hexKey E v = key) → Writes E R (f v).run) :
    Writes E R (fetch metafile key >>= f).run := by
  refine ⟨trivial, fun a ha => ?_⟩
  cases a with
  | error e => exact herr e
  | ok v =>
    refine hok v fun h => ?_
    subst h
    exact ha v rfl

theorem writes_bind {x : Call β} {P : β → Prop} {f : β → Call α} (hx : Writes E (Returns P) x.run)
    (hf : ∀ b, P b → Writes E (Returns Q) (f b).run) : Writes E (Returns Q) (x >>= f).run := by
  refine keeps_run_bind.mpr (hx.imp fun r hr => ?_)
  cases r with
  | ok b => exact hf b (hr b rfl)
  | error e => exact returns_error

theorem validateNode_writes : Writes E (Returns fun _ => True) (validateNode conf).run := by
  unfold validateNode
  split
  · exact returns_error
  · split_ifs
    · exact returns_error
    · exact returns_ok trivial

/-- What a round of the loop of `Upload` may be: the end of the data, an error, the last chunk, or a
chunk and further rounds. -/
theorem storeChunks_cases (size rounds total : ℕ) (data : Reader) :
    storeChunks E size (rounds + 1) data total = pure [] ∨
    (∃ e, storeChunks E size (rounds + 1) data total = throw e) ∨
      (∃ chunk, storeChunks E size (rounds + 1) data total = do
        set (hexKey E chunk) chunk
        return [hexKey E chunk]) ∨
      ∃ chunk data' total', storeChunks E size (rounds + 1) data total = do
        set (hexKey E chunk) chunk
        return hexKey E chunk :: (← storeChunks E size rounds data' total') := by
  rw [storeChunks]
  rcases readFull data size with ⟨chunk, err, data'⟩
  dsimp only
  split
  · exact .inl rfl
  split
  · exact .inr (.inl ⟨_, rfl⟩)
  split
  · exact .inr (.inl ⟨_, rfl⟩)
  refine .inr (.inr ?_)
  split
  · exact .inl ⟨chunk, rfl⟩
  · exact .inr ⟨chunk, data', _, rfl⟩

theorem storeChunks_writes {size : ℕ} : ∀ {rounds : ℕ} {data : Reader} {total : ℕ},
    Writes E (Returns fun _ => True) (storeChunks E size rounds data total).run
  | 0, _, _ => returns_error
  | rounds + 1, data, total => by
    rcases storeChunks_cases size rounds total data with
      h | ⟨e, h⟩ | ⟨chunk, h⟩ | ⟨chunk, data', total', h⟩ <;> rw [h]
    · exact returns_ok trivial
    · exact returns_error
    · exact writes_set rfl (returns_ok trivial)
    · exact writes_set rfl (writes_bind storeChunks_writes fun _ _ => returns_ok trivial)

theorem upload_keeps {data : Option Reader} :
    Writes E (Returns fun _ => True) (upload E conf data).run := by
  unfold upload
  refine writes_bind validateNode_writes fun _ _ => ?_
  cases data with
  | none => exact returns_error
  | some data =>
    dsimp only
    split_ifs with halloc
    · exact returns_error
    · refine writes_bind storeChunks_writes fun keys _ => ?_
      split_ifs
      · exact returns_error
      · exact returns_error
      · exact writes_set rfl (returns_ok trivial)

theorem getMetafile_writes {mh : Bytes} :
    Writes E (Returns fun v => hexKey E v = mh) (getMetafile mh).run := by
  unfold getMetafile
  refine writes_get ?_ fun v hv => returns_ok hv
  refine writes_fetch (fun _ => returns_error) fun v hv => ?_
  exact writes_set (hv rfl) (returns_ok (hv rfl))

theorem getChunk_writes : Writes E (Returns fun v => hexKey E v = key) (getChunk E key).run := by
  unfold getChunk
  split_ifs
  · exact returns_error
  · refine writes_get ?_ fun v hv => returns_ok hv
    refine writes_fetch (fun _ => returns_error) fun v _ => ?_
    split_ifs with hkey
    · exact returns_error
    · exact writes_set (not_not.mp hkey) (returns_ok (not_not.mp hkey))

theorem getChunks_writes : ∀ {keys : List Bytes},
    Writes E (Returns fun data => ∃ chunks : List Bytes,
      List.Forall₂ (fun line chunk => hexKey E chunk = trimSpace line) keys chunks ∧
      data = chunks.flatten) (getChunks E keys).run
  | [] => returns_ok ⟨[], .nil, rfl⟩
  | key :: keys => by
    rw [getChunks]
    refine writes_bind getChunk_writes fun chunk hchunk => writes_bind getChunks_writes ?_
    rintro _ ⟨chunks, hchunks, rfl⟩
    exact returns_ok ⟨chunk :: chunks, .cons hchunk hchunks, rfl⟩

theorem download_keeps {metahash : Bytes} :
    Writes E (Returns (FromMetafile E metahash)) (download E conf metahash).run := by
  unfold download
  refine writes_bind validateNode_writes fun _ _ => ?_
  dsimp only
  split_ifs
  · exact returns_error
  · refine writes_bind getMetafile_writes fun metafile hmetafile =>
      getChunks_writes.imp fun r hr data hdata => ?_
    obtain ⟨chunks, hchunks, hflat⟩ := hr data hdata
    exact ⟨metafile, chunks, hmetafile, hchunks, hflat⟩

/-! ### All runs -/

variable (E)

/-- The blobs of a store have their hashes as keys, and always had. -/
structure StoreAddressed (s : Store) : Prop where
  data : ∀ key value, s.data.lookup key = some value → hexKey E value = key
  writes : ∀ e ∈ s.writes, e.1 = hexKey E e.2

/-- What an outcome says about the data returned. -/
def Sound : Outcome → Prop
  | .uploaded _ => True
  | .downloaded metahash r => Returns (FromMetafile E metahash) r

/-- **The store is content-addressed**: all that was written to it has its hash as the key, and the
downloads returned the chunks of metafiles with the hashes asked for. -/
structure ContentAddressed (n : Node) : Prop where
  writes : ∀ e ∈ n.shared.writes, e.1 = hexKey E e.2
  downloads : ∀ metahash data, .downloaded metahash (.ok data) ∈ n.returned → FromMetafile E metahash data

/-- The metafile that a peer sends, if this turn asks for one, has the hash asked for. -/
def genuine (conf : Conf) (n : Node) : Event → Bool
  | .turn call peers =>
    match n.running[call]? with
    | some (.ask (.fetch true key) _) =>
      match fetchRemote conf key (peers key) with
      | .ok metafile => hexKey E metafile = key
      | .error _ => true
    | _ => true
  | _ => true

variable {E}

theorem StoreAddressed.get {s : Store} (h : StoreAddressed E s) {key v : Bytes}
    (hv : s.get key = some v) :
    hexKey E v = key := by
  unfold Store.get at hv
  split at hv
  · rename_i b bs hlook
    cases hv
    exact h.data _ _ hlook
  · cases hv

theorem StoreAddressed.set {s : Store} (h : StoreAddressed E s) {key value : Bytes}
    (hkey : hexKey E value = key) :
    StoreAddressed E (s.set key value) := by
  refine ⟨fun k v hv => ?_, fun e he => ?_⟩
  · rw [Store.set, lookup_insert_ite] at hv
    split_ifs at hv with hk
    · cases hv
      rw [hk, hkey]
    · exact h.data k v hv
  · rcases List.mem_cons.mp he with rfl | he
    · exact hkey.symm
    · exact h.writes e he

theorem handle_assumed {n : Node} {call : ℕ} {peers : Bytes → Peers} {o : Op}
    {next : Ans o → Prog Op Ans Outcome} (h : StoreAddressed E n.shared)
    (hrun : n.running[call]? = some (.ask o next)) (ho : Addressed E o)
    (hgen : genuine E conf n (.turn call peers) = true) :
    StoreAddressed E (handle conf peers n.shared o).2 ∧ Assumed E o (handle conf peers n.shared o).1 := by
  cases o with
  | get key => exact ⟨h, fun v hv => h.get hv⟩
  | set key value => exact ⟨h.set ho, trivial⟩
  | fetch metafile key =>
    cases metafile with
    | false => exact ⟨h, trivial⟩
    | true =>
      refine ⟨h, fun v hv => ?_⟩
      change fetchRemote conf key (peers key) = .ok v at hv
      simp only [genuine, hrun, hv, decide_eq_true_eq] at hgen
      exact hgen

/-- The invariant of the runs. -/
abbrev Kept (n : Node) : Prop := n.Holds (StoreAddressed E) (Writes E (Sound E)) (Sound E)

theorem Kept.step {n n' : Node} {a : Event} (h : Kept (E := E) n) (hgen : genuine E conf n a = true)
    (hs : step E conf n a = some n') : Kept (E := E) n' := by
  cases a with
  | upload data =>
    cases hs
    exact h.launch (keeps_bind.mpr (upload_keeps.imp fun _ _ => trivial))
  | download metahash =>
    cases hs
    exact h.launch (keeps_bind.mpr (download_keeps.imp fun _ hr => hr))
  | turn call peers =>
    refine h.advance (fun a ha => ha) (fun o next hrun hk => ?_) hs
    obtain ⟨hstore, hans⟩ := handle_assumed h.shared hrun hk.1 hgen
    exact ⟨hstore, hk.2 _ hans⟩

theorem Kept.contentAddressed {n : Node} (h : Kept (E := E) n) : ContentAddressed E n :=
  ⟨h.shared.writes, fun _ _ hmem => h.returned _ hmem _ rfl⟩

/-! ### A metafile with another hash -/

/-- A metafile from another peer is written to the store by the next request. -/
def Follows : (o : Op) → (Ans o → Prog Op Ans α) → Prop
  | .fetch true key, next => ∀ v, ∃ next', next (.ok v) = .ask (.set key v) next'
  | _, _ => True

/-- A program that stores the metafiles it gets from other peers. -/
def Stores : Prog Op Ans α → Prop
  | .ret _ => True
  | .ask o next => Follows o next ∧ ∀ a, Stores (next a)

theorem stores_bind {f : α → Prog Op Ans β} (hf : ∀ a, Stores (f a)) : ∀ {p : Prog Op Ans α}, Stores p →
    Stores (p.bind f)
  | .ret a, _ => hf a
  | .ask o next, h => by
    refine ⟨?_, fun a => stores_bind hf (h.2 a)⟩
    cases o with
    | fetch metafile key =>
      cases metafile with
      | false => trivial
      | true =>
        intro v
        obtain ⟨next', hnext⟩ := h.1 v
        exact ⟨fun a => (next' a).bind f, congrArg (Prog.bind · f) hnext⟩
    | _ => trivial

theorem stores_run_bind {x : Call α} {f : α → Call β} (hx : Stores x.run) (hf : ∀ a, Stores (f a).run) :
    Stores (x >>= f).run := by
  refine stores_bind (fun r => ?_) hx
  cases r with
  | ok a => exact hf a
  | error e => trivial

theorem stores_get : Stores (get key).run := ⟨trivial, fun _ => trivial⟩

theorem stores_set {key value : Bytes} : Stores (set key value).run := ⟨trivial, fun _ => trivial⟩

theorem stores_fetch : Stores (fetch false key).run :=
  ⟨trivial, fun a => by cases a <;> trivial⟩

theorem stores_validateNode : Stores (validateNode conf).run := by
  unfold validateNode
  split
  · trivial
  · split_ifs <;> trivial

theorem stores_storeChunks {size : ℕ} : ∀ {rounds : ℕ} {data : Reader} {total : ℕ},
    Stores (storeChunks E size rounds data total).run
  | 0, _, _ => trivial
  | rounds + 1, data, total => by
    rcases storeChunks_cases size rounds total data with
      h | ⟨e, h⟩ | ⟨chunk, h⟩ | ⟨chunk, data', total', h⟩ <;> rw [h]
    · trivial
    · trivial
    · exact stores_run_bind stores_set fun _ => trivial
    · exact stores_run_bind stores_set fun _ => stores_run_bind stores_storeChunks fun _ => trivial

theorem stores_upload {data : Option Reader} : Stores (upload E conf data).run := by
  unfold upload
  refine stores_run_bind stores_validateNode fun _ => ?_
  cases data with
  | none => trivial
  | some data =>
    dsimp only
    split_ifs with halloc
    · trivial
    · refine stores_run_bind stores_storeChunks fun keys => ?_
      split_ifs
      · trivial
      · trivial
      · exact stores_run_bind stores_set fun _ => trivial

theorem stores_getMetafile {mh : Bytes} : Stores (getMetafile mh).run := by
  unfold getMetafile
  refine stores_run_bind stores_get fun v => ?_
  cases v with
  | some v => trivial
  | none =>
    refine ⟨fun v => ⟨_, rfl⟩, fun a => ?_⟩
    cases a with
    | error e => trivial
    | ok v => exact stores_run_bind (x := set mh v) stores_set fun _ => trivial

theorem stores_getChunk : Stores (getChunk E key).run := by
  unfold getChunk
  split_ifs
  · trivial
  · refine stores_run_bind stores_get fun v => ?_
    cases v with
    | some v => trivial
    | none =>
      refine stores_run_bind stores_fetch fun v => ?_
      split_ifs
      · trivial
      · exact stores_run_bind stores_set fun _ => trivial

theorem stores_getChunks : ∀ {keys : List Bytes}, Stores (getChunks E keys).run
  | [] => trivial
  | _ :: _ => by
    rw [getChunks]
    exact stores_run_bind stores_getChunk fun _ => stores_run_bind stores_getChunks fun _ => trivial

theorem stores_download {metahash : Bytes} : Stores (download E conf metahash).run := by
  unfold download
  refine stores_run_bind stores_validateNode fun _ => ?_
  dsimp only
  split_ifs
  · trivial
  · exact stores_run_bind stores_getMetafile fun _ => stores_getChunks

theorem stores_step {n n' : Node} {a : Event} (h : ∀ p ∈ n.running, Stores p)
    (hs : step E conf n a = some n') : ∀ p ∈ n'.running, Stores p := by
  have hn : n.Holds (fun _ => True) Stores fun _ => True := ⟨trivial, h, fun _ _ => trivial⟩
  suffices hn' : n'.Holds (fun _ => True) Stores fun _ => True from hn'.running
  cases a with
  | upload data =>
    cases hs
    exact hn.launch (stores_bind (f := fun r => .ret (Outcome.uploaded r))
      (fun _ => trivial) stores_upload)
  | download metahash =>
    cases hs
    exact hn.launch (stores_bind (f := fun r => .ret (Outcome.downloaded metahash r))
      (fun _ => trivial) stores_download)
  | turn call peers => exact hn.advance (fun _ _ => trivial) (fun o next _ hk => ⟨trivial, hk.2 _⟩) hs

theorem stores_wrong {n n₁ : Node} {a : Event} (h : ∀ p ∈ n.running, Stores p)
    (hs : step E conf n a = some n₁) (hgen : genuine E conf n a = false) :
    ∃ n₂, step E conf n₁ a = some n₂ ∧ ∃ e ∈ n₂.shared.writes, e.1 ≠ hexKey E e.2 := by
  unfold genuine at hgen
  split at hgen
  · rename_i call peers
    split at hgen
    · rename_i key next hrun
      split at hgen
      · rename_i metafile hok
        have hne : hexKey E metafile ≠ key := of_decide_eq_false hgen
        obtain ⟨next', hnext⟩ := (h _ (List.mem_of_getElem? hrun)).1 metafile
        have hn₁ : n₁ = { n with
            running := n.running.set call (next (fetchRemote conf key (peers key))) } := by
          simp only [step, Pool.advance, hrun] at hs
          exact (Option.some.inj hs).symm
        rw [hok, hnext] at hn₁
        have hlt : call < n.running.length := (List.getElem?_eq_some_iff.mp hrun).1
        have hget : n₁.running[call]? = some (.ask (.set key metafile) next') := by
          rw [hn₁]
          exact List.getElem?_set_self hlt
        refine ⟨_, by rw [step, Pool.advance, hget], (key, metafile), List.mem_cons_self,
          fun he => hne he.symm⟩
      · cases hgen
    · cases hgen
  · cases hgen

/-- **Keys and contents.** If the metafiles from other peers have the hashes asked for, the store
is content-addressed in every run; and after a metafile with another hash, the next turn of the
call makes it otherwise. -/
theorem content_addressed (E : Env) (conf : Conf) :
    (∀ n, (sharing E conf).Reach (fun n a => genuine E conf n a = true) n → ContentAddressed E n) ∧
      ∀ n a n₁, (sharing E conf).Reach (fun _ _ => True) n → step E conf n a = some n₁ →
      genuine E conf n a = false →
        ∃ n₂, step E conf n₁ a = some n₂ ∧ ¬ ContentAddressed E n₂ := by
  constructor
  · intro n hn
    refine Kept.contentAddressed (hn.invariant (I := Kept) ?_ fun s a s' hgen hs h => h.step hgen hs)
    rintro s rfl
    refine ⟨⟨fun key value h => ?_, fun e he => ?_⟩, fun p hp => ?_, fun r hr => ?_⟩
    · simp at h
    · cases he
    · cases hp
    · cases hr
  · intro n a n₁ hn hs hgen
    have hstores : ∀ p ∈ n.running, Stores p := by
      refine hn.invariant (I := fun n => ∀ p ∈ n.running, Stores p) ?_ fun s a s' _ hs h =>
        stores_step h hs
      rintro s rfl p hp
      cases hp
    obtain ⟨n₂, hs₂, e, he, hne⟩ := stores_wrong hstores hs hgen
    exact ⟨n₂, hs₂, fun h => hne (h.writes e he)⟩

/-! ### Two downloads -/

/-- A node with chunks of 64 bytes. -/
def sampleConf : Conf := ⟨some "a", 64, 0, 2 ^ 48, addressable⟩

/-- The metafile of one chunk. -/
def metafile1 (chunk : Bytes) : Bytes := hexKey plainEnv chunk

/-- Peers that answer every request for `key` with the given bytes, and other requests with `others`. -/
def answering (key value others : Bytes) (k : Bytes) : Peers :=
  .replies "r" [some ⟨"r", k, some (if k = key then value else others)⟩]

/-- The turns of a download of `key` with one chunk, where the peers send the given
metafile and the given chunk. -/
def downloadRun (key metafile chunk : Bytes) : List Event :=
  .download key :: List.replicate 7 (.turn 0 (answering key metafile chunk))

/-- A download from a peer that has the file. -/
theorem content_addressed_file : ∃ n,
    (sharing plainEnv sampleConf).Reach (fun n a => genuine plainEnv sampleConf n a = true) n ∧
    n.returned = [.downloaded (hexKey plainEnv (metafile1 [65])) (.ok [65])] ∧
    ContentAddressed plainEnv n := by
  have hrun : ((sharing plainEnv sampleConf).runOn (fun n a => genuine plainEnv sampleConf n a = true)
    ⟨⟨∅, []⟩, [], []⟩ (downloadRun (hexKey plainEnv (metafile1 [65])) (metafile1 [65]) [65])).map
    (·.returned) = some [.downloaded (hexKey plainEnv (metafile1 [65])) (.ok [65])] := by decide +kernel
  obtain ⟨n, hn, hreturned⟩ := Option.map_eq_some_iff.mp hrun
  have hreach := System.Reach.runOn (.start rfl) hn
  exact ⟨n, hreach, hreturned, (content_addressed plainEnv sampleConf).1 n hreach⟩

/-- **A poisoned store**: the peer answers the request for a metafile with the metafile of another
file. It is stored under the key asked for, and the download returns the other file. -/
theorem poisoned : ∃ n, (sharing plainEnv sampleConf).Reach (fun _ _ => True) n ∧
    n.returned = [.downloaded (hexKey plainEnv (metafile1 [65])) (.ok [66])] ∧
    n.shared.writes = [(metafile1 [66], [66]), (hexKey plainEnv (metafile1 [65]), metafile1 [66])] ∧
    ¬ ContentAddressed plainEnv n := by
  have hrun : ((sharing plainEnv sampleConf).run ⟨⟨∅, []⟩, [], []⟩
      (downloadRun (hexKey plainEnv (metafile1 [65])) (metafile1 [66]) [66])).map
      (fun n => (n.returned, n.shared.writes)) =
      some ([.downloaded (hexKey plainEnv (metafile1 [65])) (.ok [66])],
      [(metafile1 [66], [66]), (hexKey plainEnv (metafile1 [65]), metafile1 [66])]) := by decide +kernel
  obtain ⟨n, hn, hvalues⟩ := Option.map_eq_some_iff.mp hrun
  obtain ⟨hreturned, hwrites⟩ := Prod.mk.inj hvalues
  refine ⟨n, (System.Reach.start rfl).run (fun _ _ _ => trivial) hn, hreturned, hwrites, fun h => ?_⟩
  have hwrong := h.writes (hexKey plainEnv (metafile1 [65]), metafile1 [66]) (by rw [hwrites]; simp)
  revert hwrong
  decide +kernel

end Namecoin.Sharing.Addressing
