import Namecoin.Lib.Maps
import Namecoin.Lib.Programs
import Namecoin.Lib.Systems
import Namecoin.Types.Defs

/-! # The blob store: uploads and downloads

`Upload`, `Download` and `fetchRemote` of `datasharing.go`, over the blob store of `inmemory.go`. A
call is a program whose requests are the operations on the store and the requests to other peers, so
that calls can run side by side. The strings of this part are byte strings: a metafile from another
peer may hold any bytes, and its lines are used as keys.

What other peers answer is an input, and so are the pieces in which a reader delivers its data.

* `upload`, `download`: the calls;
* `Peers`, `fetchRemote`: what may come in for a request, and what is made of it;
* `sharing`: all runs of calls on one node. -/

namespace Namecoin.Sharing.Blobs

open Lib.ByteStrings Lib.Maps Lib.Programs Lib.Systems Types.Defs

/-! ### Texts -/

/-- The UTF-8 codes of the characters for which `unicode.IsSpace` holds. -/
def spaces : List Bytes :=
  [[9], [10], [11], [12], [13], [32], [0xC2, 0x85], [0xC2, 0xA0], [0xE1, 0x9A, 0x80],
   [0xE2, 0x80, 0x80], [0xE2, 0x80, 0x81], [0xE2, 0x80, 0x82], [0xE2, 0x80, 0x83], [0xE2, 0x80, 0x84],
   [0xE2, 0x80, 0x85], [0xE2, 0x80, 0x86], [0xE2, 0x80, 0x87], [0xE2, 0x80, 0x88], [0xE2, 0x80, 0x89],
   [0xE2, 0x80, 0x8A], [0xE2, 0x80, 0xA8], [0xE2, 0x80, 0xA9], [0xE2, 0x80, 0xAF], [0xE2, 0x81, 0x9F],
   [0xE3, 0x80, 0x80]]

/-- Drop one of the given codes from the front. -/
def dropCode (codes : List Bytes) (s : Bytes) : Bytes :=
  match codes.find? (·.isPrefixOf s) with
  | some code => s.drop code.length
  | none => s

/-- Drop the given codes from the front, as many as there are. -/
def dropCodes (codes : List Bytes) (s : Bytes) : Bytes := (dropCode codes)^[s.length] s

/-- `strings.TrimSpace`. -/
def trimSpace (s : Bytes) : Bytes :=
  let t := dropCodes spaces s
  (dropCodes (spaces.map List.reverse) t.reverse).reverse

/-- `hex.EncodeToString`. -/
def encodeToString (b : Bytes) : Bytes := (hexChars b).map fun c => UInt8.ofNat c.toNat

/-- `peer.MetafileSep`. -/
def metafileSep : UInt8 := 10

/-! ### Readers -/

/-- The errors of a reader: `io.EOF`, `io.ErrUnexpectedEOF` and others. -/
inductive ReadErr
  | eof
  | unexpectedEOF
  | other (text : Bytes)
deriving DecidableEq

/-- The text of an error. -/
def ReadErr.text : ReadErr → Bytes
  | .eof => utf8 "EOF"
  | .unexpectedEOF => utf8 "unexpected EOF"
  | .other text => text

/-- An `io.Reader`, by what it has to deliver: pieces, of which each read returns at most one, and an
error, which comes with the last piece or after it. -/
inductive Reader
  | ended (err : ReadErr)
  | last (bytes : Bytes) (err : ReadErr)
  | piece (bytes : Bytes) (rest : Reader)

/-- What a reader delivers. -/
def Reader.bytes : Reader → Bytes
  | .ended _ => []
  | .last w _ => w
  | .piece w r => w ++ r.bytes

/-- The error at the end. -/
def Reader.err : Reader → ReadErr
  | .ended e => e
  | .last _ e => e
  | .piece _ r => r.err

/-- The loop of `io.ReadAtLeast`: reads until `n` more bytes are there, or an error. A piece that does
not fit is read in part. -/
def Reader.fill : Reader → ℕ → Bytes × Option ReadErr × Reader
  | r, 0 => ([], none, r)
  | .ended e, _ + 1 => ([], some e, .ended e)
  | .last w e, n + 1 =>
    if w.length ≤ n + 1 then (w, some e, .ended e) else (w.take (n + 1), none, .last (w.drop (n + 1)) e)
  | .piece w r, n + 1 =>
    if w.length ≤ n + 1 then
      let (bs, err, r') := r.fill (n + 1 - w.length)
      (w ++ bs, err, r')
    else (w.take (n + 1), none, .piece (w.drop (n + 1)) r)

/-- `io.ReadFull`, for a buffer of `n` bytes. -/
def readFull (r : Reader) (n : ℕ) : Bytes × Option ReadErr × Reader :=
  let (bs, err, r') := r.fill n
  if n ≤ bs.length then (bs, none, r')
  else if bs ≠ [] ∧ err = some .eof then (bs, some .unexpectedEOF, r')
  else (bs, err, r')

/-! ### Calls -/

/-- What a call asks for. A request to other peers says whether it is for a
metafile; nothing depends on it. -/
inductive Op
  | get (key : Bytes)
  | set (key value : Bytes)
  | fetch (metafile : Bool) (key : Bytes)

/-- How a call fails. -/
inductive Failure
  | panic
  | error (text : Bytes)
deriving DecidableEq

/-- The answers. -/
abbrev Ans : Op → Type
  | .get _ => Option Bytes
  | .set _ _ => Unit
  | .fetch _ _ => Except Failure Bytes

/-- A call that returns a value of type `α`, or an error. -/
abbrev Call (α : Type) := ExceptT Failure (Prog Op Ans) α

/-- `xerrors.Errorf`. -/
def fail {α : Type} (text : String) : Call α := throw (.error (utf8 text))

def get (key : Bytes) : Call (Option Bytes) := request (Op.get key)

def set (key value : Bytes) : Call Unit := request (Op.set key value)

def fetch (metafile : Bool) (key : Bytes) : Call Bytes := do
  match (← request (Op.fetch metafile key) : Except Failure Bytes) with
  | .ok val => pure val
  | .error e => throw e

/-- What the calls read of the configuration of the node: the address of the socket, if there
is one; the size of a chunk; how often a request to a peer is sent; and the largest slice
that the runtime can make. -/
structure Conf where
  socket : Option String
  chunkSize : UInt64
  retry : ℕ
  maxAlloc : ℕ
  maxAlloc_lt : maxAlloc < 2 ^ 62

theorem addressable : 2 ^ 48 < 2 ^ 62 := by decide

/-- `validateNode(false)`. -/
def validateNode (conf : Conf) : Call Unit :=
  match conf.socket with
  | none => fail "socket not configured"
  | some address => if address = "" then fail "node address not set" else pure ()

variable (E : Env)

/-- The key of a blob: `hex.EncodeToString(sha256.Sum256(v))`. -/
def hexKey (v : Bytes) : Bytes := encodeToString (E.sha256 v)

/-- The files that `Upload` takes are at most this long. -/
def maxSize : ℕ := 2 * 1024 * 1024

/-- The loop of `Upload`, in at most the given number of rounds; it returns the keys of the chunks. -/
def storeChunks (size : ℕ) : ℕ → Reader → ℕ → Call (List Bytes)
  | 0, _, _ => throw .panic
  | rounds + 1, data, total =>
    match readFull data size with
    | (chunk, err, data') =>
      if err = some .eof ∧ chunk = [] then pure []
      else match err.filter (· ≠ .unexpectedEOF) with
        | some e => throw (.error (utf8 "read error: " ++ e.text))
        | none =>
          if maxSize < total + chunk.length then fail "data too large: exceeds 2 MiB"
          else do
            set (hexKey E chunk) chunk
            if err = some .unexpectedEOF then return [hexKey E chunk]
            else return hexKey E chunk :: (← storeChunks size rounds data' (total + chunk.length))

/-- The size of a chunk, 8192 where none is configured. -/
def Conf.size (conf : Conf) : UInt64 := if conf.chunkSize = 0 then 8192 else conf.chunkSize

/-- The metafile of chunks with the given keys. -/
def metafileOf (keys : List Bytes) : Bytes := [metafileSep].intercalate keys

/-- `Upload`. A reader without further bytes ends the loop, so that one round for each byte
and one more are enough. -/
def upload (conf : Conf) (data : Option Reader) : Call Bytes := do
  validateNode conf
  match data with
  | none => fail "nil reader"
  | some data =>
    -- `make([]byte, chunkSize)`
    if conf.maxAlloc < conf.size.toNat then throw .panic
    else do
      let chunkHashes ← storeChunks E conf.size.toNat (data.bytes.length + 1) data 0
      if chunkHashes = [] then fail "empty data"
      else if conf.size.toInt64.toInt < (metafileOf chunkHashes).length then
        fail "metafile too large for one chunk"
      else do
        let metahash := hexKey E (metafileOf chunkHashes)
        set metahash (metafileOf chunkHashes)
        return metahash

/-- The metafile, from the store or from another peer. -/
def getMetafile (mh : Bytes) : Call Bytes := do
  match ← get mh with
  | some metafile => return metafile
  | none =>
    let metafile ← fetch true mh
    set mh metafile
    return metafile

/-- A chunk, from the store or from another peer. -/
def getChunk (key : Bytes) : Call Bytes :=
  if key = [] then fail "invalid chunk key in metafile"
  else do
    match ← get key with
    | some data => return data
    | none =>
      let val ← fetch false key
      if hexKey E val ≠ key then fail "tampered chunk"
      else do
        set key val
        return val

/-- The chunks of the given keys, one after the other. -/
def getChunks : List Bytes → Call Bytes
  | [] => return []
  | key :: keys => do
    let data ← getChunk E (trimSpace key)
    let rest ← getChunks keys
    return data ++ rest

def download (conf : Conf) (metahash : Bytes) : Call Bytes := do
  validateNode conf
  let mh := trimSpace metahash
  if mh = [] then fail "empty metahash"
  else do
    let metafile ← getMetafile mh
    getChunks E (metafile.splitOn metafileSep)

/-! ### What comes in from other peers -/

structure DataReplyMessage where
  requestID : String
  key : Bytes
  value : Slice UInt8

/-- What becomes of a request: no peer is known for the key, there is no route to it, the
request cannot be marshalled, or it is sent with an ID of its own, and each time either a
reply or nothing comes in. -/
inductive Peers
  | noEntry
  | noRoute (dest : String)
  | unmarshalled (text : Bytes)
  | replies (reqID : String) (replies : List (Option DataReplyMessage))

/-- Wait for a reply to the request, once for each element of the list. -/
def awaitReply (key : Bytes) (reqID : String) : List (Option DataReplyMessage) → Except Failure Bytes
  | [] => .error (.error (utf8 "timeout fetching " ++ key))
  | none :: replies => awaitReply key reqID replies
  | some rep :: replies =>
    if rep.key ≠ key ∨ rep.requestID ≠ reqID then awaitReply key reqID replies
    else match rep.value with
      | none => .error (.error (utf8 "empty reply"))
      | some value => .ok value

def fetchRemote (conf : Conf) (key : Bytes) : Peers → Except Failure Bytes
  | .noEntry => .error (.error (utf8 "no catalog entry for " ++ key))
  | .noRoute dest => .error (.error (utf8 ("no route to " ++ dest)))
  | .unmarshalled text => .error (.error text)
  | .replies reqID replies =>
    awaitReply key reqID (replies.take (if conf.retry = 0 then 5 else conf.retry))

/-! ### Calls on a node -/

/-- The blob store, and all that has been written to it so far, the latest first. -/
structure Store where
  data : Map Bytes Bytes
  writes : List (Bytes × Bytes)

/-- `Get` of the store: the copy of an empty value is nil. -/
def Store.get (s : Store) (key : Bytes) : Option Bytes :=
  match s.data.lookup key with
  | some (b :: bs) => some (b :: bs)
  | _ => none

/-- `Set` of the store. -/
def Store.set (s : Store) (key value : Bytes) : Store :=
  ⟨s.data.insert key value, (key, value) :: s.writes⟩

/-- The answers to the requests of a call, where `peers` says what becomes of a request to other peers. -/
def handle (conf : Conf) (peers : Bytes → Peers) (s : Store) : (o : Op) → Ans o × Store
  | .get key => (s.get key, s)
  | .set key value => ((), s.set key value)
  | .fetch _ key => (fetchRemote conf key (peers key), s)

/-- What a call has come to. -/
inductive Outcome
  | uploaded (metahash : Except Failure Bytes)
  | downloaded (metahash : Bytes) (data : Except Failure Bytes)
deriving DecidableEq

/-- A node with its calls. -/
abbrev Node := Pool Op Ans Store Outcome

/-- What may happen: a call is started, or one that runs has a turn. -/
inductive Event
  | upload (data : Option Reader)
  | download (metahash : Bytes)
  | turn (call : ℕ) (peers : Bytes → Peers)

/-- One event. -/
def step (conf : Conf) (n : Node) : Event → Option Node
  | .upload data => some (n.launch ((upload E conf data).run.bind fun r => .ret (.uploaded r)))
  | .download metahash =>
    some (n.launch ((download E conf metahash).run.bind fun r => .ret (.downloaded metahash r)))
  | .turn call peers => n.advance (handle conf peers) call

/-- The runs of a node that starts with an empty store. -/
def sharing (conf : Conf) : System Node Event := ⟨(· = ⟨⟨∅, []⟩, [], []⟩), step E conf⟩

end Namecoin.Sharing.Blobs
