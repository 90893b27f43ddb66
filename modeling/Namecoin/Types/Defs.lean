import Namecoin.Lib.Json
import Namecoin.Lib.Ops

/-! # Transactions, blocks and what the node takes from outside

The records of `types/namecoin_def.go` and the primitives the code calls but does not define: SHA-256,
Ed25519, `canonicaljson` and `encoding/json` (`Env`). A Go slice is an `Option` of a list, `none` the nil
slice: the two are told apart by the JSON encoders (`null` against `[]`), by `CloneBytes` and by the nil
tests of the chain. Strings are Unicode texts, as every string that arrives in a JSON message is. -/

namespace Namecoin.Types.Defs

open Lib.ByteStrings Lib.Json

/-! ### Slices -/

/-- A slice; `none` is the nil slice. -/
abbrev Slice (α : Type) := Option (List α)

/-- The members of a slice. -/
def elems {α : Type} (s : Slice α) : List α := s.getD []

@[simp] theorem elems_some {α : Type} (l : List α) : elems (some l) = l := rfl

@[simp] theorem elems_none {α : Type} : elems (none : Slice α) = [] := rfl

/-- `bytes.Equal`: nil and empty are equal. -/
def bytesEqual (a b : Slice UInt8) : Prop := elems a = elems b

instance (a b : Slice UInt8) : Decidable (bytesEqual a b) := by unfold bytesEqual; infer_instance

/-- `CloneBytes`: a copy, nil for an empty slice. -/
def cloneBytes (src : Slice UInt8) : Slice UInt8 := if elems src = [] then none else some (elems src)

@[simp] theorem elems_cloneBytes (b : Slice UInt8) : elems (cloneBytes b) = elems b := by
  unfold cloneBytes
  split_ifs with h
  · rw [h]; rfl
  · rfl

@[simp] theorem cloneBytes_cloneBytes (b : Slice UInt8) : cloneBytes (cloneBytes b) = cloneBytes b := by
  unfold cloneBytes
  split_ifs with h <;> simp_all

theorem cloneBytes_some {b : Bytes} (h : b ≠ []) : cloneBytes (some b) = some b := by
  unfold cloneBytes; simp [h]

/-! ### Errors -/

/-- The errors the code tells apart; a panic of a callee is one of them. -/
inductive Err
  | chainFollow (msg : String)
  | unknownParent
  | panic (msg : String)
  | msg (text : String)
deriving DecidableEq

/-- `fmt.Errorf("…: %w", err)`: the text is put before the text of the error; the kinds of error that
callers test for and panics keep their kind. -/
def Err.wrap (text : String) : Err → Err
  | .msg t => .msg (text ++ t)
  | e => e

/-! ### Transactions and blocks -/

/-- `types.UTXO`. -/
structure UTXO where
  txID : String
  toAddr : String
  amount : UInt64
  order : UInt64
deriving DecidableEq

/-- `types.TxInput`. -/
structure TxInput where
  txID : String
  index : UInt32
deriving DecidableEq

/-- `types.TxOutput`. -/
structure TxOutput where
  toAddr : String
  amount : UInt64
deriving DecidableEq

/-- A `json.RawMessage`: nil, bytes that are no JSON text, or a JSON text. -/
inductive RawMessage
  | nil
  | invalid
  | text (t : JsonText)

/-- `types.Tx`; `fromAddr` is the field `From` (and `toAddr` a field `To`). A
`NamecoinTransactionMessage` and a `SignedTransaction` have the same fields, so
they are this record too. -/
structure Tx where
  fromAddr : String
  type : String
  inputs : Slice TxInput
  outputs : Slice TxOutput
  amount : UInt64
  payload : RawMessage
  pk : String
  txID : String
  signature : String

/-- `types.BlockHeader`. -/
structure BlockHeader where
  height : UInt64
  prevHash : Slice UInt8
  txRoot : Slice UInt8
  timestamp : Int64
  nonce : UInt64
  miner : String
  difficulty : Slice UInt8
deriving DecidableEq

/-- `types.Block`. -/
structure Block where
  header : BlockHeader
  transactions : List Tx
  hash : Slice UInt8

/-- `types.NameRecord`. -/
structure NameRecord where
  owner : String
  ip : String
  domain : String
  salt : String
  expiresAt : UInt64
deriving DecidableEq

/-! ### The primitives -/

/-- What the code takes from outside: `crypto/sha256`, `crypto/ed25519`, the package `canonicaljson`,
`encoding/json`, and the quotient of two durations as `float64`. -/
structure Env where
  sha256 : Bytes → Bytes
  sha256_ne_nil : ∀ b, sha256 b ≠ []
  ed25519Verify : (publicKey message sig : Bytes) → Bool
  canonicaljson : JsonValue → Bytes
  json : Codec
  floatRatio : Int64 → Int64 → ℚ

variable (E : Env)

/-- SHA-256 has no collisions. -/
def Env.CollisionFree : Prop := Function.Injective E.sha256

/-- `canonicaljson.Marshal` writes different JSON values differently, and where the text of an object
ends can be told from the text. -/
structure Env.CanonicalJson : Prop where
  injective : Function.Injective E.canonicaljson
  objects : ∀ (a b : List (String × JsonValue)) (x y : Bytes),
    E.canonicaljson (.obj a) ++ x = E.canonicaljson (.obj b) ++ y → a = b ∧ x = y

def hashHex (b : Bytes) : String := hexEncode (E.sha256 b)

def hashString (s : String) : String := hexEncode (E.sha256 (utf8 s))

def decodeHex (s : String) : Option Bytes := hexDecode s

/-- `ed25519.Verify` refuses a signature that is not 64 bytes long. -/
def Env.verify (publicKey message sig : Bytes) : Prop :=
  sig.length = 64 ∧ E.ed25519Verify publicKey message sig = true

instance (pk m s : Bytes) : Decidable (E.verify pk m s) := by unfold Env.verify; infer_instance

/-- `VerifySignature`. `ed25519.Verify` panics on a key that is not 32 bytes long. -/
def verifySignature (publicKey unsignedBytes : Bytes) (sig : String) : Except Err Unit :=
  let txHash := E.sha256 unsignedBytes
  match decodeHex sig with
  | none => .error (.msg "invalid signature format")
  | some sigBytes =>
    if publicKey.length ≠ 32 then .error (.panic "ed25519: bad public key length")
    else if E.verify publicKey txHash sigBytes then .ok ()
    else .error (.msg "signature verification failed")

theorem verifySignature_ok_iff {E : Env} {pk msg : Bytes} {sig : String} {u : Unit} :
    verifySignature E pk msg sig = .ok u ↔ ∃ sigBytes, decodeHex sig = some sigBytes ∧ pk.length = 32 ∧
      E.verify pk (E.sha256 msg) sigBytes := by
  unfold verifySignature
  cases decodeHex sig with
  | none => simp
  | some sb =>
    simp only [Option.some.injEq, exists_eq_left']
    split_ifs with h1 h2 <;> simp_all

end Namecoin.Types.Defs
