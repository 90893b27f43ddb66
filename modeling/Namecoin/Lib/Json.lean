import Namecoin.Lib.ByteStrings
import Mathlib.Data.Rat.Defs
import Mathlib.Algebra.Order.Field.Rat

/-! # JSON

`JsonText` is a JSON text up to white space and the spelling of its strings: the members of an
object stand in the order of the text and may repeat a key, and a number keeps its sign, digits,
fraction and exponent. `JsonValue` is a JSON *value*: an object is its list of members in the order
of the keys, without repetition, and a number is a rational. `JsonText.value` reads a text as a
value, where the last of several members of one key counts. `Codec` is a way to write texts as
bytes that can be read back.

The second half is decoding into a structure, as `encoding/json` documents it: the members of
the object are taken in order, a key selects a field if the two agree up to letter case
(`foldName`), `null` leaves a field as it is, keys without a field are skipped, and a member of
the wrong kind is an error. -/

namespace Namecoin.Lib.Json

open Lib.ByteStrings

/-- A number as it is written. -/
structure JsonNum where
  neg : Bool
  int : ℕ
  frac : List (Fin 10)
  exp : Option ℤ
deriving DecidableEq

/-- A natural number as it is written without sign, fraction and exponent. -/
def JsonNum.ofNat (n : ℕ) : JsonNum := ⟨false, n, [], none⟩

/-- An integer as it is written without fraction and exponent. -/
def JsonNum.ofInt (n : ℤ) : JsonNum := ⟨decide (n < 0), n.natAbs, [], none⟩

/-- The number meant. -/
def JsonNum.value (n : JsonNum) : ℚ :=
  let digits : ℕ := n.frac.foldl (fun a d => 10 * a + d.val) n.int
  let q : ℚ := (digits : ℚ) / 10 ^ n.frac.length * (10 : ℚ) ^ (n.exp.getD 0)
  if n.neg then -q else q

/-- The natural number written, if the text has neither sign, fraction nor exponent. -/
def JsonNum.toNat? (n : JsonNum) : Option ℕ :=
  if n.neg = false ∧ n.frac = [] ∧ n.exp = none then some n.int else none

/-- The integer written, if the text has neither fraction nor exponent. -/
def JsonNum.toInt? (n : JsonNum) : Option ℤ :=
  if n.frac = [] ∧ n.exp = none then some (if n.neg then -(n.int : ℤ) else n.int) else none

@[simp] theorem JsonNum.toNat?_ofNat (n : ℕ) : (JsonNum.ofNat n).toNat? = some n := by
  simp [JsonNum.toNat?, JsonNum.ofNat]

@[simp] theorem JsonNum.toInt?_ofInt (n : ℤ) : (JsonNum.ofInt n).toInt? = some n := by
  unfold JsonNum.toInt? JsonNum.ofInt
  rw [if_pos ⟨rfl, rfl⟩]
  refine congrArg some ?_
  by_cases h : n < 0
  · rw [if_pos (by simpa using h)]; show -(n.natAbs : ℤ) = n; omega
  · rw [if_neg (by simpa using h)]; show (n.natAbs : ℤ) = n; omega

/-- A JSON text. -/
inductive JsonText
  | null
  | bool (b : Bool)
  | num (n : JsonNum)
  | str (s : String)
  | arr (xs : List JsonText)
  | obj (kvs : List (String × JsonText))

/-- A JSON value. -/
inductive JsonValue
  | null
  | bool (b : Bool)
  | num (q : ℚ)
  | str (s : String)
  | arr (xs : List JsonValue)
  | obj (kvs : List (String × JsonValue))

/-- Put a member into a list sorted by key; an older member of that key is replaced. -/
def insertMember (k : String) (v : JsonValue) : List (String × JsonValue) → List (String × JsonValue)
  | [] => [(k, v)]
  | (k', v') :: kvs =>
    if k < k' then (k, v) :: (k', v') :: kvs
    else if k = k' then (k, v) :: kvs
    else (k', v') :: insertMember k v kvs

mutual

/-- The value of a text. -/
def JsonText.value : JsonText → JsonValue
  | .null => .null
  | .bool b => .bool b
  | .num n => .num n.value
  | .str s => .str s
  | .arr xs => .arr (valueList xs)
  | .obj kvs => .obj (valueMembers kvs [])

/-- The values of the members of an array. -/
def valueList : List JsonText → List JsonValue
  | [] => []
  | x :: xs => x.value :: valueList xs

/-- The members of an object, put in one after the other. -/
def valueMembers : List (String × JsonText) → List (String × JsonValue) → List (String × JsonValue)
  | [], acc => acc
  | (k, x) :: kvs, acc => valueMembers kvs (insertMember k x.value acc)

end

/-- A way to write JSON texts as bytes, never as no bytes at all, and to read them back. The law is
for texts of any depth. The decoder of `encoding/json` gives up beyond 10000 levels, so payloads that
deep are outside of it. -/
structure Codec where
  encode : JsonText → Bytes
  decode : Bytes → Option JsonText
  decode_encode : ∀ t, decode (encode t) = some t
  encode_ne_nil : ∀ t, encode t ≠ []

theorem Codec.encode_injective (c : Codec) : Function.Injective c.encode := fun a b h => by
  have := congrArg c.decode h
  rw [c.decode_encode, c.decode_encode] at this
  exact Option.some.inj this

/-! ### Decoding into a structure -/

/-- Case folding of a letter of a key: ASCII letters, and the two other letters that fold to one. -/
def foldChar (c : Char) : Char :=
  if c = 'ſ' then 's' else if c = 'K' then 'k' else c.toLower

/-- A key up to letter case. -/
def foldName (k : String) : List Char := k.toList.map foldChar

/-- The kind of a text, as error messages name it. -/
def JsonText.kind : JsonText → String
  | .null => "null"
  | .bool _ => "bool"
  | .num _ => "number"
  | .str _ => "string"
  | .arr _ => "array"
  | .obj _ => "object"

/-- The message for a member of the wrong kind. -/
def mismatch (t : JsonText) (type : String) : String :=
  "json: cannot unmarshal " ++ t.kind ++ " into Go value of type " ++ type

/-- A field of the structure `σ`: its key and what a member of that key does. -/
structure JsonField (σ : Type) where
  name : String
  set : JsonText → σ → Except String σ

section decode

variable {σ : Type}

/-- A field of type `string`. -/
def stringField (name : String) (put : String → σ → σ) : JsonField σ where
  name := name
  set t s := match t with
    | .null => .ok s
    | .str x => .ok (put x s)
    | t => .error (mismatch t "string")

/-- A field of type `uint64` or `uint32`: a number below `2 ^ w` without sign, fraction and exponent. -/
def uintField (w : ℕ) (name : String) (put : ℕ → σ → σ) : JsonField σ where
  name := name
  set t s := match t with
    | .null => .ok s
    | .num n => match n.toNat? with
      | some x => if x < 2 ^ w then .ok (put x s) else .error (mismatch (.num n) "uint")
      | none => .error (mismatch (.num n) "uint")
    | t => .error (mismatch t "uint")

/-- A field of type `int64`. -/
def int64Field (name : String) (put : ℤ → σ → σ) : JsonField σ where
  name := name
  set t s := match t with
    | .null => .ok s
    | .num n => match n.toInt? with
      | some x => if -2 ^ 63 ≤ x ∧ x < 2 ^ 63 then .ok (put x s) else .error (mismatch (.num n) "int64")
      | none => .error (mismatch (.num n) "int64")
    | t => .error (mismatch t "int64")

/-- The bytes an array of numbers spells. -/
def byteArray : List JsonText → Option Bytes
  | [] => some []
  | .num n :: xs => do
    let x ← n.toNat?
    if x < 256 then do
      let rest ← byteArray xs
      return UInt8.ofNat x :: rest
    else none
  | _ => none

/-- A field of type `[]byte`: a base64 string, an array of numbers, or `null` for the nil slice. -/
def bytesField (name : String) (put : Option Bytes → σ → σ) : JsonField σ where
  name := name
  set t s := match t with
    | .null => .ok (put none s)
    | .str x => match base64Decode x with
      | some b => .ok (put (some b) s)
      | none => .error "illegal base64 data"
    | .arr xs => match byteArray xs with
      | some b => .ok (put (some b) s)
      | none => .error (mismatch (.arr xs) "uint8")
    | t => .error (mismatch t "[]uint8")

/-- Take the members of an object in order. -/
def decodeMembers (fs : List (JsonField σ)) : List (String × JsonText) → σ → Except String σ
  | [], s => .ok s
  | (k, t) :: kvs, s =>
    match fs.find? fun f => foldName f.name = foldName k with
    | none => decodeMembers fs kvs s
    | some f => match f.set t s with
      | .ok s' => decodeMembers fs kvs s'
      | .error e => .error e

/-- Decode a text into a structure that starts as `init`. -/
def decodeStruct (fs : List (JsonField σ)) (init : σ) : JsonText → Except String σ
  | .null => .ok init
  | .obj kvs => decodeMembers fs kvs init
  | t => .error (mismatch t "struct")

/-- Decode the members of an array, each into a structure that starts as `init`. -/
def decodeArray (f : JsonText → Except String σ) : List JsonText → Except String (List σ)
  | [] => .ok []
  | t :: ts => match f t with
    | .error e => .error e
    | .ok x => match decodeArray f ts with
      | .error e => .error e
      | .ok xs => .ok (x :: xs)

/-- Decode a slice of structures; `null` is the nil slice. -/
def decodeSlice (f : JsonText → Except String σ) : JsonText → Except String (Option (List σ))
  | .null => .ok none
  | .arr ts => match decodeArray f ts with
    | .error e => .error e
    | .ok xs => .ok (some xs)
  | t => .error (mismatch t "slice")

theorem decodeArray_map {α : Type} {f : JsonText → Except String σ} {w : α → JsonText} {g : α → σ}
    (h : ∀ a, f (w a) = .ok (g a)) : ∀ xs : List α, decodeArray f (xs.map w) = .ok (xs.map g)
  | [] => rfl
  | x :: xs => by
    rw [List.map_cons, decodeArray, h x, decodeArray_map h xs]
    rfl

end decode

end Namecoin.Lib.Json
