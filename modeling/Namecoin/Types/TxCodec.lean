import Namecoin.Types.Defs

/-! # What a transaction is hashed as

`namecoin_state_helper.go` writes a transaction as canonical JSON in two ways. `SerializeTransaction`
is what the transaction ID and the signature are computed from: it passes the slices to the encoder as
they are, so a nil slice is `null`. `SerializeTransactionForTxRoot` is what a block commits to: it
copies the slices first, so they are never nil, and adds the authentication fields.

* `buildTransactionID_inj`: the ID determines what `SerializeTransaction` writes;
* `computeTxRoot_inj`: the transaction root determines the transactions up to nil slices and the
  spelling of the payloads (`SameForRoot`). -/

namespace Namecoin.Types.TxCodec

open Lib.Ops Lib.ByteStrings Lib.Json Types.Defs

variable (E : Env)

/-- A payload as the encoder writes it: nil is `null`, and bytes that are no JSON text are refused. -/
def payloadValue : RawMessage → Except Err JsonValue
  | .nil => .ok .null
  | .invalid =>
    .error (.msg "json: error calling MarshalJSON for type json.RawMessage: invalid character")
  | .text t => .ok t.value

/-- A number as a JSON value. -/
def numValue (n : ℕ) : JsonValue := .num n

/-- A slice as the encoder writes it: nil is `null`. -/
def sliceValue {α : Type} (f : α → JsonValue) : Slice α → JsonValue
  | none => .null
  | some l => .arr (l.map f)

/-- A `TxInput` under the names of its fields. -/
def inputValue (i : TxInput) : JsonValue :=
  .obj [("Index", numValue i.index.toNat), ("TxID", .str i.txID)]

/-- A `TxOutput` under the names of its fields. -/
def outputValue (o : TxOutput) : JsonValue :=
  .obj [("Amount", numValue o.amount.toNat), ("To", .str o.toAddr)]

/-- The map `SerializeTransaction` encodes, for a payload of value `p`. -/
def txMembers (tx : Tx) (p : JsonValue) : List (String × JsonValue) :=
  [("amount", numValue tx.amount.toNat), ("from", .str tx.fromAddr),
    ("inputs", sliceValue inputValue tx.inputs), ("outputs", sliceValue outputValue tx.outputs),
    ("payload", p), ("type", .str tx.type)]

def serializeTransaction (tx : Tx) : Except Err Bytes :=
  (payloadValue tx.payload).map fun p => E.canonicaljson (.obj (txMembers tx p))

/-- `SerializeTransactionSignature` of a `SignedTransaction`: the same bytes. -/
def serializeTransactionSignature (tx : Tx) : Except Err Bytes := serializeTransaction E tx

def buildTransactionID (tx : Tx) : Except Err String := (serializeTransaction E tx).map (hashHex E)

/-! ### The transaction root -/

/-- An input in the map of `SerializeTransactionForTxRoot`. -/
def rootInputValue (i : TxInput) : JsonValue :=
  .obj [("index", numValue i.index.toNat), ("txid", .str i.txID)]

/-- An output in the map of `SerializeTransactionForTxRoot`. -/
def rootOutputValue (o : TxOutput) : JsonValue :=
  .obj [("amount", numValue o.amount.toNat), ("to", .str o.toAddr)]

/-- The map `SerializeTransactionForTxRoot` encodes, for a payload of value `p`. -/
def rootMembers (tx : Tx) (p : JsonValue) : List (String × JsonValue) :=
  [("amount", numValue tx.amount.toNat), ("from", .str tx.fromAddr),
    ("inputs", .arr ((elems tx.inputs).map rootInputValue)),
    ("outputs", .arr ((elems tx.outputs).map rootOutputValue)),
    ("payload", p), ("pk", .str tx.pk), ("signature", .str tx.signature), ("txid", .str tx.txID),
    ("type", .str tx.type)]

def serializeTransactionForTxRoot (tx : Tx) : Except Err Bytes :=
  (payloadValue tx.payload).map fun p => E.canonicaljson (.obj (rootMembers tx p))

/-- The bytes `ComputeTxRoot` feeds to the hash: the transactions one after the other, the first being
number `i`. -/
def rootBytes : ℕ → List Tx → Except Err Bytes
  | _, [] => .ok []
  | i, tx :: txs => do
    let b ← (serializeTransactionForTxRoot E tx).mapError
      (.wrap ("failed to marshal tx " ++ Nat.repr i ++ " for root: "))
    let rest ← rootBytes (i + 1) txs
    return b ++ rest

def computeTxRoot (txs : List Tx) : Except Err Bytes := (rootBytes E 0 txs).map E.sha256

/-! ### Which transactions can be written -/

variable {E}

theorem payloadValue_ok {p : RawMessage} (h : p ≠ .invalid) : ∃ v, payloadValue p = .ok v := by
  cases p with
  | nil => exact ⟨_, rfl⟩
  | invalid => exact absurd rfl h
  | text t => exact ⟨_, rfl⟩

theorem ne_invalid_of_payloadValue {p : RawMessage} {v : JsonValue} (h : payloadValue p = .ok v) :
    p ≠ .invalid := by
  rintro rfl
  cases h

theorem buildTransactionID_ok_iff {tx : Tx} {txID : String} : buildTransactionID E tx = .ok txID ↔
    ∃ p, payloadValue tx.payload = .ok p ∧
    txID = hashHex E (E.canonicaljson (.obj (txMembers tx p))) := by
  unfold buildTransactionID serializeTransaction
  simp only [except_map_ok_iff]
  constructor
  · rintro ⟨_, ⟨p, hp, rfl⟩, rfl⟩; exact ⟨p, hp, rfl⟩
  · rintro ⟨p, hp, rfl⟩; exact ⟨_, ⟨p, hp, rfl⟩, rfl⟩

theorem buildTransactionID_ok {tx : Tx} (h : tx.payload ≠ .invalid) :
    ∃ txID, buildTransactionID E tx = .ok txID := by
  obtain ⟨p, hp⟩ := payloadValue_ok h
  exact ⟨_, buildTransactionID_ok_iff.mpr ⟨p, hp, rfl⟩⟩

theorem rootBytes_cons_ok_iff {i : ℕ} {tx : Tx} {txs : List Tx} {b : Bytes} :
    rootBytes E i (tx :: txs) = .ok b ↔ ∃ p rest, payloadValue tx.payload = .ok p ∧
      rootBytes E (i + 1) txs = .ok rest ∧ b = E.canonicaljson (.obj (rootMembers tx p)) ++ rest := by
  rw [rootBytes, except_bind_ok_iff]
  simp only [mapError_ok_iff, serializeTransactionForTxRoot, except_map_ok_iff, except_bind_ok_iff]
  constructor
  · rintro ⟨_, ⟨p, hp, rfl⟩, rest, hr, h⟩
    cases h
    exact ⟨p, rest, hp, hr, rfl⟩
  · rintro ⟨p, rest, hp, hr, rfl⟩
    exact ⟨_, ⟨p, hp, rfl⟩, rest, hr, rfl⟩

theorem rootBytes_ok : ∀ {txs : List Tx} (i : ℕ), (∀ tx ∈ txs, tx.payload ≠ .invalid) →
    ∃ b, rootBytes E i txs = .ok b
  | [], _, _ => ⟨[], rfl⟩
  | tx :: txs, i, h => by
    obtain ⟨p, hp⟩ := payloadValue_ok (h tx (by simp))
    obtain ⟨rest, hr⟩ := rootBytes_ok (i + 1) fun t ht => h t (List.mem_cons_of_mem _ ht)
    exact ⟨_, rootBytes_cons_ok_iff.mpr ⟨p, rest, hp, hr, rfl⟩⟩

theorem computeTxRoot_ok {txs : List Tx} (h : ∀ tx ∈ txs, tx.payload ≠ .invalid) :
    ∃ root, computeTxRoot E txs = .ok root := by
  obtain ⟨b, hb⟩ := rootBytes_ok (E := E) 0 h
  exact ⟨_, by unfold computeTxRoot; rw [hb]; rfl⟩

/-! ### What an ID and a root determine -/

theorem numValue_injective : Function.Injective numValue := fun m n h => by
  have := JsonValue.num.inj h
  exact_mod_cast this

theorem numValue_word {m n : UInt64} (h : numValue m.toNat = numValue n.toNat) : m = n :=
  UInt64.toNat_inj.mp (numValue_injective h)

theorem inputValue_injective : Function.Injective inputValue := by
  rintro ⟨t, i⟩ ⟨t', i'⟩ h
  simp only [inputValue, JsonValue.obj.injEq, List.cons.injEq, Prod.mk.injEq, true_and,
    JsonValue.str.injEq, and_true] at h
  obtain ⟨hi, rfl⟩ := h
  rw [UInt32.toNat_inj.mp (numValue_injective hi)]

theorem outputValue_injective : Function.Injective outputValue := by
  rintro ⟨t, i⟩ ⟨t', i'⟩ h
  simp only [outputValue, JsonValue.obj.injEq, List.cons.injEq, Prod.mk.injEq, true_and,
    JsonValue.str.injEq, and_true] at h
  obtain ⟨hi, rfl⟩ := h
  rw [numValue_word hi]

theorem rootInputValue_injective : Function.Injective rootInputValue := by
  rintro ⟨t, i⟩ ⟨t', i'⟩ h
  simp only [rootInputValue, JsonValue.obj.injEq, List.cons.injEq, Prod.mk.injEq, true_and,
    JsonValue.str.injEq, and_true] at h
  obtain ⟨hi, rfl⟩ := h
  rw [UInt32.toNat_inj.mp (numValue_injective hi)]

theorem rootOutputValue_injective : Function.Injective rootOutputValue := by
  rintro ⟨t, i⟩ ⟨t', i'⟩ h
  simp only [rootOutputValue, JsonValue.obj.injEq, List.cons.injEq, Prod.mk.injEq, true_and,
    JsonValue.str.injEq, and_true] at h
  obtain ⟨hi, rfl⟩ := h
  rw [numValue_word hi]

theorem sliceValue_injective {α : Type} {f : α → JsonValue} (hf : Function.Injective f) :
    Function.Injective (sliceValue f)
  | none, none, _ => rfl
  | none, some _, h => by cases h
  | some _, none, h => by cases h
  | some a, some b, h => by
    rw [List.map_injective_iff.mpr hf (JsonValue.arr.inj h)]

/-- Two transactions that agree in everything `SerializeTransaction` writes. -/
structure SameSigned (tx tx' : Tx) : Prop where
  type : tx.type = tx'.type
  fromAddr : tx.fromAddr = tx'.fromAddr
  amount : tx.amount = tx'.amount
  inputs : tx.inputs = tx'.inputs
  outputs : tx.outputs = tx'.outputs
  payload : payloadValue tx.payload = payloadValue tx'.payload

/-- Two transactions that agree in everything `SerializeTransactionForTxRoot` writes. -/
structure SameForRoot (tx tx' : Tx) : Prop where
  type : tx.type = tx'.type
  fromAddr : tx.fromAddr = tx'.fromAddr
  amount : tx.amount = tx'.amount
  inputs : elems tx.inputs = elems tx'.inputs
  outputs : elems tx.outputs = elems tx'.outputs
  payload : payloadValue tx.payload = payloadValue tx'.payload
  pk : tx.pk = tx'.pk
  signature : tx.signature = tx'.signature
  txID : tx.txID = tx'.txID

theorem sameSigned_of_members {tx tx' : Tx} {p p' : JsonValue} (hp : payloadValue tx.payload = .ok p)
    (hp' : payloadValue tx'.payload = .ok p') (h : txMembers tx p = txMembers tx' p') :
    SameSigned tx tx' := by
  simp only [txMembers, List.cons.injEq, Prod.mk.injEq, true_and, JsonValue.str.injEq, and_true] at h
  obtain ⟨h1, h2, h3, h4, h5, h6⟩ := h
  exact ⟨h6, h2, numValue_word h1, sliceValue_injective inputValue_injective h3,
    sliceValue_injective outputValue_injective h4, by rw [hp, hp', h5]⟩

theorem sameForRoot_of_members {tx tx' : Tx} {p p' : JsonValue} (hp : payloadValue tx.payload = .ok p)
    (hp' : payloadValue tx'.payload = .ok p') (h : rootMembers tx p = rootMembers tx' p') :
    SameForRoot tx tx' := by
  simp only [rootMembers, List.cons.injEq, Prod.mk.injEq, true_and, JsonValue.str.injEq,
    JsonValue.arr.injEq, and_true] at h
  obtain ⟨h1, h2, h3, h4, h5, h6, h7, h8, h9⟩ := h
  exact ⟨h9, h2, numValue_word h1, List.map_injective_iff.mpr rootInputValue_injective h3,
    List.map_injective_iff.mpr rootOutputValue_injective h4, by rw [hp, hp', h5], h6, h7, h8⟩

section inject

variable (hc : E.CollisionFree) (hj : E.CanonicalJson)
include hc hj

/-- **The ID determines what is signed.** -/
theorem buildTransactionID_inj {tx tx' : Tx} {txID : String} (h : buildTransactionID E tx = .ok txID)
    (h' : buildTransactionID E tx' = .ok txID) : SameSigned tx tx' := by
  obtain ⟨p, hp, rfl⟩ := buildTransactionID_ok_iff.mp h
  obtain ⟨p', hp', he⟩ := buildTransactionID_ok_iff.mp h'
  have hv := hj.injective (hc (hexEncode_injective he))
  exact sameSigned_of_members hp hp' (JsonValue.obj.inj hv)

omit hc in
theorem canonicaljson_obj_ne_nil {k : String} {v : JsonValue} {kvs : List (String × JsonValue)} :
    E.canonicaljson (.obj ((k, v) :: kvs)) ≠ [] := fun h => by
  have := (hj.objects ((k, v) :: kvs) [] (E.canonicaljson (.obj [])) [] (by rw [h]; simp)).1
  cases this

omit hc in
theorem rootBytes_inj : ∀ {txs txs' : List Tx} {i j : ℕ} {b : Bytes}, rootBytes E i txs = .ok b →
    rootBytes E j txs' = .ok b → List.Forall₂ SameForRoot txs txs'
  | [], [], _, _, _, _, _ => .nil
  | [], tx' :: txs', i, j, b, h, h' => by
    obtain ⟨p', rest', -, -, he⟩ := rootBytes_cons_ok_iff.mp h'
    cases h
    exact absurd (List.append_eq_nil_iff.mp he.symm).1 (canonicaljson_obj_ne_nil hj)
  | tx :: txs, [], i, j, b, h, h' => by
    obtain ⟨p, rest, -, -, he⟩ := rootBytes_cons_ok_iff.mp h
    cases h'
    exact absurd (List.append_eq_nil_iff.mp he.symm).1 (canonicaljson_obj_ne_nil hj)
  | tx :: txs, tx' :: txs', i, j, b, h, h' => by
    obtain ⟨p, rest, hp, hr, rfl⟩ := rootBytes_cons_ok_iff.mp h
    obtain ⟨p', rest', hp', hr', he⟩ := rootBytes_cons_ok_iff.mp h'
    obtain ⟨hm, rfl⟩ := hj.objects _ _ _ _ he
    exact .cons (sameForRoot_of_members hp hp' hm) (rootBytes_inj hr hr')

/-- **The root determines the transactions** up to nil slices and the spelling of the payloads. -/
theorem computeTxRoot_inj {txs txs' : List Tx} {root : Bytes} (h : computeTxRoot E txs = .ok root)
    (h' : computeTxRoot E txs' = .ok root) : List.Forall₂ SameForRoot txs txs' := by
  obtain ⟨b, hb, rfl⟩ := except_map_ok_iff.mp h
  obtain ⟨b', hb', he⟩ := except_map_ok_iff.mp h'
  rw [hc he] at hb'
  exact rootBytes_inj hj hb hb'

end inject

end Namecoin.Types.TxCodec
