import Namecoin.Types.TxCodec

/-! # What a block is stored as

`SerializeHeader`, `ComputeHash`, `Marshal` and `Unmarshal` of `types/namecoin_def.go`.

* `unmarshal_marshal`: a stored block is read back as it was, except that a nil payload comes back as the
  text `null` and the hash is never nil;
* `serializeHeader_injective`: the header bytes determine the header. -/

namespace Namecoin.Types.BlockCodec

open Lib.Ops Lib.ByteStrings Lib.Json Types.Defs

variable (E : Env)

/-! ### Headers -/

/-- A `[]byte` as `encoding/json` writes it: base64, nil as `null`. -/
def bytesText : Slice UInt8 → JsonText
  | none => .null
  | some b => .str (base64Encode b)

/-- A number as it is written. -/
def numText (n : ℕ) : JsonText := .num (.ofNat n)

/-- The members `SerializeHeader` writes. -/
def headerMembers (h : BlockHeader) : List (String × JsonText) :=
  [("height", numText h.height.toNat), ("prevHash", bytesText h.prevHash), ("txRoot", bytesText h.txRoot),
    ("timestamp", .num (.ofInt h.timestamp.toInt)), ("nonce", numText h.nonce.toNat),
    ("miner", .str h.miner), ("difficulty", bytesText h.difficulty)]

def serializeHeader (h : BlockHeader) : Bytes := E.json.encode (.obj (headerMembers h))

/-- `ComputeHash`: the hash of the header. -/
def computeHash (b : Block) : Bytes := E.sha256 (serializeHeader E b.header)

/-- The JSON fields of `BlockHeader`. -/
def headerFields : List (JsonField BlockHeader) :=
  [uintField 64 "Height" fun x h => { h with height := UInt64.ofNat x },
    bytesField "PrevHash" fun x h => { h with prevHash := x },
    bytesField "TxRoot" fun x h => { h with txRoot := x },
    int64Field "Timestamp" fun x h => { h with timestamp := Int64.ofInt x },
    uintField 64 "Nonce" fun x h => { h with nonce := UInt64.ofNat x },
    stringField "Miner" fun x h => { h with miner := x },
    bytesField "Difficulty" fun x h => { h with difficulty := x }]

/-- The zero header. -/
def zeroHeader : BlockHeader := ⟨0, none, none, 0, 0, "", none⟩

/-! ### Transactions -/

/-- A slice as `encoding/json` writes it: nil as `null`. -/
def sliceText {α : Type} (f : α → JsonText) : Slice α → JsonText
  | none => .null
  | some l => .arr (l.map f)

/-- A `TxInput` under the names of its fields. -/
def inputText (i : TxInput) : JsonText := .obj [("TxID", .str i.txID), ("Index", numText i.index.toNat)]

/-- A `TxOutput` under the names of its fields. -/
def outputText (o : TxOutput) : JsonText :=
  .obj [("To", .str o.toAddr), ("Amount", numText o.amount.toNat)]

/-- A payload as it is written: nil is `null`, and bytes that are no JSON text are refused. -/
def payloadText : RawMessage → Except Err JsonText
  | .nil => .ok .null
  | .invalid =>
    .error (.msg "json: error calling MarshalJSON for type json.RawMessage: invalid character")
  | .text t => .ok t

/-- A `Tx` under the names of its fields, for a payload written as `p`. -/
def txText (tx : Tx) (p : JsonText) : JsonText :=
  .obj [("From", .str tx.fromAddr), ("Type", .str tx.type), ("Inputs", sliceText inputText tx.inputs),
    ("Outputs", sliceText outputText tx.outputs), ("Amount", numText tx.amount.toNat), ("Payload", p),
    ("Pk", .str tx.pk), ("TxID", .str tx.txID), ("Signature", .str tx.signature)]

/-- The transactions of a block as they are written. -/
def txTexts : List Tx → Except Err (List JsonText)
  | [] => .ok []
  | tx :: txs => do
    let p ← payloadText tx.payload
    let rest ← txTexts txs
    return txText tx p :: rest

/-- The JSON fields of `TxInput`. -/
def inputFields : List (JsonField TxInput) :=
  [stringField "TxID" fun x i => { i with txID := x },
    uintField 32 "Index" fun x i => { i with index := UInt32.ofNat x }]

/-- The JSON fields of `TxOutput`. -/
def outputFields : List (JsonField TxOutput) :=
  [stringField "To" fun x o => { o with toAddr := x },
    uintField 64 "Amount" fun x o => { o with amount := UInt64.ofNat x }]

/-- A field that holds a slice of structures. -/
def sliceField {σ α : Type} (name : String) (f : JsonText → Except String α) (put : Slice α → σ → σ) :
    JsonField σ where
  name := name
  set t s := (decodeSlice f t).map fun x => put x s

/-- The JSON fields of `Tx`; a `RawMessage` takes any text as it is. -/
def txFields : List (JsonField Tx) :=
  [stringField "From" fun x tx => { tx with fromAddr := x },
    stringField "Type" fun x tx => { tx with type := x },
    sliceField "Inputs" (decodeStruct inputFields ⟨"", 0⟩) fun x tx => { tx with inputs := x },
    sliceField "Outputs" (decodeStruct outputFields ⟨"", 0⟩) fun x tx => { tx with outputs := x },
    uintField 64 "Amount" fun x tx => { tx with amount := UInt64.ofNat x },
    ⟨"Payload", fun t tx => .ok { tx with payload := .text t }⟩,
    stringField "Pk" fun x tx => { tx with pk := x },
    stringField "TxID" fun x tx => { tx with txID := x },
    stringField "Signature" fun x tx => { tx with signature := x }]

/-- The zero transaction. -/
def zeroTx : Tx := ⟨"", "", none, none, 0, .nil, "", "", ""⟩

/-! ### Blocks -/

def marshal (b : Block) : Except Err Bytes := do
  let txs ← txTexts b.transactions
  return E.json.encode (.obj [("hash", .str (hexEncode (elems b.hash))),
    ("header", .str (hexEncode (serializeHeader E b.header))), ("transactions", .arr txs)])

/-- The local structure of `Unmarshal`. -/
structure RawBlock where
  header : String
  transactions : Slice Tx
  hash : String

/-- The JSON fields of `RawBlock`. -/
def rawBlockFields : List (JsonField RawBlock) :=
  [stringField "header" fun x r => { r with header := x },
    sliceField "transactions" (decodeStruct txFields zeroTx) fun x r => { r with transactions := x },
    stringField "hash" fun x r => { r with hash := x }]

/-- `json.Unmarshal` into a structure. -/
def unmarshalJSON {σ : Type} (fs : List (JsonField σ)) (init : σ) (data : Bytes) : Except Err σ :=
  match E.json.decode data with
  | none => .error (.msg "invalid character")
  | some t => (decodeStruct fs init t).mapError .msg

/-- `hex.DecodeString`, with its error. -/
def decodeHexString (s : String) : Except Err Bytes :=
  match hexDecode s with
  | none => .error (.msg "encoding/hex: invalid byte")
  | some b => .ok b

def unmarshal (data : Bytes) : Except Err Block := do
  let raw ← unmarshalJSON E rawBlockFields ⟨"", none, ""⟩ data
  let headerBytes ← decodeHexString raw.header
  let header ← unmarshalJSON E headerFields zeroHeader headerBytes
  let hashBytes ← decodeHexString raw.hash
  return ⟨header, elems raw.transactions, some hashBytes⟩

/-! ### Reading back -/

theorem decodeMembers_cons {σ : Type} {fs : List (JsonField σ)} {k : String} {t : JsonText}
    {kvs : List (String × JsonText)} {s s' : σ} {f : JsonField σ}
    (hf : fs.find? (fun f => foldName f.name = foldName k) = some f) (hs : f.set t s = .ok s') :
    decodeMembers fs ((k, t) :: kvs) s = decodeMembers fs kvs s' := by
  rw [decodeMembers, hf]
  simp only [hs]

theorem uintField_set {σ : Type} {w : ℕ} {name : String} {put : ℕ → σ → σ} {n : ℕ} {s : σ}
    (h : n < 2 ^ w) : (uintField w name put).set (numText n) s = .ok (put n s) := by
  simp [uintField, numText, h]

theorem bytesField_set {σ : Type} {name : String} {put : Option Bytes → σ → σ} (b : Slice UInt8) {s : σ} :
    (bytesField name put).set (bytesText b) s = .ok (put b s) := by
  cases b <;> simp [bytesField, bytesText]

theorem int64Field_set {σ : Type} {name : String} {put : ℤ → σ → σ} (x : Int64) {s : σ} :
    (int64Field name put).set (.num (.ofInt x.toInt)) s = .ok (put x.toInt s) := by
  have h : -2 ^ 63 ≤ x.toInt ∧ x.toInt < 2 ^ 63 := ⟨Int64.minValue_le_toInt x, Int64.toInt_lt x⟩
  simp only [int64Field, JsonNum.toInt?_ofInt, if_pos h]

theorem sliceField_set_of {σ α : Type} {name : String} {f : JsonText → Except String α}
    {put : Slice α → σ → σ} {t : JsonText} {x : Slice α} {s : σ} (h : decodeSlice f t = .ok x) :
    (sliceField name f put).set t s = .ok (put x s) := by
  simp only [sliceField, h]
  rfl

theorem sliceField_set {σ α : Type} {name : String} {f : JsonText → Except String α} {w : α → JsonText}
    {put : Slice α → σ → σ} (h : ∀ a, f (w a) = .ok a) (x : Slice α) {s : σ} :
    (sliceField name f put).set (sliceText w x) s = .ok (put x s) := by
  refine sliceField_set_of ?_
  cases x with
  | none => rfl
  | some l => simp only [sliceText, decodeSlice, decodeArray_map (g := id) h l, List.map_id_fun, id]

theorem decode_header (h : BlockHeader) :
    decodeStruct headerFields zeroHeader (.obj (headerMembers h)) = .ok h := by
  show decodeMembers headerFields (headerMembers h) zeroHeader = .ok h
  unfold headerMembers
  rw [decodeMembers_cons rfl (uintField_set h.height.toNat_lt),
    decodeMembers_cons rfl (bytesField_set h.prevHash), decodeMembers_cons rfl (bytesField_set h.txRoot),
    decodeMembers_cons rfl (int64Field_set h.timestamp),
    decodeMembers_cons rfl (uintField_set h.nonce.toNat_lt), decodeMembers_cons rfl rfl,
    decodeMembers_cons rfl (bytesField_set h.difficulty), decodeMembers]
  simp

theorem decode_input (i : TxInput) : decodeStruct inputFields ⟨"", 0⟩ (inputText i) = .ok i := by
  show decodeMembers inputFields [("TxID", .str i.txID), ("Index", numText i.index.toNat)] ⟨"", 0⟩ = .ok i
  rw [decodeMembers_cons rfl rfl, decodeMembers_cons rfl (uintField_set i.index.toNat_lt), decodeMembers]
  simp

theorem decode_output (o : TxOutput) : decodeStruct outputFields ⟨"", 0⟩ (outputText o) = .ok o := by
  show decodeMembers outputFields [("To", .str o.toAddr), ("Amount", numText o.amount.toNat)] ⟨"", 0⟩ =
    .ok o
  rw [decodeMembers_cons rfl rfl, decodeMembers_cons rfl (uintField_set o.amount.toNat_lt), decodeMembers]
  simp

theorem decode_tx (tx : Tx) (p : JsonText) :
    decodeStruct txFields zeroTx (txText tx p) = .ok { tx with payload := .text p } := by
  unfold txText
  show decodeMembers txFields _ zeroTx = _
  rw [decodeMembers_cons rfl rfl, decodeMembers_cons rfl rfl,
    decodeMembers_cons rfl (sliceField_set decode_input tx.inputs),
    decodeMembers_cons rfl (sliceField_set decode_output tx.outputs),
    decodeMembers_cons rfl (uintField_set tx.amount.toNat_lt), decodeMembers_cons rfl rfl,
    decodeMembers_cons rfl rfl, decodeMembers_cons rfl rfl, decodeMembers_cons rfl rfl, decodeMembers]
  simp

/-- A payload after it has been stored and read back: nil has become the text `null`. -/
def RawMessage.reloaded : RawMessage → RawMessage
  | .nil => .text .null
  | m => m

/-- A transaction after it has been stored and read back. -/
def Tx.reloaded (tx : Tx) : Tx := { tx with payload := RawMessage.reloaded tx.payload }

theorem decode_txTexts : ∀ {txs : List Tx} {ts : List JsonText}, txTexts txs = .ok ts →
    decodeArray (decodeStruct txFields zeroTx) ts = .ok (txs.map Tx.reloaded)
  | [], ts, h => by cases h; rfl
  | tx :: txs, ts, h => by
    obtain ⟨p, hp, h⟩ := except_bind_ok_iff.mp h
    obtain ⟨rest, hr, h⟩ := except_bind_ok_iff.mp h
    cases h
    have hre : Tx.reloaded tx = { tx with payload := .text p } := by
      unfold Tx.reloaded
      cases hm : tx.payload <;> rw [hm] at hp <;> cases hp <;> rfl
    rw [decodeArray, decode_tx, decode_txTexts hr, List.map_cons, hre]

/-- A block after it has been stored and read back. -/
def Block.reloaded (b : Block) : Block :=
  ⟨b.header, b.transactions.map Tx.reloaded, some (elems b.hash)⟩

variable {E}

theorem decodeHexString_hexEncode (x : Bytes) : decodeHexString (hexEncode x) = .ok x := by
  unfold decodeHexString
  rw [hexDecode_hexEncode]

theorem unmarshalJSON_encode {σ : Type} {fs : List (JsonField σ)} {init x : σ} {t : JsonText}
    (h : decodeStruct fs init t = .ok x) : unmarshalJSON E fs init (E.json.encode t) = .ok x := by
  unfold unmarshalJSON
  rw [E.json.decode_encode]
  simp only [h]
  rfl

/-- **A stored block is read back** as it was, up to nil payloads and a nil hash. -/
theorem unmarshal_marshal {b : Block} {data : Bytes} (h : marshal E b = .ok data) :
    unmarshal E data = .ok (Block.reloaded b) := by
  obtain ⟨ts, ht, h⟩ := except_bind_ok_iff.mp h
  cases h
  have hslice : decodeSlice (decodeStruct txFields zeroTx) (.arr ts) =
      .ok (some (b.transactions.map Tx.reloaded)) := by
    rw [decodeSlice, decode_txTexts ht]
  have hraw : decodeStruct rawBlockFields ⟨"", none, ""⟩ (.obj [("hash", .str (hexEncode (elems b.hash))),
      ("header", .str (hexEncode (serializeHeader E b.header))), ("transactions", .arr ts)]) =
      .ok ⟨hexEncode (serializeHeader E b.header), some (b.transactions.map Tx.reloaded),
        hexEncode (elems b.hash)⟩ := by
    show decodeMembers rawBlockFields _ _ = _
    rw [decodeMembers_cons rfl rfl, decodeMembers_cons rfl rfl,
      decodeMembers_cons rfl (sliceField_set_of hslice), decodeMembers]
  refine except_bind_ok_iff.mpr ⟨_, unmarshalJSON_encode hraw, ?_⟩
  refine except_bind_ok_iff.mpr ⟨_, decodeHexString_hexEncode _, ?_⟩
  refine except_bind_ok_iff.mpr ⟨_, unmarshalJSON_encode (decode_header b.header), ?_⟩
  exact except_bind_ok_iff.mpr ⟨_, decodeHexString_hexEncode _, rfl⟩

theorem txTexts_ok : ∀ {txs : List Tx}, (∀ tx ∈ txs, tx.payload ≠ .invalid) → ∃ ts, txTexts txs = .ok ts
  | [], _ => ⟨[], rfl⟩
  | tx :: txs, h => by
    obtain ⟨ts, hts⟩ := txTexts_ok fun t ht => h t (List.mem_cons_of_mem _ ht)
    have hp : ∃ p, payloadText tx.payload = .ok p := by
      have := h tx (by simp)
      cases hm : tx.payload with
      | nil => exact ⟨_, rfl⟩
      | invalid => exact absurd hm this
      | text t => exact ⟨_, rfl⟩
    obtain ⟨p, hp⟩ := hp
    exact ⟨_, except_bind_ok_iff.mpr ⟨p, hp, except_bind_ok_iff.mpr ⟨ts, hts, rfl⟩⟩⟩

theorem marshal_ok {b : Block} (h : ∀ tx ∈ b.transactions, tx.payload ≠ .invalid) :
    ∃ data, marshal E b = .ok data := by
  obtain ⟨ts, hts⟩ := txTexts_ok h
  exact ⟨_, except_bind_ok_iff.mpr ⟨ts, hts, rfl⟩⟩

theorem serializeHeader_injective : Function.Injective (serializeHeader E) := fun a b h => by
  have ht := E.json.encode_injective h
  have hd := decode_header a
  rw [ht, decode_header b] at hd
  exact (Except.ok.inj hd).symm

end Namecoin.Types.BlockCodec
