import Mathlib.Data.List.DropRight
import Namecoin.State.Utxo
import Namecoin.Types.TxCodec

/-! # The commands

The four transaction types (`name_new.go`, `name_first_update.go`, `name_update.go`, `reward.go`) and the
dispatch on them (`namecoin_mediatr.go`, `namecoin_state.go`). A command has a check on the payload
(`Validate`), for two of them a check on the inputs (`ValidateWithInputs`), an effect on the coins
(`ApplyUTXO`) and an effect on the names (`ApplyState`). -/

namespace Namecoin.State.Commands

open Lib.Ops Lib.ByteStrings Lib.Json Types.Defs State.Defs State.Utxo

/-! ### Payloads -/

structure NameNew where
  commitment : String
  ttl : UInt64
deriving DecidableEq

structure NameFirstUpdate where
  domain : String
  salt : String
  ip : String
  ttl : UInt64
  txID : String
deriving DecidableEq

structure NameUpdate where
  domain : String
  ip : String
  ttl : UInt64
deriving DecidableEq

/-- `NamecoinCommand`: the four types that implement it. `Reward` has no fields. -/
inductive NamecoinCommand
  | nameNew (n : NameNew)
  | nameFirstUpdate (n : NameFirstUpdate)
  | nameUpdate (n : NameUpdate)
  | reward
deriving DecidableEq

/-- The JSON fields of `NameNew`. -/
def nameNewFields : List (JsonField NameNew) :=
  [stringField "commitment" fun x n => { n with commitment := x },
    uintField 64 "ttl" fun x n => { n with ttl := UInt64.ofNat x }]

/-- The JSON fields of `NameFirstUpdate`. -/
def nameFirstUpdateFields : List (JsonField NameFirstUpdate) :=
  [stringField "domain" fun x n => { n with domain := x },
    stringField "salt" fun x n => { n with salt := x },
    stringField "ip" fun x n => { n with ip := x },
    uintField 64 "ttl" fun x n => { n with ttl := UInt64.ofNat x },
    stringField "txid" fun x n => { n with txID := x }]

/-- The JSON fields of `NameUpdate`. -/
def nameUpdateFields : List (JsonField NameUpdate) :=
  [stringField "domain" fun x n => { n with domain := x },
    stringField "ip" fun x n => { n with ip := x },
    uintField 64 "ttl" fun x n => { n with ttl := UInt64.ofNat x }]

/-- `json.Unmarshal` of a payload into a command: nil and invalid bytes are refused. -/
def unmarshalPayload {σ : Type} (fs : List (JsonField σ)) (init : σ) : RawMessage → Except Err σ
  | .nil => .error (.msg "unexpected end of JSON input")
  | .invalid => .error (.msg "invalid character")
  | .text t => (decodeStruct fs init t).mapError .msg

def resolveCommand (command : String) (payload : RawMessage) : Except Err NamecoinCommand :=
  if command = "NameNew" then
    (unmarshalPayload nameNewFields ⟨"", 0⟩ payload).map .nameNew
  else if command = "NameFirstUpdate" then
    (unmarshalPayload nameFirstUpdateFields ⟨"", "", "", 0, ""⟩ payload).map .nameFirstUpdate
  else if command = "NameUpdate" then
    (unmarshalPayload nameUpdateFields ⟨"", "", 0⟩ payload).map .nameUpdate
  else if command = "Reward" then .ok .reward
  else .error (.msg ("unknown command " ++ command))

/-! ### Coins -/

/-- `outpointKey`: `txid:index`, the transaction in lower-case hex. -/
def outpointKey (txid : String) (index : UInt32) : String :=
  match decodeHex txid with
  | some b => hexEncode b ++ ":" ++ Nat.repr index.toNat
  | none => hexEncode (utf8 txid) ++ ":" ++ Nat.repr index.toNat

/-- The first half of `ApplyUTXOGeneric`: the inputs are burned, if there are any. -/
def burnInputs (fromAddr : String) (txIDs : List String) : StateOp Unit :=
  if txIDs = [] then pure () else burnUTXO fromAddr txIDs

/-- `ApplyUTXOGeneric`: burn the inputs, add the outputs. -/
def applyUTXOGeneric (txID : String) (tx : Tx) : StateOp Unit := do
  burnInputs tx.fromAddr ((elems tx.inputs).map TxInput.txID)
  forList (fun value => appendUTXO ⟨txID, value.toAddr, value.amount, 0⟩) (elems tx.outputs)

/-! ### `NameNew` -/

def NameNew.validate (n : NameNew) : Except Err Unit :=
  failIf (n.commitment = "") (.msg "name_new commitment empty")

def NameNew.validateWithInputs (tx : Tx) : Except Err Unit :=
  failIf (elems tx.inputs = []) (.msg "name_new requires at least one input UTXO")

def NameNew.applyUTXO (n : NameNew) (txID : String) (tx : Tx) : StateOp Unit := do
  applyUTXOGeneric txID tx
  let ttlToStore := if n.ttl = 0 then defaultDomainTTLBlocks else n.ttl
  let key := outpointKey txID 0
  modify fun st => setCommitment key n.commitment ttlToStore st.currentHeight st

/-! ### `NameFirstUpdate` -/

def maxFirstUpdateDepth : UInt64 := 25

/-- A record is there and has not expired at the height of the state. -/
def registered (st : NamecoinState) (domain : String) : Prop :=
  match st.domains.lookup domain with
  | some r => ¬ isExpired r st.currentHeight
  | none => False

instance (st : NamecoinState) (domain : String) : Decidable (registered st domain) := by
  unfold registered; split <;> infer_instance

theorem registered_iff {st : NamecoinState} {domain : String} :
    registered st domain ↔ ∃ r, st.domains.lookup domain = some r ∧ ¬ isExpired r st.currentHeight := by
  unfold registered
  cases st.domains.lookup domain <;> simp

def NameFirstUpdate.validate (n : NameFirstUpdate) (st : NamecoinState) : Except Err Unit := do
  failIf (n.domain = "" ∨ n.salt = "" ∨ n.ip = "") (.msg "invalid name_firstupdate payload")
  failIf (registered st n.domain) (.msg "domain already exists")

/-- `resolveCommitment`: the commitment the payload or, without one, the first input refers to. -/
def NameFirstUpdate.resolveCommitment (E : Env) (n : NameFirstUpdate) (st : NamecoinState) (tx : Tx) :
    Except Err (CommitmentRecord × String) := do
  let commitment := hashString E ("DOMAIN_HASH_v1:" ++ n.domain ++ ":" ++ n.salt)
  let (commitTxID, commitVout) ←
    if n.txID = "" then
      match elems tx.inputs with
      | [] => .error (.msg "missing name_new reference: no payload txid and no inputs")
      | i :: _ => .ok (i.txID, i.index)
    else .ok (n.txID, 0)
  let key := outpointKey commitTxID commitVout
  match st.commitments.lookup key with
  | none => .error (.msg ("no matching name_new commitment with key " ++ key))
  | some r =>
    failIf (commitment ≠ r.commit) (.msg ("commitment mismatch for domain " ++ n.domain))
    return (r, key)

def NameFirstUpdate.validateWithInputs (E : Env) (n : NameFirstUpdate) (st : NamecoinState) (tx : Tx) :
    Except Err Unit := do
  let (r, _) ← n.resolveCommitment E st tx
  failIf (0 < r.height ∧ r.height < st.currentHeight ∧ maxFirstUpdateDepth < st.currentHeight - r.height)
    (.msg "commitment too old for firstupdate")
  failIf (registered st n.domain) (.msg "domain already exists")

def resolveTTLPreference (txTTL storedTTL : UInt64) : UInt64 := if txTTL ≠ 0 then txTTL else storedTTL

/-- The first step of `NameFirstUpdate.ApplyState`: an expired record is removed. -/
def dropExpired (domain : String) (st : NamecoinState) : NamecoinState :=
  match st.domains.lookup domain with
  | some r =>
    if isExpired r st.currentHeight then
      removeFromExpiryLocked domain r.expiresAt { st with domains := st.domains.erase domain }
    else st
  | none => st

def NameFirstUpdate.applyState (E : Env) (n : NameFirstUpdate) (tx : Tx) : StateOp Unit := do
  modify (dropExpired n.domain)
  let st ← get
  let (r, key) ← check (n.resolveCommitment E st tx)
  if n.domain ∈ st.domains ∨ n.domain ∈ st.claimedDomains then throw (.msg "Domain already exists")
  else
    let effectiveTTLValue := effectiveTTL st (resolveTTLPreference n.ttl r.ttl)
    let newExpiresAt := st.currentHeight + effectiveTTLValue
    set (deleteCommitment key (setDomain ⟨tx.fromAddr, n.ip, n.domain, n.salt, newExpiresAt⟩ st))

/-! ### `NameUpdate` -/

/-- `unicode.IsSpace`. -/
def isSpace (c : Char) : Bool :=
  decide (c.toNat ∈ [0x9, 0xA, 0xB, 0xC, 0xD, 0x20, 0x85, 0xA0, 0x1680, 0x2028, 0x2029, 0x202F, 0x205F,
    0x3000] ∨ 0x2000 ≤ c.toNat ∧ c.toNat ≤ 0x200A)

/-- `strings.TrimSpace`. -/
def trimSpace (s : String) : String := String.ofList ((s.toList.dropWhile isSpace).rdropWhile isSpace)

/-- `strings.TrimSpace` leaves nothing. -/
def blank (s : String) : Bool := s.toList.all isSpace

def NameUpdate.validate (n : NameUpdate) (st : NamecoinState) (tx : Tx) : Except Err Unit :=
  match st.domains.lookup n.domain with
  | none => .error (.msg "cannot update non-existent or expired domain")
  | some r => do
    failIf (isExpired r st.currentHeight) (.msg "cannot update non-existent or expired domain")
    failIf (r.owner ≠ tx.fromAddr) (.msg "cannot update domain you do not own")

/-- The record `NameUpdate.ApplyState` writes: a blank value leaves a field as it is. -/
def NameUpdate.updated (n : NameUpdate) (st : NamecoinState) (r : NameRecord) : NameRecord :=
  { r with
    domain := if blank n.domain then r.domain else n.domain
    ip := if blank n.ip then r.ip else n.ip
    expiresAt := st.currentHeight + effectiveTTL st n.ttl }

def NameUpdate.applyState (n : NameUpdate) : StateOp Unit := do
  let st ← get
  match st.domains.lookup n.domain with
  | none => throw (.msg ("updating non-existent domain " ++ n.domain))
  | some r =>
    if isExpired r st.currentHeight then throw (.msg ("updating expired domain " ++ n.domain))
    else set (setDomain (n.updated st r) st)

/-! ### `Reward` -/

/-- `Reward.ApplyUTXO`: the first output is paid; without outputs, the amount is paid to the sender. -/
def Reward.applyUTXO (txID : String) (tx : Tx) : StateOp Unit :=
  let out := (elems tx.outputs).headD ⟨tx.fromAddr, tx.amount⟩
  appendUTXO ⟨txID, out.toAddr, out.amount, 0⟩

/-! ### Dispatch -/

/-- The method `Validate` of a command. -/
def NamecoinCommand.validate (st : NamecoinState) (tx : Tx) : NamecoinCommand → Except Err Unit
  | .nameNew n => n.validate
  | .nameFirstUpdate n => n.validate st
  | .nameUpdate n => n.validate st tx
  | .reward => .ok ()

/-- The method `ValidateWithInputs`; commands without it pass. -/
def NamecoinCommand.validateWithInputs (E : Env) (st : NamecoinState) (tx : Tx) :
    NamecoinCommand → Except Err Unit
  | .nameNew _ => NameNew.validateWithInputs tx
  | .nameFirstUpdate n => n.validateWithInputs E st tx
  | .nameUpdate _ => .ok ()
  | .reward => .ok ()

/-- The method `ApplyUTXO` of a command. -/
def NamecoinCommand.applyUTXO (txID : String) (tx : Tx) : NamecoinCommand → StateOp Unit
  | .nameNew n => n.applyUTXO txID tx
  | .nameFirstUpdate _ => applyUTXOGeneric txID tx
  | .nameUpdate _ => applyUTXOGeneric txID tx
  | .reward => Reward.applyUTXO txID tx

/-- The method `ApplyState` of a command. -/
def NamecoinCommand.applyState (E : Env) (tx : Tx) : NamecoinCommand → StateOp Unit
  | .nameNew _ => pure ()
  | .nameFirstUpdate n => n.applyState E tx
  | .nameUpdate n => n.applyState
  | .reward => pure ()

def validateCommand (st : NamecoinState) (tx : Tx) : Except Err Unit := do
  let cmd ← resolveCommand tx.type tx.payload
  cmd.validate st tx

def validateCommandWithInputs (E : Env) (st : NamecoinState) (tx : Tx) : Except Err Unit := do
  let cmd ← resolveCommand tx.type tx.payload
  cmd.validateWithInputs E st tx

def applyCommandUTXO (txID : String) (tx : Tx) : StateOp Unit := do
  let cmd ← check (resolveCommand tx.type tx.payload)
  cmd.applyUTXO txID tx

def applyCommandState (E : Env) (tx : Tx) : StateOp Unit := do
  let cmd ← check (resolveCommand tx.type tx.payload)
  cmd.applyState E tx

end Namecoin.State.Commands
