import Namecoin.State.SpendPlan
import Namecoin.Types.BlockCodec
import Namecoin.Types.SampleEnv

/-! # Transactions as a wallet makes them

A `Signer` is a key pair as seen by the node: a public key, and signatures that it verifies. `walletTx`
fills in what a wallet fills in around a command: the address, the inputs and outputs of the spend
plan, the ID and the signature. The result passes the strict checks (`validateTxStrict_walletTx`) as
soon as the plan is the one of the state and the command is valid there. A command is read back from
its payload as it was (`resolveCommand_payload`). -/

namespace Namecoin.State.Wallet

open Lib.Ops Lib.ByteStrings Lib.Json Types.Defs Types.TxCodec Types.BlockCodec Types.SampleEnv
open State.Defs State.Utxo State.Commands State.Strict State.Effects State.SpendPlan

/-! ### Payloads -/

/-- The type of a transaction with the given command. -/
def typeOf : NamecoinCommand → String
  | .nameNew _ => "NameNew"
  | .nameFirstUpdate _ => "NameFirstUpdate"
  | .nameUpdate _ => "NameUpdate"
  | .reward => "Reward"

/-- A command as a JSON payload, under the names of its fields. -/
def payloadOf : NamecoinCommand → JsonText
  | .nameNew n => .obj [("commitment", .str n.commitment), ("ttl", numText n.ttl.toNat)]
  | .nameFirstUpdate n => .obj [("domain", .str n.domain), ("salt", .str n.salt), ("ip", .str n.ip),
      ("ttl", numText n.ttl.toNat), ("txid", .str n.txID)]
  | .nameUpdate n => .obj [("domain", .str n.domain), ("ip", .str n.ip), ("ttl", numText n.ttl.toNat)]
  | .reward => .null

theorem decode_nameNew (n : NameNew) :
    decodeStruct nameNewFields ⟨"", 0⟩ (payloadOf (.nameNew n)) = .ok n := by
  show decodeMembers nameNewFields _ _ = _
  rw [decodeMembers_cons rfl rfl, decodeMembers_cons rfl (uintField_set n.ttl.toNat_lt), decodeMembers]
  simp

theorem decode_nameFirstUpdate (n : NameFirstUpdate) :
    decodeStruct nameFirstUpdateFields ⟨"", "", "", 0, ""⟩ (payloadOf (.nameFirstUpdate n)) = .ok n := by
  show decodeMembers nameFirstUpdateFields _ _ = _
  rw [decodeMembers_cons rfl rfl, decodeMembers_cons rfl rfl, decodeMembers_cons rfl rfl,
    decodeMembers_cons rfl (uintField_set n.ttl.toNat_lt), decodeMembers_cons rfl rfl, decodeMembers]
  simp

theorem decode_nameUpdate (n : NameUpdate) :
    decodeStruct nameUpdateFields ⟨"", "", 0⟩ (payloadOf (.nameUpdate n)) = .ok n := by
  show decodeMembers nameUpdateFields _ _ = _
  rw [decodeMembers_cons rfl rfl, decodeMembers_cons rfl rfl,
    decodeMembers_cons rfl (uintField_set n.ttl.toNat_lt), decodeMembers]
  simp

/-- **A command is read back from its payload.** -/
theorem resolveCommand_payload (cmd : NamecoinCommand) :
    resolveCommand (typeOf cmd) (.text (payloadOf cmd)) = .ok cmd := by
  cases cmd with
  | nameNew n =>
    simp [resolveCommand, typeOf, unmarshalPayload, decode_nameNew, Except.mapError, Except.map]
  | nameFirstUpdate n =>
    simp [resolveCommand, typeOf, unmarshalPayload, decode_nameFirstUpdate, Except.mapError, Except.map]
  | nameUpdate n =>
    simp [resolveCommand, typeOf, unmarshalPayload, decode_nameUpdate, Except.mapError, Except.map]
  | reward => exact resolveCommand_reward_iff.mpr rfl

theorem resolveCommand_type {type : String} {payload : RawMessage} {cmd : NamecoinCommand}
    (h : resolveCommand type payload = .ok cmd) : type = typeOf cmd := by
  unfold resolveCommand at h
  split_ifs at h with h1 h2 h3 h4
  · obtain ⟨n, -, rfl⟩ := except_map_ok_iff.mp h
    exact h1
  · obtain ⟨n, -, rfl⟩ := except_map_ok_iff.mp h
    exact h2
  · obtain ⟨n, -, rfl⟩ := except_map_ok_iff.mp h
    exact h3
  · cases h
    exact h4

/-! ### Signed transactions -/

/-- A key pair whose signatures verify. -/
structure Signer (E : Env) where
  pk : Bytes
  pk_length : pk.length = 32
  sign : Bytes → Bytes
  verifies : ∀ m, E.verify pk m (sign m)

/-- The address of a key pair. -/
def Signer.address {E : Env} (k : Signer E) : String := hashHex E k.pk

/-- A key pair for the sample primitives. -/
def sampleSigner (sha256 : Bytes → Bytes) (h : ∀ b, sha256 b ≠ []) (owner : UInt8) :
    Signer (sampleEnv sha256 h) where
  pk := List.replicate 32 owner
  pk_length := List.length_replicate
  sign _ := List.replicate 64 0
  verifies _ := ⟨List.length_replicate, rfl⟩

/-- A key pair for the simplest of them. -/
def plainSigner (owner : UInt8) : Signer plainEnv := sampleSigner _ _ owner

variable {E : Env}

/-- What a wallet signs. -/
def unsignedTx (k : Signer E) (cmd : NamecoinCommand) (amount : UInt64) (ins : List TxInput)
    (outs : List TxOutput) : Tx :=
  ⟨k.address, typeOf cmd, some ins, some outs, amount, .text (payloadOf cmd), hexEncode k.pk, "", ""⟩

/-- The bytes a transaction of a wallet is hashed as. -/
def preimage (k : Signer E) (cmd : NamecoinCommand) (amount : UInt64) (ins : List TxInput)
    (outs : List TxOutput) : Bytes :=
  E.canonicaljson (.obj (txMembers (unsignedTx k cmd amount ins outs) (payloadOf cmd).value))

/-- A transaction as a wallet makes it. -/
def walletTx (k : Signer E) (cmd : NamecoinCommand) (amount : UInt64) (ins : List TxInput)
    (outs : List TxOutput) : Tx :=
  { unsignedTx k cmd amount ins outs with
    txID := hashHex E (preimage k cmd amount ins outs)
    signature := hexEncode (k.sign (E.sha256 (preimage k cmd amount ins outs))) }

section walletTx

variable (k : Signer E) (cmd : NamecoinCommand) (amount : UInt64) (ins : List TxInput)
  (outs : List TxOutput)

theorem buildTransactionID_walletTx : buildTransactionID E (walletTx k cmd amount ins outs) =
    .ok (walletTx k cmd amount ins outs).txID := rfl

theorem authentic_walletTx : Authentic E (walletTx k cmd amount ins outs) :=
  ⟨k.pk, preimage k cmd amount ins outs, hexDecode_hexEncode _, rfl, rfl,
    verifySignature_ok_iff.mpr ⟨_, hexDecode_hexEncode _, k.pk_length, k.verifies _⟩⟩

theorem walletTx_txID_ne : (walletTx k cmd amount ins outs).txID ≠ "" :=
  fun h => E.sha256_ne_nil _ (hexEncode_eq_empty.mp h)

theorem verifyTxAuth_walletTx : verifyTxAuth E (walletTx k cmd amount ins outs)
    (walletTx k cmd amount ins outs).txID = .ok () := by
  refine verifyTxAuth_ok_iff.mpr ⟨fun h => ?_, fun h => ?_, walletTx_txID_ne _ _ _ _ _, rfl,
    authentic_walletTx _ _ _ _ _⟩
  · have hlen := k.pk_length
    rw [hexEncode_eq_empty.mp h] at hlen
    cases hlen
  · have hlen := (k.verifies (E.sha256 (preimage k cmd amount ins outs))).1
    rw [hexEncode_eq_empty.mp h] at hlen
    cases hlen

end walletTx

section checks

variable {k : Signer E} {cmd : NamecoinCommand} {amount : UInt64} {ins : List TxInput}
  {outs : List TxOutput} {st : NamecoinState}

theorem checkSpendPlan_walletTx (hplan : deterministicSpendPlan st k.address amount = .ok
    (some ins, some outs)) :
    checkSpendPlan st (walletTx k cmd amount ins outs) = .ok () :=
  checkSpendPlan_ok_iff.mpr ⟨_, _, hplan, rfl, rfl⟩

theorem validateCommand_walletTx (hval : cmd.validate st (walletTx k cmd amount ins outs) = .ok ()) :
    validateCommand st (walletTx k cmd amount ins outs) = .ok () :=
  validateCommand_ok_iff.mpr ⟨cmd, resolveCommand_payload cmd, hval⟩

theorem validateCommandWithInputs_walletTx
    (hins : cmd.validateWithInputs E st (walletTx k cmd amount ins outs) = .ok ()) :
    validateCommandWithInputs E st (walletTx k cmd amount ins outs) = .ok () :=
  validateCommandWithInputs_ok_iff.mpr ⟨cmd, resolveCommand_payload cmd, hins⟩

/-- **What a wallet makes passes the strict checks.** -/
theorem validateTxStrict_walletTx (hR : cmd ≠ .reward)
    (hplan : deterministicSpendPlan st k.address amount = .ok (some ins, some outs))
    (hval : cmd.validate st (walletTx k cmd amount ins outs) = .ok ())
    (hins : cmd.validateWithInputs E st (walletTx k cmd amount ins outs) = .ok ()) :
    validateTxStrict E st (walletTx k cmd amount ins outs).txID (walletTx k cmd amount ins outs) =
      .ok () := by
  have hspend := spendPlan_ok hplan
  have hone : outs.length ≤ 1 := by
    rcases hspend.change with h | ⟨l, -, h⟩
    · rw [show outs = [] from h]
      exact Nat.zero_le 1
    · rw [show outs = [⟨k.address, l⟩] from h]
      exact le_refl 1
  have htype : (walletTx k cmd amount ins outs).type ≠ "Reward" := fun h =>
    hR (Except.ok.inj ((resolveCommand_payload cmd).symm.trans (resolveCommand_reward_iff.mpr h)))
  exact (validateTxStrict_user_iff htype).mpr ⟨validateCommand_walletTx hval,
    verifyTxAuth_walletTx _ _ _ _ _, hone, hspend.index, checkSpendPlan_walletTx hplan,
    validateCommandWithInputs_walletTx hins⟩

end checks

end Namecoin.State.Wallet
