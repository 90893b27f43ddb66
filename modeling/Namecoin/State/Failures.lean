import Namecoin.State.Strict

/-! # The errors of the ledger

The ledger reports what is wrong in messages, and wraps the message of a callee in its own. Two kinds
of errors are told apart from messages: a `ChainFollowError`, which only the check of the place of a
block in a chain returns, and a panic, which only `ed25519.Verify` raises. So a property of errors that
all messages have (`Plain`) is a property of every error of the ledger, if it is one of that panic
(`applyBlockStrict_fails`). -/

namespace Namecoin.State.Failures

open Lib.Ops Lib.ByteStrings Types.Defs Types.TxCodec State.Defs State.Utxo State.Commands
open State.Strict

variable {E : Env}

/-- A property of errors that all messages have and that an error keeps when it is wrapped. -/
structure Plain (P : Err → Prop) : Prop where
  msg : ∀ text, P (.msg text)
  wrap : ∀ text e, P e → P (e.wrap text)

/-- The error is not a `ChainFollowError`. -/
def NotFollow (e : Err) : Prop := ∀ text, e ≠ .chainFollow text

theorem plain_notFollow : Plain NotFollow where
  msg _ _ h := by cases h
  wrap text e h := by
    cases e with
    | chainFollow t => exact absurd rfl (h t)
    | _ => exact fun _ he => by cases he

theorem notFollow_panic (text : String) : NotFollow (.panic text) := fun _ h => by cases h

variable {P : Err → Prop} (hP : Plain P)

include hP

/-! ### Transactions as data -/

theorem payloadValue_errors : ∀ m : RawMessage, Errors P (payloadValue m)
  | .nil => .ok _
  | .invalid => .error (hP.msg _)
  | .text _ => .ok _

theorem serializeTransaction_errors (tx : Tx) : Errors P (serializeTransaction E tx) := by
  unfold serializeTransaction
  exact (payloadValue_errors hP tx.payload).map

theorem buildTransactionID_errors (tx : Tx) : Errors P (buildTransactionID E tx) :=
  (serializeTransaction_errors hP tx).map

theorem computeTxRoot_errors (txs : List Tx) : Errors P (computeTxRoot E txs) := by
  refine Errors.map ?_
  have hloop : ∀ (txs : List Tx) (i : ℕ), Errors P (rootBytes E i txs) := by
    intro txs
    induction txs with
    | nil => exact fun _ => .ok _
    | cons tx rest ih =>
      intro i
      refine Errors.bind (Errors.mapError ?_ (hP.wrap _)) fun _ => ?_
      · exact (payloadValue_errors hP tx.payload).map
      · exact Errors.bind (ih _) fun _ => .ok _
  exact hloop txs 0

/-! ### Commands -/

theorem resolveCommand_errors (command : String) (payload : RawMessage) :
    Errors P (resolveCommand command payload) := by
  have hpayload : ∀ {σ : Type} (fs : List (Lib.Json.JsonField σ)) (init : σ),
      Errors P (unmarshalPayload fs init payload) := by
    intro σ fs init
    cases payload with
    | nil => exact .error (hP.msg _)
    | invalid => exact .error (hP.msg _)
    | text t => exact Errors.mapError (P := fun _ => True) (fun _ _ => True.intro) fun e _ => hP.msg e
  unfold resolveCommand
  split_ifs
  · exact (hpayload _ _).map
  · exact (hpayload _ _).map
  · exact (hpayload _ _).map
  · exact .ok _
  · exact .error (hP.msg _)

theorem foundCommitment_errors (n : NameFirstUpdate) (st : NamecoinState) (key : String) :
    Errors P (match st.commitments.lookup key with
      | none => .error (.msg ("no matching name_new commitment with key " ++ key))
      | some r => do
        failIf (hashString E ("DOMAIN_HASH_v1:" ++ n.domain ++ ":" ++ n.salt) ≠ r.commit)
          (.msg ("commitment mismatch for domain " ++ n.domain))
        return (r, key)) := by
  split
  · exact .error (hP.msg _)
  · exact Errors.bind (.failIf (hP.msg _)) fun _ => .ok _

theorem resolveCommitment_errors (n : NameFirstUpdate) (st : NamecoinState) (tx : Tx) :
    Errors P (n.resolveCommitment E st tx) := by
  unfold NameFirstUpdate.resolveCommitment
  dsimp only
  split_ifs
  · split
    · exact Errors.bind (.error (hP.msg _)) fun _ => foundCommitment_errors hP n st _
    · exact foundCommitment_errors hP n st _
  · exact foundCommitment_errors hP n st _

theorem validate_errors (st : NamecoinState) (tx : Tx) :
    ∀ cmd : NamecoinCommand, Errors P (cmd.validate st tx)
  | .nameNew _ => .failIf (hP.msg _)
  | .nameFirstUpdate _ => Errors.bind (.failIf (hP.msg _)) fun _ => .failIf (hP.msg _)
  | .nameUpdate n => by
    show Errors P (n.validate st tx)
    unfold NameUpdate.validate
    split
    · exact .error (hP.msg _)
    · exact Errors.bind (.failIf (hP.msg _)) fun _ => .failIf (hP.msg _)
  | .reward => .ok _

theorem validateWithInputs_errors (st : NamecoinState) (tx : Tx) :
    ∀ cmd : NamecoinCommand, Errors P (cmd.validateWithInputs E st tx)
  | .nameNew _ => .failIf (hP.msg _)
  | .nameFirstUpdate n => Errors.bind (resolveCommitment_errors hP n st tx) fun _ =>
      Errors.bind (.failIf (hP.msg _)) fun _ => .failIf (hP.msg _)
  | .nameUpdate _ => .ok _
  | .reward => .ok _

/-! ### Effects -/

theorem checkInputs_errors (m : Lib.Maps.Map String UTXO) : ∀ (txIDs seen : List String),
    Errors P (checkInputs m seen txIDs)
  | [], _ => .ok _
  | txID :: rest, seen => by
    rw [checkInputs]
    split_ifs
    · exact .error (hP.msg _)
    · exact checkInputs_errors m rest _
    · exact .error (hP.msg _)

theorem burnUTXO_fails (fromAddr : String) (txIDs : List String) : Fails P (burnUTXO fromAddr txIDs) := by
  refine Fails.bind .get fun st => ?_
  split
  · exact .throw (hP.msg _)
  · exact Fails.bind (.check (checkInputs_errors hP _ _ _)) fun _ => .set _

theorem appendUTXO_fails (utxo : UTXO) : Fails P (appendUTXO utxo) := by
  refine Fails.bind .get fun st => ?_
  dsimp only
  split_ifs
  · exact .throw (hP.msg _)
  · exact .set _

theorem applyUTXOGeneric_fails (txID : String) (tx : Tx) : Fails P (applyUTXOGeneric txID tx) := by
  refine Fails.bind ?_ fun _ => .forList (fun _ => appendUTXO_fails hP _) _
  unfold burnInputs
  split_ifs
  · exact .pure _
  · exact burnUTXO_fails hP _ _

theorem applyUTXO_fails (txID : String) (tx : Tx) :
    ∀ cmd : NamecoinCommand, Fails P (cmd.applyUTXO txID tx)
  | .nameNew _ => Fails.bind (applyUTXOGeneric_fails hP txID tx) fun _ => .modify _
  | .nameFirstUpdate _ => applyUTXOGeneric_fails hP txID tx
  | .nameUpdate _ => applyUTXOGeneric_fails hP txID tx
  | .reward => appendUTXO_fails hP _

theorem applyState_fails (tx : Tx) : ∀ cmd : NamecoinCommand, Fails P (cmd.applyState E tx)
  | .nameNew _ => .pure _
  | .nameFirstUpdate n => by
    refine Fails.bind (.modify _) fun _ => Fails.bind .get fun st => ?_
    refine Fails.bind (.check (resolveCommitment_errors hP n st tx)) fun _ => ?_
    dsimp only
    split_ifs
    · exact .throw (hP.msg _)
    · exact .set _
  | .nameUpdate n => by
    refine Fails.bind .get fun st => ?_
    split
    · exact .throw (hP.msg _)
    · split_ifs
      · exact .throw (hP.msg _)
      · exact .set _
  | .reward => .pure _

/-! ### Checks without a signature -/

theorem checkSpendPlan_errors (st : NamecoinState) (tx : Tx) : Errors P (checkSpendPlan st tx) := by
  refine Errors.bind ?_ fun _ => Errors.bind (.failIf (hP.msg _)) fun _ => .failIf (hP.msg _)
  unfold deterministicSpendPlan
  split_ifs
  · exact .ok _
  · split
    · exact .error (hP.msg _)
    · dsimp only
      split_ifs
      · exact .error (hP.msg _)
      · exact .ok _

theorem checkIndices_errors : ∀ is : List TxInput, Errors P (checkIndices is)
  | [] => .ok _
  | i :: rest => by
    rw [checkIndices]
    split_ifs
    · exact .error (hP.msg _)
    · exact checkIndices_errors rest

/-! ### Blocks -/

variable (hpanic : P (.panic "ed25519: bad public key length"))

include hpanic

theorem verifySignature_errors (pk bytes : Bytes) (sig : String) :
    Errors P (verifySignature E pk bytes sig) := by
  unfold verifySignature
  dsimp only
  split
  · exact .error (hP.msg _)
  · split_ifs
    · exact .error hpanic
    · exact .ok _
    · exact .error (hP.msg _)

theorem verifyTxAuth_errors (tx : Tx) (txID : String) : Errors P (verifyTxAuth E tx txID) := by
  refine Errors.bind (.failIf (hP.msg _)) fun _ => Errors.bind (.failIf (hP.msg _)) fun _ => ?_
  split
  · exact .error (hP.msg _)
  · refine Errors.bind (.failIf (hP.msg _)) fun _ => Errors.bind ?_ fun _ =>
      verifySignature_errors hP hpanic _ _ _
    exact (serializeTransaction_errors hP tx).mapError (hP.wrap _)

theorem validateTxStrict_errors (st : NamecoinState) (txID : String) (tx : Tx) :
    Errors P (validateTxStrict E st txID tx) := by
  refine Errors.bind ?_ fun _ => ?_
  · exact Errors.bind (resolveCommand_errors hP _ _) fun cmd => validate_errors hP st tx cmd
  · split_ifs
    · exact Errors.bind (.failIf (hP.msg _)) fun _ => .failIf (hP.msg _)
    · refine Errors.bind (verifyTxAuth_errors hP hpanic tx txID) fun _ =>
        Errors.bind (.failIf (hP.msg _)) fun _ => ?_
      refine Errors.bind (checkIndices_errors hP _) fun _ =>
        Errors.bind (checkSpendPlan_errors hP st tx) fun _ => ?_
      exact Errors.bind (resolveCommand_errors hP _ _) fun cmd => validateWithInputs_errors hP st tx cmd

/-- **Every error of the ledger** is a message, wrapped or not, or the panic. -/
theorem applyBlockStrict_fails (blk : Block) : Fails P (applyBlockStrict E blk) := by
  refine Fails.bind (.modify _) fun _ => Fails.bind (.modify _) fun _ => .forIdx (fun i tx => ?_) _ _
  refine Fails.bind (.check (buildTransactionID_errors hP tx)) fun txID => Fails.bind .get fun st => ?_
  split_ifs
  · exact .pure _
  · refine Fails.bind (.check ((validateTxStrict_errors hP hpanic st txID tx).mapError (hP.wrap _)))
      fun _ => ?_
    refine Fails.bind (.wrap ?_ (hP.wrap _)) fun _ => ?_
    · exact Fails.bind (.check (resolveCommand_errors hP _ _)) fun cmd => applyUTXO_fails hP txID tx cmd
    · refine Fails.bind (.wrap ?_ (hP.wrap _)) fun _ => .modify _
      exact Fails.bind (.check (resolveCommand_errors hP _ _)) fun cmd => applyState_fails hP tx cmd

end Namecoin.State.Failures
