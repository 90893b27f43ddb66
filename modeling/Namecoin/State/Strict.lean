import Namecoin.State.Commands

/-! # Applying a block

`applyBlockStrict` of `namecoin_chain.go`, which every new block goes through, with its checks on a single
transaction (`validateTxStrict`, `verifyTxAuth`), and the two non-strict ways to apply a transaction or a
block of `namecoin_state.go`, which replay uses. -/

namespace Namecoin.State.Strict

open Lib.Ops Types.Defs Types.TxCodec State.Defs State.Utxo State.Commands

variable (E : Env)

/-! ### One transaction -/

def verifyTxAuth (tx : Tx) (txID : String) : Except Err Unit := do
  failIf (tx.pk = "" ∨ tx.signature = "" ∨ tx.txID = "") (.msg "missing on-chain signature metadata")
  failIf (tx.txID ≠ txID) (.msg ("txid mismatch: expected " ++ txID ++ ", got " ++ tx.txID))
  match decodeHex tx.pk with
  | none => .error (.msg "invalid public key format")
  | some pubKeyBytes =>
    failIf (tx.fromAddr ≠ hashHex E pubKeyBytes) (.msg "from does not match pk hash")
    let sigPreimage ← (serializeTransactionSignature E tx).mapError
      (.wrap "failed to serialize signature preimage: ")
    verifySignature E pubKeyBytes sigPreimage tx.signature

def equalTxInputs (a b : Slice TxInput) : Prop := elems a = elems b

instance (a b : Slice TxInput) : Decidable (equalTxInputs a b) := by unfold equalTxInputs; infer_instance

def equalTxOutputs (a b : Slice TxOutput) : Prop := elems a = elems b

instance (a b : Slice TxOutput) : Decidable (equalTxOutputs a b) := by
  unfold equalTxOutputs
  infer_instance

/-- The text of an error about a spend that is not the canonical one. -/
def notCanonical (what : String) (tx : Tx) : Err :=
  .msg (what ++ " not canonical for (from=" ++ tx.fromAddr ++ ", amount=" ++
    Nat.repr tx.amount.toNat ++ ")")

/-- The inputs and outputs are those of `DeterministicSpendPlan`. -/
def checkSpendPlan (st : NamecoinState) (tx : Tx) : Except Err Unit := do
  let (expIn, expOut) ← deterministicSpendPlan st tx.fromAddr tx.amount
  failIf (¬ equalTxInputs tx.inputs expIn) (notCanonical "inputs" tx)
  failIf (¬ equalTxOutputs tx.outputs expOut) (notCanonical "outputs" tx)

/-- The loop over the inputs in `validateTxStrict`. -/
def checkIndices : List TxInput → Except Err Unit
  | [] => .ok ()
  | i :: rest =>
    if i.index ≠ 0 then .error (.msg ("unsupported input index " ++ Nat.repr i.index.toNat ++
      " (MVP only supports vout=0)"))
    else checkIndices rest

def validateTxStrict (st : NamecoinState) (txID : String) (tx : Tx) : Except Err Unit := do
  validateCommand st tx
  if tx.type = "Reward" then
    failIf (tx.txID ≠ "" ∧ tx.txID ≠ txID)
      (.msg ("reward txid mismatch: expected " ++ txID ++ ", got " ++ tx.txID))
    failIf (1 < (elems tx.outputs).length)
      (.msg ("reward tx: expected 0 or 1 output, got " ++ Nat.repr (elems tx.outputs).length))
  else
    verifyTxAuth E tx txID
    failIf (1 < (elems tx.outputs).length)
      (.msg ("expected 0 or 1 output, got " ++ Nat.repr (elems tx.outputs).length))
    checkIndices (elems tx.inputs)
    checkSpendPlan st tx
    validateCommandWithInputs E st tx

/-! ### Blocks -/

/-- The place of a transaction in the errors of `applyBlockStrict`. -/
def txPlace (i : ℕ) (txID : String) : String := "tx " ++ Nat.repr i ++ " (" ++ txID ++ ")"

/-- The body of the loop of `applyBlockStrict`: transaction number `i`. -/
def applyTxStrict (i : ℕ) (tx : Tx) : StateOp Unit := do
  let txID ← check (buildTransactionID E tx)
  let st ← get
  if isTxApplied st txID then return
  check ((validateTxStrict E st txID tx).mapError (.wrap (txPlace i txID ++ " invalid: ")))
  wrap (.wrap ("apply " ++ txPlace i txID ++ " UTXO: ")) (applyCommandUTXO txID tx)
  wrap (.wrap ("apply " ++ txPlace i txID ++ " state: ")) (applyCommandState E tx)
  modify (markAsApplied txID)

def applyBlockStrict (blk : Block) : StateOp Unit := do
  modify (setHeight blk.header.height)
  modify (pruneExpired blk.header.height)
  forIdx (applyTxStrict E) 0 blk.transactions

def applyTx (txID : String) (tx : Tx) : StateOp Unit := do
  let st ← get
  if isTxApplied st txID then return
  applyCommandUTXO txID tx
  applyCommandState E tx
  modify (markAsApplied txID)

/-- The body of the loop of `applyBlockInPlace`. -/
def applyTxInPlace (tx : Tx) : StateOp Unit := do
  let txID ← check (buildTransactionID E tx)
  applyTx E txID tx

def applyBlockInPlace (blk : Block) : StateOp Unit := do
  modify (setHeight blk.header.height)
  modify (pruneExpired blk.header.height)
  forList (applyTxInPlace E) blk.transactions

/-- `NamecoinState.ApplyBlock`: the block is applied to a copy, which replaces the state on success. -/
def applyBlock (blk : Block) (st : NamecoinState) : Except Err NamecoinState :=
  match applyBlockInPlace E blk st with
  | .ok _ working => .ok (replaceWith st working)
  | .error e _ => .error e

end Namecoin.State.Strict
