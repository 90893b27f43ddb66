import Namecoin.State.Supply
import Namecoin.State.Wallet

/-! # Admission of transactions

The `TransactionService` (`transaction_service.go`, `token_balance_manager.go`), the
`TxBuffer` (`tx_buffer.go`) and the handler that admits a transaction message into the
buffer (`handleNamecoinTransactionMessage`). A service is bound to a ledger state, so
its methods take the state.

* `admit_ok_iff`: what an admitted message has passed;
* `mint_iff`: an admitted message adds coins exactly if it is a `Reward` of a positive
  amount whose coin is new;
* `Tidy.drain`, `Tidy.requeue`: what `Drain` hands out is all the buffer holds, and
  `Requeue` puts it back. -/

namespace Namecoin.Node.Mempool

open Lib.Maps Lib.Ops Lib.ByteStrings Types.Defs Types.TxCodec State.Defs State.Utxo State.Commands
open State.Strict State.Effects State.Invariant State.SpendPlan State.Supply State.Wallet

/-! ### The buffer -/

structure TxBuffer where
  order : List String
  txs : Map String Tx

def newTxBuffer : TxBuffer := ⟨[], ∅⟩

/-- `Add`: a transaction whose ID is there already is dropped. -/
def TxBuffer.add (b : TxBuffer) (tx : Tx) (txID : String) : TxBuffer :=
  if txID ∈ b.txs then b else ⟨b.order ++ [txID], b.txs.insert txID tx⟩

theorem newTxBuffer_add (tx : Tx) (txID : String) :
    newTxBuffer.add tx txID = ⟨[txID], (∅ : Map String Tx).insert txID tx⟩ := if_neg Finmap.notMem_empty

theorem newTxBuffer_add_add {tx tx' : Tx} {txID txID' : String} (hne : txID' ≠ txID) :
    (newTxBuffer.add tx txID).add tx' txID' =
      ⟨[txID, txID'], ((∅ : Map String Tx).insert txID tx).insert txID' tx'⟩ := by
  rw [newTxBuffer_add]
  exact if_neg fun h => (Finmap.mem_insert.mp h).elim hne Finmap.notMem_empty

def TxBuffer.remove (b : TxBuffer) (txID : String) : TxBuffer :=
  if txID ∈ b.txs then ⟨b.order.erase txID, b.txs.erase txID⟩ else b

/-- The entries of a buffer in the order they were added. -/
def TxBuffer.list (b : TxBuffer) : List (String × Tx) :=
  b.order.filterMap fun id => (b.txs.lookup id).map (Prod.mk id)

/-- What `Drain` hands out: the transactions, the order and the map. -/
structure Drained where
  pending : List Tx
  order : List String
  snapshot : Map String Tx

/-- `Drain`: what is handed out, and the empty buffer. -/
def TxBuffer.drain (b : TxBuffer) : Drained × TxBuffer :=
  (⟨b.list.map Prod.snd, b.order, b.list.foldl (fun m e => m.insert e.1 e.2) ∅⟩, newTxBuffer)

/-- One turn of the loop of `Requeue`. -/
def TxBuffer.requeueOne (txs : Map String Tx) (b : TxBuffer) (id : String) : TxBuffer :=
  match txs.lookup id with
  | none => b
  | some tx => ⟨if id ∈ b.txs then b.order else b.order ++ [id], b.txs.insert id tx⟩

def TxBuffer.requeue (b : TxBuffer) (order : List String) (txs : Map String Tx) : TxBuffer :=
  order.foldl (TxBuffer.requeueOne txs) b

/-! ### The service -/

variable (E : Env)

def verifyOwnership (fromAddr : String) (publicKey : Bytes) : Except Err Unit :=
  failIf (hexEncode (E.sha256 publicKey) ≠ fromAddr) (.msg "public key does not match sender address")

/-- `VerifyBalance`, of the service and of the balance manager behind it. -/
def verifyBalance (st : NamecoinState) (fromAddr : String) (amount : UInt64) :
    Except Err (Slice TxInput × Slice TxOutput) := deterministicSpendPlan st fromAddr amount

def getSpendPlan (st : NamecoinState) (fromAddr : String) (amount : UInt64) :
    Except Err (Slice TxInput × Slice TxOutput) := deterministicSpendPlan st fromAddr amount

def validateTransaction (st : NamecoinState) (tx : Tx) : Except Err Unit :=
  match decodeHex tx.pk with
  | none => .error (.msg "invalid public key format")
  | some pubKeyBytes => do
    verifyOwnership E tx.fromAddr pubKeyBytes
    checkSpendPlan st tx
    let unsignedBytes ← (serializeTransaction E tx).mapError (.wrap "failed to serialize transaction: ")
    let computedTxID := hashHex E unsignedBytes
    failIf (computedTxID ≠ tx.txID) (.msg ("txId mismatch: expected " ++ computedTxID ++
      ", got " ++ tx.txID))
    let allUnsignedBytes ← (serializeTransactionSignature E tx).mapError
      (.wrap "failed to serialize signature preimage: ")
    verifySignature E pubKeyBytes allUnsignedBytes tx.signature
    validateCommand st tx

def validateTxCommand (st : NamecoinState) (tx : Tx) : Except Err Unit :=
  validateCommandWithInputs E st tx

/-- `handleNamecoinTransactionMessage` up to the buffer: the transaction to be added and its ID. -/
def admission (st : NamecoinState) (msg : Tx) : Except Err (Tx × String) := do
  validateTransaction E st msg
  let (inputs, outputs) ← verifyBalance st msg.fromAddr msg.amount
  let tx : Tx := { msg with inputs := inputs, outputs := outputs }
  validateTxCommand E st tx
  let txID ← buildTransactionID E tx
  failIf (txID ≠ msg.txID) (.msg ("txId mismatch: expected " ++ txID ++ ", got " ++ msg.txID))
  return (tx, txID)

def handleNamecoinTransactionMessage (st : NamecoinState) (b : TxBuffer) (msg : Tx) :
    Except Err TxBuffer := do
  let (tx, txID) ← admission E st msg
  return b.add tx txID

variable {E}

/-! ### What an admitted message has passed -/

theorem validateTransaction_ok_iff {st : NamecoinState} {tx : Tx} {u : Unit} :
    validateTransaction E st tx = .ok u ↔ Authentic E tx ∧ checkSpendPlan st tx = .ok () ∧
      buildTransactionID E tx = .ok tx.txID ∧ validateCommand st tx = .ok () := by
  unfold validateTransaction verifyOwnership Authentic buildTransactionID serializeTransactionSignature
  cases hd : decodeHex tx.pk with
  | none => simp
  | some b =>
    simp only [except_bind_ok_iff, failIf_ok_iff, mapError_ok_iff, not_not, except_map_ok_iff,
      Option.some.injEq]
    constructor
    · rintro ⟨⟨⟩, h1, ⟨⟩, h2, p, h3, ⟨⟩, h4, q, h5, ⟨⟩, h6, h7⟩
      exact ⟨⟨b, q, rfl, h1.symm, h5, h6⟩, h2, ⟨p, h3, h4⟩, h7⟩
    · rintro ⟨⟨b', q, rfl, h1, h5, h6⟩, h2, ⟨p, h3, h4⟩, h7⟩
      exact ⟨(), h1.symm, (), h2, p, h3, (), h4, q, h5, (), h6, h7⟩

/-- **Admission**: the message is signed by its sender, follows the spend plan, carries its own ID, and
its command passes both checks; the transaction that is added has the slices of the plan. -/
theorem admit_ok_iff {st : NamecoinState} {msg tx : Tx} {txID : String} :
    admission E st msg = .ok (tx, txID) ↔ ∃ ins outs,
      deterministicSpendPlan st msg.fromAddr msg.amount = .ok (ins, outs) ∧
      tx = { msg with inputs := ins, outputs := outs } ∧ elems msg.inputs = elems ins ∧
      elems msg.outputs = elems outs ∧ txID = msg.txID ∧ Authentic E msg ∧
      buildTransactionID E msg = .ok txID ∧ buildTransactionID E tx = .ok txID ∧
      validateCommand st msg = .ok () ∧ validateCommandWithInputs E st tx = .ok () := by
  unfold admission verifyBalance validateTxCommand
  simp only [except_bind_ok_iff, failIf_ok_iff, not_not, validateTransaction_ok_iff,
    checkSpendPlan_ok_iff, Prod.exists]
  constructor
  · rintro ⟨⟨⟩, ⟨hau, ⟨ins', outs', hp', hi, ho⟩, hb, hv⟩, ins, outs, hp, ⟨⟩, hc, id, hid, ⟨⟩, hm, h⟩
    rw [hp] at hp'
    obtain ⟨rfl, rfl⟩ := Prod.mk.inj (Except.ok.inj hp')
    cases h
    exact ⟨ins, outs, hp, rfl, hi, ho, hm, hau, hm ▸ hb, hid, hv, hc⟩
  · rintro ⟨ins, outs, hp, rfl, hi, ho, rfl, hau, hb, hid, hv, hc⟩
    exact ⟨(), ⟨hau, ⟨ins, outs, hp, hi, ho⟩, hb, hv⟩, ins, outs, hp, (), hc, _, hid, (), rfl, rfl⟩

/-- **What a wallet makes is admitted** if the plan is the one of the state and the
command is valid there. -/
theorem admit_walletTx {st : NamecoinState} {k : Signer E} {cmd : NamecoinCommand} {amount : UInt64}
    {ins : List TxInput} {outs : List TxOutput}
    (hplan : deterministicSpendPlan st k.address amount = .ok (some ins, some outs))
    (hval : cmd.validate st (walletTx k cmd amount ins outs) = .ok ())
    (hins : cmd.validateWithInputs E st (walletTx k cmd amount ins outs) = .ok ()) :
    admission E st (walletTx k cmd amount ins outs) =
      .ok (walletTx k cmd amount ins outs, (walletTx k cmd amount ins outs).txID) :=
  admit_ok_iff.mpr ⟨some ins, some outs, hplan, rfl, rfl, rfl, rfl,
    authentic_walletTx _ _ _ _ _, rfl, rfl, validateCommand_walletTx hval,
    validateCommandWithInputs_walletTx hins⟩

/-! ### What an admitted transaction does to the supply

A transaction that fails half-way leaves what it has done, so the statements are about the final state of
every run. -/

variable {txID : String} {tx : Tx} {s : NamecoinState}

theorem supply_final_appendAll : ∀ (outs : List TxOutput) (s : NamecoinState),
    supply (final (forList (fun value => appendUTXO ⟨txID, value.toAddr, value.amount, 0⟩) outs s)) ≤
      supply s + outputSum outs
  | [], s => by simp [forList, outputSum]
  | o :: outs, s => by
    rw [forList, bind_run, appendUTXO_run]
    split_ifs with h
    · exact Nat.le_add_right _ _
    · have ih := supply_final_appendAll outs (withUTXO ⟨txID, o.toAddr, o.amount, 0⟩ s)
      rw [supply_withUTXO h] at ih
      refine ih.trans (le_of_eq ?_)
      simp only [outputSum, List.map_cons, List.sum_cons]
      omega

theorem supply_final_generic (hcov : outputSum (elems tx.outputs) ≤
    amountsAt (account s tx.fromAddr) ((elems tx.inputs).map TxInput.txID)) :
    supply (final (applyUTXOGeneric txID tx s)) ≤ supply s := by
  unfold applyUTXOGeneric
  rw [bind_run]
  cases h : burnInputs tx.fromAddr ((elems tx.inputs).map TxInput.txID) s with
  | error e s₁ =>
    unfold burnInputs at h
    split_ifs at h
    · cases h
    · rw [burnUTXO_error h]
      exact le_refl _
  | ok u s₁ =>
    refine (supply_final_appendAll _ _).trans ?_
    unfold burnInputs at h
    split_ifs at h with hnil
    · cases h
      rw [hnil] at hcov
      exact Nat.add_le_add_left hcov _
    · have := supply_burn h
      omega

theorem supply_dropExpired (domain : String) (s : NamecoinState) :
    supply (dropExpired domain s) = supply s := by
  obtain ⟨e, he⟩ := dropExpired_eq domain s
  rw [he]
  rfl

theorem supply_failed_state {cmd : NamecoinCommand} {e : Err} {s₁ : NamecoinState}
    (h : cmd.applyState E tx s = .error e s₁) : supply s₁ = supply s := by
  cases cmd with
  | nameNew n => cases h
  | reward => cases h
  | nameFirstUpdate n =>
    simp only [NamecoinCommand.applyState, NameFirstUpdate.applyState] at h
    rw [modify_bind_run, get_bind_run, bind_run] at h
    cases hr : n.resolveCommitment E (dropExpired n.domain s) tx with
    | error e' =>
      rw [hr] at h
      cases h
      exact supply_dropExpired n.domain s
    | ok p =>
      rw [hr] at h
      dsimp only [check_ok, pure_run] at h
      split_ifs at h
      · cases h
        exact supply_dropExpired n.domain s
      · cases h
  | nameUpdate n =>
    simp only [NamecoinCommand.applyState, NameUpdate.applyState] at h
    rw [get_bind_run] at h
    cases hr : s.domains.lookup n.domain with
    | none => rw [hr] at h; cases h; rfl
    | some r =>
      rw [hr] at h
      dsimp only at h
      split_ifs at h
      · cases h; rfl
      · cases h

theorem supply_final_state (E : Env) (tx : Tx) (s : NamecoinState) :
    supply (final (applyCommandState E tx s)) = supply s := by
  unfold applyCommandState
  cases hcmd : resolveCommand tx.type tx.payload with
  | error e => rfl
  | ok cmd =>
    rw [check_ok, pure_bind]
    cases h : cmd.applyState E tx s with
    | error e s₁ => exact supply_failed_state h
    | ok u s₁ =>
      cases cmd with
      | nameNew n => cases h; rfl
      | reward => cases h; rfl
      | nameFirstUpdate n =>
        exact supply_names (NameEffect.namesOnly ((nameFirstUpdate_ok_iff tx.txID).mp h))
      | nameUpdate n =>
        exact supply_names (NameEffect.namesOnly ((nameUpdate_ok_iff (E := E) tx.txID tx).mp h))

theorem supply_final_commands (E : Env) (txID : String) (tx : Tx) (s : NamecoinState) :
    supply (final (applyCommands E txID tx s)) = supply (final (applyCommandUTXO txID tx s)) := by
  unfold applyCommands
  rw [bind_run]
  cases applyCommandUTXO txID tx s with
  | error e s₁ => rfl
  | ok u s₁ => exact supply_final_state E tx s₁

theorem supply_final_user {cmd : NamecoinCommand} (hcmd : resolveCommand tx.type tx.payload = .ok cmd)
    (hR : cmd ≠ .reward) (hcov : outputSum (elems tx.outputs) ≤
      amountsAt (account s tx.fromAddr) ((elems tx.inputs).map TxInput.txID)) :
    supply (final (applyCommandUTXO txID tx s)) ≤ supply s := by
  have hgen : supply (final (applyUTXOGeneric txID tx s)) ≤ supply s := supply_final_generic hcov
  unfold applyCommandUTXO
  rw [hcmd, check_ok, pure_bind]
  cases cmd with
  | nameNew n =>
    simp only [NamecoinCommand.applyUTXO, NameNew.applyUTXO]
    rw [bind_run]
    cases hrun : applyUTXOGeneric txID tx s <;> rw [hrun] at hgen <;> exact hgen
  | nameFirstUpdate n => exact hgen
  | nameUpdate n => exact hgen
  | reward => exact absurd rfl hR

theorem supply_final_reward (hR : isReward tx) : supply (final (applyCommandUTXO txID tx s)) =
    if txID ∈ account s (rewardCoin txID tx).toAddr then supply s
    else supply s + (rewardCoin txID tx).amount.toNat := by
  unfold applyCommandUTXO
  rw [resolveCommand_reward_iff.mpr hR, check_ok, pure_bind]
  simp only [NamecoinCommand.applyUTXO, Reward.applyUTXO]
  rw [appendUTXO_run]
  split_ifs with h1 h2 h2
  · rfl
  · exact absurd h1 h2
  · exact absurd h2 h1
  · exact supply_withUTXO h1

theorem rewardCoin_of_spend (txID : String) {st : NamecoinState}
    (h : CanonicalSpend st tx.fromAddr tx.amount (elems tx.inputs) (elems tx.outputs)) :
    (rewardCoin txID tx).toAddr = tx.fromAddr ∧
      ((rewardCoin txID tx).amount.toNat = 0 ↔ tx.amount = 0) := by
  unfold rewardCoin
  rcases h.change with hnil | ⟨l, hl, hone⟩
  · rw [hnil]
    refine ⟨rfl, ?_⟩
    rw [← UInt64.toNat_inj]
    rfl
  · rw [hone]
    refine ⟨rfl, fun hz => absurd (UInt64.toNat_inj.mp hz) hl, fun hz => ?_⟩
    rw [(h.zero hz).2] at hone
    cases hone

/-- **Minting.** An admitted message leaves the supply as it is or lowers it, unless it is a `Reward` of a
positive amount that has not paid its coin before. -/
theorem mint_iff {st : NamecoinState} {msg : Tx} (h : admission E st msg = .ok (tx, txID)) :
    supply (final (applyCommands E txID tx st)) ≤ supply st ↔
      msg.type ≠ "Reward" ∨ msg.amount = 0 ∨ msg.txID ∈ account st msg.fromAddr := by
  obtain ⟨ins, outs, hplan, htx, -, -, rfl, -, -, -, hval, -⟩ := admit_ok_iff.mp h
  have hspend : CanonicalSpend st tx.fromAddr tx.amount (elems tx.inputs) (elems tx.outputs) := by
    rw [htx]; exact spendPlan_ok hplan
  have htype : tx.type = msg.type := by rw [htx]
  have hpayload : tx.payload = msg.payload := by rw [htx]
  have hfrom : msg.fromAddr = tx.fromAddr := by rw [htx]
  have ham : msg.amount = tx.amount := by rw [htx]
  rw [supply_final_commands, hfrom, ham]
  by_cases hR : msg.type = "Reward"
  · obtain ⟨haddr, hamount⟩ := rewardCoin_of_spend msg.txID hspend
    rw [supply_final_reward (htype.trans hR), haddr]
    simp only [hR, ne_eq, not_true_eq_false, false_or]
    split_ifs with hm
    · exact ⟨fun _ => .inr hm, fun _ => le_refl _⟩
    · rw [or_iff_left hm, ← hamount]
      omega
  · obtain ⟨cmd, hcmd, -⟩ := validateCommand_ok_iff.mp hval
    have hcmdR : cmd ≠ .reward := fun hc => hR (resolveCommand_reward_iff.mp (hc ▸ hcmd))
    rw [← htype, ← hpayload] at hcmd
    have hcov : outputSum (elems tx.outputs) ≤ _ := (Nat.le_add_left _ _).trans hspend.covered
    exact ⟨fun _ => .inl hR, fun _ => supply_final_user hcmd hcmdR hcov⟩

/-! ### What the buffer holds -/

/-- The order of a buffer lists all it holds, and a transaction is under its own ID. -/
structure Tidy (E : Env) (b : TxBuffer) : Prop where
  listed : ∀ id ∈ b.txs, id ∈ b.order
  named : ∀ id t, b.txs.lookup id = some t → buildTransactionID E t = .ok id

theorem tidy_newTxBuffer (E : Env) : Tidy E newTxBuffer :=
  ⟨fun _ h => absurd h Finmap.notMem_empty, fun _ _ h => by simp [newTxBuffer] at h⟩

theorem Tidy.add {b : TxBuffer} (h : Tidy E b) (hid : buildTransactionID E tx = .ok txID) :
    Tidy E (b.add tx txID) := by
  unfold TxBuffer.add
  split_ifs with hin
  · exact h
  · constructor
    · intro id hmem
      rcases Finmap.mem_insert.mp hmem with rfl | hmem
      · exact List.mem_append_right _ (List.mem_singleton_self _)
      · exact List.mem_append_left _ (h.listed id hmem)
    · intro id t hl
      dsimp only at hl
      rw [lookup_insert_ite] at hl
      split_ifs at hl with heq
      · cases hl
        rw [heq]
        exact hid
      · exact h.named id t hl

theorem mem_add {b : TxBuffer} {id : String} : id ∈ (b.add tx txID).txs ↔ id = txID ∨ id ∈ b.txs := by
  unfold TxBuffer.add
  split_ifs with hin
  · exact ⟨.inr, fun h => h.elim (fun heq => heq ▸ hin) fun h => h⟩
  · exact Finmap.mem_insert

theorem mem_remove {b : TxBuffer} {id : String} : id ∈ (b.remove txID).txs ↔ id ≠ txID ∧ id ∈ b.txs := by
  unfold TxBuffer.remove
  split_ifs with hin
  · exact Finmap.mem_erase
  · exact ⟨fun h => ⟨fun heq => hin (heq ▸ h), h⟩, fun h => h.2⟩

theorem Tidy.remove {b : TxBuffer} (h : Tidy E b) (txID : String) : Tidy E (b.remove txID) := by
  unfold TxBuffer.remove
  split_ifs with hin
  · constructor
    · intro id hmem
      obtain ⟨hne, hmem⟩ := Finmap.mem_erase.mp hmem
      exact (List.mem_erase_of_ne hne).mpr (h.listed id hmem)
    · intro id t hl
      dsimp only at hl
      rw [lookup_erase_ite] at hl
      split_ifs at hl
      exact h.named id t hl
  · exact h

theorem lookup_snapshot (txs : Map String Tx) (k : String) : ∀ (ids : List String) (acc : Map String Tx),
    ((ids.filterMap fun id => (txs.lookup id).map (Prod.mk id)).foldl
      (fun m e => m.insert e.1 e.2) acc).lookup k = if k ∈ ids ∧ k ∈ txs then txs.lookup k
        else acc.lookup k
  | [], acc => by simp
  | id :: ids, acc => by
    cases hl : txs.lookup id with
    | none =>
      have hnot : id ∉ txs := Finmap.lookup_eq_none.mp hl
      rw [List.filterMap_cons_none (by rw [hl]; rfl), lookup_snapshot txs k ids acc]
      by_cases hk : k = id
      · subst hk
        rw [if_neg fun h => hnot h.2, if_neg fun h => hnot h.2]
      · simp only [List.mem_cons, hk, false_or]
    | some t =>
      have hin : id ∈ txs := Finmap.mem_iff.mpr ⟨t, hl⟩
      rw [List.filterMap_cons_some (b := (id, t)) (by rw [hl]; rfl), List.foldl_cons,
        lookup_snapshot txs k ids, lookup_insert_ite]
      by_cases hk : k = id
      · subst hk
        rw [if_pos rfl, if_pos (⟨List.mem_cons_self, hin⟩ : k ∈ k :: ids ∧ k ∈ txs), hl, ite_self]
      · simp only [List.mem_cons, hk, false_or, if_false]

/-- What a goroutine has taken from the buffer: the order lists it, and the
transactions have their own IDs. -/
structure Taken (E : Env) (d : Drained) : Prop where
  listed : ∀ id ∈ d.snapshot, id ∈ d.order
  named : ∀ id t, d.snapshot.lookup id = some t → t ∈ d.pending ∧ buildTransactionID E t = .ok id

/-- **`Drain`** hands out all the buffer holds. -/
theorem Tidy.drain {b : TxBuffer} (h : Tidy E b) : Taken E b.drain.1 ∧ ∀ id, id ∈ b.drain.1.snapshot ↔
    id ∈ b.txs := by
  have hlookup : ∀ id, b.drain.1.snapshot.lookup id = b.txs.lookup id := fun id => by
    refine (lookup_snapshot b.txs id b.order ∅).trans ?_
    by_cases hin : id ∈ b.txs
    · exact if_pos ⟨h.listed id hin, hin⟩
    · rw [if_neg fun h => hin h.2, Finmap.lookup_eq_none.mpr hin]
      rfl
  have hmem : ∀ id, id ∈ b.drain.1.snapshot ↔ id ∈ b.txs := fun id => by
    rw [Finmap.mem_iff, Finmap.mem_iff, hlookup]
  refine ⟨⟨fun id hid => h.listed id ((hmem id).mp hid), fun id t hl => ?_⟩, hmem⟩
  rw [hlookup] at hl
  refine ⟨List.mem_map.mpr ⟨(id, t), List.mem_filterMap.mpr ⟨id, ?_, by rw [hl]; rfl⟩, rfl⟩,
    h.named id t hl⟩
  exact h.listed id (Finmap.mem_iff.mpr ⟨t, hl⟩)

theorem Tidy.requeueOne {b : TxBuffer} {txs : Map String Tx} (h : Tidy E b)
    (hnamed : ∀ id t, txs.lookup id = some t → buildTransactionID E t = .ok id) (id : String) :
    Tidy E (b.requeueOne txs id) ∧ ∀ k, k ∈ (b.requeueOne txs id).txs ↔ k ∈ b.txs ∨
    k = id ∧ id ∈ txs := by
  unfold TxBuffer.requeueOne
  cases hl : txs.lookup id with
  | none =>
    have hnot : id ∉ txs := Finmap.lookup_eq_none.mp hl
    exact ⟨h, fun k => ⟨.inl, fun hk => hk.resolve_right fun h => hnot h.2⟩⟩
  | some t =>
    have hin : id ∈ txs := Finmap.mem_iff.mpr ⟨t, hl⟩
    refine ⟨⟨fun k hk => ?_, fun k t' hk => ?_⟩, fun k => ?_⟩
    · dsimp only at hk ⊢
      split_ifs with hb
      · rcases Finmap.mem_insert.mp hk with rfl | hk
        · exact h.listed _ hb
        · exact h.listed k hk
      · rcases Finmap.mem_insert.mp hk with rfl | hk
        · exact List.mem_append_right _ (List.mem_singleton_self _)
        · exact List.mem_append_left _ (h.listed k hk)
    · dsimp only at hk
      rw [lookup_insert_ite] at hk
      split_ifs at hk with heq
      · cases hk
        rw [heq]
        exact hnamed id t hl
      · exact h.named k t' hk
    · dsimp only
      rw [Finmap.mem_insert]
      tauto

/-- **`Requeue`** puts back what was taken. -/
theorem Tidy.requeue {txs : Map String Tx}
    (hnamed : ∀ id t, txs.lookup id = some t → buildTransactionID E t = .ok id) :
    ∀ (order : List String) {b : TxBuffer}, Tidy E b → Tidy E (b.requeue order txs) ∧
      ∀ k, k ∈ (b.requeue order txs).txs ↔ k ∈ b.txs ∨ k ∈ order ∧ k ∈ txs
  | [], b, h => ⟨h, fun k => by simp [TxBuffer.requeue]⟩
  | id :: order, b, h => by
    obtain ⟨hone, hmem⟩ := h.requeueOne hnamed id
    obtain ⟨hall, hmem'⟩ := Tidy.requeue hnamed order hone
    refine ⟨hall, fun k => (hmem' k).trans ?_⟩
    rw [hmem, List.mem_cons]
    constructor
    · rintro ((h | ⟨rfl, h⟩) | ⟨hk, h⟩)
      · exact .inl h
      · exact .inr ⟨.inl rfl, h⟩
      · exact .inr ⟨.inr hk, h⟩
    · rintro (h | ⟨rfl | hk, h⟩)
      · exact .inl (.inl h)
      · exact .inl (.inr ⟨rfl, h⟩)
      · exact .inr ⟨hk, h⟩

/-! ### A user who pays themselves -/

/-- A state in which `addr` owns one coin, kept under the empty key. -/
def oneCoin (addr : String) (amount : UInt64) : NamecoinState :=
  withAccount newState addr ((∅ : Map String UTXO).insert "" ⟨"", addr, amount, 0⟩)

theorem spendPlan_oneCoin {addr : String} {amount : UInt64} (h : amount ≠ 0) :
    deterministicSpendPlan (oneCoin addr amount) addr amount = .ok (some [⟨"", 0⟩], some []) := by
  have hm : (oneCoin addr amount).utxoMap.lookup addr =
      some ((∅ : Map String UTXO).insert "" ⟨"", addr, amount, 0⟩) := Finmap.lookup_insert _
  rw [spendPlan_singleton hm h (UInt64.le_refl _)]
  simp [changeOutputs]

theorem account_oneCoin (addr : String) (amount : UInt64) :
    account (oneCoin addr amount) addr = (∅ : Map String UTXO).insert "" ⟨"", addr, amount, 0⟩ := by
  unfold oneCoin
  rw [account_withAccount, if_pos rfl]

theorem ownReward_admitted (k : Signer E) (amount : UInt64) (h : amount ≠ 0) : ∃ tx txID,
    admission E (oneCoin k.address amount) (walletTx k .reward amount [⟨"", 0⟩] []) = .ok (tx, txID) ∧
      supply (final (applyCommands E txID tx (oneCoin k.address amount))) =
        supply (oneCoin k.address amount) + amount.toNat := by
  refine ⟨_, _, admit_walletTx (spendPlan_oneCoin h) rfl rfl, ?_⟩
  have hR : isReward (walletTx k .reward amount [⟨"", 0⟩] []) := rfl
  rw [supply_final_commands, supply_final_reward hR, if_neg]
  · rfl
  · show _ ∉ account (oneCoin k.address amount) k.address
    rw [account_oneCoin, Finmap.mem_insert]
    rintro (he | he)
    · exact walletTx_txID_ne _ _ _ _ _ he
    · exact Finmap.notMem_empty he

/-- The coin is minted. -/
theorem ownReward_mints : ¬ ∀ (E : Env) (st : NamecoinState) (msg tx : Tx) (txID : String),
    admission E st msg = .ok (tx, txID) → supply (final (applyCommands E txID tx st)) ≤ supply st := by
  intro h
  obtain ⟨tx, txID, ha, hs⟩ := ownReward_admitted (plainSigner 7) 1 (by decide)
  have := h _ _ _ _ _ ha
  rw [hs] at this
  simp at this

/-- A `NameNew` that is admitted, and adds no coin. -/
theorem nameNew_mints_nothing : ∃ (E : Env) (st : NamecoinState) (msg tx : Tx) (txID : String),
    admission E st msg = .ok (tx, txID) ∧ msg.type = "NameNew" ∧
      supply (final (applyCommands E txID tx st)) ≤ supply st := by
  let k := plainSigner 7
  have hplan : deterministicSpendPlan (oneCoin k.address 1) k.address 1 = .ok (some [⟨"", 0⟩], some []) :=
    spendPlan_oneCoin (by decide)
  have ha : admission _ (oneCoin k.address 1) (walletTx k (.nameNew ⟨"c", 0⟩) 1 [⟨"", 0⟩] []) =
      .ok (_, _) :=
    admit_walletTx hplan rfl rfl
  exact ⟨_, _, _, _, _, ha, rfl, (mint_iff ha).mpr (.inl (by decide))⟩

end Namecoin.Node.Mempool
