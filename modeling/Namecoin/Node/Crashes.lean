import Namecoin.Chain.Build
import Namecoin.Chain.Rejections
import Namecoin.Node.Mempool

/-! # Keys that crash a node

`ed25519.Verify` panics on a key that is not 32 bytes long, and nothing in front of it looks at the
length of the key. The sender of a transaction only has to be the hash of its key, so anybody can make
a transaction with another key. Here it is said exactly which messages bring a node down.

* `BadKey`: such a key, with a signature that can be decoded;
* `verifyTxAuth_panics_iff`, `validateTransaction_panics_iff`, `applyBlock_panics_iff`: when a check
  gets as far as `ed25519.Verify` with it;
* `panics_iff`: the three together. -/

namespace Namecoin.Node.Crashes

open Lib.Ops Lib.ByteStrings Types.Defs Types.TxCodec Types.BlockCodec Types.SampleEnv State.Defs
open State.Utxo State.Commands State.Strict State.Effects State.Failures State.Wallet Chain.Stores
open Chain.Defs Chain.Apply Chain.Build Chain.Rejections Node.Mempool

variable {E : Env} {st s : NamecoinState} {tx : Tx} {txID : String}

/-! ### Panics -/

def IsPanic (e : Err) : Prop := ∃ text, e = .panic text

/-- The code panics. -/
def Panics {α : Type} (x : Except Err α) : Prop := Raises IsPanic x

theorem isPanic_wrap (text : String) (e : Err) : IsPanic (e.wrap text) ↔ IsPanic e := by
  cases e <;> simp [IsPanic, Err.wrap]

theorem plain_notPanic : Plain fun e => ¬ IsPanic e where
  msg _ h := by
    obtain ⟨_, he⟩ := h
    cases he
  wrap text e h := fun hw => h ((isPanic_wrap text e).mp hw)

theorem failIf_panics_iff {c : Prop} [Decidable c] {text : String} {α : Type} {y : Except Err α} :
    Panics (failIf c (.msg text) >>= fun _ => y) ↔ ¬ c ∧ Panics y :=
  (raises_seq_iff (.failIf (plain_notPanic.msg _))).trans (and_congr_left' failIf_ok_iff)

/-! ### The signature of a transaction -/

/-- The sender is the hash of a key that is not 32 bytes long, and the transaction and
its signature can be read. -/
def BadKey (E : Env) (tx : Tx) : Prop :=
  ∃ key, decodeHex tx.pk = some key ∧ key.length ≠ 32 ∧ tx.fromAddr = hashHex E key ∧
    tx.payload ≠ .invalid ∧ decodeHex tx.signature ≠ none

theorem verifySignature_panics_iff {pk bytes : Bytes} {sig : String} :
    Panics (verifySignature E pk bytes sig) ↔ pk.length ≠ 32 ∧ decodeHex sig ≠ none := by
  unfold verifySignature
  cases decodeHex sig with
  | none => simp [Panics, Raises, IsPanic]
  | some sigBytes =>
    dsimp only
    split_ifs with hlen hver <;> simp_all [Panics, Raises, IsPanic]

theorem serializeTransaction_ok_iff : (∃ bytes, serializeTransaction E tx = .ok bytes) ↔
    tx.payload ≠ .invalid := by
  constructor
  · rintro ⟨bytes, h⟩
    obtain ⟨v, hv, -⟩ := except_map_ok_iff.mp h
    exact ne_invalid_of_payloadValue hv
  · intro h
    obtain ⟨v, hv⟩ := payloadValue_ok h
    exact ⟨_, except_map_ok_iff.mpr ⟨v, hv, rfl⟩⟩

theorem signed_panics_iff {α : Type} {text : String} {f : Bytes → Except Err α} {p : Prop}
    (hf : ∀ bytes, Panics (f bytes) ↔ p) :
    Panics ((serializeTransactionSignature E tx).mapError (.wrap text) >>= f) ↔
    tx.payload ≠ .invalid ∧ p := by
  have herr : Errors (fun e => ¬ IsPanic e) ((serializeTransactionSignature E tx).mapError
      (.wrap text)) :=
    (serializeTransaction_errors plain_notPanic tx).mapError (plain_notPanic.wrap _)
  rw [Panics, raises_bind_iff, or_iff_right herr.not_raises]
  simp only [mapError_ok_iff]
  rw [← serializeTransaction_ok_iff (E := E)]
  exact ⟨fun ⟨b, hb, h⟩ => ⟨⟨b, hb⟩, (hf b).mp h⟩, fun ⟨⟨b, hb⟩, h⟩ => ⟨b, hb, (hf b).mpr h⟩⟩

/-- The fields `verifyTxAuth` looks at before the key. -/
def Labelled (tx : Tx) (txID : String) : Prop :=
  tx.pk ≠ "" ∧ tx.signature ≠ "" ∧ tx.txID ≠ "" ∧ tx.txID = txID

theorem verifyTxAuth_panics_iff : Panics (verifyTxAuth E tx txID) ↔ Labelled tx txID ∧ BadKey E tx := by
  unfold verifyTxAuth Labelled BadKey
  rw [failIf_panics_iff, failIf_panics_iff]
  cases hkey : decodeHex tx.pk with
  | none => simp [Panics, Raises, IsPanic]
  | some key =>
    dsimp only
    rw [failIf_panics_iff, signed_panics_iff fun bytes => verifySignature_panics_iff]
    simp only [not_or, not_not, Option.some.injEq, exists_eq_left']
    tauto

/-! ### A transaction message -/

/-- **`ValidateTransaction` panics** on a bad key in a message that is consistent otherwise: the inputs
and outputs are those of the spend plan, and the ID is the hash. -/
theorem validateTransaction_panics_iff : Panics (validateTransaction E st tx) ↔ BadKey E tx ∧
    checkSpendPlan st tx = .ok () ∧ buildTransactionID E tx = .ok tx.txID := by
  unfold validateTransaction verifyOwnership BadKey buildTransactionID
  cases hkey : decodeHex tx.pk with
  | none => simp [Panics, Raises, IsPanic]
  | some key =>
    dsimp only
    have hplan : Errors (fun e => ¬ IsPanic e) (checkSpendPlan st tx) :=
      checkSpendPlan_errors plain_notPanic st tx
    have hser : Errors (fun e => ¬ IsPanic e)
        ((serializeTransaction E tx).mapError (.wrap "failed to serialize transaction: ")) :=
      (serializeTransaction_errors plain_notPanic tx).mapError (plain_notPanic.wrap _)
    have hcmd : Errors (fun e => ¬ IsPanic e) (validateCommand st tx) :=
      Errors.bind (resolveCommand_errors plain_notPanic _ _) fun cmd =>
        validate_errors plain_notPanic st tx cmd
    have hend : ∀ bytes, Panics (verifySignature E key bytes tx.signature >>= fun _ =>
      validateCommand st tx) ↔ key.length ≠ 32 ∧ decodeHex tx.signature ≠ none := by
      intro bytes
      rw [Panics, raises_bind_iff, or_iff_left (by rintro ⟨_, _, h⟩; exact hcmd.not_raises h)]
      exact verifySignature_panics_iff
    rw [failIf_panics_iff, Panics, raises_seq_iff hplan, raises_bind_iff, or_iff_right hser.not_raises]
    simp only [mapError_ok_iff, not_not, except_map_ok_iff, Option.some.injEq, exists_eq_left']
    constructor
    · rintro ⟨hfrom, hspend, bytes, hbytes, h⟩
      obtain ⟨hid, h⟩ := failIf_panics_iff.mp h
      obtain ⟨hpay, hlen, hsig⟩ := (signed_panics_iff hend).mp h
      exact ⟨⟨hlen, hfrom.symm, hpay, hsig⟩, hspend, bytes, hbytes, not_not.mp hid⟩
    · rintro ⟨⟨hlen, hfrom, hpay, hsig⟩, hspend, bytes, hbytes, hid⟩
      refine ⟨hfrom.symm, hspend, bytes, hbytes, failIf_panics_iff.mpr ⟨not_not.mpr hid, ?_⟩⟩
      exact (signed_panics_iff hend).mpr ⟨hpay, hlen, hsig⟩

/-! ### A block -/

/-- In the state `s`, the next transaction of a block gets as far as its signature, with a bad key. -/
def BadTurn (E : Env) (s : NamecoinState) (tx : Tx) : Prop :=
  ∃ txID, buildTransactionID E tx = .ok txID ∧ txID ∉ s.txMap ∧ tx.type ≠ "Reward" ∧
    validateCommand s tx = .ok () ∧ Labelled tx txID ∧ BadKey E tx

/-- A transaction of a block has a bad turn, after the turns of those before it. -/
def BadBlock (E : Env) (s : NamecoinState) (blk : Block) : Prop :=
  ∃ done tx rest s₁, blk.transactions = done ++ tx :: rest ∧
    StrictRun E done (atHeight blk.header.height s) s₁ ∧ BadTurn E s₁ tx

theorem validateTxStrict_panics_iff : Panics (validateTxStrict E s txID tx) ↔
    tx.type ≠ "Reward" ∧ validateCommand s tx = .ok () ∧ Labelled tx txID ∧ BadKey E tx := by
  have hP := plain_notPanic
  have hcmd : Errors (fun e => ¬ IsPanic e) (validateCommand s tx) :=
    Errors.bind (resolveCommand_errors hP _ _) fun cmd => validate_errors hP s tx cmd
  unfold validateTxStrict
  rw [Panics, raises_seq_iff hcmd]
  split_ifs with hR
  · have hreward : Errors (fun e => ¬ IsPanic e) (do
        failIf (tx.txID ≠ "" ∧ tx.txID ≠ txID)
          (.msg ("reward txid mismatch: expected " ++ txID ++ ", got " ++ tx.txID))
        failIf (1 < (elems tx.outputs).length)
          (.msg ("reward tx: expected 0 or 1 output, got " ++ Nat.repr (elems tx.outputs).length))) :=
      Errors.bind (.failIf (hP.msg _)) fun _ => .failIf (hP.msg _)
    exact iff_of_false (fun h => hreward.not_raises h.2) fun h => h.1 hR
  · have hrest : Errors (fun e => ¬ IsPanic e) (do
        failIf (1 < (elems tx.outputs).length)
          (.msg ("expected 0 or 1 output, got " ++ Nat.repr (elems tx.outputs).length))
        checkIndices (elems tx.inputs)
        checkSpendPlan s tx
        validateCommandWithInputs E s tx) :=
      Errors.bind (.failIf (hP.msg _)) fun _ => Errors.bind (checkIndices_errors hP _) fun _ =>
        Errors.bind (checkSpendPlan_errors hP s tx) fun _ =>
            Errors.bind (resolveCommand_errors hP _ _) fun cmd =>
          validateWithInputs_errors hP s tx cmd
    rw [raises_bind_iff, or_iff_left (by rintro ⟨_, _, h⟩; exact hrest.not_raises h)]
    have hauth : Raises IsPanic (verifyTxAuth E tx txID) ↔ _ := verifyTxAuth_panics_iff
    rw [hauth]
    simp [hR]

theorem applyTxStrict_panics_iff {i : ℕ} : RaisesIn IsPanic (applyTxStrict E i tx) s ↔
    BadTurn E s tx := by
  have hP := plain_notPanic
  unfold applyTxStrict BadTurn
  cases hid : buildTransactionID E tx with
  | error e =>
    have hnot : ¬ Raises IsPanic (buildTransactionID E tx) := (buildTransactionID_errors hP tx).not_raises
    rw [hid] at hnot
    rw [raisesIn_bind_iff, raisesIn_check_iff, or_iff_right hnot]
    simp
  | ok txID =>
    simp only [check_ok, pure_bind, Except.ok.injEq, exists_eq_left']
    rw [raisesIn_bind_iff, or_iff_right (Fails.get.not_raisesIn s)]
    have hget : ∀ (f : NamecoinState → StateOp Unit),
      (∃ a s₁, (get : StateOp NamecoinState) s = .ok a s₁ ∧ RaisesIn IsPanic (f a) s₁) ↔
      RaisesIn IsPanic (f s) s := fun f =>
      ⟨fun ⟨a, s₁, he, h⟩ => by cases he; exact h, fun h => ⟨s, s, rfl, h⟩⟩
    rw [hget]
    by_cases happ : isTxApplied s txID
    · rw [if_pos happ]
      have hmem : txID ∈ s.txMap := happ
      simp [hmem, (Fails.pure ()).not_raisesIn s]
    · rw [if_neg happ]
      have hmem : txID ∉ s.txMap := happ
      have hrest : Fails (fun e => ¬ IsPanic e) (do
          wrap (.wrap ("apply " ++ txPlace i txID ++ " UTXO: ")) (applyCommandUTXO txID tx)
          wrap (.wrap ("apply " ++ txPlace i txID ++ " state: ")) (applyCommandState E tx)
          modify (markAsApplied txID) : StateOp Unit) := by
        refine Fails.bind (.wrap ?_ (hP.wrap _)) fun _ => Fails.bind (.wrap ?_ (hP.wrap _)) fun _ =>
          .modify _
        · exact Fails.bind (.check (resolveCommand_errors hP _ _)) fun cmd =>
            applyUTXO_fails hP txID tx cmd
        · exact Fails.bind (.check (resolveCommand_errors hP _ _)) fun cmd => applyState_fails hP tx cmd
      rw [raisesIn_bind_iff, or_iff_left fun ⟨_, s₁, _, h⟩ => hrest.not_raisesIn s₁ h, raisesIn_check_iff,
        raises_mapError_iff (isPanic_wrap _)]
      have hstrict : Raises IsPanic (validateTxStrict E s txID tx) ↔ _ := validateTxStrict_panics_iff
      rw [hstrict]
      simp [hmem]

theorem applyBlockStrict_panics_iff {blk : Block} : RaisesIn IsPanic (applyBlockStrict E blk) s ↔
    BadBlock E s blk := by
  have hrun : ∀ {done : List Tx} {s s₁ : NamecoinState},
      forIdx (applyTxStrict E) 0 done s = .ok () s₁ ↔ StrictRun E done s s₁ := by
    intro done s s₁
    rw [forIdx_ok_iff (g := applyTxStrict E 0) fun i x s s' u => by rw [applyTxStrict_ok_iff,
      applyTxStrict_ok_iff]]
    exact forList_applyTxStrict_ok_iff
  have hstart : RaisesIn IsPanic (applyBlockStrict E blk) s ↔
      RaisesIn IsPanic (forIdx (applyTxStrict E) 0 blk.transactions) (atHeight blk.header.height s) :=
      Iff.rfl
  rw [hstart, raisesIn_forIdx_iff]
  simp only [hrun, applyTxStrict_panics_iff]
  rfl

/-- **`ApplyBlock` panics** on a block with a good header, when a transaction has a bad turn. -/
theorem applyBlock_panics_iff {S : Heap} {c : NamecoinChain} {blk : Block} :
    Panics (c.applyBlock E S blk) ↔
    validateBlockHeader E c.headHeight (cloneBytes c.headHash) blk c.powTarget = .ok () ∧
    BadBlock E c.state blk := by
  have hP := plain_notPanic
  have hfollow : ∀ height hash blk, Errors (fun e => ¬ IsPanic e)
      (ensureNextBlockFollows height hash blk) := by
    intro height hash blk
    have hchain : ∀ text, ¬ IsPanic (.chainFollow text) := by simp [IsPanic]
    unfold ensureNextBlockFollows
    split_ifs
    · exact Errors.bind (.failIf (hchain _)) fun _ => .failIf (hchain _)
    · exact Errors.bind (.failIf (hchain _)) fun _ => .failIf (hchain _)
  have hheader : ∀ height hash blk target,
      Errors (fun e => ¬ IsPanic e) (validateBlockHeader E height hash blk target) :=
      fun height hash blk target =>
    validateBlockHeader_errors hP (hfollow height hash blk)
  unfold NamecoinChain.applyBlock
  dsimp only
  rw [Panics, raises_bind_iff, or_iff_left]
  · unfold validateBlock
    rw [raises_seq_iff (hheader _ _ _ _), ← applyBlockStrict_panics_iff]
    refine and_congr_right fun _ => ?_
    unfold Raises RaisesIn
    cases applyBlockStrict E blk c.state <;> simp
  · rintro ⟨_, _, h⟩
    refine Errors.not_raises ?_ h
    exact Errors.bind (marshal_errors hP _) fun _ => Errors.bind (hheader _ _ _ _) fun _ => .ok _

/-! ### All three -/

/-- **Which messages crash a node.** -/
theorem panics_iff (E : Env) : (∀ tx txID, ¬ Panics (verifyTxAuth E tx txID) ↔
    ¬ (Labelled tx txID ∧ BadKey E tx)) ∧ (∀ st tx, ¬ Panics (validateTransaction E st tx) ↔
      ¬ (BadKey E tx ∧ checkSpendPlan st tx = .ok () ∧ buildTransactionID E tx = .ok tx.txID)) ∧
    ∀ S (c : NamecoinChain) blk, ¬ Panics (c.applyBlock E S blk) ↔
      ¬ (validateBlockHeader E c.headHeight (cloneBytes c.headHash) blk c.powTarget = .ok () ∧
        BadBlock E c.state blk) :=
  ⟨fun _ _ => not_congr verifyTxAuth_panics_iff, fun _ _ => not_congr validateTransaction_panics_iff,
    fun _ _ _ => not_congr applyBlock_panics_iff⟩

/-! ### A short key -/

/-- A `NameNew` without coins, under the given ID; its key has one byte. -/
def shortKeyTxOf (txID : String) : Tx :=
  ⟨hashHex plainEnv [7], "NameNew", some [], some [], 0, .text (payloadOf (.nameNew ⟨"c", 0⟩)),
    hexEncode [7], txID, hexEncode [0]⟩

/-- It is given the ID that is computed from it. -/
def shortKeyTx : Tx := shortKeyTxOf (hashHex plainEnv
  (plainEnv.canonicaljson (.obj (txMembers (shortKeyTxOf "") (payloadOf (.nameNew ⟨"c", 0⟩)).value))))

theorem badKey_shortKeyTx : BadKey plainEnv shortKeyTx :=
  ⟨[7], hexDecode_hexEncode _, by decide, rfl, by simp [shortKeyTx, shortKeyTxOf],
    fun h => by cases (hexDecode_hexEncode [0]).symm.trans h⟩

theorem labelled_shortKeyTx : Labelled shortKeyTx shortKeyTx.txID :=
  ⟨fun h => absurd (hexEncode_eq_empty.mp h) (by simp),
    fun h => absurd (hexEncode_eq_empty.mp h) (by simp), fun h =>
    plainEnv.sha256_ne_nil _ (hexEncode_eq_empty.mp h), rfl⟩

theorem badTurn_shortKeyTx : BadTurn plainEnv (atHeight 0 newState) shortKeyTx := by
  have hnew : shortKeyTx.txID ∉ (atHeight 0 newState).txMap := by
    rw [(pruned_rest 0 newState).2]
    exact Finset.notMem_empty _
  refine ⟨shortKeyTx.txID, rfl, hnew, by decide, ?_, labelled_shortKeyTx, badKey_shortKeyTx⟩
  exact validateCommand_ok_iff.mpr ⟨.nameNew ⟨"c", 0⟩, resolveCommand_payload (.nameNew ⟨"c", 0⟩), rfl⟩

/-- The first block of a chain whose target is the hash of the block. -/
def shortKeyBlock : Block := blockAt plainEnv 0 none [shortKeyTx] 0

def shortKeyChain : NamecoinChain := emptyChain (workOf plainEnv shortKeyBlock) 0

theorem header_shortKeyBlock : validateBlockHeader plainEnv shortKeyChain.headHeight
      (cloneBytes shortKeyChain.headHash)
    shortKeyBlock shortKeyChain.powTarget = .ok () :=
  (nextBlock_blockOn (c := shortKeyChain) (by simp [shortKeyTx, shortKeyTxOf])
    (le_refl _)).validateBlockHeader

/-- One transaction, alone, in a message and in a block, with a key of one byte. -/
theorem short_key_panics : Panics (verifyTxAuth plainEnv shortKeyTx shortKeyTx.txID) ∧
    Panics (validateTransaction plainEnv newState shortKeyTx) ∧
    Panics (shortKeyChain.applyBlock plainEnv [.mem ∅] shortKeyBlock) := by
  refine ⟨verifyTxAuth_panics_iff.mpr ⟨labelled_shortKeyTx, badKey_shortKeyTx⟩,
    validateTransaction_panics_iff.mpr ⟨badKey_shortKeyTx, ?_, rfl⟩,
    applyBlock_panics_iff.mpr ⟨header_shortKeyBlock, [], shortKeyTx, [], _, rfl, .nil _,
    badTurn_shortKeyTx⟩⟩
  exact checkSpendPlan_ok_iff.mpr ⟨some [], some [], rfl, rfl, rfl⟩

theorem not_badKey_walletTx (k : Signer E) (cmd : NamecoinCommand) (amount : UInt64) (ins : List TxInput)
    (outs : List TxOutput) : ¬ BadKey E (walletTx k cmd amount ins outs) := by
  rintro ⟨key, hkey, hlen, -⟩
  have hpk := (hexDecode_hexEncode k.pk).symm.trans hkey
  rw [← Option.some.inj hpk] at hlen
  exact hlen k.pk_length

/-- A wallet that pays for a commitment with its coin makes no node panic. -/
theorem wallet_key_passes : ∃ (E : Env) (st : NamecoinState) (tx : Tx), tx.type = "NameNew" ∧
    tx.amount = 1 ∧ checkSpendPlan st tx = .ok () ∧ buildTransactionID E tx = .ok tx.txID ∧
    ¬ Panics (verifyTxAuth E tx tx.txID) ∧
      ¬ Panics (validateTransaction E st tx) := by
  let k := plainSigner 7
  let tx := walletTx k (.nameNew ⟨"c", 0⟩) 1 [⟨"", 0⟩] []
  have hkey : ¬ BadKey plainEnv tx := not_badKey_walletTx k _ _ _ _
  have hplan : checkSpendPlan (oneCoin k.address 1) tx = .ok () :=
    checkSpendPlan_walletTx (spendPlan_oneCoin (by decide))
  refine ⟨plainEnv, oneCoin k.address 1, tx, rfl, rfl, hplan,
    buildTransactionID_walletTx k _ _ _ _, ?_, ?_⟩
  · exact ((panics_iff plainEnv).1 tx tx.txID).mpr fun h => hkey h.2
  · exact ((panics_iff plainEnv).2.1 _ tx).mpr fun h => hkey h.1

end Namecoin.Node.Crashes
