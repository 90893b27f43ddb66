import Namecoin.State.Strict

/-! # What a transaction does

Inversion of the operations of `Commands` and `Strict`, once and for all: later modules work with the
relations defined here and do not unfold the operations.

* `NameEffect`: what each command does to names and commitments; `coinEffect`: what it does to coins.
* `FreshStep`: a transaction that is not yet applied passes the strict checks and has its effects.
* `StrictRun`: the transactions of a block in order; `applyBlockStrict_ok_iff` says that a block is
  applied exactly when there is such a run. -/

namespace Namecoin.State.Effects

open Lib.Ops Types.Defs Types.TxCodec State.Defs State.Utxo State.Commands State.Strict

variable {E : Env}
variable {st : NamecoinState} {s s' : NamecoinState} {tx : Tx} {txID : String} {u : Unit}

/-! ### Coins -/

/-- What a command does to the coins: `Reward` pays, the others spend. -/
def coinEffect (txID : String) (tx : Tx) : NamecoinCommand → StateOp Unit
  | .reward => Reward.applyUTXO txID tx
  | _ => applyUTXOGeneric txID tx

/-- The outputs a transaction creates: those it lists, and for a `Reward` the first, or without one the
amount for the sender. -/
def payouts (tx : Tx) : NamecoinCommand → List TxOutput
  | .reward => [(elems tx.outputs).headD ⟨tx.fromAddr, tx.amount⟩]
  | _ => elems tx.outputs

/-- Only the coins change. -/
def CoinsOnly (s s' : NamecoinState) : Prop :=
  s' = { s with utxoMap := s'.utxoMap, nextUTXOSeq := s'.nextUTXOSeq }

instance : Std.Refl CoinsOnly := ⟨fun _ => rfl⟩

instance : IsTrans NamecoinState CoinsOnly :=
  ⟨fun s₁ s₂ s₃ h1 h2 => by unfold CoinsOnly at *; rw [h2, h1]⟩

theorem burnUTXO_coinsOnly (fromAddr : String) (txIDs : List String) :
    Moves CoinsOnly (burnUTXO fromAddr txIDs) := fun s => by
  cases h : burnUTXO fromAddr txIDs s with
  | ok u s' => obtain ⟨-, -, -, rfl⟩ := burnUTXO_ok_iff.mp h; rfl
  | error e s' => obtain rfl := burnUTXO_error h; rfl

theorem appendUTXO_coinsOnly (utxo : UTXO) : Moves CoinsOnly (appendUTXO utxo) := fun s => by
  rw [appendUTXO_run]
  split_ifs <;> rfl

theorem applyUTXOGeneric_coinsOnly (txID : String) (tx : Tx) :
    Moves CoinsOnly (applyUTXOGeneric txID tx) := by
  unfold applyUTXOGeneric
  refine .bind ?_ fun _ => .forList fun _ _ => appendUTXO_coinsOnly _
  exact .ite (.pure _) (burnUTXO_coinsOnly _ _)

theorem coinEffect_coinsOnly (txID : String) (tx : Tx) (cmd : NamecoinCommand) :
    Moves CoinsOnly (coinEffect txID tx cmd) := by
  cases cmd
  case reward => exact appendUTXO_coinsOnly _
  all_goals exact applyUTXOGeneric_coinsOnly txID tx

/-! ### Names and commitments -/

/-- The record a `NameFirstUpdate` writes, for a commitment with the given lifetime. -/
def firstRecord (n : NameFirstUpdate) (tx : Tx) (ttl : UInt64) (st : NamecoinState) : NameRecord :=
  ⟨tx.fromAddr, n.ip, n.domain, n.salt, st.currentHeight + effectiveTTL st
    (resolveTTLPreference n.ttl ttl)⟩

@[simp] theorem firstRecord_domain (n : NameFirstUpdate) (tx : Tx) (ttl : UInt64) (st : NamecoinState) :
    (firstRecord n tx ttl st).domain = n.domain := rfl

/-- What a command does to names and commitments after its coin effect. -/
inductive NameEffect (E : Env) (txID : String) (tx : Tx) :
    NamecoinCommand → NamecoinState → NamecoinState → Prop
  | nameNew (n : NameNew) (c : NamecoinState) :
    NameEffect E txID tx (.nameNew n) c (setCommitment (outpointKey txID 0) n.commitment
      (if n.ttl = 0 then defaultDomainTTLBlocks else n.ttl) c.currentHeight c)
  | nameFirstUpdate (n : NameFirstUpdate) (c : NamecoinState) (r : CommitmentRecord) (key : String) :
    n.resolveCommitment E (dropExpired n.domain c) tx = .ok (r, key) →
    n.domain ∉ (dropExpired n.domain c).domains → n.domain ∉ (dropExpired n.domain c).claimedDomains →
    NameEffect E txID tx (.nameFirstUpdate n) c (deleteCommitment key
      (setDomain (firstRecord n tx r.ttl (dropExpired n.domain c)) (dropExpired n.domain c)))
  | nameUpdate (n : NameUpdate) (c : NamecoinState) (r : NameRecord) :
    c.domains.lookup n.domain = some r → ¬ isExpired r c.currentHeight →
    NameEffect E txID tx (.nameUpdate n) c (setDomain (n.updated c r) c)
  | reward (c : NamecoinState) : NameEffect E txID tx .reward c c

theorem nameFirstUpdate_ok_iff (txID : String) {n : NameFirstUpdate} : n.applyState E tx s = .ok u s' ↔
    NameEffect E txID tx (.nameFirstUpdate n) s s' := by
  unfold NameFirstUpdate.applyState
  rw [modify_bind_run, get_bind_run, bind_ok_iff]
  constructor
  · rintro ⟨⟨r, key⟩, s₁, h1, h2⟩
    obtain ⟨hr, rfl⟩ := check_ok_iff.mp h1
    dsimp only at h2
    split_ifs at h2 with hd
    · simp at h2
    · rw [not_or] at hd
      cases h2
      exact .nameFirstUpdate n s r key hr hd.1 hd.2
  · intro h
    cases h with
    | nameFirstUpdate _ _ r key hr hd hc =>
      refine ⟨(r, key), _, check_ok_iff.mpr ⟨hr, rfl⟩, ?_⟩
      dsimp only
      rw [if_neg (not_or.mpr ⟨hd, hc⟩)]
      rfl

theorem nameUpdate_ok_iff (txID : String) (tx : Tx) {n : NameUpdate} :
    n.applyState s = .ok u s' ↔ NameEffect E txID tx (.nameUpdate n) s s' := by
  unfold NameUpdate.applyState
  rw [get_bind_run]
  constructor
  · intro h
    cases hr : s.domains.lookup n.domain with
    | none => simp [hr] at h
    | some r =>
      simp only [hr] at h
      split_ifs at h with he
      · simp at h
      · cases h; exact .nameUpdate n s r hr he
  · intro h
    cases h with
    | nameUpdate _ _ r hr he => rw [hr]; dsimp only; rw [if_neg he]; rfl

/-- Both effects of a transaction, as the loops over a block run them. -/
def applyCommands (E : Env) (txID : String) (tx : Tx) : StateOp Unit := do
  applyCommandUTXO txID tx
  applyCommandState E tx

theorem applyCommands_congr (txID : String) {a b : Tx}
    (hcmd : resolveCommand a.type a.payload = resolveCommand b.type b.payload)
    (hfrom : a.fromAddr = b.fromAddr) (ham : a.amount = b.amount) (hin : elems a.inputs = elems b.inputs)
    (hout : elems a.outputs = elems b.outputs) :
    applyCommands E txID a = applyCommands E txID b := by
  have hgen : applyUTXOGeneric txID a = applyUTXOGeneric txID b := by
    unfold applyUTXOGeneric
    rw [hfrom, hin, hout]
  unfold applyCommands applyCommandUTXO applyCommandState
  rw [hcmd]
  cases resolveCommand b.type b.payload with
  | error e => rfl
  | ok cmd =>
    rw [check_ok, pure_bind, pure_bind, pure_bind, pure_bind]
    cases cmd with
    | nameNew n =>
      simp only [NamecoinCommand.applyUTXO, NamecoinCommand.applyState, NameNew.applyUTXO, hgen]
    | nameFirstUpdate n =>
      simp only [NamecoinCommand.applyUTXO, NamecoinCommand.applyState, NameFirstUpdate.applyState,
        NameFirstUpdate.resolveCommitment, hgen, hin, hfrom]
    | nameUpdate n => simp only [NamecoinCommand.applyUTXO, NamecoinCommand.applyState, hgen]
    | reward =>
      simp only [NamecoinCommand.applyUTXO, NamecoinCommand.applyState, Reward.applyUTXO,
        hout, hfrom, ham]

/-- **The effects of a transaction**: the payload is that of a command, the coins move, then the names. -/
theorem applyCommands_ok_iff :
    applyCommands E txID tx s = .ok u s' ↔ ∃ cmd c, resolveCommand tx.type tx.payload = .ok cmd ∧
      coinEffect txID tx cmd s = .ok () c ∧ NameEffect E txID tx cmd c s' := by
  unfold applyCommands applyCommandUTXO applyCommandState
  cases hr : resolveCommand tx.type tx.payload with
  | error e => simp [bind_ok_iff]
  | ok cmd =>
    simp only [check_ok, pure_bind, Except.ok.injEq, exists_and_left, exists_eq_left']
    rw [bind_ok_iff]
    cases cmd with
    | nameNew n =>
      simp only [NamecoinCommand.applyUTXO, NameNew.applyUTXO, NamecoinCommand.applyState, coinEffect]
      constructor
      · rintro ⟨_, s₁, h1, h2⟩
        obtain ⟨_, c, hc, h3⟩ := bind_ok_iff.mp h1
        cases h3; cases h2
        exact ⟨c, hc, .nameNew n c⟩
      · rintro ⟨c, hc, hn⟩
        cases hn
        exact ⟨(), _, bind_ok_iff.mpr ⟨(), c, hc, rfl⟩, rfl⟩
    | nameFirstUpdate n =>
      simp only [NamecoinCommand.applyUTXO, NamecoinCommand.applyState, coinEffect,
        nameFirstUpdate_ok_iff txID]
      exact ⟨fun ⟨_, c, hc, hn⟩ => ⟨c, hc, hn⟩, fun ⟨c, hc, hn⟩ => ⟨(), c, hc, hn⟩⟩
    | nameUpdate n =>
      simp only [NamecoinCommand.applyUTXO, NamecoinCommand.applyState, coinEffect,
        nameUpdate_ok_iff (E := E) txID tx]
      exact ⟨fun ⟨_, c, hc, hn⟩ => ⟨c, hc, hn⟩, fun ⟨c, hc, hn⟩ => ⟨(), c, hc, hn⟩⟩
    | reward =>
      simp only [NamecoinCommand.applyUTXO, NamecoinCommand.applyState, coinEffect]
      constructor
      · rintro ⟨_, c, hc, h2⟩
        obtain ⟨-, rfl⟩ : u = () ∧ c = s' := by cases h2; exact ⟨rfl, rfl⟩
        exact ⟨c, hc, .reward c⟩
      · rintro ⟨c, hc, hn⟩
        cases hn
        exact ⟨(), s', hc, rfl⟩

/-! ### The checks -/

theorem resolveCommand_reward_iff {type : String} {payload : RawMessage} :
    resolveCommand type payload = .ok .reward ↔ type = "Reward" := by
  have hmap : ∀ {α : Type} (x : Except Err α) (f : α → NamecoinCommand), (∀ a, f a ≠ .reward) →
      x.map f ≠ .ok .reward := by
    intro α x f hf h
    cases x with
    | error e => cases h
    | ok a => exact hf a (Except.ok.inj h)
  unfold resolveCommand
  split_ifs with h1 h2 h3 h4
  · simp [h1, hmap]
  · simp [h2, hmap]
  · simp [h3, hmap]
  · simp [h4]
  · simp [h4]

theorem resolveCommand_nameUpdate {type : String} {payload : RawMessage} {n : NameUpdate}
    (h : resolveCommand type payload = .ok (.nameUpdate n)) : type = "NameUpdate" := by
  have hmap : ∀ {α : Type} (x : Except Err α) (f : α → NamecoinCommand), (∀ a, f a ≠ .nameUpdate n) →
      x.map f ≠ .ok (.nameUpdate n) := by
    intro α x f hf h
    cases x with
    | error e => cases h
    | ok a => exact hf a (Except.ok.inj h)
  unfold resolveCommand at h
  split_ifs at h with h1 h2 h3
  · exact absurd h (hmap _ _ (by simp))
  · exact absurd h (hmap _ _ (by simp))
  · exact h3
  · simp at h

theorem validateCommand_ok_iff :
    validateCommand st tx = .ok u ↔ ∃ cmd, resolveCommand tx.type tx.payload = .ok cmd ∧
      cmd.validate st tx = .ok u := except_bind_ok_iff

theorem validateCommandWithInputs_ok_iff :
    validateCommandWithInputs E st tx = .ok u ↔ ∃ cmd, resolveCommand tx.type tx.payload = .ok cmd ∧
      cmd.validateWithInputs E st tx = .ok u := except_bind_ok_iff

theorem validateCommand_eq {cmd : NamecoinCommand}
    (hcmd : resolveCommand tx.type tx.payload = .ok cmd) :
    validateCommand st tx = cmd.validate st tx := by
  unfold validateCommand
  rw [hcmd]
  rfl

theorem validateCommandWithInputs_eq {cmd : NamecoinCommand}
    (hcmd : resolveCommand tx.type tx.payload = .ok cmd) :
    validateCommandWithInputs E st tx = cmd.validateWithInputs E st tx := by
  unfold validateCommandWithInputs
  rw [hcmd]
  rfl

theorem checkIndices_ok_iff : ∀ {l : List TxInput},
    checkIndices l = .ok u ↔ ∀ i ∈ l, i.index = 0
  | [] => by simp [checkIndices]
  | i :: l => by
    rw [checkIndices]
    split_ifs with h
    · simp [h]
    · simp [checkIndices_ok_iff, not_not.mp h]

theorem checkSpendPlan_ok_iff :
    checkSpendPlan st tx = .ok u ↔ ∃ ins outs, deterministicSpendPlan st tx.fromAddr tx.amount =
      .ok (ins, outs) ∧ elems tx.inputs = elems ins ∧ elems tx.outputs = elems outs := by
  unfold checkSpendPlan
  rw [except_bind_ok_iff]
  simp only [Prod.exists, except_seq_ok_iff, failIf_ok_iff, not_not]
  rfl

/-- The transaction is signed by the key its sender is the hash of. -/
def Authentic (E : Env) (tx : Tx) : Prop :=
  ∃ pubKeyBytes preimage, decodeHex tx.pk = some pubKeyBytes ∧ tx.fromAddr = hashHex E pubKeyBytes ∧
    serializeTransactionSignature E tx = .ok preimage ∧
    verifySignature E pubKeyBytes preimage tx.signature = .ok ()

theorem verifyTxAuth_ok_iff :
    verifyTxAuth E tx txID = .ok u ↔ tx.pk ≠ "" ∧ tx.signature ≠ "" ∧ tx.txID ≠ "" ∧ tx.txID = txID ∧
      Authentic E tx := by
  unfold verifyTxAuth Authentic
  rw [except_seq_ok_iff, except_seq_ok_iff, failIf_ok_iff, failIf_ok_iff]
  simp only [not_or, not_not]
  cases hd : decodeHex tx.pk with
  | none => simp
  | some b =>
    dsimp only
    rw [except_seq_ok_iff, failIf_ok_iff, except_bind_ok_iff]
    simp only [not_not, mapError_ok_iff, Option.some.injEq]
    constructor
    · rintro ⟨⟨h1, h2, h3⟩, h4, h5, p, h6, h7⟩
      exact ⟨h1, h2, h3, h4, b, p, rfl, h5, h6, h7⟩
    · rintro ⟨h1, h2, h3, h4, b', p, rfl, h5, h6, h7⟩
      exact ⟨⟨h1, h2, h3⟩, h4, h5, p, h6, h7⟩

theorem validateTxStrict_reward_iff (h : tx.type = "Reward") : validateTxStrict E st txID tx = .ok u ↔
      (tx.txID = "" ∨ tx.txID = txID) ∧ (elems tx.outputs).length ≤ 1 := by
  have hv : validateCommand st tx = .ok () :=
    validateCommand_ok_iff.mpr ⟨.reward, resolveCommand_reward_iff.mpr h, rfl⟩
  unfold validateTxStrict
  rw [hv, if_pos h, except_seq_ok_iff, except_seq_ok_iff, failIf_ok_iff, failIf_ok_iff]
  simp only [true_and, not_lt, not_and_or, not_not]

theorem validateTxStrict_user_iff (h : tx.type ≠ "Reward") : validateTxStrict E st txID tx = .ok u ↔
      validateCommand st tx = .ok () ∧ verifyTxAuth E tx txID = .ok () ∧ (elems tx.outputs).length ≤ 1 ∧
      (∀ i ∈ elems tx.inputs, i.index = 0) ∧ checkSpendPlan st tx = .ok () ∧
      validateCommandWithInputs E st tx = .ok () := by
  unfold validateTxStrict
  rw [if_neg h]
  simp only [except_seq_ok_iff, failIf_ok_iff, not_lt, checkIndices_ok_iff]

theorem validateTxStrict_command {cmd : NamecoinCommand}
    (hcmd : resolveCommand tx.type tx.payload = .ok cmd) (hv : validateTxStrict E st txID tx = .ok ()) :
    cmd.validate st tx = .ok () ∧ cmd.validateWithInputs E st tx = .ok () := by
  by_cases hR : tx.type = "Reward"
  · rw [resolveCommand_reward_iff.mpr hR] at hcmd
    cases hcmd
    exact ⟨rfl, rfl⟩
  · obtain ⟨hval, -, -, -, -, hins⟩ := (validateTxStrict_user_iff hR).mp hv
    exact ⟨(validateCommand_eq hcmd).symm.trans hval, (validateCommandWithInputs_eq hcmd).symm.trans hins⟩

/-! ### One transaction of a block -/

/-- A transaction that is not yet applied passes the strict checks and has its effects. -/
def FreshStep (E : Env) (txID : String) (tx : Tx) (s s' : NamecoinState) : Prop :=
  validateTxStrict E s txID tx = .ok () ∧ ∃ s₁, applyCommands E txID tx s = .ok () s₁ ∧
    s' = markAsApplied txID s₁

theorem applyTxStrict_ok_iff {i : ℕ} :
    applyTxStrict E i tx s = .ok u s' ↔ ∃ txID, buildTransactionID E tx = .ok txID ∧
      (txID ∈ s.txMap ∧ s' = s ∨ txID ∉ s.txMap ∧ FreshStep E txID tx s s') := by
  unfold applyTxStrict
  cases hb : buildTransactionID E tx with
  | error e => simp [bind_ok_iff]
  | ok txID =>
    simp only [check_ok, pure_bind, Except.ok.injEq, exists_eq_left']
    rw [get_bind_run]
    by_cases ha : isTxApplied s txID
    · rw [if_pos ha]
      have ha' : txID ∈ s.txMap := ha
      simp only [ha', true_and, not_true_eq_false, false_and, or_false, pure_run]
      exact ⟨fun h => by cases h; rfl, fun h => by rw [h]⟩
    · rw [if_neg ha]
      have ha' : txID ∉ s.txMap := ha
      simp only [ha', false_and, not_false_eq_true, true_and, false_or]
      rw [bind_ok_iff]
      unfold FreshStep
      constructor
      · rintro ⟨_, s₁, h1, h2⟩
        obtain ⟨hv, rfl⟩ := check_ok_iff.mp h1
        obtain ⟨_, s₂, h3, h4⟩ := bind_ok_iff.mp h2
        obtain ⟨_, s₃, h5, h6⟩ := bind_ok_iff.mp h4
        cases h6
        exact ⟨mapError_ok_iff.mp hv, s₃, bind_ok_iff.mpr ⟨_, s₂, wrap_ok_iff.mp h3, wrap_ok_iff.mp h5⟩,
          rfl⟩
      · rintro ⟨hv, s₃, h, rfl⟩
        obtain ⟨_, s₂, h3, h5⟩ := bind_ok_iff.mp h
        refine ⟨(), s, check_ok_iff.mpr ⟨mapError_ok_iff.mpr hv, rfl⟩, ?_⟩
        refine bind_ok_iff.mpr ⟨(), s₂, wrap_ok_iff.mpr h3, ?_⟩
        exact bind_ok_iff.mpr ⟨(), s₃, wrap_ok_iff.mpr h5, rfl⟩

/-- The coin a reward creates. -/
def rewardCoin (txID : String) (tx : Tx) : UTXO :=
  let out := (elems tx.outputs).headD ⟨tx.fromAddr, tx.amount⟩
  ⟨txID, out.toAddr, out.amount, 0⟩

theorem freshStep_reward {s : NamecoinState} (hR : tx.type = "Reward")
    (hid : tx.txID = "" ∨ tx.txID = txID) (hone : (elems tx.outputs).length ≤ 1)
    (hnew : txID ∉ account s (rewardCoin txID tx).toAddr) :
    FreshStep E txID tx s (markAsApplied txID (withUTXO (rewardCoin txID tx) s)) := by
  refine ⟨(validateTxStrict_reward_iff hR).mpr ⟨hid, hone⟩, _, applyCommands_ok_iff.mpr ?_, rfl⟩
  exact ⟨.reward, _, resolveCommand_reward_iff.mpr hR, appendUTXO_ok_iff.mpr ⟨hnew, rfl⟩, .reward _⟩

/-! ### The transactions of a block -/

/-- The transactions of a block, in order: those already applied are skipped. -/
inductive StrictRun (E : Env) : List Tx → NamecoinState → NamecoinState → Prop
  | nil (s : NamecoinState) : StrictRun E [] s s
  | skip {tx : Tx} {txs : List Tx} {txID : String} {s s' : NamecoinState} :
    buildTransactionID E tx = .ok txID → txID ∈ s.txMap → StrictRun E txs s s' →
    StrictRun E (tx :: txs) s s'
  | fresh {tx : Tx} {txs : List Tx} {txID : String} {s s₁ s' : NamecoinState} :
    buildTransactionID E tx = .ok txID → txID ∉ s.txMap → FreshStep E txID tx s s₁ →
    StrictRun E txs s₁ s' → StrictRun E (tx :: txs) s s'

theorem forList_applyTxStrict_ok_iff : ∀ {txs : List Tx} {s s' : NamecoinState} {u : Unit},
    forList (applyTxStrict E 0) txs s = .ok u s' ↔ StrictRun E txs s s'
  | [], s, s', u => by
    rw [forList, pure_run]
    constructor
    · intro h; cases h; exact .nil s
    · intro h; cases h; rfl
  | tx :: txs, s, s', u => by
    rw [forList_cons_ok]
    constructor
    · rintro ⟨s₁, h1, h2⟩
      obtain ⟨txID, hb, ⟨ha, rfl⟩ | ⟨ha, hf⟩⟩ := applyTxStrict_ok_iff.mp h1
      · exact .skip hb ha (forList_applyTxStrict_ok_iff.mp h2)
      · exact .fresh hb ha hf (forList_applyTxStrict_ok_iff.mp h2)
    · intro h
      cases h with
      | skip hb ha hr =>
        exact ⟨s, applyTxStrict_ok_iff.mpr ⟨_, hb, .inl ⟨ha, rfl⟩⟩, forList_applyTxStrict_ok_iff.mpr hr⟩
      | fresh hb ha hf hr =>
        exact ⟨_, applyTxStrict_ok_iff.mpr ⟨_, hb, .inr ⟨ha, hf⟩⟩, forList_applyTxStrict_ok_iff.mpr hr⟩

/-- The state a block of the given height starts from. -/
def atHeight (h : UInt64) (s : NamecoinState) : NamecoinState := pruneExpired h (setHeight h s)

/-- **A block is applied** exactly when its transactions run from the pruned state. -/
theorem applyBlockStrict_ok_iff {blk : Block} :
    applyBlockStrict E blk s = .ok u s' ↔
      StrictRun E blk.transactions (atHeight blk.header.height s) s' := by
  unfold applyBlockStrict
  rw [modify_bind_run, modify_bind_run, forIdx_ok_iff (g := applyTxStrict E 0)]
  · exact forList_applyTxStrict_ok_iff
  · intro i x s s' u
    rw [applyTxStrict_ok_iff, applyTxStrict_ok_iff]

end Namecoin.State.Effects
