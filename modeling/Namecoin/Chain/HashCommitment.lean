import Namecoin.Chain.Registration

/-! # What the hash of a block commits to

The hash covers the header, and the header the transaction root. The root writes a nil list like an
empty one and a payload as a JSON value, whereas the ID of a transaction tells a nil list from an empty
one and a command is read from the text of its payload. Blocks that agree in both, but for transactions
that have been applied already, have one effect (`effect_of_hash`); a reward with no outputs can be
written in two ways that differ in its ID (`nil_outputs`). -/

namespace Namecoin.Chain.HashCommitment

open Lib.ByteStrings Types.Defs Types.TxCodec Types.BlockCodec Types.SampleEnv State.Defs
open State.Commands State.Strict State.Effects State.Invariant Chain.Pow Chain.Defs Chain.Apply
open Chain.Build Chain.Registration

variable {E : Env}

/-- Two transactions whose lists are nil or not alike, and whose payloads are read as the same command. -/
structure SameReading (a b : Tx) : Prop where
  inputs : a.inputs = none ↔ b.inputs = none
  outputs : a.outputs = none ↔ b.outputs = none
  command : resolveCommand a.type a.payload = resolveCommand b.type b.payload

theorem slice_ext {α : Type} {a b : Slice α} (hnil : a = none ↔ b = none) (h : elems a = elems b) :
    a = b := by
  cases a with
  | none => exact (hnil.mp rfl).symm
  | some xs => cases b with
    | none => exact absurd (hnil.mpr rfl) (Option.some_ne_none xs)
    | some ys => exact congrArg some h

theorem buildTransactionID_of_root {a b : Tx} (h : SameForRoot a b) (hr : SameReading a b) :
    buildTransactionID E a = buildTransactionID E b := by
  have hin := slice_ext hr.inputs h.inputs
  have hout := slice_ext hr.outputs h.outputs
  unfold buildTransactionID serializeTransaction
  rw [h.payload]
  have hmembers : ∀ p, txMembers a p = txMembers b p := fun p => by
    unfold txMembers
    rw [h.amount, h.fromAddr, hin, hout, h.type]
  simp only [hmembers]

theorem freshStep_unique {a b : Tx} {txID : String} {s s₁ s₂ : NamecoinState} (h : SameForRoot a b)
    (hr : SameReading a b) (h₁ : FreshStep E txID a s s₁) (h₂ : FreshStep E txID b s s₂) : s₁ = s₂ := by
  obtain ⟨-, t₁, ha, rfl⟩ := h₁
  obtain ⟨-, t₂, hb, rfl⟩ := h₂
  rw [applyCommands_congr txID hr.command h.fromAddr h.amount h.inputs h.outputs, hb] at ha
  cases ha
  rfl

/-- The state has already applied the transaction. -/
def Skips (E : Env) (s : NamecoinState) (tx : Tx) : Prop :=
  ∃ txID, buildTransactionID E tx = .ok txID ∧ txID ∈ s.txMap

/-- Two spellings of a transaction that make no difference in a state: they are read alike,
or it has applied both. -/
def SameEffect (E : Env) (s : NamecoinState) (a b : Tx) : Prop :=
  SameReading a b ∨ (Skips E s a ∧ Skips E s b)

theorem SameEffect.fresh {a b tx : Tx} {txID : String} {s s' : NamecoinState}
    (hf : FreshStep E txID tx s s') (h : SameEffect E s a b) : SameEffect E s' a b := by
  have hold : ∀ {t : Tx}, Skips E s t → Skips E s' t := fun ⟨id, hid, hmem⟩ => by
    refine ⟨id, hid, ?_⟩
    rw [freshStep_txMap hf]
    exact Finset.mem_insert_of_mem hmem
  exact h.imp id fun ⟨ha, hb⟩ => ⟨hold ha, hold hb⟩

theorem Skips.not_fresh {tx : Tx} {txID : String} {s : NamecoinState} (h : Skips E s tx)
    (hb : buildTransactionID E tx = .ok txID) (hnew : txID ∉ s.txMap) : False := by
  obtain ⟨id, hid, hmem⟩ := h
  cases hb.symm.trans hid
  exact hnew hmem

/-- **The transactions of a block**, in two spellings. -/
theorem strictRun_unique {txs txs' : List Tx} {s s₁ : NamecoinState} (h₁ : StrictRun E txs s s₁) :
    ∀ {s₂ : NamecoinState}, List.Forall₂ SameForRoot txs txs' → List.Forall₂ (SameEffect E s) txs txs' →
      StrictRun E txs' s s₂ → s₁ = s₂ := by
  induction h₁ generalizing txs' with
  | nil s =>
    intro s₂ h _ h₂
    cases h
    cases h₂
    rfl
  | skip hb ha _ ih =>
    intro s₂ h hr h₂
    cases h with
    | cons h hs => cases hr with
      | cons hr hrs => cases h₂ with
        | skip hb' ha' hrest => exact ih hs hrs hrest
        | fresh hb' ha' _ _ =>
          rcases hr with hr | ⟨-, hr⟩
          · rw [buildTransactionID_of_root (E := E) h hr, hb'] at hb
            exact absurd (Except.ok.inj hb ▸ ha) ha'
          · exact (hr.not_fresh hb' ha').elim
  | fresh hb ha hf _ ih =>
    intro s₂ h hr h₂
    cases h with
    | cons h hs => cases hr with
      | cons hr hrs =>
        have hread := hr.resolve_right fun hskip => hskip.1.not_fresh hb ha
        have hid := buildTransactionID_of_root (E := E) h hread
        cases h₂ with
        | skip hb' ha' _ =>
          rw [hid, hb'] at hb
          exact absurd (Except.ok.inj hb ▸ ha') ha
        | fresh hb' ha' hf' hrest =>
          rw [hid, hb'] at hb
          cases hb
          cases freshStep_unique h hread hf hf'
          exact ih hs (hrs.imp fun _ _ => SameEffect.fresh hf) hrest

theorem same_of_hash (hc : E.CollisionFree) (hj : E.CanonicalJson) {b₁ b₂ : Block} {height : UInt64}
    {hash : Slice UInt8} {target : Option ℤ} (hh : computeHash E b₁ = computeHash E b₂)
    (hv₁ : validateBlockHeader E height hash b₁ target = .ok ())
    (hv₂ : validateBlockHeader E height hash b₂ target = .ok ()) :
    b₁.header = b₂.header ∧ List.Forall₂ SameForRoot b₁.transactions b₂.transactions := by
  have hheader : b₁.header = b₂.header := serializeHeader_injective (hc hh)
  obtain ⟨-, -, hroot₁, -⟩ := validateBlockHeader_ok_iff.mp hv₁
  obtain ⟨-, -, hroot₂, -⟩ := validateBlockHeader_ok_iff.mp hv₂
  rw [← hheader] at hroot₂
  exact ⟨hheader, computeTxRoot_inj hc hj hroot₁ hroot₂⟩

/-- **The hash commits to the effect** of a block, as far as nil lists and payload texts
of new transactions go. -/
theorem effect_of_hash (hc : E.CollisionFree) (hj : E.CanonicalJson) {b₁ b₂ : Block} {height : UInt64}
    {hash : Slice UInt8} {target : Option ℤ} {st st₁ st₂ : NamecoinState}
    (hh : computeHash E b₁ = computeHash E b₂)
    (hv₁ : validateBlockHeader E height hash b₁ target = .ok ())
    (hv₂ : validateBlockHeader E height hash b₂ target = .ok ())
    (ha₁ : applyBlockStrict E b₁ st = .ok () st₁) (ha₂ : applyBlockStrict E b₂ st = .ok () st₂)
    (hr : List.Forall₂ (SameEffect E st) b₁.transactions b₂.transactions) : st₁ = st₂ := by
  obtain ⟨hheader, hsame⟩ := same_of_hash hc hj hh hv₁ hv₂
  have h₂ := applyBlockStrict_ok_iff.mp ha₂
  rw [← hheader] at h₂
  refine strictRun_unique (applyBlockStrict_ok_iff.mp ha₁) hsame (hr.imp fun a b h => ?_) h₂
  unfold SameEffect Skips
  rwa [(pruned_rest _ st).2]

/-! ### A reward in two spellings -/

/-- A reward whose outputs are nil or empty. -/
def bareReward (outputs : Slice TxOutput) : Tx := { rewardTx "miner" 1 with outputs := outputs }

/-- The first block of a chain, with such a reward. -/
def bareBlock (E : Env) (target : ℤ) (outputs : Slice TxOutput) : Block :=
  blockOn E (emptyChain target 0) [bareReward outputs] 0

/-- The number both blocks are compared with. -/
def bareTarget (E : Env) : ℤ := workOf E (blockAt E 0 none [bareReward none] 0)

theorem bareBlock_accepted (E : Env) {outputs : Slice TxOutput}
    (ho : outputs = none ∨ outputs = some []) :
    (bareBlock E (bareTarget E) outputs).header = (bareBlock E (bareTarget E) none).header ∧
      validateBlockHeader E 0 none (bareBlock E (bareTarget E) outputs) (some (bareTarget E)) = .ok () ∧
      ∃ txID st, buildTransactionID E (bareReward outputs) = .ok txID ∧
        applyBlockStrict E (bareBlock E (bareTarget E) outputs) newState = .ok () st ∧
        st.txMap = {txID} := by
  have hpay : ∀ tx ∈ [bareReward outputs], tx.payload ≠ .invalid := by simp [bareReward, rewardTx]
  have hlist : elems outputs = [] := by rcases ho with rfl | rfl <;> rfl
  have hheader : (bareBlock E (bareTarget E) outputs).header =
      (bareBlock E (bareTarget E) none).header := by
    rcases ho with rfl | rfl <;> rfl
  refine ⟨hheader, ?_, ?_⟩
  · have hwork : (toNatBE (computeHash E (bareBlock E (bareTarget E) outputs)) : ℤ) ≤
        effectiveTarget (emptyChain (bareTarget E) 0).powTarget := by
      unfold computeHash
      rw [hheader]
      exact le_refl (bareTarget E)
    exact (nextBlock_blockOn hpay hwork).validateBlockHeader
  · obtain ⟨txID, hid⟩ := buildTransactionID_ok (E := E) (hpay _ List.mem_cons_self)
    have hf : FreshStep E txID (bareReward outputs) newState _ :=
      freshStep_reward rfl (.inl rfl) (show (elems outputs).length ≤ 1 by simp [hlist])
        Finmap.notMem_empty
    have hrun : StrictRun E [bareReward outputs] newState _ :=
      .fresh hid (Finset.notMem_empty _) hf (.nil _)
    have hstart : atHeight 0 newState = newState := atHeight_of_no_expires rfl 0
    rw [← hstart] at hrun
    exact ⟨txID, _, hid, applyBlockStrict_ok_iff.mpr hrun, freshStep_txMap hf⟩

/-- **Two blocks of one hash with different effects**: the same reward, with nil
outputs and with empty ones. -/
theorem nil_outputs : ¬ ∀ (E : Env) (st st₁ st₂ : NamecoinState) (b₁ b₂ : Block) (height : UInt64)
    (hash : Slice UInt8) (target : Option ℤ), E.CollisionFree → E.CanonicalJson →
    computeHash E b₁ = computeHash E b₂ → validateBlockHeader E height hash b₁ target = .ok () →
    validateBlockHeader E height hash b₂ target = .ok () → applyBlockStrict E b₁ st = .ok () st₁ →
    applyBlockStrict E b₂ st = .ok () st₂ → st₁ = st₂ := by
  intro hall
  obtain ⟨-, hv₁, i₁, st₁, hid₁, ha₁, ht₁⟩ := bareBlock_accepted plainEnv (.inl rfl)
  obtain ⟨hheader, hv₂, i₂, st₂, hid₂, ha₂, ht₂⟩ := bareBlock_accepted plainEnv (.inr rfl)
  have hhash : computeHash plainEnv (bareBlock plainEnv (bareTarget plainEnv) none) =
      computeHash plainEnv (bareBlock plainEnv (bareTarget plainEnv) (some [])) := by
    unfold computeHash
    rw [hheader]
  have heq := hall plainEnv newState st₁ st₂ _ _ 0 none _ plainEnv_collisionFree
    plainEnv_canonicalJson hhash hv₁ hv₂ ha₁ ha₂
  rw [heq, ht₂, Finset.singleton_inj] at ht₁
  rw [ht₁] at hid₂
  cases (buildTransactionID_inj plainEnv_collisionFree plainEnv_canonicalJson hid₁ hid₂).outputs

/-- The same block with its hash and without. -/
theorem effect_of_hash_settled : ∃ (E : Env) (b₁ b₂ : Block) (st st₁ st₂ : NamecoinState), b₁ ≠ b₂ ∧
    computeHash E b₁ = computeHash E b₂ ∧ applyBlockStrict E b₁ st = .ok () st₁ ∧
    applyBlockStrict E b₂ st = .ok () st₂ ∧ st₁ = st₂ := by
  let blk := bareBlock plainEnv (bareTarget plainEnv) none
  obtain ⟨-, hv, i, st, hid, ha, -⟩ := bareBlock_accepted plainEnv (.inl rfl)
  have hne : blk ≠ settleHash plainEnv blk := fun h => by
    have hhash := congrArg Block.hash h
    rw [settleHash_hash (.inl rfl)] at hhash
    cases hhash
  have ha' : applyBlockStrict plainEnv (settleHash plainEnv blk) newState = .ok () st := by
    rw [applyBlockStrict_ok_iff, settleHash_transactions, settleHash_header]
    exact applyBlockStrict_ok_iff.mp ha
  have hread : List.Forall₂ (SameEffect plainEnv newState) blk.transactions
      (settleHash plainEnv blk).transactions := by
    rw [settleHash_transactions]
    exact .cons (.inl ⟨Iff.rfl, Iff.rfl, rfl⟩) .nil
  have hhash := (computeHash_settleHash (E := plainEnv) blk).symm
  exact ⟨plainEnv, blk, settleHash plainEnv blk, newState, st, st, hne, hhash, ha, ha',
    effect_of_hash plainEnv_collisionFree plainEnv_canonicalJson hhash hv
    (validateBlockHeader_settleHash hv) ha ha' hread⟩

end Namecoin.Chain.HashCommitment
