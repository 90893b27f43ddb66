import Namecoin.State.Fresh
import Namecoin.State.SpendPlan

/-! # How the supply moves

A `Reward` adds what it pays, and every other transaction removes what its inputs exceed its
outputs by, its `burned` amount. Over a whole block (`supply_freshRun`) the supply moves by the
rewards and the burned amounts of the transactions that take effect. Both are written in terms of
the state before the block and the block alone: `coinAmount` finds the amount of an input there or
among the outputs of the block. -/

namespace Namecoin.State.Supply

open Lib.Maps Lib.Ops Types.Defs State.Defs State.Utxo State.Commands State.Effects State.Invariant
open State.Fresh State.SpendPlan

variable {E : Env} {txID : String} {tx : Tx} {s s' c : NamecoinState} {u : Unit}

/-! ### The coin effects -/

theorem supply_appendAll : ∀ {outs : List TxOutput} {s s' : NamecoinState},
    forList (fun value => appendUTXO ⟨txID, value.toAddr, value.amount, 0⟩) outs s = .ok u s' →
    supply s' = supply s + outputSum outs
  | [], s, s', h => by cases h; simp [outputSum]
  | o :: outs, s, s', h => by
    obtain ⟨s₁, h1, h2⟩ := forList_cons_ok.mp h
    obtain ⟨hfresh, rfl⟩ := appendUTXO_ok_iff.mp h1
    rw [supply_appendAll h2, supply_withUTXO hfresh]
    simp only [outputSum, List.map_cons, List.sum_cons]
    omega

theorem supply_generic (h : applyUTXOGeneric txID tx s = .ok u s') :
    supply s' + amountsAt (account s tx.fromAddr) ((elems tx.inputs).map TxInput.txID) =
      supply s + outputSum (elems tx.outputs) := by
  obtain ⟨_, s₁, h1, h2⟩ := bind_ok_iff.mp h
  rw [supply_appendAll h2]
  unfold burnInputs at h1
  split_ifs at h1 with hnil
  · cases h1
    simp [hnil, amountsAt]
  · have := supply_burn h1
    omega

theorem supply_reward (h : coinEffect txID tx .reward s = .ok u s') :
    supply s' = supply s + outputSum (payouts tx .reward) := by
  obtain ⟨hfresh, rfl⟩ := appendUTXO_ok_iff.mp h
  rw [supply_withUTXO hfresh]
  simp [outputSum, payouts]

theorem supply_names (h : NamesOnly s s') : supply s' = supply s := by
  unfold supply; rw [h.coins]

@[simp] theorem supply_markAsApplied (txID : String) (s : NamecoinState) :
    supply (markAsApplied txID s) = supply s := rfl

/-! ### One transaction -/

/-- The command of a transaction is `Reward`. -/
def isReward (tx : Tx) : Prop := tx.type = "Reward"

instance (tx : Tx) : Decidable (isReward tx) := by unfold isReward; infer_instance

theorem supply_freshStep_reward (hR : isReward tx) (h : FreshStep E txID tx s s') :
    supply s' = supply s + outputSum (payouts tx .reward) := by
  obtain ⟨cmd, c, hcmd, -, hc, s₁, hn, rfl⟩ := freshStep_cases h
  rw [resolveCommand_reward_iff.mpr hR] at hcmd
  cases hcmd
  rw [supply_markAsApplied, supply_names (NameEffect.namesOnly hn), supply_reward hc]

theorem supply_freshStep_user (hR : ¬ isReward tx) (h : FreshStep E txID tx s s') :
    supply s' + amountsAt (account s tx.fromAddr) ((elems tx.inputs).map TxInput.txID) =
        supply s + outputSum (elems tx.outputs) ∧
      CanonicalSpend s tx.fromAddr tx.amount (elems tx.inputs) (elems tx.outputs) := by
  obtain ⟨cmd, c, hcmd, hv, hc, s₁, hn, rfl⟩ := freshStep_cases h
  obtain ⟨-, -, -, -, hplan, -⟩ := (validateTxStrict_user_iff hR).mp hv
  obtain ⟨ins, outs, hp, hins, houts⟩ := checkSpendPlan_ok_iff.mp hplan
  have hg : applyUTXOGeneric txID tx s = .ok () c := by
    cases cmd
    case reward => exact absurd (resolveCommand_reward_iff.mp hcmd) hR
    all_goals exact hc
  rw [supply_markAsApplied, supply_names (NameEffect.namesOnly hn), hins, houts]
  refine ⟨?_, spendPlan_ok hp⟩
  have := supply_generic hg
  rwa [hins, houts] at this

/-! ### The transactions of a block -/

/-- The outputs of a transaction of the given type. -/
def txPayouts (tx : Tx) : List TxOutput := if isReward tx then payouts tx .reward else elems tx.outputs

/-- The amount of the coin `txID` of `addr`: that of the state before the block,
or what the block pays. -/
def coinAmount (st : NamecoinState) (fresh : List (String × Tx)) (addr txID : String) : ℕ :=
  if txID ∈ account st addr then weightAt (fun u : UTXO => u.amount.toNat) (account st addr) txID
  else ((fresh.filter fun e => e.1 = txID).map fun e =>
    outputSum ((txPayouts e.2).filter fun o => o.toAddr = addr)).sum

/-- What the inputs of a transaction are worth. -/
def spent (st : NamecoinState) (fresh : List (String × Tx)) (tx : Tx) : ℕ :=
  ((elems tx.inputs).map fun i => coinAmount st fresh tx.fromAddr i.txID).sum

/-- What the rewards among some transactions pay. -/
def rewardsOf : List (String × Tx) → ℕ
  | [] => 0
  | e :: rest => (if isReward e.2 then outputSum (payouts e.2 .reward) else 0) + rewardsOf rest

/-- What the other transactions remove: inputs less outputs. -/
def burnedOf (st : NamecoinState) (fresh : List (String × Tx)) : List (String × Tx) → ℕ
  | [] => 0
  | e :: rest =>
    (if isReward e.2 then 0 else spent st fresh e.2 - outputSum (elems e.2.outputs)) +
      burnedOf st fresh rest

/-- Every coin of the state is worth what `coinAmount` says. -/
def Valued (st : NamecoinState) (fresh : List (String × Tx)) (s : NamecoinState) : Prop :=
  ∀ addr t u, (account s addr).lookup t = some u → u.amount.toNat = coinAmount st fresh addr t

theorem valued_start (st : NamecoinState) (fresh : List (String × Tx)) : Valued st fresh st := by
  intro addr t u h
  rw [coinAmount, if_pos (Finmap.mem_of_lookup_eq_some h), weightAt_of_lookup h]

theorem filter_eq_of_nodup {txID : String} {tx : Tx} : ∀ {fresh : List (String × Tx)},
    (fresh.map Prod.fst).Nodup → (txID, tx) ∈ fresh → fresh.filter (fun e => e.1 = txID) = [(txID, tx)]
  | [], _, h => by simp at h
  | e :: rest, hnd, h => by
    rw [List.map_cons, List.nodup_cons] at hnd
    rcases List.mem_cons.mp h with rfl | h
    · rw [List.filter_cons_of_pos (by simp), List.filter_eq_nil_iff.mpr]
      intro e' he' heq
      exact hnd.1 (List.mem_map.mpr ⟨e', he', by simpa using heq⟩)
    · have hne : e.1 ≠ txID := fun heq => hnd.1 (List.mem_map.mpr ⟨_, h, heq.symm⟩)
      rw [List.filter_cons_of_neg (by simpa using hne), filter_eq_of_nodup hnd.2 h]

theorem coinAmount_output {st : NamecoinState} {fresh : List (String × Tx)} {o : TxOutput}
    (hw : WellFormed st) (hnd : (fresh.map Prod.fst).Nodup) (hmem : (txID, tx) ∈ fresh)
    (hnew : txID ∉ st.txMap) (hone : (txPayouts tx).length ≤ 1) (ho : o ∈ txPayouts tx) :
    coinAmount st fresh o.toAddr txID = o.amount.toNat := by
  have hout : txPayouts tx = [o] := by
    obtain ⟨o', ho'⟩ := List.length_eq_one_iff.mp (le_antisymm hone (List.length_pos_of_mem ho))
    rw [ho'] at ho ⊢
    rw [List.mem_singleton.mp ho]
  rw [coinAmount, if_neg fun h => hnew (hw.coins _ _ h), filter_eq_of_nodup hnd hmem]
  simp [hout, outputSum]

theorem txPayouts_eq {cmd : NamecoinCommand} (hcmd : resolveCommand tx.type tx.payload = .ok cmd) :
    txPayouts tx = payouts tx cmd := by
  unfold txPayouts
  split_ifs with hR
  · rw [resolveCommand_reward_iff.mpr hR] at hcmd
    cases hcmd
    rfl
  · cases cmd
    case reward => exact absurd (resolveCommand_reward_iff.mp hcmd) hR
    all_goals rfl

theorem txPayouts_length (h : FreshStep E txID tx s s') : (txPayouts tx).length ≤ 1 := by
  obtain ⟨cmd, c, -, hv, -⟩ := freshStep_cases h
  unfold txPayouts
  split_ifs with hR
  · simp [payouts]
  · exact ((validateTxStrict_user_iff hR).mp hv).2.2.1

theorem Valued.freshStep {st : NamecoinState} {fresh : List (String × Tx)} (hv : Valued st fresh s)
    (hw : WellFormed st) (hnd : (fresh.map Prod.fst).Nodup) (hmem : (txID, tx) ∈ fresh)
    (hnew : txID ∉ st.txMap) (h : FreshStep E txID tx s s') : Valued st fresh s' := by
  intro addr t u hu
  obtain ⟨cmd, c, hcmd, -, hc, s₁, hn, rfl⟩ := freshStep_cases h
  have hacc : account (markAsApplied txID s₁) addr = account c addr := by
    unfold account; rw [← (NameEffect.namesOnly hn).coins]; rfl
  rw [hacc] at hu
  rcases ((coinEffect_paid txID tx cmd).ok hc).coins addr t u hu with hu | ⟨rfl, ho⟩
  · exact hv addr t u hu
  · rw [← txPayouts_eq hcmd] at ho
    exact (coinAmount_output hw hnd hmem hnew (txPayouts_length h) ho).symm

theorem amountsAt_eq_spent {st : NamecoinState} {fresh : List (String × Tx)} (hv : Valued st fresh s)
    (hown : ∀ t ∈ (elems tx.inputs).map TxInput.txID, t ∈ account s tx.fromAddr) :
    amountsAt (account s tx.fromAddr) ((elems tx.inputs).map TxInput.txID) = spent st fresh tx := by
  unfold amountsAt spent
  rw [List.map_map]
  refine congrArg List.sum (List.map_congr_left fun i hi => ?_)
  obtain ⟨u, hu⟩ := Finmap.mem_iff.mp (hown i.txID (List.mem_map_of_mem hi))
  rw [Function.comp_apply, weightAt_of_lookup hu, hv _ _ _ hu]

/-- **The supply over a block**: up by the rewards, down by what the other transactions burn. -/
theorem supply_freshRun {st : NamecoinState} {fresh : List (String × Tx)} (hw : WellFormed st)
    (hnd : (fresh.map Prod.fst).Nodup) (hnew : ∀ e ∈ fresh, e.1 ∉ st.txMap) {rest : List (String × Tx)}
    (h : FreshRun E rest s s') : (∀ e ∈ rest, e ∈ fresh) → Valued st fresh s →
    supply s' + burnedOf st fresh rest = supply s + rewardsOf rest := by
  induction h with
  | nil => intros; rfl
  | @cons txID tx rest s s₁ s' _ hf _ ih =>
    intro hsub hv
    have hmem := hsub (txID, tx) List.mem_cons_self
    have ih := ih (fun e he => hsub e (List.mem_cons_of_mem _ he))
      (hv.freshStep hw hnd hmem (hnew _ hmem) hf)
    rw [rewardsOf, burnedOf]
    dsimp only
    split_ifs with hR
    · have := supply_freshStep_reward hR hf
      omega
    · obtain ⟨hmove, hplan⟩ := supply_freshStep_user hR hf
      have hcov := hplan.covered
      rw [amountsAt_eq_spent hv hplan.owned] at hmove hcov
      omega

end Namecoin.State.Supply
