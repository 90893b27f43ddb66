import Namecoin.State.SpendPlan

/-! # When a transaction applies

The strict checks look at the state before a transaction. They are enough for its effects, with
one exception (`freshStep_exists_iff`): a `NameFirstUpdate` is also refused if its name has
been set in the same block.

A spend plan takes the coins of an account from the oldest on, so coins that are added later do
not change it (`spendPlan_grown`), while spending the first coin makes every plan of the account
a different one (`spendPlan_head`). `Numbered` is what the first needs: coins are numbered in
the order they were added. -/

namespace Namecoin.State.Progress

open Lib.Maps Lib.Ops Types.Defs State.Defs State.Utxo State.Commands State.Strict State.Effects
open State.Invariant State.SpendPlan

variable {E : Env} {txID : String} {tx : Tx} {cmd : NamecoinCommand} {s s' c : NamecoinState}

/-! ### Plans -/

/-- The coins of an address in the order of the plan. -/
def coinsOf (st : NamecoinState) (addr : String) : List UtxoEntry := spendEntries (account st addr)

theorem spendPlan_ok_iff {st : NamecoinState} {addr : String} {amount : UInt64} {ins : Slice TxInput}
    {outs : Slice TxOutput} (h0 : amount ≠ 0) : deterministicSpendPlan st addr amount = .ok (ins, outs) ↔
      amount ≤ (spendLoop amount (coinsOf st addr) 0).2 ∧
      ins = some (spendLoop amount (coinsOf st addr) 0).1 ∧
      outs = some (changeOutputs addr ((spendLoop amount (coinsOf st addr) 0).2 - amount)) := by
  unfold deterministicSpendPlan coinsOf account
  rw [if_neg h0]
  cases st.utxoMap.lookup addr with
  | none =>
    have hle : ¬ amount ≤ 0 := fun h =>
      h0 (UInt64.toNat_inj.mp (Nat.le_zero.mp (UInt64.le_iff_toNat_le.mp h)))
    have hnil : spendEntries (∅ : Map String UTXO) = [] := by
      refine List.eq_nil_iff_forall_not_mem.mpr fun e he => ?_
      obtain ⟨u, hu, -⟩ := mem_spendEntries.mp he
      simp at hu
    simp [hnil, spendLoop, hle]
  | some m =>
    simp only [Option.getD_some]
    split_ifs with hlt
    · simp [UInt64.not_le.mpr hlt]
    · simp only [Except.ok.injEq, Prod.mk.injEq, UInt64.not_lt.mp hlt, true_and]
      exact ⟨fun h => ⟨h.1.symm, h.2.symm⟩, fun h => ⟨h.1.symm, h.2.symm⟩⟩

theorem spendLoop_append {amount : UInt64} {more : List UtxoEntry} :
    ∀ {es : List UtxoEntry} {tot : UInt64}, tot < amount → amount ≤ (spendLoop amount es tot).2 →
    spendLoop amount (es ++ more) tot = spendLoop amount es tot
  | [], tot, hlt, hle => absurd hlt (UInt64.not_lt.mpr hle)
  | e :: es, tot, hlt, hle => by
    rw [List.cons_append, spendLoop, spendLoop]
    dsimp only
    split_ifs with h
    · rfl
    · have hrec : amount ≤ (spendLoop amount es (tot + e.amount)).2 := by
        rw [spendLoop] at hle
        simpa only [if_neg h] using hle
      rw [spendLoop_append (UInt64.not_le.mp h) hrec]

/-- **A plan is kept** when coins are added after the others. -/
theorem spendPlan_grown {addr : String} {amount : UInt64} {ins : Slice TxInput} {outs : Slice TxOutput}
    {more : List UtxoEntry} (hg : coinsOf s' addr = coinsOf s addr ++ more)
    (h : deterministicSpendPlan s addr amount = .ok (ins, outs)) :
    deterministicSpendPlan s' addr amount = .ok (ins, outs) := by
  by_cases h0 : amount = 0
  · unfold deterministicSpendPlan at h ⊢
    rwa [if_pos h0] at h ⊢
  · obtain ⟨hle, hins, houts⟩ := (spendPlan_ok_iff h0).mp h
    have hpos : (0 : UInt64) < amount := UInt64.pos_iff_ne_zero.mpr h0
    rw [spendPlan_ok_iff h0, hg, spendLoop_append hpos hle]
    exact ⟨hle, hins, houts⟩

theorem spendPlan_head {addr : String} {amount : UInt64} {ins : Slice TxInput} {outs : Slice TxOutput}
    (h0 : amount ≠ 0) (h : deterministicSpendPlan s addr amount = .ok (ins, outs)) :
    (elems ins).head? = (coinsOf s addr).head?.map fun e => ⟨e.txid, 0⟩ := by
  obtain ⟨-, rfl, -⟩ := (spendPlan_ok_iff h0).mp h
  cases coinsOf s addr with
  | nil => rfl
  | cons e es =>
    rw [elems_some, spendLoop]
    dsimp only
    split_ifs <;> rfl

/-! ### The order of coins -/

theorem entryLE_iff {a b : UtxoEntry} :
    entryLE a b ↔ a.order < b.order ∨ a.order = b.order ∧ a.txid ≤ b.txid := by
  unfold entryLE
  split_ifs with h
  · rw [h]
    simp
  · simp [h]

instance : IsTrans UtxoEntry entryLE := ⟨fun a b c h1 h2 => by
  rw [entryLE_iff] at *
  rcases h1 with h1 | ⟨h1, t1⟩ <;> rcases h2 with h2 | ⟨h2, t2⟩
  · exact .inl (UInt64.lt_trans h1 h2)
  · exact .inl (h2 ▸ h1)
  · exact .inl (h1 ▸ h2)
  · exact .inr ⟨h1.trans h2, le_trans t1 t2⟩⟩

instance : Std.Total entryLE := ⟨fun a b => by
  rw [entryLE_iff, entryLE_iff]
  by_cases h : a.order = b.order
  · rcases le_total a.txid b.txid with ht | ht
    · exact .inl (.inr ⟨h, ht⟩)
    · exact .inr (.inr ⟨h.symm, ht⟩)
  · rcases UInt64.lt_or_lt_of_ne h with h | h
    · exact .inl (.inl h)
    · exact .inr (.inl h)⟩

theorem txid_eq_of_entryLE {a b : UtxoEntry} (hab : entryLE a b) (hba : entryLE b a) :
    a.txid = b.txid := by
  rw [entryLE_iff] at hab hba
  rcases hab with h1 | ⟨h1, t1⟩ <;> rcases hba with h2 | ⟨h2, t2⟩
  · exact absurd (UInt64.lt_trans h1 h2) (UInt64.lt_irrefl _)
  · rw [h2] at h1; exact absurd h1 (UInt64.lt_irrefl _)
  · rw [h1] at h2; exact absurd h2 (UInt64.lt_irrefl _)
  · exact le_antisymm t1 t2

/-- The coins of every account were numbered before the next number. -/
def Numbered (st : NamecoinState) : Prop :=
  ∀ addr t u, (account st addr).lookup t = some u → u.order < st.nextUTXOSeq

theorem nodup_spendEntries_self (m : Map String UTXO) : (spendEntries m).Nodup :=
  (nodup_spendEntries m).of_map _

theorem spendEntries_insert {m : Map String UTXO} {key : String} {u : UTXO} (hnew : key ∉ m)
    (hlast : ∀ t v, m.lookup t = some v → v.order < u.order) :
    spendEntries (m.insert key u) = spendEntries m ++ [⟨key, u.amount, u.order⟩] := by
  have hkey : ∀ e ∈ spendEntries m, e.txid ≠ key := fun e he hk => by
    obtain ⟨v, hv, -⟩ := mem_spendEntries.mp he
    exact hnew (hk ▸ Finmap.mem_of_lookup_eq_some hv)
  have hnd : (spendEntries m ++ [(⟨key, u.amount, u.order⟩ : UtxoEntry)]).Nodup := by
    refine List.Nodup.append (nodup_spendEntries_self m) (List.nodup_singleton _) ?_
    simp only [List.disjoint_singleton]
    exact fun he => hkey _ he rfl
  have hperm : (spendEntries (m.insert key u)).Perm (spendEntries m ++ [⟨key, u.amount, u.order⟩]) := by
    refine (List.perm_ext_iff_of_nodup (nodup_spendEntries_self _) hnd).mpr fun e => ?_
    rw [List.mem_append, List.mem_singleton, mem_spendEntries, mem_spendEntries, lookup_insert_ite]
    constructor
    · rintro ⟨v, hv, ha, ho⟩
      split_ifs at hv with hk
      · cases hv
        right
        cases e
        simp_all
      · exact .inl ⟨v, hv, ha, ho⟩
    · rintro (⟨v, hv, ha, ho⟩ | rfl)
      · have hk : e.txid ≠ key := fun hk => hnew (hk ▸ Finmap.mem_of_lookup_eq_some hv)
        exact ⟨v, by rw [if_neg hk]; exact hv, ha, ho⟩
      · exact ⟨u, by rw [if_pos rfl], rfl, rfl⟩
  have hsorted : (spendEntries m ++ [(⟨key, u.amount, u.order⟩ : UtxoEntry)]).Pairwise entryLE := by
    refine List.pairwise_append.mpr ⟨List.pairwise_insertionSort _ _, List.pairwise_singleton _ _, ?_⟩
    intro a ha b hb
    rw [List.mem_singleton.mp hb]
    obtain ⟨v, hv, -, ho⟩ := mem_spendEntries.mp ha
    exact entryLE_iff.mpr (.inl (ho ▸ hlast _ _ hv))
  refine hperm.eq_of_pairwise (fun a b ha hb hab hba => ?_) (List.pairwise_insertionSort _ _) hsorted
  exact List.inj_on_of_nodup_map (nodup_spendEntries _) ha (hperm.mem_iff.mpr hb)
    (txid_eq_of_entryLE hab hba)

/-! ### Coin effects -/

/-- The state after the inputs of a spend have been burned. -/
def burned (tx : Tx) (s : NamecoinState) : NamecoinState :=
  if elems tx.inputs = [] then s
  else withAccount s tx.fromAddr (((elems tx.inputs).map TxInput.txID).foldl (fun m t => m.erase t)
    (account s tx.fromAddr))

/-- The state after the coins of a spend have moved. -/
def spentState (txID : String) (tx : Tx) (s : NamecoinState) : NamecoinState :=
  (elems tx.outputs).foldl (fun s o => withUTXO ⟨txID, o.toAddr, o.amount, 0⟩ s) (burned tx s)

theorem lookup_account_burned (tx : Tx) (s : NamecoinState) (addr t : String) :
    (account (burned tx s) addr).lookup t =
      if addr = tx.fromAddr ∧ t ∈ (elems tx.inputs).map TxInput.txID then none
      else (account s addr).lookup t := by
  unfold burned
  split_ifs with hnil hin hin
  · rw [hnil] at hin; simp at hin
  · rfl
  · rw [account_withAccount, if_pos hin.1, lookup_foldl_erase, if_pos hin.2]
  · rw [account_withAccount]
    split_ifs with ha
    · rw [lookup_foldl_erase, if_neg fun ht => hin ⟨ha, ht⟩, ha]
    · rfl

@[simp] theorem burned_nextUTXOSeq (tx : Tx) (s : NamecoinState) :
    (burned tx s).nextUTXOSeq = s.nextUTXOSeq := by
  unfold burned; split_ifs <;> rfl

theorem CanonicalSpend.outputs_cases {addr : String} {amount : UInt64} {ins : List TxInput}
    {outs : List TxOutput} (h : CanonicalSpend s addr amount ins outs) :
    outs = [] ∨ ∃ o, o.toAddr = addr ∧ outs = [o] := by
  rcases h.change with h | ⟨l, -, h⟩
  · exact .inl h
  · exact .inr ⟨_, rfl, h⟩

section spend

variable (hs : CanonicalSpend s tx.fromAddr tx.amount (elems tx.inputs) (elems tx.outputs))
include hs

theorem burnInputs_spend :
    burnInputs tx.fromAddr ((elems tx.inputs).map TxInput.txID) s = .ok () (burned tx s) := by
  unfold burnInputs burned
  by_cases hnil : elems tx.inputs = []
  · rw [if_pos (by rw [hnil]; rfl), if_pos hnil]
    rfl
  · rw [if_neg (by simpa using hnil), if_neg hnil]
    refine burnUTXO_ok_iff.mpr ⟨?_, hs.nodup, hs.owned, rfl⟩
    obtain ⟨i, hi⟩ := List.exists_mem_of_ne_nil _ hnil
    have hown := hs.owned i.txID (List.mem_map_of_mem hi)
    unfold account at hown
    cases hl : s.utxoMap.lookup tx.fromAddr with
    | none => rw [hl] at hown; exact absurd hown Finmap.notMem_empty
    | some m => exact Finmap.mem_of_lookup_eq_some hl

/-- **A canonical spend with a new ID moves its coins.** -/
theorem applyUTXOGeneric_spend (hnew : txID ∉ account s tx.fromAddr) :
    applyUTXOGeneric txID tx s = .ok () (spentState txID tx s) := by
  unfold applyUTXOGeneric spentState
  rw [bind_run, burnInputs_spend hs]
  dsimp only
  rcases CanonicalSpend.outputs_cases hs with h | ⟨o, ho, h⟩
  · rw [h]; rfl
  · rw [h, List.foldl_cons, List.foldl_nil, forList, bind_run]
    have hfresh : txID ∉ account (burned tx s) o.toAddr := fun hm => by
      obtain ⟨u, hu⟩ := Finmap.mem_iff.mp hm
      rw [lookup_account_burned] at hu
      split_ifs at hu
      exact hnew (ho ▸ Finmap.mem_of_lookup_eq_some hu)
    rw [appendUTXO_run, if_neg hfresh]
    rfl

theorem account_spentState_ne {addr : String} (ha : addr ≠ tx.fromAddr) :
    account (spentState txID tx s) addr = account s addr := by
  have hb : account (burned tx s) addr = account s addr := Finmap.ext_lookup fun t => by
    rw [lookup_account_burned, if_neg fun h => ha h.1]
  unfold spentState
  rcases CanonicalSpend.outputs_cases hs with h | ⟨o, ho, h⟩
  · rw [h]; exact hb
  · rw [h, List.foldl_cons, List.foldl_nil, account_withUTXO, if_neg (by rw [ho]; exact ha)]
    exact hb

theorem spent_notMem {t : String} (ht : t ∈ (elems tx.inputs).map TxInput.txID) (hne : t ≠ txID) :
    t ∉ account (spentState txID tx s) tx.fromAddr := by
  rw [← Finmap.lookup_eq_none]
  have hb : (account (burned tx s) tx.fromAddr).lookup t = none := by
    rw [lookup_account_burned, if_pos ⟨rfl, ht⟩]
  unfold spentState
  rcases CanonicalSpend.outputs_cases hs with h | ⟨o, ho, h⟩
  · rw [h]; exact hb
  · rw [h, List.foldl_cons, List.foldl_nil, account_withUTXO, if_pos ho.symm,
      lookup_insert_ite, if_neg hne, ho]
    exact hb

theorem spentState_zero (h0 : tx.amount = 0) : spentState txID tx s = s := by
  obtain ⟨hins, houts⟩ := hs.zero h0
  unfold spentState burned
  rw [houts, if_pos hins]
  rfl

end spend

/-! ### Numbers of coins -/

theorem Numbered.withUTXO (h : Numbered s) (utxo : UTXO) (hw : s.nextUTXOSeq.toNat + 1 < 2 ^ 64) :
    Numbered (withUTXO utxo s) := by
  have hlt : s.nextUTXOSeq < s.nextUTXOSeq + 1 := by
    rw [UInt64.lt_iff_toNat_lt, UInt64.toNat_add, UInt64.toNat_one, Nat.mod_eq_of_lt hw]
    exact Nat.lt_succ_self _
  intro addr t u hu
  show u.order < s.nextUTXOSeq + 1
  rw [account_withUTXO] at hu
  split_ifs at hu
  · rw [lookup_insert_ite] at hu
    split_ifs at hu
    · cases hu; exact hlt
    · exact UInt64.lt_trans (h _ _ _ hu) hlt
  · exact UInt64.lt_trans (h _ _ _ hu) hlt

theorem Numbered.spentState (h : Numbered s)
    (hs : CanonicalSpend s tx.fromAddr tx.amount (elems tx.inputs) (elems tx.outputs))
    (hw : s.nextUTXOSeq.toNat + 1 < 2 ^ 64) : Numbered (spentState txID tx s) ∧
      (Progress.spentState txID tx s).nextUTXOSeq.toNat ≤ s.nextUTXOSeq.toNat + 1 := by
  have hb : Numbered (burned tx s) := fun addr t u hu => by
    rw [burned_nextUTXOSeq]
    rw [lookup_account_burned] at hu
    split_ifs at hu
    exact h addr t u hu
  unfold Progress.spentState
  rcases CanonicalSpend.outputs_cases hs with ho | ⟨o, -, ho⟩
  · rw [ho]
    refine ⟨hb, ?_⟩
    show (burned tx s).nextUTXOSeq.toNat ≤ _
    rw [burned_nextUTXOSeq]
    exact Nat.le_succ _
  · rw [ho, List.foldl_cons, List.foldl_nil]
    refine ⟨hb.withUTXO _ (by rw [burned_nextUTXOSeq]; exact hw), ?_⟩
    show ((burned tx s).nextUTXOSeq + 1).toNat ≤ _
    rw [burned_nextUTXOSeq, UInt64.toNat_add, UInt64.toNat_one, Nat.mod_eq_of_lt hw]

theorem coinsOf_withUTXO (h : Numbered s) {utxo : UTXO} (hnew : utxo.txID ∉ account s utxo.toAddr)
    (addr : String) : ∃ more, coinsOf (withUTXO utxo s) addr = coinsOf s addr ++ more := by
  unfold coinsOf
  rw [account_withUTXO]
  split_ifs with ha
  · rw [spendEntries_insert hnew fun t v hv => h _ _ _ hv, ha]
    exact ⟨_, rfl⟩
  · exact ⟨[], (List.append_nil _).symm⟩

/-! ### Name effects -/

/-- The commitment a `NameFirstUpdate` refers to. -/
def commitKey (n : NameFirstUpdate) (tx : Tx) : Option String :=
  if n.txID = "" then (elems tx.inputs).head?.map fun i => outpointKey i.txID i.index
  else some (outpointKey n.txID 0)

/-- What a name and its salt are committed to as. -/
def commitmentOf (E : Env) (n : NameFirstUpdate) : String :=
  hashString E ("DOMAIN_HASH_v1:" ++ n.domain ++ ":" ++ n.salt)

theorem foundCommitment_ok_iff {n : NameFirstUpdate} {st : NamecoinState}
    {r : CommitmentRecord} {key : String} (k : String) : ((match st.commitments.lookup k with
      | none => .error (.msg ("no matching name_new commitment with key " ++ k))
      | some r => do
        failIf (commitmentOf E n ≠ r.commit) (.msg ("commitment mismatch for domain " ++ n.domain))
        return (r, k)) : Except Err (CommitmentRecord × String)) = .ok (r, key) ↔
      k = key ∧ st.commitments.lookup key = some r ∧ commitmentOf E n = r.commit := by
  cases hl : st.commitments.lookup k with
  | none =>
    refine ⟨fun h => (by cases h), ?_⟩
    rintro ⟨rfl, h, -⟩
    rw [hl] at h
    cases h
  | some r' =>
    dsimp only
    rw [except_seq_ok_iff, failIf_ok_iff, not_not]
    constructor
    · rintro ⟨hc, he⟩
      cases he
      exact ⟨rfl, hl, hc⟩
    · rintro ⟨rfl, h, hc⟩
      rw [hl] at h
      cases h
      exact ⟨hc, rfl⟩

theorem resolveCommitment_ok_iff {n : NameFirstUpdate} {st : NamecoinState} {r : CommitmentRecord}
    {key : String} : n.resolveCommitment E st tx = .ok (r, key) ↔ commitKey n tx = some key ∧
      st.commitments.lookup key = some r ∧ commitmentOf E n = r.commit := by
  unfold NameFirstUpdate.resolveCommitment commitKey
  split_ifs with h0
  · cases elems tx.inputs with
    | nil => simp [bind, Except.bind]
    | cons i rest =>
      simp only [List.head?_cons, Option.map_some, Option.some.injEq]
      exact foundCommitment_ok_iff (outpointKey i.txID i.index)
  · simp only [Option.some.injEq]
    exact foundCommitment_ok_iff (outpointKey n.txID 0)

@[simp] theorem dropExpired_commitments (domain : String) (st : NamecoinState) :
    (dropExpired domain st).commitments = st.commitments := by
  obtain ⟨e, he⟩ := dropExpired_eq domain st
  rw [he]

theorem notMem_dropExpired {domain : String} {st : NamecoinState} (h : ¬ registered st domain) :
    domain ∉ (dropExpired domain st).domains := by
  obtain ⟨e, he⟩ := dropExpired_eq domain st
  rw [he]
  dsimp only
  rw [if_neg h]
  exact Finmap.notMem_erase_self

theorem tooOld_iff {now made : UInt64} : (0 < made ∧ made < now ∧ maxFirstUpdateDepth < now - made) ↔
    0 < made.toNat ∧ made.toNat + maxFirstUpdateDepth.toNat < now.toNat := by
  simp only [UInt64.lt_iff_toNat_lt, UInt64.toNat_zero]
  constructor
  · rintro ⟨h0, h1, h2⟩
    rw [UInt64.toNat_sub_of_le _ _ (UInt64.le_iff_toNat_le.mpr h1.le)] at h2
    omega
  · rintro ⟨h0, h1⟩
    have hle : made.toNat ≤ now.toNat := by omega
    rw [UInt64.toNat_sub_of_le _ _ (UInt64.le_iff_toNat_le.mpr hle)]
    refine ⟨h0, ?_, ?_⟩
    · have : 0 < maxFirstUpdateDepth.toNat := by decide
      omega
    · omega

theorem firstUpdate_validateWithInputs_iff {n : NameFirstUpdate} {st : NamecoinState} {u : Unit} :
    n.validateWithInputs E st tx = .ok u ↔ (∃ key r, commitKey n tx = some key ∧
      st.commitments.lookup key = some r ∧ commitmentOf E n = r.commit ∧
      ¬ (0 < r.height ∧ r.height < st.currentHeight ∧
      maxFirstUpdateDepth < st.currentHeight - r.height)) ∧
      ¬ registered st n.domain := by
  unfold NameFirstUpdate.validateWithInputs
  simp only [except_bind_ok_iff, failIf_ok_iff, Prod.exists, resolveCommitment_ok_iff]
  constructor
  · rintro ⟨r, key, ⟨h1, h2, h3⟩, ⟨⟩, h4, h5⟩
    exact ⟨⟨key, r, h1, h2, h3, h4⟩, h5⟩
  · rintro ⟨⟨key, r, h1, h2, h3, h4⟩, h5⟩
    exact ⟨r, key, ⟨h1, h2, h3⟩, (), h4, h5⟩

/-- **The checks are enough for the effect on names**, unless the name has been set in the same block. -/
theorem nameEffect_exists_iff (hc : CoinsOnly s c) (hval : cmd.validate s tx = .ok ())
    (hins : cmd.validateWithInputs E s tx = .ok ()) : (∃ s₁, NameEffect E txID tx cmd c s₁) ↔
      ∀ n, cmd = .nameFirstUpdate n → n.domain ∉ s.claimedDomains := by
  have hclaim : c.claimedDomains = s.claimedDomains := by rw [hc]
  cases cmd with
  | nameNew n => exact ⟨fun _ n h => (by cases h), fun _ => ⟨_, .nameNew n c⟩⟩
  | reward => exact ⟨fun _ n h => (by cases h), fun _ => ⟨_, .reward c⟩⟩
  | nameUpdate n =>
    refine ⟨fun _ n h => (by cases h), fun _ => ?_⟩
    cases hl : s.domains.lookup n.domain with
    | none =>
      simp only [NamecoinCommand.validate, NameUpdate.validate, hl] at hval
      cases hval
    | some r =>
      simp only [NamecoinCommand.validate, NameUpdate.validate, hl, except_seq_ok_iff,
        failIf_ok_iff] at hval
      exact ⟨_, .nameUpdate n c r (by rw [hc]; exact hl) (by rw [hc]; exact hval.1)⟩
  | nameFirstUpdate n =>
    obtain ⟨⟨key, r, h1, h2, h3, -⟩, hreg⟩ := firstUpdate_validateWithInputs_iff.mp hins
    have hreg' : ¬ registered c n.domain := by
      rw [hc]; exact hreg
    constructor
    · rintro ⟨s₁, hn⟩ n' hn'
      cases hn'
      cases hn with
      | nameFirstUpdate _ _ _ _ _ _ hclaimed =>
        rwa [dropExpired_claimedDomains, hclaim] at hclaimed
    · intro hcl
      refine ⟨_, .nameFirstUpdate n c r key ?_ (notMem_dropExpired hreg') ?_⟩
      · rw [resolveCommitment_ok_iff, dropExpired_commitments]
        exact ⟨h1, by rw [hc]; exact h2, h3⟩
      · rw [dropExpired_claimedDomains, hclaim]
        exact hcl n rfl

/-- **A fresh transaction**: what it has to pass and what it does. -/
theorem freshStep_user_iff (hR : tx.type ≠ "Reward") (hcmd : resolveCommand tx.type tx.payload = .ok cmd)
    (hnew : txID ∉ account s tx.fromAddr) : FreshStep E txID tx s s' ↔
      validateTxStrict E s txID tx = .ok () ∧ ∃ s₁, NameEffect E txID tx cmd (spentState txID tx s) s₁ ∧
        s' = markAsApplied txID s₁ := by
  have hcmdR : cmd ≠ .reward := fun h => hR (resolveCommand_reward_iff.mp (h ▸ hcmd))
  have hcoin : validateTxStrict E s txID tx = .ok () →
      coinEffect txID tx cmd s = .ok () (spentState txID tx s) := fun hv => by
    obtain ⟨-, -, -, -, hplan, -⟩ := (validateTxStrict_user_iff hR).mp hv
    obtain ⟨ins, outs, hp, hins, houts⟩ := checkSpendPlan_ok_iff.mp hplan
    have hs : CanonicalSpend s tx.fromAddr tx.amount (elems tx.inputs) (elems tx.outputs) := by
      rw [hins, houts]; exact spendPlan_ok hp
    have hgen := applyUTXOGeneric_spend hs hnew
    cases cmd
    case reward => exact absurd rfl hcmdR
    all_goals exact hgen
  constructor
  · intro h
    obtain ⟨cmd', c, hcmd', hv, hc, s₁, hn, rfl⟩ := freshStep_cases h
    rw [hcmd] at hcmd'
    cases hcmd'
    rw [hcoin hv] at hc
    cases hc
    exact ⟨hv, s₁, hn, rfl⟩
  · rintro ⟨hv, s₁, hn, rfl⟩
    exact ⟨hv, s₁, applyCommands_ok_iff.mpr ⟨cmd, _, hcmd, hcoin hv, hn⟩, rfl⟩

theorem nameEffect_of_valid (hR : tx.type ≠ "Reward") (hcmd : resolveCommand tx.type tx.payload = .ok cmd)
    (hnew : txID ∉ account s tx.fromAddr) (hv : validateTxStrict E s txID tx = .ok ()) :
    (∃ s₁, NameEffect E txID tx cmd (spentState txID tx s) s₁) ↔
      ∀ n, cmd = .nameFirstUpdate n → n.domain ∉ s.claimedDomains := by
  obtain ⟨hval, -, -, -, hplan, hins⟩ := (validateTxStrict_user_iff hR).mp hv
  obtain ⟨ins, outs, hp, hin, hout⟩ := checkSpendPlan_ok_iff.mp hplan
  have hs : CanonicalSpend s tx.fromAddr tx.amount (elems tx.inputs) (elems tx.outputs) := by
    rw [hin, hout]; exact spendPlan_ok hp
  rw [validateCommand_eq hcmd] at hval
  rw [validateCommandWithInputs_eq hcmd] at hins
  exact nameEffect_exists_iff ((applyUTXOGeneric_coinsOnly txID tx).ok (applyUTXOGeneric_spend hs hnew))
    hval hins

/-- **When a fresh transaction applies.** -/
theorem freshStep_exists_iff (hR : tx.type ≠ "Reward")
    (hcmd : resolveCommand tx.type tx.payload = .ok cmd) (hnew : txID ∉ account s tx.fromAddr) :
    (∃ s', FreshStep E txID tx s s') ↔
      validateTxStrict E s txID tx = .ok () ∧ ∀ n, cmd = .nameFirstUpdate n →
      n.domain ∉ s.claimedDomains := by
  simp only [freshStep_user_iff hR hcmd hnew]
  refine ⟨?_, ?_⟩
  · rintro ⟨_, hv, s₁, hn, -⟩
    exact ⟨hv, (nameEffect_of_valid hR hcmd hnew hv).mp ⟨s₁, hn⟩⟩
  · rintro ⟨hv, hcl⟩
    obtain ⟨s₁, hn⟩ := (nameEffect_of_valid hR hcmd hnew hv).mpr hcl
    exact ⟨_, hv, s₁, hn, rfl⟩

end Namecoin.State.Progress
