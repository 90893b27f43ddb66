import Namecoin.State.Effects

/-! # The invariant of the ledger state

What holds of the state of every chain: a record stands under its own name, every coin and every
commitment comes from an applied transaction, IDs are hexadecimal, and names have a lifetime of their
own. `WellFormed.strictRun` says that the transactions of a block preserve it, one transaction at a
time (`WellFormed.freshStep`). -/

namespace Namecoin.State.Invariant

open Lib.Maps Lib.Ops Lib.ByteStrings Types.Defs Types.TxCodec State.Defs State.Utxo State.Commands
open State.Strict State.Effects

variable {E : Env}

/-- The invariant of the ledger state. -/
structure WellFormed (st : NamecoinState) : Prop where
  named : ∀ k r, st.domains.lookup k = some r → r.domain = k
  coins : ∀ addr txID, txID ∈ account st addr → txID ∈ st.txMap
  commits : ∀ key, key ∈ st.commitments → ∃ txID ∈ st.txMap, key = outpointKey txID 0
  ids : ∀ txID ∈ st.txMap, ∃ b, txID = hexEncode b
  buckets : (0 : UInt64) ∉ st.expires
  ttl : st.domainTTL = clampTTL defaultDomainTTLBlocks

theorem wellFormed_newState : WellFormed newState where
  named k r h := by simp [newState] at h
  coins addr txID h := absurd h (by simpa [newState, account] using Finmap.notMem_empty)
  commits key h := absurd h Finmap.notMem_empty
  ids txID h := absurd h (Finset.notMem_empty txID)
  buckets := Finmap.notMem_empty
  ttl := rfl

/-- Names and commitments are as before, and every coin is an old one or an
output of transaction `txID`. -/
structure Paid (txID : String) (outs : List TxOutput) (s s' : NamecoinState) : Prop where
  rest : CoinsOnly s s'
  coins : ∀ addr t u, (account s' addr).lookup t = some u →
    (account s addr).lookup t = some u ∨ t = txID ∧ ⟨addr, u.amount⟩ ∈ outs

instance (txID : String) (outs : List TxOutput) : Std.Refl (Paid txID outs) :=
  ⟨fun _ => ⟨rfl, fun _ _ _ h => .inl h⟩⟩

instance (txID : String) (outs : List TxOutput) : IsTrans NamecoinState (Paid txID outs) :=
  ⟨fun _ _ _ h1 h2 => ⟨Trans.trans h1.rest h2.rest, fun addr t u h => by
    rcases h2.coins addr t u h with h | h
    · exact h1.coins addr t u h
    · exact .inr h⟩⟩

theorem account_withAccount (st : NamecoinState) (addr a : String) (m : Map String UTXO) :
    account (withAccount st addr m) a = if a = addr then m else account st a := by
  unfold account withAccount
  rw [lookup_insert_ite]
  split_ifs <;> rfl

theorem account_withUTXO (utxo : UTXO) (st : NamecoinState) (a : String) :
    account (withUTXO utxo st) a = if a = utxo.toAddr then
      (account st utxo.toAddr).insert utxo.txID { utxo with order := st.nextUTXOSeq } else account st a :=
  account_withAccount st utxo.toAddr a _

theorem burnUTXO_paid (txID : String) (outs : List TxOutput) (fromAddr : String) (txIDs : List String) :
    Moves (Paid txID outs) (burnUTXO fromAddr txIDs) := fun s => by
  refine ⟨burnUTXO_coinsOnly _ _ s, fun addr t u ht => .inl ?_⟩
  cases h : burnUTXO fromAddr txIDs s with
  | error e s' => rw [h] at ht; obtain rfl := burnUTXO_error h; exact ht
  | ok _ s' =>
    obtain ⟨-, -, -, rfl⟩ := burnUTXO_ok_iff.mp h
    rw [h, final_ok, account_withAccount] at ht
    split_ifs at ht with ha
    · rw [lookup_foldl_erase] at ht
      split_ifs at ht
      rw [ha]
      exact ht
    · exact ht

theorem appendUTXO_paid (utxo : UTXO) {outs : List TxOutput} (ho : ⟨utxo.toAddr, utxo.amount⟩ ∈ outs) :
    Moves (Paid utxo.txID outs) (appendUTXO utxo) := fun s => by
  refine ⟨appendUTXO_coinsOnly _ s, fun addr t u ht => ?_⟩
  rw [appendUTXO_run] at ht
  split_ifs at ht with hm
  · exact .inl ht
  · rw [final_ok, account_withUTXO] at ht
    split_ifs at ht with ha
    · rw [lookup_insert_ite] at ht
      split_ifs at ht with htx
      · cases ht
        exact .inr ⟨htx, ha ▸ ho⟩
      · rw [ha]; exact .inl ht
    · exact .inl ht

theorem coinEffect_paid (txID : String) (tx : Tx) (cmd : NamecoinCommand) :
    Moves (Paid txID (payouts tx cmd)) (coinEffect txID tx cmd) := by
  have hgeneric : Moves (Paid txID (elems tx.outputs)) (applyUTXOGeneric txID tx) :=
    .bind (.ite (.pure _) (burnUTXO_paid _ _ _ _)) fun _ =>
      .forList fun value hv => appendUTXO_paid ⟨txID, value.toAddr, value.amount, 0⟩ hv
  cases cmd
  case reward => exact appendUTXO_paid ⟨txID, _, _, 0⟩ List.mem_cons_self
  all_goals exact hgeneric

/-! ### Names -/

theorem dropExpired_eq (domain : String) (st : NamecoinState) :
    ∃ e, dropExpired domain st = { st with
      domains := if registered st domain then st.domains else st.domains.erase domain
      expires := e } := by
  unfold dropExpired
  cases h : st.domains.lookup domain with
  | none =>
    have hreg : ¬ registered st domain := by rw [registered_iff]; simp [h]
    exact ⟨st.expires, by rw [if_neg hreg, erase_of_notMem (Finmap.lookup_eq_none.mp h)]⟩
  | some r =>
    by_cases he : isExpired r st.currentHeight
    · have hreg : ¬ registered st domain := by rw [registered_iff]; simp [h, he]
      obtain ⟨e, h'⟩ := removeFromExpiryLocked_eq domain r.expiresAt
        { st with domains := st.domains.erase domain }
      exact ⟨e, by rw [if_neg hreg, ← h']; exact if_pos he⟩
    · have hreg : registered st domain := registered_iff.mpr ⟨r, h, he⟩
      exact ⟨st.expires, by rw [if_pos hreg]; exact if_neg he⟩

@[simp] theorem dropExpired_claimedDomains (domain : String) (st : NamecoinState) :
    (dropExpired domain st).claimedDomains = st.claimedDomains := by
  obtain ⟨e, he⟩ := dropExpired_eq domain st
  rw [he]

theorem lookup_dropExpired_ne {domain k : String} (st : NamecoinState) (hne : k ≠ domain) :
    (dropExpired domain st).domains.lookup k = st.domains.lookup k := by
  obtain ⟨e, he⟩ := dropExpired_eq domain st
  rw [he]
  dsimp only
  split_ifs
  · rfl
  · rw [lookup_erase_ite, if_neg hne]

theorem lookup_dropExpired {domain k : String} {st : NamecoinState} {r : NameRecord}
    (h : (dropExpired domain st).domains.lookup k = some r) : st.domains.lookup k = some r := by
  obtain ⟨e, he⟩ := dropExpired_eq domain st
  rw [he] at h
  dsimp only at h
  split_ifs at h
  · exact h
  · rw [lookup_erase_ite] at h
    split_ifs at h
    exact h

/-- What names and commitments do not touch. -/
structure NamesOnly (s s' : NamecoinState) : Prop where
  height : s'.currentHeight = s.currentHeight
  ttl : s'.domainTTL = s.domainTTL
  coins : s'.utxoMap = s.utxoMap
  seq : s'.nextUTXOSeq = s.nextUTXOSeq
  applied : s'.txMap = s.txMap

variable {txID : String} {tx : Tx} {cmd : NamecoinCommand} {s c s' : NamecoinState}

theorem NameEffect.namesOnly (h : NameEffect E txID tx cmd c s') : NamesOnly c s' := by
  cases h with
  | nameNew n => exact ⟨rfl, rfl, rfl, rfl, rfl⟩
  | nameFirstUpdate n _ r key =>
    obtain ⟨e, he⟩ := setDomain_eq (firstRecord n tx r.ttl (dropExpired n.domain c))
      (dropExpired n.domain c)
    obtain ⟨e', he'⟩ := dropExpired_eq n.domain c
    rw [he, he']
    exact ⟨rfl, rfl, rfl, rfl, rfl⟩
  | nameUpdate n _ r =>
    obtain ⟨e, he⟩ := setDomain_eq (n.updated c r) c
    rw [he]
    exact ⟨rfl, rfl, rfl, rfl, rfl⟩
  | reward => exact ⟨rfl, rfl, rfl, rfl, rfl⟩

theorem NameEffect.commits (h : NameEffect E txID tx cmd c s') :
    ∀ key, key ∈ s'.commitments → key ∈ c.commitments ∨ key = outpointKey txID 0 := by
  intro key hk
  cases h with
  | nameNew n => exact (Finmap.mem_insert.mp hk).symm
  | nameFirstUpdate n _ r key' =>
    obtain ⟨e, he⟩ := setDomain_eq (firstRecord n tx r.ttl (dropExpired n.domain c))
      (dropExpired n.domain c)
    obtain ⟨e', he'⟩ := dropExpired_eq n.domain c
    rw [he, he'] at hk
    exact .inl (Finmap.mem_erase.mp hk).2
  | nameUpdate n _ r =>
    obtain ⟨e, he⟩ := setDomain_eq (n.updated c r) c
    rw [he] at hk
    exact .inl hk
  | reward => exact .inl hk

theorem NameEffect.named (h : NameEffect E txID tx cmd c s')
    (hn : ∀ k r, c.domains.lookup k = some r → r.domain = k) :
    ∀ k r, s'.domains.lookup k = some r → r.domain = k := by
  intro k r hk
  cases h with
  | nameNew n => exact hn k r hk
  | nameFirstUpdate n _ r' key =>
    rw [deleteCommitment_domains, setDomain_domains, lookup_insert_ite] at hk
    split_ifs at hk with hd
    · cases hk; exact hd.symm
    · exact hn k r (lookup_dropExpired hk)
  | nameUpdate n _ r' =>
    rw [setDomain_domains, lookup_insert_ite] at hk
    split_ifs at hk with hd
    · cases hk; exact hd.symm
    · exact hn k r hk
  | reward => exact hn k r hk

theorem zero_notMem_dropExpired {domain : String} {st : NamecoinState} (h : (0 : UInt64) ∉ st.expires) :
    (0 : UInt64) ∉ (dropExpired domain st).expires := by
  unfold dropExpired
  split
  · split_ifs
    · exact zero_notMem_removeFromExpiry h
    · exact h
  · exact h

theorem NameEffect.buckets (h : NameEffect E txID tx cmd c s') (h0 : (0 : UInt64) ∉ c.expires) :
    (0 : UInt64) ∉ s'.expires := by
  cases h with
  | nameNew n => exact h0
  | nameFirstUpdate n _ r key => exact zero_notMem_setDomain (zero_notMem_dropExpired h0)
  | nameUpdate n _ r => exact zero_notMem_setDomain h0
  | reward => exact h0

/-! ### Lifetimes -/

theorem clampTTL_le (ttl : UInt64) : clampTTL ttl ≤ maxDomainTTLBlocks := by
  unfold clampTTL
  split_ifs with h0 h
  · exact UInt64.zero_le
  · exact UInt64.le_refl _
  · exact UInt64.not_lt.mp h

theorem clampTTL_pos {ttl : UInt64} (h : ttl ≠ 0) : 0 < clampTTL ttl := by
  unfold clampTTL
  rw [if_neg h]
  split_ifs
  · decide
  · exact UInt64.pos_iff_ne_zero.mpr h

theorem effectiveTTL_bounds {st : NamecoinState} (h : st.domainTTL = clampTTL defaultDomainTTLBlocks)
    (ttl : UInt64) : 0 < (effectiveTTL st ttl).toNat ∧ (effectiveTTL st ttl).toNat ≤
      maxDomainTTLBlocks.toNat := by
  have hpos : 0 < effectiveTTL st ttl := by
    unfold effectiveTTL
    split_ifs with h0
    · rw [h]; decide
    · exact clampTTL_pos h0
  have hle : effectiveTTL st ttl ≤ maxDomainTTLBlocks := by
    unfold effectiveTTL
    split_ifs <;> exact clampTTL_le _
  exact ⟨UInt64.lt_iff_toNat_lt.mp hpos, UInt64.le_iff_toNat_le.mp hle⟩

/-! ### Steps and runs -/

theorem freshStep_cases (h : FreshStep E txID tx s s') : ∃ cmd c,
    resolveCommand tx.type tx.payload = .ok cmd ∧ validateTxStrict E s txID tx = .ok () ∧
    coinEffect txID tx cmd s = .ok () c ∧ ∃ s₁, NameEffect E txID tx cmd c s₁ ∧
    s' = markAsApplied txID s₁ := by
  obtain ⟨hv, s₁, ha, rfl⟩ := h
  obtain ⟨cmd, c, hr, hc, hn⟩ := applyCommands_ok_iff.mp ha
  exact ⟨cmd, c, hr, hv, hc, s₁, hn, rfl⟩

theorem freshStep_txMap (h : FreshStep E txID tx s s') : s'.txMap = insert txID s.txMap := by
  obtain ⟨cmd, c, -, -, hc, s₁, hn, rfl⟩ := freshStep_cases h
  have hcs : c.txMap = s.txMap := by rw [((coinEffect_paid txID tx cmd).ok hc).rest]
  rw [← hcs, ← (NameEffect.namesOnly hn).applied]
  rfl

theorem WellFormed.freshStep (hw : WellFormed s) (hb : buildTransactionID E tx = .ok txID)
    (h : FreshStep E txID tx s s') : WellFormed s' := by
  obtain ⟨cmd, c, -, -, hc, s₁, hn, rfl⟩ := freshStep_cases h
  have hp := (coinEffect_paid txID tx cmd).ok hc
  have hf := NameEffect.namesOnly hn
  have hdom : c.domains = s.domains := by rw [hp.rest]
  have hcom : c.commitments = s.commitments := by rw [hp.rest]
  have hexp : c.expires = s.expires := by rw [hp.rest]
  have httl : c.domainTTL = s.domainTTL := by rw [hp.rest]
  have happ := freshStep_txMap h
  have hnamed := NameEffect.named hn (hdom ▸ hw.named)
  have hbuckets := NameEffect.buckets hn (hexp ▸ hw.buckets)
  refine ⟨hnamed, fun addr t ht => ?_, fun key hk => ?_, fun t ht => ?_, hbuckets,
    hf.ttl.trans (httl.trans hw.ttl)⟩
  · have hacc : t ∈ account c addr := by
      have : account (markAsApplied txID s₁) addr = account c addr := by
        unfold account; rw [← hf.coins]; rfl
      rwa [this] at ht
    rw [happ, Finset.mem_insert]
    obtain ⟨u, hu⟩ := Finmap.mem_iff.mp hacc
    rcases hp.coins addr t u hu with ht | ⟨ht, -⟩
    · exact .inr (hw.coins addr t (Finmap.mem_of_lookup_eq_some ht))
    · exact .inl ht
  · rw [happ]
    rcases NameEffect.commits hn key hk with hk | hk
    · obtain ⟨t, ht, hkey⟩ := hw.commits key (hcom ▸ hk)
      exact ⟨t, Finset.mem_insert_of_mem ht, hkey⟩
    · exact ⟨txID, Finset.mem_insert_self _ _, hk⟩
  · rw [happ] at ht
    rcases Finset.mem_insert.mp ht with rfl | ht
    · obtain ⟨p, -, he⟩ := buildTransactionID_ok_iff.mp hb
      exact ⟨_, he⟩
    · exact hw.ids t ht

/-- The IDs that are applied after a run: those from before, and those of its transactions. -/
theorem strictRun_txMap {txs : List Tx} (h : StrictRun E txs s s') (id : String) :
    id ∈ s'.txMap ↔ id ∈ s.txMap ∨ ∃ tx ∈ txs, buildTransactionID E tx = .ok id := by
  induction h with
  | nil => simp
  | @skip tx txs txID s s' hb hin _ ih =>
    rw [ih]
    simp only [List.mem_cons, exists_eq_or_imp, hb, Except.ok.injEq]
    constructor
    · exact fun h => h.imp_right .inr
    · rintro (h | rfl | h)
      · exact .inl h
      · exact .inl hin
      · exact .inr h
  | @fresh tx txs txID s s₁ s' hb _ hf _ ih =>
    rw [ih, freshStep_txMap hf, Finset.mem_insert]
    simp only [List.mem_cons, exists_eq_or_imp, hb, Except.ok.injEq, eq_comm (a := txID)]
    exact or_assoc.trans or_left_comm

theorem strictRun_named {txs : List Tx} (h : StrictRun E txs s s') :
    ∀ tx ∈ txs, ∃ id, buildTransactionID E tx = .ok id := by
  induction h with
  | nil => simp
  | skip hb _ _ ih => exact List.forall_mem_cons.mpr ⟨⟨_, hb⟩, ih⟩
  | fresh hb _ _ _ ih => exact List.forall_mem_cons.mpr ⟨⟨_, hb⟩, ih⟩

theorem WellFormed.strictRun {txs : List Tx} (h : StrictRun E txs s s') :
    WellFormed s → WellFormed s' := by
  induction h with
  | nil => exact id
  | skip _ _ _ ih => exact ih
  | fresh hb _ hf _ ih => exact fun hw => ih (hw.freshStep hb hf)

theorem WellFormed.atHeight (hw : WellFormed s) (height : UInt64) : WellFormed (atHeight height s) := by
  have h := pruneExpired_pruned height (setHeight height s)
  have h0 : (0 : UInt64) ∉ (setHeight height s).expires := hw.buckets
  unfold Effects.atHeight
  refine ⟨fun k r hk => hw.named k r (h.shrinks k r hk), ?_, ?_, ?_, zero_notMem_pruneExpired h0, ?_⟩
  · rw [h.rest]; exact hw.coins
  · rw [h.rest]; exact hw.commits
  · rw [h.rest]; exact hw.ids
  · rw [h.rest]; exact hw.ttl

/-- **The invariant is preserved by every block.** -/
theorem WellFormed.applyBlockStrict {blk : Block} {u : Unit} (hw : WellFormed s)
    (h : applyBlockStrict E blk s = .ok u s') : WellFormed s' :=
  WellFormed.strictRun (applyBlockStrict_ok_iff.mp h) (hw.atHeight _)

end Namecoin.State.Invariant
