import Namecoin.Chain.History
import Namecoin.State.Supply

/-! # The coins of a chain

The coins over a whole run (`utxo_sound`): each stands under the key of its owner and its
transaction, no two have the same number and all numbers are below the next one, no transaction
creates two, a coin that is gone stays away, and a transaction that is no `Reward` takes its inputs
and gives its sender at most one coin.

The number of the next coin is a machine word, so all this holds of the numbers as long as fewer
than 2^64 coins have been created. A chain on which the counter has wrapped around
(`counter_wraps`) shows that it has to. -/

namespace Namecoin.Chain.Coins

open Lib.Maps Types.Defs Types.TxCodec Types.SampleEnv State.Defs State.Utxo State.Commands
open State.Effects State.Invariant State.Fresh State.SpendPlan State.Progress State.Supply
open State.Together State.Wallet Chain.Stores Chain.Defs Chain.Apply Chain.Build Chain.Registration
open Chain.History

variable {E : Env} {id : String} {tx : Tx} {s s' : NamecoinState}

/-! ### One transaction -/

/-- What a transaction that is no `Reward` does to the coins: it takes its inputs from its sender and
adds at most the coin under its own ID. -/
structure Spend (id : String) (tx : Tx) (s s' : NamecoinState) : Prop where
  owned : ∀ t ∈ (elems tx.inputs).map TxInput.txID, t ∈ account s tx.fromAddr
  fresh : id ∉ account s tx.fromAddr
  removed : ∀ t, t ≠ id → (account s' tx.fromAddr).lookup t =
    if t ∈ (elems tx.inputs).map TxInput.txID then none else (account s tx.fromAddr).lookup t
  added : ∀ u, (account s' tx.fromAddr).lookup id = some u → u.txID = id ∧ u.toAddr = tx.fromAddr
  others : ∀ addr, addr ≠ tx.fromAddr → account s' addr = account s addr

/-- The coin a transaction adds for an output. -/
def coinOf (id : String) (s : NamecoinState) (o : TxOutput) : UTXO :=
  ⟨id, o.toAddr, o.amount, s.nextUTXOSeq⟩

theorem lookup_withUTXO (utxo : UTXO) (s : NamecoinState) (addr t : String) :
    (account (withUTXO utxo s) addr).lookup t = if addr = utxo.toAddr ∧ t = utxo.txID then
      some { utxo with order := s.nextUTXOSeq } else (account s addr).lookup t := by
  rw [account_withUTXO]
  by_cases ha : addr = utxo.toAddr
  · rw [if_pos ha, lookup_insert_ite]
    by_cases ht : t = utxo.txID
    · rw [if_pos ht, if_pos ⟨ha, ht⟩]
    · rw [if_neg ht, if_neg fun h => ht h.2, ha]
  · rw [if_neg ha, if_neg fun h => ha h.1]

theorem lookup_spentState (hs : CanonicalSpend s tx.fromAddr tx.amount (elems tx.inputs)
    (elems tx.outputs)) (addr t : String) : (account (spentState id tx s) addr).lookup t =
      match elems tx.outputs with
      | [] => (account (burned tx s) addr).lookup t
      | o :: _ => if addr = o.toAddr ∧ t = id then some (coinOf id s o)
        else (account (burned tx s) addr).lookup t := by
  unfold spentState
  rcases CanonicalSpend.outputs_cases hs with h | ⟨o, -, h⟩
  · rw [h]; rfl
  · rw [h, List.foldl_cons, List.foldl_nil, lookup_withUTXO, burned_nextUTXOSeq]
    rfl

theorem spentState_seq (hs : CanonicalSpend s tx.fromAddr tx.amount (elems tx.inputs)
    (elems tx.outputs)) :
    (spentState id tx s).nextUTXOSeq = s.nextUTXOSeq + UInt64.ofNat (elems tx.outputs).length := by
  unfold spentState
  rcases CanonicalSpend.outputs_cases hs with h | ⟨o, -, h⟩
  · rw [h]
    exact (burned_nextUTXOSeq tx s).trans (by simp)
  · rw [h]
    show (burned tx s).nextUTXOSeq + 1 = _
    rw [burned_nextUTXOSeq]
    rfl

section step

variable (hw : WellFormed s) (hid : id ∉ s.txMap) (hf : FreshStep E id tx s s')
include hw hid hf

/-- **A spend.** -/
theorem freshStep_spends (hR : tx.type ≠ "Reward") : Spend id tx s s' := by
  have hs := freshStep_spend hR hf
  have hnew : id ∉ account s tx.fromAddr := fun hm => hid (hw.coins _ _ hm)
  obtain ⟨hacc, -⟩ := freshStep_coins hw hid hf
  simp only [if_neg hR] at hacc
  refine ⟨hs.owned, hnew, fun t ht => ?_, fun u hu => ?_, fun addr ha => ?_⟩
  · rw [hacc, lookup_spentState hs, lookup_account_burned]
    rcases CanonicalSpend.outputs_cases hs with h | ⟨o, -, h⟩
    · simp only [h, true_and]
    · simp only [h, true_and, if_neg fun h : tx.fromAddr = o.toAddr ∧ t = id => ht h.2]
  · rw [hacc, lookup_spentState hs, lookup_account_burned, Finmap.lookup_eq_none.mpr hnew, ite_self] at hu
    rcases CanonicalSpend.outputs_cases hs with h | ⟨o, ho, h⟩
    · simp only [h] at hu
      cases hu
    · simp only [h, ho, and_self, if_pos] at hu
      cases hu
      exact ⟨rfl, ho⟩
  · rw [hacc]
    exact account_spentState_ne hs ha

theorem freshStep_lookup {addr t : String} {u : UTXO} (hu : (account s' addr).lookup t = some u) :
    (account s addr).lookup t = some u ∨
      t = id ∧ ∃ o ∈ txPayouts tx, o.toAddr = addr ∧ u = coinOf id s o := by
  obtain ⟨hacc, -⟩ := freshStep_coins hw hid hf
  rw [hacc] at hu
  by_cases hR : tx.type = "Reward"
  · rw [if_pos hR, lookup_withUTXO] at hu
    split_ifs at hu with h
    · cases hu
      refine .inr ⟨h.2, (elems tx.outputs).headD ⟨tx.fromAddr, tx.amount⟩, ?_, h.1.symm, rfl⟩
      have hR' : isReward tx := hR
      simp [txPayouts, hR', payouts]
    · exact .inl hu
  · have hs := freshStep_spend hR hf
    have hout : txPayouts tx = elems tx.outputs := if_neg hR
    have hold : ∀ v, (account (burned tx s) addr).lookup t = some v →
        (account s addr).lookup t = some v := by
      intro v hv
      rw [lookup_account_burned] at hv
      split_ifs at hv
      exact hv
    rw [if_neg hR, lookup_spentState hs] at hu
    rcases CanonicalSpend.outputs_cases hs with h | ⟨o, -, h⟩
    · simp only [h] at hu
      exact .inl (hold u hu)
    · simp only [h] at hu
      split_ifs at hu with hnew
      · cases hu
        exact .inr ⟨hnew.2, o, by rw [hout, h]; simp, hnew.1.symm, rfl⟩
      · exact .inl (hold u hu)

theorem freshStep_seq : s'.nextUTXOSeq = s.nextUTXOSeq + UInt64.ofNat (txPayouts tx).length := by
  obtain ⟨-, hseq⟩ := freshStep_coins hw hid hf
  rw [hseq]
  by_cases hR : tx.type = "Reward"
  · have hR' : isReward tx := hR
    rw [if_pos hR]
    simp only [txPayouts, if_pos hR', payouts]
    rfl
  · rw [if_neg hR, spentState_seq (freshStep_spend hR hf)]
    have hout : txPayouts tx = elems tx.outputs := if_neg hR
    rw [hout]

end step

/-! ### The coins and the history -/

/-- The number of coins the events of a history have created. -/
def created (log : List Event) : ℕ := (log.map fun e => (txPayouts e.tx).length).sum

theorem created_append (log log' : List Event) : created (log ++ log') = created log + created log' := by
  simp [created]

/-- Every coin stands under the key of its owner and its transaction, and the coins are numbered: no
number twice, all below the next. -/
structure Placed (s : NamecoinState) : Prop where
  key : ∀ addr t u, (account s addr).lookup t = some u → u.toAddr = addr ∧ u.txID = t
  distinct : ∀ addr addr' t t' u u', (account s addr).lookup t = some u →
    (account s addr').lookup t' = some u' → u.order = u'.order → addr = addr' ∧ t = t'
  below : Numbered s

/-- No transaction of the history has created two coins, and every coin was created by one of them. -/
structure Once (log : List Event) (s : NamecoinState) : Prop where
  ids : (log.map Event.txID).Nodup
  single : ∀ e ∈ log, (txPayouts e.tx).length ≤ 1
  source : ∀ addr t, t ∈ account s addr → ∃ e ∈ log, e.txID = t ∧ ∃ o ∈ txPayouts e.tx, o.toAddr = addr

/-- The invariant: the second half of `Placed` needs the bound. -/
structure Tracked (log : List Event) (s : NamecoinState) : Prop where
  seq : s.nextUTXOSeq = UInt64.ofNat (created log)
  single : ∀ e ∈ log, (txPayouts e.tx).length ≤ 1
  source : ∀ addr t, t ∈ account s addr → ∃ e ∈ log, e.txID = t ∧ ∃ o ∈ txPayouts e.tx, o.toAddr = addr
  placed : created log < 2 ^ 64 → Placed s

theorem tracked_newState : Tracked [] newState where
  seq := rfl
  single e h := absurd h List.not_mem_nil
  source addr t h := absurd h Finmap.notMem_empty
  placed _ := by
    have hnone : ∀ (addr t : String) (u : UTXO), (account newState addr).lookup t ≠ some u :=
        fun addr t u h =>
      absurd (Finmap.mem_of_lookup_eq_some h) Finmap.notMem_empty
    exact ⟨fun addr t u h => absurd h (hnone addr t u), fun addr _ t _ u _ h => absurd h (hnone addr t u),
      fun addr t u h => absurd h (hnone addr t u)⟩

theorem Placed.freshStep (h : Placed s) (hw : WellFormed s) (hid : id ∉ s.txMap)
    (hf : FreshStep E id tx s s') (hle : s.nextUTXOSeq ≤ s'.nextUTXOSeq)
    (hlt : ∀ o ∈ txPayouts tx, s.nextUTXOSeq < s'.nextUTXOSeq) :
    Placed s' := by
  have hlook : ∀ {addr t : String} {u : UTXO}, (account s' addr).lookup t = some u →
      (account s addr).lookup t = some u ∨ t = id ∧ ∃ o ∈ txPayouts tx, o.toAddr = addr ∧
      u = coinOf id s o :=
    fun hu => freshStep_lookup hw hid hf hu
  refine ⟨fun addr t u hu => ?_, fun addr addr' t t' u u' hu hu' ho => ?_, fun addr t u hu => ?_⟩
  · rcases hlook hu with hu | ⟨rfl, o, -, rfl, rfl⟩
    · exact h.key addr t u hu
    · exact ⟨rfl, rfl⟩
  · have hold : ∀ {a t v}, (account s a).lookup t = some v → v.order ≠ s.nextUTXOSeq := fun hv he =>
      absurd (h.below _ _ _ hv) (he ▸ UInt64.lt_irrefl _)
    rcases hlook hu with hu | ⟨rfl, o, ho₁, rfl, rfl⟩ <;> rcases hlook hu' with hu' | ⟨rfl,
      o', ho₂, rfl, rfl⟩
    · exact h.distinct _ _ _ _ _ _ hu hu' ho
    · exact absurd ho (hold hu)
    · exact absurd ho.symm (hold hu')
    · have hone := txPayouts_length hf
      obtain ⟨x, hx⟩ := List.length_eq_one_iff.mp (le_antisymm hone (List.length_pos_of_mem ho₁))
      rw [hx] at ho₁ ho₂
      rw [List.mem_singleton.mp ho₁, List.mem_singleton.mp ho₂]
      exact ⟨rfl, rfl⟩
  · rcases hlook hu with hu | ⟨-, o, ho, -, rfl⟩
    · exact UInt64.lt_of_lt_of_le (h.below _ _ _ hu) hle
    · exact hlt o ho

theorem Tracked.freshStep {log : List Event} {height : UInt64} (h : Tracked log s) (hw : WellFormed s)
    (hid : id ∉ s.txMap) (hf : FreshStep E id tx s s') : Tracked (log ++ [⟨height, id, tx⟩]) s' := by
  have hcreated : created (log ++ [⟨height, id, tx⟩]) = created log + (txPayouts tx).length := by
    rw [created_append]; simp [created]
  have hseq := freshStep_seq hw hid hf
  rw [h.seq, ← UInt64.ofNat_add, ← hcreated] at hseq
  refine ⟨hseq, fun e he => ?_, fun addr t ht => ?_, fun hb => ?_⟩
  · rcases List.mem_append.mp he with he | he
    · exact h.single e he
    · rw [List.mem_singleton.mp he]; exact txPayouts_length hf
  · obtain ⟨u, hu⟩ := Finmap.mem_iff.mp ht
    rcases freshStep_lookup hw hid hf hu with hu | ⟨rfl, o, ho, ha, -⟩
    · obtain ⟨e, he, rest⟩ := h.source addr t (Finmap.mem_of_lookup_eq_some hu)
      exact ⟨e, List.mem_append_left _ he, rest⟩
    · exact ⟨_, List.mem_append_right _ (List.mem_singleton_self _), rfl, o, ho, ha⟩
  · have hb' : created log < 2 ^ 64 := by omega
    have hnat : s.nextUTXOSeq.toNat = created log := by rw [h.seq, UInt64.toNat_ofNat_of_lt' hb']
    have hnat' : s'.nextUTXOSeq.toNat = created log + (txPayouts tx).length := by
      rw [hseq, UInt64.toNat_ofNat_of_lt' hb, hcreated]
    refine (h.placed hb').freshStep hw hid hf ?_ fun o ho => ?_
    · rw [UInt64.le_iff_toNat_le]; omega
    · have := List.length_pos_of_mem ho
      rw [UInt64.lt_iff_toNat_lt]; omega

theorem Tracked.of_eq {log : List Event} (h : Tracked log s) (hu : s'.utxoMap = s.utxoMap)
    (hn : s'.nextUTXOSeq = s.nextUTXOSeq) : Tracked log s' := by
  have hacc : ∀ addr, account s' addr = account s addr := fun addr => by unfold account; rw [hu]
  refine ⟨hn.trans h.seq, h.single, fun addr t ht => h.source addr t (hacc addr ▸ ht), fun hb => ?_⟩
  have hp := h.placed hb
  refine ⟨fun addr t u hu => hp.key addr t u (hacc addr ▸ hu), fun addr addr' t t' u u' h1 h2 =>
    hp.distinct addr addr' t t' u u' (hacc addr ▸ h1) (hacc addr' ▸ h2), fun addr t u hu => ?_⟩
  rw [hn]
  exact hp.below addr t u (hacc addr ▸ hu)

theorem tracked_of_run {c : NamecoinChain} {log : List Event} (h : ChainRun E c log) :
    Tracked log c.state := by
  induction h with
  | empty store cfg => exact tracked_newState
  | @step S S' c c' blk log hrun ha ih =>
    obtain ⟨st, hfresh, hst⟩ := hrun.reached.freshRun ha
    have hb : ∀ e ∈ freshOf E c blk, buildTransactionID E e.2 = .ok e.1 :=
      fun e he => (freshTxs_build he).2.1
    have hpruned := (pruneExpired_pruned blk.header.height (setHeight blk.header.height c.state)).rest
    have hstart : Tracked log (atHeight blk.header.height c.state) := by
      refine ih.of_eq ?_ ?_ <;> unfold atHeight <;> rw [hpruned] <;> rfl
    have hrest := (FreshRun.induct (P := fun done s => WellFormed s ∧
      Tracked (log ++ eventsAt blk.header.height done) s)
      (fun pre i t post s s₁ hall hid hf hP => ?_) hfresh (List.nil_append _).symm
      ⟨hrun.reached.wellFormed.1.atHeight _, by simpa [eventsAt] using hstart⟩).2
    · exact hrest.of_eq (by rw [hst]; rfl) (by rw [hst]; rfl)
    · refine ⟨hP.1.freshStep (hb (i, t) (by rw [hall]; simp)) hf, ?_⟩
      have hstep : Tracked (log ++ eventsAt blk.header.height pre ++ [⟨blk.header.height, i, t⟩]) s₁ :=
        hP.2.freshStep hP.1 hid hf
      simpa [eventsAt] using hstep

/-! ### Whole runs -/

/-- The chains reached by accepting more blocks. -/
def Later (E : Env) : NamecoinChain → NamecoinChain → Prop :=
  Relation.ReflTransGen fun c c' => ∃ S S' blk, c.applyBlock E S blk = .ok (S', c')

theorem gone_step {S S' : Heap} {c c' : NamecoinChain} {blk : Block} (hc : ReachedChain E c)
    (ha : c.applyBlock E S blk = .ok (S', c')) {addr t : String} (ht : t ∈ c.state.txMap)
    (hgone : t ∉ account c.state addr) : t ∈ c'.state.txMap ∧ t ∉ account c'.state addr := by
  obtain ⟨st, hfresh, hst⟩ := hc.freshRun ha
  have hb : ∀ e ∈ freshOf E c blk, buildTransactionID E e.2 = .ok e.1 :=
    fun e he => (freshTxs_build he).2.1
  obtain ⟨hutxo, htx⟩ := pruned_rest blk.header.height c.state
  have hend := (FreshRun.induct (P := fun _ s => WellFormed s ∧ t ∈ s.txMap ∧ t ∉ account s addr)
    (fun pre i x post s s₁ hall hid hf hP => ?_) hfresh (List.nil_append _).symm
    ⟨hc.wellFormed.1.atHeight _, htx ▸ ht, by unfold account; rw [hutxo]; exact hgone⟩).2
  · rw [hst]; exact hend
  · obtain ⟨hw, htm, hno⟩ := hP
    refine ⟨hw.freshStep (hb (i, x) (by rw [hall]; simp)) hf, ?_, fun hm => ?_⟩
    · rw [freshStep_txMap hf]; exact Finset.mem_insert_of_mem htm
    · obtain ⟨u, hu⟩ := Finmap.mem_iff.mp hm
      rcases freshStep_lookup hw hid hf hu with hu | ⟨rfl, -⟩
      · exact hno (Finmap.mem_of_lookup_eq_some hu)
      · exact hid htm

theorem gone_later {c c' : NamecoinChain} (hc : ReachedChain E c) (h : Later E c c') {addr t : String}
    (ht : t ∈ c.state.txMap) (hgone : t ∉ account c.state addr) : t ∉ account c'.state addr := by
  have hall : ReachedChain E c' ∧ t ∈ c'.state.txMap ∧ t ∉ account c'.state addr := by
    induction h with
    | refl => exact ⟨hc, ht, hgone⟩
    | tail _ hstep ih =>
      obtain ⟨S, S', blk, ha⟩ := hstep
      exact ⟨.step ih.1 ha, gone_step ih.1 ha ih.2.1 ih.2.2⟩
  exact hall.2.2

/-- **The coins of a chain are sound**, as long as fewer than 2^64 of them have been created. -/
theorem utxo_sound {c : NamecoinChain} {log : List Event} (h : ChainRun E c log)
    (hb : created log < 2 ^ 64) :
    Placed c.state ∧ Once log c.state ∧
      (∀ c' addr t, Later E c c' → t ∈ c.state.txMap → t ∉ account c.state addr →
      t ∉ account c'.state addr) ∧ ∀ S S' c' blk pre id tx post, c.applyBlock E S blk = .ok (S', c') →
        freshOf E c blk = pre ++ (id, tx) :: post → tx.type ≠ "Reward" →
        ∃ s₁ s₂, FreshRun E pre (atHeight blk.header.height c.state) s₁ ∧ FreshStep E id tx s₁ s₂ ∧
          Spend id tx s₁ s₂ := by
  have htr := tracked_of_run h
  refine ⟨htr.placed hb, ⟨h.logged.nodup, htr.single, htr.source⟩,
    fun c' addr t hl ht hg => gone_later h.reached hl ht hg, ?_⟩
  intro S S' c' blk pre id tx post ha hsplit hR
  obtain ⟨st, hfresh, -⟩ := h.reached.freshRun ha
  have hbuild : ∀ e ∈ freshOf E c blk, buildTransactionID E e.2 = .ok e.1 :=
    fun e he => (freshTxs_build he).2.1
  rw [hsplit] at hfresh hbuild
  obtain ⟨s₁, s₂, hpre, hid, hf, -⟩ := FreshRun.split hfresh
  have hw₁ : WellFormed s₁ := WellFormed.freshRun hpre (fun e he => hbuild e (List.mem_append_left _ he))
    (h.reached.wellFormed.1.atHeight _)
  exact ⟨s₁, s₂, hpre, hf, freshStep_spends hw₁ hid hf hR⟩

theorem genesis_run (hc : E.CollisionFree) (hj : E.CanonicalJson) (k : Signer E) : ∃ c, ChainRun E c
    [⟨0, rewardID E k.address 1, rewardTx k.address 1⟩, ⟨0, (commitTx k).txID, commitTx k⟩] := by
  obtain ⟨s₀, hrun, -⟩ := commit_run hc hj k "site"
  let target : ℤ := workOf E (blockAt E 0 none [rewardTx k.address 1, commitTx k] 0)
  have hreach : ReachedChain E (emptyChain target 0) := .empty 0 _
  have hpay : ∀ tx ∈ [rewardTx k.address 1, commitTx k], tx.payload ≠ .invalid := by
    simp [rewardTx, commitFor, walletTx, unsignedTx]
  obtain ⟨S', ha⟩ := extend_reached hreach (static_emptyChain target 0) hpay hrun (le_refl target) []
  have hne : (commitTx k).txID ≠ rewardID E k.address 1 :=
    txID_ne_of_type hc hj (buildTransactionID_commitFor k "site") (buildTransactionID_rewardTx _ _)
      (show "NameNew" ≠ "Reward" by decide)
  have hfresh : freshOf E (emptyChain target 0) (blockOn E (emptyChain target 0)
      [rewardTx k.address 1, commitTx k] 0) =
      [(rewardID E k.address 1, rewardTx k.address 1), ((commitTx k).txID, commitTx k)] := by
    show freshTxs E ∅ [rewardTx k.address 1, commitTx k] = _
    rw [freshTxs, buildTransactionID_rewardTx]
    dsimp only
    rw [if_neg (Finset.notMem_empty _), freshTxs, buildTransactionID_commitFor]
    dsimp only
    rw [if_neg fun h => (Finset.mem_insert.mp h).elim hne (Finset.notMem_empty _)]
    rfl
  have hstep := ChainRun.step (.empty 0 (staticConfig target)) ha
  rw [show freshOf E (configurePow (staticConfig target) (newNamecoinChain 0)) _ = _ from hfresh] at hstep
  exact ⟨_, hstep⟩

/-- A coin is paid and spent in the genesis block. -/
theorem utxo_sound_genesis : ∃ (E : Env) (c : NamecoinChain) (log : List Event), ChainRun E c log ∧
    log.length = 2 ∧ created log < 2 ^ 64 ∧ Placed c.state ∧ Once log c.state := by
  let k := plainSigner 7
  have hinj := plainEnv_collisionFree
  obtain ⟨c, hrun⟩ := genesis_run hinj plainEnv_canonicalJson k
  have hcreated := show 1 + (0 + 0) < 2 ^ 64 by decide
  obtain ⟨hplaced, honce, -⟩ := utxo_sound hrun hcreated
  exact ⟨_, c, _, hrun, rfl, hcreated, hplaced, honce⟩

/-! ### When the counter wraps around -/

/-- Pairwise different addresses. -/
def payee (i : ℕ) : String := String.ofList (List.replicate i 'a')

theorem payee_injective : Function.Injective payee := fun i j h => by
  have := congrArg (fun x => x.toList.length) h
  simpa [payee] using this

/-- The ledger after `n` blocks of one reward each. -/
structure Rewarded (E : Env) (n : ℕ) (s : NamecoinState) : Prop where
  wellFormed : WellFormed s
  expires : s.expires = ∅
  seq : s.nextUTXOSeq = UInt64.ofNat n
  ids : ∀ t ∈ s.txMap, ∃ i < n, t = rewardID E (payee i) 1
  coin : 0 < n → ∃ addr t u, (account s addr).lookup t = some u

theorem rewards_run (hc : E.CollisionFree) (hj : E.CanonicalJson) : ∀ n : ℕ, ∃ tss s,
    tss.length = n ∧ LedgerRun E 0 newState tss s ∧ Rewarded E n s
  | 0 =>
    ⟨[], newState, rfl, .nil _ _, wellFormed_newState, rfl, rfl,
      fun t h => absurd h (Finset.notMem_empty t), fun h => absurd h (Nat.lt_irrefl 0)⟩
  | n + 1 => by
    obtain ⟨tss, s, hlen, hrun, hs⟩ := rewards_run hc hj n
    have hid : rewardID E (payee n) 1 ∉ s.txMap := fun hm => by
      obtain ⟨i, hi, he⟩ := hs.ids _ hm
      have hsame := buildTransactionID_inj hc hj (buildTransactionID_rewardTx (payee n) 1)
        (he ▸ buildTransactionID_rewardTx (payee i) 1)
      exact absurd (payee_injective hsame.fromAddr) (by omega)
    let h : UInt64 := 0 + UInt64.ofNat tss.length
    have hstart : atHeight h s = setHeight h s := atHeight_of_no_expires hs.expires h
    have hf : FreshStep E (rewardID E (payee n) 1) (rewardTx (payee n) 1) (setHeight h s) _ :=
      freshStep_reward rfl (.inl rfl) (by simp [rewardTx]) fun hm => hid (hs.wellFormed.coins _ _ hm)
    have hid' : rewardID E (payee n) 1 ∉ (setHeight h s).txMap := hid
    have hstep : StrictRun E [rewardTx (payee n) 1] (atHeight h s)
        (markAsApplied (rewardID E (payee n) 1)
          (withUTXO (rewardCoin (rewardID E (payee n) 1) (rewardTx (payee n) 1)) (setHeight h s))) := by
      rw [hstart]
      exact .fresh (buildTransactionID_rewardTx _ _) hid' hf (.nil _)
    have hw := (hstart ▸ hs.wellFormed.atHeight h).freshStep (buildTransactionID_rewardTx _ _) hf
    refine ⟨_, _, ?_, hrun.snoc (by simp [rewardTx]) hstep,
      ⟨hw.named, hw.coins, hw.commits, hw.ids, hw.buckets, hw.ttl⟩, hs.expires, ?_,
      fun t ht => ?_, fun _ => ?_⟩
    · rw [List.length_append, hlen]; rfl
    · show s.nextUTXOSeq + 1 = _
      rw [hs.seq, UInt64.ofNat_add]
      rfl
    · rcases Finset.mem_insert.mp ht with rfl | ht
      · exact ⟨n, Nat.lt_succ_self n, rfl⟩
      · obtain ⟨i, hi, he⟩ := hs.ids t ht
        exact ⟨i, Nat.lt_succ_of_lt hi, he⟩
    · have hlook := lookup_withUTXO (rewardCoin (rewardID E (payee n) 1) (rewardTx (payee n) 1))
        (setHeight h s) (payee n) (rewardID E (payee n) 1)
      exact ⟨payee n, rewardID E (payee n) 1, _, hlook.trans (if_pos ⟨rfl, rfl⟩)⟩

/-- After 2^64 blocks of one reward each, the next number is 0. -/
theorem counter_wraps : ¬ ∀ (E : Env) (c : NamecoinChain) (log : List Event), ChainRun E c log →
    Placed c.state := by
  intro hall
  have hinj := plainEnv_collisionFree
  obtain ⟨tss, s, -, hrun, hs⟩ := rewards_run hinj plainEnv_canonicalJson (2 ^ 64)
  obtain ⟨c, c', S', blk, hc, hst, -⟩ := hrun.reached (by simp) (.nil _) []
  obtain ⟨log, hlog⟩ := exists_run hc.reached
  obtain ⟨addr, t, u, hu⟩ := hs.coin (by decide)
  have hlt := (hall _ c log hlog).below addr t u (by rw [hst]; exact hu)
  rw [hst, hs.seq] at hlt
  exact UInt64.not_lt_zero (show u.order < 0 from hlt)

end Namecoin.Chain.Coins
