import Namecoin.Chain.Ownership
import Namecoin.State.Together

/-! # The history of a chain

`ChainRun` is a run of accepted blocks on one chain together with its events, the transactions that
took effect. `Logged` is what the events say of the commitments of the state: each was stored by a
`NameNew` of the history, and no `NameFirstUpdate` of the history has referred to it. It is preserved
by every transaction (`Logged.freshStep`), so the `NameFirstUpdate`s of a history consume commitments
of the history, each another (`ChainRun.logged`). -/

namespace Namecoin.Chain.History

open Lib.Maps Types.Defs Types.TxCodec State.Defs State.Commands State.Strict State.Effects
open State.Invariant State.Fresh State.Progress State.Together Chain.Pow Chain.Stores Chain.Defs
open Chain.Apply

/-- A transaction that took effect in a block of the given height. -/
structure Event where
  height : UInt64
  txID : String
  tx : Tx

/-- The events of a block of height `h`. -/
def eventsAt (h : UInt64) (txs : List (String × Tx)) : List Event := txs.map fun e => ⟨h, e.1, e.2⟩

/-- The runs of accepted blocks from an empty chain, with their events. -/
inductive ChainRun (E : Env) : NamecoinChain → List Event → Prop
  | empty (store : ℕ) (cfg : PoWConfig) : ChainRun E (configurePow cfg (newNamecoinChain store)) []
  | step {S S' : Heap} {c c' : NamecoinChain} {blk : Block} {log : List Event} :
    ChainRun E c log → c.applyBlock E S blk = .ok (S', c') →
    ChainRun E c' (log ++ eventsAt blk.header.height (freshOf E c blk))

variable {E : Env}

theorem ChainRun.reached {c : NamecoinChain} {log : List Event} (h : ChainRun E c log) :
    ReachedChain E c := by
  induction h with
  | empty store cfg => exact .empty store cfg
  | step _ ha ih => exact .step ih ha

theorem exists_run {c : NamecoinChain} (h : ReachedChain E c) : ∃ log, ChainRun E c log := by
  induction h with
  | empty store cfg => exact ⟨[], .empty store cfg⟩
  | step _ ha ih =>
    obtain ⟨log, hl⟩ := ih
    exact ⟨_, .step hl ha⟩

/-- The payload of a `NameNew`. -/
def newOf (tx : Tx) : Option NameNew :=
  match resolveCommand tx.type tx.payload with
  | .ok (.nameNew n) => some n
  | _ => none

theorem newOf_eq {tx : Tx} {n : NameNew} (h : resolveCommand tx.type tx.payload = .ok (.nameNew n)) :
    newOf tx = some n := by
  unfold newOf
  rw [h]

/-! ### Runs of fresh transactions -/

theorem FreshRun.split {id : String} {tx : Tx} {post : List (String × Tx)} {s' : NamecoinState} :
    ∀ {pre : List (String × Tx)} {s : NamecoinState}, FreshRun E (pre ++ (id, tx) :: post) s s' →
    ∃ s₁ s₂, FreshRun E pre s s₁ ∧ id ∉ s₁.txMap ∧ FreshStep E id tx s₁ s₂ ∧ FreshRun E post s₂ s'
  | [], s, h => by
    cases h with
    | cons hid hf hr => exact ⟨s, _, .nil s, hid, hf, hr⟩
  | _ :: _, s, h => by
    cases h with
    | cons hid hf hr =>
      obtain ⟨s₁, s₂, h1, h2, h3, h4⟩ := FreshRun.split hr
      exact ⟨s₁, s₂, .cons hid hf h1, h2, h3, h4⟩

theorem freshStep_height {id : String} {tx : Tx} {s s' : NamecoinState} (h : FreshStep E id tx s s') :
    s'.currentHeight = s.currentHeight := by
  obtain ⟨cmd, c, -, -, hc, s₁, hn, rfl⟩ := freshStep_cases h
  have hcoins : CoinsOnly s c := (coinEffect_coinsOnly id tx cmd).ok hc
  rw [show (markAsApplied id s₁).currentHeight = c.currentHeight from (NameEffect.namesOnly hn).height,
    hcoins]

theorem FreshRun.induct {P : List (String × Tx) → NamecoinState → Prop} {all : List (String × Tx)}
    {s' : NamecoinState}
    (step : ∀ pre id tx post s s₁, all = pre ++ (id, tx) :: post → id ∉ s.txMap → FreshStep E id tx s s₁ →
      P pre s → P (pre ++ [(id, tx)]) s₁) :
    ∀ {rest pre : List (String × Tx)} {s : NamecoinState}, FreshRun E rest s s' →
    all = pre ++ rest → P pre s →
      P all s'
  | [], pre, s, h, hall, hP => by
    cases h
    rw [hall, List.append_nil]
    exact hP
  | _ :: rest, pre, s, h, hall, hP => by
    cases h with
    | cons hid hf hr =>
      exact FreshRun.induct step hr (by simp [hall]) (step pre _ _ rest s _ hall hid hf hP)

/-! ### Commitments -/

/-- `e₀` is a `NameNew` among the events `pre` that stored what the `NameFirstUpdate` `e` refers to. -/
structure Consumes (E : Env) (pre : List Event) (e₀ e : Event) (n : NameFirstUpdate) : Prop where
  before : e₀ ∈ pre
  key : commitKey n e.tx = some (outpointKey e₀.txID 0)
  commit : ∃ m, newOf e₀.tx = some m ∧ m.commitment = commitmentOf E n

/-- No `NameFirstUpdate` among the events refers to the key. -/
def Unused (log : List Event) (key : String) : Prop :=
  ∀ e ∈ log, ∀ n, firstUpdateOf e.tx = some n → commitKey n e.tx ≠ some key

/-- A commitment made at height `h` is not too old at height `H`; one made at height 0 never is. -/
def InTime (h H : UInt64) : Prop := ¬ (0 < h.toNat ∧ h.toNat + maxFirstUpdateDepth.toNat < H.toNat)

/-- What the events of a run say of the commitments of its state. -/
structure Logged (E : Env) (log : List Event) (s : NamecoinState) : Prop where
  built : ∀ e ∈ log, buildTransactionID E e.tx = .ok e.txID
  applied : ∀ e ∈ log, e.txID ∈ s.txMap
  nodup : (log.map Event.txID).Nodup
  made : ∀ key r, s.commitments.lookup key = some r → ∃ e ∈ log, ∃ m, newOf e.tx = some m ∧
    key = outpointKey e.txID 0 ∧ r.commit = m.commitment ∧ r.height = e.height
  unused : ∀ key ∈ s.commitments, Unused log key
  used : ∀ pre e post n, log = pre ++ e :: post → firstUpdateOf e.tx = some n →
    ∃ e₀, Consumes E pre e₀ e n ∧ InTime e₀.height e.height ∧ Unused (pre ++ post) (outpointKey e₀.txID 0)

theorem logged_newState : Logged E [] newState where
  built e h := absurd h List.not_mem_nil
  applied e h := absurd h List.not_mem_nil
  nodup := List.nodup_nil
  made key r h := by simp [newState] at h
  unused key _ e h := absurd h List.not_mem_nil
  used pre e post n h := by simp at h

theorem outpointKey_id {a b : Tx} {i j : String} (ha : buildTransactionID E a = .ok i)
    (hb : buildTransactionID E b = .ok j) (h : outpointKey i 0 = outpointKey j 0) : i = j := by
  obtain ⟨p, -, rfl⟩ := buildTransactionID_ok_iff.mp ha
  obtain ⟨q, -, rfl⟩ := buildTransactionID_ok_iff.mp hb
  unfold hashHex at h ⊢
  rw [outpointKey_hex_inj h]

theorem unused_append {log : List Event} {e : Event} {key : String} :
    Unused (log ++ [e]) key ↔ Unused log key ∧ ∀ n, firstUpdateOf e.tx = some n →
    commitKey n e.tx ≠ some key := by
  unfold Unused
  simp only [List.mem_append, List.mem_singleton]
  exact ⟨fun h => ⟨fun e' he' => h e' (.inl he'), h e (.inr rfl)⟩,
    fun h e' he' => he'.elim (h.1 e') fun he' => he' ▸ h.2⟩

theorem append_singleton_split {log pre post : List Event} {e e' : Event}
    (h : log ++ [e] = pre ++ e' :: post) :
    (∃ post', post = post' ++ [e] ∧ log = pre ++ e' :: post') ∨ post = [] ∧ e' = e ∧ pre = log := by
  rcases List.eq_nil_or_concat post with rfl | ⟨post', x, rfl⟩
  · obtain ⟨h1, h2⟩ := List.append_inj' h rfl
    exact .inr ⟨rfl, (List.cons.inj h2).1.symm, h1.symm⟩
  · have h' : log ++ [e] = (pre ++ e' :: post') ++ [x] := by simpa using h
    obtain ⟨h1, h2⟩ := List.append_inj' h' rfl
    exact .inl ⟨post', by rw [(List.cons.inj h2).1, List.concat_eq_append], h1⟩

section step

variable {log : List Event} {id : String} {tx : Tx} {s s' : NamecoinState}

theorem Logged.add (h : Logged E log s) (hb : buildTransactionID E tx = .ok id) (hid : id ∉ s.txMap)
    (htx : s'.txMap = insert id s.txMap) {height : UInt64}
    (hmade : ∀ key r, s'.commitments.lookup key = some r → s.commitments.lookup key = some r ∨
      ∃ m, newOf tx = some m ∧ key = outpointKey id 0 ∧ r.commit = m.commitment ∧ r.height = height)
    (hused : ∀ n, firstUpdateOf tx = some n → ∃ e₀, Consumes E log e₀ ⟨height, id, tx⟩ n ∧
      InTime e₀.height height ∧ outpointKey e₀.txID 0 ∈ s.commitments ∧
      outpointKey e₀.txID 0 ∉ s'.commitments) : Logged E (log ++ [⟨height, id, tx⟩]) s' := by
  have hold : ∀ e ∈ log, e.txID ≠ id := fun e he heq => hid (heq ▸ h.applied e he)
  refine ⟨fun e he => ?_, fun e he => ?_, ?_, fun key r hr => ?_, fun key hk => ?_,
    fun pre e post n hsplit hn => ?_⟩
  · rcases List.mem_append.mp he with he | he
    · exact h.built e he
    · rw [List.mem_singleton.mp he]; exact hb
  · rw [htx]
    rcases List.mem_append.mp he with he | he
    · exact Finset.mem_insert_of_mem (h.applied e he)
    · rw [List.mem_singleton.mp he]; exact Finset.mem_insert_self _ _
  · rw [List.map_append, List.map_singleton]
    refine List.Nodup.append h.nodup (List.nodup_singleton _) ?_
    rw [List.disjoint_singleton]
    intro hm
    obtain ⟨e, he, heq⟩ := List.mem_map.mp hm
    exact hold e he heq
  · rcases hmade key r hr with hr | ⟨m, hm, hkey, hcom, hheight⟩
    · obtain ⟨e, he, rest⟩ := h.made key r hr
      exact ⟨e, List.mem_append_left _ he, rest⟩
    · exact ⟨_, List.mem_append_right _ (List.mem_singleton_self _), m, hm, hkey, hcom, hheight⟩
  · obtain ⟨r, hr⟩ := Finmap.mem_iff.mp hk
    refine unused_append.mpr ⟨?_, fun n hn hkey => ?_⟩
    · rcases hmade key r hr with hr | ⟨m, hm, rfl, -, -⟩
      · exact h.unused key (Finmap.mem_of_lookup_eq_some hr)
      · -- an earlier `NameFirstUpdate` referred to an earlier `NameNew`, whose ID is another
        intro e he n hn hkey
        obtain ⟨pre, post, hsplit⟩ := List.append_of_mem he
        obtain ⟨e₀, hc, -, -⟩ := h.used pre e post n hsplit hn
        have he₀ : e₀ ∈ log := by rw [hsplit]; exact List.mem_append_left _ hc.before
        rw [hc.key, Option.some.injEq] at hkey
        exact hold e₀ he₀ (outpointKey_id (h.built e₀ he₀) hb hkey)
    · obtain ⟨e₀, hc, -, -, hgone⟩ := hused n hn
      have heq : outpointKey e₀.txID 0 = key := Option.some.inj (hc.key.symm.trans hkey)
      exact hgone (heq ▸ hk)
  · rcases append_singleton_split hsplit with ⟨post', rfl, hlog⟩ | ⟨rfl, rfl, rfl⟩
    · obtain ⟨e₀, hc, htime, hun⟩ := h.used pre e post' n hlog hn
      refine ⟨e₀, hc, htime, ?_⟩
      rw [← List.append_assoc]
      refine unused_append.mpr ⟨hun, fun n' hn' hkey => ?_⟩
      -- the commitment `e` consumed is not there any more for the new event
      obtain ⟨e₁, hc₁, -, hthere, -⟩ := hused n' hn'
      have heq : outpointKey e₁.txID 0 = outpointKey e₀.txID 0 :=
        Option.some.inj (hc₁.key.symm.trans hkey)
      exact h.unused _ (heq ▸ hthere) e (by rw [hlog]; simp) n hn hc.key
    · obtain ⟨e₀, hc, htime, hthere, -⟩ := hused n hn
      exact ⟨e₀, hc, htime, by rw [List.append_nil]; exact h.unused _ hthere⟩

theorem firstUpdate_in_time {n : NameFirstUpdate}
    (hcmd : resolveCommand tx.type tx.payload = .ok (.nameFirstUpdate n))
    (hv : validateTxStrict E s id tx = .ok ()) : ∃ key r, commitKey n tx = some key ∧
      s.commitments.lookup key = some r ∧ commitmentOf E n = r.commit ∧
      InTime r.height s.currentHeight := by
  obtain ⟨⟨key, r, hk, hr, hcom, hage⟩, -⟩ :=
    firstUpdate_validateWithInputs_iff.mp (validateTxStrict_command hcmd hv).2
  exact ⟨key, r, hk, hr, hcom, fun h => hage (tooOld_iff.mpr h)⟩

/-- **One transaction more.** -/
theorem Logged.freshStep (h : Logged E log s) (hb : buildTransactionID E tx = .ok id) (hid : id ∉ s.txMap)
    (hf : FreshStep E id tx s s') : Logged E (log ++ [⟨s.currentHeight, id, tx⟩]) s' := by
  obtain ⟨cmd, c, hcmd, hv, hcoin, s₁, hn, rfl⟩ := freshStep_cases hf
  have hc : CoinsOnly s c := (coinEffect_coinsOnly id tx cmd).ok hcoin
  have hnone : (∀ n, cmd ≠ .nameFirstUpdate n) → ∀ n, firstUpdateOf tx ≠ some n := fun hne n hn => by
    rw [firstUpdateOf_iff, hcmd] at hn
    exact hne n (Except.ok.inj hn)
  refine h.add hb hid (freshStep_txMap hf) (fun key r hr => ?_) fun n hn' => ?_
  · cases hn with
    | nameNew n =>
      have hr' : (c.commitments.insert (outpointKey id 0) _).lookup key = some r := hr
      rw [lookup_insert_ite] at hr'
      by_cases hk : key = outpointKey id 0
      · rw [if_pos hk] at hr'
        cases hr'
        exact .inr ⟨n, newOf_eq hcmd, hk, rfl, by rw [hc]⟩
      · rw [if_neg hk, hc] at hr'
        exact .inl hr'
    | reward => rw [hc] at hr; exact .inl hr
    | nameUpdate n _ r' =>
      obtain ⟨e, he⟩ := setDomain_eq (n.updated c r') c
      rw [he, hc] at hr
      exact .inl hr
    | nameFirstUpdate n _ r' key' =>
      obtain ⟨e, he⟩ := setDomain_eq (firstRecord n tx r'.ttl (dropExpired n.domain c))
        (dropExpired n.domain c)
      obtain ⟨e', he'⟩ := dropExpired_eq n.domain c
      rw [he, he', hc] at hr
      have hr' : (s.commitments.erase key').lookup key = some r := hr
      rw [lookup_erase_ite] at hr'
      split_ifs at hr'
      exact .inl hr'
  · cases hn with
    | nameNew m => exact absurd hn' (hnone (by simp) n)
    | reward => exact absurd hn' (hnone (by simp) n)
    | nameUpdate m => exact absurd hn' (hnone (by simp) n)
    | nameFirstUpdate n₁ _ r' key' hres =>
      rw [firstUpdateOf_iff, hcmd] at hn'
      cases hn'
      obtain ⟨key, r, hkey, hr, hcom, htime⟩ := firstUpdate_in_time hcmd hv
      obtain ⟨e₀, he₀, m, hm, rfl, hcm, hheight⟩ := h.made key r hr
      refine ⟨e₀, ⟨he₀, hkey, m, hm, by rw [hcom, hcm]⟩, hheight ▸ htime,
        Finmap.mem_of_lookup_eq_some hr, ?_⟩
      have hk' : key' = outpointKey e₀.txID 0 :=
        Option.some.inj ((resolveCommitment_ok_iff.mp hres).1.symm.trans hkey)
      rw [hk']
      exact Finmap.notMem_erase_self

end step

/-- **The transactions of a block.** -/
theorem Logged.freshRun {log : List Event} {txs : List (String × Tx)} {s s' : NamecoinState}
    (h : Logged E log s) (hb : ∀ e ∈ txs, buildTransactionID E e.2 = .ok e.1) (hr : FreshRun E txs s s') :
    Logged E (log ++ eventsAt s.currentHeight txs) s' := by
  refine (FreshRun.induct (P := fun done st => st.currentHeight = s.currentHeight ∧
    Logged E (log ++ eventsAt s.currentHeight done) st) (fun pre id tx post st st₁ hall hid hf ih => ?_)
    hr (List.nil_append txs).symm ⟨rfl, by simpa [eventsAt] using h⟩).2
  refine ⟨(freshStep_height hf).trans ih.1, ?_⟩
  have := ih.2.freshStep (hb (id, tx) (by rw [hall]; simp)) hid hf
  rw [ih.1] at this
  simpa [eventsAt] using this

theorem Logged.of_eq {log : List Event} {s s' : NamecoinState} (h : Logged E log s)
    (hc : s'.commitments = s.commitments) (ht : s'.txMap = s.txMap) : Logged E log s' :=
  ⟨h.built, ht ▸ h.applied, h.nodup, hc ▸ h.made, hc ▸ h.unused, h.used⟩

theorem Logged.atHeight {log : List Event} {s : NamecoinState} (h : Logged E log s) (height : UInt64) :
    Logged E log (atHeight height s) := by
  refine h.of_eq ?_ (pruned_rest height s).2
  unfold Namecoin.State.Effects.atHeight
  rw [(pruneExpired_pruned height (setHeight height s)).rest]
  rfl

/-- **The commitments of a chain come from its history.** -/
theorem ChainRun.logged {c : NamecoinChain} {log : List Event} (h : ChainRun E c log) :
    Logged E log c.state := by
  induction h with
  | empty store cfg => exact logged_newState
  | @step S S' c c' blk log hrun ha ih =>
    obtain ⟨st, hfresh, hst⟩ := hrun.reached.freshRun ha
    have hb : ∀ e ∈ freshOf E c blk, buildTransactionID E e.2 = .ok e.1 :=
      fun e he => (freshTxs_build he).2.1
    have hl := (ih.atHeight blk.header.height).freshRun hb hfresh
    rw [atHeight_currentHeight] at hl
    exact hl.of_eq (by rw [hst]; rfl) (by rw [hst]; rfl)

end Namecoin.Chain.History
