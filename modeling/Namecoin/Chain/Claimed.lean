import Namecoin.Chain.Reveal

/-! # Claimed names

`SetDomain` marks a name as claimed when it is registered, and `pruneExpired` clears the mark with the
record. Both work on the clone of the state that a block is applied to, and `replaceWith` does not hand
the marks over: no name is ever marked in the state of a chain (`ReachedChain.wellFormed`).

* `names_after_block`: a block leaves a chain without names as it is, unless it registers one;
* `marks_match_iff`: the marked names are the registered ones along a run exactly if
  the run registers no name;
* `unmarked_name`: a chain with a registered name that is not marked. -/

namespace Namecoin.Chain.Claimed

open Types.Defs Types.SampleEnv State.Defs State.Strict State.Effects State.Invariant State.Fresh
open State.Wallet State.Together Chain.Pow Chain.Stores Chain.Defs Chain.Apply Chain.Registration
open Chain.History Chain.Reveal

variable {E : Env} {S S' : Heap} {c c' : NamecoinChain} {cs : List NamecoinChain} {blk : Block}
  {log : List Event}

/-- The claimed names of a state are the registered ones. -/
def ClaimsMatch (s : NamecoinState) : Prop := ∀ d, d ∈ s.claimedDomains ↔ d ∈ s.domains

/-- The chains of a run of accepted blocks from an empty chain, the last one first,
with the events of the run. -/
inductive Course (E : Env) : List NamecoinChain → List Event → Prop
  | empty (store : ℕ) (cfg : PoWConfig) : Course E [configurePow cfg (newNamecoinChain store)] []
  | step {S S' : Heap} {c c' : NamecoinChain} {cs : List NamecoinChain} {blk : Block} {log : List Event} :
    Course E (c :: cs) log → c.applyBlock E S blk = .ok (S', c') →
    Course E (c' :: c :: cs) (log ++ eventsAt blk.header.height (freshOf E c blk))

theorem Course.run (h : Course E (c :: cs) log) : ChainRun E c log := by
  generalize hl : c :: cs = l at h
  induction h generalizing c cs with
  | empty store cfg =>
    cases hl
    exact .empty store cfg
  | step _ ha ih =>
    cases hl
    exact .step (ih rfl) ha

theorem exists_course (h : ChainRun E c log) : ∃ cs, Course E (c :: cs) log := by
  induction h with
  | empty store cfg => exact ⟨[], .empty store cfg⟩
  | step _ ha ih =>
    obtain ⟨cs, hcs⟩ := ih
    exact ⟨_, .step hcs ha⟩

/-! ### Names without a registration -/

/-- No name is marked, so the marks are right as long as there is no name. -/
theorem claimsMatch_iff (h : ReachedChain E c) : ClaimsMatch c.state ↔ c.state.domains = ∅ := by
  unfold ClaimsMatch
  rw [h.wellFormed.2]
  constructor
  · intro hmatch
    refine Finmap.ext_lookup fun d => ?_
    rw [Finmap.lookup_empty]
    exact Finmap.lookup_eq_none.mpr fun hd => Finset.notMem_empty d ((hmatch d).mpr hd)
  · intro hempty d
    rw [hempty]
    exact ⟨fun hd => absurd hd (Finset.notMem_empty d), fun hd => absurd hd Finmap.notMem_empty⟩

/-- A transaction that is no `NameFirstUpdate` makes no name where there is none: a
`NameUpdate` needs the record. -/
theorem freshStep_no_names {id : String} {tx : Tx} {s s' : NamecoinState} (hf : FreshStep E id tx s s')
    (hno : firstUpdateOf tx = none) (hs : s.domains = ∅) : s'.domains = ∅ := by
  obtain ⟨cmd, m, hcmd, -, hm, s₁, hn, rfl⟩ := freshStep_cases hf
  have hcoins : CoinsOnly s m := (coinEffect_coinsOnly id tx cmd).ok hm
  have hdomains : m.domains = ∅ := by rw [hcoins]; exact hs
  rw [markAsApplied_domains]
  cases hn with
  | nameNew n => exact hdomains
  | nameFirstUpdate n => rw [firstUpdateOf_iff.mpr hcmd] at hno; cases hno
  | nameUpdate n _ r hr => rw [hdomains, Finmap.lookup_empty] at hr; cases hr
  | reward => exact hdomains

theorem freshRun_no_names {rest : List (String × Tx)} {s s' : NamecoinState} (h : FreshRun E rest s s') :
    (∀ e ∈ rest, firstUpdateOf e.2 = none) → s.domains = ∅ → s'.domains = ∅ := by
  induction h with
  | nil => exact fun _ hs => hs
  | cons _ hf _ ih =>
    intro hno hs
    exact ih (fun e he => hno e (List.mem_cons_of_mem _ he))
      (freshStep_no_names hf (hno _ List.mem_cons_self) hs)

/-- **Names after a block.** A chain without names has none after a block exactly if no transaction
that takes effect in the block is a `NameFirstUpdate`. -/
theorem names_after_block (hrun : ChainRun E c log) (ha : c.applyBlock E S blk = .ok (S', c'))
    (hc : c.state.domains = ∅) :
    c'.state.domains = ∅ ↔ ∀ e ∈ freshOf E c blk, firstUpdateOf e.2 = none := by
  constructor
  · rintro hempty ⟨id, tx⟩ he
    by_contra hne
    obtain ⟨n, hn⟩ := Option.ne_none_iff_exists'.mp hne
    obtain ⟨pre, post, hsplit⟩ := List.append_of_mem he
    obtain ⟨r, -, hr, -⟩ := reveal_owner hrun ha hsplit hn
    rw [hempty, Finmap.lookup_empty] at hr
    cases hr
  · intro hno
    obtain ⟨st, hfresh, hst⟩ := hrun.reached.freshRun ha
    have hstart : (atHeight blk.header.height c.state).domains = ∅ := by
      refine Finmap.ext_lookup fun d => ?_
      rw [Finmap.lookup_empty]
      by_contra hne
      obtain ⟨r, hr⟩ := Option.ne_none_iff_exists'.mp hne
      have hold := (pruneExpired_pruned _ _).shrinks d r hr
      rw [show (setHeight blk.header.height c.state).domains = ∅ from hc, Finmap.lookup_empty] at hold
      cases hold
    have hst' : c'.state.domains = st.domains := by rw [hst]; rfl
    rw [hst']
    exact freshRun_no_names hfresh hno hstart

/-! ### Whole runs -/

/-- **The claimed names are the registered ones** in every state of a run exactly if no transaction
that took effect in the run is a `NameFirstUpdate`. -/
theorem marks_match_iff (h : Course E cs log) :
    (∀ c ∈ cs, ClaimsMatch c.state) ↔ ∀ e ∈ log, firstUpdateOf e.tx = none := by
  induction h with
  | empty store cfg =>
    have hmatch : ClaimsMatch (configurePow cfg (newNamecoinChain store)).state :=
      (claimsMatch_iff (E := E) (.empty store cfg)).mpr rfl
    exact ⟨fun _ => List.forall_mem_nil _, fun _ => List.forall_mem_singleton.mpr hmatch⟩
  | @step S S' c c' cs blk log hcs ha ih =>
    have hreach := hcs.run.reached
    have hevents : (∀ e ∈ eventsAt blk.header.height (freshOf E c blk), firstUpdateOf e.tx = none) ↔
        ∀ e ∈ freshOf E c blk, firstUpdateOf e.2 = none := List.forall_mem_map
    rw [List.forall_mem_cons, List.forall_mem_append, ← ih, hevents, and_comm]
    refine and_congr_right fun hall => ?_
    have hempty := (claimsMatch_iff hreach).mp (hall c List.mem_cons_self)
    rw [claimsMatch_iff (.step hreach ha), names_after_block hcs.run ha hempty]

/-- A run with a reward and a commitment. -/
theorem claimed_commitment : ∃ (E : Env) (cs : List NamecoinChain) (log : List Event), Course E cs log ∧
    log ≠ [] ∧ ∀ c ∈ cs, ClaimsMatch c.state := by
  let k := plainSigner 7
  obtain ⟨c, -, -, -, log, hlog, -, -, -, hnone, e₀, he₀, -⟩ :=
    reveal_accepted plainEnv_collisionFree plainEnv_canonicalJson k k 0
  obtain ⟨cs, hcs⟩ := exists_course hlog
  exact ⟨_, c :: cs, log, hcs, List.ne_nil_of_mem he₀, (marks_match_iff hcs).mpr hnone⟩

/-- The name that the second block registers is not marked. -/
theorem unmarked_name : ¬ ∀ (E : Env) (c : NamecoinChain), ReachedChain E c → ClaimsMatch c.state := by
  intro hall
  let k := plainSigner 7
  obtain ⟨c, c', S', blk, log, hlog, ha, hfresh, -⟩ :=
    reveal_accepted plainEnv_collisionFree plainEnv_canonicalJson k k 0
  have hreach := hlog.reached.step ha
  have hempty := (claimsMatch_iff hreach).mp (hall _ c' hreach)
  rw [← List.nil_append [((revealTx k k).txID, revealTx k k)]] at hfresh
  obtain ⟨r, -, hr, -⟩ := reveal_owner hlog ha hfresh (firstUpdateOf_revealTx k k)
  rw [hempty, Finmap.lookup_empty] at hr
  cases hr

end Namecoin.Chain.Claimed
