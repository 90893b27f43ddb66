import Namecoin.Paxos.Cluster
import Namecoin.Paxos.Threads

/-! # Names that are taken

`Tag` looks for the name in the naming store, reads the current step, and proposes the name for that
step. Commits may fall between the look and the reading, and nobody looks again. Agreement is assumed
here: a step is decided once, with a value that has been proposed for it, and every node commits the
decided values step by step.

* `tagTurn`: a turn of `Tag`, with the tasks of `Threads`;
* `bindings_iff`: **no committed block rebinds a name** as long as the naming store does not bind the
  name to something else when `Tag` reads the step, and no longer;
* `name_rebound`: a commit that falls in between. -/

namespace Namecoin.Paxos.Naming

open Function
open Lib.Maps Lib.ByteStrings Lib.Systems Types.Defs State.Commands Paxos.Defs Paxos.Cluster
open Paxos.Threads

/-- Nodes with their calls of `Tag`, the values that have been proposed for a step, and the decisions. -/
structure Network (ι A : Type) where
  nodes : ι → Node A
  tags : ι → List (Work A)
  proposed : List (ℕ × PaxosValue)
  decided : ℕ → Option PaxosValue

/-- Somebody calls `Tag`, a call has a turn, a step is decided, and a node commits its
current step and advances. -/
inductive Action (ι : Type)
  | tag (i : ι) (name mh : String)
  | turn (i : ι) (t : ℕ)
  | decide (s : ℕ) (v : PaxosValue)
  | commit (i : ι)
  | advance (i : ι)

variable {ι A : Type} [DecidableEq ι] [DecidableEq A] (H : Bytes → Digest)
variable {v : PaxosValue}

/-- A turn of `Tag`. The rounds of messages between the proposal and the wait are left to the decision. -/
def tagTurn (n : Node A) : Work A → Option (Node A × Work A)
  | .tagInit s v => some (initializeProposerState n s v, .register s v)
  | j => (exec H n j).bind fun e => e.next.head?.map fun j' => (e.shared, j')

/-- What is proposed by a turn of `Tag`. -/
def proposal : Work A → List (ℕ × PaxosValue)
  | .tagInit s v => [(s, v)]
  | _ => []

/-- The loop body of `commitStepAndAdvance` after the block has been stored. -/
def finishStep (n : Node A) : Node A :=
  advanceStep (cleanupTLCState (cleanupProposerState (completeStepWaiters n n.currentStep) n.currentStep)
    n.currentStep)

def networkStep (W : Network ι A) : Action ι → Option (Network ι A)
  | .tag i name mh => some { W with tags := update W.tags i (W.tags i ++ [.tagBegin name mh]) }
  | .turn i t => (W.tags i)[t]?.bind fun j => (tagTurn H (W.nodes i) j).map fun r =>
    { W with
      nodes := update W.nodes i r.1
      tags := update W.tags i ((W.tags i).set t r.2)
      proposed := W.proposed ++ proposal j }
  | .decide s v =>
    if (s, v) ∈ W.proposed ∧ W.decided s = none then
      some { W with decided := update W.decided s (some v) } else none
  | .commit i =>
    let n := W.nodes i
    if n.commits.length = n.currentStep then (W.decided n.currentStep).map fun v =>
      { W with nodes := update W.nodes i (commitBlock n n.currentStep (buildBlock H n n.currentStep v)) }
        else none
  | .advance i =>
    let n := W.nodes i
    if n.commits.length = n.currentStep + 1 then some { W with nodes := update W.nodes i (finishStep n) }
      else none

/-- Any number of nodes, with empty stores. -/
def network (ι A : Type) [DecidableEq ι] [DecidableEq A] (H : Bytes → Digest) :
    System (Network ι A) (Action ι) where
  start W := (∀ i, ∃ self paxosID totalPeers width, W.nodes i = newNode self paxosID totalPeers width) ∧
    (∀ i, W.tags i = []) ∧ W.proposed = [] ∧ ∀ s, W.decided s = none
  step := networkStep H

/-- **A name is bound to one metahash by all committed blocks.** -/
def Bound (W : Network ι A) : Prop := ∀ i i', ∀ c ∈ (W.nodes i).commits, ∀ c' ∈ (W.nodes i').commits,
  c.2.value.filename = c'.2.value.filename → c.2.value.metahash = c'.2.value.metahash

/-- The store does not bind the name of the value to something else. -/
def Free (n : Node A) (v : PaxosValue) : Prop :=
  n.resolved v.filename = "" ∨ n.resolved v.filename = v.metahash

/-- The value of a call of `Tag` that is about to read the step. -/
def reading : Work A → Option PaxosValue
  | .tagRead v => some v
  | _ => none

/-- When `Tag` reads the step, the store does not bind the name to something else. -/
def FreeAtRead (W : Network ι A) : Action ι → Prop
  | .turn i t => ∀ v ∈ (W.tags i)[t]?.bind reading, Free (W.nodes i) v
  | _ => True

/-! ### Turns of `Tag` -/

/-- The value a call of `Tag` has in its loop. -/
def carries : Work A → Option PaxosValue
  | .tagCheck v | .tagRead v | .tagInit _ v | .register _ v | .wait _ _ v | .tagEnd v => some v
  | _ => none

/-- The tasks of `Tag`. -/
def tagging : Work A → Bool
  | .tagBegin .. | .returned _ => true
  | j => (carries j).isSome

variable {H} {W W' : Network ι A} {n n' : Node A} {j j' : Work A} {a : Action ι} {i : ι}

/-- What a turn of `Tag` does. -/
structure TagTurn (n : Node A) (j : Work A) (n' : Node A) (j' : Work A) : Prop where
  tagging : tagging j' = true
  commits : n'.commits = n.commits
  step : n'.currentStep = n.currentStep
  peers : n'.totalPeers = n.totalPeers
  naming : 1 < n.totalPeers → n'.naming = n.naming
  value : ∀ v, carries j' = some v → carries j = some v ∨ Named v ∧ 1 < n.totalPeers
  read : ∀ s v, j' = .tagInit s v → j = .tagRead v ∧ s = n.currentStep

omit [DecidableEq A] in
/-- `Tag` returns. -/
theorem TagTurn.returned {err : Option Err} (hnaming : 1 < n.totalPeers → n'.naming = n.naming)
    (hcommits : n'.commits = n.commits) (hstep : n'.currentStep = n.currentStep)
    (hpeers : n'.totalPeers = n.totalPeers) : TagTurn n j n' (.returned err) := by
  refine ⟨rfl, hcommits, hstep, hpeers, hnaming, fun v hv => ?_, fun s v he => ?_⟩
  · cases hv
  · cases he

omit [DecidableEq A] in
theorem TagTurn.on (hj : carries j = some v) (hj' : carries j' = some v)
    (hnot : ∀ s v, j' ≠ .tagInit s v) (htag : Naming.tagging j' = true) (hnaming : n'.naming = n.naming)
    (hcommits : n'.commits = n.commits) (hstep : n'.currentStep = n.currentStep)
    (hpeers : n'.totalPeers = n.totalPeers) : TagTurn n j n' j' :=
  ⟨htag, hcommits, hstep, hpeers, fun _ => hnaming, fun _ hv => .inl (hj.trans (hj'.symm.trans hv)),
    fun s v he => absurd he (hnot s v)⟩

theorem tagTurn_spec (hj : tagging j = true) (h : tagTurn H n j = some (n', j')) : TagTurn n j n' j' := by
  cases j with
  | tagBegin name mh =>
    simp only [tagTurn, exec, tagSection] at h
    split_ifs at h with hblank hpeers htaken
    · cases h
      exact .returned (fun _ => rfl) rfl rfl rfl
    · cases h
      exact .returned (fun hlt => absurd hpeers (Nat.not_le.mpr hlt)) rfl rfl rfl
    · cases h
      exact .returned (fun _ => rfl) rfl rfl rfl
    · cases h
      rw [not_or] at hblank
      refine ⟨rfl, rfl, rfl, rfl, fun _ => rfl, fun v hv => ?_, fun s v he => ?_⟩
      · cases hv
        exact .inr ⟨⟨named_trimSpace hblank.1, named_trimSpace hblank.2⟩, Nat.lt_of_not_le hpeers⟩
      · cases he
  | tagCheck v =>
    simp only [tagTurn, exec, checkSection] at h
    split at h <;> cases h
    · exact .returned (fun _ => rfl) rfl rfl rfl
    · exact .on rfl rfl (by simp) rfl rfl rfl rfl rfl
  | tagRead v =>
    cases h
    refine ⟨rfl, rfl, rfl, rfl, fun _ => rfl, fun v hv => .inl hv, fun s v he => ?_⟩
    cases he
    exact ⟨rfl, rfl⟩
  | tagInit s v =>
    cases h
    exact .on rfl rfl (by simp) rfl rfl rfl rfl rfl
  | register s v =>
    simp only [tagTurn, exec, registerStepWaiter] at h
    split_ifs at h <;> cases h
    all_goals exact .on rfl rfl (by simp) rfl rfl rfl rfl rfl
  | wait s ch v =>
    simp only [tagTurn, exec] at h
    split_ifs at h <;> cases h
    exact .on rfl rfl (by simp) rfl rfl rfl rfl rfl
  | tagEnd v =>
    simp only [tagTurn, exec, checkSection] at h
    split at h <;> cases h
    · exact .returned (fun _ => rfl) rfl rfl rfl
    · exact .on rfl rfl (by simp) rfl rfl rfl rfl rfl
  | returned err => cases h
  | _ => cases hj

/-! ### The invariant -/

/-- A value is proposed for a step, or `Tag` is about to propose it. -/
def Claim (W : Network ι A) (s : ℕ) (v : PaxosValue) : Prop :=
  (s, v) ∈ W.proposed ∨ ∃ i, .tagInit s v ∈ W.tags i

/-- A node has committed the decisions, and its store holds the names in them. -/
structure Follows (decided : ℕ → Option PaxosValue) (n : Node A) : Prop where
  steps : n.commits.length = n.currentStep ∨ n.commits.length = n.currentStep + 1
  log : ∀ k B, n.commits[k]? = some B → decided k = some B.2.value
  store : 1 < n.totalPeers → ∀ name mh, n.naming.lookup name = some mh ↔
    ∃ B ∈ n.commits, B.2.value = ⟨name, mh⟩

/-- Decisions do not contradict each other, and a proposal does not contradict the
decisions of the steps before. -/
structure Sane (W : Network ι A) : Prop where
  named : ∀ s v, W.decided s = some v → Named v
  one : ∀ s s' v v', W.decided s = some v → W.decided s' = some v' → v.filename = v'.filename →
    v.metahash = v'.metahash
  claims : ∀ s v, Claim W s v → Named v ∧ ∀ k < s, ∃ v', W.decided k = some v' ∧
    (v'.filename = v.filename → v'.metahash = v.metahash)
  below : ∀ s k, W.decided s ≠ none → k < s → W.decided k ≠ none
  nodes : ∀ i, Follows W.decided (W.nodes i)
  tags : ∀ i, ∀ j ∈ W.tags i, tagging j = true ∧ ∀ v, carries j = some v → Named v ∧
    1 < (W.nodes i).totalPeers

omit [DecidableEq ι] [DecidableEq A] in
theorem Sane.committed (h : Sane W) {B : ℕ × BlockchainBlock} (hB : B ∈ (W.nodes i).commits) :
    ∃ k, W.decided k = some B.2.value := by
  obtain ⟨k, hk⟩ := List.mem_iff_getElem?.mp hB
  exact ⟨k, (h.nodes i).log k B hk⟩

omit [DecidableEq ι] [DecidableEq A] in
theorem Sane.bound (h : Sane W) : Bound W := by
  intro i i' c hc c' hc' hname
  obtain ⟨k, hk⟩ := h.committed hc
  obtain ⟨k', hk'⟩ := h.committed hc'
  exact h.one k k' _ _ hk hk' hname

omit [DecidableEq ι] [DecidableEq A] in
theorem Sane.resolved (h : Sane W) (hpeers : 1 < (W.nodes i).totalPeers) {B : ℕ × BlockchainBlock}
    (hB : B ∈ (W.nodes i).commits) : (W.nodes i).resolved B.2.value.filename = B.2.value.metahash := by
  have hlookup := ((h.nodes i).store hpeers B.2.value.filename B.2.value.metahash).mpr ⟨B, hB, rfl⟩
  unfold Node.resolved
  rw [hlookup]
  rfl

omit [DecidableEq ι] [DecidableEq A] in
theorem ne_empty_of_not_blank {x : String} (h : blank x = false) : x ≠ "" := by
  rintro rfl
  exact absurd h (by decide)

omit [DecidableEq ι] [DecidableEq A] in
theorem Sane.read (h : Sane W) (hpeers : 1 < (W.nodes i).totalPeers) (hfree : Free (W.nodes i) v) :
    ∀ k < (W.nodes i).currentStep, ∃ v', W.decided k = some v' ∧
      (v'.filename = v.filename → v'.metahash = v.metahash) := by
  intro k hk
  have hlen : k < (W.nodes i).commits.length := by
    rcases (h.nodes i).steps with hlen | hlen <;> omega
  have hget := List.getElem?_eq_getElem hlen
  have hdecided := (h.nodes i).log k _ hget
  have hmem := List.mem_of_getElem? hget
  refine ⟨_, hdecided, fun hname => ?_⟩
  have hresolved := h.resolved hpeers hmem
  rw [hname] at hresolved
  rcases hfree with hempty | hsame
  · exact absurd (hresolved.symm.trans hempty) (ne_empty_of_not_blank (h.named k _ hdecided).2)
  · exact hresolved.symm.trans hsame

omit [DecidableEq A] in
theorem Follows.congr {decided : ℕ → Option PaxosValue} (h : Follows decided n)
    (hcommits : n'.commits = n.commits) (hstep : n'.currentStep = n.currentStep)
    (hpeers : n'.totalPeers = n.totalPeers) (hnaming : 1 < n.totalPeers → n'.naming = n.naming) :
    Follows decided n' := by
  refine ⟨by rw [hcommits, hstep]; exact h.steps, by rw [hcommits]; exact h.log, fun hlt => ?_⟩
  rw [hpeers] at hlt
  rw [hnaming hlt, hcommits]
  exact h.store hlt

omit [DecidableEq A] in
theorem Sane.setNode (h : Sane W) (hn : Follows W.decided n')
    (hpeers : n'.totalPeers = (W.nodes i).totalPeers) :
    Sane { W with nodes := update W.nodes i n' } := by
  refine ⟨h.named, h.one, h.claims, h.below, fun i' => ?_, fun i' j hj => ?_⟩
  · by_cases hi : i' = i
    · subst hi
      dsimp only
      rwa [update_self]
    · dsimp only
      rw [update_of_ne hi]
      exact h.nodes i'
  · have hsame : (update W.nodes i n' i').totalPeers = (W.nodes i').totalPeers := by
      by_cases hi : i' = i
      · subst hi
        rw [update_self, hpeers]
      · rw [update_of_ne hi]
    dsimp only
    rw [hsame]
    exact h.tags i' j hj

omit [DecidableEq A] in
theorem Sane.turn (h : Sane W) {t : ℕ} (hj : (W.tags i)[t]? = some j)
    (hturn : TagTurn (W.nodes i) j n' j') (hfree : ∀ v, j = .tagRead v → Free (W.nodes i) v) :
    Sane { W with
      nodes := update W.nodes i n', tags := update W.tags i ((W.tags i).set t j'),
      proposed := W.proposed ++ proposal j } := by
  have hmem := List.mem_of_getElem? hj
  have htags : ∀ i' j'', j'' ∈ update W.tags i ((W.tags i).set t j') i' → j'' ∈ W.tags i' ∨
      i' = i ∧ j'' = j' := by
    intro i' j'' hj''
    by_cases hi : i' = i
    · subst hi
      rw [update_self] at hj''
      exact (List.mem_or_eq_of_mem_set hj'').imp_right fun he => ⟨rfl, he⟩
    · rw [update_of_ne hi] at hj''
      exact .inl hj''
  have hnode := h.setNode ((h.nodes i).congr hturn.commits hturn.step hturn.peers hturn.naming)
    hturn.peers
  refine ⟨h.named, h.one, ?_, h.below, hnode.nodes, fun i' j'' hj'' => ?_⟩
  · rintro s v (hc | ⟨i', hc⟩)
    · rcases List.mem_append.mp hc with hc | hc
      · exact h.claims s v (.inl hc)
      · -- the proposal is the one that has been prepared
        refine h.claims s v (.inr ⟨i, ?_⟩)
        cases j with
        | tagInit s' v' =>
          cases List.mem_singleton.mp hc
          exact hmem
        | _ => cases hc
    · rcases htags i' _ hc with hc | ⟨rfl, rfl⟩
      · exact h.claims s v (.inr ⟨i', hc⟩)
      · obtain ⟨rfl, rfl⟩ := hturn.read s v rfl
        obtain ⟨hnamed, hpeers⟩ := (h.tags i' _ hmem).2 v rfl
        exact ⟨hnamed, h.read hpeers (hfree v rfl)⟩
  · rcases htags i' _ hj'' with hj'' | ⟨rfl, rfl⟩
    · exact hnode.tags i' j'' hj''
    · refine ⟨hturn.tagging, fun v hv => ?_⟩
      rcases hturn.value v hv with hv | ⟨hnamed, hpeers⟩
      · exact (hnode.tags i' j hmem).2 v hv
      · refine ⟨hnamed, ?_⟩
        dsimp only
        rwa [update_self, hturn.peers]

omit [DecidableEq ι] [DecidableEq A] in
theorem Sane.decide (h : Sane W) {s : ℕ} (hprop : (s, v) ∈ W.proposed) (hnone : W.decided s = none) :
    Sane { W with decided := update W.decided s (some v) } := by
  obtain ⟨hnamed, hbelow⟩ := h.claims s v (.inl hprop)
  have hkeep : ∀ k v', W.decided k = some v' → update W.decided s (some v) k = some v' :=
      fun k v' hk => by
    rw [update_of_ne, hk]
    rintro rfl
    rw [hnone] at hk
    cases hk
  -- all other decisions are for earlier steps
  have hnew : ∀ k v', update W.decided s (some v) k = some v' → (k = s ∧ v' = v) ∨ k < s ∧
      W.decided k = some v' := by
    intro k v' hk
    by_cases he : k = s
    · subst he
      rw [update_self] at hk
      exact .inl ⟨rfl, (Option.some.inj hk).symm⟩
    · rw [update_of_ne he] at hk
      refine .inr ⟨Nat.lt_of_le_of_ne (Nat.le_of_not_lt fun hlt => ?_) he, hk⟩
      exact h.below k s (by rw [hk]; exact Option.some_ne_none v') hlt hnone
  have hwith : ∀ k v', k < s → W.decided k = some v' → v'.filename = v.filename →
      v'.metahash = v.metahash := by
    intro k v' hk hv' hname
    obtain ⟨v'', hv'', hsame⟩ := hbelow k hk
    cases hv'.symm.trans hv''
    exact hsame hname
  refine ⟨fun k v' hk => ?_, fun k k' v₁ v₂ h₁ h₂ hname => ?_, fun s' v' hc => ?_,
    fun k k' hk hlt => ?_, fun i => ?_, h.tags⟩
  · rcases hnew k v' hk with ⟨-, rfl⟩ | ⟨-, hk⟩
    · exact hnamed
    · exact h.named k v' hk
  · rcases hnew k v₁ h₁ with ⟨-, rfl⟩ | ⟨hlt₁, hold₁⟩ <;> rcases hnew k' v₂ h₂ with ⟨-,
      rfl⟩ | ⟨hlt₂, hold₂⟩
    · rfl
    · exact (hwith k' v₂ hlt₂ hold₂ hname.symm).symm
    · exact hwith k v₁ hlt₁ hold₁ hname
    · exact h.one k k' v₁ v₂ hold₁ hold₂ hname
  · obtain ⟨hnamed', hall⟩ := h.claims s' v' hc
    refine ⟨hnamed', fun k hk => ?_⟩
    obtain ⟨v'', hv'', hsame⟩ := hall k hk
    exact ⟨v'', hkeep k v'' hv'', hsame⟩
  · obtain ⟨v', hv'⟩ := Option.ne_none_iff_exists'.mp hk
    have hdecided : ∃ v'', W.decided k' = some v'' := by
      rcases hnew k v' hv' with ⟨rfl, -⟩ | ⟨-, hk⟩
      · obtain ⟨v'', hv'', -⟩ := hbelow k' hlt
        exact ⟨v'', hv''⟩
      · exact Option.ne_none_iff_exists'.mp (h.below k k' (by rw [hk]; exact Option.some_ne_none v') hlt)
    obtain ⟨v'', hv''⟩ := hdecided
    exact Option.ne_none_iff_exists'.mpr ⟨v'', hkeep k' v'' hv''⟩
  · exact ⟨(h.nodes i).steps, fun k B hk => hkeep k _ ((h.nodes i).log k B hk), (h.nodes i).store⟩

omit [DecidableEq A] in
theorem buildBlock_value (n : Node A) (s : ℕ) (hv : Named v) : (buildBlock H n s v).value = v := by
  unfold buildBlock
  rw [if_neg (by rw [hv.1, hv.2]; decide)]
  rfl

omit [DecidableEq ι] [DecidableEq A] in
theorem lookup_insert_iff {naming : Map String String} {commits : List (ℕ × BlockchainBlock)}
    {B : ℕ × BlockchainBlock} {name mh : String}
    (hold : naming.lookup name = some mh ↔ ∃ c ∈ commits, c.2.value = ⟨name, mh⟩)
    (hsame : ∀ c ∈ commits, c.2.value.filename = v.filename → c.2.value.metahash = v.metahash)
    (hB : B.2.value = v) :
    (naming.insert v.filename v.metahash).lookup name = some mh ↔ ∃ c ∈ commits ++ [B], c.2.value =
      ⟨name, mh⟩ := by
  by_cases hname : name = v.filename
  · subst hname
    rw [Finmap.lookup_insert]
    constructor
    · intro he
      cases he
      exact ⟨B, List.mem_append_right _ (List.mem_singleton_self _), hB⟩
    · rintro ⟨c, hc, hcv⟩
      rcases List.mem_append.mp hc with hc | hc
      · have hmh := hsame c hc (by rw [hcv])
        rw [hcv] at hmh
        exact congrArg some hmh.symm
      · rw [List.mem_singleton.mp hc, hB] at hcv
        rw [hcv]
  · rw [Finmap.lookup_insert_of_ne _ hname, hold]
    constructor
    · rintro ⟨c, hc, hcv⟩
      exact ⟨c, List.mem_append_left _ hc, hcv⟩
    · rintro ⟨c, hc, hcv⟩
      rcases List.mem_append.mp hc with hc | hc
      · exact ⟨c, hc, hcv⟩
      · rw [List.mem_singleton.mp hc, hB] at hcv
        exact absurd (congrArg PaxosValue.filename hcv).symm hname

omit [DecidableEq A] in
theorem Sane.commit (h : Sane W) (hlen : (W.nodes i).commits.length = (W.nodes i).currentStep)
    (hv : W.decided (W.nodes i).currentStep = some v) : Sane { W with
      nodes := update W.nodes i (commitBlock (W.nodes i) (W.nodes i).currentStep
        (buildBlock H (W.nodes i) (W.nodes i).currentStep v)) } := by
  have hnamed := h.named _ v hv
  have hvalue := buildBlock_value (H := H) (W.nodes i) (W.nodes i).currentStep hnamed
  generalize buildBlock H (W.nodes i) (W.nodes i).currentStep v = B at hvalue
  refine h.setNode ⟨.inr ?_, fun k c hk => ?_, fun hpeers name mh => ?_⟩ rfl
  · show ((W.nodes i).commits ++ [((W.nodes i).currentStep, B)]).length = _
    rw [List.length_append, hlen]
    rfl
  · have hk : ((W.nodes i).commits ++ [((W.nodes i).currentStep, B)])[k]? = some c := hk
    rw [List.getElem?_append] at hk
    split_ifs at hk with hlt
    · exact (h.nodes i).log k c hk
    · rw [List.getElem?_singleton] at hk
      split_ifs at hk with hzero
      cases hk
      obtain rfl : k = (W.nodes i).currentStep := by omega
      rw [hv, hvalue]
  · have hnaming : (commitBlock (W.nodes i) (W.nodes i).currentStep B).naming =
        (W.nodes i).naming.insert v.filename v.metahash := by
      unfold commitBlock
      rw [hvalue]
      exact if_pos hnamed
    rw [hnaming]
    refine lookup_insert_iff ((h.nodes i).store hpeers name mh) (fun c hc hname => ?_) hvalue
    obtain ⟨k, hk⟩ := h.committed hc
    exact h.one k _ _ v hk hv hname

omit [DecidableEq A] in
theorem finishStep_spec (n : Node A) : (finishStep n).commits = n.commits ∧
    (finishStep n).currentStep = n.currentStep + 1 ∧ (finishStep n).totalPeers = n.totalPeers ∧
      (finishStep n).naming = n.naming := by
  simp only [finishStep, advanceStep, cleanupTLCState, cleanupProposerState,
    completeStepWaiters, and_self]

theorem sane_step (hfree : FreeAtRead W a) (hs : (network ι A H).step W a = some W') (h : Sane W) :
    Sane W' := by
  cases a with
  | tag i name mh =>
    cases hs
    have htags : ∀ i' j, j ∈ update W.tags i (W.tags i ++ [.tagBegin name mh]) i' → j ∈ W.tags i' ∨
        j = .tagBegin name mh := fun i' j hj => by
      by_cases hi : i' = i
      · subst hi
        rw [update_self, List.mem_append, List.mem_singleton] at hj
        exact hj
      · rw [update_of_ne hi] at hj
        exact .inl hj
    refine ⟨h.named, h.one, ?_, h.below, h.nodes, fun i' j hj => ?_⟩
    · rintro s v (hc | ⟨i', hc⟩)
      · exact h.claims s v (.inl hc)
      · exact h.claims s v (.inr ⟨i', (htags i' _ hc).resolve_right (by simp)⟩)
    · rcases htags i' j hj with hj | rfl
      · exact h.tags i' j hj
      · refine ⟨rfl, fun v hv => ?_⟩
        cases hv
  | turn i t =>
    obtain ⟨j, hj, hmap⟩ := Option.bind_eq_some_iff.mp hs
    obtain ⟨⟨n', j'⟩, hturn, rfl⟩ := Option.map_eq_some_iff.mp hmap
    have htagging := (h.tags i j (List.mem_of_getElem? hj)).1
    exact h.turn hj (tagTurn_spec htagging hturn) fun v he => hfree v (by rw [hj, he]; rfl)
  | decide s v =>
    simp only [network, networkStep] at hs
    split_ifs at hs with hdecide
    cases hs
    exact h.decide hdecide.1 hdecide.2
  | commit i =>
    simp only [network, networkStep] at hs
    split_ifs at hs with hlen
    obtain ⟨v, hv, rfl⟩ := Option.map_eq_some_iff.mp hs
    exact h.commit hlen hv
  | advance i =>
    simp only [network, networkStep] at hs
    split_ifs at hs with hlen
    cases hs
    obtain ⟨hcommits, hstep, hpeers, hnaming⟩ := finishStep_spec (W.nodes i)
    refine h.setNode ⟨.inl ?_, ?_, ?_⟩ hpeers
    · rw [hcommits, hstep]
      exact hlen
    · rw [hcommits]
      exact (h.nodes i).log
    · rw [hcommits, hpeers, hnaming]
      exact (h.nodes i).store

theorem sane_start (h : (network ι A H).start W) : Sane W := by
  obtain ⟨hnodes, htags, hproposed, hdecided⟩ := h
  refine ⟨fun s v hv => ?_, fun s s' v v' hv => ?_, fun s v hc => ?_,
    fun s k hs => absurd (hdecided s) hs, fun i => ?_, fun i j hj => ?_⟩
  · rw [hdecided] at hv
    cases hv
  · rw [hdecided] at hv
    cases hv
  · rcases hc with hc | ⟨i, hc⟩
    · rw [hproposed] at hc
      cases hc
    · rw [htags] at hc
      cases hc
  · obtain ⟨self, paxosID, totalPeers, width, hn⟩ := hnodes i
    rw [hn]
    refine ⟨.inl rfl, fun k B hk => ?_, fun _ name mh => ⟨fun hl => ?_, ?_⟩⟩
    · cases hk
    · exact absurd hl (by rw [newNode]; simp)
    · rintro ⟨B, hB, -⟩
      cases hB
  · rw [htags] at hj
    cases hj

/-! ### A name that is bound when the step is read -/

theorem read_step {t : ℕ} (htag : (W.tags i)[t]? = some (.tagRead v))
    (hs : (network ι A H).step W (.turn i t) = some W') : W'.nodes = W.nodes ∧ W'.decided = W.decided ∧
      (W'.tags i)[t]? = some (.tagInit (W'.nodes i).currentStep v) := by
  have hs' : (W.tags i)[t]?.bind _ = some W' := hs
  rw [htag] at hs'
  cases hs'
  obtain ⟨hlt, -⟩ := List.getElem?_eq_some_iff.mp htag
  refine ⟨update_eq_self i W.nodes, rfl, ?_⟩
  show (update W.tags i _ i)[t]? = some (.tagInit (update W.nodes i (W.nodes i) i).currentStep v)
  rw [update_self, update_self, List.getElem?_set_self hlt]

theorem exists_commit {t : ℕ} (hnamed : Named v)
    (htag : (W.tags i)[t]? = some (.tagInit (W.nodes i).currentStep v))
    (hlen : (W.nodes i).commits.length = (W.nodes i).currentStep)
    (hopen : W.decided (W.nodes i).currentStep = none) :
    ∃ W' B, (network ι A H).Goes FreeAtRead W W' ∧ B.2.value = v ∧
      (W'.nodes i).commits = (W.nodes i).commits ++ [B] := by
  let s := (W.nodes i).currentStep
  let n := initializeProposerState (W.nodes i) s v
  -- `Tag` proposes, the step is decided, and the node commits it
  let W₁ : Network ι A := { W with
    nodes := update W.nodes i n, tags := update W.tags i ((W.tags i).set t (.register s v)),
    proposed := W.proposed ++ [(s, v)] }
  let W₂ : Network ι A := { W₁ with decided := update W.decided s (some v) }
  let W₃ : Network ι A := { W₂ with nodes := update W₁.nodes i (commitBlock n s (buildBlock H n s v)) }
  have hnode : W₁.nodes i = n := update_self ..
  have h₁ : (network ι A H).step W (.turn i t) = some W₁ := by
    show (W.tags i)[t]?.bind _ = _
    rw [htag]
    rfl
  have h₂ : (network ι A H).step W₁ (.decide s v) = some W₂ :=
    if_pos ⟨List.mem_append_right _ (List.mem_singleton_self _), hopen⟩
  have h₃ : (network ι A H).step W₂ (.commit i) = some W₃ := by
    show (if (W₁.nodes i).commits.length = (W₁.nodes i).currentStep then _ else _) = _
    have hlen' : n.commits.length = n.currentStep := hlen
    rw [hnode, if_pos hlen']
    show (update W.decided s (some v) s).map _ = _
    rw [update_self]
    rfl
  have hfree : FreeAtRead W (.turn i t) := fun v' he => by
    rw [htag] at he
    cases he
  refine ⟨W₃, (s, buildBlock H n s v), .head ⟨.turn i t, hfree, h₁⟩ (.head ⟨.decide s v, True.intro, h₂⟩
    (.single ⟨.commit i, True.intro, h₃⟩)), buildBlock_value n s hnamed, ?_⟩
  · show (update W₁.nodes i (commitBlock n s (buildBlock H n s v)) i).commits = _
    rw [update_self]
    rfl

/-- **No committed block rebinds a name** in every run in which the naming store of a node does not
bind the name to something else when `Tag` reads the step. If it does and the step is not decided yet,
there is a way to go on after which a committed block rebinds the name. -/
theorem bindings_iff (h : (network ι A H).Reach FreeAtRead W) : Bound W ∧
    ∀ i t v W', (W.tags i)[t]? = some (.tagRead v) → W.decided (W.nodes i).currentStep = none →
      (network ι A H).step W (.turn i t) = some W' →
        (Free (W.nodes i) v ↔ ∀ W'', (network ι A H).Goes FreeAtRead W' W'' → Bound W'') := by
  have hsane : ∀ {W}, (network ι A H).Reach FreeAtRead W → Sane W := fun hW =>
    hW.invariant (fun _ => sane_start) fun _ _ _ => sane_step
  have hW := hsane h
  refine ⟨hW.bound, fun i t v W' htag hopen hs => ⟨fun hfree W'' hgo => ?_, fun hall => ?_⟩⟩
  · have hfree' : FreeAtRead W (.turn i t) := fun v' he => by
      rw [htag] at he
      cases he
      exact hfree
    exact (hsane ((h.step hfree' hs).goes hgo)).bound
  · by_contra hnot
    obtain ⟨hne, hother⟩ := not_or.mp hnot
    obtain ⟨hnamed, hpeers⟩ := (hW.tags i _ (List.mem_of_getElem? htag)).2 v rfl
    -- the name has been committed with another metahash
    obtain ⟨B, hB, hBv⟩ : ∃ B ∈ (W.nodes i).commits, B.2.value =
        ⟨v.filename, (W.nodes i).resolved v.filename⟩ := by
      refine ((hW.nodes i).store hpeers _ _).mp ?_
      unfold Node.resolved at hne ⊢
      cases hl : (W.nodes i).naming.lookup v.filename with
      | none =>
        rw [hl] at hne
        exact absurd rfl hne
      | some mh => rfl
    have hlen : (W.nodes i).commits.length = (W.nodes i).currentStep := by
      refine (hW.nodes i).steps.resolve_right fun hlen => ?_
      have hget := List.getElem?_eq_getElem (l := (W.nodes i).commits)
        (i := (W.nodes i).currentStep) (by omega)
      rw [(hW.nodes i).log _ _ hget] at hopen
      cases hopen
    -- the value is proposed for the open step
    obtain ⟨hnodes, hdecided, htag'⟩ := read_step htag hs
    obtain ⟨W'', B', hgo, hB'v, hcommits⟩ := exists_commit (H := H) hnamed htag'
      (by rw [hnodes]; exact hlen) (by rw [hnodes, hdecided]; exact hopen)
    rw [hnodes] at hcommits
    have hmem : B ∈ (W''.nodes i).commits := by
      rw [hcommits]
      exact List.mem_append_left _ hB
    have hmem' : B' ∈ (W''.nodes i).commits := by
      rw [hcommits]
      exact List.mem_append_right _ (List.mem_singleton_self _)
    have hsame := hall W'' hgo i i B hmem B' hmem' (by rw [hBv, hB'v])
    rw [hBv, hB'v] at hsame
    exact hother hsame

/-! ### Runs of two nodes -/

instance (n : Node A) (v : PaxosValue) : Decidable (Free n v) := inferInstanceAs (Decidable (_ ∨ _))

instance (W : Network ι A) : ∀ a, Decidable (FreeAtRead W a)
  | .turn i t => inferInstanceAs (Decidable (∀ v ∈ (W.tags i)[t]?.bind reading, Free (W.nodes i) v))
  | .tag .. | .decide .. | .commit _ | .advance _ => .isTrue True.intro

/-- Two nodes with empty stores. -/
def twoNodes : Network (Fin 2) (Fin 2) :=
  ⟨fun i => newNode i (i + 1) 2 (.bits 64), fun _ => [], [], fun _ => none⟩

/-- Node 0 proposes `name` for step 0, and node 1 has looked for it in its store. -/
def bothTag : List (Action (Fin 2)) :=
  [.tag 0 "name" "one", .turn 0 0, .turn 0 0, .turn 0 0, .turn 0 0, .tag 1 "name" "two",
    .turn 1 0, .turn 1 0, .decide 0 ⟨"name", "one"⟩]

/-- Node 1 reads the step before the first one is committed, and sees at the end
that the name is taken. -/
theorem bindings_kept : ∃ (H : Bytes → Digest) (W : Network (Fin 2) (Fin 2)),
    (network (Fin 2) (Fin 2) H).Reach FreeAtRead W ∧ (W.nodes 1).resolved "name" = "one" ∧
    (W.tags 1) = [.returned (some (.msg "name already taken"))] ∧
      Bound W := by
  have hrun : (((network (Fin 2) (Fin 2) digest).runOn FreeAtRead twoNodes
    (bothTag ++ [.turn 1 0, .turn 1 0, .turn 1 0, .commit 1, .advance 1, .turn 1 0, .turn 1 0])).map
    fun W => ((W.nodes 1).resolved "name", W.tags 1)) =
    some ("one", [.returned (some (.msg "name already taken"))]) := by decide +kernel
  obtain ⟨W, hW, hafter⟩ := Option.map_eq_some_iff.mp hrun
  obtain ⟨hname, htags⟩ := Prod.mk.inj hafter
  have hreach : (network (Fin 2) (Fin 2) digest).Reach FreeAtRead W :=
    .runOn (.start ⟨fun i => ⟨_, _, _, _, rfl⟩, fun _ => rfl, rfl, fun _ => rfl⟩) hW
  exact ⟨digest, W, hreach, hname, htags, (bindings_iff hreach).1⟩

/-- **A name that is bound twice**: after node 1 has looked for the name, it commits step 0, which
binds it. Then `Tag` reads step 1, and proposes the name with its own metahash. -/
theorem name_rebound : ∃ (H : Bytes → Digest) (W : Network (Fin 2) (Fin 2)),
    (network (Fin 2) (Fin 2) H).run twoNodes
      (bothTag ++ [.commit 1, .advance 1, .turn 1 0, .turn 1 0, .decide 1 ⟨"name", "two"⟩, .commit 1]) =
        some W ∧
      (W.nodes 1).commits.map (fun c => c.2.value) = [⟨"name", "one"⟩, ⟨"name", "two"⟩] ∧ ¬ Bound W := by
  have hrun : (((network (Fin 2) (Fin 2) digest).run twoNodes
    (bothTag ++ [.commit 1, .advance 1, .turn 1 0, .turn 1 0, .decide 1 ⟨"name", "two"⟩, .commit 1])).map
    fun W => (W.nodes 1).commits.map (fun c => c.2.value)) =
    some [⟨"name", "one"⟩, ⟨"name", "two"⟩] := by decide +kernel
  obtain ⟨W, hW, hcommits⟩ := Option.map_eq_some_iff.mp hrun
  refine ⟨digest, W, hW, hcommits, fun hbound => ?_⟩
  have hone : (⟨"name", "one"⟩ : PaxosValue) ∈ (W.nodes 1).commits.map (fun c => c.2.value) := by
    rw [hcommits]
    exact List.mem_cons_self
  have htwo : (⟨"name", "two"⟩ : PaxosValue) ∈ (W.nodes 1).commits.map (fun c => c.2.value) := by
    rw [hcommits]
    exact List.mem_cons_of_mem _ List.mem_cons_self
  obtain ⟨c, hc, hcv⟩ := List.mem_map.mp hone
  obtain ⟨c', hc', hcv'⟩ := List.mem_map.mp htwo
  have hsame := hbound 1 1 c hc c' hc' (by rw [hcv, hcv'])
  rw [hcv, hcv'] at hsame
  exact absurd hsame (by decide)

end Namecoin.Paxos.Naming
