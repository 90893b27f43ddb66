import Namecoin.Lib.Systems
import Namecoin.Node.Handler

/-! # Waiting for a confirmation

The end of `HandleNamecoinCommand` with `registerTxConfirmation`, `unregisterTxConfirmation` and
`notifyTxConfirmation` of `impl.go`. Every call makes one channel, so a channel is named by the call
that made it. A call registers, sends its transaction and waits; it leaves the wait with what it reads
from its channel, or with a timeout, and a receive on a closed channel reads nil. Calls, timeouts and
notifications are interleaved at will.

* `told_iff`: **a client is told success only for a mined transaction** as long as a call that
  unregisters does not close the channel that another call waits on, and after a step that does,
  the other call reads nil;
* `told_by_timeout`: two calls for one transaction, where the timeout of the first tells the second
  that its transaction is in a block. -/

namespace Namecoin.Node.Confirmations

open Lib.Systems Types.Defs Types.SampleEnv Chain.Stores Chain.Defs Service.Defs Node.Mempool
open Node.Handler

/-- Where a call of `HandleNamecoinCommand` is, from its registration on. -/
inductive Phase
  | registered
  | waiting
  | leaving (err : Err)
  | returned (err : Option Err)
deriving DecidableEq

/-- The call has not left its wait. -/
def Phase.Open (p : Phase) : Prop := p = .registered ∨ p = .waiting

/-- A call: its transaction, the number of notifications before its registration, and where it is. -/
structure Call where
  txID : String
  since : ℕ
  phase : Phase

/-- A node with the calls for it. Channels in `closed` are those that were closed with nothing sent on
them, and `notified` has every `notifyTxConfirmation` so far. -/
structure Desk where
  node : NodeState
  closed : List ℕ
  calls : List Call
  notified : List (String × Option Err)

inductive Action
  | register (txID : String)
  | broadcast (i : ℕ)
  | fail (i : ℕ) (err : Err)
  | timeout (i : ℕ)
  | unregister (i : ℕ)
  | receive (i : ℕ)
  | notify (txID : String) (err : Option Err)

/-- `registerTxConfirmation`, which makes the channel of the next call. -/
def registerTxConfirmation (d : Desk) (txID : String) : Desk :=
  { d with
    node := { d.node with pendingTxConfirm := d.node.pendingTxConfirm.insert txID d.calls.length }
    calls := d.calls ++ [⟨txID, d.notified.length, .registered⟩] }

/-- `unregisterTxConfirmation`, which closes whatever channel the map has. -/
def unregisterTxConfirmation (d : Desk) (txID : String) : Desk :=
  match d.node.pendingTxConfirm.lookup txID with
  | some ch =>
    { d with
      node := { d.node with pendingTxConfirm := d.node.pendingTxConfirm.erase txID }
      closed := ch :: d.closed }
  | none => d

/-- What a receive on a channel reads, if it does not block: the value sent on it,
or nil if it is closed. -/
def Desk.read (d : Desk) (ch : ℕ) : Option (Option Err) :=
  match d.node.sent.lookup ch with
  | some err => some err
  | none => if ch ∈ d.closed then some none else none

def Desk.move (d : Desk) (i : ℕ) (p : Phase) : Desk :=
  { d with calls := d.calls.modify i fun c => { c with phase := p } }

/-- A step: a call registers, is done with sending or fails to send, is timed out, unregisters when it
leaves, or receives; or a block is notified. -/
def step (d : Desk) : Action → Option Desk
  | .register txID => some (registerTxConfirmation d txID)
  | .broadcast i =>
    d.calls[i]?.bind fun c => if c.phase = .registered then some (d.move i .waiting) else none
  | .fail i err =>
    d.calls[i]?.bind fun c => if c.phase = .registered then some (d.move i (.leaving err)) else none
  | .timeout i => d.calls[i]?.bind fun c =>
      if c.phase = .waiting then
        some (d.move i (.leaving (.msg s!"transaction {c.txID} confirmation timed out after 5 minutes")))
      else none
  | .unregister i => d.calls[i]?.bind fun c => match c.phase with
      | .leaving err => some ((unregisterTxConfirmation d c.txID).move i (.returned (some err)))
      | _ => none
  | .receive i => d.calls[i]?.bind fun c =>
      if c.phase = .waiting then
        (d.read i).map fun err =>
          d.move i (.returned (err.map (Err.wrap "transaction failed to be included in block: ")))
      else none
  | .notify txID err => some
      { d with node := notifyTxConfirmation d.node txID err, notified := d.notified ++ [(txID, err)] }

/-- A node and the calls for it, from a moment where nobody waits. -/
def desk : System Desk Action where
  start d := d.node.pendingTxConfirm = ∅ ∧ d.node.sent = [] ∧ d.closed = [] ∧
    d.calls = [] ∧ d.notified = []
  step := step

variable {d d' : Desk} {a : Action} {c : Call} {i ch : ℕ} {txID : String}

/-- The transaction of the call has been notified as included, after the call registered. -/
def Mined (d : Desk) (c : Call) : Prop := (c.txID, none) ∈ d.notified.drop c.since

/-- **Success is told only for mined transactions.** -/
def Told (d : Desk) : Prop := ∀ c ∈ d.calls, c.phase = .returned none → Mined d c

/-- A call waits on the channel, or is about to. -/
def Waits (d : Desk) (ch : ℕ) : Prop := ∃ c, d.calls[ch]? = some c ∧ c.phase.Open

/-- A call that unregisters does not find the channel of a call that waits. -/
def OwnChannel (d : Desk) : Action → Prop
  | .unregister i =>
    ∀ c ch, d.calls[i]? = some c → d.node.pendingTxConfirm.lookup c.txID = some ch → ¬ Waits d ch
  | _ => True

/-- The actions by which a call goes on to read its channel. -/
def Reads : Action → Prop
  | .broadcast _ => True
  | .receive _ => True
  | _ => False

theorem ownChannel_of_reads : ∀ {a : Action}, Reads a → OwnChannel d a
  | .broadcast _, _ => True.intro
  | .receive _, _ => True.intro

/-! ### Single steps -/

theorem not_open_leaving (err : Err) : ¬ (Phase.leaving err).Open := by
  rintro (h | h) <;> cases h

theorem not_open_returned (err : Option Err) : ¬ (Phase.returned err).Open := by
  rintro (h | h) <;> cases h

theorem step_unregister (h : step d (.unregister i) = some d') : ∃ c err, d.calls[i]? = some c ∧
    c.phase = .leaving err ∧ d' = (unregisterTxConfirmation d c.txID).move i (.returned (some err)) := by
  obtain ⟨c, hc, hs⟩ := Option.bind_eq_some_iff.mp h
  split at hs
  · next err hp => exact ⟨c, err, hc, hp, (Option.some.inj hs).symm⟩
  · cases hs

theorem calls_unregister (d : Desk) (txID : String) :
    (unregisterTxConfirmation d txID).calls = d.calls := by
  unfold unregisterTxConfirmation
  cases d.node.pendingTxConfirm.lookup txID <;> rfl

theorem calls_move (d : Desk) (i : ℕ) (p : Phase) (j : ℕ) :
    (d.move i p).calls[j]? = d.calls[j]?.map fun c => if i = j then { c with phase := p } else c :=
  List.getElem?_modify ..

theorem mem_calls_move {p : Phase} (h : c ∈ (d.move i p).calls) :
    c ∈ d.calls ∨ ∃ c₀, d.calls[i]? = some c₀ ∧ c = { c₀ with phase := p } := by
  obtain ⟨j, hj⟩ := List.mem_iff_getElem?.mp h
  rw [calls_move, Option.map_eq_some_iff] at hj
  obtain ⟨c₀, h₀, rfl⟩ := hj
  split_ifs with hij
  · exact .inr ⟨c₀, hij ▸ h₀, rfl⟩
  · exact .inl (List.mem_of_getElem? h₀)

/-- A call that moves keeps its transaction, and so do the others. -/
theorem calls_move_some {p : Phase} {j : ℕ} (h : d.calls[j]? = some c) :
    ∃ c', (d.move i p).calls[j]? = some c' ∧ c'.txID = c.txID ∧ c'.since = c.since ∧
      (i ≠ j → c'.phase = c.phase) ∧ (i = j → c'.phase = p) := by
  rw [calls_move, h, Option.map_some]
  by_cases hij : i = j
  · rw [if_pos hij]
    exact ⟨_, rfl, rfl, rfl, fun hne => absurd hij hne, fun _ => rfl⟩
  · rw [if_neg hij]
    exact ⟨_, rfl, rfl, rfl, fun _ => rfl, fun he => absurd he hij⟩

theorem drop_notified {k : ℕ} {p : String × Option Err} (hk : k ≤ d.notified.length) :
    (d.notified ++ [p]).drop k = d.notified.drop k ++ [p] :=
  List.drop_append_of_le_length hk

/-! ### The invariant -/

/-- What the map, the channels and the calls have to do with each other. -/
structure Sound (d : Desk) : Prop where
  /-- A channel in the map is that of a call whose transaction has not been notified since
    it registered. -/
  pending : ∀ txID ch, d.node.pendingTxConfirm.lookup txID = some ch →
    ∃ c, d.calls[ch]? = some c ∧ c.txID = txID ∧ (∀ err, (txID, err) ∉ d.notified.drop c.since) ∧
    d.node.sent.lookup ch = none
  sent : ∀ ch err, (ch, err) ∈ d.node.sent → ∃ c, d.calls[ch]? = some c ∧
    (c.txID, err) ∈ d.notified.drop c.since
  closed : ∀ ch ∈ d.closed, ch < d.calls.length ∧ ¬ Waits d ch
  told : Told d
  since : ∀ c ∈ d.calls, c.since ≤ d.notified.length

theorem sound_start (h : desk.start d) : Sound d := by
  obtain ⟨hp, hs, hc, hcalls, hn⟩ := h
  constructor
  · intro txID ch hl
    rw [hp] at hl
    cases hl
  · intro ch err hmem
    rw [hs] at hmem
    cases hmem
  · intro ch hmem
    rw [hc] at hmem
    cases hmem
  · intro c hmem
    rw [hcalls] at hmem
    cases hmem
  · intro c hmem
    rw [hcalls] at hmem
    cases hmem

theorem sound_move {p : Phase} (h : Sound d) (hc : d.calls[i]? = some c)
    (hclosed : i ∈ d.closed → ¬ p.Open) (htold : p = .returned none → Mined d c) :
    Sound (d.move i p) where
  pending txID ch hl := by
    obtain ⟨c₀, h₀, ht, hn, hs⟩ := h.pending txID ch hl
    obtain ⟨c', h', ht', hk', -⟩ := calls_move_some (i := i) (p := p) h₀
    exact ⟨c', h', ht'.trans ht, fun err => hk' ▸ hn err, hs⟩
  sent ch err hmem := by
    obtain ⟨c₀, h₀, hn⟩ := h.sent ch err hmem
    obtain ⟨c', h', ht', hk', -⟩ := calls_move_some (i := i) (p := p) h₀
    exact ⟨c', h', by rw [ht', hk']; exact hn⟩
  closed ch hmem := by
    obtain ⟨hlt, hw⟩ := h.closed ch hmem
    refine ⟨by rw [Desk.move, List.length_modify]; exact hlt, fun ⟨c', h', ho⟩ => ?_⟩
    obtain ⟨c₁, h₁, -, -, hother, hself⟩ := calls_move_some (i := i) (p := p)
      (List.getElem?_eq_getElem hlt)
    rw [h₁] at h'
    cases h'
    by_cases hij : i = ch
    · exact hclosed (hij ▸ hmem) (hself hij ▸ ho)
    · exact hw ⟨_, List.getElem?_eq_getElem hlt, hother hij ▸ ho⟩
  told c' hmem hret := by
    rcases mem_calls_move hmem with hmem | ⟨c₀, h₀, rfl⟩
    · exact h.told c' hmem hret
    · rw [hc] at h₀
      cases h₀
      exact htold hret
  since c' hmem := by
    rcases mem_calls_move hmem with hmem | ⟨c₀, h₀, rfl⟩
    · exact h.since c' hmem
    · exact h.since c₀ (List.mem_of_getElem? h₀)

theorem sound_register (h : Sound d) (txID : String) : Sound (registerTxConfirmation d txID) := by
  have hold : ∀ {j : ℕ} {c : Call}, d.calls[j]? = some c →
      (registerTxConfirmation d txID).calls[j]? = some c := fun hj =>
    (List.getElem?_append_left (List.getElem?_eq_some_iff.mp hj).1).trans hj
  have hfresh : d.node.sent.lookup d.calls.length = none := by
    rw [List.lookup_eq_none_iff]
    rintro ⟨ch, err⟩ hmem
    obtain ⟨c, hc, -⟩ := h.sent ch err hmem
    exact bne_iff_ne.mpr (Nat.ne_of_gt (List.getElem?_eq_some_iff.mp hc).1)
  constructor
  · intro t ch hl
    by_cases ht : t = txID
    · rw [ht] at hl ⊢
      rw [registerTxConfirmation, Finmap.lookup_insert] at hl
      cases hl
      exact ⟨⟨txID, d.notified.length, .registered⟩, List.getElem?_concat_length .., rfl,
        by simp [registerTxConfirmation], hfresh⟩
    · rw [registerTxConfirmation, Finmap.lookup_insert_of_ne _ ht] at hl
      obtain ⟨c, hc, hrest⟩ := h.pending t ch hl
      exact ⟨c, hold hc, hrest⟩
  · intro ch err hmem
    obtain ⟨c, hc, hn⟩ := h.sent ch err hmem
    exact ⟨c, hold hc, hn⟩
  · intro ch hmem
    obtain ⟨hlt, hw⟩ := h.closed ch hmem
    refine ⟨by rw [registerTxConfirmation, List.length_append]; exact Nat.lt_add_right _ hlt,
      fun ⟨c, hc, ho⟩ => ?_⟩
    rw [hold (List.getElem?_eq_getElem hlt)] at hc
    cases hc
    exact hw ⟨_, List.getElem?_eq_getElem hlt, ho⟩
  · intro c hmem hret
    rcases List.mem_append.mp hmem with hmem | hmem
    · exact h.told c hmem hret
    · rw [List.mem_singleton] at hmem
      rw [hmem] at hret
      cases hret
  · intro c hmem
    rcases List.mem_append.mp hmem with hmem | hmem
    · exact h.since c hmem
    · rw [List.mem_singleton] at hmem
      rw [hmem]
      exact le_rfl

theorem sound_notify (h : Sound d) (txID : String) (err : Option Err) :
    Sound { d with
      node := notifyTxConfirmation d.node txID err
      notified := d.notified ++ [(txID, err)] } := by
  have hdrop : ∀ {c : Call} {j : ℕ}, d.calls[j]? = some c →
      (d.notified ++ [(txID, err)]).drop c.since = d.notified.drop c.since ++ [(txID, err)] := fun hc =>
    drop_notified (h.since _ (List.mem_of_getElem? hc))
  have hpend : (notifyTxConfirmation d.node txID err).pendingTxConfirm =
      d.node.pendingTxConfirm.erase txID :=
    pending_notifyTxConfirmation _ _ _
  have hsent : ∀ ch e, (ch, e) ∈ (notifyTxConfirmation d.node txID err).sent →
      (ch, e) ∈ d.node.sent ∨ (d.node.pendingTxConfirm.lookup txID = some ch ∧ e = err) := by
    intro ch e hmem
    unfold notifyTxConfirmation at hmem
    cases hl : d.node.pendingTxConfirm.lookup txID with
    | none =>
      rw [hl] at hmem
      exact .inl hmem
    | some ch' =>
      rw [hl] at hmem
      rcases List.mem_append.mp hmem with hmem | hmem
      · exact .inl hmem
      · rw [List.mem_singleton] at hmem
        cases hmem
        exact .inr ⟨rfl, rfl⟩
  constructor
  · intro t ch hl
    rw [hpend] at hl
    have hne : t ≠ txID := by
      rintro rfl
      rw [Finmap.lookup_erase] at hl
      cases hl
    rw [Finmap.lookup_erase_ne hne] at hl
    obtain ⟨c, hc, ht, hn, hs⟩ := h.pending t ch hl
    refine ⟨c, hc, ht, fun e hmem => ?_, List.lookup_eq_none_iff.mpr ?_⟩
    · rw [hdrop hc, List.mem_append, List.mem_singleton] at hmem
      rcases hmem with hmem | hmem
      · exact hn e hmem
      · cases hmem
        exact hne rfl
    · rintro ⟨ch', e⟩ hmem
      rcases hsent ch' e hmem with hmem | ⟨hl', -⟩
      · exact List.lookup_eq_none_iff.mp hs _ hmem
      · obtain ⟨c', hc', ht', -⟩ := h.pending txID ch' hl'
        refine bne_iff_ne.mpr fun heq => hne ?_
        rw [heq, hc'] at hc
        cases hc
        exact ht.symm.trans ht'
  · intro ch e hmem
    rcases hsent ch e hmem with hmem | ⟨hl, rfl⟩
    · obtain ⟨c, hc, hn⟩ := h.sent ch e hmem
      exact ⟨c, hc, by rw [hdrop hc]; exact List.mem_append_left _ hn⟩
    · obtain ⟨c, hc, ht, -⟩ := h.pending txID ch hl
      exact ⟨c, hc, by rw [hdrop hc, ht]; exact List.mem_append_right _ (List.mem_singleton.mpr rfl)⟩
  · exact h.closed
  · intro c hmem hret
    unfold Mined
    rw [drop_notified (h.since c hmem)]
    exact List.mem_append_left _ (h.told c hmem hret)
  · intro c hmem
    rw [List.length_append]
    exact Nat.le_add_right_of_le (h.since c hmem)

theorem sound_unregister (h : Sound d)
    (hown : ∀ ch, d.node.pendingTxConfirm.lookup txID = some ch → ¬ Waits d ch) :
    Sound (unregisterTxConfirmation d txID) := by
  unfold unregisterTxConfirmation
  cases hl : d.node.pendingTxConfirm.lookup txID with
  | none => exact h
  | some ch =>
    refine ⟨fun t ch' hl' => h.pending t ch' ?_, h.sent, fun ch' hmem => ?_, h.told, h.since⟩
    · have hne : t ≠ txID := by
        rintro rfl
        rw [Finmap.lookup_erase] at hl'
        cases hl'
      rwa [Finmap.lookup_erase_ne hne] at hl'
    · rcases List.mem_cons.mp hmem with rfl | hmem
      · obtain ⟨c, hc, -⟩ := h.pending txID ch' hl
        exact ⟨(List.getElem?_eq_some_iff.mp hc).1, hown ch' hl⟩
      · exact h.closed ch' hmem

theorem Sound.mined_of_read (h : Sound d) (hc : d.calls[i]? = some c) (hp : c.phase.Open)
    (hread : d.read i = some none) : Mined d c := by
  unfold Desk.read at hread
  cases hl : d.node.sent.lookup i with
  | none =>
    rw [hl] at hread
    dsimp only at hread
    split_ifs at hread with hclosed
    exact absurd ⟨c, hc, hp⟩ (h.closed i hclosed).2
  | some err =>
    rw [hl] at hread
    cases hread
    obtain ⟨l₁, l₂, hmem, -⟩ := List.lookup_eq_some_iff.mp hl
    obtain ⟨c', hc', hn⟩ := h.sent i none (hmem ▸ List.mem_append_right l₁ List.mem_cons_self)
    rw [hc] at hc'
    cases hc'
    exact hn

/-- **Every step keeps the invariant**, unless a call closes the channel of another one that waits. -/
theorem sound_step (hown : OwnChannel d a) (hs : step d a = some d') (h : Sound d) : Sound d' := by
  cases a with
  | register txID =>
    cases hs
    exact sound_register h txID
  | notify txID err =>
    cases hs
    exact sound_notify h txID err
  | broadcast i =>
    obtain ⟨c, hc, hs⟩ := Option.bind_eq_some_iff.mp hs
    split_ifs at hs with hp
    cases hs
    exact sound_move h hc (fun hmem => absurd ⟨c, hc, .inl hp⟩ (h.closed i hmem).2)
      (fun hr => by cases hr)
  | fail i err =>
    obtain ⟨c, hc, hs⟩ := Option.bind_eq_some_iff.mp hs
    split_ifs at hs with hp
    cases hs
    exact sound_move h hc (fun _ => not_open_leaving _) (fun hr => by cases hr)
  | timeout i =>
    obtain ⟨c, hc, hs⟩ := Option.bind_eq_some_iff.mp hs
    split_ifs at hs with hp
    cases hs
    exact sound_move h hc (fun _ => not_open_leaving _) (fun hr => by cases hr)
  | unregister i =>
    obtain ⟨c, err, hc, -, rfl⟩ := step_unregister hs
    exact sound_move (sound_unregister h fun ch => hown c ch hc) ((calls_unregister d c.txID).symm ▸ hc)
      (fun _ => not_open_returned _) (fun hr => by cases hr)
  | receive i =>
    obtain ⟨c, hc, hs⟩ := Option.bind_eq_some_iff.mp hs
    split_ifs at hs with hp
    obtain ⟨err, hread, rfl⟩ := Option.map_eq_some_iff.mp hs
    refine sound_move h hc (fun _ => not_open_returned _) fun hr => ?_
    refine h.mined_of_read hc (.inr hp) ?_
    rw [hread]
    cases err with
    | none => rfl
    | some e => cases hr

theorem sound_reach (h : desk.Reach OwnChannel d) : Sound d :=
  h.invariant (fun _ => sound_start) fun _ _ _ => sound_step

/-! ### Closing the channel of another call -/

theorem reads_nil (hc : d.calls[ch]? = some c) (ho : c.phase.Open) (hsent : d.node.sent.lookup ch = none)
    (hclosed : ch ∈ d.closed) : ∃ as, (∀ a ∈ as, Reads a) ∧
    desk.run d as = some (d.move ch (.returned none)) := by
  have hread : d.read ch = some none := by
    unfold Desk.read
    rw [hsent, if_pos hclosed]
  rcases ho with hp | hp
  · refine ⟨[.broadcast ch, .receive ch], by simp [Reads], run_cons.mpr ⟨d.move ch .waiting, ?_, ?_⟩⟩
    · show step d (.broadcast ch) = _
      simp [step, hc, hp]
    · refine run_cons.mpr ⟨_, ?_, rfl⟩
      show step (d.move ch .waiting) (.receive ch) = _
      have hread' : (d.move ch .waiting).read ch = some none := hread
      have hmove : (d.move ch .waiting).move ch (.returned none) = d.move ch (.returned none) := by
        simp only [Desk.move, List.modify_modify_eq, Function.comp_def]
      rw [step, calls_move, hc, hread', ← hmove]
      simp
  · refine ⟨[.receive ch], by simp [Reads], run_cons.mpr ⟨_, ?_, rfl⟩⟩
    show step d (.receive ch) = _
    simp [step, hc, hp, hread]

theorem not_told_of_foreign (h : Sound d) (hs : step d (.unregister i) = some d')
    (hown : ¬ OwnChannel d (.unregister i)) :
    ∃ as d'', (∀ a ∈ as, Reads a) ∧ desk.run d' as = some d'' ∧ ¬ Told d'' := by
  obtain ⟨c, err, hc, hp, rfl⟩ := step_unregister hs
  simp only [OwnChannel, not_forall, not_not] at hown
  obtain ⟨c₀, ch, h₀, hl, c', hc', ho⟩ := hown
  rw [hc] at h₀
  cases h₀
  obtain ⟨c₁, h₁, ht, hn, hsent⟩ := h.pending c.txID ch hl
  rw [hc'] at h₁
  cases h₁
  have hne : i ≠ ch := by
    rintro rfl
    rw [hc] at hc'
    cases hc'
    exact not_open_leaving err (hp ▸ ho)
  rw [unregisterTxConfirmation, hl]
  dsimp only
  set d₁ : Desk := { d with
    node := { d.node with pendingTxConfirm := d.node.pendingTxConfirm.erase c.txID }
    closed := ch :: d.closed }
  obtain ⟨c₂, h₂, ht₂, hk₂, hphase, -⟩ := calls_move_some (d := d₁) (i := i)
    (p := .returned (some err)) hc'
  obtain ⟨as, hreads, hrun⟩ := reads_nil h₂ (hphase hne ▸ ho) hsent List.mem_cons_self
  refine ⟨as, _, hreads, hrun, fun htold => ?_⟩
  obtain ⟨c₃, h₃, ht₃, hk₃, -, hret⟩ := calls_move_some (i := ch) (p := .returned none) h₂
  have hmined := htold c₃ (List.mem_of_getElem? h₃) (hret rfl)
  unfold Mined at hmined
  rw [ht₃, ht₂, hk₃, hk₂, ht] at hmined
  exact hn none hmined

/-- **A client is told success only for a mined transaction** in every state that is reached without
closing the channel of a call that waits; and after the next step it stays so, however the calls go on
to read, exactly if that step does not close such a channel either. -/
theorem told_iff (h : desk.Reach OwnChannel d) : Told d ∧ ∀ a d', desk.step d a = some d' →
    ((∀ as d'', (∀ b ∈ as, Reads b) → desk.run d' as = some d'' → Told d'') ↔ OwnChannel d a) := by
  have hsound := sound_reach h
  refine ⟨hsound.told, fun a d' hs => ⟨fun hall => ?_, fun hown as d'' hreads hrun => ?_⟩⟩
  · by_contra hown
    cases a with
    | unregister i =>
      obtain ⟨as, d'', hreads, hrun, hnot⟩ := not_told_of_foreign hsound hs hown
      exact hnot (hall as d'' hreads hrun)
    | _ => exact hown True.intro
  · exact (run_invariant (fun _ _ _ hb => sound_step (ownChannel_of_reads hb)) hreads hrun
      (sound_step hown hs hsound)).told

/-- A node that nobody waits for. -/
def quietDesk : Desk := ⟨⟨newChainService plainEnv [.mem ∅] (newNamecoinChain 0), newTxBuffer, ∅, []⟩,
    [], [], []⟩

theorem quietDesk_start : desk.start quietDesk := ⟨rfl, rfl, rfl, rfl, rfl⟩

/-- A call whose transaction gets into a block. -/
theorem told_included : ∃ d c, desk.Reach OwnChannel d ∧ d.calls[0]? = some c ∧
    c.phase = .returned none ∧ Told d := by
  have hrun : ∃ d, desk.run quietDesk [.register "tx", .broadcast 0, .notify "tx" none, .receive 0] =
    some d ∧ d.calls[0]? = some ⟨"tx", 0, .returned none⟩ := ⟨_, rfl, rfl⟩
  obtain ⟨d, hd, hc⟩ := hrun
  have hreach : desk.Reach OwnChannel d :=
    System.Reach.run (.start quietDesk_start) (by simp [OwnChannel]) hd
  exact ⟨d, _, hreach, hc, rfl, (told_iff hreach).1⟩

/-- **Two calls for one transaction**: the first one runs into its timeout and closes the channel of
the second, which returns nil although no block has been notified at all. -/
theorem told_by_timeout : desk.start quietDesk ∧ ∃ d c,
    desk.run quietDesk [.register "tx", .broadcast 0, .register "tx", .broadcast 1,
    .timeout 0, .unregister 0,
      .receive 1] = some d ∧ d.calls[1]? = some c ∧ c.phase = .returned none ∧ d.notified =
        [] ∧ ¬ Told d := by
  refine ⟨quietDesk_start, _, ⟨"tx", 0, .returned none⟩, rfl, rfl, rfl, rfl, fun h => ?_⟩
  exact absurd (h ⟨"tx", 0, .returned none⟩ (List.mem_of_getElem? (i := 1) rfl) rfl) List.not_mem_nil

end Namecoin.Node.Confirmations
