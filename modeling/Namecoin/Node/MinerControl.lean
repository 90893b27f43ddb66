import Namecoin.Lib.Roles

/-! # The protocol of starting and stopping miners

What is left of a node and its goroutines when only `minerDisabled`, `minerStopping`, `minerStopCh` and
`minerWG` matter: the four variables, the channels that have been made and closed, and the role that
each goroutine plays. A goroutine in `StopMiner` waits for the miners and then takes back
`minerStopping`; one in `DisableMiner` has a channel to close and then waits; a miner works until its
channel is closed, and leaves.

* `Tickets.next`: every channel is in one place, and `minerWG` counts the miners;
* `Single.next`: there is at most one miner, as long as nobody calls `EnableMiner` while
  `DisableMiner` is under way. -/

namespace Namecoin.Node.MinerControl

open Lib.Roles

/-- The variables behind `minerMu`, and the channels. -/
structure Controls where
  minerDisabled : Bool
  minerStopping : Bool
  minerStopCh : Option ℕ
  minerWG : ℕ
  channels : ℕ
  closed : List ℕ

/-- What a goroutine is to the miners. -/
inductive Role
  | calm
  | stopWait
  | stopDone
  | closing (ch : ℕ)
  | waiting
  | mining (ch : ℕ)
  | leaving
  deriving DecidableEq

/-- The node and its goroutines. -/
structure Protocol where
  controls : Controls
  roles : Multiset Role

/-- A turn of a goroutine: whether it lets the miner start again, the variables and the role of the
goroutine before and after it, and the goroutines it starts. -/
inductive Move (c : Controls) : Bool → Role → Controls → Role → Multiset Role → Prop
  | calm : Move c false .calm c .calm 0
  | start : c.minerDisabled = false → c.minerStopping = false → c.minerStopCh = none →
    Move c false .calm
      { c with minerStopCh := some c.channels, channels := c.channels + 1, minerWG := c.minerWG + 1 }
      .calm {.mining c.channels}
  | stop {ch : ℕ} : c.minerStopCh = some ch → c.minerStopping = false →
    Move c false .calm { c with minerStopping := true, closed := ch :: c.closed, minerStopCh := none }
      .stopWait 0
  | stopWait : c.minerWG = 0 → Move c false .stopWait c .stopDone 0
  | stopDone : Move c false .stopDone { c with minerStopping := false } .calm 0
  | disable {ch : ℕ} : c.minerStopCh = some ch →
    Move c false .calm { c with minerDisabled := true, minerStopCh := none } (.closing ch) 0
  | disableIdle : c.minerStopCh = none →
    Move c false .calm { c with minerDisabled := true, minerStopCh := none } .calm 0
  | close (ch : ℕ) : Move c false (.closing ch) { c with closed := ch :: c.closed } .waiting 0
  | waiting : c.minerWG = 0 → Move c false .waiting c .calm 0
  | enable : Move c true .calm { c with minerDisabled := false } .calm 0
  | mining (ch : ℕ) : Move c false (.mining ch) c (.mining ch) 0
  | leave (ch : ℕ) : Move c false (.mining ch) c .leaving 0
  | leaving : Move c false .leaving c .leaving 0
  | done : Move c false .leaving { c with minerWG := c.minerWG - 1 } .calm 0

/-- A call comes in, or a goroutine takes a turn. -/
inductive Next : Bool → Protocol → Protocol → Prop
  | call (c : Controls) (roles : Multiset Role) : Next false ⟨c, roles⟩ ⟨c, .calm ::ₘ roles⟩
  | turn {enables : Bool} {c c' : Controls} {r r' : Role} {new : Multiset Role} (others : Multiset Role) :
    Move c enables r c' r' new → Next enables ⟨c, r ::ₘ others⟩ ⟨c', r' ::ₘ (new + others)⟩

variable {P P' : Protocol} {enables : Bool}

/-! ### Counting roles -/

/-- The goroutine is about to close the channel. -/
@[simp] def Role.closes (ch : ℕ) : Role → ℕ
  | .closing ch' => if ch' = ch then 1 else 0
  | _ => 0

/-- The goroutine is a miner that works on the channel. -/
@[simp] def Role.works (ch : ℕ) : Role → ℕ
  | .mining ch' => if ch' = ch then 1 else 0
  | _ => 0

/-- The goroutine is a miner. -/
@[simp] def Role.mines : Role → ℕ
  | .mining _ => 1
  | .leaving => 1
  | _ => 0

/-- The goroutine is in `StopMiner`, past the lock. -/
@[simp] def Role.stops : Role → ℕ
  | .stopWait => 1
  | .stopDone => 1
  | _ => 0

/-- The goroutine is in `DisableMiner`, past the lock. -/
@[simp] def Role.disables : Role → ℕ
  | .closing _ => 1
  | .waiting => 1
  | _ => 0

/-- The goroutine has miners to wait for. -/
@[simp] def Role.waits : Role → ℕ
  | .stopWait => 1
  | .closing _ => 1
  | .waiting => 1
  | _ => 0

/-! ### Channels -/

/-- A channel that has been made is the current one, or somebody is about to close it, or it is closed,
and only once. It has at most one miner. -/
structure Tickets (P : Protocol) : Prop where
  once : ∀ ch, (if P.controls.minerStopCh = some ch then 1 else 0) + total (Role.closes ch) P.roles +
    P.controls.closed.count ch = if ch < P.controls.channels then 1 else 0
  worked : ∀ ch, total (Role.works ch) P.roles ≤ if ch < P.controls.channels then 1 else 0
  running : total Role.mines P.roles = P.controls.minerWG

theorem Tickets.same {c c' : Controls} {roles roles' : Multiset Role} (h : Tickets ⟨c, roles⟩)
    (hch : c'.minerStopCh = c.minerStopCh) (hclosed : c'.closed = c.closed)
    (hchannels : c'.channels = c.channels) (hWG : c'.minerWG = c.minerWG)
    (hcloses : ∀ ch, total (Role.closes ch) roles' = total (Role.closes ch) roles)
    (hworks : ∀ ch, total (Role.works ch) roles' ≤ total (Role.works ch) roles)
    (hmines : total Role.mines roles' = total Role.mines roles) : Tickets ⟨c', roles'⟩ := by
  refine ⟨fun ch => ?_, fun ch => ?_, ?_⟩
  · have := h.once ch
    dsimp only at this ⊢
    rw [hch, hclosed, hchannels, hcloses]
    exact this
  · dsimp only
    rw [hchannels]
    exact (hworks ch).trans (h.worked ch)
  · exact hmines.trans (h.running.trans hWG.symm)

/-- **Channels are kept in order**, whatever the goroutines do. -/
theorem Tickets.next (h : Tickets P) (hs : Next enables P P') : Tickets P' := by
  cases hs with
  | call c roles => exact h.same rfl rfl rfl rfl (by simp) (by simp) (by simp)
  | @turn _ c c' r r' new others hm =>
    have honce := h.once
    have hworked := h.worked
    have hrunning := h.running
    dsimp only at honce hworked hrunning
    cases hm with
    | calm | stopWait hzero | stopDone | waiting hzero | enable | mining ch' | leave ch' | leaving =>
      exact h.same rfl rfl rfl rfl (by simp) (by simp) (by simp)
    | start hd hst hnone =>
      refine ⟨fun ch => ?_, fun ch => ?_, ?_⟩
      · have := honce ch
        simp [hnone] at this ⊢
        split_ifs at this ⊢ <;> omega
      · have := hworked ch
        simp at this ⊢
        split_ifs at this ⊢ <;> omega
      · simp at hrunning ⊢
        omega
    | @stop ch' hch' hst =>
      refine ⟨fun ch => ?_, fun ch => by simpa using hworked ch, by simpa using hrunning⟩
      have := honce ch
      simp [hch', List.count_cons] at this ⊢
      omega
    | @disable ch' hch' =>
      refine ⟨fun ch => ?_, fun ch => by simpa using hworked ch, by simpa using hrunning⟩
      have := honce ch
      simp [hch'] at this ⊢
      omega
    | disableIdle hnone => exact h.same hnone.symm rfl rfl rfl (by simp) (by simp) (by simp)
    | close ch' =>
      refine ⟨fun ch => ?_, fun ch => by simpa using hworked ch, by simpa using hrunning⟩
      have := honce ch
      simp [List.count_cons] at this ⊢
      omega
    | done =>
      refine ⟨fun ch => by simpa using honce ch, fun ch => by simpa using hworked ch, ?_⟩
      simp at hrunning ⊢
      omega

/-! ### One miner -/

/-- There is at most one miner, and it is left alone only by somebody who waits for it. -/
structure Single (P : Protocol) : Prop where
  bound : P.controls.minerWG ≤ 1
  one : total Role.stops P.roles + total Role.disables P.roles ≤
    if P.controls.minerStopCh = none then 1 else 0
  stopping : total Role.stops P.roles = if P.controls.minerStopping then 1 else 0
  disabling : P.controls.minerDisabled = false → total Role.disables P.roles = 0
  idle : P.controls.minerStopCh = none → total Role.waits P.roles = 0 → P.controls.minerWG = 0

theorem waits_le (roles : Multiset Role) :
    total Role.waits roles ≤ total Role.stops roles + total Role.disables roles := by
  induction roles using Multiset.induction with
  | empty => simp
  | cons r roles ih =>
    rw [total_cons, total_cons, total_cons]
    cases r <;> simp <;> omega

theorem Single.same {c : Controls} {roles roles' : Multiset Role} (h : Single ⟨c, roles⟩)
    (hstops : total Role.stops roles' = total Role.stops roles)
    (hdisables : total Role.disables roles' = total Role.disables roles)
    (hwaits : total Role.waits roles' = total Role.waits roles) : Single ⟨c, roles'⟩ := by
  obtain ⟨hbound, hone, hstopping, hdisabling, hidle⟩ := h
  dsimp only at hone hstopping hdisabling hidle
  rw [← hstops, ← hdisables] at hone
  rw [← hstops] at hstopping
  rw [← hdisables] at hdisabling
  rw [← hwaits] at hidle
  exact ⟨hbound, hone, hstopping, hdisabling, hidle⟩

/-- **At most one miner**, as long as nobody lets the miner start again while
`DisableMiner` is under way. -/
theorem Single.next (h : Single P) (hs : Next enables P P')
    (hd : enables = true → total Role.disables P.roles = 0) : Single P' := by
  obtain ⟨hbound, hone, hstopping, hdisabling, hidle⟩ := id h
  cases hs with
  | call c roles => exact h.same (by simp) (by simp) (by simp)
  | @turn _ c c' r r' new others hm =>
    dsimp only at hbound hone hstopping hdisabling hidle
    cases hm with
    | calm | mining ch | leave ch | leaving => exact h.same (by simp) (by simp) (by simp)
    | start hdis hst hnone =>
      have hwaits := waits_le others
      simp [hdis, hst, hnone] at hone hstopping hdisabling hidle
      refine ⟨?_, ?_, ?_, ?_, ?_⟩
      · simp
        omega
      · simp
        omega
      · simp [hst]
        omega
      · simp
        omega
      · simp
    | @stop ch hch hst =>
      simp [hch, hst] at hone hstopping hdisabling
      refine ⟨hbound, ?_, ?_, ?_, ?_⟩
      · simp
        omega
      · simp
        omega
      · simpa using hdisabling
      · simp
    | stopWait hzero =>
      simp at hone hstopping hdisabling
      exact ⟨hbound, by simpa using hone, by simpa using hstopping, by simpa using hdisabling,
        fun _ _ => hzero⟩
    | stopDone =>
      simp at hone hstopping hdisabling hidle
      refine ⟨hbound, ?_, ?_, ?_, ?_⟩
      · simp
        omega
      · simp
        split_ifs at hstopping <;> omega
      · simpa using hdisabling
      · simpa using hidle
    | @disable ch hch =>
      simp [hch] at hone hstopping hdisabling
      refine ⟨hbound, ?_, ?_, ?_, ?_⟩
      · simp
        omega
      · simpa using hstopping
      · simp
      · simp
    | disableIdle hnone =>
      simp [hnone] at hone hidle
      exact ⟨hbound, by simpa using hone, by simpa using hstopping, by simp, by simpa using hidle⟩
    | close ch =>
      simp at hone hstopping hdisabling
      exact ⟨hbound, by simpa using hone, by simpa using hstopping, by simpa using hdisabling, by simp⟩
    | waiting hzero =>
      simp at hone hstopping hdisabling
      refine ⟨hbound, ?_, ?_, ?_, fun _ _ => hzero⟩
      · simp
        omega
      · simpa using hstopping
      · intro h
        simp [hdisabling] at h
    | enable =>
      have hdis : total Role.disables others = 0 := by simpa using hd rfl
      exact ⟨hbound, by simpa using hone, by simpa using hstopping, by simpa using hdis,
        by simpa using hidle⟩
    | done =>
      simp at hone hstopping hdisabling hidle
      refine ⟨?_, by simpa using hone, by simpa using hstopping, by simpa using hdisabling,
        fun hn hw => ?_⟩
      · dsimp only
        omega
      have := hidle hn (by simpa using hw)
      dsimp only
      omega

/-- **No miner is started** while a goroutine waits for the miner to leave. -/
theorem Single.waited {r : Role} (h : Single P) (hr : r ∈ P.roles) (hwaits : r.waits = 1) :
    (P.controls.minerDisabled = true ∨ P.controls.minerStopping = true) ∧
    P.controls.minerStopCh = none := by
  obtain ⟨-, hone, hstopping, hdisabling, -⟩ := h
  have hpos := (count_le_total Role.waits hr).trans (waits_le P.roles)
  rw [hwaits] at hpos
  refine ⟨?_, ?_⟩
  · by_contra hno
    simp only [not_or, Bool.not_eq_true] at hno
    rw [hdisabling hno.1, hstopping, hno.2] at hpos
    simp at hpos
  · by_contra hne
    rw [if_neg hne] at hone
    omega

theorem Next.closed_subset (h : Next enables P P') : P.controls.closed ⊆ P'.controls.closed := by
  cases h with
  | call c roles => exact List.Subset.refl _
  | turn others hm =>
    cases hm <;> first | exact List.Subset.refl _ | exact List.subset_cons_self _ _

end Namecoin.Node.MinerControl
