import Namecoin.Node.Miner
import Namecoin.Node.MinerControl

/-! # The life of a miner

Every goroutine of a node plays a role in the protocol of starting and stopping miners,
and a step of the node is a step of that protocol (`follows_step`). What holds of the
protocol then holds of the node.

* `channels_in_order`: no channel is closed twice, and every miner can be stopped;
* `one_miner`: at most one miner runs, as long as `EnableMiner` is not called while `DisableMiner` is
  under way, and `two_miners`: otherwise there can be two;
* `wait_ends`: `StopMiner` and `DisableMiner` do not wait for ever. -/

namespace Namecoin.Node.Lifecycle

open Lib.Maps Lib.Systems Lib.Threads Lib.Roles Types.Defs Types.TxCodec Types.SampleEnv
open Service.Defs Service.Scenes Node.Mempool Node.Template Node.Miner Node.MinerControl

variable {E : Env} {cfg : MinerConfig} {now : Int64} {order : MapOrder} {n : Peer} {w : Work}
  {rest : List Work} {e : Effect Peer Work} {p p' : Pool Peer Work} {r : Role} {ch : ℕ}
variable {stack : List Work}

/-! ### What a goroutine is to the miners -/

def controls (n : Peer) : Controls :=
  ⟨n.minerDisabled, n.minerStopping, n.minerStopCh, n.minerWG, n.channels, n.closed⟩

/-- The channel of a miner that works. -/
def loops : Work → Option ℕ
  | .mine stop => some stop
  | .look stop => some stop
  | .snapshot stop => some stop
  | .target stop _ _ => some stop
  | .drain stop _ _ => some stop
  | .attempt stop _ _ _ _ => some stop
  | .mined stop _ _ => some stop
  | .append stop _ => some stop
  | .again stop => some stop
  | _ => none

/-- What a miner does between two looks at its channel. -/
def isBetween : Work → Bool
  | .requeue _ => true
  | .notify _ _ => true
  | _ => false

/-- The work of a handler, and calls. -/
def isCalm : Work → Bool
  | .wait => false
  | .stopped => false
  | .close _ => false
  | .finish => false
  | w => (loops w).isNone

/-- What is left to do for a goroutine with a role. -/
inductive Fits : Role → List Work → Prop
  | calm {stack : List Work} : (∀ w ∈ stack, isCalm w = true) → Fits .calm stack
  | stopWait {stack : List Work} : (∀ w ∈ stack, isCalm w = true) →
    Fits .stopWait (.wait :: .stopped :: stack)
  | stopDone {stack : List Work} : (∀ w ∈ stack, isCalm w = true) → Fits .stopDone (.stopped :: stack)
  | closing {stack : List Work} (ch : ℕ) : (∀ w ∈ stack, isCalm w = true) →
    Fits (.closing ch) (.close ch :: .wait :: stack)
  | waiting {stack : List Work} : (∀ w ∈ stack, isCalm w = true) → Fits .waiting (.wait :: stack)
  | mining {w : Work} {ch : ℕ} : loops w = some ch → Fits (.mining ch) [w]
  | between {w : Work} (ch : ℕ) : isBetween w = true → Fits (.mining ch) [w, .again ch]
  | leaving : Fits .leaving [.finish]
  | lastly {w : Work} : isBetween w = true → Fits .leaving [w, .finish]

def isEnable : Work → Bool
  | .enable => true
  | _ => false

/-- What a turn of the protocol makes of a goroutine, and of those it starts. -/
def Moves (n : Peer) (w : Work) (r : Role) (rest : List Work) (e : Effect Peer Work) : Prop :=
  ∃ (r' : Role) (new : List Role), Fits r' (e.next ++ rest) ∧ List.Forall₂ Fits new e.spawned ∧
    Move (controls n) (isEnable w) r (controls e.shared) r' new

theorem moves_goOn {n' : Peer} {next : List Work} {r' : Role} (h : goOn n' next = some e)
    (hr' : Fits r' (next ++ rest)) (hm : Move (controls n) (isEnable w) r (controls n') r' 0) :
    Moves n w r rest e := by
  cases h
  exact ⟨r', [], hr', .nil, hm⟩

/-- How many turns a miner takes at most once its channel is closed. -/
def left : Work → ℕ
  | .snapshot _ => 6
  | .target _ _ _ => 5
  | .drain _ _ _ => 4
  | .append _ _ => 4
  | .attempt _ _ _ _ _ => 3
  | .mine _ => 3
  | .look _ => 2
  | .mined _ _ _ => 2
  | .again _ => 2
  | _ => 1

/-- What a miner that works does in a turn: it works on, or leaves. It is closer to its end
if its channel is closed. -/
inductive Loops (n : Peer) (ch : ℕ) (w : Work) : Effect Peer Work → Prop
  | on {n' : Peer} {w' : Work} : controls n' = controls n → loops w' = some ch →
    (ch ∈ n.closed → left w' < left w) → Loops n ch w ⟨n', [w'], []⟩
  | again {n' : Peer} {w' : Work} : controls n' = controls n → isBetween w' = true →
    (ch ∈ n.closed → 3 < left w) → Loops n ch w ⟨n', [w', .again ch], []⟩
  | off : 1 < left w → Loops n ch w ⟨n, [.finish], []⟩
  | lastly {w' : Work} : isBetween w' = true → 2 < left w → Loops n ch w ⟨n, [w', .finish], []⟩

theorem exec_loops (hw : loops w = some ch) (he : exec E cfg now order n w = some e) :
    Loops n ch w e := by
  cases w with
  | mine stop =>
    rw [exec] at he
    split_ifs at he
    · cases he
      exact .off (by simp [left])
    · cases he
      exact .on rfl hw fun _ => by simp [left]
  | look stop | mined stop block _ | again stop =>
    cases hw
    rw [exec] at he
    split_ifs at he with hclosed
    · cases he
      exact .off (by simp [left])
    · cases he
      exact .on rfl rfl fun h => absurd h hclosed
  | snapshot stop | target stop headHash headHeight =>
    cases he
    exact .on rfl hw fun _ => by simp [left]
  | drain stop base target =>
    rw [exec] at he
    dsimp only at he
    split at he
    · cases he
    · cases he
      exact .on rfl hw fun _ => by simp [left]
  | attempt stop hdr target drained nonce =>
    cases hw
    rw [exec, mineNonce] at he
    dsimp only at he
    split_ifs at he with hend
    · cases he
      exact .lastly rfl (by simp [left])
    · have hopen : ch ∉ n.closed := fun h => hend (.inr (.inr h))
      split at he
      · cases he
      · split_ifs at he
        · cases he
          exact .on rfl rfl fun h => absurd h hopen
        · cases he
          exact .again rfl rfl fun h => absurd h hopen
    · cases he
      exact .on rfl rfl fun h => absurd (.inr (.inr h)) hend
  | append stop block =>
    cases hw
    rw [exec] at he
    cases he
    split
    · exact .again rfl rfl fun _ => by simp [left]
    · exact .again rfl rfl fun _ => by simp [left]
    · exact .again rfl rfl fun _ => by simp [left]
  | _ => cases hw

theorem Loops.moves (h : Loops n ch w e) (hw : loops w = some ch) : Moves n w (.mining ch) [] e := by
  have hen : isEnable w = false := by cases w <;> first | rfl | cases hw
  cases h with
  | on hc hw' => exact ⟨_, [], .mining hw', .nil, hc ▸ hen ▸ .mining ch⟩
  | again hc hb => exact ⟨_, [], .between ch hb, .nil, hc ▸ hen ▸ .mining ch⟩
  | off => exact ⟨_, [], .leaving, .nil, hen ▸ .leave ch⟩
  | lastly hb => exact ⟨_, [], .lastly hb, .nil, hen ▸ .leave ch⟩

theorem calm_moves (hw : isCalm w = true) (hrest : ∀ w' ∈ rest, isCalm w' = true)
    (he : exec E cfg now order n w = some e) : Moves n w .calm rest e := by
  have hcalm : ∀ {n' : Peer} {next : List Work}, isEnable w = false → goOn n' next = some e →
    controls n' = controls n → (∀ w' ∈ next, isCalm w' = true) → Moves n w .calm rest e :=
    fun hen h hc hnext =>
    moves_goOn h (.calm (List.forall_mem_append.mpr ⟨hnext, hrest⟩)) (hc ▸ hen ▸ .calm)
  cases w with
  | message msg =>
    rw [exec] at he
    split at he
    · exact hcalm rfl he rfl (by simp [isCalm, loops])
    · exact hcalm rfl he rfl (by simp)
  | add tx txID | notify err txs | requeue drained => exact hcalm rfl he rfl (by simp)
  | receive blk =>
    rw [exec] at he
    split at he
    · exact hcalm rfl he rfl (by simp [isCalm, loops])
    · exact hcalm rfl he rfl (by simp [isCalm, loops])
    · exact hcalm rfl he rfl (by simp)
  | remove left txs =>
    cases left with
    | nil => exact hcalm rfl he rfl (by simp [isCalm, loops])
    | cons tx left =>
      rw [exec] at he
      split at he
      · exact hcalm rfl he rfl (by simp [isCalm, loops])
      · exact hcalm rfl he rfl (by simp)
  | restart =>
    rw [exec] at he
    split_ifs at he
    · exact hcalm rfl he rfl (by simp)
    · exact hcalm rfl he rfl (by simp [isCalm, loops])
  | start =>
    rw [exec] at he
    split_ifs at he with h
    · exact hcalm rfl he rfl (by simp)
    · cases he
      simp only [ne_eq, not_or, Bool.not_eq_true, not_not] at h
      exact ⟨.calm, [.mining n.channels], .calm hrest, .cons (.mining rfl) .nil, .start h.1 h.2.1 h.2.2⟩
  | stop =>
    rw [exec] at he
    split at he
    · exact hcalm rfl he rfl (by simp)
    · next ch hch =>
      split_ifs at he with hst
      · exact hcalm rfl he rfl (by simp)
      · exact moves_goOn he (.stopWait hrest) (.stop hch (Bool.eq_false_iff.mpr hst))
  | disable =>
    rw [exec] at he
    split_ifs at he
    · exact hcalm rfl he rfl (by simp)
    · cases hch : n.minerStopCh with
      | none =>
        rw [hch] at he
        exact moves_goOn he (.calm hrest) (.disableIdle hch)
      | some ch =>
        rw [hch] at he
        exact moves_goOn he (.closing ch hrest) (.disable hch)
  | enable => exact moves_goOn he (.calm hrest) .enable
  | _ => cases hw

theorem between_frame (hw : isBetween w = true) (he : exec E cfg now order n w = some e) :
    e = ⟨e.shared, [], []⟩ ∧ controls e.shared = controls n ∧ isEnable w = false := by
  cases w with
  | requeue drained | notify err txs =>
    cases he
    exact ⟨rfl, rfl, rfl⟩
  | _ => cases hw

/-- **A turn of a goroutine** is a turn of the protocol. -/
theorem exec_moves (hr : Fits r (w :: rest)) (he : exec E cfg now order n w = some e) :
    Moves n w r rest e := by
  cases hr with
  | calm hcalm =>
    exact calm_moves (hcalm w List.mem_cons_self) (fun w' h => hcalm w' (List.mem_cons_of_mem _ h)) he
  | stopWait hcalm =>
    rw [exec] at he
    split_ifs at he with hzero
    exact moves_goOn he (.stopDone hcalm) (.stopWait hzero)
  | stopDone hcalm => exact moves_goOn he (.calm hcalm) .stopDone
  | closing ch hcalm => exact moves_goOn he (.waiting hcalm) (.close ch)
  | waiting hcalm =>
    rw [exec] at he
    split_ifs at he with hzero
    exact moves_goOn he (.calm hcalm) (.waiting hzero)
  | mining hw => exact (exec_loops hw he).moves hw
  | between ch hw =>
    obtain ⟨hnext, hc, hen⟩ := between_frame hw he
    rw [hnext]
    exact ⟨_, [], .mining rfl, .nil, hc ▸ hen ▸ .mining ch⟩
  | leaving => exact moves_goOn he (.calm (by simp)) .done
  | lastly hw =>
    obtain ⟨hnext, hc, hen⟩ := between_frame hw he
    rw [hnext]
    exact ⟨_, [], .leaving, .nil, hc ▸ hen ▸ .leaving⟩

/-! ### The protocol that a node follows -/

/-- The node and its goroutines follow the protocol. -/
def Follows (p : Pool Peer Work) (P : Protocol) : Prop :=
  P.controls = controls p.shared ∧ Plays Fits p P.roles

/-- `EnableMiner` takes its turn. -/
def enables (p : Pool Peer Work) : Event → Bool
  | .call _ => false
  | .turn t _ _ => (p.top t).any isEnable

/-- **A step of the node** is a step of the protocol. -/
theorem follows_step {a : Event} {P : Protocol} (h : Follows p P) (hs : step E cfg p a = some p') :
    ∃ P', Next (enables p a) P P' ∧ Follows p' P' := by
  obtain ⟨c, roles⟩ := P
  obtain ⟨rfl, hplays⟩ := h
  cases a with
  | call w =>
    rw [step] at hs
    split_ifs at hs with hw
    cases hs
    refine ⟨_, .call _ roles, rfl, hplays.spawn (.calm fun w' h' => ?_)⟩
    rw [List.mem_singleton.mp h']
    cases w <;> first | rfl | cases hw
  | turn t now order =>
    obtain ⟨r, w, rest, e, others, htop, hr, he, hshared, rfl, hnew⟩ := hplays.run hs
    obtain ⟨r', new, hr', hspawned, hm⟩ := exec_moves hr he
    rw [← hshared] at hm
    refine ⟨⟨controls p'.shared, r' ::ₘ (new + others)⟩, ?_, rfl, hnew r' new hr' hspawned⟩
    have hen : enables p (.turn t now order) = isEnable w := congrArg (Option.any isEnable) htop
    rw [hen]
    exact .turn others hm

theorem follows_start (h : (mining E cfg).start p) : ∃ P, Follows p P ∧ Tickets P ∧ Single P := by
  obtain ⟨S, store, blocks, rfl⟩ := h
  refine ⟨⟨_, 0⟩, ⟨rfl, plays_nil _⟩, ⟨fun ch => rfl, fun ch => Nat.zero_le _, rfl⟩, ?_⟩
  exact ⟨Nat.zero_le _, Nat.zero_le _, rfl, fun _ => rfl, fun _ _ => rfl⟩

theorem follows_reach {C : Pool Peer Work → Event → Prop} (h : (mining E cfg).Reach C p) :
    ∃ P, Follows p P ∧ Tickets P := by
  refine System.Reach.invariant (I := fun p => ∃ P, Follows p P ∧ Tickets P) h (fun p hp => ?_)
    fun p a p' _ hs hI => ?_
  · obtain ⟨P, hP, htickets, -⟩ := follows_start hp
    exact ⟨P, hP, htickets⟩
  · obtain ⟨P, hP, htickets⟩ := hI
    obtain ⟨P', hnext, hP'⟩ := follows_step hP hs
    exact ⟨P', hP', htickets.next hnext⟩

/-! ### A miner that is being disabled -/

section sample

variable {C : Pool Peer Work → Event → Prop} (E : Env) (target : ℤ)

/-- A node with one miner, while `DisableMiner` has yet to close its channel. -/
def disablingPool : Pool Peer Work :=
  ⟨{ emptyPeer E target with minerDisabled := true, minerWG := 1, channels := 1 },
    [[], [.mine 0], [.close 0, .wait]]⟩

theorem reach_disabling (hcall : ∀ p w, C p (.call w))
    (hturn : ∀ p t, p.top t ≠ some .enable → C p (.turn t 0 numbered)) :
    (mining E (sampleConfig target)).Reach C (disablingPool E target) := by
  let n : Peer := { emptyPeer E target with minerStopCh := some 0, minerWG := 1, channels := 1 }
  have h₁ := reach_call .start (.start (start_emptyPeer E target)) (hcall _ _) rfl
  have h₂ := reach_turn 0 ⟨n, [[], [.mine 0]]⟩ h₁
    (hturn (Pool.spawn _ _) 0 fun h => by cases h) rfl rfl rfl
  have h₃ := reach_call .disable h₂ (hcall _ _) rfl
  exact reach_turn 2 _ h₃ (hturn (Pool.spawn _ _) 2 fun h => by cases h) rfl rfl rfl

/-- The channel has been closed. -/
def waitingPool : Pool Peer Work :=
  ⟨{ (disablingPool E target).shared with closed := [0] }, [[], [.mine 0], [.wait]]⟩

theorem reach_waiting (hcall : ∀ p w, C p (.call w))
    (hturn : ∀ p t, p.top t ≠ some .enable → C p (.turn t 0 numbered)) :
    (mining E (sampleConfig target)).Reach C (waitingPool E target) :=
  reach_turn 2 _ (reach_disabling E target hcall hturn)
    (hturn (disablingPool E target) 2 fun h => by cases h) rfl rfl rfl

end sample

/-! ### Channels -/

/-- A miner at work, or about to leave. -/
def miner : Work → Bool
  | .finish => true
  | w => (loops w).isSome

/-- The goroutine is a miner. -/
def mines (stack : List Work) : Bool := stack.any miner

theorem miner_of_calm (h : isCalm w = true) : miner w = false := by
  cases w <;> first | rfl | cases h

theorem miner_of_loops (h : loops w = some ch) : miner w = true := by
  cases w <;> first | rfl | cases h

theorem not_mines_of_calm (h : ∀ w ∈ stack, isCalm w = true) : mines stack = false :=
  List.any_eq_false.mpr fun w hw => by rw [miner_of_calm (h w hw)]; simp

theorem mines_cons : mines (w :: stack) = (miner w || mines stack) := rfl

theorem Fits.mines (h : Fits r stack) : r.mines = if Lifecycle.mines stack then 1 else 0 := by
  cases h with
  | calm hcalm => simp [not_mines_of_calm hcalm]
  | stopWait hcalm | stopDone hcalm | closing ch hcalm | waiting hcalm =>
    simp [mines_cons, miner, loops, not_mines_of_calm hcalm]
  | mining hw => simp [mines_cons, miner_of_loops hw]
  | between ch hb => simp [mines_cons, miner, loops]
  | leaving => rfl
  | lastly hb => simp [mines_cons, miner]

/-- The role that a goroutine must have to do this. -/
def roleOf : Work → Option Role
  | .close ch => some (.closing ch)
  | w => (loops w).map .mining

theorem roleOf_of_calm (h : isCalm w = true) : roleOf w = none := by
  cases w <;> first | rfl | cases h

theorem roleOf_of_between (h : isBetween w = true) : roleOf w = none := by
  cases w <;> first | rfl | cases h

theorem roleOf_of_loops (h : loops w = some ch) : roleOf w = some (.mining ch) := by
  cases w <;> first | exact congrArg (Option.map Role.mining) h | cases h

theorem Fits.eq_of_mem {r' : Role} (h : Fits r stack) (hmem : w ∈ stack) (hw : roleOf w = some r') :
    r = r' := by
  have hnone : ∀ {w' : Work}, roleOf w' = none → w ≠ w' := fun hw' heq => by
    rw [heq, hw'] at hw
    cases hw
  have hwait : w ≠ .wait := hnone rfl
  have hstopped : w ≠ .stopped := hnone rfl
  have hfinish : w ≠ .finish := hnone rfl
  have hcalm : ∀ {s : List Work}, (∀ w ∈ s, isCalm w = true) → w ∉ s := fun hs hin =>
    hnone (roleOf_of_calm (hs w hin)) rfl
  cases h with
  | calm hs => exact absurd hmem (hcalm hs)
  | stopWait hs => exact absurd hmem (by simp [hcalm hs, hwait, hstopped])
  | stopDone hs => exact absurd hmem (by simp [hcalm hs, hstopped])
  | closing ch hs =>
    simp only [List.mem_cons, hcalm hs, hwait, or_false] at hmem
    rw [hmem] at hw
    exact Option.some.inj hw
  | waiting hs => exact absurd hmem (by simp [hcalm hs, hwait])
  | mining hl =>
    rw [List.mem_singleton.mp hmem, roleOf_of_loops hl] at hw
    exact Option.some.inj hw
  | between ch hb =>
    simp only [List.mem_cons, hnone (roleOf_of_between hb), List.not_mem_nil, or_false, false_or] at hmem
    rw [hmem] at hw
    exact Option.some.inj hw
  | leaving => exact absurd hmem (by simp [hfinish])
  | lastly hb => exact absurd hmem (by simp [hnone (roleOf_of_between hb), hfinish])

theorem mem_roles {P : Protocol} (hP : Follows p P) (hmem : w ∈ p.tasks) {r' : Role}
    (hw : roleOf w = some r') :
    r' ∈ P.roles := by
  obtain ⟨stack, hstack, hin⟩ := List.mem_flatten.mp (Multiset.mem_coe.mp hmem)
  obtain ⟨r, hr, hfits⟩ := hP.2.exists_role hstack
  rw [← hfits.eq_of_mem hin hw]
  exact hr

theorem close_mem_tasks {P : Protocol} (hP : Follows p P) (h : .closing ch ∈ P.roles) :
    .close ch ∈ p.tasks := by
  obtain ⟨stack, hstack, hfits⟩ := hP.2.exists_thread h
  refine Multiset.mem_coe.mpr (List.mem_flatten.mpr ⟨stack, hstack, ?_⟩)
  cases hfits
  exact List.mem_cons_self

/-- **Channels are closed once**: neither the current channel nor one that a goroutine is about to
close is closed. A miner at work can be stopped: its channel is the current one, or somebody is about
to close it, or it is closed. And `minerWG` counts the miners. -/
theorem channels_in_order {C : Pool Peer Work → Event → Prop} (h : (mining E cfg).Reach C p) :
    (∀ ch, p.shared.minerStopCh = some ch ∨ .close ch ∈ p.tasks → ch ∉ p.shared.closed) ∧
      (∀ w ∈ p.tasks, ∀ ch, loops w = some ch →
        p.shared.minerStopCh = some ch ∨ .close ch ∈ p.tasks ∨ ch ∈ p.shared.closed) ∧
      p.threads.countP mines = p.shared.minerWG := by
  obtain ⟨P, hP, htickets⟩ := follows_reach h
  have honce : ∀ ch, (if p.shared.minerStopCh = some ch then 1 else 0) + total (Role.closes ch) P.roles +
      p.shared.closed.count ch = if ch < p.shared.channels then 1 else 0 := fun ch => by
    have := htickets.once ch
    rw [hP.1] at this
    exact this
  refine ⟨fun ch hch hclosed => ?_, fun w hw ch hl => ?_, ?_⟩
  · have hcount := List.count_pos_iff.mpr hclosed
    have := honce ch
    rcases hch with hch | hch
    · rw [if_pos hch] at this
      split_ifs at this <;> omega
    · have hone := count_le_total (Role.closes ch) (mem_roles hP hch rfl)
      simp only [Role.closes, if_true] at hone
      split_ifs at this <;> omega
  · have hone := (count_le_total (Role.works ch) (mem_roles hP hw (roleOf_of_loops hl))).trans
      (htickets.worked ch)
    have := honce ch
    rw [hP.1] at hone
    simp only [Role.works, if_true] at hone
    by_cases hlt : ch < p.shared.channels
    · rw [if_pos hlt] at this
      by_contra hno
      simp only [not_or] at hno
      have hclosed := List.count_eq_zero.mpr hno.2.2
      have hclosing : total (Role.closes ch) P.roles = 0 := total_eq_zero.mpr fun r hr => by
        cases r with
        | closing ch' =>
          rw [Role.closes, if_neg]
          rintro rfl
          exact hno.2.1 (close_mem_tasks hP hr)
        | _ => rfl
      rw [if_neg hno.1, hclosing, hclosed] at this
      omega
    · have : ¬ ch < (controls p.shared).channels := hlt
      rw [if_neg this] at hone
      omega
  · rw [← hP.2.total_eq fun r stack hfits => hfits.mines, htickets.running, hP.1]
    rfl

/-- The miner that is being disabled. -/
theorem channels_disabling : (mining plainEnv (sampleConfig 1)).Reach (fun _ _ => True)
      (disablingPool plainEnv 1) ∧
    0 ∉ (disablingPool plainEnv 1).shared.closed ∧
    (disablingPool plainEnv 1).threads.countP mines = 1 := by
  have h := reach_disabling (C := fun _ _ => True) plainEnv 1 (fun _ _ => trivial) fun _ _ _ => trivial
  obtain ⟨hclosed, -, hcount⟩ := channels_in_order h
  exact ⟨h, hclosed 0 (.inr (Multiset.mem_coe.mpr (by simp [disablingPool]))), hcount⟩

/-! ### One miner -/

/-- `EnableMiner` takes its turn only while no goroutine is in `DisableMiner`, past the lock. -/
def Careful (p : Pool Peer Work) (a : Event) : Prop :=
  enables p a = true → ∀ stack ∈ p.threads, .wait ∈ stack → .stopped ∈ stack

theorem Fits.disables (h : Fits r stack) (hr : r.disables ≠ 0) : .wait ∈ stack ∧ .stopped ∉ stack := by
  have hnot : ∀ {s : List Work}, (∀ w ∈ s, isCalm w = true) → .stopped ∉ s :=
    fun hs hin => by cases hs _ hin
  cases h with
  | closing ch hs => simp [hnot hs]
  | waiting hs => simp [hnot hs]
  | _ => exact absurd rfl hr

theorem Fits.waits (h : Fits r stack) (hw : .wait ∈ stack) : r.waits = 1 := by
  have hnot : ∀ {s : List Work}, (∀ w ∈ s, isCalm w = true) → .wait ∉ s := fun hs hin => by cases hs _ hin
  cases h with
  | calm hs => exact absurd hw (hnot hs)
  | stopDone hs => exact absurd hw (by simp [hnot hs])
  | mining hl =>
    rw [← List.mem_singleton.mp hw] at hl
    cases hl
  | between ch hb =>
    simp only [List.mem_cons, List.not_mem_nil, or_false, reduceCtorEq] at hw
    rw [← hw] at hb
    cases hb
  | leaving => simp at hw
  | lastly hb =>
    simp only [List.mem_cons, List.not_mem_nil, or_false, reduceCtorEq] at hw
    rw [← hw] at hb
    cases hb
  | _ => rfl

theorem single_reach (h : (mining E cfg).Reach Careful p) : ∃ P, Follows p P ∧ Tickets P ∧ Single P := by
  refine System.Reach.invariant (I := fun p => ∃ P, Follows p P ∧ Tickets P ∧ Single P) h
    (fun p hp => follows_start hp) fun p a p' hC hs hI => ?_
  obtain ⟨P, hP, htickets, hsingle⟩ := hI
  obtain ⟨P', hnext, hP'⟩ := follows_step hP hs
  refine ⟨P', hP', htickets.next hnext, hsingle.next hnext fun hen => total_eq_zero.mpr fun r hr => ?_⟩
  obtain ⟨stack, hstack, hfits⟩ := hP.2.exists_thread hr
  by_contra hne
  obtain ⟨hwait, hstopped⟩ := hfits.disables hne
  exact hstopped (hC hen stack hstack hwait)

/-- **At most one miner** runs, and none is started while a goroutine waits for the miner to leave. -/
theorem one_miner (h : (mining E cfg).Reach Careful p) : p.threads.countP mines ≤ 1 ∧
    (.wait ∈ p.tasks → (p.shared.minerDisabled = true ∨ p.shared.minerStopping = true) ∧
      p.shared.minerStopCh = none) := by
  obtain ⟨P, hP, htickets, hsingle⟩ := single_reach h
  refine ⟨?_, fun hwait => ?_⟩
  · rw [← hP.2.total_eq fun r stack hfits => hfits.mines, htickets.running]
    exact hsingle.bound
  · obtain ⟨stack, hstack, hin⟩ := List.mem_flatten.mp (Multiset.mem_coe.mp hwait)
    obtain ⟨r, hr, hfits⟩ := hP.2.exists_role hstack
    have hwaited := hsingle.waited hr (hfits.waits hin)
    rw [hP.1] at hwaited
    exact hwaited

theorem careful_turn {t : ℕ} (p : Pool Peer Work) (ht : p.top t ≠ some .enable) :
    Careful p (.turn t now order) := by
  intro hen
  cases htop : p.top t with
  | none => simp [enables, htop] at hen
  | some w =>
    have hw : isEnable w = true := by simpa [enables, htop] using hen
    cases w <;> first | exact absurd htop ht | cases hw

theorem careful_waiting (E : Env) (target : ℤ) :
    (mining E (sampleConfig target)).Reach Careful (waitingPool E target) :=
  reach_waiting E target (fun _ _ => nofun) fun p _ ht => careful_turn p ht

theorem one_miner_waiting : (mining plainEnv (sampleConfig 1)).Reach Careful (waitingPool plainEnv 1) ∧
    .wait ∈ (waitingPool plainEnv 1).tasks ∧ (waitingPool plainEnv 1).threads.countP mines ≤ 1 ∧
      (waitingPool plainEnv 1).shared.minerStopCh = none := by
  have hwait : Work.wait ∈ (waitingPool plainEnv 1).tasks := Multiset.mem_coe.mpr (by simp [waitingPool])
  obtain ⟨hone, hstopped⟩ := one_miner (careful_waiting plainEnv 1)
  exact ⟨careful_waiting plainEnv 1, hwait, hone, (hstopped hwait).2⟩

theorem two_miners (E : Env) (target : ℤ) :
    ∃ p, (mining E (sampleConfig target)).Reach (fun _ _ => True) p ∧
    p.threads.countP mines = 2 := by
  have h₁ := reach_disabling (C := fun _ _ => True) E target (fun _ _ => trivial) fun _ _ _ => trivial
  have h₂ := reach_call .enable h₁ trivial rfl
  have h₃ := reach_turn 3 _ h₂ trivial rfl rfl rfl
  have h₄ := reach_call .start h₃ trivial rfl
  have h₅ := reach_turn 4 _ h₄ trivial rfl rfl rfl
  exact ⟨_, h₅, rfl⟩

/-! ### A miner that is stopped -/

/-- How many turns a goroutine that mines on a closed channel has left. -/
def turnsLeft (stack : List Work) : ℕ := (stack.map left).sum

theorem turnsLeft_between (hw : isBetween w = true) (w' : Work) : turnsLeft [w, w'] = 1 + left w' := by
  cases w <;> first | rfl | cases hw

theorem turnsLeft_single (w : Work) : turnsLeft [w] = left w := rfl

/-- The goroutine mines on a closed channel, or leaves, or has left. -/
def Closing (closed : List ℕ) (stack : List Work) : Prop :=
  stack = [] ∨ Fits .leaving stack ∨ ∃ ch ∈ closed, Fits (.mining ch) stack

/-- **A turn** of such a goroutine. -/
theorem Closing.exec (h : Closing n.closed (w :: rest)) (he : exec E cfg now order n w = some e) :
    turnsLeft (e.next ++ rest) < turnsLeft (w :: rest) ∧ Closing e.shared.closed (e.next ++ rest) := by
  have hclosed : ∀ {n' : Peer} {ch : ℕ}, controls n' = controls n → ch ∈ n.closed → ch ∈ n'.closed :=
    fun {n' ch} hc hch => by
      have : n'.closed = n.closed := congrArg Controls.closed hc
      rw [this]
      exact hch
  rcases h with hnil | hleaving | ⟨ch, hch, hmining⟩
  · cases hnil
  · cases hleaving with
    | leaving =>
      cases he
      exact ⟨by simp [turnsLeft, left], .inl rfl⟩
    | lastly hb =>
      obtain ⟨hnext, -, -⟩ := between_frame hb he
      rw [hnext, turnsLeft_between hb]
      exact ⟨by simp [turnsLeft, left], .inr (.inl .leaving)⟩
  · cases hmining with
    | mining hl =>
      rw [List.append_nil, turnsLeft_single]
      cases exec_loops hl he with
      | on hc hl' hleft => exact ⟨hleft hch, .inr (.inr ⟨ch, hclosed hc hch, .mining hl'⟩)⟩
      | again hc hb hleft =>
        rw [turnsLeft_between hb]
        exact ⟨hleft hch, .inr (.inr ⟨ch, hclosed hc hch, .between ch hb⟩)⟩
      | off hleft => exact ⟨hleft, .inr (.inl .leaving)⟩
      | lastly hb hleft =>
        rw [turnsLeft_between hb]
        exact ⟨hleft, .inr (.inl (.lastly hb))⟩
    | between ch hb =>
      obtain ⟨hnext, hc, -⟩ := between_frame hb he
      rw [hnext, turnsLeft_between hb]
      exact ⟨by simp [turnsLeft, left], .inr (.inr ⟨ch, hclosed hc hch, .mining rfl⟩)⟩

/-- Such a goroutine has at most `k` turns left. -/
def Ending (p : Pool Peer Work) (m k : ℕ) : Prop :=
  ∃ stack, p.threads[m]? = some stack ∧ turnsLeft stack ≤ k ∧ Closing p.shared.closed stack

theorem Ending.turn {m k : ℕ} (h : Ending p m k) (hs : step E cfg p (.turn m now order) = some p') :
    ∃ k', k = k' + 1 ∧ Ending p' m k' := by
  obtain ⟨stack, hm, hk, hstack⟩ := h
  obtain ⟨w, rest, e, hw, he, rfl⟩ := run_eq_some.mp hs
  rw [hm] at hw
  cases hw
  have hlt := (List.getElem?_eq_some_iff.mp hm).1
  have hget : (p.threads.set m (e.next ++ rest) ++ e.spawned)[m]? = some (e.next ++ rest) := by
    rw [List.getElem?_append_left (by rwa [List.length_set]), List.getElem?_set_self hlt]
  obtain ⟨hless, hnext⟩ := hstack.exec he
  exact ⟨k - 1, by omega, _, hget, by omega, hnext⟩

/-- A turn of the goroutine. -/
def turnOf (m : ℕ) : Event → Bool
  | .turn t _ _ => t = m
  | _ => false

theorem Ending.other {a : Event} {m k : ℕ} {P : Protocol} (h : Ending p m k) (hP : Follows p P)
    (ha : turnOf m a = false) (hs : step E cfg p a = some p') : Ending p' m k := by
  obtain ⟨stack, hm, hk, hstack⟩ := h
  obtain ⟨P', hnext, hP'⟩ := follows_step hP hs
  have hclosed : p.shared.closed ⊆ p'.shared.closed := by
    have := hnext.closed_subset
    rwa [hP.1, hP'.1] at this
  have hlt := (List.getElem?_eq_some_iff.mp hm).1
  have hsame : p'.threads[m]? = some stack := by
    cases a with
    | call w =>
      rw [step] at hs
      split_ifs at hs
      cases hs
      rw [← hm]
      exact List.getElem?_append_left hlt
    | turn t now order =>
      obtain ⟨w, rest, e, hw, he, rfl⟩ := run_eq_some.mp hs
      have hne : t ≠ m := of_decide_eq_false ha
      show (p.threads.set t (e.next ++ rest) ++ e.spawned)[m]? = some stack
      rw [List.getElem?_append_left (by rwa [List.length_set]), List.getElem?_set_ne hne, hm]
  refine ⟨stack, hsame, hk, ?_⟩
  exact hstack.imp_right (Or.imp_right (Exists.imp fun ch => And.imp_left fun hch => hclosed hch))

/-- **In any run** the goroutine takes no more turns than it has left. -/
theorem Ending.run {m : ℕ} : ∀ {as : List Event} {p : Pool Peer Work} {k : ℕ} {P : Protocol},
    Ending p m k → Follows p P → (mining E cfg).run p as = some p' → as.countP (turnOf m) ≤ k
  | [], _, _, _, _, _, _ => Nat.zero_le _
  | a :: as, p, k, P, h, hP, hrun => by
    obtain ⟨p₁, hs, hrest⟩ := run_cons.mp hrun
    obtain ⟨P₁, -, hP₁⟩ := follows_step hP hs
    cases ha : turnOf m a with
    | false =>
      rw [List.countP_cons_of_neg (by simp [ha])]
      exact (h.other hP ha hs).run hP₁ hrest
    | true =>
      rw [List.countP_cons_of_pos ha]
      obtain ⟨t, now, order, rfl⟩ : ∃ t now order, a = .turn t now order := by
        cases a with
        | call w => cases ha
        | turn t now order => exact ⟨t, now, order, rfl⟩
      cases of_decide_eq_true ha
      obtain ⟨k', rfl, hk'⟩ := h.turn hs
      exact Nat.succ_le_succ (hk'.run hP₁ hrest)

theorem payload_drain {b : TxBuffer} (h : Tidy E b) : ∀ tx ∈ b.drain.1.pending, tx.payload ≠ .invalid :=
  fun tx htx => by
  obtain ⟨⟨id, t⟩, hmem, rfl⟩ := List.mem_map.mp htx
  obtain ⟨id', -, hl⟩ := List.mem_filterMap.mp hmem
  obtain ⟨t', ht', heq⟩ := Option.map_eq_some_iff.mp hl
  cases heq
  obtain ⟨v, hv, -⟩ := buildTransactionID_ok_iff.mp (h.named id t ht')
  exact ne_invalid_of_payloadValue hv

theorem exec_of_closed (hl : loops w = some ch) (hch : ch ∈ n.closed) (ht : Tidy E n.ledger.txBuffer) :
    ∃ e, exec E cfg now order n w = some e := by
  cases w with
  | drain stop base target =>
    obtain ⟨block, hblock, -⟩ := assembleBlock_ok
      (E := E) { base with difficulty := some (bigBytes target) } cfg.pow.pubKey (payload_drain ht)
    rw [exec]
    dsimp only
    rw [hblock]
    exact ⟨_, rfl⟩
  | attempt stop hdr target drained nonce =>
    cases hl
    rw [exec, mineNonce, if_pos (.inr (.inr hch))]
    exact ⟨_, rfl⟩
  | _ => first | exact ⟨_, rfl⟩ | cases hl

/-- **Nothing blocks** a miner whose channel is closed. -/
theorem Closing.exists_exec (h : Closing n.closed (w :: rest)) (ht : Tidy E n.ledger.txBuffer) :
    ∃ e, Miner.exec E cfg now order n w = some e := by
  have hbetween : isBetween w = true → ∃ e, Miner.exec E cfg now order n w = some e := fun hb => by
    cases w <;> first | exact ⟨_, rfl⟩ | cases hb
  rcases h with hnil | hleaving | ⟨ch, hch, hmining⟩
  · cases hnil
  · cases hleaving with
    | leaving => exact ⟨_, rfl⟩
    | lastly hb => exact hbetween hb
  · cases hmining with
    | mining hl => exact exec_of_closed hl hch ht
    | between ch hb => exact hbetween hb

theorem turn_of_exec {m : ℕ} (hm : p.threads[m]? = some (w :: rest))
    (he : ∃ e, exec E cfg now order p.shared w = some e) :
    ∃ p₁, (mining E cfg).step p (.turn m now order) = some p₁ := by
  obtain ⟨e, he⟩ := he
  exact ⟨_, run_eq_some.mpr ⟨w, rest, e, hm, he, rfl⟩⟩

theorem Fits.turnsLeft_le (h : Fits r stack) (hr : r.mines = 1) : turnsLeft stack ≤ 6 := by
  cases h with
  | @mining w _ hl =>
    rw [turnsLeft_single]
    cases w <;> simp [left]
  | between ch hb =>
    rw [turnsLeft_between hb]
    simp [left]
  | leaving => simp [turnsLeft, left]
  | lastly hb =>
    rw [turnsLeft_between hb]
    simp [left]
  | _ => cases hr

theorem closing_of_wait {P : Protocol} (hP : Follows p P) (htickets : Tickets P) (hsingle : Single P)
    {r' : Role} (hwait : r' ∈ P.roles) (hr' : r' = .stopWait ∨ r' = .waiting) (hr : r ∈ P.roles)
    (hfits : Fits r stack) (hmines : r.mines = 1) : Closing p.shared.closed stack := by
  have hclosing : ∀ ch, total (Role.closes ch) P.roles = 0 := fun ch => total_eq_zero.mpr fun r₁ hr₁ => by
    obtain ⟨others, hothers⟩ := Multiset.exists_cons_of_mem hwait
    have hone : total Role.stops P.roles + total Role.disables P.roles ≤ 1 :=
      hsingle.one.trans (by split_ifs <;> omega)
    rw [hothers, total_cons, total_cons] at hone
    cases r₁ with
    | closing ch' =>
      rw [hothers] at hr₁
      rcases Multiset.mem_cons.mp hr₁ with heq | hin
      · subst heq
        simp at hr'
      · have := count_le_total Role.disables hin
        rcases hr' with rfl | rfl <;> simp at hone this <;> omega
    | _ => rfl
  have hwaits : r'.waits = 1 := by rcases hr' with rfl | rfl <;> rfl
  cases r with
  | leaving => exact .inr (.inl hfits)
  | mining ch =>
    refine .inr (.inr ⟨ch, ?_, hfits⟩)
    have honce := htickets.once ch
    have hworked := (count_le_total (Role.works ch) hr).trans (htickets.worked ch)
    rw [(hsingle.waited hwait hwaits).2, hclosing] at honce
    simp at honce hworked
    rw [← honce, hP.1] at hworked
    exact List.count_pos_iff.mp hworked
  | _ => cases hmines

/-- **A goroutine that waits for the miner goes on.** Nothing blocks the miner, which takes at
most six turns whatever the other goroutines do; and when there is no miner the goroutine that
waits can take its turn. -/
theorem wait_ends {t : ℕ} (h : (mining E cfg).Reach Careful p) (ht : p.top t = some .wait) :
    (∀ m stack, p.threads[m]? = some stack → mines stack = true →
      (∀ now order, ∃ p₁, (mining E cfg).step p (.turn m now order) = some p₁) ∧
        ∀ as p', (mining E cfg).run p as = some p' → as.countP (turnOf m) ≤ 6) ∧
    ((∀ stack ∈ p.threads, mines stack = false) →
      ∀ now order, ∃ p₁, (mining E cfg).step p (.turn t now order) = some p₁) := by
  obtain ⟨P, hP, htickets, hsingle⟩ := single_reach h
  obtain ⟨rest, hrest⟩ := top_eq_some.mp ht
  refine ⟨fun m stack hm hmines => ?_, fun hnone now order => ?_⟩
  · obtain ⟨r', hr', hfits'⟩ := hP.2.exists_role (List.mem_of_getElem? hrest)
    have hwait : r' = .stopWait ∨ r' = .waiting := by
      cases hfits' with
      | calm hcalm => cases hcalm _ List.mem_cons_self
      | stopWait => exact .inl rfl
      | waiting => exact .inr rfl
      | mining hl => cases hl
      | between ch hb => cases hb
      | lastly hb => cases hb
    obtain ⟨r, hr, hfits⟩ := hP.2.exists_role (List.mem_of_getElem? hm)
    have hone : r.mines = 1 := by rw [hfits.mines, if_pos hmines]
    have hclosing := closing_of_wait hP htickets hsingle hr' hwait hr hfits hone
    refine ⟨fun now order => ?_, fun as p' hrun => ?_⟩
    · cases stack with
      | nil => cases hmines
      | cons w rest' => exact turn_of_exec hm (hclosing.exists_exec (orderly_reach h).tidy)
    · exact Ending.run ⟨stack, hm, hfits.turnsLeft_le hone, hclosing⟩ hP hrun
  · have hWG : p.shared.minerWG = 0 := by
      have := htickets.running
      rw [hP.2.total_eq fun r stack hfits => hfits.mines, hP.1,
        List.countP_eq_zero.mpr fun s hs => by simp [hnone s hs]] at this
      exact this.symm
    refine turn_of_exec hrest ?_
    rw [exec, if_pos hWG]
    exact ⟨_, rfl⟩

/-- The miner whose channel has been closed leaves after at most six turns. -/
theorem wait_ends_waiting : (waitingPool plainEnv 1).top 2 = some .wait ∧
    ∀ as p', (mining plainEnv (sampleConfig 1)).run (waitingPool plainEnv 1) as = some p' →
    as.countP (turnOf 1) ≤ 6 :=
  ⟨rfl, ((wait_ends (t := 2) (careful_waiting plainEnv 1) rfl).1 1 [.mine 0] rfl rfl).2⟩

end Namecoin.Node.Lifecycle
