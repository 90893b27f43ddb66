import Namecoin.Lib.Threads
import Namecoin.Paxos.Defs

/-! # Goroutines of a node

The goroutines of a node take turns at every critical section, at every message they put on the
network, and at every access to the stores. A goroutine is a stack of tasks: a task is one critical
section, and it puts what its function does next on top of the stack. The handlers of the messages from
the network run one after another in the listen loop, thread 0. Every call of `Tag` has a thread of its
own, and so have its retry loop and the goroutines that sleep before they broadcast.

The critical sections are those of `Defs`. The fields of the node that stand for goroutines there,
`tag`, `retries` and `delayed`, are not used.

* `exec`: a task, and `peer`: a node whose goroutines take turns in any order, with any messages to it;
* `step_cases`: what a step does to the node and its pending tasks;
* `solo_commit`: a thread that is left alone commits as `commitStepAndAdvance` does. -/

namespace Namecoin.Paxos.Threads

open Function
open Lib.ByteStrings Lib.Systems Lib.Threads Types.Defs State.Commands Paxos.Defs

/-- What a goroutine does without a break. A handler reads the current step in the first
of its critical sections. -/
inductive Work (A : Type)
  | emit (m : Message A)
  | prepare (step id : ℕ) (source : Option A)
  | prepareLock (step id : ℕ) (source : Option A)
  | promise (step id acceptedID : ℕ) (acceptedValue : Option PaxosValue) (src : Option A)
  | promiseLock (step id acceptedID : ℕ) (acceptedValue : Option PaxosValue) (src : Option A)
  | propose (step id : ℕ) (value : PaxosValue) (src : Option A)
  | proposeLock (step id : ℕ) (value : PaxosValue) (src : Option A)
  | phase2 (step id : ℕ)
  | accept (step id : ℕ) (value : PaxosValue) (src : Option A)
  | acceptLock (step id : ℕ) (value : PaxosValue) (src : Option A)
  | phase3 (step : ℕ)
  | build (step : ℕ) (value : PaxosValue)
  | tlc (step : ℕ) (block : BlockchainBlock) (src : Option A)
  | tlcLock (step : ℕ) (block : BlockchainBlock) (src : Option A) (cur : ℕ)
  | flag (step : ℕ) (block : BlockchainBlock) (processLocal : Bool)
  | check (step : ℕ) (block : BlockchainBlock)
  | commit (step : ℕ) (block : BlockchainBlock)
  | waiters (step : ℕ)
  | cleanProposer (step : ℕ)
  | cleanTLC (step : ℕ)
  | advance
  | tagBegin (name mh : String)
  | tagCheck (value : PaxosValue)
  | tagRead (value : PaxosValue)
  | tagInit (step : ℕ) (value : PaxosValue)
  | sendPrepare (step : ℕ)
  | retry (step : ℕ)
  | register (step : ℕ) (value : PaxosValue)
  | wait (step : ℕ) (ch : ℕ) (value : PaxosValue)
  | tagEnd (value : PaxosValue)
  | returned (err : Option Err)
  | tick (step : ℕ)
  | bump1 (step id : ℕ)
  | bump2 (step id : ℕ)
deriving DecidableEq

variable {A : Type} [DecidableEq A] (H : Bytes → Digest)

/-- Go on with the given tasks. -/
def goOn (n : Node A) (js : List (Work A)) : Option (Effect (Node A) (Work A)) := some ⟨n, js, []⟩

/-- Start a goroutine. -/
def fork (n : Node A) (stack : List (Work A)) : Option (Effect (Node A) (Work A)) := some ⟨n, [], [stack]⟩

/-- `sendPromiseMessage`. A promise for another node is sent to it directly and then broadcast; in
between, the node gives it to its own handler. -/
def sendPromise (n : Node A) (dest : Option A) (step id acceptedID : ℕ)
    (acceptedValue : Option PaxosValue) :
    List (Work A) :=
  let out := .emit (.promise dest step id acceptedID acceptedValue)
  let own := .promise step id acceptedID acceptedValue (some n.self)
  match dest with
  | none => [out]
  | some d =>
    if d = n.self then [own, out, own]
    else if 1 < n.totalPeers then [out, own, out]
    else [own, out]

/-- The critical section of `handlePaxosPromise`, and the broadcast of the proposal
if the quorum is reached. -/
def promiseSection (n : Node A) (step id acceptedID : ℕ) (acceptedValue : Option PaxosValue)
    (src : Option A) :
    Option (Effect (Node A) (Work A)) :=
  if ¬ shouldProcessPromise n step id then goOn n []
  else
    let n := countPromise n step id acceptedID acceptedValue src
    if n.quorum ≤ (n.proposerPromises step id).card then
      goOn n [.emit (.propose step id (n.proposerValue step)),
        .propose step id (n.proposerValue step) (some n.self), .phase2 step id]
    else goOn n []

/-- The critical section of `handlePaxosPropose`. -/
def proposeSection (n : Node A) (step id : ℕ) (value : PaxosValue) (src : Option A) :
    Option (Effect (Node A) (Work A)) :=
  if id ≠ n.promisedID step then goOn n []
  else
    let n := { n with
      acceptedID := update n.acceptedID step id
      acceptedValue := update n.acceptedValue step (some value) }
    let broadcast := [.emit (.accept step id value), .accept step id value (some n.self)]
    if src = some n.self then fork n broadcast else goOn n broadcast

/-- The critical section of `handlePaxosAccept`. -/
def acceptSection (n : Node A) (step id : ℕ) (value : PaxosValue) (src : Option A) :
    Option (Effect (Node A) (Work A)) :=
  let (n, propCnt, globalCnt, tlcAlready) := trackAcceptCounts n step id src
  goOn n ((if n.quorum ≤ propCnt then [.phase3 step] else []) ++
    if n.quorum ≤ globalCnt ∧ tlcAlready = false then [.build step value] else [])

/-- The critical section of `handleTLC`; `cur` is the current step as it has been read before. -/
def tlcSection (n : Node A) (step : ℕ) (block : BlockchainBlock) (src : Option A) (cur : ℕ) :
    Option (Effect (Node A) (Work A)) :=
  let already := n.tlcBroadcasted step
  let n := countTLC n step block src
  goOn n (if n.quorum ≤ (n.tlcCount step).card ∧ step = cur then
    if already then [.check step block] else [.flag step block false, .check step block] else [])

/-- The critical section of `broadcastTLCOnce`. -/
def flagSection (n : Node A) (step : ℕ) (block : BlockchainBlock) (processLocal : Bool) :
    Option (Effect (Node A) (Work A)) :=
  if n.tlcBroadcasted step then goOn n []
  else goOn { n with tlcBroadcasted := update n.tlcBroadcasted step true }
    ((if processLocal then [.tlc step block (some n.self)] else []) ++ [.emit (.tlc step block)])

/-- `Tag` up to its loop. -/
def tagSection (n : Node A) (name mh : String) : Option (Effect (Node A) (Work A)) :=
  let name := trimSpace name
  let mh := trimSpace mh
  if name = "" ∨ mh = "" then goOn n [.returned (some (.msg "invalid name or metahash"))]
  else if n.totalPeers ≤ 1 then goOn { n with naming := n.naming.insert name mh } [.returned none]
  else if n.resolved name ≠ "" then goOn n [.returned (some (.msg "name already taken"))]
  else goOn n [.tagCheck ⟨name, mh⟩]

/-- The check of the naming store in the loop of `Tag`. -/
def checkSection (n : Node A) (value : PaxosValue) (next : Work A) : Option (Effect (Node A) (Work A)) :=
  match checkName n value with
  | some err => goOn n [.returned err]
  | none => goOn n [next]

/-- A tick of the retry loop. -/
def tickSection (n : Node A) (step : ℕ) : Option (Effect (Node A) (Work A)) :=
  match retryOf n step n.slot n.totalPeers with
  | .done => goOn n []
  | .nothing => goOn n [.tick step]
  | .bump1 id => goOn n [.bump1 step id]
  | .bump2 id => goOn n [.bump2 step id]

/-- The loop of `commitStepAndAdvance` goes on if the current step has its quorum already. -/
def catchUp (n : Node A) : List (Work A) :=
  match nextBlock n with
  | some B => [.check n.currentStep B]
  | none => []

/-- Run a task. A goroutine that waits for a step can go on when its channel has been closed. -/
def exec (n : Node A) : Work A → Option (Effect (Node A) (Work A))
  | .emit m => goOn (n.send m) []
  | .prepare step id source => goOn n (if step ≠ n.currentStep then [] else [.prepareLock step id source])
  | .prepareLock step id source =>
    if id ≤ n.promisedID step then goOn n []
    else goOn { n with promisedID := update n.promisedID step id }
      (sendPromise n source step id (n.acceptedID step) (n.acceptedValue step))
  | .promise step id k hv src =>
    goOn n (if step ≠ n.currentStep then [] else [.promiseLock step id k hv src])
  | .promiseLock step id k hv src => promiseSection n step id k hv src
  | .propose step id v src => goOn n (if step ≠ n.currentStep then [] else [.proposeLock step id v src])
  | .proposeLock step id v src => proposeSection n step id v src
  | .phase2 step _ => goOn (n.setPhase step 2) []
  | .accept step id v src => goOn n (if step ≠ n.currentStep then [] else [.acceptLock step id v src])
  | .acceptLock step id v src => acceptSection n step id v src
  | .phase3 step => goOn (n.setPhase step 3) []
  | .build step v => fork n [.flag step (buildBlock H n step v) true]
  | .tlc step B src => goOn n (if step < n.currentStep then [] else [.tlcLock step B src n.currentStep])
  | .tlcLock step B src cur => tlcSection n step B src cur
  | .flag step B processLocal => flagSection n step B processLocal
  | .check step B => goOn n (if step ≠ n.currentStep then [] else [.commit step B])
  | .commit step B => goOn (commitBlock n step B) [.waiters step]
  | .waiters step => goOn (completeStepWaiters n step) [.cleanProposer step]
  | .cleanProposer step => goOn (cleanupProposerState n step) [.cleanTLC step]
  | .cleanTLC step => goOn (cleanupTLCState n step) [.advance]
  | .advance => goOn (advanceStep n) (catchUp (advanceStep n))
  | .tagBegin name mh => tagSection n name mh
  | .tagCheck v => checkSection n v (.tagRead v)
  | .tagRead v => goOn n [.tagInit n.currentStep v]
  | .tagInit step v =>
    goOn (initializeProposerState n step v) [.sendPrepare step, .retry step, .register step v]
  | .sendPrepare step => goOn n [.emit (.prepare step (n.proposerID step) (some n.self)),
      .prepare step (n.proposerID step) (some n.self)]
  | .retry step => fork n [.tick step]
  | .register step v => match registerStepWaiter n step with
    | (n, some ch) => goOn n [.wait step ch v]
    | (n, none) => goOn n [.tagEnd v]
  | .wait step ch v => if ch ∈ n.stepWaiters step then none else goOn n [.tagEnd v]
  | .tagEnd v => checkSection n v (.tagCheck v)
  | .returned _ => none
  | .tick step => tickSection n step
  | .bump1 step id =>
    goOn (bumpProposerPhase1 n step id n.totalPeers n.slot) [.sendPrepare step, .tick step]
  | .bump2 step id =>
    goOn (bumpProposerPhase2 n step id n.totalPeers n.slot) [.sendPrepare step, .tick step]

/-- The handler of a message. -/
def handler (n : Node A) (src : Option A) : Message A → List (Work A)
  | .prepare step id source => [.prepare step id source]
  | .promise recipient step id k hv => if recipient = some n.self then [.promise step id k hv src] else []
  | .propose step id v => [.propose step id v src]
  | .accept step id v => [.accept step id v src]
  | .tlc step B => [.tlc step B src]

/-- The listen loop takes a message, somebody calls `Tag`, or a goroutine has a turn. -/
inductive Event (A : Type)
  | receive (m : Message A) (src : Option A)
  | tag (name mh : String)
  | run (t : ℕ)

/-- A node whose goroutines take turns, with proposal numbers of any width. The listen loop takes a
message when it has handled the one before. -/
def peer (A : Type) [DecidableEq A] (H : Bytes → Digest) : System (Pool (Node A) (Work A)) (Event A) where
  start p := ∃ self paxosID totalPeers width, p = ⟨newNode self paxosID totalPeers width, [[]]⟩
  step p
    | .receive m src => p.push 0 (handler p.shared src m)
    | .tag name mh => some (p.spawn [.tagBegin name mh])
    | .run t => p.run (exec H) t

variable {H} {p p' : Pool (Node A) (Work A)} {a : Event A} {n : Node A}

/-- The first tasks of the handlers and of `Tag`. -/
def Work.entry : Work A → Bool
  | .prepare .. | .promise .. | .propose .. | .accept .. | .tlc .. | .tagBegin .. => true
  | _ => false

theorem entry_handler {src : Option A} {m : Message A} : ∀ j ∈ handler n src m, j.entry = true := by
  cases m with
  | promise r step id k hv =>
    simp only [handler]
    split_ifs
    · exact List.forall_mem_singleton.mpr rfl
    · exact List.forall_mem_nil _
  | _ => exact List.forall_mem_singleton.mpr rfl

/-- **What a step does** to the node and its pending tasks: a message or a call adds first tasks, and a
turn runs the task on top of a thread. -/
theorem step_cases (hs : (peer A H).step p a = some p') :
    (∃ js : List (Work A), (∀ j ∈ js, j.entry = true) ∧ p'.shared = p.shared ∧ p'.tasks = js + p.tasks) ∨
    ∃ t j e, ∃ others : Multiset (Work A), a = .run t ∧ p.top t = some j ∧ exec H p.shared j = some e ∧
      p'.shared = e.shared ∧ p.tasks = j ::ₘ others ∧
        p'.tasks = (e.next ++ e.spawned.flatten : List (Work A)) + others := by
  cases a with
  | receive m src =>
    obtain ⟨hshared, htasks⟩ := push_tasks hs
    exact .inl ⟨_, entry_handler, hshared, htasks⟩
  | tag name mh =>
    cases hs
    exact .inl ⟨_, List.forall_mem_singleton.mpr rfl, rfl, spawn_tasks p _⟩
  | run t =>
    obtain ⟨j, e, others, h⟩ := run_tasks hs
    exact .inr ⟨t, j, e, others, rfl, h⟩

/-! ### Tasks on top of their threads -/

variable {P : Work A → Prop}

theorem onTop_step (hexec : ∀ n j e, exec H n j = some e → (∀ j' ∈ e.next.tail, ¬ P j') ∧
    ∀ stack ∈ e.spawned, ∀ j' ∈ stack.tail, ¬ P j') (hs : (peer A H).step p a = some p') (h : p.OnTop P) :
    p'.OnTop P := by
  cases a with
  | receive m src =>
    have htail : (handler p.shared src m).tail = [] := by
      cases m with
      | promise r step id k hv =>
        simp only [handler]
        split_ifs <;> rfl
      | _ => rfl
    exact OnTop.push h (by rw [htail]; exact List.forall_mem_nil _) hs
  | tag name mh =>
    cases hs
    exact OnTop.spawn h (List.forall_mem_nil _)
  | run t => exact OnTop.run h hexec hs

theorem onTop_start (h : (peer A H).start p) : p.OnTop P := by
  obtain ⟨self, paxosID, totalPeers, width, rfl⟩ := h
  intro stack hstack
  rw [List.mem_singleton.mp hstack]
  exact List.forall_mem_nil _

/-! ### A thread that is left alone -/

/-- A thread goes from a stack to a stack, while the other threads have no turn. -/
def Solo (H : Bytes → Digest) (n : Node A) (stack : List (Work A)) (n' : Node A)
    (stack' : List (Work A)) : Prop :=
  ∀ (threads : List (List (Work A))) (t : ℕ), t < threads.length → (peer A H).Goes (fun _ _ => True)
    ⟨n, threads.set t stack⟩ ⟨n', threads.set t stack'⟩

theorem Solo.trans {n₁ n₂ : Node A} {stack stack₁ stack₂ : List (Work A)} (h : Solo H n stack n₁ stack₁)
    (h' : Solo H n₁ stack₁ n₂ stack₂) : Solo H n stack n₂ stack₂ :=
  fun threads t ht => Relation.ReflTransGen.trans (h threads t ht) (h' threads t ht)

theorem solo_goOn {n' : Node A} {j : Work A} {js rest : List (Work A)} (he : exec H n j = goOn n' js) :
    Solo H n (j :: rest) n' (js ++ rest) := by
  intro threads t ht
  refine .single ⟨.run t, True.intro, run_eq_some.mpr ⟨j, rest, _, List.getElem?_set_self ht, he, ?_⟩⟩
  rw [List.append_nil, List.set_set]

theorem solo_round (n : Node A) (B : BlockchainBlock) (rest : List (Work A)) :
    Solo H n (.check n.currentStep B :: rest) (commitStep n n.currentStep B)
      (catchUp (commitStep n n.currentStep B) ++ rest) := by
  have hcheck : exec H n (.check n.currentStep B) = goOn n [.commit n.currentStep B] := by
    simp only [exec, ne_eq, not_true_eq_false, if_false]
  exact (solo_goOn hcheck).trans ((solo_goOn rfl).trans ((solo_goOn rfl).trans ((solo_goOn rfl).trans
    ((solo_goOn rfl).trans (solo_goOn rfl)))))

/-- **A thread that is left alone commits as `commitStepAndAdvance` does.** -/
theorem solo_commit (n : Node A) (step : ℕ) (B : BlockchainBlock) (rest : List (Work A)) :
    Solo H n (.check step B :: rest) (commitStepAndAdvance n step B) rest := by
  induction n, step, B using commitStepAndAdvance.induct with
  | case1 n step B hne =>
    have hcheck : exec H n (.check step B) = goOn n [] := by simp only [exec, if_pos hne]
    rw [commitStepAndAdvance_of_ne hne]
    exact solo_goOn hcheck
  | case2 n step B hcur n' B' h ih =>
    obtain rfl := not_not.mp hcur
    have hround := solo_round (H := H) n B rest
    unfold catchUp at hround
    rw [h] at hround
    rw [commitStepAndAdvance_some h]
    exact hround.trans ih
  | case3 n step B hcur n' h =>
    obtain rfl := not_not.mp hcur
    have hround := solo_round (H := H) n B rest
    unfold catchUp at hround
    rw [h] at hround
    rw [commitStepAndAdvance_none h]
    exact hround

end Namecoin.Paxos.Threads
