import Namecoin.Lib.Maps
import Namecoin.Lib.Systems
import Namecoin.Lib.Threads
import Namecoin.State.Commands

/-! # Rumors

The rumor log of a node: `processRumorIfExpected` and `sendMissingRumorsTo` of
`rumor_utils.go`, the handlers of the messages that carry other messages, and `Broadcast` with
`buildRumorMessage` of `impl.go`.

A message is what the registry reads from a `transport.Message`. Only rumors and private messages carry
other messages. The handlers of all other messages do not touch the log, but they may call `Broadcast`;
so a call of `Broadcast` is a thread that may start at any time. Sequence numbers are natural numbers
where the source has `uint`. They go up one by one, so the two differ only after 2^64 - 1 rumors of one
origin. The packets that are sent are left out, but for those of `sendMissingRumorsTo`.

* `process`, `acceptExpectedRumors`, `processRumorIfExpected`: the handlers, if
  nothing else happens meanwhile;
* `exec`: a critical section of a goroutine, and `gossip`: a node whose goroutines take turns,
  with any packets to it. -/

namespace Namecoin.Gossip.Defs

open Lib.Maps Lib.Systems Lib.Threads Types.Defs State.Commands

/-- `Rumor`, with an embedded message of the given type. -/
structure RumorOf (μ : Type) where
  origin : String
  sequence : ℕ
  msg : Option μ

/-- A `transport.Message`: a `RumorsMessage`, a `PrivateMessage`, a message of another type, or one
whose payload is not JSON. -/
inductive Message
  | rumors (rumors : List (RumorOf Message))
  | privateFor (recipients : Finset String) (msg : Option Message)
  | other (type : String)
  | invalid (type : String)

abbrev Rumor := RumorOf Message

def Message.type : Message → String
  | .rumors _ => "rumor"
  | .privateFor _ _ => "private"
  | .other type => type
  | .invalid type => type

/-- `MarshalMessage` succeeds on a `RumorsMessage` that embeds the message. -/
def Message.marshals : Message → Bool
  | .invalid _ => false
  | _ => true

structure Header where
  source : String
  relayedBy : String
  destination : String

/-- The fields of `node` that rumors are about. `taken` is not a field of the code: it lists the rumors
that the node has accepted from the network or made itself, by origin and sequence number, in the order
in which it has done so. -/
structure Node where
  self : String
  lastSeq : Map String ℕ
  rumors : Map String (Map ℕ Rumor)
  routingTable : Map String String
  taken : List (String × ℕ)

/-- `n.lastSeq[origin]`. -/
def Node.last (n : Node) (origin : String) : ℕ := (n.lastSeq.lookup origin).getD 0

/-- `n.rumors[origin]`. -/
def Node.stored (n : Node) (origin : String) : Map ℕ Rumor := (n.rumors.lookup origin).getD ∅

/-! ### Rumors from the network -/

/-- The checks of `processRumorIfExpected`: the message to be processed, if the rumor is the
next one of its origin. -/
def Node.expects (n : Node) (r : Rumor) : Option Message :=
  if trimSpace r.origin = "" ∨ r.sequence = 0 then none
  else match r.msg with
    | none => none
    | some m => if m.type = "" ∨ n.last (trimSpace r.origin) + 1 ≠ r.sequence then none else some m

/-- The rumor is accepted. -/
def Node.take (n : Node) (r : Rumor) : Node :=
  { n with taken := n.taken ++ [(trimSpace r.origin, r.sequence)] }

/-- The header for the embedded message. -/
def Node.msgHeader (n : Node) (h : Header) (r : Rumor) : Header :=
  { h with
    source := trimSpace r.origin
    destination := if trimSpace h.destination = "" then n.self else h.destination }

/-- The routing table after a rumor. -/
def Node.reroute (n : Node) (h : Header) (origin : String) : Map String String :=
  let relay := trimSpace h.relayedBy
  let currentRelay := (n.routingTable.lookup origin).getD ""
  if relay ≠ "" ∧ origin ≠ n.self ∧ currentRelay ≠ origin ∧ currentRelay ≠ relay then
    n.routingTable.insert origin relay
  else n.routingTable

/-- The last critical section of `processRumorIfExpected`. -/
def Node.store (n : Node) (h : Header) (r : Rumor) : Node :=
  let origin := trimSpace r.origin
  { n with
    lastSeq := n.lastSeq.insert origin r.sequence
    rumors := n.rumors.insert origin ((n.stored origin).insert r.sequence r)
    routingTable := n.reroute h origin }

mutual

/-- `ProcessPacket` with `handleRumorsMessage` and `handlePrivateMessage`. -/
def process (n : Node) (h : Header) : Message → Node
  | .rumors rs => acceptExpectedRumors n h rs
  | .privateFor recipients msg => if trimSpace h.destination ∈ recipients then processMsg n h msg else n
  | .other _ => n
  | .invalid _ => n

/-- `ProcessPacket` of a message that may be missing. -/
def processMsg (n : Node) (h : Header) : Option Message → Node
  | none => n
  | some m => process n h m

def acceptExpectedRumors (n : Node) (h : Header) : List (RumorOf Message) → Node
  | [] => n
  | r :: rs => acceptExpectedRumors (processRumorIfExpected n h r) h rs

def processRumorIfExpected (n : Node) (h : Header) : RumorOf Message → Node
  | ⟨origin, sequence, msg⟩ =>
    let r := ⟨origin, sequence, msg⟩
    if (n.expects r).isSome then (processMsg (n.take r) (n.msgHeader h r) msg).store h r else n

end

/-! ### Rumors of the node -/

/-- The number that the next rumor of the node gets. -/
def Node.nextSeq (n : Node) : ℕ := n.last (trimSpace n.self) + 1

/-- The first critical section of `buildRumorMessage`. -/
def Node.advance (n : Node) : Node :=
  let nodeAddr := trimSpace n.self
  { n with
    lastSeq := n.lastSeq.insert nodeAddr n.nextSeq
    rumors := n.rumors.insert nodeAddr (n.stored nodeAddr)
    taken := n.taken ++ [(nodeAddr, n.nextSeq)] }

/-- The second critical section of `buildRumorMessage`. -/
def Node.keep (n : Node) (seq : ℕ) (msg : Message) : Node :=
  let nodeAddr := trimSpace n.self
  { n with rumors := n.rumors.insert nodeAddr ((n.stored nodeAddr).insert seq ⟨nodeAddr, seq, some msg⟩) }

/-- `buildRumorMessage`, if nothing else happens meanwhile: the number of the new rumor. -/
def buildRumorMessage (msg : Message) : EStateM Err Node ℕ := do
  let n ← get
  if trimSpace n.self = "" then throw (.msg "invalid origin")
  if trimSpace msg.type = "" then throw (.msg "invalid message: empty type")
  let seq := n.nextSeq
  set n.advance
  if ¬ msg.marshals then throw (.msg "failed to marshal")
  modify fun n => n.keep seq msg
  return seq

/-- The header of a message that the node processes itself. -/
def Node.localHeader (n : Node) : Header := ⟨n.self, n.self, n.self⟩

/-! ### Goroutines -/

/-- What a goroutine does without a break. -/
inductive Work
  | process (h : Header) (msg : Message)
  | accept (h : Header) (rumors : List Rumor)
  | store (h : Header) (r : Rumor)
  | build (msg : Message) (skipLocalProcessing : Bool)
  | keep (seq : ℕ) (msg : Message) (skipLocalProcessing : Bool)

/-- Go on with the given tasks. -/
def goOn (n : Node) (ws : List Work) : Option (Effect Node Work) := some ⟨n, ws, []⟩

/-- The handler of a message. -/
def handler (h : Header) : Message → List Work
  | .rumors rs => [.accept h rs]
  | .privateFor recipients (some m) => if trimSpace h.destination ∈ recipients then [.process h m] else []
  | _ => []

/-- Run a task. -/
def exec (n : Node) : Work → Option (Effect Node Work)
  | .process h m => goOn n (handler h m)
  | .accept _ [] => goOn n []
  | .accept h (r :: rs) => match n.expects r with
    | none => goOn n [.accept h rs]
    | some m => goOn (n.take r) [.process (n.msgHeader h r) m, .store h r, .accept h rs]
  | .store h r => goOn (n.store h r) []
  | .build m skip =>
    if trimSpace n.self = "" ∨ trimSpace m.type = "" then goOn n []
    else goOn n.advance [.keep n.nextSeq m skip]
  | .keep seq m skip =>
    if m.marshals then goOn (n.keep seq m) (if skip then [] else [.process n.localHeader m])
    else goOn n []

/-- What can happen: a turn of a goroutine, a packet for the listen loop, a call of `Broadcast`, and
changes of the routing table by other functions. -/
inductive Event
  | turn (t : ℕ)
  | packet (h : Header) (msg : Message)
  | broadcast (msg : Message) (skipLocalProcessing : Bool)
  | route (routingTable : Map String String)

/-- One event. The packets from the network are processed one after another in thread 0. -/
def step (p : Pool Node Work) : Event → Option (Pool Node Work)
  | .turn t => p.run exec t
  | .packet h msg => p.push 0 [.process h msg]
  | .broadcast msg skip => some (p.spawn [.build msg skip])
  | .route routingTable => some { p with shared := { p.shared with routingTable := routingTable } }

/-- A node that starts with nothing to do. -/
def gossip (n : Node) : System (Pool Node Work) Event :=
  ⟨fun p => p = ⟨{ n with taken := [] }, [[]]⟩, step⟩

/-! ### Catching up -/

def collectMissingForOrigin (n : Node) (origin : String) (localSeq remoteSeq : ℕ) : List Rumor :=
  let origin := trimSpace origin
  if origin = "" ∨ localSeq ≤ remoteSeq then []
  else
    ((List.range' (remoteSeq + 1) (localSeq - remoteSeq)).filterMap (n.stored origin).lookup).filter
      fun rm => rm.origin ≠ "" ∧ rm.sequence ≠ 0 ∧ rm.msg.isSome

/-- `collectMissingRumors`, with the order in which it visits the origins of the local status. -/
def collectMissingRumors (n : Node) (remote : Map String ℕ) (origins : List String) : List Rumor :=
  origins.flatMap fun origin => collectMissingForOrigin n origin (n.last origin)
    ((remote.lookup origin).getD 0)

/-- `RumorByOrigin` does not ask for the two rumors to change places. -/
def RumorByOrigin (r r' : Rumor) : Prop := ¬ r'.origin < r.origin

/-- The rumors that `sendMissingRumorsTo` may send: the local status is visited in any order, and
`sort.Sort` returns any permutation that is sorted. -/
structure Sends (n : Node) (remote : Map String ℕ) (rumors : List Rumor) : Prop where
  perm : ∃ origins : List String, origins.Nodup ∧ (∀ o, o ∈ origins ↔ o ∈ n.lastSeq) ∧
    rumors.Perm (collectMissingRumors n remote origins)
  sorted : rumors.Pairwise RumorByOrigin

end Namecoin.Gossip.Defs
