import Namecoin.Lib.Systems
import Namecoin.Lib.Threads
import Namecoin.State.Commands

/-! # Acknowledgements

`trackAck` of `impl.go` and `handleAckMessage` of `message_handlers.go`: a packet with rumors is kept
in `pendingAcks` until an acknowledgement arrives; when its timer expires before, the rumors are sent
to another neighbour in a new packet, which is tracked in turn.

The goroutines of the timers take turns with the rest of the node at every critical section and every
packet that is sent. A goroutine whose timer has been stopped may still wake up here, as one does whose
timer has expired just before; it finds no entry then.

* `acknowledged`: as long as the packet of an acknowledgement has the ID of the packet it acknowledges,
  an acknowledged packet is not sent again; otherwise the wrong entry is removed, or none;
* `unheard`: the acknowledgement that `handleRumorsMessage` sends has an ID of its
  own, and has no effect. -/

namespace Namecoin.Gossip.Acks

open Lib.Maps Lib.Systems Lib.Threads State.Commands

/-- The fields of `node` that acknowledgements are about, and what is observed of them: the packets
that have been sent, the IDs that `NewHeader` has given out, and the packets for which an
`AckMessage` has been processed. -/
structure Node where
  self : String
  ackTimeout : ℤ
  routingTable : Map String String
  pendingAcks : Map String String
  sent : List (String × String)
  used : Finset String
  acked : Finset String

/-- What a goroutine does without a break. -/
inductive Work
  | track (packetID dest : String)
  | send (packetID dest : String)
  | sleep (packetID dest : String)
  | resend (dest : String)
deriving DecidableEq

/-- The neighbours to which a packet for `dest` is sent again. -/
def Node.neighbors (n : Node) (dest : String) : Finset String :=
  n.routingTable.keys.filter fun origin => n.routingTable.lookup origin = some origin ∧
    origin ≠ n.self ∧ origin ≠ dest

/-- The end of a goroutine. -/
def ended (n : Node) : Option (Effect Node Work) := some ⟨n, [], []⟩

/-- Run a task: `trackAck`, `Socket.Send`, and the goroutine of a timer after the timer has expired.
The new packet of the goroutine has the ID `newID`, and is for the neighbour `newDest`. -/
def exec (newID newDest : String) (n : Node) : Work → Option (Effect Node Work)
  | .track packetID dest =>
    if trimSpace packetID = "" ∨ trimSpace dest = "" ∨ n.ackTimeout ≤ 0 then ended n
    else some ⟨{ n with pendingAcks := n.pendingAcks.insert packetID (trimSpace dest) }, [],
      [[.sleep packetID (trimSpace dest)]]⟩
  | .send packetID dest => ended { n with sent := n.sent ++ [(packetID, dest)] }
  | .sleep packetID dest => match n.pendingAcks.lookup packetID with
    | none => ended n
    | some _ => some ⟨{ n with pendingAcks := n.pendingAcks.erase packetID }, [.resend dest], []⟩
  | .resend dest =>
    if n.neighbors dest = ∅ then ended n
    else if newDest ∈ n.neighbors dest ∧ newID ∉ n.used then
      some ⟨{ n with used := insert newID n.used }, [.send newID newDest, .track newID newDest], []⟩
    else none

/-- `handleAckMessage`; what it does with the status is not modelled here. -/
def handleAckMessage (n : Node) (packetID ackedPacketID : String) : Node :=
  { n with
    pendingAcks := if packetID ∈ n.pendingAcks then n.pendingAcks.erase packetID else n.pendingAcks
    acked := insert ackedPacketID n.acked }

/-- What can happen: a turn of a goroutine, a packet with rumors for one of the targets of
`sendToTargets`, an `AckMessage` for the packet `ackedPacketID` in a packet with the ID `packetID`, and
changes of the routing table. -/
inductive Event
  | turn (t : ℕ) (newID newDest : String)
  | send (packetID dest : String)
  | ack (packetID ackedPacketID : String)
  | route (routingTable : Map String String)

/-- One event. -/
def step (p : Pool Node Work) : Event → Option (Pool Node Work)
  | .turn t newID newDest => p.run (exec newID newDest) t
  | .send packetID dest =>
    if packetID ∈ p.shared.used then none
    else some (Pool.spawn { p with shared := { p.shared with used := insert packetID p.shared.used } }
      [.track packetID dest, .send packetID dest])
  | .ack packetID ackedPacketID =>
    some { p with shared := handleAckMessage p.shared packetID ackedPacketID }
  | .route routingTable => some { p with shared := { p.shared with routingTable := routingTable } }

/-- A node that has sent nothing. -/
def newNode (self : String) (ackTimeout : ℤ) : Node := ⟨self, ackTimeout, ∅, ∅, [], ∅, ∅⟩

/-- The node with its timers. -/
def sender (self : String) (ackTimeout : ℤ) : System (Pool Node Work) Event :=
  ⟨fun p => p = ⟨newNode self ackTimeout, []⟩, step⟩

/-- The acknowledgement that `handleRumorsMessage` of a receiver sends for a packet:
a packet with a new ID. -/
def reply (packetID newID : String) : Event := .ack newID packetID

/-! ### Acknowledged packets -/

/-- An acknowledgement comes in a packet with the ID it acknowledges, or neither ID is waited for; and
a packet is tracked only if it has not been acknowledged yet. -/
def matching (p : Pool Node Work) : Event → Bool
  | .ack packetID ackedPacketID =>
    packetID = ackedPacketID || (packetID ∉ p.shared.pendingAcks && ackedPacketID ∉ p.shared.pendingAcks)
  | .turn t _ _ => match p.top t with
    | some (.track packetID _) => packetID ∉ p.shared.acked
    | _ => true
  | _ => true

/-- No acknowledged packet is waited for. -/
def Heard (n : Node) : Prop := ∀ id ∈ n.acked, id ∉ n.pendingAcks

/-- The acknowledgement for `id` has removed the entry of `id` and no other. -/
structure Processed (n : Node) (id : String) (n' : Node) : Prop where
  gone : id ∉ n'.pendingAcks
  kept : ∀ other, other ≠ id → n'.pendingAcks.lookup other = n.pendingAcks.lookup other

variable {p p' : Pool Node Work} {a : Event}

theorem mem_handled {n : Node} {packetID ackedPacketID id : String} :
    id ∈ (handleAckMessage n packetID ackedPacketID).pendingAcks ↔ id ∈ n.pendingAcks ∧
    id ≠ packetID := by
  unfold handleAckMessage
  dsimp only
  split_ifs with hin
  · rw [Finmap.mem_erase, and_comm]
  · exact ⟨fun h => ⟨h, fun heq => hin (heq ▸ h)⟩, fun h => h.1⟩

/-- **One acknowledgement** is processed as it should exactly if the IDs match or are both unknown. -/
theorem processed_iff {n : Node} {packetID id : String} :
    Processed n id (handleAckMessage n packetID id) ↔
    packetID = id ∨ (packetID ∉ n.pendingAcks ∧ id ∉ n.pendingAcks) := by
  constructor
  · intro h
    by_cases heq : packetID = id
    · exact .inl heq
    · right
      have hgone := h.gone
      rw [mem_handled] at hgone
      constructor
      · intro hin
        have hkept := h.kept packetID heq
        have hnone : packetID ∉ (handleAckMessage n packetID id).pendingAcks :=
          fun hm => (mem_handled.mp hm).2 rfl
        rw [Finmap.lookup_eq_none.mpr hnone] at hkept
        exact Finmap.lookup_eq_none.mp hkept.symm hin
      · intro hin
        exact hgone ⟨hin, fun h => heq h.symm⟩
  · intro h
    constructor
    · rw [mem_handled]
      rintro ⟨hin, hne⟩
      rcases h with rfl | ⟨-, hout⟩
      · exact hne rfl
      · exact hout hin
    · intro other hother
      unfold handleAckMessage
      dsimp only
      split_ifs with hin
      · rcases h with rfl | ⟨hout, -⟩
        · exact Finmap.lookup_erase_ne hother
        · exact absurd hin hout
      · rfl

theorem turn_heard {newID newDest : String} {n : Node} {w : Work} {e : Effect Node Work} (h : Heard n)
    (hw : ∀ id dest, w = .track id dest → id ∉ n.acked) (he : exec newID newDest n w = some e) :
    Heard e.shared := by
  cases w with
  | track id dest =>
    rw [exec] at he
    split_ifs at he
    · cases he
      exact h
    · cases he
      intro id' hid' hmem
      rcases Finmap.mem_insert.mp hmem with rfl | hmem
      · exact hw _ dest rfl hid'
      · exact h id' hid' hmem
  | send id dest =>
    cases he
    exact h
  | sleep id dest =>
    rw [exec] at he
    split at he
    · cases he
      exact h
    · cases he
      intro id' hid' hmem
      exact h id' hid' (Finmap.mem_erase.mp hmem).2
  | resend dest =>
    rw [exec] at he
    split_ifs at he
    · cases he
      exact h
    · cases he
      exact h

/-- **One event.** -/
theorem Heard.step (h : Heard p.shared) (hm : matching p a = true) (hs : step p a = some p') :
    Heard p'.shared := by
  cases a with
  | turn t newID newDest =>
    obtain ⟨w, e, -, htop, he, hshared, -⟩ := run_tasks hs
    rw [hshared]
    refine turn_heard h ?_ he
    rintro id dest rfl
    simpa [matching, htop] using hm
  | send packetID dest =>
    simp only [Acks.step] at hs
    split_ifs at hs
    cases hs
    exact h
  | ack packetID id =>
    cases hs
    have hfit : packetID = id ∨ (packetID ∉ p.shared.pendingAcks ∧ id ∉ p.shared.pendingAcks) := by
      simpa [matching] using hm
    intro id' hid' hmem
    rcases Finset.mem_insert.mp hid' with rfl | hid'
    · exact (processed_iff.mpr hfit).gone hmem
    · exact h id' hid' (mem_handled.mp hmem).1
  | route table =>
    cases hs
    exact h

/-- **An acknowledged packet is not sent again**, as long as acknowledgements match: it is not
waited for, and its timer ends without effect. An acknowledgement removes its entry and no
other exactly if it matches. -/
theorem acknowledged {self : String} {ackTimeout : ℤ}
    (h : (sender self ackTimeout).Reach (fun p a => matching p a = true) p) :
    (∀ id ∈ p.shared.acked, id ∉ p.shared.pendingAcks ∧
      ∀ newID newDest dest, exec newID newDest p.shared (.sleep id dest) = ended p.shared) ∧
    ∀ packetID id p', step p (.ack packetID id) = some p' →
      (Processed p.shared id p'.shared ↔ matching p (.ack packetID id) = true) := by
  have hheard : Heard p.shared :=
    h.invariant (I := fun p => Heard p.shared)
      (fun _ hp => hp ▸ fun id hid => absurd hid (Finset.notMem_empty id)) fun _ _ _ hm hs hh =>
      hh.step hm hs
  constructor
  · intro id hid
    refine ⟨hheard id hid, fun newID newDest dest => ?_⟩
    rw [exec, Finmap.lookup_eq_none.mpr (hheard id hid)]
  · intro packetID id p' hs
    cases hs
    rw [processed_iff]
    simp [matching]

/-- A packet is sent and acknowledged in a packet with its own ID: its timer ends without effect. -/
theorem acknowledged_same : ∃ p, (sender "n" 1).Reach (fun p a => matching p a = true) p ∧
    p.shared.sent = [("p1", "b")] ∧ p.top 1 = some (.sleep "p1" "b") ∧ "p1" ∉ p.shared.pendingAcks ∧
    exec "p2" "c" p.shared (.sleep "p1" "b") = ended p.shared := by
  have hrun : ((sender "n" 1).runOn (fun p a => matching p a = true) ⟨newNode "n" 1, []⟩
      [.send "p1" "b", .turn 0 "" "", .turn 0 "" "", .ack "p1" "p1"]).map
        (fun p => (p.shared.sent, p.top 1, decide ("p1" ∈ p.shared.acked))) =
      some ([("p1", "b")], some (.sleep "p1" "b"), true) := by decide +kernel
  obtain ⟨p, hp, hvalues⟩ := Option.map_eq_some_iff.mp hrun
  simp only [Prod.mk.injEq, decide_eq_true_eq] at hvalues
  obtain ⟨hsent, htop, hacked⟩ := hvalues
  have hreach : (sender "n" 1).Reach (fun p a => matching p a = true) p :=
    System.Reach.runOn (.start rfl) hp
  obtain ⟨hgone, hends⟩ := (acknowledged hreach).1 "p1" hacked
  exact ⟨p, hreach, hsent, htop, hgone, hends "p2" "c" "b"⟩

/-- The acknowledgement of a receiver is not heard: the packet is sent again when its timer expires. -/
theorem unheard : ∃ p p' : Pool Node Work, (sender "n" 1).run ⟨newNode "n" 1, []⟩
      [.route ((∅ : Map String String).insert "c" "c"), .send "p1" "b", .turn 0 "" "", .turn 0 "" "",
      reply "p1" "a1"] =
        some p ∧
    "p1" ∈ p.shared.acked ∧ "p1" ∈ p.shared.pendingAcks ∧ p.shared.sent = [("p1", "b")] ∧
    (sender "n" 1).run p [.turn 1 "" "", .turn 1 "p2" "c", .turn 1 "" ""] = some p' ∧
    p'.shared.sent = [("p1", "b"), ("p2", "c")] := by
  have hrun : ((sender "n" 1).run ⟨newNode "n" 1, []⟩ [.route ((∅ : Map String String).insert "c" "c"),
    .send "p1" "b", .turn 0 "" "", .turn 0 "" "", reply "p1" "a1"]).bind (fun p =>
        ((sender "n" 1).run p [.turn 1 "" "", .turn 1 "p2" "c", .turn 1 "" ""]).map fun p' =>
          (decide ("p1" ∈ p.shared.acked), decide ("p1" ∈ p.shared.pendingAcks), p.shared.sent,
            p'.shared.sent)) =
      some (true, true, [("p1", "b")], [("p1", "b"), ("p2", "c")]) := by decide +kernel
  obtain ⟨p, hp, hrest⟩ := Option.bind_eq_some_iff.mp hrun
  obtain ⟨p', hp', hvalues⟩ := Option.map_eq_some_iff.mp hrest
  simp only [Prod.mk.injEq, decide_eq_true_eq] at hvalues
  obtain ⟨hacked, hpending, hsent, hsent'⟩ := hvalues
  exact ⟨p, p', hp, hacked, hpending, hsent, hp', hsent'⟩

end Namecoin.Gossip.Acks
