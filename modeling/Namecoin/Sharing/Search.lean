import Mathlib.Algebra.Order.BigOperators.Group.List
import Mathlib.Data.Multiset.AddSub
import Namecoin.Lib.Systems
import Namecoin.State.Commands

/-! # Searches

The requests of a search: `SearchAll`, a ring of `SearchFirst`, and `forwardSearchRequest` of
`search.go`. A node splits the budget of a search over its neighbours, and a node that receives a
request splits what is left of it again. Requests are not recognised when they come back, so only the
budgets keep them from going round for ever.

The routing tables are arbitrary and may change at any time. Budgets are of type `uint` in a request
and of type `int` where they are split, so a budget from 2^63 on is negative there.

* `planBudget_total`: the parts of a budget are positive, and together they are at most the budget;
* `search_bounded`: a search with budget `B` creates at most `B` requests in the
  whole network, and ends. -/

namespace Namecoin.Sharing.Search

open Lib.Maps Lib.Systems State.Commands

structure SearchRequestMessage where
  requestID : String
  origin : String
  pattern : String
  budget : UInt64
deriving DecidableEq

/-- A packet with a request. -/
structure Packet where
  source : String
  destination : String
  req : SearchRequestMessage
deriving DecidableEq

structure BudgetItem where
  dest : String
  b : ℕ

/-! ### Splitting a budget -/

/-- The loop of `planBudget` over the first neighbours. -/
def planLoop (base : ℕ) : ℕ → List String → List BudgetItem
  | _, [] => []
  | rem, dest :: rest =>
    let b := if 0 < rem then base + 1 else base
    if b = 0 then planLoop base (rem - 1) rest else ⟨dest, b⟩ :: planLoop base (rem - 1) rest

def planBudget (total : ℤ) (neighbors : List String) : List BudgetItem :=
  if total ≤ 0 ∨ neighbors = [] then []
  else
    let k := min total.toNat neighbors.length
    planLoop (total.toNat / k) (total.toNat % k) (neighbors.take k)

def splitBudget (total : ℤ) (neighbors : List String) : List BudgetItem := planBudget total neighbors

/-! ### Requests -/

def listNeighbors (routingTable : Map String String) (nodeAddr : String) : Finset String :=
  routingTable.keys.filter fun origin => origin ≠ "" ∧ routingTable.lookup origin = some origin ∧
    origin ≠ nodeAddr

/-- The neighbours in the order in which `rand.Shuffle` leaves them. -/
def Shuffled (neighbors : List String) (s : Finset String) : Prop :=
  neighbors.Nodup ∧ neighbors.toFinset = s

instance (neighbors : List String) (s : Finset String) : Decidable (Shuffled neighbors s) :=
  inferInstanceAs (Decidable (_ ∧ _))

/-- A turn of the loop of `sendSearchRequests` and `forwardSearchRequest`; `nextHop` is
what `lookupNextHop` finds. -/
def sendItem (nodeAddr : String) (nextHop : String → Option String) (requestID origin pattern : String)
    (item : BudgetItem) : Option Packet :=
  if item.dest = "" ∨ item.b = 0 ∨ nextHop item.dest = none then none
  else some ⟨nodeAddr, item.dest, ⟨requestID, origin, pattern, UInt64.ofNat item.b⟩⟩

/-- The loop of `sendSearchRequests` and `forwardSearchRequest`. -/
def sendPlan (nodeAddr : String) (nextHop : String → Option String) (requestID origin pattern : String)
    (plan : List BudgetItem) : List Packet :=
  plan.filterMap (sendItem nodeAddr nextHop requestID origin pattern)

def sendSearchRequests (nodeAddr : String) (nextHop : String → Option String) (reqID pattern : String)
    (plan : List BudgetItem) : List Packet :=
  if reqID = "" ∨ pattern = "" then [] else sendPlan nodeAddr nextHop reqID nodeAddr pattern plan

/-- The requests of a ring of `SearchFirst`. -/
def searchRing (nodeAddr : String) (neighbors : List String) (nextHop : String → Option String)
    (reqID pattern : String) (budget : UInt64) : List Packet :=
  sendSearchRequests nodeAddr nextHop reqID pattern (planBudget budget.toInt64.toInt neighbors)

/-- The requests of `SearchAll`. -/
def searchAll (nodeAddr : String) (neighbors : List String) (nextHop : String → Option String)
    (reqID pattern : String) (budget : UInt64) : List Packet :=
  if budget = 0 ∨ neighbors = [] then []
  else sendSearchRequests nodeAddr nextHop reqID pattern (planBudget budget.toInt64.toInt neighbors)

def forwardSearchRequest (nodeAddr : String) (neighbors : List String) (nextHop : String → Option String)
    (req : SearchRequestMessage) : List Packet :=
  if req.budget ≤ 1 ∨ neighbors = [] then []
  else sendPlan nodeAddr nextHop req.requestID req.origin req.pattern
    (splitBudget (req.budget.toInt64 - 1).toInt neighbors)

/-- The neighbours to which a node forwards a request. -/
def forwardNeighbors (routingTable : Map String String) (pkt : Packet) : Finset String :=
  (listNeighbors routingTable pkt.destination).erase (trimSpace pkt.source)

/-! ### The network -/

/-- The requests that are on their way, and all that have been created. -/
structure Network where
  inFlight : List Packet
  created : List Packet

/-- A request is delivered to its node, which has some routing table at that time, or it is lost. -/
inductive Event
  | deliver (pkt : Packet) (routingTable : Map String String) (neighbors : List String)
      (nextHop : String → Option String)
  | lose (pkt : Packet)

/-- One event. -/
def step (N : Network) : Event → Option Network
  | .deliver pkt routingTable neighbors nextHop =>
    if pkt ∈ N.inFlight ∧ Shuffled neighbors (forwardNeighbors routingTable pkt) then
      let new := forwardSearchRequest pkt.destination neighbors nextHop pkt.req
      some ⟨N.inFlight.erase pkt ++ new, N.created ++ new⟩
    else none
  | .lose pkt => if pkt ∈ N.inFlight then some ⟨N.inFlight.erase pkt, N.created⟩ else none

/-- The network after a node has started a search with the given budget. -/
def Started (budget : UInt64) (N : Network) : Prop :=
  ∃ nodeAddr routingTable neighbors nextHop reqID pattern, Shuffled neighbors
    (listNeighbors routingTable nodeAddr) ∧ (N.created = searchAll nodeAddr neighbors nextHop reqID
    pattern budget ∨ N.created = searchRing nodeAddr neighbors nextHop reqID pattern budget) ∧
    N.inFlight = N.created

/-- A search in a network. -/
def search (budget : UInt64) : System Network Event := ⟨Started budget, step⟩

/-! ### The bound -/

theorem planLoop_pos {base : ℕ} : ∀ {rem : ℕ} {l : List String}, ∀ item ∈ planLoop base rem l, 0 < item.b
  | _, [], item, h => by cases h
  | rem, dest :: rest, item, h => by
    rw [planLoop] at h
    generalize (if 0 < rem then base + 1 else base) = b at h
    split_ifs at h with hb
    · exact planLoop_pos item h
    · rcases List.mem_cons.mp h with rfl | h
      · exact Nat.pos_of_ne_zero hb
      · exact planLoop_pos item h

theorem planLoop_sum {base : ℕ} : ∀ {rem : ℕ} {l : List String},
    ((planLoop base rem l).map (·.b)).sum = base * l.length + min rem l.length
  | rem, [] => by simp [planLoop]
  | rem, dest :: rest => by
    have ih : ((planLoop base (rem - 1) rest).map (·.b)).sum = base * rest.length + min
        (rem - 1) rest.length :=
      planLoop_sum
    have hcons : ((planLoop base rem (dest :: rest)).map (·.b)).sum =
        (if 0 < rem then base + 1 else base) + ((planLoop base (rem - 1) rest).map (·.b)).sum := by
      rw [planLoop]
      generalize (if 0 < rem then base + 1 else base) = b
      split_ifs with hb
      · omega
      · rw [List.map_cons, List.sum_cons]
    rw [hcons, ih, List.length_cons, Nat.mul_succ]
    split_ifs with hrem
    · omega
    · omega

/-- **The parts of a budget** are positive, and together they are at most the budget. -/
theorem planBudget_total (total : ℤ) (neighbors : List String) :
    (∀ item ∈ planBudget total neighbors, 0 < item.b) ∧ ((planBudget total neighbors).map (·.b)).sum ≤
      total.toNat := by
  unfold planBudget
  split_ifs with h
  · simp
  · rw [not_or] at h
    have hlen : 0 < neighbors.length := List.length_pos_of_ne_nil h.2
    have hk : 0 < min total.toNat neighbors.length := by omega
    dsimp only
    generalize hmin : min total.toNat neighbors.length = k at hk
    refine ⟨fun item => planLoop_pos item, ?_⟩
    rw [planLoop_sum, List.length_take, min_eq_left (by omega)]
    have hdiv := Nat.div_add_mod total.toNat k
    have hmod := Nat.mod_lt total.toNat hk
    rw [min_eq_left hmod.le, Nat.mul_comm]
    exact hdiv.le

/-- What is left of the budgets of requests after their delivery. -/
def leftOver (pkts : List Packet) : ℕ := (pkts.map fun pkt => pkt.req.budget.toNat - 1).sum

theorem leftOver_append (a b : List Packet) : leftOver (a ++ b) = leftOver a + leftOver b := by
  unfold leftOver
  rw [List.map_append, List.sum_append]

/-- The requests of a plan: each has a positive budget that an `int` can hold, and together
they are paid by the plan. -/
theorem sendPlan_cost {nodeAddr requestID origin pattern : String} {nextHop : String → Option String} :
    ∀ {plan : List BudgetItem}, (∀ item ∈ plan, 0 < item.b) → ((plan.map (·.b)).sum < 2 ^ 63) →
      (sendPlan nodeAddr nextHop requestID origin pattern plan).length +
          leftOver (sendPlan nodeAddr nextHop requestID origin pattern plan) ≤ (plan.map (·.b)).sum ∧
        ∀ pkt ∈ sendPlan nodeAddr nextHop requestID origin pattern plan,
          1 ≤ pkt.req.budget.toNat ∧ pkt.req.budget.toNat < 2 ^ 63
  | [], _, _ => by simp [sendPlan, leftOver]
  | item :: plan, hpos, hsum => by
    rw [List.map_cons, List.sum_cons] at hsum
    have hitem := hpos item List.mem_cons_self
    have hsum' : (plan.map (·.b)).sum < 2 ^ 63 := by omega
    obtain ⟨ih₁, ih₂⟩ := @sendPlan_cost nodeAddr requestID origin pattern nextHop plan
      (fun i hi => hpos i (List.mem_cons_of_mem _ hi)) hsum'
    rw [List.map_cons, List.sum_cons]
    unfold sendPlan at *
    by_cases hskip : item.dest = "" ∨ item.b = 0 ∨ nextHop item.dest = none
    · have hnone : sendItem nodeAddr nextHop requestID origin pattern item = none := if_pos hskip
      rw [List.filterMap_cons_none hnone]
      exact ⟨by omega, ih₂⟩
    · have hsome : sendItem nodeAddr nextHop requestID origin pattern item = some _ := if_neg hskip
      rw [List.filterMap_cons_some hsome]
      have hb : (UInt64.ofNat item.b).toNat = item.b := by
        rw [UInt64.toNat_ofNat']
        exact Nat.mod_eq_of_lt (by omega)
      constructor
      · unfold leftOver at *
        rw [List.length_cons, List.map_cons, List.sum_cons]
        dsimp only
        rw [hb]
        omega
      · intro pkt hpkt
        rcases List.mem_cons.mp hpkt with rfl | hpkt
        · dsimp only
          rw [hb]
          omega
        · exact ih₂ pkt hpkt

/-- The requests are paid by the budget. -/
structure Paid (pkts : List Packet) (budget : ℕ) : Prop where
  cost : pkts.length + leftOver pkts ≤ budget
  small : ∀ pkt ∈ pkts, 1 ≤ pkt.req.budget.toNat ∧ pkt.req.budget.toNat < 2 ^ 63

theorem Paid.nil (budget : ℕ) : Paid [] budget := ⟨Nat.zero_le _, by simp⟩

theorem sendPlan_paid {nodeAddr requestID origin pattern : String} {nextHop : String → Option String}
    {total : ℤ} {neighbors : List String} (h : total.toNat < 2 ^ 63) :
    Paid (sendPlan nodeAddr nextHop requestID origin pattern (planBudget total neighbors))
      total.toNat := by
  obtain ⟨hpos, hsum⟩ := planBudget_total total neighbors
  obtain ⟨hcost, hsmall⟩ := sendPlan_cost hpos (lt_of_le_of_lt hsum h)
  exact ⟨hcost.trans hsum, hsmall⟩

theorem toInt_le (b : UInt64) : b.toInt64.toInt.toNat ≤ b.toNat ∧ b.toInt64.toInt.toNat < 2 ^ 63 := by
  have hint : b.toInt64.toInt = b.toBitVec.toInt := rfl
  have hlt := b.toNat_lt
  rw [hint, BitVec.toInt_eq_toNat_cond, UInt64.toNat_toBitVec]
  split_ifs with h
  · omega
  · omega

theorem toInt_sub_one {b : UInt64} (h : 1 ≤ b.toNat) (h' : b.toNat < 2 ^ 63) :
    (b.toInt64 - 1).toInt.toNat = b.toNat - 1 := by
  have hint : b.toInt64.toInt = b.toNat := by
    have hbv : b.toInt64.toInt = b.toBitVec.toInt := rfl
    rw [hbv, BitVec.toInt_eq_toNat_cond, UInt64.toNat_toBitVec, if_pos (by omega)]
  rw [Int64.toInt_sub, hint, Int64.toInt_one, Int.bmod_eq_of_le (by omega) (by omega)]
  omega

theorem searchRing_paid {nodeAddr reqID pattern : String} {neighbors : List String}
    {nextHop : String → Option String} {budget : UInt64} :
    Paid (searchRing nodeAddr neighbors nextHop reqID pattern budget) budget.toNat := by
  unfold searchRing sendSearchRequests
  obtain ⟨hle, hlt⟩ := toInt_le budget
  split_ifs
  · exact .nil _
  · obtain ⟨hcost, hsmall⟩ := @sendPlan_paid nodeAddr reqID nodeAddr pattern nextHop _ neighbors hlt
    exact ⟨hcost.trans hle, hsmall⟩

theorem searchAll_paid {nodeAddr reqID pattern : String} {neighbors : List String}
    {nextHop : String → Option String} {budget : UInt64} :
    Paid (searchAll nodeAddr neighbors nextHop reqID pattern budget) budget.toNat := by
  unfold searchAll
  split_ifs
  · exact .nil _
  · exact searchRing_paid

theorem forward_paid {nodeAddr : String} {neighbors : List String} {nextHop : String → Option String}
    {req : SearchRequestMessage} (h : 1 ≤ req.budget.toNat) (h' : req.budget.toNat < 2 ^ 63) :
    Paid (forwardSearchRequest nodeAddr neighbors nextHop req) (req.budget.toNat - 1) := by
  unfold forwardSearchRequest splitBudget
  split_ifs
  · exact .nil _
  · rw [← toInt_sub_one h h']
    exact sendPlan_paid (by rw [toInt_sub_one h h']; omega)

/-- The requests that are on their way and those that have been created are paid by
the budget of the search. -/
structure Bounded (budget : ℕ) (N : Network) : Prop where
  cost : N.created.length + leftOver N.inFlight ≤ budget
  small : ∀ pkt ∈ N.inFlight, 1 ≤ pkt.req.budget.toNat ∧ pkt.req.budget.toNat < 2 ^ 63

theorem leftOver_erase {pkts : List Packet} {pkt : Packet} (h : pkt ∈ pkts) :
    leftOver pkts = pkt.req.budget.toNat - 1 + leftOver (pkts.erase pkt) := by
  unfold leftOver
  rw [((List.perm_cons_erase h).map _).sum_eq, List.map_cons, List.sum_cons]

/-- **One event**: nothing is created that is not paid, and the requests on their way are one
less but for the new ones. -/
theorem Bounded.step {budget : ℕ} {N N' : Network} {a : Event} (h : Bounded budget N)
    (hs : step N a = some N') :
    Bounded budget N' ∧ N'.inFlight.length + 1 + N.created.length =
      N.inFlight.length + N'.created.length := by
  cases a with
  | lose pkt =>
    simp only [Search.step] at hs
    split_ifs at hs with hmem
    cases hs
    have hleft := leftOver_erase hmem
    have hlen := List.length_erase_of_mem hmem
    have hpos := List.length_pos_of_mem hmem
    have hcost := h.cost
    refine ⟨⟨?_, fun p hp => h.small p (List.mem_of_mem_erase hp)⟩, ?_⟩
    · dsimp only
      omega
    · dsimp only
      omega
  | deliver pkt routingTable neighbors nextHop =>
    simp only [Search.step] at hs
    split_ifs at hs with hmem
    cases hs
    obtain ⟨hmem, -⟩ := hmem
    obtain ⟨hone, hsmall⟩ := h.small pkt hmem
    have hnew := @forward_paid pkt.destination neighbors nextHop _ hone hsmall
    generalize forwardSearchRequest pkt.destination neighbors nextHop pkt.req = new at hnew ⊢
    have hleft := leftOver_erase hmem
    have hlen := List.length_erase_of_mem hmem
    have hpos := List.length_pos_of_mem hmem
    have hcost := h.cost
    have hpaid := hnew.cost
    refine ⟨⟨?_, fun p hp => ?_⟩, ?_⟩
    · dsimp only
      rw [List.length_append, leftOver_append]
      omega
    · rcases List.mem_append.mp hp with hp | hp
      · exact h.small p (List.mem_of_mem_erase hp)
      · exact hnew.small p hp
    · dsimp only
      rw [List.length_append, List.length_append]
      omega

theorem bounded_run {budget : ℕ} {B : UInt64} : ∀ {as : List Event} {N N' : Network}, Bounded budget N →
    (search B).run N as = some N' →
      Bounded budget N' ∧ N'.inFlight.length + as.length + N.created.length =
        N.inFlight.length + N'.created.length
  | [], N, N', h, hrun => by
    cases hrun
    exact ⟨h, rfl⟩
  | a :: as, N, N', h, hrun => by
    obtain ⟨N₁, hs, hrest⟩ := run_cons.mp hrun
    obtain ⟨h₁, hlen₁⟩ := h.step hs
    obtain ⟨h', hlen'⟩ := bounded_run h₁ hrest
    refine ⟨h', ?_⟩
    rw [List.length_cons]
    omega

theorem bounded_start {B : UInt64} {N : Network} (h : Started B N) :
    Bounded B.toNat N ∧ N.inFlight = N.created := by
  obtain ⟨nodeAddr, routingTable, neighbors, nextHop, reqID, pattern, -, hcreated, heq⟩ := h
  have hpaid : Paid N.created B.toNat := by
    rcases hcreated with hcreated | hcreated
    · rw [hcreated]
      exact searchAll_paid
    · rw [hcreated]
      exact searchRing_paid
  refine ⟨⟨?_, ?_⟩, heq⟩
  · rw [heq]
    exact hpaid.cost
  · rw [heq]
    exact hpaid.small

/-- **A search is bounded by its budget.** In every run after the start of a search with
budget `B`, whatever the routing tables, at most `B` requests are created, and the run has at
most `B` deliveries and losses. -/
theorem search_bounded {B : UInt64} {N N' : Network} {as : List Event} (hstart : (search B).start N)
    (hrun : (search B).run N as = some N') : N'.created.length ≤ B.toNat ∧ as.length ≤ B.toNat := by
  obtain ⟨hb, heq⟩ := bounded_start hstart
  obtain ⟨hb', hlen⟩ := bounded_run hb hrun
  have hcost := hb'.cost
  rw [heq] at hlen
  omega

/-- A routing table with one neighbour. -/
def onlyNeighbor (addr : String) : Map String String := (∅ : Map String String).insert addr addr

/-- A request of a search by `a`. -/
def requestTo (source destination : String) (budget : UInt64) : Packet :=
  ⟨source, destination, ⟨"r", "a", ".*", budget⟩⟩

/-- A search with budget 3 goes round three nodes: three requests are created, and
the third one is the last. -/
theorem search_bounded_cycle : ∃ (N N' : Network) (as : List Event), (search 3).start N ∧
    (search 3).run N as = some N' ∧ N'.created.length = 3 ∧ N'.inFlight = [] ∧
    N'.created.length ≤ (3 : UInt64).toNat ∧ as.length ≤ (3 : UInt64).toNat := by
  let N : Network := ⟨[requestTo "a" "b" 3], [requestTo "a" "b" 3]⟩
  let as : List Event := [.deliver (requestTo "a" "b" 3) (onlyNeighbor "c") ["c"] some,
    .deliver (requestTo "b" "c" 2) (onlyNeighbor "a") ["a"] some,
    .deliver (requestTo "c" "a" 1) (onlyNeighbor "b") ["b"] some]
  have hstart : (search 3).start N :=
    ⟨"a", onlyNeighbor "b", ["b"], some, "r", ".*", by decide +kernel, .inl (by decide +kernel), rfl⟩
  have hrun : ((search 3).run N as).map (fun N' => (N'.created.length, N'.inFlight)) = some (3, []) := by
    decide +kernel
  obtain ⟨N', hN', hvalues⟩ := Option.map_eq_some_iff.mp hrun
  obtain ⟨hcreated, hflight⟩ := Prod.mk.inj hvalues
  obtain ⟨hbound, hsteps⟩ := search_bounded hstart hN'
  exact ⟨N, N', as, hstart, hN', hcreated, hflight, hbound, hsteps⟩

end Namecoin.Sharing.Search
