import Mathlib.Data.Nat.ModEq
import Namecoin.Paxos.Roles

/-! # The numbers of the proposers

A proposer begins a step with its `PaxosID`, and each retry goes on to the next number of its slot
(`nextProposalID`, called by `bumpProposerPhase1` and `bumpProposerPhase2`). Any set of nodes takes
turns here: a node begins to propose in a step, retries with the number it has, is done with a step, or
does anything else, in any order and in any number of steps. Two logs are kept for each node and step:
all numbers it has used in the step, and those of its last attempt, from the `PaxosID` on. The numbers
may have any width, as long as no retry overflows it.

* `nextProposalID_eq`: the next number, if it does not overflow; `nextProposalID_modEq`,
  `le_nextProposalID`: where it lies;
* `Numbered.turn`: the numbers of a node stay in its class, and those of an attempt rise;
* `proposal_numbers`: no two nodes with different classes ever use one number in a step. -/

namespace Namecoin.Paxos.Numbers

open Function
open Lib.Systems Paxos.Defs Paxos.Roles

/-! ### The next number -/

variable {N : ℕ}

theorem slotOf_pos (b : ℕ) (hN : 1 ≤ N) : 1 ≤ slotOf b N := by
  unfold slotOf
  split_ifs with h
  · exact hN
  · exact Nat.pos_of_ne_zero h

theorem slotOf_le (b : ℕ) (hN : 1 ≤ N) : slotOf b N ≤ N := by
  unfold slotOf
  split_ifs with h
  · exact le_rfl
  · exact (Nat.mod_lt b hN).le

theorem slotOf_modEq (b N : ℕ) : slotOf b N ≡ b [MOD N] := by
  unfold slotOf Nat.ModEq
  split_ifs with h
  · rw [h, Nat.mod_self]
  · exact Nat.mod_mod b N

/-- The number is one of the width. -/
def Width.Holds : Width → ℕ → Prop
  | .unbounded, _ => True
  | .bits w, x => x < 2 ^ w

instance : ∀ (u : Width) (x : ℕ), Decidable (Width.Holds u x)
  | .unbounded, _ => .isTrue True.intro
  | .bits w, x => inferInstanceAs (Decidable (x < 2 ^ w))

/-- The next number, as it is without a bound, is one of the width. -/
def NoOverflow (u : Width) (current minimum totalPeers slot : ℕ) : Prop :=
  Width.Holds u (nextProposalID .unbounded current minimum totalPeers slot)

instance (u : Width) (current minimum totalPeers slot : ℕ) :
    Decidable (NoOverflow u current minimum totalPeers slot) :=
  inferInstanceAs (Decidable (Width.Holds u _))

/-- **A number that does not overflow** is the number without a bound: the sums on the way
to it are not above it. -/
theorem nextProposalID_eq {u : Width} {current minimum slot : ℕ}
    (h : NoOverflow u current minimum N slot) :
    nextProposalID u current minimum N slot = nextProposalID .unbounded current minimum N slot := by
  cases u with
  | unbounded => rfl
  | bits w =>
    have hwrap : ∀ {x : ℕ}, x < 2 ^ w → (Width.bits w).wrap x = x := Nat.mod_eq_of_lt
    unfold NoOverflow Width.Holds at h
    rw [nextProposalID_unbounded] at h ⊢
    unfold nextProposalID
    dsimp only at h ⊢
    have hsum : current + N < 2 ^ w := by
      split_ifs at h <;> omega
    rw [hwrap hsum]
    generalize (if current + N < minimum then minimum else current + N) = target at h ⊢
    by_cases hslot : slotOf target N = slot
    · simp only [hslot, ne_eq, not_true_eq_false, if_false] at h ⊢
      split_ifs at h ⊢ with hle
      · exact hwrap h
      · rfl
    · simp only [ne_eq, hslot, not_false_eq_true, if_true] at h ⊢
      -- the number is moved up to the slot, by `d`
      have hmove : ∀ d, (if target + d ≤ current then target + d + N else target + d) < 2 ^ w →
          (if (Width.bits w).wrap (target + d) ≤ current then (Width.bits w).wrap
          ((Width.bits w).wrap (target + d) + N)
            else (Width.bits w).wrap (target + d)) =
              if target + d ≤ current then target + d + N else target + d := fun d hd => by
        rw [hwrap (by split_ifs at hd <;> omega)]
        split_ifs at hd ⊢ with hle
        · exact hwrap hd
        · rfl
      by_cases hlt : slotOf target N < slot
      · simp only [if_pos hlt] at h ⊢
        exact hmove _ h
      · simp only [if_neg hlt] at h ⊢
        exact hmove _ h

theorem nextProposalID_modEq (current minimum : ℕ) {slot : ℕ} (hslot : 1 ≤ slot) (hle : slot ≤ N) :
    nextProposalID .unbounded current minimum N slot ≡ slot [MOD N] := by
  have hspec := (nextProposalID_spec current minimum hslot hle).2
  have hclass := slotOf_modEq (nextProposalID .unbounded current minimum N slot) N
  rw [hspec] at hclass
  exact hclass.symm

theorem le_nextProposalID (current minimum N slot : ℕ) :
    minimum ≤ nextProposalID .unbounded current minimum N slot := by
  -- the target is at least the minimum from the second line on, and it only grows
  have htarget : minimum ≤ if current + N < minimum then minimum else current + N := by
    split_ifs with h
    · exact le_rfl
    · exact Nat.le_of_not_lt h
  rw [nextProposalID_unbounded]
  dsimp only
  generalize (if current + N < minimum then minimum else current + N) = target at htarget ⊢
  split_ifs <;> omega

/-! ### Nodes that propose -/

variable {ι A : Type}

/-- A node that proposes: all numbers it has used in each step, and those it has used since it last
began to propose there, the last one first. -/
structure Proposer (A : Type) where
  node : Node A
  used : ℕ → List ℕ
  attempt : ℕ → List ℕ

/-- What a node does in its turn. -/
inductive Turn (A : Type)
  | begin (step : ℕ) (value : PaxosValue)
  | bump1 (step : ℕ)
  | bump2 (step : ℕ)
  | done (step : ℕ)
  | other (n : Node A)

/-- The node has a new number in a step. -/
def Proposer.next (p : Proposer A) (step : ℕ) (n : Node A) (before : List ℕ) : Proposer A where
  node := n
  used := update p.used step (n.proposerID step :: p.used step)
  attempt := update p.attempt step (n.proposerID step :: before)

/-- A retry: `handleProposerRetryTick` has read the number of the step. There is no retry loop before
the node has begun to propose in the step. -/
def Proposer.retry (p : Proposer A) (step : ℕ) (bump : Node A → ℕ → ℕ → ℕ → ℕ → Node A) :
    Option (Proposer A) :=
  if p.attempt step = [] then none
  else some (p.next step (bump p.node step (p.node.proposerID step) p.node.totalPeers p.node.slot)
    (p.attempt step))

/-- A turn of a node. Whatever else it does, only these functions write the numbers. -/
def Proposer.turn (p : Proposer A) : Turn A → Option (Proposer A)
  | .begin step value => some (p.next step (initializeProposerState p.node step value) [])
  | .bump1 step => p.retry step bumpProposerPhase1
  | .bump2 step => p.retry step bumpProposerPhase2
  | .done step => some ⟨cleanupProposerState p.node step, p.used, update p.attempt step []⟩
  | .other n => some ⟨{ n with
      paxosID := p.node.paxosID
      totalPeers := p.node.totalPeers
      width := p.node.width
      proposerID := p.node.proposerID }, p.used, p.attempt⟩

/-- Nodes that take turns. Their classes modulo the number of peers are different. -/
def proposers (ι A : Type) [DecidableEq ι] (N : ℕ) : System (ι → Proposer A) (ι × Turn A) where
  start P := (∀ i, (P i).node.totalPeers = N ∧ ∀ s, (P i).used s = [] ∧ (P i).attempt s = []) ∧
    ∀ i j, i ≠ j → ¬ (P i).node.paxosID ≡ (P j).node.paxosID [MOD N]
  step P a := ((P a.1).turn a.2).map (update P a.1)

/-- The number that the node goes on to in a step does not overflow. -/
def InRange (n : Node A) (step : ℕ) : Prop :=
  NoOverflow n.width (n.proposerID step) (max (n.proposerID step) (n.promisedID step)) n.totalPeers n.slot

instance (n : Node A) (step : ℕ) : Decidable (InRange n step) :=
  inferInstanceAs (Decidable (NoOverflow ..))

/-- No retry overflows. -/
def NoneOverflows (P : ι → Proposer A) : ι × Turn A → Prop
  | (i, .bump1 step) | (i, .bump2 step) => InRange (P i).node step
  | _ => True

instance (P : ι → Proposer A) : ∀ a, Decidable (NoneOverflows P a)
  | (i, .bump1 step) | (i, .bump2 step) => inferInstanceAs (Decidable (InRange (P i).node step))
  | (_, .begin ..) | (_, .done _) | (_, .other _) => .isTrue True.intro

/-! ### The numbers of a node -/

/-- What is known of the numbers of a node. -/
structure Numbered (N : ℕ) (p : Proposer A) : Prop where
  peers : p.node.totalPeers = N
  /-- The numbers are of the class of the node. -/
  own : ∀ s, ∀ b ∈ p.used s, b ≡ p.node.paxosID [MOD N]
  /-- The numbers of an attempt rise, and the node has the last one. -/
  rising : ∀ s, (p.attempt s).Pairwise (· > ·)
  last : ∀ s, ∀ b ∈ (p.attempt s).head?, b = p.node.proposerID s

variable {p p' : Proposer A} {n : Node A} {s : ℕ} {before : List ℕ}

/-- **A new number** of the class of the node that is above those of the attempt. -/
theorem Numbered.next (h : Numbered N p) (hpeers : n.totalPeers = N) (hid : n.paxosID = p.node.paxosID)
    (hother : ∀ s', s' ≠ s → n.proposerID s' = p.node.proposerID s')
    (hown : n.proposerID s ≡ p.node.paxosID [MOD N]) (hbefore : before.Pairwise (· > ·))
    (hlt : ∀ b ∈ before, b < n.proposerID s) : Numbered N (p.next s n before) := by
  refine ⟨hpeers, fun s' b hb => ?_, fun s' => ?_, fun s' b hb => ?_⟩
  · show b ≡ n.paxosID [MOD N]
    rw [hid]
    by_cases hs : s' = s
    · subst hs
      simp only [Proposer.next, update_self, List.mem_cons] at hb
      rcases hb with rfl | hb
      · exact hown
      · exact h.own s' b hb
    · simp only [Proposer.next, update_of_ne hs] at hb
      exact h.own s' b hb
  · by_cases hs : s' = s
    · subst hs
      simp only [Proposer.next, update_self]
      exact List.pairwise_cons.mpr ⟨hlt, hbefore⟩
    · simp only [Proposer.next, update_of_ne hs]
      exact h.rising s'
  · by_cases hs : s' = s
    · subst hs
      simp only [Proposer.next, update_self] at hb
      exact (Option.some.inj hb).symm
    · simp only [Proposer.next, update_of_ne hs] at hb
      exact (h.last s' b hb).trans (hother s' hs).symm

theorem Numbered.le_last (h : Numbered N p) {b : ℕ} (hb : b ∈ p.attempt s) : b ≤ p.node.proposerID s := by
  have hrising := h.rising s
  have hlast := h.last s
  cases hl : p.attempt s with
  | nil =>
    rw [hl] at hb
    cases hb
  | cons c l =>
    rw [hl] at hb hrising hlast
    have hc : c = p.node.proposerID s := hlast c rfl
    rcases List.mem_cons.mp hb with rfl | hb
    · exact hc.le
    · exact hc ▸ (List.rel_of_pairwise_cons hrising hb).le

/-- **A retry** goes on to a number of the node that is above all numbers of the attempt. -/
theorem Numbered.retry (hN : 1 ≤ N) (h : Numbered N p) {bump : Node A → ℕ → ℕ → ℕ → ℕ → Node A}
    (hs : p.retry s bump = some p') (hrange : InRange p.node s)
    (hbump : ∀ n id total slot, (bump n s id total slot).totalPeers = n.totalPeers ∧
      (bump n s id total slot).paxosID = n.paxosID ∧ (bump n s id total slot).proposerID =
        update n.proposerID s (nextOf n s id total slot)) :
    Numbered N p' := by
  unfold Proposer.retry at hs
  split_ifs at hs
  cases hs
  obtain ⟨hpeers, hid, hnew⟩ := hbump p.node (p.node.proposerID s) p.node.totalPeers p.node.slot
  generalize bump p.node s (p.node.proposerID s) p.node.totalPeers p.node.slot = n at hpeers hid hnew ⊢
  have hslot : 1 ≤ p.node.slot ∧ p.node.slot ≤ N := by
    unfold Node.slot
    rw [h.peers]
    exact ⟨slotOf_pos _ hN, slotOf_le _ hN⟩
  have hclass : p.node.slot ≡ p.node.paxosID [MOD N] := h.peers ▸ slotOf_modEq _ _
  have hval : n.proposerID s = nextProposalID .unbounded (p.node.proposerID s)
      (max (p.node.proposerID s) (p.node.promisedID s)) N p.node.slot := by
    rw [hnew, update_self, nextOf, nextProposalID_eq hrange, h.peers]
  refine h.next (hpeers.trans h.peers) hid (fun s' hs => by rw [hnew, update_of_ne hs]) ?_
    (h.rising s) fun b hb => ?_
  · rw [hval]
    exact (nextProposalID_modEq _ _ hslot.1 hslot.2).trans hclass
  · rw [hval]
    exact (h.le_last hb).trans_lt (nextProposalID_spec _ _ hslot.1 hslot.2).1

theorem paxosID_turn {t : Turn A} (hs : p.turn t = some p') : p'.node.paxosID = p.node.paxosID := by
  cases t with
  | bump1 s =>
    simp only [Proposer.turn, Proposer.retry] at hs
    split_ifs at hs
    cases hs
    rfl
  | bump2 s =>
    simp only [Proposer.turn, Proposer.retry] at hs
    split_ifs at hs
    cases hs
    rfl
  | _ =>
    cases hs
    rfl

/-- **A turn of a node** keeps its numbers in order. -/
theorem Numbered.turn (hN : 1 ≤ N) (h : Numbered N p) {t : Turn A} (hs : p.turn t = some p')
    (hrange : ∀ s, t = .bump1 s ∨ t = .bump2 s → InRange p.node s) : Numbered N p' := by
  cases t with
  | begin s value =>
    cases hs
    refine h.next h.peers rfl (fun s' hs => update_of_ne hs _ _) ?_ List.Pairwise.nil
      (List.forall_mem_nil _)
    show update p.node.proposerID s p.node.paxosID s ≡ p.node.paxosID [MOD N]
    rw [update_self]
  | bump1 s => exact h.retry hN hs (hrange s (.inl rfl)) fun _ _ _ _ => ⟨rfl, rfl, rfl⟩
  | bump2 s => exact h.retry hN hs (hrange s (.inr rfl)) fun _ _ _ _ => ⟨rfl, rfl, rfl⟩
  | done s =>
    cases hs
    refine ⟨h.peers, h.own, fun s' => ?_, fun s' b hb => ?_⟩
    · by_cases hs : s' = s
      · subst hs
        simp only [update_self, List.Pairwise.nil]
      · simp only [update_of_ne hs]
        exact h.rising s'
    · by_cases hs : s' = s
      · subst hs
        simp only [update_self] at hb
        cases hb
      · simp only [update_of_ne hs] at hb
        exact (h.last s' b hb).trans (update_of_ne hs _ _).symm
  | other n =>
    cases hs
    exact ⟨h.peers, h.own, h.rising, h.last⟩

/-! ### Any set of nodes -/

variable [DecidableEq ι] {P P' : ι → Proposer A} {a : ι × Turn A}

/-- All nodes have their numbers in order, and their classes are different. -/
structure Apart (N : ℕ) (P : ι → Proposer A) : Prop where
  numbered : ∀ i, Numbered N (P i)
  classes : ∀ i j, i ≠ j → ¬ (P i).node.paxosID ≡ (P j).node.paxosID [MOD N]

theorem apart_step (hN : 1 ≤ N) (hC : NoneOverflows P a) (hs : (proposers ι A N).step P a = some P')
    (h : Apart N P) : Apart N P' := by
  obtain ⟨i, t⟩ := a
  obtain ⟨p', hturn, rfl⟩ := Option.map_eq_some_iff.mp hs
  have hid : ∀ j, (update P i p' j).node.paxosID = (P j).node.paxosID := fun j => by
    by_cases hj : j = i
    · subst hj
      rw [update_self]
      exact paxosID_turn hturn
    · rw [update_of_ne hj]
  refine ⟨fun j => ?_, fun j k hjk => ?_⟩
  · by_cases hj : j = i
    · subst hj
      rw [update_self]
      refine (h.numbered _).turn hN hturn fun s hs => ?_
      rcases hs with rfl | rfl <;> exact hC
    · rw [update_of_ne hj]
      exact h.numbered j
  · rw [hid, hid]
    exact h.classes j k hjk

theorem apart_reach (hN : 1 ≤ N) (h : (proposers ι A N).Reach NoneOverflows P) : Apart N P := by
  refine h.invariant (I := Apart N) (fun P hP => ?_) fun P a P' hC hs h => apart_step hN hC hs h
  obtain ⟨hnew, hclasses⟩ := hP
  refine ⟨fun i => ⟨(hnew i).1, fun s b hb => ?_, fun s => ?_, fun s b hb => ?_⟩, hclasses⟩
  · rw [((hnew i).2 s).1] at hb
    cases hb
  · rw [((hnew i).2 s).2]
    exact List.Pairwise.nil
  · rw [((hnew i).2 s).2] at hb
    cases hb

/-- **The numbers of the proposers.** The next number of a proposer, if it does not overflow, is of its
slot, above the number it has and not below the minimum. So however any set of nodes of different
classes takes turns, no number is ever used by two of them in a step, and the numbers of a node rise
from retry to retry, as long as no retry overflows. -/
theorem proposal_numbers (hN : 1 ≤ N) :
    (∀ u current minimum slot, 1 ≤ slot → slot ≤ N → NoOverflow u current minimum N slot →
      nextProposalID u current minimum N slot ≡ slot [MOD N] ∧
        current < nextProposalID u current minimum N slot ∧
        minimum ≤ nextProposalID u current minimum N slot) ∧
    ∀ (ι A : Type) [DecidableEq ι] (P : ι → Proposer A), (proposers ι A N).Reach NoneOverflows P →
      (∀ i j s, i ≠ j → List.Disjoint ((P i).used s) ((P j).used s)) ∧
        ∀ i s, ((P i).attempt s).Pairwise (· > ·) := by
  refine ⟨fun u current minimum slot hslot hle hu => ?_, fun ι A _ P hP => ?_⟩
  · rw [nextProposalID_eq hu]
    exact ⟨nextProposalID_modEq _ _ hslot hle, (nextProposalID_spec _ _ hslot hle).1,
      le_nextProposalID _ _ _ _⟩
  · have hall := apart_reach hN hP
    refine ⟨fun i j s hij b hbi hbj => ?_, fun i s => (hall.numbered i).rising s⟩
    exact hall.classes i j hij (((hall.numbered i).own s b hbi).symm.trans
      ((hall.numbered j).own s b hbj))

/-! ### A sample run -/

/-- Two nodes of three that have not proposed yet. -/
def pair (i : Bool) : Proposer Bool :=
  ⟨newNode i (if i then 2 else 1) 3 (.bits 64), fun _ => [], fun _ => []⟩

/-- Both nodes retry in the first step, the second one twice. -/
def pairTurns : List (Bool × Turn Bool) :=
  [(false, .begin 0 ⟨"name", "a"⟩), (true, .begin 0 ⟨"name", "b"⟩), (false, .bump1 0), (true, .bump1 0),
    (true, .bump2 0)]

theorem reach_pair : ∃ P, (proposers Bool Bool 3).Reach NoneOverflows P ∧
    (P false).used 0 = [4, 1] ∧ (P true).used 0 = [8, 5, 2] := by
  have hstart : (proposers Bool Bool 3).start pair := ⟨fun i => ⟨rfl, fun s => ⟨rfl, rfl⟩⟩, by decide⟩
  have hrun : ((proposers Bool Bool 3).runOn NoneOverflows pair pairTurns).map
    (fun P => ((P false).used 0, (P true).used 0)) = some ([4, 1], [8, 5, 2]) := by decide +kernel
  obtain ⟨P, hP, hused⟩ := Option.map_eq_some_iff.mp hrun
  exact ⟨P, (System.Reach.start hstart).runOn hP, (Prod.mk.inj hused).1, (Prod.mk.inj hused).2⟩

theorem pair_numbers : ∃ P, (proposers Bool Bool 3).Reach NoneOverflows P ∧ (P false).used 0 = [4, 1] ∧
    (P true).used 0 = [8, 5, 2] ∧ List.Disjoint ((P false).used 0) ((P true).used 0) := by
  obtain ⟨P, hP, hused⟩ := reach_pair
  exact ⟨P, hP, hused.1, hused.2, ((proposal_numbers (by decide)).2 Bool Bool P hP).1 false
    true 0 (by decide)⟩

end Namecoin.Paxos.Numbers
