import Mathlib.Data.Fintype.Card
import Mathlib.Tactic.Common

/-! # Votes in ballots

Acceptors vote for values in numbered ballots, and a value is chosen when all acceptors of a quorum
have voted for it in one ballot. An acceptor leaves a ballot when it will not vote in it any more. A
value is safe in a ballot if no other value has been or can be chosen in a ballot below.

* `chosen_unique`: **at most one value is chosen** if votes are cast for safe values
  only, one value to a ballot;
* `safe_of_promises`: a value is safe if a quorum has left all ballots below and the value is that of
  the highest ballot in which one of them has voted, or of a higher one;
* `Safe.later`: votes that are cast only in ballots that have not been left keep safe values safe. -/

namespace Namecoin.Lib.Ballots

/-- Votes, and ballots that acceptors have left. -/
structure Poll (A V : Type) where
  voted : A → ℕ → V → Prop
  left : A → ℕ → Prop

variable {A V : Type} (Q : Finset A → Prop)

/-- All acceptors of a quorum have voted for the value in one ballot. -/
def Chosen (p : Poll A V) (v : V) : Prop := ∃ b S, Q S ∧ ∀ a ∈ S, p.voted a b v

/-- No other value can be chosen in a ballot below `b`. -/
def Safe (p : Poll A V) (b : ℕ) (v : V) : Prop :=
  ∀ c < b, ∃ S, Q S ∧ ∀ a ∈ S, p.voted a c v ∨ p.left a c ∧ ∀ w, ¬ p.voted a c w

/-- Votes are for one value to a ballot, which is safe in it. -/
structure Coherent (p : Poll A V) : Prop where
  unique : ∀ {a a' b v w}, p.voted a b v → p.voted a' b w → v = w
  safe : ∀ {a b v}, p.voted a b v → Safe Q p b v

/-- Two quorums have an acceptor in common. -/
def Meeting [DecidableEq A] : Prop := ∀ S T, Q S → Q T → (S ∩ T).Nonempty

variable {Q} {p p' : Poll A V} {b c h : ℕ} {v w : V}

section

variable [DecidableEq A]

theorem chosen_le (hmeet : Meeting Q) (hp : Coherent Q p) {S T : Finset A} (hS : Q S) (hT : Q T)
    (hv : ∀ a ∈ S, p.voted a b v) (hw : ∀ a ∈ T, p.voted a c w) (hbc : b ≤ c) : v = w := by
  rcases Nat.eq_or_lt_of_le hbc with rfl | hlt
  · obtain ⟨a, ha⟩ := hmeet S T hS hT
    rw [Finset.mem_inter] at ha
    exact hp.unique (hv a ha.1) (hw a ha.2)
  · obtain ⟨a, ha⟩ := hmeet T T hT hT
    obtain ⟨R, hR, hsafe⟩ := hp.safe (hw a (Finset.mem_inter.mp ha).1) b hlt
    obtain ⟨a', ha'⟩ := hmeet S R hS hR
    rw [Finset.mem_inter] at ha'
    rcases hsafe a' ha'.2 with hvote | ⟨-, hnone⟩
    · exact hp.unique (hv a' ha'.1) hvote
    · exact absurd (hv a' ha'.1) (hnone v)

/-- **At most one value is chosen.** -/
theorem chosen_unique (hmeet : Meeting Q) (hp : Coherent Q p) (hv : Chosen Q p v) (hw : Chosen Q p w) :
    v = w := by
  obtain ⟨b, S, hS, hv⟩ := hv
  obtain ⟨c, T, hT, hw⟩ := hw
  rcases Nat.le_total b c with hbc | hcb
  · exact chosen_le hmeet hp hS hT hv hw hbc
  · exact (chosen_le hmeet hp hT hS hw hv hcb).symm

end

/-- **The value to propose**: acceptors of a quorum have left the ballots below `b` and
have not voted between `h` and `b`, and the value is safe in ballot `h` and the only one
they may have voted for there. -/
theorem safe_of_promises {S : Finset A} (hS : Q S) (hleft : ∀ a ∈ S, ∀ c < b, p.left a c)
    (hnone : ∀ a ∈ S, ∀ c w, h < c → c < b → ¬ p.voted a c w) (hat : ∀ a ∈ S, ∀ w, p.voted a h w → w = v)
    (hsafe : Safe Q p h v) : Safe Q p b v := by
  intro c hc
  rcases Nat.lt_trichotomy c h with hlt | rfl | hgt
  · exact hsafe c hlt
  · refine ⟨S, hS, fun a ha => ?_⟩
    by_cases hvote : p.voted a c v
    · exact .inl hvote
    · refine .inr ⟨hleft a ha c hc, fun w hw => hvote ?_⟩
      rw [← hat a ha w hw]
      exact hw
  · exact ⟨S, hS, fun a ha => .inr ⟨hleft a ha c hc, fun w => hnone a ha c w hgt hc⟩⟩

/-- The votes of `p'` are those of `p` and others in ballots that had not been left. -/
structure Later (p p' : Poll A V) : Prop where
  voted : ∀ {a b v}, p.voted a b v → p'.voted a b v
  left : ∀ {a b}, p.left a b → p'.left a b
  fresh : ∀ {a b v}, p'.voted a b v → p.voted a b v ∨ ¬ p.left a b

theorem Safe.later (hl : Later p p') (hs : Safe Q p b v) : Safe Q p' b v := by
  intro c hc
  obtain ⟨S, hS, hall⟩ := hs c hc
  refine ⟨S, hS, fun a ha => ?_⟩
  rcases hall a ha with hvote | ⟨hleft, hnone⟩
  · exact .inl (hl.voted hvote)
  · refine .inr ⟨hl.left hleft, fun w hw => ?_⟩
    rcases hl.fresh hw with hold | hnew
    · exact hnone w hold
    · exact hnew hleft

theorem Chosen.later (hl : Later p p') (hc : Chosen Q p v) : Chosen Q p' v := by
  obtain ⟨b, S, hS, hall⟩ := hc
  exact ⟨b, S, hS, fun a ha => hl.voted (hall a ha)⟩

/-- More than half of the acceptors. -/
def Majority [Fintype A] (S : Finset A) : Prop := Fintype.card A / 2 + 1 ≤ S.card

theorem majority_meeting [Fintype A] [DecidableEq A] : Meeting (Majority (A := A)) := by
  intro S T hS hT
  refine Finset.inter_nonempty_of_card_lt_card_add_card (Finset.subset_univ S) (Finset.subset_univ T) ?_
  rw [Finset.card_univ]
  unfold Majority at hS hT
  omega

end Namecoin.Lib.Ballots
