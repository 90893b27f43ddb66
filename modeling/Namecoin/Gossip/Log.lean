import Namecoin.Gossip.Defs

/-! # The order of the rumors

Between the check of a rumor and the critical section that stores it, its message is processed, and
that may bring a rumor of the same origin. A node that makes a rumor of its own draws the number before
it knows that the rumor can be stored.

* `step_cases`: what an event does to the log of a node and to the rumors that are half done;
* `taken_in_order`: as long as no rumor is accepted or made while one of its origin is half done, the
  rumors of an origin are taken once each and in order, and the last number never decreases; a rumor
  that is accepted while one of its origin is half done is accepted twice;
* `own_log`: as long as also all messages that are broadcast can be marshalled, the node can
  supply its own rumors. -/

namespace Namecoin.Gossip.Log

open Lib.Maps Lib.Ops Lib.Systems Lib.Threads State.Commands Gossip.Defs

/-! ### Rumors that are half done -/

/-- A rumor that has been taken and not been stored. -/
def halfDone : Work → Bool
  | .store _ _ => true
  | .keep _ _ _ => true
  | _ => false

/-- A rumor of the origin `o` from the network that is half done. -/
def storing (o : String) : Work → Bool
  | .store _ r => trimSpace r.origin = o
  | _ => false

/-- The log is the same. -/
def SameLog (n n' : Node) : Prop := n' = { n with routingTable := n'.routingTable }

/-- What an event does to the log of the node and to the rumors that are half done. -/
inductive Moved (p p' : Pool Node Work) : Event → Prop
  | quiet {a : Event} : SameLog p.shared p'.shared → p'.those halfDone = p.those halfDone → Moved p p' a
  | accept {t : ℕ} {h : Header} {r : Rumor} {rs : List Rumor} {m : Message} :
    p.top t = some (.accept h (r :: rs)) → p.shared.expects r = some m → p'.shared = p.shared.take r →
    p'.those halfDone = .store h r ::ₘ p.those halfDone → Moved p p' (.turn t)
  | store {t : ℕ} {h : Header} {r : Rumor} : p.top t = some (.store h r) →
    p'.shared = p.shared.store h r → p.those halfDone = .store h r ::ₘ p'.those halfDone →
    Moved p p' (.turn t)
  | build {t : ℕ} {m : Message} {skip : Bool} : p.top t = some (.build m skip) →
    ¬ (trimSpace p.shared.self = "" ∨ trimSpace m.type = "") → p'.shared = p.shared.advance →
    p'.those halfDone = .keep p.shared.nextSeq m skip ::ₘ p.those halfDone → Moved p p' (.turn t)
  | keep {t seq : ℕ} {m : Message} {skip : Bool} : p.top t = some (.keep seq m skip) → m.marshals = true →
    p'.shared = p.shared.keep seq m → p.those halfDone = .keep seq m skip ::ₘ p'.those halfDone →
    Moved p p' (.turn t)
  | drop {t seq : ℕ} {m : Message} {skip : Bool} : p.top t = some (.keep seq m skip) →
    m.marshals = false → p'.shared = p.shared →
    p.those halfDone = .keep seq m skip ::ₘ p'.those halfDone → Moved p p' (.turn t)

variable {p p' : Pool Node Work} {a : Event}
variable {n₀ : Node} {m : Message} {r : Rumor} {o : String}

theorem handler_halfDone (h : Header) (m : Message) : ∀ w ∈ handler h m, halfDone w = false := by
  intro w hw
  unfold handler at hw
  split at hw
  · rw [List.mem_singleton.mp hw]
    rfl
  · split_ifs at hw
    · rw [List.mem_singleton.mp hw]
      rfl
    · cases hw
  · cases hw

/-- **What an event does.** -/
theorem step_cases (hs : step p a = some p') : Moved p p' a := by
  cases a with
  | packet h m =>
    obtain ⟨hshared, htasks⟩ := push_tasks hs
    refine .quiet (by rw [SameLog, hshared]) ?_
    exact those_add htasks fun w hw => by rw [List.mem_singleton.mp hw]; rfl
  | broadcast m skip =>
    cases hs
    refine .quiet rfl ?_
    exact those_add (spawn_tasks p _) fun w hw => by rw [List.mem_singleton.mp hw]; rfl
  | route table =>
    cases hs
    exact .quiet rfl rfl
  | turn t =>
    obtain ⟨w, e, others, htop, he, hshared, htasks, htasks'⟩ := run_tasks hs
    cases w with
    | process h m =>
      cases he
      rw [List.flatten_nil, List.append_nil] at htasks'
      refine .quiet (by rw [SameLog, hshared]) ?_
      rw [those_add htasks' (handler_halfDone h m), those_cons_of_not htasks rfl]
    | accept h rs =>
      cases rs with
      | nil =>
        cases he
        refine .quiet (by rw [SameLog, hshared]) ?_
        rw [those_append htasks', those_cons_of_not htasks rfl]
        rfl
      | cons r rs =>
        rw [exec] at he
        cases hm : p.shared.expects r with
        | none =>
          rw [hm] at he
          cases he
          refine .quiet (by rw [SameLog, hshared]) ?_
          rw [those_append htasks', those_cons_of_not htasks rfl]
          rfl
        | some m =>
          rw [hm] at he
          cases he
          refine .accept htop hm hshared ?_
          rw [those_append htasks', those_cons_of_not htasks rfl]
          rfl
    | store h r =>
      cases he
      refine .store htop hshared ?_
      rw [those_append htasks', those_cons htasks rfl]
      rfl
    | build m skip =>
      rw [exec] at he
      split_ifs at he with hbad
      · cases he
        refine .quiet (by rw [SameLog, hshared]) ?_
        rw [those_append htasks', those_cons_of_not htasks rfl]
        rfl
      · cases he
        refine .build htop hbad hshared ?_
        rw [those_append htasks', those_cons_of_not htasks rfl]
        rfl
    | keep seq m skip =>
      rw [exec] at he
      cases hm : m.marshals with
      | false =>
        rw [hm] at he
        cases he
        refine .drop htop hm hshared ?_
        rw [those_append htasks', those_cons htasks rfl]
        rfl
      | true =>
        rw [hm] at he
        cases he
        refine .keep htop hm hshared ?_
        rw [those_cons htasks rfl]
        congr 1
        cases skip <;> (rw [those_append htasks']; rfl)

/-! ### Once and in order -/

/-- Every rumor is taken once, and only after the one before it; `n₀` is the node at the start. -/
structure InOrder (n₀ n : Node) : Prop where
  once : n.taken.Nodup
  after : ∀ before o s later, n.taken = before ++ (o, s + 1) :: later → s = n₀.last o ∨ (o, s) ∈ before

/-- A rumor of the origin from the network is half done. -/
def busy (p : Pool Node Work) (o : String) : Bool := p.threads.flatten.any (storing o)

/-- A rumor is accepted or made only if no rumor of its origin from the network is half done. -/
def alone (p : Pool Node Work) : Event → Bool
  | .turn t => match p.top t with
    | some (.accept _ (r :: _)) => (p.shared.expects r).isNone || !busy p (trimSpace r.origin)
    | some (.build _ _) => !busy p (trimSpace p.shared.self)
    | _ => true
  | _ => true

/-- The numbers of an origin in the order in which they have been taken. -/
def numbers (taken : List (String × ℕ)) (o : String) : List ℕ :=
  (taken.filter fun e => e.1 = o).map Prod.snd

theorem numbers_snoc (taken : List (String × ℕ)) (o o' : String) (s : ℕ) :
    numbers (taken ++ [(o', s)]) o = if o' = o then numbers taken o ++ [s] else numbers taken o := by
  unfold numbers
  rw [List.filter_append, List.map_append]
  by_cases h : o' = o
  · simp [h]
  · simp [h]

theorem mem_numbers {taken : List (String × ℕ)} {s : ℕ} : s ∈ numbers taken o ↔ (o, s) ∈ taken := by
  unfold numbers
  simp only [List.mem_map, List.mem_filter, decide_eq_true_eq]
  constructor
  · rintro ⟨⟨o', s'⟩, ⟨hmem, rfl⟩, rfl⟩
    exact hmem
  · intro hmem
    exact ⟨(o, s), ⟨hmem, rfl⟩, rfl⟩

theorem nodup_of_numbers {taken : List (String × ℕ)} (h : ∀ o, (numbers taken o).Nodup) :
    taken.Nodup := by
  induction taken with
  | nil => exact .nil
  | cons e taken ih =>
    have hcons : ∀ o, numbers (e :: taken) o = if e.1 = o then e.2 :: numbers taken o
        else numbers taken o := by
      intro o
      unfold numbers
      rw [List.filter_cons]
      split_ifs with h₁ h₂ h₂ <;> simp_all
    refine List.nodup_cons.mpr ⟨fun hmem => ?_, ih fun o => ?_⟩
    · have hnd := h e.1
      rw [hcons, if_pos rfl, List.nodup_cons] at hnd
      exact hnd.1 (mem_numbers.mpr hmem)
    · have hnd := h o
      rw [hcons] at hnd
      split_ifs at hnd
      · exact (List.nodup_cons.mp hnd).2
      · exact hnd

theorem inOrder_of_numbers {n₀ n : Node}
    (h : ∀ o, ∃ k, numbers n.taken o = List.range' (n₀.last o + 1) k) :
    InOrder n₀ n := by
  constructor
  · refine nodup_of_numbers fun o => ?_
    obtain ⟨k, hk⟩ := h o
    rw [hk]
    exact List.nodup_range'
  · intro before o s later htaken
    obtain ⟨k, hk⟩ := h o
    have hsplit : numbers n.taken o = numbers before o ++ (s + 1) :: numbers later o := by
      rw [htaken]
      unfold numbers
      simp
    rw [hk] at hsplit
    -- the number at the place after those of `before` is `last + 1` plus the length of `before`
    obtain ⟨i, hi, hbefore, hrest⟩ := List.range'_eq_append_iff.mp hsplit
    cases k' : k - i with
    | zero => rw [k'] at hrest; cases hrest
    | succ j =>
      rw [k', List.range'_succ] at hrest
      have hs : s + 1 = n₀.last o + 1 + i := by simpa using (List.cons.inj hrest).1
      rcases Nat.eq_zero_or_pos i with rfl | hpos
      · left
        omega
      · right
        refine mem_numbers.mp ?_
        rw [hbefore, List.mem_range'_1]
        omega

/-- The numbers of an origin: all up to the last one have been taken, and the next
one if it is half done. -/
inductive Counted (first : ℕ) (o : String) (n : Node) (S : Multiset Work) : Prop
  | idle : S = 0 → first ≤ n.last o → numbers n.taken o = List.range' (first + 1) (n.last o - first) →
    Counted first o n S
  | half {h : Header} {r : Rumor} : S = {.store h r} → first ≤ n.last o → r.sequence = n.last o + 1 →
    numbers n.taken o = List.range' (first + 1) (n.last o + 1 - first) → Counted first o n S

/-- The numbers of all origins. -/
def AllCounted (n₀ : Node) (p : Pool Node Work) : Prop :=
  ∀ o, Counted (n₀.last o) o p.shared (p.those (storing o))

theorem Counted.numbers {first : ℕ} {n : Node} {S : Multiset Work} (h : Counted first o n S) :
    ∃ k, numbers n.taken o = List.range' (first + 1) k := by
  cases h with
  | idle _ _ hnum => exact ⟨_, hnum⟩
  | half _ _ _ hnum => exact ⟨_, hnum⟩

theorem AllCounted.inOrder (h : AllCounted n₀ p) : InOrder n₀ p.shared :=
  inOrder_of_numbers fun o => (h o).numbers

theorem Counted.congr {first : ℕ} {n n' : Node} {S : Multiset Work} (h : Counted first o n S)
    (hlast : n'.last o = n.last o) (hnum : Log.numbers n'.taken o = Log.numbers n.taken o) :
    Counted first o n' S := by
  cases h with
  | idle hS hle hn => exact .idle hS (by rwa [hlast]) (by rw [hnum, hlast]; exact hn)
  | half hS hle hseq hn =>
    exact .half hS (by rwa [hlast]) (by rw [hlast]; exact hseq) (by rw [hnum, hlast]; exact hn)

theorem last_store (n : Node) (h : Header) (r : Rumor) (o : String) :
    (n.store h r).last o = if o = trimSpace r.origin then r.sequence else n.last o := by
  unfold Node.store Node.last
  rw [lookup_insert_ite]
  split_ifs <;> rfl

theorem last_advance (n : Node) (o : String) :
    n.advance.last o = if o = trimSpace n.self then n.nextSeq else n.last o := by
  unfold Node.advance Node.last
  rw [lookup_insert_ite]
  split_ifs <;> rfl

theorem those_storing (p : Pool Node Work) (o : String) :
    p.those (storing o) = (p.those halfDone).filter fun w => storing o w = true := by
  unfold Pool.those
  rw [Multiset.filter_filter]
  refine Multiset.filter_congr fun w _ => ⟨fun h => ⟨h, ?_⟩, fun h => h.1⟩
  cases w <;> first | rfl | cases h

theorem busy_iff : busy p o = false ↔ p.those (storing o) = 0 := by
  unfold busy
  rw [those_eq_zero, List.any_eq_false]
  simp only [Bool.not_eq_true]
  rfl

theorem expects_spec {n : Node} (h : n.expects r = some m) :
    r.msg = some m ∧ m.type ≠ "" ∧ trimSpace r.origin ≠ "" ∧
    r.sequence = n.last (trimSpace r.origin) + 1 := by
  unfold Node.expects at h
  split_ifs at h with hbad
  rw [not_or] at hbad
  split at h
  · cases h
  · next m' hm =>
    split_ifs at h with hseq
    rw [not_or, not_not] at hseq
    cases h
    exact ⟨hm, hseq.1, hbad.1, hseq.2.symm⟩

theorem storing_cons {w : Work} (h : p'.those halfDone = w ::ₘ p.those halfDone) :
    p'.those (storing o) = if storing o w then w ::ₘ p.those (storing o) else p.those (storing o) := by
  rw [those_storing, those_storing, h, Multiset.filter_cons]
  split_ifs
  · exact Multiset.singleton_add _ _
  · exact zero_add _

theorem Counted.next {first : ℕ} {n n' : Node} (h : Counted first o n 0)
    (hnum : Log.numbers n'.taken o = Log.numbers n.taken o ++ [n.last o + 1]) : first ≤ n.last o ∧
      Log.numbers n'.taken o = List.range' (first + 1) (n.last o + 1 - first) := by
  cases h with
  | half hS => exact absurd hS (Multiset.singleton_ne_zero _).symm
  | idle _ hle hn =>
    refine ⟨hle, ?_⟩
    have hlen : n.last o + 1 - first = (n.last o - first) + 1 := by omega
    have hend : n.last o + 1 = first + 1 + (n.last o - first) := by omega
    rw [hnum, hn, hlen, List.range'_1_concat, ← hend]

/-- **One event.** -/
theorem AllCounted.step (h : AllCounted n₀ p) (halone : alone p a = true) (hs : step p a = some p') :
    AllCounted n₀ p' := by
  intro o
  have ho := h o
  cases step_cases hs with
  | quiet hsame hhalf =>
    rw [those_storing, hhalf, ← those_storing]
    exact ho.congr (by rw [hsame]; rfl) (by rw [hsame])
  | @accept t hd r rs m htop hexp hshared hhalf =>
    obtain ⟨-, -, -, hseq⟩ := expects_spec hexp
    have hfree : p.those (storing (trimSpace r.origin)) = 0 := by
      rw [← busy_iff]
      simpa [alone, htop, hexp] using halone
    rw [storing_cons hhalf]
    have htaken := numbers_snoc p.shared.taken o (trimSpace r.origin) r.sequence
    by_cases heq : trimSpace r.origin = o
    · subst heq
      rw [hfree] at ho ⊢
      rw [if_pos rfl] at htaken
      obtain ⟨hle, hnum⟩ := @Counted.next _ _ _ p'.shared ho (by rw [hshared, ← hseq]; exact htaken)
      rw [if_pos (by simp [storing])]
      exact .half rfl (by rw [hshared]; exact hle) (by rw [hshared]; exact hseq)
        (by rw [hnum, hshared]; rfl)
    · rw [if_neg heq] at htaken
      rw [if_neg (by simpa [storing] using heq)]
      exact ho.congr (by rw [hshared]; rfl) (by rw [hshared]; exact htaken)
  | @store t hd r htop hshared hhalf =>
    rw [storing_cons hhalf] at ho
    by_cases heq : trimSpace r.origin = o
    · subst heq
      rw [if_pos (by simp [storing])] at ho
      have hlast : p'.shared.last (trimSpace r.origin) = r.sequence := by
        rw [hshared, last_store, if_pos rfl]
      cases ho with
      | idle hS => exact absurd hS (Multiset.cons_ne_zero)
      | @half h' r' hS hle hseq hnum =>
        obtain ⟨hw, hrest⟩ := (Multiset.singleton_eq_cons_iff _).mp hS.symm
        cases hw
        refine .idle hrest (by rw [hlast]; omega) ?_
        rw [hlast, hseq, hshared]
        exact hnum
    · rw [if_neg (by simpa [storing] using heq)] at ho
      have hne : o ≠ trimSpace r.origin := fun h => heq h.symm
      exact ho.congr (by rw [hshared, last_store, if_neg hne]) (by rw [hshared]; rfl)
  | @build t m skip htop _ hshared hhalf =>
    have hfree : p.those (storing (trimSpace p.shared.self)) = 0 := by
      rw [← busy_iff]
      simpa [alone, htop] using halone
    rw [storing_cons hhalf, if_neg (by simp [storing])]
    have htaken := numbers_snoc p.shared.taken o (trimSpace p.shared.self) p.shared.nextSeq
    by_cases heq : trimSpace p.shared.self = o
    · subst heq
      rw [hfree] at ho ⊢
      rw [if_pos rfl] at htaken
      obtain ⟨hle, hnum⟩ := @Counted.next _ _ _ p'.shared ho (by rw [hshared]; exact htaken)
      have hlast : p'.shared.last (trimSpace p.shared.self) =
          p.shared.last (trimSpace p.shared.self) + 1 := by
        rw [hshared, last_advance, if_pos rfl]
        rfl
      exact .idle rfl (by rw [hlast]; omega) (by rw [hnum, hlast])
    · rw [if_neg heq] at htaken
      have hne : o ≠ trimSpace p.shared.self := fun h => heq h.symm
      exact ho.congr (by rw [hshared, last_advance, if_neg hne]) (by rw [hshared]; exact htaken)
  | @keep t seq m skip htop hm hshared hhalf =>
    rw [storing_cons hhalf, if_neg (by simp [storing])] at ho
    exact ho.congr (by rw [hshared]; rfl) (by rw [hshared]; rfl)
  | @drop t seq m skip htop hm hshared hhalf =>
    rw [storing_cons hhalf, if_neg (by simp [storing])] at ho
    exact ho.congr (by rw [hshared]) (by rw [hshared])

theorem AllCounted.half (h : AllCounted n₀ p) {hd : Header}
    (hmem : .store hd r ∈ p.those halfDone) : r.sequence = p.shared.last (trimSpace r.origin) + 1 ∧
      (trimSpace r.origin, r.sequence) ∈ p.shared.taken := by
  have hstoring : .store hd r ∈ p.those (storing (trimSpace r.origin)) := by
    rw [those_storing]
    exact Multiset.mem_filter.mpr ⟨hmem, by simp [storing]⟩
  cases h (trimSpace r.origin) with
  | idle hS =>
    rw [hS] at hstoring
    exact absurd hstoring (Multiset.notMem_zero _)
  | half hS hle hseq hnum =>
    rw [hS] at hstoring
    cases Multiset.mem_singleton.mp hstoring
    refine ⟨hseq, mem_numbers.mp ?_⟩
    rw [hnum, List.mem_range'_1]
    omega

theorem AllCounted.last_le (h : AllCounted n₀ p) (hs : Defs.step p a = some p') (o : String) :
    p.shared.last o ≤ p'.shared.last o := by
  cases step_cases hs with
  | quiet hsame => rw [hsame]; exact le_rfl
  | accept _ _ hshared => rw [hshared]; exact le_rfl
  | @store t hd r _ hshared hhalf =>
    obtain ⟨hseq, -⟩ := h.half (by rw [hhalf]; exact Multiset.mem_cons_self _ _)
    rw [hshared, last_store]
    split_ifs with heq
    · rw [heq]
      omega
    · exact le_rfl
  | build _ _ hshared =>
    rw [hshared, last_advance]
    split_ifs with heq
    · rw [heq, Node.nextSeq]
      omega
    · exact le_rfl
  | keep _ _ hshared => rw [hshared]; exact le_rfl
  | drop _ _ hshared => rw [hshared]

theorem allCounted_start (n₀ : Node) : AllCounted n₀ ⟨{ n₀ with taken := [] }, [[]]⟩ := by
  intro o
  refine .idle rfl le_rfl ?_
  show [] = List.range' _ (n₀.last o - n₀.last o)
  rw [Nat.sub_self]
  rfl

theorem allCounted_reach (h : (gossip n₀).Reach (fun p a => alone p a = true) p) : AllCounted n₀ p :=
  h.invariant (fun _ hp => hp ▸ allCounted_start n₀) fun _ _ _ halone hs hc => hc.step halone hs

/-- A rumor of the origin from the network is half done, and another one is accepted: it
has been accepted before. -/
theorem AllCounted.twice (h : AllCounted n₀ p) (hexp : p.shared.expects r = some m)
    (hbusy : busy p (trimSpace r.origin) = true) : (trimSpace r.origin, r.sequence) ∈ p.shared.taken := by
  obtain ⟨w, hw, hstoring⟩ := List.any_eq_true.mp hbusy
  cases w with
  | store hd r' =>
    have horigin : trimSpace r'.origin = trimSpace r.origin := by simpa [storing] using hstoring
    have hthose : Work.store hd r' ∈ p.those halfDone := mem_those.mpr ⟨Multiset.mem_coe.mpr hw, rfl⟩
    obtain ⟨hseq, hmem⟩ := h.half hthose
    obtain ⟨-, -, -, hnext⟩ := expects_spec hexp
    rw [horigin] at hseq hmem
    rwa [hnext, ← hseq]
  | _ => cases hstoring

/-- **Once and in order.** As long as no rumor is accepted or made while one of its origin is half
done, the rumors of each origin are taken once each and in order, and the last number never decreases.
If a rumor is accepted, the order is kept exactly if no rumor of its origin is half done. -/
theorem taken_in_order {n₀ : Node} (h : (gossip n₀).Reach (fun p a => alone p a = true) p) :
    InOrder n₀ p.shared ∧ (∀ a p', step p a = some p' → ∀ o, p.shared.last o ≤ p'.shared.last o) ∧
    ∀ t hd r rs p', p.top t = some (.accept hd (r :: rs)) → (p.shared.expects r).isSome →
    step p (.turn t) = some p' →
      (InOrder n₀ p'.shared ↔ busy p (trimSpace r.origin) = false) := by
  have hc := allCounted_reach h
  refine ⟨hc.inOrder, fun a p' hs o => hc.last_le hs o, ?_⟩
  intro t hd r rs p' htop hsome hs
  obtain ⟨m, hexp⟩ := Option.isSome_iff_exists.mp hsome
  constructor
  · intro hin
    by_contra hbusy
    have hmem := hc.twice hexp (Bool.eq_true_of_not_eq_false hbusy)
    have hshared : p'.shared = p.shared.take r := by
      obtain ⟨w, e, others, htop', he, hshared, -⟩ := run_tasks hs
      rw [htop] at htop'
      cases htop'
      rw [exec, hexp] at he
      cases he
      exact hshared
    have hnd := hin.once
    rw [hshared, Node.take, List.nodup_append] at hnd
    exact hnd.2.2 _ hmem _ (List.mem_singleton.mpr rfl) rfl
  · intro hfree
    refine (hc.step ?_ hs).inOrder
    simp [alone, htop, hfree]

/-- A new node. -/
def newNode : Node := ⟨"n", ∅, ∅, ∅, []⟩

/-- A packet to the node from a neighbour. -/
def fromPeer : Header := ⟨"p", "p", "n"⟩

/-- A chat message in a rumor. -/
def chat (origin : String) (sequence : ℕ) : Rumor := ⟨origin, sequence, some (.other "chat")⟩

/-- Two rumors in one message, and the first of them once more. -/
theorem taken_in_order_pair : ∃ p, (gossip newNode).Reach (fun p a => alone p a = true) p ∧
    p.shared.taken = [("a", 1), ("a", 2)] ∧ InOrder newNode p.shared := by
  have hrun : ((gossip newNode).runOn (fun p a => alone p a = true) ⟨newNode, [[]]⟩
      (.packet fromPeer (.rumors [chat "a" 1, chat "a" 2, chat "a" 1]) :: List.replicate 9 (.turn 0))).map
        (fun p => p.shared.taken) = some [("a", 1), ("a", 2)] := by decide +kernel
  obtain ⟨p, hp, htaken⟩ := Option.map_eq_some_iff.mp hrun
  have hreach : (gossip newNode).Reach (fun p a => alone p a = true) p :=
    System.Reach.runOn (.start rfl) hp
  exact ⟨p, hreach, htaken, (taken_in_order hreach).1⟩

/-- A rumor that embeds itself and the next rumor of its origin. -/
theorem nested_rumor : ∃ (n₀ : Node) (p p' : Pool Node Work), (gossip n₀).Reach (fun _ _ => True) p ∧
    step p (.turn 0) = some p' ∧ p'.shared.last "a" < p.shared.last "a" ∧ ¬ InOrder n₀ p.shared := by
  have hrun : ((gossip newNode).run ⟨newNode, [[]]⟩ (.packet fromPeer (.rumors [⟨"a", 1,
      some (.rumors [chat "a" 1, chat "a" 2])⟩]) :: List.replicate 10 (.turn 0))).bind (fun p =>
        (step p (.turn 0)).map fun p' => (p.shared.last "a", p.shared.taken, p'.shared.last "a")) =
      some (2, [("a", 1), ("a", 1), ("a", 2)], 1) := by decide +kernel
  obtain ⟨p, hp, hstep⟩ := Option.bind_eq_some_iff.mp hrun
  obtain ⟨p', hp', hvalues⟩ := Option.map_eq_some_iff.mp hstep
  obtain ⟨hlast, htaken, hlast'⟩ : p.shared.last "a" = 2 ∧
    p.shared.taken = [("a", 1), ("a", 1), ("a", 2)] ∧ p'.shared.last "a" = 1 := by simpa using hvalues
  refine ⟨newNode, p, p', System.Reach.run (.start rfl) (fun _ _ _ => trivial) hp,
    hp', by omega, fun hin => ?_⟩
  have hnd := hin.once
  rw [htaken] at hnd
  exact absurd hnd (by decide)

/-! ### The node's own rumors -/

/-- The stored rumors of the node itself are those with the numbers from 1 up to its last number. -/
def OwnLog (n : Node) : Prop :=
  ∀ s, s ∈ n.stored (trimSpace n.self) ↔ 1 ≤ s ∧ s ≤ n.last (trimSpace n.self)

/-- The message is refused, or it can be marshalled. -/
def sendable (n : Node) (m : Message) : Bool :=
  trimSpace n.self = "" || trimSpace m.type = "" || m.marshals

/-- Only sendable messages are broadcast. -/
def sends (p : Pool Node Work) : Event → Bool
  | .turn t => match p.top t with
    | some (.build m _) => sendable p.shared m
    | _ => true
  | _ => true

/-- A rumor of the node that has got its number and is not yet stored. -/
def keeping : Work → Option ℕ
  | .keep seq _ _ => some seq
  | _ => none

/-- The rumors of the node are stored up to its last number, but for those that are half done. -/
structure OwnRumors (n : Node) (H : Multiset Work) : Prop where
  stored : ∀ s, s ∈ n.stored (trimSpace n.self) ↔ 1 ≤ s ∧ s ≤ n.last (trimSpace n.self) ∧
    s ∉ H.filterMap keeping
  drawn : ∀ s ∈ H.filterMap keeping, 1 ≤ s ∧ s ≤ n.last (trimSpace n.self)
  once : (H.filterMap keeping).Nodup
  sendable : ∀ seq m skip, .keep seq m skip ∈ H → m.marshals = true

variable {n : Node} {H : Multiset Work}

theorem stored_store (n : Node) (h : Header) (r : Rumor) (o : String) : (n.store h r).stored o =
    if o = trimSpace r.origin then (n.stored o).insert r.sequence r else n.stored o := by
  unfold Node.store Node.stored
  rw [lookup_insert_ite]
  split_ifs with ho
  · rw [ho]
    rfl
  · rfl

theorem stored_advance (n : Node) (o : String) : n.advance.stored o = n.stored o := by
  unfold Node.advance Node.stored
  rw [lookup_insert_ite]
  split_ifs with ho
  · rw [ho]
    rfl
  · rfl

theorem stored_keep (n : Node) (seq : ℕ) (m : Message) : (n.keep seq m).stored (trimSpace n.self) =
    (n.stored (trimSpace n.self)).insert seq ⟨trimSpace n.self, seq, some m⟩ := by
  unfold Node.keep Node.stored
  rw [lookup_insert_ite, if_pos rfl]
  rfl

theorem keeping_store (h : Header) (r : Rumor) (H : Multiset Work) :
    (Work.store h r ::ₘ H).filterMap keeping = H.filterMap keeping := Multiset.filterMap_cons_none _ _ rfl

theorem keeping_keep (seq : ℕ) (m : Message) (skip : Bool) (H : Multiset Work) :
    (Work.keep seq m skip ::ₘ H).filterMap keeping = seq ::ₘ H.filterMap keeping :=
  Multiset.filterMap_cons_some _ _ _ rfl

theorem OwnRumors.accept (h : OwnRumors n H) (hd : Header) (r : Rumor) :
    OwnRumors (n.take r) (.store hd r ::ₘ H) := by
  refine ⟨?_, ?_, ?_, fun seq m skip hm => h.sendable seq m skip ?_⟩
  · rw [keeping_store]; exact h.stored
  · rw [keeping_store]; exact h.drawn
  · rw [keeping_store]; exact h.once
  · rcases Multiset.mem_cons.mp hm with he | hm
    · cases he
    · exact hm

/-- An accepted rumor is stored; it may be one of the node itself that comes back. -/
theorem OwnRumors.store {hd : Header} (h : OwnRumors n (.store hd r ::ₘ H))
    (hseq : r.sequence = n.last (trimSpace r.origin) + 1) : OwnRumors (n.store hd r) H := by
  obtain ⟨hstored, hdrawn, honce, hsendable⟩ := h
  rw [keeping_store] at hdrawn honce
  simp only [keeping_store] at hstored
  have hself : (n.store hd r).self = n.self := rfl
  refine ⟨fun s => ?_, fun s hs => ?_, honce,
    fun seq m skip hm => hsendable seq m skip (Multiset.mem_cons_of_mem hm)⟩
  · rw [hself, stored_store, last_store]
    split_ifs with ho
    · rw [Finmap.mem_insert, hstored, ho]
      have hnot : r.sequence ∉ H.filterMap keeping := fun hm => by
        have := (hdrawn _ hm).2
        rw [ho] at this
        omega
      constructor
      · rintro (rfl | hold)
        · exact ⟨by omega, le_rfl, hnot⟩
        · exact ⟨hold.1, by omega, hold.2.2⟩
      · rintro ⟨h1, h2, h3⟩
        by_cases heq : s = r.sequence
        · exact .inl heq
        · exact .inr ⟨h1, by omega, h3⟩
    · exact hstored s
  · have hold := hdrawn s hs
    rw [hself, last_store]
    split_ifs with ho
    · rw [ho] at hold
      exact ⟨hold.1, by omega⟩
    · exact hold

theorem OwnRumors.build (h : OwnRumors n H) (hm : m.marshals = true) (skip : Bool) :
    OwnRumors n.advance (.keep n.nextSeq m skip ::ₘ H) := by
  have hself : n.advance.self = n.self := rfl
  have hlast : n.advance.last (trimSpace n.self) = n.last (trimSpace n.self) + 1 := by
    rw [last_advance, if_pos rfl]
    rfl
  refine ⟨fun s => ?_, fun s hs => ?_, ?_, fun seq m' skip' hm' => ?_⟩
  · rw [hself, keeping_keep, hlast, stored_advance, h.stored, Multiset.mem_cons, Node.nextSeq]
    constructor
    · rintro ⟨h1, h2, h3⟩
      refine ⟨h1, by omega, fun hm => ?_⟩
      rcases hm with hm | hm
      · omega
      · exact h3 hm
    · rintro ⟨h1, h2, h3⟩
      rw [not_or] at h3
      exact ⟨h1, by omega, h3.2⟩
  · rw [keeping_keep, Multiset.mem_cons, Node.nextSeq] at hs
    rw [hself, hlast]
    rcases hs with hs | hs
    · omega
    · have := h.drawn s hs
      omega
  · rw [keeping_keep, Multiset.nodup_cons]
    refine ⟨fun hm => ?_, h.once⟩
    have := h.drawn _ hm
    rw [Node.nextSeq] at this
    omega
  · rcases Multiset.mem_cons.mp hm' with he | hm'
    · cases he
      exact hm
    · exact h.sendable _ _ _ hm'

theorem OwnRumors.keep {seq : ℕ} {skip : Bool} (h : OwnRumors n (.keep seq m skip ::ₘ H)) :
    OwnRumors (n.keep seq m) H := by
  obtain ⟨hstored, hdrawn, honce, hsendable⟩ := h
  rw [keeping_keep] at hdrawn honce
  simp only [keeping_keep, Multiset.mem_cons] at hstored
  rw [Multiset.nodup_cons] at honce
  have hself : (n.keep seq m).self = n.self := rfl
  have hlast : (n.keep seq m).last (trimSpace n.self) = n.last (trimSpace n.self) := rfl
  refine ⟨fun s => ?_, fun s hs => ?_, honce.2,
    fun seq m skip hm => hsendable seq m skip (Multiset.mem_cons_of_mem hm)⟩
  · rw [hself, hlast, stored_keep, Finmap.mem_insert, hstored]
    constructor
    · rintro (rfl | ⟨h1, h2, h3⟩)
      · have hrange := hdrawn s (Multiset.mem_cons_self _ _)
        exact ⟨hrange.1, hrange.2, honce.1⟩
      · rw [not_or] at h3
        exact ⟨h1, h2, h3.2⟩
    · rintro ⟨h1, h2, h3⟩
      by_cases heq : s = seq
      · exact .inl heq
      · exact .inr ⟨h1, h2, fun hm => hm.elim heq h3⟩
  · rw [hself, hlast]
    exact hdrawn s (Multiset.mem_cons_of_mem hs)

/-- **One event.** -/
theorem OwnRumors.step (h : OwnRumors p.shared (p.those halfDone)) (hc : AllCounted n₀ p)
    (hsend : sends p a = true) (hs : step p a = some p') : OwnRumors p'.shared (p'.those halfDone) := by
  cases step_cases hs with
  | quiet hsame hhalf =>
    rw [hhalf, hsame]
    exact ⟨h.stored, h.drawn, h.once, h.sendable⟩
  | accept _ _ hshared hhalf =>
    rw [hhalf, hshared]
    exact h.accept _ _
  | store _ hshared hhalf =>
    obtain ⟨hseq, -⟩ := hc.half (by rw [hhalf]; exact Multiset.mem_cons_self _ _)
    rw [hhalf] at h
    rw [hshared]
    exact h.store hseq
  | build htop hbad hshared hhalf =>
    rw [hhalf, hshared]
    rw [not_or] at hbad
    exact h.build (by simpa [sends, htop, Log.sendable, hbad.1, hbad.2] using hsend) _
  | keep _ _ hshared hhalf =>
    rw [hhalf] at h
    rw [hshared]
    exact h.keep
  | @drop t seq m skip _ hm _ hhalf =>
    have hmem : .keep seq m skip ∈ p.those halfDone := by rw [hhalf]; exact Multiset.mem_cons_self _ _
    rw [h.sendable seq m skip hmem] at hm
    cases hm

/-- No call of `Broadcast` has drawn a number for a rumor it has not stored. -/
def Settled (p : Pool Node Work) : Prop := ∀ seq m skip, .keep seq m skip ∉ p.tasks

theorem buildRumorMessage_run (n : Node) (m : Message) : buildRumorMessage m n =
    if trimSpace n.self = "" then .error (.msg "invalid origin") n
    else if trimSpace m.type = "" then .error (.msg "invalid message: empty type") n
    else if m.marshals then .ok n.nextSeq (n.advance.keep n.nextSeq m)
    else .error (.msg "failed to marshal") n.advance := by
  unfold buildRumorMessage
  rw [get_bind_run]
  split_ifs <;> rfl

/-- A call that has returned keeps the log complete, and changes nothing if it has failed. -/
structure Complete (m : Message) (n : Node) : Prop where
  failed : ∀ e n', buildRumorMessage m n = .error e n' → n'.lastSeq = n.lastSeq ∧ n'.rumors = n.rumors
  log : OwnLog (final (buildRumorMessage m n))

theorem advance_lastSeq_ne (n : Node) : n.advance.lastSeq ≠ n.lastSeq := by
  intro h
  have hlast : n.advance.last (trimSpace n.self) = n.last (trimSpace n.self) := by
    unfold Node.last
    rw [h]
  rw [last_advance, if_pos rfl, Node.nextSeq] at hlast
  omega

theorem ownLog_kept {n : Node} (h : OwnLog n) (m : Message) : OwnLog (n.advance.keep n.nextSeq m) := by
  intro s
  have hself : (n.advance.keep n.nextSeq m).self = n.self := rfl
  have hlast : (n.advance.keep n.nextSeq m).last (trimSpace n.self) = n.last (trimSpace n.self) + 1 := by
    show n.advance.last (trimSpace n.self) = _
    rw [last_advance, if_pos rfl]
    rfl
  have hstored : (n.advance.keep n.nextSeq m).stored (trimSpace n.self) =
      (n.stored (trimSpace n.self)).insert n.nextSeq ⟨trimSpace n.self, n.nextSeq, some m⟩ := by
    rw [← stored_advance n]
    exact stored_keep n.advance n.nextSeq m
  rw [hself, hlast, hstored, Finmap.mem_insert, h s, Node.nextSeq]
  omega

/-- **One call.** A call that runs without interruption keeps the log complete exactly if
the message is sendable. -/
theorem complete_iff {n : Node} (h : OwnLog n) (m : Message) : Complete m n ↔ sendable n m = true := by
  have hrun := buildRumorMessage_run n m
  unfold sendable
  by_cases hself : trimSpace n.self = ""
  · rw [if_pos hself] at hrun
    simp only [hself, decide_true, Bool.true_or, iff_true]
    refine ⟨fun e n' he => ?_, by rw [hrun]; exact h⟩
    rw [hrun] at he
    cases he
    exact ⟨rfl, rfl⟩
  rw [if_neg hself] at hrun
  by_cases htype : trimSpace m.type = ""
  · rw [if_pos htype] at hrun
    simp only [htype, decide_true, Bool.or_true, Bool.true_or, iff_true]
    refine ⟨fun e n' he => ?_, by rw [hrun]; exact h⟩
    rw [hrun] at he
    cases he
    exact ⟨rfl, rfl⟩
  rw [if_neg htype] at hrun
  simp only [hself, htype, decide_false, Bool.false_or]
  constructor
  · intro hcomplete
    by_contra hm
    rw [if_neg hm] at hrun
    exact advance_lastSeq_ne n (hcomplete.failed _ _ hrun).1
  · intro hm
    rw [if_pos hm] at hrun
    refine ⟨fun e n' he => ?_, by rw [hrun]; exact ownLog_kept h m⟩
    rw [hrun] at he
    cases he

theorem ownRumors_reach (h₀ : OwnLog n₀)
    (h : (gossip n₀).Reach (fun p a => alone p a = true ∧ sends p a = true) p) :
    AllCounted n₀ p ∧ OwnRumors p.shared (p.those halfDone) := by
  refine h.invariant (I := fun p => AllCounted n₀ p ∧ OwnRumors p.shared (p.those halfDone)) ?_ ?_
  · rintro _ rfl
    refine ⟨allCounted_start n₀, ?_, ?_, ?_, ?_⟩
    · intro s
      have hs : s ∈ n₀.stored (trimSpace n₀.self) ↔ _ := h₀ s
      have hnone : ¬ s ∈ (0 : Multiset ℕ) := Multiset.notMem_zero s
      exact hs.trans ⟨fun h => ⟨h.1, h.2, hnone⟩, fun h => ⟨h.1, h.2.1⟩⟩
    · simp [Pool.those, Pool.tasks]
    · simp [Pool.those, Pool.tasks]
    · simp [Pool.those, Pool.tasks]
  · rintro p a p' ⟨halone, hsends⟩ hs ⟨hc, ho⟩
    exact ⟨hc.step halone hs, ho.step hc hsends hs⟩

/-- **The node can supply its own rumors.** In a run in which only sendable messages are broadcast,
and no rumor is accepted or made while one of its origin is half done, the log of the node is
complete whenever no call of `Broadcast` is under way. A single call keeps it complete exactly if
its message is sendable. -/
theorem own_log {n₀ : Node} (h₀ : OwnLog n₀) :
    (∀ p, (gossip n₀).Reach (fun p a => alone p a = true ∧ sends p a = true) p → Settled p →
    OwnLog p.shared) ∧ ∀ m, Complete m n₀ ↔ sendable n₀ m = true := by
  refine ⟨fun p h hsettled => ?_, complete_iff h₀⟩
  obtain ⟨-, ho⟩ := ownRumors_reach h₀ h
  have hnone : (p.those halfDone).filterMap keeping = 0 := by
    refine Multiset.eq_zero_of_forall_notMem fun s hs => ?_
    obtain ⟨w, hw, hkeep⟩ := (Multiset.mem_filterMap _ _).mp hs
    cases w with
    | keep seq m skip => exact hsettled seq m skip (mem_those.mp hw).1
    | _ => cases hkeep
  intro s
  rw [ho.stored, hnone]
  simp

theorem ownLog_newNode : OwnLog newNode := by
  intro s
  show s ∈ (∅ : Map ℕ Rumor) ↔ 1 ≤ s ∧ s ≤ 0
  simp only [Finmap.notMem_empty, false_iff]
  omega

theorem settled_of_keeping (h : p.threads.flatten.filterMap keeping = []) : Settled p := by
  intro seq m skip hmem
  cases List.filterMap_eq_nil_iff.mp h _ (Multiset.mem_coe.mp hmem)

/-- A new node broadcasts two messages. -/
theorem own_log_two : ∃ p, (gossip newNode).Reach (fun p a => alone p a = true ∧ sends p a = true) p ∧
    p.shared.last "n" = 2 ∧ OwnLog p.shared ∧ Complete (.other "chat") newNode := by
  have hrun : ((gossip newNode).runOn (fun p a => alone p a = true ∧ sends p a = true) ⟨newNode, [[]]⟩
      [.broadcast (.other "chat") false, .broadcast (.other "chat") false, .turn 1, .turn 2,
      .turn 2, .turn 1, .turn 1, .turn 2]).map
      (fun p => (p.shared.last "n", p.threads.flatten.filterMap keeping)) = some (2, []) := by
      decide +kernel
  obtain ⟨p, hp, hvalues⟩ := Option.map_eq_some_iff.mp hrun
  obtain ⟨hlast, hkeep⟩ := Prod.mk.inj hvalues
  have hreach : (gossip newNode).Reach (fun p a => alone p a = true ∧ sends p a = true) p :=
    System.Reach.runOn (.start rfl) hp
  obtain ⟨hlog, hone⟩ := own_log ownLog_newNode
  exact ⟨p, hreach, hlast, hlog p hreach (settled_of_keeping hkeep), (hone _).mpr rfl⟩

/-- A message whose payload is not JSON is broadcast: the call fails, and the number 1 is used up. -/
theorem gap_in_own_log : ∃ p, OwnLog newNode ∧ (gossip newNode).run ⟨newNode, [[]]⟩
    [.broadcast (.invalid "chat") false, .turn 1, .turn 1] = some p ∧ Settled p ∧ p.shared.last "n" = 1 ∧
    ¬ OwnLog p.shared := by
  have hrun : ((gossip newNode).run ⟨newNode, [[]]⟩ [.broadcast (.invalid "chat") false,
    .turn 1, .turn 1]).map (fun p => (p.shared.last "n", p.shared.self,
    (p.shared.stored "n").lookup 1 |>.isSome, p.threads.flatten.filterMap keeping)) =
    some (1, "n", false, []) := by decide +kernel
  obtain ⟨p, hp, hvalues⟩ := Option.map_eq_some_iff.mp hrun
  simp only [Prod.mk.injEq] at hvalues
  obtain ⟨hlast, hself, hstored, hkeep⟩ := hvalues
  refine ⟨p, ownLog_newNode, hp, settled_of_keeping hkeep, hlast, fun hlog => ?_⟩
  have hname : trimSpace p.shared.self = "n" := by
    rw [hself]
    decide +kernel
  have hone := hlog 1
  rw [hname, hlast, ← Finmap.lookup_isSome, hstored] at hone
  exact absurd (hone.mpr ⟨le_rfl, le_rfl⟩) Bool.false_ne_true

end Namecoin.Gossip.Log
