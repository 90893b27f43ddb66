import Mathlib.Data.String.Basic
import Namecoin.Gossip.Log

/-! # Catching up

A node sends another one the rumors that it misses in one message, sorted by origin. The receiver takes
a rumor only if it is the next one of its origin, so the order among the rumors of one origin matters,
and `RumorByOrigin` does not look at it.

* `last_accept`: what a batch of rumors does to the last number of an origin depends on the numbers of
  that origin in the batch, in the order of the batch;
* `wellFiled_reach`: rumors are stored under their origin and number, whatever happens;
* `catchUp_iff`: every message that may be sent brings the receiver up to date exactly if the order of
  the origins puts the missing rumors in the order of their numbers; if origins are stored without
  blanks around them, this says that no origin has more than one missing rumor (`increasing_iff`);
* `solo_process`: the handlers of `Defs` are what the listen loop does if it is left alone. -/

namespace Namecoin.Gossip.CatchUp

open Lib.Maps Lib.Systems Lib.Threads State.Commands Gossip.Defs Gossip.Log

/-! ### Numbers in some order -/

/-- The last number after the given numbers, of which only the next one is taken each time. -/
def climb (last : ℕ) (numbers : List ℕ) : ℕ := numbers.foldl (fun l s => if l + 1 = s then s else l) last

theorem climb_cons (last s : ℕ) (numbers : List ℕ) :
    climb last (s :: numbers) = climb (if last + 1 = s then s else last) numbers := rfl

theorem climb_append (last : ℕ) (a b : List ℕ) : climb last (a ++ b) = climb (climb last a) b :=
  List.foldl_append

theorem climb_range' : ∀ (k last : ℕ), climb last (List.range' (last + 1) k) = last + k
  | 0, _ => rfl
  | k + 1, last => by
    rw [List.range'_succ, climb_cons, if_pos rfl, climb_range' k (last + 1)]
    omega

theorem climb_lt {s : ℕ} : ∀ {numbers : List ℕ} {last : ℕ}, s ∉ numbers → last < s →
    climb last numbers < s
  | [], _, _, hlt => hlt
  | t :: numbers, last, hs, hlt => by
    rw [List.mem_cons, not_or] at hs
    rw [climb_cons]
    refine climb_lt hs.2 ?_
    split_ifs with ht
    · omega
    · exact hlt

theorem climb_stuck {s last : ℕ} {numbers : List ℕ} (hnd : numbers.Nodup) (hlt : last < s)
    (hswap : [s + 1, s].Sublist numbers) : climb last numbers < s + 1 := by
  obtain ⟨a, b, rfl, hfirst, hsecond⟩ := List.cons_sublist_iff.mp hswap
  have hmem : s ∈ b := List.singleton_sublist.mp hsecond
  obtain ⟨-, -, hdisj⟩ := List.nodup_append.mp hnd
  have ha : s ∉ a := fun h => hdisj s h s hmem rfl
  have hb : s + 1 ∉ b := fun h => hdisj (s + 1) hfirst (s + 1) h rfl
  have hbelow : climb last a < s := climb_lt ha hlt
  rw [climb_append]
  exact climb_lt hb (by omega)

/-! ### A batch of rumors -/

variable {A B : Node}
variable {o : String} {n : Node} {r : Rumor}

/-- A state of `B` on the way to the last numbers of `A`. -/
def Between (A B n : Node) : Prop := ∀ o, B.last o ≤ n.last o ∧ n.last o ≤ max (A.last o) (B.last o)

/-- The message leaves the last numbers of `B` as they are, in every state on the way. -/
def Inert (A B : Node) (m : Message) : Prop := ∀ n h, Between A B n → (process n h m).lastSeq = n.lastSeq

/-- A rumor with all its fields that `B` misses and `A` has, and whose message is inert. -/
structure Proper (A B : Node) (r : Rumor) : Prop where
  origin : trimSpace r.origin ≠ ""
  above : B.last (trimSpace r.origin) < r.sequence
  upTo : r.sequence ≤ A.last (trimSpace r.origin)
  msg : ∃ m, r.msg = some m ∧ m.type ≠ "" ∧ Inert A B m

/-- The numbers of an origin in a batch. -/
def seqsOf (o : String) (rs : List Rumor) : List ℕ :=
  (rs.filter fun r => trimSpace r.origin = o).map (·.sequence)

theorem seqsOf_cons (o : String) (r : Rumor) (rs : List Rumor) :
    seqsOf o (r :: rs) = if trimSpace r.origin = o then r.sequence :: seqsOf o rs else seqsOf o rs := by
  unfold seqsOf
  rw [List.filter_cons]
  split_ifs with h₁ h₂ h₂
  · rfl
  · exact absurd (of_decide_eq_true h₁) h₂
  · exact absurd (decide_eq_true h₂) h₁
  · rfl

theorem last_processRumor (hn : Between A B n) (h : Header) (hr : Proper A B r) (o : String) :
    (processRumorIfExpected n h r).last o =
      if trimSpace r.origin = o ∧ n.last o + 1 = r.sequence then r.sequence else n.last o := by
  obtain ⟨origin, sequence, msg⟩ := r
  obtain ⟨m, hmsg, htype, hinert⟩ := hr.msg
  have hmsg' : msg = some m := hmsg
  subst hmsg'
  have horigin : trimSpace origin ≠ "" := hr.origin
  have hseq : sequence ≠ 0 := Nat.ne_of_gt (Nat.zero_lt_of_lt hr.above)
  have hexp : (n.expects ⟨origin, sequence, some m⟩).isSome = true ↔
      n.last (trimSpace origin) + 1 = sequence := by
    unfold Node.expects
    rw [if_neg (by simp [horigin, hseq])]
    dsimp only
    by_cases heq : n.last (trimSpace origin) + 1 = sequence
    · rw [if_neg (by simp [htype, heq])]
      simp [heq]
    · rw [if_pos (.inr heq)]
      simp [heq]
  have hlast : ∀ r' hd, (process (n.take r') hd m).last o = n.last o := fun r' hd => by
    unfold Node.last
    rw [hinert _ hd (show Between A B (n.take r') from hn)]
    rfl
  rw [processRumorIfExpected, processMsg]
  dsimp only
  by_cases heq : n.last (trimSpace origin) + 1 = sequence
  · rw [if_pos (hexp.mpr heq), last_store]
    dsimp only
    by_cases ho : trimSpace origin = o
    · subst ho
      rw [if_pos rfl, if_pos ⟨rfl, heq⟩]
    · rw [if_neg (fun h => ho h.symm), if_neg (fun h => ho h.1), hlast]
  · rw [if_neg fun h => heq (hexp.mp h), if_neg]
    rintro ⟨rfl, h⟩
    exact heq h

theorem Between.processRumor (hn : Between A B n) (h : Header) (hr : Proper A B r) :
    Between A B (processRumorIfExpected n h r) := by
  intro o
  rw [last_processRumor hn h hr o]
  split_ifs with hnext
  · obtain ⟨rfl, -⟩ := hnext
    exact ⟨hr.above.le, le_max_of_le_left hr.upTo⟩
  · exact hn o

/-- **What a batch does** to the last number of an origin. -/
theorem last_accept (h : Header) (o : String) : ∀ {rs : List Rumor} {n : Node}, Between A B n →
    (∀ r ∈ rs, Proper A B r) → (acceptExpectedRumors n h rs).last o = climb (n.last o) (seqsOf o rs)
  | [], n, _, _ => by
    rw [acceptExpectedRumors]
    rfl
  | r :: rs, n, hn, hrs => by
    have hr := hrs r List.mem_cons_self
    rw [acceptExpectedRumors, last_accept h o (hn.processRumor h hr) fun r hr =>
      hrs r (List.mem_cons_of_mem _ hr), last_processRumor hn h hr, seqsOf_cons]
    by_cases ho : trimSpace r.origin = o
    · rw [if_pos ho, climb_cons]
      simp only [ho, true_and]
    · rw [if_neg ho, if_neg fun h => ho h.1]

/-! ### The log -/

/-- The rumor is stored under its origin and its number, with a message. -/
structure Filed (o : String) (s : ℕ) (r : Rumor) : Prop where
  origin : trimSpace r.origin = o
  sequence : r.sequence = s
  msg : ∃ m, r.msg = some m ∧ m.type ≠ ""

/-- Origins are stored without blanks around them, and every rumor in its place. -/
structure WellFiled (n : Node) : Prop where
  keys : ∀ o ∈ n.lastSeq, trimSpace o = o ∧ o ≠ ""
  filed : ∀ o s r, (n.stored o).lookup s = some r → Filed o s r

/-- The log of a node holds the rumors of each origin up to its last number. -/
structure GapFree (n : Node) : Prop where
  wellFiled : WellFiled n
  full : ∀ o s, 1 ≤ s → s ≤ n.last o → s ∈ n.stored o

theorem trimSpace_trimSpace (s : String) : trimSpace (trimSpace s) = trimSpace s := by
  unfold trimSpace
  rw [String.toList_ofList]
  refine congrArg String.ofList ?_
  have hfirst : ((s.toList.dropWhile isSpace).rdropWhile isSpace).dropWhile isSpace =
      (s.toList.dropWhile isSpace).rdropWhile isSpace := by
    refine List.dropWhile_eq_self_iff.mpr fun hl => ?_
    have hpre := List.rdropWhile_prefix isSpace (s.toList.dropWhile isSpace)
    rw [hpre.getElem hl]
    exact List.dropWhile_eq_self_iff.mp (List.dropWhile_idempotent isSpace s.toList) _
  rw [hfirst]
  exact List.rdropWhile_idempotent _ _

/-- The rumors that are half done can be filed. -/
def canBeFiled (n : Node) : Work → Prop
  | .store _ r => trimSpace r.origin ≠ "" ∧ ∃ m, r.msg = some m ∧ m.type ≠ ""
  | .keep _ m _ => trimSpace n.self ≠ "" ∧ m.type ≠ ""
  | _ => True

theorem WellFiled.store (hn : WellFiled n) {h : Header} (horigin : trimSpace r.origin ≠ "")
    (hmsg : ∃ m, r.msg = some m ∧ m.type ≠ "") : WellFiled (n.store h r) := by
  constructor
  · intro o ho
    rcases Finmap.mem_insert.mp ho with rfl | ho
    · exact ⟨trimSpace_trimSpace _, horigin⟩
    · exact hn.keys o ho
  · intro o s r' hr'
    rw [stored_store] at hr'
    split_ifs at hr' with ho
    · rw [lookup_insert_ite] at hr'
      split_ifs at hr' with hs
      · cases hr'
        exact ⟨ho.symm, hs.symm, hmsg⟩
      · exact hn.filed o s r' hr'
    · exact hn.filed o s r' hr'

theorem WellFiled.advance (hn : WellFiled n) (hself : trimSpace n.self ≠ "") : WellFiled n.advance := by
  constructor
  · intro o ho
    rcases Finmap.mem_insert.mp ho with rfl | ho
    · exact ⟨trimSpace_trimSpace _, hself⟩
    · exact hn.keys o ho
  · intro o s r hr
    rw [stored_advance] at hr
    exact hn.filed o s r hr

theorem WellFiled.keep (hn : WellFiled n) {seq : ℕ} {m : Message} (htype : m.type ≠ "") :
    WellFiled (n.keep seq m) := by
  refine ⟨hn.keys, fun o s r hr => ?_⟩
  unfold Node.keep Node.stored at hr
  rw [lookup_insert_ite] at hr
  split_ifs at hr with ho
  · rw [Option.getD_some, lookup_insert_ite] at hr
    split_ifs at hr with hs
    · cases hr
      exact ⟨by rw [trimSpace_trimSpace, ho], hs.symm, m, rfl, htype⟩
    · exact hn.filed o s r (by rw [ho]; exact hr)
  · exact hn.filed o s r hr

/-- **Every rumor is stored in its place**, whatever happens. -/
theorem wellFiled_reach {n₀ : Node} (h₀ : WellFiled n₀) {p : Pool Node Work}
    (h : (gossip n₀).Reach (fun _ _ => True) p) : WellFiled p.shared := by
  refine (h.invariant (I := fun p => WellFiled p.shared ∧
    ∀ w ∈ p.those halfDone, canBeFiled p.shared w) ?_ ?_).1
  · rintro _ rfl
    refine ⟨⟨h₀.keys, h₀.filed⟩, fun w hw => ?_⟩
    exact absurd (mem_those.mp hw).1 (Multiset.notMem_zero w)
  · rintro p a p' - hs ⟨hn, hhalf⟩
    cases step_cases hs with
    | quiet hsame hsame' =>
      rw [hsame', hsame]
      refine ⟨⟨hn.keys, hn.filed⟩, fun w hw => ?_⟩
      have := hhalf w hw
      cases w <;> exact this
    | accept _ hexp hshared hcons =>
      obtain ⟨hmsg, htype, horigin, -⟩ := expects_spec hexp
      rw [hcons, hshared]
      refine ⟨⟨hn.keys, hn.filed⟩, fun w hw => ?_⟩
      rcases Multiset.mem_cons.mp hw with rfl | hw
      · exact ⟨horigin, _, hmsg, htype⟩
      · have := hhalf w hw
        cases w <;> exact this
    | store _ hshared hcons =>
      rw [hcons] at hhalf
      obtain ⟨horigin, hmsg⟩ := hhalf _ (Multiset.mem_cons_self _ _)
      rw [hshared]
      refine ⟨hn.store horigin hmsg, fun w hw => ?_⟩
      have := hhalf w (Multiset.mem_cons_of_mem hw)
      cases w <;> exact this
    | build _ hbad hshared hcons =>
      rw [not_or] at hbad
      rw [hcons, hshared]
      refine ⟨hn.advance hbad.1, fun w hw => ?_⟩
      rcases Multiset.mem_cons.mp hw with rfl | hw
      · refine ⟨hbad.1, fun htype => hbad.2 ?_⟩
        rw [htype]
        rfl
      · have := hhalf w hw
        cases w <;> exact this
    | keep _ _ hshared hcons =>
      rw [hcons] at hhalf
      obtain ⟨-, htype⟩ := hhalf _ (Multiset.mem_cons_self _ _)
      rw [hshared]
      refine ⟨hn.keep htype, fun w hw => ?_⟩
      have := hhalf w (Multiset.mem_cons_of_mem hw)
      cases w <;> exact this
    | drop _ _ hshared hcons =>
      rw [hcons] at hhalf
      rw [hshared]
      exact ⟨hn, fun w hw => hhalf w (Multiset.mem_cons_of_mem hw)⟩

/-- A rumor is taken. -/
theorem wellFiled_taken : ∃ p, (gossip newNode).Reach (fun _ _ => True) p ∧ p.shared.taken = [("a", 1)] ∧
    WellFiled p.shared := by
  have hrun : ((gossip newNode).run ⟨newNode, [[]]⟩
      (.packet fromPeer (.rumors [chat "a" 1]) :: List.replicate 4 (.turn 0))).map
      (fun p => p.shared.taken) = some [("a", 1)] := by decide +kernel
  obtain ⟨p, hp, htaken⟩ := Option.map_eq_some_iff.mp hrun
  have hreach := System.Reach.run (.start rfl) (fun _ _ _ => trivial) hp
  have hnew : WellFiled newNode := ⟨fun _ h => absurd h Finmap.notMem_empty, fun _ _ _ h => by cases h⟩
  exact ⟨p, hreach, htaken, wellFiled_reach hnew hreach⟩

/-! ### The rumors that are sent -/

/-- The node `B` misses the rumor with the number `s` of the origin `o`, which `A` has. -/
structure Misses (A B : Node) (o : String) (s : ℕ) (r : Rumor) : Prop where
  above : B.last o < s
  upTo : s ≤ A.last o
  stored : (A.stored o).lookup s = some r

theorem GapFree.filed (hA : GapFree A) {s : ℕ} (h : Misses A B o s r) : Filed o s r :=
  hA.wellFiled.filed o s r h.stored

theorem GapFree.misses (hA : GapFree A) {s : ℕ} (habove : B.last o < s) (hupTo : s ≤ A.last o) :
    ∃ r, Misses A B o s r := by
  obtain ⟨r, hr⟩ := Finmap.mem_iff.mp (hA.full o s (by omega) hupTo)
  exact ⟨r, habove, hupTo, hr⟩

theorem last_of_notMem (h : o ∉ n.lastSeq) : n.last o = 0 := by
  unfold Node.last
  rw [Finmap.lookup_eq_none.mpr h]
  rfl

theorem Misses.mem {s : ℕ} (h : Misses A B o s r) : o ∈ A.lastSeq := by
  by_contra hno
  have hzero := last_of_notMem hno
  have habove := h.above
  have hupTo := h.upTo
  omega

theorem map_filterMap {f : ℕ → Option Rumor} {p : Rumor → Bool} : ∀ {l : List ℕ},
    (∀ s ∈ l, ∃ r, f s = some r ∧ p r = true ∧ r.sequence = s) →
    ((l.filterMap f).filter p).map (·.sequence) = l
  | [], _ => rfl
  | s :: l, h => by
    obtain ⟨r, hf, hp, hseq⟩ := h s List.mem_cons_self
    rw [List.filterMap_cons_some hf, List.filter_cons_of_pos hp, List.map_cons, hseq,
      map_filterMap fun s hs => h s (List.mem_cons_of_mem _ hs)]

theorem collect_origin (hA : GapFree A) (ho : o ∈ A.lastSeq) :
    (collectMissingForOrigin A o (A.last o) (B.last o)).map (·.sequence) =
        List.range' (B.last o + 1) (A.last o - B.last o) ∧
      ∀ r, r ∈ collectMissingForOrigin A o (A.last o) (B.last o) ↔ ∃ s, Misses A B o s r := by
  obtain ⟨htrim, hne⟩ := hA.wellFiled.keys o ho
  unfold collectMissingForOrigin
  dsimp only
  rw [htrim]
  by_cases hle : A.last o ≤ B.last o
  · rw [if_pos (.inr hle), Nat.sub_eq_zero_of_le hle]
    refine ⟨rfl, fun r => ?_⟩
    simp only [List.not_mem_nil, false_iff]
    rintro ⟨s, hs⟩
    have h₁ := hs.above
    have h₂ := hs.upTo
    omega
  · rw [if_neg (by rw [not_or]; exact ⟨hne, hle⟩)]
    have hok : ∀ {s : ℕ} {r : Rumor}, Misses A B o s r → r.origin ≠ "" ∧ r.sequence ≠ 0 ∧
        r.msg.isSome = true := by
      intro s r hs
      have hfiled := hA.filed hs
      refine ⟨fun h => hne ?_, ?_, ?_⟩
      · rw [← hfiled.origin, h]
        rfl
      · rw [hfiled.sequence]
        have := hs.above
        omega
      · obtain ⟨m, hm, -⟩ := hfiled.msg
        rw [hm]
        rfl
    constructor
    · refine map_filterMap fun s hs => ?_
      rw [List.mem_range'_1] at hs
      obtain ⟨r, hr⟩ := hA.misses (B := B) (o := o) (s := s) (by omega) (by omega)
      exact ⟨r, hr.stored, decide_eq_true (hok hr), (hA.filed hr).sequence⟩
    · intro r
      simp only [List.mem_filter, List.mem_filterMap, List.mem_range'_1, decide_eq_true_eq]
      constructor
      · rintro ⟨⟨s, hs, hr⟩, -⟩
        exact ⟨s, by omega, by omega, hr⟩
      · rintro ⟨s, hs⟩
        have h₁ := hs.above
        have h₂ := hs.upTo
        exact ⟨⟨s, by omega, hs.stored⟩, hok hs⟩

theorem seqsOf_append (o : String) (a b : List Rumor) : seqsOf o (a ++ b) = seqsOf o a ++ seqsOf o b := by
  unfold seqsOf
  rw [List.filter_append, List.map_append]

theorem seqsOf_flatMap {chunk : String → List Rumor} (o : String) :
    ∀ {origins : List String}, origins.Nodup →
    (∀ o' ∈ origins, ∀ r ∈ chunk o', trimSpace r.origin = o') →
    seqsOf o (origins.flatMap chunk) = if o ∈ origins then (chunk o).map (·.sequence) else []
  | [], _, _ => rfl
  | o' :: origins, hnd, h => by
    rw [List.nodup_cons] at hnd
    have hrest := seqsOf_flatMap o hnd.2 fun o₁ ho₁ => h o₁ (List.mem_cons_of_mem _ ho₁)
    have hhead := h o' List.mem_cons_self
    rw [List.flatMap_cons, seqsOf_append, hrest]
    unfold seqsOf
    by_cases heq : o = o'
    · subst heq
      rw [List.filter_eq_self.mpr fun r hr => decide_eq_true (hhead r hr), if_neg hnd.1,
        if_pos List.mem_cons_self, List.append_nil]
    · have hnone : ((chunk o').filter fun r => trimSpace r.origin = o) = [] := by
        refine List.filter_eq_nil_iff.mpr fun r hr => ?_
        rw [decide_eq_true_eq, hhead r hr]
        exact fun h => heq h.symm
      simp only [hnone, List.map_nil, List.nil_append, List.mem_cons, heq, false_or]

/-- **What is sent**: the missing rumors, and of each origin every missing number once. -/
theorem sent_spec (hA : GapFree A) {rs : List Rumor} (h : Sends A B.lastSeq rs) :
    (∀ r, r ∈ rs ↔ ∃ o s, Misses A B o s r) ∧
      ∀ o, (seqsOf o rs).Perm (List.range' (B.last o + 1) (A.last o - B.last o)) := by
  obtain ⟨origins, hnd, hkeys, hperm⟩ := h.perm
  constructor
  · intro r
    rw [hperm.mem_iff, collectMissingRumors, List.mem_flatMap]
    constructor
    · rintro ⟨o, ho, hr⟩
      obtain ⟨s, hs⟩ := ((collect_origin hA ((hkeys o).mp ho)).2 r).mp hr
      exact ⟨o, s, hs⟩
    · rintro ⟨o, s, hs⟩
      exact ⟨o, (hkeys o).mpr hs.mem, ((collect_origin hA hs.mem).2 r).mpr ⟨s, hs⟩⟩
  · intro o
    have hseqs : seqsOf o (collectMissingRumors A B.lastSeq origins) =
        List.range' (B.last o + 1) (A.last o - B.last o) := by
      rw [collectMissingRumors, seqsOf_flatMap o hnd]
      · split_ifs with ho
        · exact (collect_origin hA ((hkeys o).mp ho)).1
        · rw [last_of_notMem fun h => ho ((hkeys o).mpr h), Nat.zero_sub]
          rfl
      · intro o' ho' r hr
        obtain ⟨s, hs⟩ := ((collect_origin hA ((hkeys o').mp ho')).2 r).mp hr
        exact (hA.filed hs).origin
    rw [← hseqs]
    exact (hperm.filter _).map _

/-! ### One message closes the gap -/

/-- Every message that `A` may send for the status of `B` brings `B` up to date. -/
def CatchesUp (A B : Node) (h : Header) : Prop :=
  ∀ rs, Sends A B.lastSeq rs → ∀ o, (process B h (.rumors rs)).last o = max (A.last o) (B.last o)

/-- The messages of the missing rumors are inert. -/
def InertGap (A B : Node) : Prop := ∀ o s r m, Misses A B o s r → r.msg = some m → Inert A B m

/-- The order of the origins, as they are written in the rumors, is the order of the numbers. -/
def Increasing (A B : Node) : Prop :=
  ∀ o s r r', Misses A B o s r → Misses A B o (s + 1) r' → r.origin < r'.origin

theorem Increasing.lt (hA : GapFree A) (hinc : Increasing A B) {s : ℕ}
    (h : Misses A B o s r) : ∀ {k : ℕ} {r' : Rumor}, Misses A B o (s + 1 + k) r' → r.origin < r'.origin
  | 0, r', h' => hinc o s r r' h h'
  | k + 1, r', h' => by
    have h₁ := h.above
    have h₂ := h'.upTo
    obtain ⟨r₁, hmid⟩ := hA.misses (B := B) (o := o) (s := s + 1 + k) (by omega) (by omega)
    exact (Increasing.lt hA hinc h hmid).trans (hinc o _ r₁ r' hmid h')

theorem sent_proper (hA : GapFree A) (hgap : InertGap A B) {rs : List Rumor} (h : Sends A B.lastSeq rs) :
    ∀ r ∈ rs, Proper A B r := by
  intro r hr
  obtain ⟨o, s, hs⟩ := ((sent_spec hA h).1 r).mp hr
  obtain ⟨rfl, rfl, m, hm, htype⟩ := hA.filed hs
  exact ⟨(hA.wellFiled.keys _ hs.mem).2, hs.above, hs.upTo, m, hm, htype, hgap _ _ r m hs hm⟩

theorem last_sent (hA : GapFree A) (hgap : InertGap A B) {rs : List Rumor}
    (h : Sends A B.lastSeq rs) (hd : Header) (o : String) :
    (process B hd (.rumors rs)).last o = climb (B.last o) (seqsOf o rs) := by
  rw [process]
  exact last_accept hd o (fun o => ⟨le_rfl, le_max_right _ _⟩) (sent_proper hA hgap h)

theorem seqsOf_sent (hA : GapFree A) (hinc : Increasing A B) {rs : List Rumor}
    (h : Sends A B.lastSeq rs) (o : String) :
    seqsOf o rs = List.range' (B.last o + 1) (A.last o - B.last o) := by
  obtain ⟨hmem, hperm⟩ := sent_spec hA h
  have hmissed : ∀ {r : Rumor}, r ∈ rs.filter (fun r => trimSpace r.origin = o) →
      Misses A B o r.sequence r := by
    intro r hr
    obtain ⟨hr, htrim⟩ := List.mem_filter.mp hr
    obtain ⟨o', s, hs⟩ := (hmem r).mp hr
    have hfiled := hA.filed hs
    rw [decide_eq_true_eq, hfiled.origin] at htrim
    rw [hfiled.sequence, ← htrim]
    exact hs
  have hnd : (seqsOf o rs).Nodup := (hperm o).nodup_iff.mpr List.nodup_range'
  have hsorted : (seqsOf o rs).Pairwise (· < ·) := by
    refine List.pairwise_map.mpr ?_
    refine ((h.sorted.filter _).and (List.pairwise_map.mp hnd)).imp_of_mem fun {r r'} hr hr' hboth => ?_
    obtain ⟨hnot, hne⟩ := hboth
    by_contra hge
    have hlt : r'.sequence < r.sequence := by omega
    refine hnot (hinc.lt hA (k := r.sequence - r'.sequence - 1) (hmissed hr') ?_)
    have hk : r'.sequence + 1 + (r.sequence - r'.sequence - 1) = r.sequence := by omega
    rw [hk]
    exact hmissed hr
  exact List.Perm.eq_of_pairwise' hsorted (List.pairwise_lt_range' ..) (hperm o)

theorem exists_swapped (hA : GapFree A) {s : ℕ} {r r' : Rumor} (h : Misses A B o s r)
    (h' : Misses A B o (s + 1) r') (hle : r'.origin ≤ r.origin) :
    ∃ rs, Sends A B.lastSeq rs ∧ [s + 1, s].Sublist (seqsOf o rs) := by
  classical
  let le : Rumor → Rumor → Prop := fun a b => a.origin ≤ b.origin
  have : Std.Total le := ⟨fun a b => le_total a.origin b.origin⟩
  have : IsTrans Rumor le := ⟨fun a b c => le_trans⟩
  let all := collectMissingRumors A B.lastSeq A.lastSeq.keys.toList
  have hall : Sends A B.lastSeq (all.insertionSort le) := by
    refine ⟨⟨A.lastSeq.keys.toList, Finset.nodup_toList _, fun o => ?_,
      List.perm_insertionSort le all⟩, ?_⟩
    · rw [Finset.mem_toList, Finmap.mem_keys]
    · exact (List.pairwise_insertionSort le all).imp fun hab => not_lt.mpr hab
  obtain ⟨hmem, -⟩ := sent_spec hA hall
  have hr : r ∈ all := (List.perm_insertionSort le all).mem_iff.mp ((hmem r).mpr ⟨o, s, h⟩)
  have hr' : r' ∈ all := (List.perm_insertionSort le all).mem_iff.mp ((hmem r').mpr ⟨o, s + 1, h'⟩)
  have hne : r ≠ r' := by
    rintro rfl
    have h₁ := (hA.filed h).sequence
    have h₂ := (hA.filed h').sequence
    omega
  have hperm : (r' :: r :: (all.erase r').erase r).Perm all :=
    ((List.perm_cons_erase ((List.mem_erase_of_ne hne).mpr hr)).symm.cons r').trans
      (List.perm_cons_erase hr').symm
  refine ⟨(r' :: r :: (all.erase r').erase r).insertionSort le,
    ⟨⟨A.lastSeq.keys.toList, Finset.nodup_toList _, fun o => by rw [Finset.mem_toList, Finmap.mem_keys],
    (List.perm_insertionSort le _).trans hperm⟩, (List.pairwise_insertionSort le _).imp fun hab =>
    not_lt.mpr hab⟩, ?_⟩
  have hpair : [r', r].Sublist ((r' :: r :: (all.erase r').erase r).insertionSort le) :=
    List.pair_sublist_insertionSort (r := le) hle (((List.nil_sublist _).cons_cons r).cons_cons r')
  have hseqs : seqsOf o [r', r] = [s + 1, s] := by
    rw [seqsOf_cons, if_pos (hA.filed h').origin, seqsOf_cons, if_pos (hA.filed h).origin,
      (hA.filed h).sequence, (hA.filed h').sequence]
    rfl
  rw [← hseqs]
  exact (hpair.filter _).map _

theorem not_catchesUp (hA : GapFree A) (hgap : InertGap A B) (hd : Header) {s : ℕ} {r r' : Rumor}
    (h : Misses A B o s r) (h' : Misses A B o (s + 1) r') (hle : r'.origin ≤ r.origin) :
    ¬ CatchesUp A B hd := by
  intro hup
  obtain ⟨rs, hsends, hswap⟩ := exists_swapped hA h h' hle
  have hlast := hup rs hsends o
  rw [last_sent hA hgap hsends] at hlast
  have hnd : (seqsOf o rs).Nodup := ((sent_spec hA hsends).2 o).nodup_iff.mpr List.nodup_range'
  have hstuck := climb_stuck hnd h.above hswap
  have hupTo := h'.upTo
  omega

/-- **One message closes the gap** exactly if the order of the origins puts the missing rumors of each
origin in the order of their numbers. -/
theorem catchUp_iff (hA : GapFree A) (hgap : InertGap A B) (hd : Header) :
    CatchesUp A B hd ↔ Increasing A B := by
  constructor
  · intro hup o s r r' h h'
    by_contra hnot
    exact not_catchesUp hA hgap hd h h' (not_lt.mp hnot) hup
  · intro hinc rs hsends o
    rw [last_sent hA hgap hsends, seqsOf_sent hA hinc hsends, climb_range']
    omega

theorem increasing_iff (hA : GapFree A) (htrim : ∀ o s r, Misses A B o s r → r.origin = o) :
    Increasing A B ↔ ∀ o, A.last o ≤ B.last o + 1 := by
  constructor
  · intro hinc o
    by_contra hlt
    obtain ⟨r, h⟩ := hA.misses (B := B) (o := o) (s := B.last o + 1) (by omega) (by omega)
    obtain ⟨r', h'⟩ := hA.misses (B := B) (o := o) (s := B.last o + 1 + 1) (by omega) (by omega)
    have hlt' := hinc o _ r r' h h'
    rw [htrim o _ r h, htrim o _ r' h'] at hlt'
    exact lt_irrefl o hlt'
  · intro hle o s r r' h h'
    have h₁ := hle o
    have h₂ := h.above
    have h₃ := h'.upTo
    omega

/-- The node has stored a chat message of an origin, with the next number. -/
def hears (n : Node) (o : String) : Node := n.store fromPeer (chat o (n.last o + 1))

theorem last_hears (htrim : trimSpace o = o) (n : Node) (o' : String) :
    (hears n o).last o' = if o' = o then n.last o + 1 else n.last o' := by
  unfold hears
  rw [last_store]
  exact if_congr (by rw [chat, htrim]) rfl rfl

/-- A log without gaps, whose messages are all chat messages. -/
structure Chats (n : Node) : Prop extends GapFree n where
  chats : ∀ o s r, (n.stored o).lookup s = some r → r = chat o s

theorem chats_newNode : Chats newNode where
  wellFiled := ⟨fun _ h => absurd h Finmap.notMem_empty, fun _ _ _ h => by cases h⟩
  full _ _ hpos hle := absurd (hpos.trans hle) (show ¬ 1 ≤ 0 by decide)
  chats _ _ _ h := by cases h

theorem Chats.hears (h : Chats n) (htrim : trimSpace o = o) (hne : o ≠ "") :
    Chats (hears n o) := by
  have hstored : ∀ o', (CatchUp.hears n o).stored o' = if o' = o then
      (n.stored o').insert (n.last o + 1) (chat o (n.last o + 1)) else n.stored o' := fun o' => by
    unfold CatchUp.hears
    rw [stored_store]
    exact if_congr (by rw [chat, htrim]) rfl rfl
  refine ⟨⟨h.wellFiled.store (by rwa [chat, htrim]) ⟨.other "chat", rfl, by decide⟩,
    fun o' s hpos hle => ?_⟩, fun o' s r hr => ?_⟩
  · rw [hstored]
    rw [last_hears htrim] at hle
    split_ifs at hle ⊢ with ho
    · rw [Finmap.mem_insert]
      rcases Nat.lt_or_eq_of_le hle with hlt | rfl
      · exact .inr (h.full o' s hpos (ho ▸ Nat.le_of_lt_succ hlt))
      · exact .inl rfl
    · exact h.full o' s hpos hle
  · rw [hstored] at hr
    split_ifs at hr with ho
    · rw [lookup_insert_ite] at hr
      split_ifs at hr with hs
      · rw [ho, hs]
        exact (Option.some.inj hr).symm
      · exact h.chats o' s r hr
    · exact h.chats o' s r hr

theorem Chats.inertGap (h : Chats A) (B : Node) : InertGap A B := by
  intro o s r m hs hm n hd _
  rw [h.chats o s r hs.stored] at hm
  cases hm
  rw [process]

theorem trimSpace_a : trimSpace "a" = "a" := by decide +kernel

theorem trimSpace_b : trimSpace "b" = "b" := by decide +kernel

/-- One rumor of either of two origins is missing. -/
theorem catchUp_pair : ∃ A B, GapFree A ∧ InertGap A B ∧ (A.last "a" = 2 ∧ A.last "b" = 1) ∧
    (B.last "a" = 1 ∧ B.last "b" = 0) ∧ CatchesUp A B fromPeer := by
  let B := hears newNode "a"
  let A := hears (hears B "a") "b"
  have hA : Chats A := ((chats_newNode.hears trimSpace_a (by decide)).hears trimSpace_a (by decide)).hears
    trimSpace_b (by decide)
  refine ⟨A, B, hA.toGapFree, hA.inertGap B, by decide +kernel, by decide +kernel, ?_⟩
  refine (catchUp_iff hA.toGapFree (hA.inertGap B) fromPeer).mpr ?_
  refine (increasing_iff hA.toGapFree fun o s r h => by rw [hA.chats o s r h.stored]; rfl).mpr fun o => ?_
  have hmore : ∀ o, (hears B "a").last o = if o = "a" then B.last "a" + 1 else B.last o :=
    last_hears trimSpace_a B
  rw [last_hears trimSpace_b (hears B "a") o, hmore, hmore, if_neg (show "b" ≠ "a" by decide)]
  split_ifs with hb ha
  · rw [hb]
  · rw [ha]
  · omega

/-- Two rumors are missing: the second one may be sent first, and then it is lost. -/
theorem catchUp_two : ∃ A, GapFree A ∧ InertGap A newNode ∧ A.last "a" = 2 ∧
    ∃ rs, Sends A newNode.lastSeq rs ∧ (process newNode fromPeer (.rumors rs)).last "a" = 1 ∧
    ¬ CatchesUp A newNode fromPeer := by
  let A := hears (hears newNode "a") "a"
  have hA : Chats A := (chats_newNode.hears trimSpace_a (by decide)).hears trimSpace_a (by decide)
  have hlast : A.last "a" = 2 := by decide +kernel
  obtain ⟨r₁, h₁⟩ := hA.toGapFree.misses (B := newNode) (o := "a") (s := 1) Nat.one_pos
    (by rw [hlast]; omega)
  obtain ⟨r₂, h₂⟩ := hA.toGapFree.misses (B := newNode) (o := "a")
    (s := 1 + 1) Nat.two_pos (by rw [hlast])
  have hle : r₂.origin ≤ r₁.origin := by
    rw [hA.chats _ _ _ h₁.stored, hA.chats _ _ _ h₂.stored]
    exact le_rfl
  obtain ⟨rs, hsends, hswap⟩ := exists_swapped hA.toGapFree h₁ h₂ hle
  refine ⟨A, hA.toGapFree, hA.inertGap _, hlast, rs, hsends, ?_,
    not_catchesUp hA.toGapFree (hA.inertGap _) fromPeer h₁ h₂ hle⟩
  have hperm := (sent_spec hA.toGapFree hsends).2 "a"
  have hseqs : seqsOf "a" rs = [2, 1] := (hswap.eq_of_length (by rw [hperm.length_eq, hlast]; rfl)).symm
  rw [last_sent hA.toGapFree (hA.inertGap _) hsends, hseqs]
  rfl

/-! ### The listen loop alone -/

section solo

variable {n₀ : Node} {t : ℕ} {p : Pool Node Work} {rest : List Work}

/-- Only the thread `t` takes turns. -/
abbrev Solo (n₀ : Node) (t : ℕ) : Pool Node Work → Pool Node Work → Prop :=
  (gossip n₀).Goes fun _ a => a = .turn t

theorem solo_turn {w : Work} {q : Pool Node Work} (ws : List Work)
    (hget : p.threads[t]? = some (w :: rest)) (he : exec p.shared w = goOn n ws)
    (hgo : Solo n₀ t ⟨n, p.threads.set t (ws ++ rest)⟩ q) : Solo n₀ t p q := by
  refine .head ⟨_, rfl, ?_⟩ hgo
  refine run_eq_some.mpr ⟨w, rest, _, hget, he, ?_⟩
  rw [List.append_nil]

theorem get_set {threads : List (List Work)} {stack : List Work} (h : threads[t]? = some stack)
    (stack' : List Work) :
    (threads.set t stack')[t]? = some stack' := by
  obtain ⟨hlt, -⟩ := List.getElem?_eq_some_iff.mp h
  exact List.getElem?_set_self hlt

mutual

/-- **The listen loop alone** does what the handlers of `Defs` say. -/
theorem solo_process : ∀ (m : Message) {h : Header} {p : Pool Node Work} {rest : List Work},
    p.threads[t]? = some (.process h m :: rest) →
    Solo n₀ t p ⟨process p.shared h m, p.threads.set t rest⟩
  | .rumors rs, h, p, rest, hget => by
    have hgo := solo_accept rs (p := ⟨p.shared, p.threads.set t (.accept h rs :: rest)⟩) (get_set hget _)
    rw [List.set_set] at hgo
    rw [process]
    exact solo_turn _ hget rfl hgo
  | .privateFor recipients none, h, p, rest, hget => by
    rw [process, processMsg, ite_self]
    exact solo_turn [] hget rfl .refl
  | .privateFor recipients (some m), h, p, rest, hget => by
    rw [process, processMsg]
    by_cases hin : trimSpace h.destination ∈ recipients
    · have hgo := solo_process m (p := ⟨p.shared, p.threads.set t (.process h m :: rest)⟩)
        (get_set hget _)
      rw [List.set_set] at hgo
      rw [if_pos hin]
      exact solo_turn [.process h m] hget (by rw [exec, handler, if_pos hin]) hgo
    · rw [if_neg hin]
      exact solo_turn [] hget (by rw [exec, handler, if_neg hin]) .refl
  | .other _, h, p, rest, hget => by
    rw [process]
    exact solo_turn [] hget rfl .refl
  | .invalid _, h, p, rest, hget => by
    rw [process]
    exact solo_turn [] hget rfl .refl
termination_by m => sizeOf m
decreasing_by
  · simp only [Message.rumors.sizeOf_spec]
    omega
  · simp only [Message.privateFor.sizeOf_spec, Option.some.sizeOf_spec]
    omega

theorem solo_accept :
    ∀ (rs : List (RumorOf Message)) {h : Header} {p : Pool Node Work} {rest : List Work},
    p.threads[t]? = some (.accept h rs :: rest) →
    Solo n₀ t p ⟨acceptExpectedRumors p.shared h rs, p.threads.set t rest⟩
  | [], h, p, rest, hget => by
    rw [acceptExpectedRumors]
    exact solo_turn [] hget rfl .refl
  | ⟨origin, sequence, msg⟩ :: rs, h, p, rest, hget => by
    rw [acceptExpectedRumors, processRumorIfExpected]
    cases hexp : p.shared.expects ⟨origin, sequence, msg⟩ with
    | none =>
      have hgo := solo_accept rs (p := ⟨p.shared, p.threads.set t (.accept h rs :: rest)⟩)
        (get_set hget _)
      rw [List.set_set] at hgo
      exact solo_turn [.accept h rs] hget (by rw [exec, hexp]) hgo
    | some m =>
      have hmsg : msg = some m := (expects_spec hexp).1
      subst hmsg
      let r : Rumor := ⟨origin, sequence, some m⟩
      let hd := p.shared.msgHeader h r
      let n := process (p.shared.take r) hd m
      have hmsgs := solo_process m (p := ⟨p.shared.take r, p.threads.set t (.process hd m :: .store h r ::
        .accept h rs :: rest)⟩) (get_set hget _)
      have hrest := solo_accept rs (p := ⟨n.store h r, p.threads.set t (.accept h rs :: rest)⟩)
        (get_set hget _)
      rw [List.set_set] at hmsgs hrest
      refine solo_turn [.process hd m, .store h r, .accept h rs] hget (by rw [exec, hexp])
        (hmsgs.trans ?_)
      refine solo_turn [] (get_set hget _) rfl ?_
      rw [List.set_set]
      exact hrest
termination_by rs => sizeOf rs
decreasing_by
  · simp only [List.cons.sizeOf_spec]
    omega
  · rw [hmsg]
    simp only [List.cons.sizeOf_spec, RumorOf.mk.sizeOf_spec, Option.some.sizeOf_spec]
    omega
  · simp only [List.cons.sizeOf_spec]
    omega

end

end solo

end Namecoin.Gossip.CatchUp
