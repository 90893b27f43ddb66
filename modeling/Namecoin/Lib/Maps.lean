import Mathlib.Data.Finmap
import Mathlib.Data.List.Sort
import Mathlib.Data.String.Basic
import Mathlib.Algebra.BigOperators.Group.Multiset.Basic
import Mathlib.Algebra.Order.BigOperators.Group.Multiset
import Mathlib.Tactic.Ring

/-! # Finite maps: updates, totals and an order of iteration

`Map κ ν` is Mathlib's `Finmap` at a constant family. Three things are added to its API: what a lookup
finds after an update, as one equation (`lookup_insert_ite`, `lookup_erase_ite`); the total of a weight
over all entries and how the updates move it (`total_insert`, `total_erase`); and the list of the keys in
the order of a relation (`sortedKeys`), for loops over a map whose result must not depend on the order in
which the entries are visited. -/

namespace Namecoin.Lib.Maps

/-- Finite maps from `κ` to `ν`. -/
abbrev Map (κ ν : Type) := Finmap fun _ : κ => ν

variable {κ ν : Type} [DecidableEq κ]

/-! ### Lookups after an update -/

theorem lookup_insert_ite (m : Map κ ν) (k k' : κ) (v : ν) :
    (m.insert k v).lookup k' = if k' = k then some v else m.lookup k' := by
  split_ifs with h
  · subst h; exact Finmap.lookup_insert m
  · exact Finmap.lookup_insert_of_ne m h

theorem lookup_erase_ite (m : Map κ ν) (k k' : κ) :
    (m.erase k).lookup k' = if k' = k then none else m.lookup k' := by
  split_ifs with h
  · subst h; exact Finmap.lookup_erase _ m
  · exact Finmap.lookup_erase_ne h

theorem lookup_foldl_erase (ks : List κ) : ∀ (m : Map κ ν) (k : κ),
    (ks.foldl (fun m k => m.erase k) m).lookup k = if k ∈ ks then none else m.lookup k := by
  induction ks with
  | nil => intro m k; simp
  | cons a ks ih =>
    intro m k
    rw [List.foldl_cons, ih, lookup_erase_ite]
    by_cases hk : k ∈ ks
    · simp [hk]
    · by_cases ha : k = a <;> simp [hk, ha]

theorem lookup_foldl_insert : ∀ {l : List (κ × ν)}, (l.map Prod.fst).Nodup →
    ∀ (m : Map κ ν) (k : κ) (v : ν), (l.foldl (fun m e => m.insert e.1 e.2) m).lookup k = some v ↔
      (k, v) ∈ l ∨ k ∉ l.map Prod.fst ∧ m.lookup k = some v
  | [], _, m, k, v => by simp
  | e :: l, hnd, m, k, v => by
    rw [List.map_cons, List.nodup_cons] at hnd
    rw [List.foldl_cons, lookup_foldl_insert hnd.2, lookup_insert_ite, List.mem_cons,
      List.map_cons, List.mem_cons]
    by_cases hk : k = e.1
    · subst hk
      have hnot : (e.1, v) ∉ l := fun hmem => hnd.1 (List.mem_map.mpr ⟨_, hmem, rfl⟩)
      simp only [hnot, hnd.1, not_false_eq_true, true_and, if_true, false_or, not_true_eq_false,
        false_and, or_false, Option.some.injEq]
      exact ⟨fun h => h ▸ rfl, fun h => (Prod.mk.inj h).2.symm⟩
    · have hne : (k, v) ≠ e := fun h => hk (congrArg Prod.fst h)
      simp only [hk, hne, false_or, if_false]

/-! ### Totals -/

/-- The total of the weight `w` over the entries of a map. -/
def total (w : ν → ℕ) (m : Map κ ν) : ℕ := (m.entries.map fun e => w e.2).sum

/-- The weight found at a key, `0` if there is none. -/
def weightAt (w : ν → ℕ) (m : Map κ ν) (k : κ) : ℕ := ((m.lookup k).map w).getD 0

omit [DecidableEq κ] in
@[simp] theorem total_empty (w : ν → ℕ) : total w (∅ : Map κ ν) = 0 := rfl

theorem weightAt_of_lookup {w : ν → ℕ} {m : Map κ ν} {k : κ} {v : ν} (h : m.lookup k = some v) :
    weightAt w m k = w v := by simp [weightAt, h]

theorem weightAt_of_none {w : ν → ℕ} {m : Map κ ν} {k : κ} (h : m.lookup k = none) :
    weightAt w m k = 0 := by simp [weightAt, h]

theorem total_insert_of_notMem (w : ν → ℕ) {m : Map κ ν} {k : κ} (v : ν) (h : k ∉ m) :
    total w (m.insert k v) = w v + total w m := by
  rw [total, total, Finmap.entries_insert_of_notMem h, Multiset.map_cons, Multiset.sum_cons]

theorem insert_erase_self {m : Map κ ν} {k : κ} {v : ν} (h : m.lookup k = some v) :
    (m.erase k).insert k v = m := by
  refine Finmap.ext_lookup fun k' => ?_
  rw [lookup_insert_ite, lookup_erase_ite]
  split_ifs with hk
  · rw [hk, h]
  · rfl

theorem erase_of_notMem {m : Map κ ν} {k : κ} (h : k ∉ m) : m.erase k = m := by
  refine Finmap.ext_lookup fun k' => ?_
  rw [lookup_erase_ite]
  split_ifs with hk
  · rw [hk, Finmap.lookup_eq_none.mpr h]
  · rfl

theorem total_erase (w : ν → ℕ) (m : Map κ ν) (k : κ) :
    total w (m.erase k) + weightAt w m k = total w m := by
  cases h : m.lookup k with
  | none =>
    rw [weightAt_of_none h, erase_of_notMem (Finmap.lookup_eq_none.mp h), Nat.add_zero]
  | some v =>
    have hins := total_insert_of_notMem w (m := m.erase k) v Finmap.notMem_erase_self
    rw [insert_erase_self h] at hins
    rw [weightAt_of_lookup h, hins, Nat.add_comm]

theorem insert_erase (m : Map κ ν) (k : κ) (v : ν) : (m.erase k).insert k v = m.insert k v := by
  refine Finmap.ext_lookup fun k' => ?_
  rw [lookup_insert_ite, lookup_insert_ite, lookup_erase_ite]
  split_ifs <;> rfl

/-- **An update moves the total by the difference of the two weights.** -/
theorem total_insert (w : ν → ℕ) (m : Map κ ν) (k : κ) (v : ν) :
    total w (m.insert k v) + weightAt w m k = total w m + w v := by
  have h1 := total_insert_of_notMem w (m := m.erase k) v Finmap.notMem_erase_self
  have h2 := total_erase w m k
  rw [insert_erase] at h1
  omega

theorem weightAt_erase_ne (w : ν → ℕ) {m : Map κ ν} {k k' : κ} (h : k ≠ k') :
    weightAt w (m.erase k') k = weightAt w m k := by
  rw [weightAt, weightAt, Finmap.lookup_erase_ne h]

theorem total_foldl_erase (w : ν → ℕ) : ∀ (ks : List κ) (m : Map κ ν), ks.Nodup →
    total w (ks.foldl (fun m k => m.erase k) m) + (ks.map (weightAt w m)).sum = total w m
  | [], m, _ => by simp
  | k :: ks, m, hnd => by
    rw [List.nodup_cons] at hnd
    have ih := total_foldl_erase w ks (m.erase k) hnd.2
    have hmap : ks.map (weightAt w (m.erase k)) = ks.map (weightAt w m) :=
      List.map_congr_left fun a ha => weightAt_erase_ne w fun h => hnd.1 (h ▸ ha)
    rw [hmap] at ih
    have he := total_erase w m k
    rw [List.foldl_cons, List.map_cons, List.sum_cons]
    omega

/-! ### The keys in order -/

section sorted

variable (r : κ → κ → Prop) [DecidableRel r] [IsTrans κ r] [Std.Antisymm r] [Std.Total r]

/-- The keys of a map in the order `r`. -/
def sortedKeys (m : Map κ ν) : List κ :=
  Quot.liftOn m.keys.val (List.insertionSort r) fun a b h =>
    ((List.perm_insertionSort r a).trans (h.trans (List.perm_insertionSort r b).symm)).eq_of_pairwise'
      (List.pairwise_insertionSort r a) (List.pairwise_insertionSort r b)

omit [DecidableEq κ] in
theorem coe_sortedKeys (m : Map κ ν) : (sortedKeys r m : Multiset κ) = m.keys.val := by
  unfold sortedKeys
  induction h : m.keys.val using Quot.inductionOn with
  | h l => exact Quot.sound (List.perm_insertionSort r l)

omit [DecidableEq κ] in
theorem mem_sortedKeys {m : Map κ ν} {k : κ} : k ∈ sortedKeys r m ↔ k ∈ m := by
  rw [← Finmap.mem_keys, ← Finset.mem_val, ← coe_sortedKeys r m, Multiset.mem_coe]

omit [DecidableEq κ] in
theorem nodup_sortedKeys (m : Map κ ν) : (sortedKeys r m).Nodup := by
  rw [← Multiset.coe_nodup, coe_sortedKeys]
  exact m.keys.nodup

/-- The entries of a map in the order of their keys. -/
def sortedEntries (m : Map κ ν) : List (κ × ν) :=
  (sortedKeys r m).filterMap fun k => (m.lookup k).map (Prod.mk k)

theorem mem_sortedEntries {m : Map κ ν} {k : κ} {v : ν} :
    (k, v) ∈ sortedEntries r m ↔ m.lookup k = some v := by
  simp only [sortedEntries, List.mem_filterMap, mem_sortedKeys, Option.map_eq_some_iff]
  constructor
  · rintro ⟨k', -, v', h, he⟩
    obtain ⟨rfl, rfl⟩ := Prod.mk.inj he
    exact h
  · intro h
    exact ⟨k, Finmap.mem_of_lookup_eq_some h, v, h, rfl⟩

theorem map_fst_sortedEntries (m : Map κ ν) : (sortedEntries r m).map Prod.fst = sortedKeys r m := by
  rw [sortedEntries, List.map_filterMap]
  have : ∀ k ∈ sortedKeys r m, ((m.lookup k).map (Prod.mk k)).map Prod.fst = some k := by
    intro k hk
    obtain ⟨v, hv⟩ := Finmap.mem_iff.mp ((mem_sortedKeys r).mp hk)
    simp [hv]
  rw [List.filterMap_congr this]
  exact List.filterMap_some

end sorted

/-! Strings in their order are such keys. -/

instance string_trans : IsTrans String fun a b => a ≤ b := ⟨fun _ _ _ => le_trans⟩

instance string_antisymm : Std.Antisymm fun a b : String => a ≤ b := ⟨fun _ _ => le_antisymm⟩

instance string_total : Std.Total fun a b : String => a ≤ b := ⟨le_total⟩

end Namecoin.Lib.Maps
