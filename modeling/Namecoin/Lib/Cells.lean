import Namecoin.Lib.Maps

/-! # Maps of cells

A map whose values are objects of their own: the map holds references, and the objects are in
cells that others may refer to as well. `Nested` is a memory of such maps and of the cells.
Writing to a map overwrites the cells it refers to, so another map sees the change if it shares a
cell; a copy has new cells throughout.

* `Owned`: the references of a map are in range, and no two of its keys share a cell;
* `read_write`: a map that is written to holds what was written, and `read_write_apart`: a map that
  shares no cell with it is unchanged;
* `read_copy`: a copy holds the same, and `copy_apart`: it shares no cell with an older map. -/

namespace Namecoin.Lib.Cells

open Lib.Maps

variable {κ ν : Type} [DecidableEq κ]

/-- Maps of references, and the cells they refer to. -/
structure Nested (κ ν : Type) where
  maps : List (Map κ ℕ)
  cells : List ν

/-- The references of the map number `i`. -/
def Nested.refs (N : Nested κ ν) (i : ℕ) : Map κ ℕ := N.maps[i]?.getD ∅

/-! ### Placing entries -/

/-- An entry is written to the cell its key had in `old`, or to a new one. -/
def place (old : Map κ ℕ) (acc : List ν × Map κ ℕ) (e : κ × ν) : List ν × Map κ ℕ :=
  match old.lookup e.1 with
  | some j => (acc.1.set j e.2, acc.2.insert e.1 j)
  | none => (acc.1 ++ [e.2], acc.2.insert e.1 acc.1.length)

/-- The references of a map are in range, and no two keys share a cell. -/
structure Fits (refs : Map κ ℕ) (cells : List ν) : Prop where
  lt : ∀ k j, refs.lookup k = some j → j < cells.length
  inj : ∀ k k' j, refs.lookup k = some j → refs.lookup k' = some j → k = k'

/-- The entries `done` have been placed, starting from the cells `cells`. -/
structure Placed (old : Map κ ℕ) (cells : List ν) (done : List (κ × ν)) (acc : List ν × Map κ ℕ) :
    Prop where
  fits : Fits acc.2 acc.1
  grows : cells.length ≤ acc.1.length
  frame : ∀ j < cells.length, (∀ k, old.lookup k ≠ some j) → acc.1[j]? = cells[j]?
  found : ∀ k v, (k, v) ∈ done → ∃ j, acc.2.lookup k = some j ∧ acc.1[j]? = some v
  keys : ∀ k j, acc.2.lookup k = some j → k ∈ done.map Prod.fst
  origin : ∀ k j, acc.2.lookup k = some j → old.lookup k = some j ∨ cells.length ≤ j

variable {old : Map κ ℕ} {cells : List ν} {done : List (κ × ν)} {acc : List ν × Map κ ℕ}

theorem placed_nil (old : Map κ ℕ) (cells : List ν) : Placed old cells [] (cells, ∅) := by
  refine ⟨⟨?_, ?_⟩, le_rfl, fun _ _ _ => rfl, ?_, ?_, ?_⟩ <;> simp

theorem Placed.insert (h : Placed old cells done acc) {k : κ} {v : ν} {j : ℕ} {cells' : List ν}
    (hkey : ∀ k' j', acc.2.lookup k' = some j' → k' ≠ k)
    (hcell : ∀ k' j', acc.2.lookup k' = some j' → j ≠ j') (hj : cells'[j]? = some v)
    (hrest : ∀ j' < acc.1.length, j ≠ j' → cells'[j']? = acc.1[j']?) (hlen : acc.1.length ≤ cells'.length)
    (horigin : old.lookup k = some j ∨ acc.1.length ≤ j) :
    Placed old cells (done ++ [(k, v)]) (cells', acc.2.insert k j) := by
  have hlookup : ∀ k' j', (acc.2.insert k j).lookup k' = some j' → k' = k ∧ j' = j ∨
      acc.2.lookup k' = some j' := by
    intro k' j' hj'
    rw [lookup_insert_ite] at hj'
    split_ifs at hj' with he
    · exact .inl ⟨he, (Option.some.inj hj').symm⟩
    · exact .inr hj'
  refine ⟨⟨fun k' j' hj' => ?_, fun k₁ k₂ j' h₁ h₂ => ?_⟩, h.grows.trans hlen, fun j' hj' hout => ?_,
    fun k' v' hmem => ?_, fun k' j' hj' => ?_, fun k' j' hj' => ?_⟩
  · rcases hlookup k' j' hj' with ⟨-, rfl⟩ | hold
    · exact (List.getElem?_eq_some_iff.mp hj).1
    · exact lt_of_lt_of_le (h.fits.lt k' j' hold) hlen
  · rcases hlookup k₁ j' h₁ with ⟨rfl, rfl⟩ | hold₁ <;> rcases hlookup k₂ _ h₂ with ⟨rfl, heq⟩ | hold₂
    · rfl
    · exact absurd rfl (hcell k₂ _ hold₂)
    · exact absurd heq.symm (hcell k₁ j' hold₁)
    · exact h.fits.inj k₁ k₂ j' hold₁ hold₂
  · have hne : j ≠ j' := by
      rintro rfl
      rcases horigin with hold | hnew
      · exact hout k hold
      · have := h.grows
        omega
    rw [hrest j' (lt_of_lt_of_le hj' h.grows) hne]
    exact h.frame j' hj' hout
  · rcases List.mem_append.mp hmem with hmem | hmem
    · obtain ⟨j', hj', hv⟩ := h.found k' v' hmem
      refine ⟨j', ?_, ?_⟩
      · rw [lookup_insert_ite, if_neg (hkey k' j' hj')]
        exact hj'
      · rw [hrest j' (h.fits.lt k' j' hj') (hcell k' j' hj')]
        exact hv
    · cases List.mem_singleton.mp hmem
      exact ⟨j, Finmap.lookup_insert _, hj⟩
  · rw [List.map_append, List.mem_append]
    rcases hlookup k' j' hj' with ⟨rfl, -⟩ | hold
    · exact .inr (List.mem_singleton.mpr rfl)
    · exact .inl (h.keys k' j' hold)
  · rcases hlookup k' j' hj' with ⟨rfl, rfl⟩ | hold
    · exact horigin.imp id h.grows.trans
    · exact h.origin k' j' hold

theorem Placed.step (h : Placed old cells done acc) (ho : Fits old cells) {k : κ} {v : ν}
    (hk : k ∉ done.map Prod.fst) : Placed old cells (done ++ [(k, v)]) (place old acc (k, v)) := by
  have hkey : ∀ k' j', acc.2.lookup k' = some j' → k' ≠ k := by
    intro k' j' hj' heq
    exact hk (heq ▸ h.keys k' j' hj')
  unfold place
  dsimp only
  cases hold : old.lookup k with
  | some j =>
    have hlt : j < acc.1.length := lt_of_lt_of_le (ho.lt k j hold) h.grows
    refine h.insert hkey (fun k' j' hj' heq => ?_) (List.getElem?_set_self hlt)
      (fun j' _ hne => List.getElem?_set_ne hne) (List.length_set ..).ge (.inl hold)
    rcases h.origin k' j' hj' with hold' | hnew
    · exact hkey k' j' hj' (ho.inj k' k j' hold' (by rw [hold, heq]))
    · have := ho.lt k j hold
      omega
  | none =>
    refine h.insert hkey (fun k' j' hj' heq => ?_) List.getElem?_concat_length
      (fun j' hj' _ => List.getElem?_append_left hj') (by simp) (.inr le_rfl)
    have := h.fits.lt k' j' hj'
    omega

/-- **Entries of different keys** can be placed one after the other. -/
theorem placed_foldl (ho : Fits old cells) :
    ∀ (l : List (κ × ν)) {done : List (κ × ν)} {acc : List ν × Map κ ℕ},
    Placed old cells done acc → ((done ++ l).map Prod.fst).Nodup →
      Placed old cells (done ++ l) (l.foldl (place old) acc)
  | [], done, acc, h, _ => by rwa [List.append_nil]
  | e :: l, done, acc, h, hnd => by
    have hk : e.1 ∉ done.map Prod.fst := by
      intro hmem
      rw [List.map_append] at hnd
      exact (List.disjoint_of_nodup_append hnd) hmem (by simp)
    have hrest := placed_foldl ho l (h.step ho hk (v := e.2)) (by simpa using hnd)
    rw [List.foldl_cons]
    simpa using hrest

/-! ### Reading, writing and copying -/

variable (r : κ → κ → Prop) [DecidableRel r] [IsTrans κ r] [Std.Antisymm r] [Std.Total r]

/-- The entries of a map, with the contents of their cells. -/
def contents (refs : Map κ ℕ) (cells : List ν) : List (κ × ν) :=
  (sortedEntries r refs).filterMap fun e => cells[e.2]?.map (Prod.mk e.1)

/-- What the map number `i` holds. -/
def Nested.read (N : Nested κ ν) (i : ℕ) : Map κ ν :=
  (contents r (N.refs i) N.cells).foldl (fun m e => m.insert e.1 e.2) ∅

/-- The map number `i` is made to hold `m`: its cells are overwritten. -/
def Nested.write (N : Nested κ ν) (i : ℕ) (m : Map κ ν) : Nested κ ν :=
  let placed := (sortedEntries r m).foldl (place (N.refs i)) (N.cells, ∅)
  ⟨N.maps.set i placed.2, placed.1⟩

/-- A new map with new cells that holds what the map number `i` holds. -/
def Nested.copy (N : Nested κ ν) (i : ℕ) : Nested κ ν × ℕ :=
  let placed := (contents r (N.refs i) N.cells).foldl (place ∅) (N.cells, ∅)
  (⟨N.maps ++ [placed.2], placed.1⟩, N.maps.length)

/-- The map number `i` is there, and has its cells for itself. -/
structure Owned (N : Nested κ ν) (i : ℕ) : Prop where
  lt : i < N.maps.length
  fits : Fits (N.refs i) N.cells

/-- Two maps share no cell. -/
structure Apart (N : Nested κ ν) (i i' : ℕ) : Prop where
  ne : i ≠ i'
  disjoint : ∀ k k' j, (N.refs i).lookup k = some j → (N.refs i').lookup k' ≠ some j

variable {r} {N : Nested κ ν} {i i' : ℕ} {m : Map κ ν}

theorem nodup_contents (refs : Map κ ℕ) (cells : List ν) :
    ((contents r refs cells).map Prod.fst).Nodup := by
  have hsub : List.Sublist ((contents r refs cells).map Prod.fst)
      ((sortedEntries r refs).map Prod.fst) := by
    unfold contents
    induction sortedEntries r refs with
    | nil => exact List.Sublist.slnil
    | cons e l ih =>
      rw [List.filterMap_cons, List.map_cons]
      cases cells[e.2]? with
      | none => exact ih.cons _
      | some v => exact ih.cons_cons _
  rw [map_fst_sortedEntries] at hsub
  exact (nodup_sortedKeys r refs).sublist hsub

theorem mem_contents {refs : Map κ ℕ} {cells : List ν} {k : κ} {v : ν} :
    (k, v) ∈ contents r refs cells ↔ ∃ j, refs.lookup k = some j ∧ cells[j]? = some v := by
  unfold contents
  rw [List.mem_filterMap]
  constructor
  · rintro ⟨⟨k', j⟩, hmem, hmap⟩
    obtain ⟨v', hv, heq⟩ := Option.map_eq_some_iff.mp hmap
    cases heq
    exact ⟨j, (mem_sortedEntries r).mp hmem, hv⟩
  · rintro ⟨j, hj, hv⟩
    exact ⟨(k, j), (mem_sortedEntries r).mpr hj, Option.map_eq_some_iff.mpr ⟨v, hv, rfl⟩⟩

theorem lookup_read {k : κ} {v : ν} : (N.read r i).lookup k = some v ↔
    ∃ j, (N.refs i).lookup k = some j ∧ N.cells[j]? = some v := by
  unfold Nested.read
  rw [lookup_foldl_insert (nodup_contents _ _), mem_contents]
  simp

theorem read_congr {N' : Nested κ ν} (hrefs : N'.refs i = N.refs i)
    (hcells : ∀ k j, (N.refs i).lookup k = some j → N'.cells[j]? = N.cells[j]?) :
    N'.read r i = N.read r i := by
  refine Finmap.ext_lookup fun k => Option.ext fun v => ?_
  rw [lookup_read, lookup_read, hrefs]
  constructor
  · rintro ⟨j, hj, hv⟩
    exact ⟨j, hj, (hcells k j hj).symm.trans hv⟩
  · rintro ⟨j, hj, hv⟩
    exact ⟨j, hj, (hcells k j hj).trans hv⟩

omit [DecidableEq κ] in
theorem refs_set_self {placed : Map κ ℕ} {cells : List ν} (h : i < N.maps.length) :
    (⟨N.maps.set i placed, cells⟩ : Nested κ ν).refs i = placed := by
  unfold Nested.refs
  rw [List.getElem?_set_self h]
  rfl

omit [DecidableEq κ] in
theorem refs_set_ne {placed : Map κ ℕ} {cells : List ν} (h : i ≠ i') :
    (⟨N.maps.set i placed, cells⟩ : Nested κ ν).refs i' = N.refs i' := by
  unfold Nested.refs
  rw [List.getElem?_set_ne h]

theorem write_placed (h : Owned N i) (m : Map κ ν) : Placed (N.refs i) N.cells (sortedEntries r m)
    ((sortedEntries r m).foldl (place (N.refs i)) (N.cells, ∅)) := by
  have hnd : (([] ++ sortedEntries r m).map Prod.fst).Nodup := by
    rw [List.nil_append, map_fst_sortedEntries]
    exact nodup_sortedKeys r m
  exact placed_foldl h.fits _ (placed_nil _ _) hnd

theorem Placed.lookup_iff {l : List (κ × ν)} (h : Placed old cells l acc) {k : κ} {v : ν} :
    (∃ j, acc.2.lookup k = some j ∧ acc.1[j]? = some v) ↔ (k, v) ∈ l := by
  constructor
  · rintro ⟨j, hj, hv⟩
    obtain ⟨⟨k', v'⟩, hmem, rfl⟩ := List.mem_map.mp (h.keys k j hj)
    obtain ⟨j', hj', hv'⟩ := h.found _ _ hmem
    cases hj.symm.trans hj'
    cases hv.symm.trans hv'
    exact hmem
  · exact h.found k v

/-- **A map holds what was written to it.** -/
theorem read_write (h : Owned N i) (m : Map κ ν) : (N.write r i m).read r i = m ∧
    Owned (N.write r i m) i := by
  have hp := write_placed (r := r) h m
  refine ⟨Finmap.ext_lookup fun k => Option.ext fun v => ?_, ?_, ?_⟩
  · rw [lookup_read]
    unfold Nested.write
    rw [refs_set_self h.lt]
    exact hp.lookup_iff.trans (mem_sortedEntries r)
  · exact (List.length_set ..).symm ▸ h.lt
  · unfold Nested.write
    rw [refs_set_self h.lt]
    exact hp.fits

/-- **A map that shares no cell** is not changed by a write. -/
theorem read_write_apart (h : Owned N i) (h' : Owned N i') (ha : Apart N i i') (m : Map κ ν) :
    (N.write r i m).read r i' = N.read r i' ∧ Owned (N.write r i m) i' ∧ Apart (N.write r i m) i i' := by
  have hp := write_placed (r := r) h m
  have hrefs : (N.write r i m).refs i' = N.refs i' := refs_set_ne ha.ne
  refine ⟨read_congr hrefs fun k j hj => ?_, ⟨?_, ?_⟩, ha.ne, fun k k' j hj hj' => ?_⟩
  · exact hp.frame j (h'.fits.lt k j hj) fun k' hk' => ha.disjoint k' k j hk' hj
  · exact (List.length_set ..).symm ▸ h'.lt
  · rw [hrefs]
    exact ⟨fun k j hj => lt_of_lt_of_le (h'.fits.lt k j hj) hp.grows, h'.fits.inj⟩
  · rw [hrefs] at hj'
    unfold Nested.write at hj
    rw [refs_set_self h.lt] at hj
    rcases hp.origin k j hj with hold | hnew
    · exact ha.disjoint k k' j hold hj'
    · have := h'.fits.lt k' j hj'
      omega

theorem copy_placed (N : Nested κ ν) (i : ℕ) : Placed ∅ N.cells (contents r (N.refs i) N.cells)
    ((contents r (N.refs i) N.cells).foldl (place ∅) (N.cells, ∅)) :=
  placed_foldl ⟨by simp, by simp⟩ _ (placed_nil _ _) (nodup_contents _ _)

theorem refs_copy_self (N : Nested κ ν) (i : ℕ) : (N.copy r i).1.refs (N.copy r i).2 =
    ((contents r (N.refs i) N.cells).foldl (place ∅) (N.cells, ∅)).2 := by
  unfold Nested.copy Nested.refs
  rw [List.getElem?_concat_length]
  rfl

theorem refs_copy_old (h' : i' < N.maps.length) : (N.copy r i).1.refs i' = N.refs i' := by
  unfold Nested.copy Nested.refs
  rw [List.getElem?_append_left h']

/-- **A copy holds the same.** -/
theorem read_copy (N : Nested κ ν) (i : ℕ) : (N.copy r i).1.read r (N.copy r i).2 = N.read r i ∧
    Owned (N.copy r i).1 (N.copy r i).2 := by
  have hp := copy_placed (r := r) N i
  refine ⟨Finmap.ext_lookup fun k => Option.ext fun v => ?_, ?_, ?_⟩
  · rw [lookup_read, lookup_read, refs_copy_self]
    exact hp.lookup_iff.trans mem_contents
  · show N.maps.length < (N.maps ++ [_]).length
    rw [List.length_append, List.length_singleton]
    omega
  · rw [refs_copy_self]
    exact hp.fits

/-- **A copy shares no cell with an older map**, and does not change it. -/
theorem copy_apart (h' : Owned N i') : (N.copy r i).1.read r i' = N.read r i' ∧ Owned (N.copy r i).1 i' ∧
    Apart (N.copy r i).1 (N.copy r i).2 i' := by
  have hp := copy_placed (r := r) N i
  have hrefs := refs_copy_old (r := r) (i := i) h'.lt
  refine ⟨read_congr hrefs fun k j hj => ?_, ⟨?_, ?_⟩, ?_, fun k k' j hj hj' => ?_⟩
  · exact hp.frame j (h'.fits.lt k j hj) (by simp)
  · show i' < (N.maps ++ [_]).length
    rw [List.length_append]
    exact Nat.lt_add_right _ h'.lt
  · rw [hrefs]
    exact ⟨fun k j hj => lt_of_lt_of_le (h'.fits.lt k j hj) hp.grows, h'.fits.inj⟩
  · exact Nat.ne_of_gt h'.lt
  · rw [refs_copy_self] at hj
    rw [hrefs] at hj'
    rcases hp.origin k j hj with hold | hnew
    · simp at hold
    · have := h'.fits.lt k' j hj'
      omega

end Namecoin.Lib.Cells
