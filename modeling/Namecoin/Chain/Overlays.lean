import Namecoin.Chain.Stores

/-! # Stores on top of stores

What is read from a store after a write to another one, and after an overlay has been committed. The
chain service never deletes, so its heaps are `Layered`: an overlay is on top of an older store and
hides none of its entries.

* `entry_set_self`, `entry_set_of_ne`, `entry_set_cases`: reads after a write;
* `entry_commit_eq`, `entry_commit_base`, `entry_commit_cases`: after a commit the overlay and
  its base show what the overlay has shown, and every other store shows what it has shown or
  an entry of the overlay;
* `LayersHold`: what holds of everything that is written holds of the entries of all overlays. -/

namespace Namecoin.Chain.Overlays

open Lib.Maps Lib.ByteStrings Chain.Stores

variable {S : Heap} {id id' base : ℕ} {key key' : String} {val w : Bytes} {f : StoreObj → StoreObj}

/-- Overlays are on top of older stores, and nothing has been deleted. -/
def Layered : Heap → Prop
  | [] => True
  | .mem _ :: older => Layered older
  | .overlay base _ del :: older => base < older.length ∧ del = ∅ ∧ Layered older

/-! ### One store -/

/-- What the newest store shows. -/
def top (older : Heap) (key : String) : StoreObj → Option Bytes
  | .mem data => data.lookup key
  | .overlay base data del => if key ∈ del then none else (data.lookup key).or (entry older base key)

theorem entry_step (o : StoreObj) (older : Heap) (id : ℕ) (key : String) :
    entry (o :: older) id key = if id = older.length then top older key o else entry older id key := by
  rw [entry.eq_def]
  cases o <;> rfl

@[simp] theorem length_update : ∀ (S : Heap) (id : ℕ), (update f S id).length = S.length
  | [], _ => rfl
  | o :: older, id => by
    unfold update
    split_ifs
    · rfl
    · simp [length_update older id]

@[simp] theorem length_set (S : Heap) (id : ℕ) (key : String) (val : Bytes) :
    (set S id key val).length = S.length :=
  length_update S id

theorem update_of_ge : ∀ {S : Heap}, S.length ≤ id → update f S id = S
  | [], _ => rfl
  | o :: older, h => by
    rw [List.length_cons] at h
    rw [update, if_neg (by omega), update_of_ge (by omega)]

theorem entry_cons (o : StoreObj) (h : id < S.length) : entry (o :: S) id key = entry S id key := by
  rw [entry_step, if_neg (by omega)]

theorem entry_newOverlayStore (S : Heap) (base : ℕ) (key : String) :
    entry (newOverlayStore S base).1 S.length key = entry S base key := by
  show entry (.overlay base ∅ ∅ :: S) S.length key = _
  rw [entry_step, if_pos rfl]
  simp [top]

theorem obj_mem : ∀ {S : Heap} {o : StoreObj}, obj S id = some o → o ∈ S
  | [], _, h => by cases h
  | o' :: older, o, h => by
    rw [obj] at h
    split_ifs at h
    · cases h
      exact List.mem_cons_self
    · exact List.mem_cons_of_mem _ (obj_mem h)

theorem obj_lt : ∀ {S : Heap} {o : StoreObj}, obj S id = some o → id < S.length
  | [], _, h => by cases h
  | o' :: older, o, h => by
    rw [obj] at h
    rw [List.length_cons]
    split_ifs at h with hid
    · omega
    · exact (obj_lt h).trans (Nat.lt_succ_self _)

theorem baseOf_eq_some_iff : baseOf S id = some base ↔
    ∃ data del, obj S id = some (.overlay base data del) := by
  unfold baseOf
  cases obj S id with
  | none => simp
  | some o => cases o <;> simp

theorem entry_overlay : ∀ {S : Heap} {data : Map String Bytes} {del : Finset String}, Layered S →
    obj S id = some (.overlay base data del) → base < id ∧ del = ∅ ∧
      ∀ key, entry S id key = (data.lookup key).or (entry S base key)
  | [], _, _, _, h => by cases h
  | o :: older, data, del, hl, h => by
    rw [obj] at h
    split_ifs at h with hid
    · cases h
      obtain ⟨hb, rfl, -⟩ := hl
      refine ⟨by omega, rfl, fun key => ?_⟩
      rw [entry_step, if_pos hid, entry_cons _ hb]
      simp [top]
    · have hlt := obj_lt h
      have holder : Layered older := by
        cases o with
        | mem => exact hl
        | overlay => exact hl.2.2
      obtain ⟨hb, rfl, he⟩ := entry_overlay holder h
      refine ⟨hb, rfl, fun key => ?_⟩
      rw [entry_cons _ hlt, entry_cons _ (hb.trans hlt), he key]

theorem Layered.ground : ∀ {S : Heap}, Layered S → 0 < S.length → ∃ data, baseOf S 0 = none ∧
    (∀ key, entry S 0 key = data.lookup key) ∧
      entries S 0 = sortedEntries (fun a b : String => a ≤ b) data
  | [], _, h => by cases h
  | [.mem data], _, _ => ⟨data, rfl, fun _ => rfl, rfl⟩
  | [.overlay base data del], hl, _ => absurd hl.1 (Nat.not_lt_zero base)
  | o :: o' :: older, hl, _ => by
    have holder : Layered (o' :: older) := by
      cases o with
      | mem => exact hl
      | overlay => exact hl.2.2
    obtain ⟨data, hb, he, hall⟩ := Layered.ground holder (Nat.succ_pos _)
    have hne : 0 ≠ (o' :: older).length := (Nat.succ_ne_zero _).symm
    refine ⟨data, ?_, fun key => ?_, ?_⟩
    · unfold baseOf at hb ⊢
      rw [obj, if_neg hne]
      exact hb
    · rw [entry_cons o (Nat.succ_pos _)]
      exact he key
    · rw [entries.eq_def]
      dsimp only
      rw [if_neg hne]
      exact hall

theorem baseOf_cons (o : StoreObj) (h : id < S.length) : baseOf (o :: S) id = baseOf S id := by
  unfold baseOf
  rw [obj, if_neg (by omega)]

theorem obj_update : ∀ (S : Heap) (id id' : ℕ), obj (update f S id) id' =
      if id' = id then (obj S id').map f else obj S id'
  | [], _, _ => by split_ifs <;> rfl
  | o :: older, id, id' => by
    rw [update]
    split_ifs with hid heq heq
    · rw [obj, obj, if_pos (by omega), if_pos (by omega)]
      rfl
    · rw [obj, obj, if_neg (by omega), if_neg (by omega)]
    · rw [obj, obj, length_update, if_neg (by omega), if_neg (by omega), obj_update, if_pos heq]
    · rw [obj, obj, length_update, obj_update, if_neg heq]

theorem baseOf_set (S : Heap) (id : ℕ) (key : String) (val : Bytes) (id' : ℕ) :
    baseOf (set S id key val) id' = baseOf S id' := by
  unfold baseOf Stores.set
  rw [obj_update]
  split_ifs
  · cases obj S id' with
    | none => rfl
    | some o => cases o <;> rfl
  · rfl

/-! ### Writes -/

theorem entry_update_of_lt : ∀ {S : Heap} {id' : ℕ}, id' < id →
    entry (update f S id) id' key = entry S id' key
  | [], _, _ => rfl
  | o :: older, id', h => by
    rw [update]
    split_ifs with hid
    · rw [entry_cons _ (by omega), entry_cons _ (by omega)]
    · by_cases heq : id' = older.length
      · rw [update_of_ge (by omega)]
      · rw [entry_step, length_update, if_neg heq, entry_step, if_neg heq, entry_update_of_lt h]

theorem entry_update_congr : ∀ {S : Heap}, (∀ key, entry (update f S id) id key = entry S id key) →
    ∀ id' key, entry (update f S id) id' key = entry S id' key
  | [], _, _, _ => rfl
  | o :: older, h, id', key => by
    by_cases hid : id = older.length
    · by_cases heq : id' = older.length
      · rw [heq, ← hid]
        exact h key
      · rw [update, if_pos hid, entry_step, if_neg heq, entry_step, if_neg heq]
    · have holder : ∀ key, entry (update f older id) id key = entry older id key := fun key => by
        have hkey := h key
        rwa [update, if_neg hid, entry_step, length_update, if_neg hid, entry_step, if_neg hid] at hkey
      have ih := entry_update_congr holder
      rw [update, if_neg hid, entry_step, length_update, entry_step]
      split_ifs
      · cases o with
        | mem => rfl
        | overlay base data del => rw [top, top, ih]
      · exact ih id' key

theorem Layered.set : ∀ {S : Heap}, Layered S → ∀ (id : ℕ) (key : String) (val : Bytes),
    Layered (set S id key val)
  | [], _, _, _, _ => True.intro
  | o :: older, hl, id, key, val => by
    have holder : Layered older := by
      cases o with
      | mem => exact hl
      | overlay => exact hl.2.2
    rw [Stores.set, update]
    split_ifs
    · cases o with
      | mem => exact hl
      | overlay base data del =>
        obtain ⟨hb, rfl, -⟩ := hl
        exact ⟨hb, by simp, holder⟩
    · have ih : Layered (update (.set key val) older id) := Layered.set holder id key val
      cases o with
      | mem => exact ih
      | overlay base data del => exact ⟨by rw [length_update]; exact hl.1, hl.2.1, ih⟩

theorem entry_set_self : ∀ {S : Heap}, id < S.length → entry (set S id key val) id key = some val
  | [], h => by cases h
  | o :: older, h => by
    rw [List.length_cons] at h
    rw [Stores.set, update]
    split_ifs with hid
    · rw [entry_step, if_pos hid]
      cases o with
      | mem data => exact Finmap.lookup_insert _
      | overlay base data del => simp [StoreObj.set, top]
    · rw [entry_step, length_update, if_neg hid]
      exact entry_set_self (by omega)

/-- A read after a write: what was there before, or what has been written. -/
theorem entry_set_cases (id : ℕ) (key : String) (val : Bytes) : ∀ (S : Heap) (id' : ℕ) (key' : String),
    entry (set S id key val) id' key' = entry S id' key' ∨
      (key' = key ∧ entry (set S id key val) id' key' = some val)
  | [], _, _ => .inl rfl
  | o :: older, id', key' => by
    have ih : ∀ id' key', entry (update (.set key val) older id) id' key' = entry older id' key' ∨
        (key' = key ∧ entry (update (.set key val) older id) id' key' = some val) :=
      entry_set_cases id key val older
    rw [Stores.set, update]
    split_ifs with hid
    · by_cases heq : id' = older.length
      · rw [entry_step, if_pos heq, entry_step, if_pos heq]
        cases o with
        | mem data =>
          simp only [StoreObj.set, top, lookup_insert_ite]
          by_cases hk : key' = key
          · right
            exact ⟨hk, if_pos hk⟩
          · left
            rw [if_neg hk]
        | overlay base data del =>
          simp only [StoreObj.set, top, lookup_insert_ite, Finset.mem_erase]
          by_cases hk : key' = key
          · right
            exact ⟨hk, by simp [hk]⟩
          · left
            simp [hk]
      · rw [entry_step, if_neg heq, entry_step, if_neg heq]
        exact .inl rfl
    · by_cases heq : id' = older.length
      · rw [entry_step, length_update, if_pos heq, entry_step, if_pos heq]
        cases o with
        | mem data => exact .inl rfl
        | overlay base data del =>
          rw [top, top]
          rcases ih base key' with h | ⟨hk, h⟩
          · exact .inl (by rw [h])
          · rw [h]
            split_ifs
            · exact .inl rfl
            · cases data.lookup key' with
              | none => exact .inr ⟨hk, rfl⟩
              | some v => exact .inl rfl
      · rw [entry_step, length_update, if_neg heq, entry_step, if_neg heq]
        exact ih id' key'

theorem entry_set_of_ne (h : key' ≠ key) : entry (set S id key val) id' key' = entry S id' key' :=
  (entry_set_cases id key val S id' key').resolve_right fun hk => h hk.1

/-! ### Several writes -/

/-- Writes one after the other to the store number `id`. -/
def setAll (S : Heap) (id : ℕ) (sets : List (String × Bytes)) : Heap :=
  sets.foldl (fun S e => set S id e.1 e.2) S

@[simp] theorem length_setAll : ∀ (sets : List (String × Bytes)) (S : Heap), (setAll S id sets).length =
      S.length
  | [], _ => rfl
  | e :: sets, S => (length_setAll sets _).trans (length_set S id e.1 e.2)

theorem Layered.setAll : ∀ (sets : List (String × Bytes)) {S : Heap}, Layered S →
    Layered (setAll S id sets)
  | [], _, h => h
  | e :: sets, _, h => Layered.setAll sets (h.set id e.1 e.2)

theorem entry_setAll_cases (id : ℕ) :
    ∀ (sets : List (String × Bytes)) (S : Heap) (id' : ℕ) (key : String),
    entry (setAll S id sets) id' key = entry S id' key ∨
      ∃ val, (key, val) ∈ sets ∧ entry (setAll S id sets) id' key = some val
  | [], _, _, _ => .inl rfl
  | e :: sets, S, id', key => by
    show entry (setAll (set S id e.1 e.2) id sets) id' key = _ ∨
      ∃ val, _ ∧ entry (setAll (set S id e.1 e.2) id sets) id' key = _
    rcases entry_setAll_cases id sets (set S id e.1 e.2) id' key with h | ⟨val, hmem, h⟩
    · rw [h]
      rcases entry_set_cases id e.1 e.2 S id' key with h' | ⟨rfl, h'⟩
      · exact .inl h'
      · exact .inr ⟨e.2, List.mem_cons_self, h'⟩
    · exact .inr ⟨val, List.mem_cons_of_mem _ hmem, h⟩

theorem entry_setAll_self : ∀ {sets : List (String × Bytes)} {S : Heap}, id < S.length →
    (sets.map Prod.fst).Nodup → (key, val) ∈ sets → entry (setAll S id sets) id key = some val
  | [], _, _, _, h => by cases h
  | e :: sets, S, hid, hnd, h => by
    rw [List.map_cons, List.nodup_cons] at hnd
    show entry (setAll (set S id e.1 e.2) id sets) id key = some val
    rcases List.mem_cons.mp h with rfl | h
    · rcases entry_setAll_cases id sets (set S id key val) id key with h' | ⟨v, hmem, -⟩
      · rw [h', entry_set_self hid]
      · exact absurd (List.mem_map_of_mem hmem) hnd.1
    · exact entry_setAll_self (by rw [length_set]; exact hid) hnd.2 h

/-! ### Commits -/

section commit

variable {data : Map String Bytes} {del : Finset String}

/-- The writes of a commit. -/
def writesOf (data : Map String Bytes) : List (String × Bytes) :=
  sortedEntries (fun a b : String => a ≤ b) data

theorem mem_writesOf : (key, val) ∈ writesOf data ↔ data.lookup key = some val := mem_sortedEntries _

theorem commit_eq (hl : Layered S) (h : obj S id = some (.overlay base data del)) :
    commit S id = update (fun _ => .overlay base ∅ ∅) (setAll S base (writesOf data)) id := by
  obtain ⟨-, rfl, -⟩ := entry_overlay hl h
  unfold commit
  rw [h]
  rfl

theorem entry_writes (hl : Layered S) (h : obj S id = some (.overlay base data del)) (key : String) :
    entry (setAll S base (writesOf data)) base key = entry S id key := by
  obtain ⟨hb, -, he⟩ := entry_overlay hl h
  have hnd : ((writesOf data).map Prod.fst).Nodup := by
    rw [writesOf, map_fst_sortedEntries]
    exact nodup_sortedKeys _ data
  rw [he key]
  cases hk : data.lookup key with
  | some v => exact entry_setAll_self (hb.trans (obj_lt h)) hnd (mem_writesOf.mpr hk)
  | none =>
    rcases entry_setAll_cases base (writesOf data) S base key with h' | ⟨v, hmem, -⟩
    · rw [h']
      rfl
    · rw [mem_writesOf.mp hmem] at hk
      cases hk

theorem obj_set_of_lt : ∀ {S : Heap}, base < id → obj (set S base key val) id = obj S id
  | [], _ => rfl
  | o :: older, h => by
    rw [Stores.set, update]
    split_ifs with hb
    · rw [obj, if_neg (by omega), obj, if_neg (by omega)]
    · rw [obj, length_update, obj]
      split_ifs
      · rfl
      · exact obj_set_of_lt h

theorem obj_setAll_of_lt (h : base < id) : ∀ (sets : List (String × Bytes)) (S : Heap),
    obj (setAll S base sets) id = obj S id
  | [], _ => rfl
  | e :: sets, S => (obj_setAll_of_lt h sets (set S base e.1 e.2)).trans (obj_set_of_lt h)

theorem entry_emptied : ∀ {S : Heap}, id < S.length → base < id →
    entry (update (fun _ => .overlay base ∅ ∅) S id) id key = entry S base key
  | [], h, _ => by cases h
  | o :: older, h, hb => by
    rw [List.length_cons] at h
    rw [update]
    split_ifs with hid
    · rw [entry_step, if_pos hid, entry_cons _ (by omega)]
      simp [top]
    · rw [entry_step, length_update, if_neg hid, entry_cons _ (by omega)]
      exact entry_emptied (by omega) hb

theorem entry_commit_eq (hl : Layered S) (h : obj S id = some (.overlay base data del)) (id' : ℕ)
    (key : String) :
    entry (commit S id) id' key = entry (setAll S base (writesOf data)) id' key := by
  obtain ⟨hb, -, -⟩ := entry_overlay hl h
  have hobj : obj (setAll S base (writesOf data)) id = some (.overlay base data del) :=
    (obj_setAll_of_lt hb _ _).trans h
  obtain ⟨-, -, he⟩ := entry_overlay (hl.setAll _) hobj
  rw [commit_eq hl h]
  refine entry_update_congr (fun key => ?_) id' key
  rw [entry_emptied (obj_lt hobj) hb, he key, entry_writes hl h, (entry_overlay hl h).2.2 key]
  cases data.lookup key <;> rfl

/-- **After a commit the base shows what the overlay has shown.** -/
theorem entry_commit_base (hl : Layered S) (h : obj S id = some (.overlay base data del)) (key : String) :
    entry (commit S id) base key = entry S id key :=
  (entry_commit_eq hl h base key).trans (entry_writes hl h key)

theorem entry_commit_cases (hl : Layered S) (h : obj S id = some (.overlay base data del)) (id' : ℕ)
    (key : String) :
    entry (commit S id) id' key = entry S id' key ∨
      ∃ val, data.lookup key = some val ∧ entry (commit S id) id' key = some val := by
  rw [entry_commit_eq hl h]
  rcases entry_setAll_cases base (writesOf data) S id' key with h' | ⟨v, hmem, h'⟩
  · exact .inl h'
  · exact .inr ⟨v, mem_writesOf.mp hmem, h'⟩

@[simp] theorem length_commit (hl : Layered S) (h : obj S id = some (.overlay base data del)) :
    (commit S id).length = S.length := by
  rw [commit_eq hl h, length_update, length_setAll]

theorem Layered.emptied : ∀ {S : Heap}, Layered S → base < id →
    Layered (update (fun _ => .overlay base ∅ ∅) S id)
  | [], _, _ => True.intro
  | o :: older, hl, hb => by
    have holder : Layered older := by
      cases o with
      | mem => exact hl
      | overlay => exact hl.2.2
    rw [update]
    split_ifs with hid
    · exact ⟨by omega, rfl, holder⟩
    · have ih := Layered.emptied holder hb
      cases o with
      | mem => exact ih
      | overlay => exact ⟨by rw [length_update]; exact hl.1, hl.2.1, ih⟩

theorem Layered.commit (hl : Layered S) (h : obj S id = some (.overlay base data del)) :
    Layered (commit S id) := by
  rw [commit_eq hl h]
  exact (hl.setAll _).emptied (entry_overlay hl h).1

theorem baseOf_setAll (id' : ℕ) : ∀ (sets : List (String × Bytes)) (S : Heap),
    baseOf (setAll S id sets) id' = baseOf S id'
  | [], _ => rfl
  | e :: sets, S => (baseOf_setAll id' sets _).trans (baseOf_set S id e.1 e.2 id')

theorem baseOf_commit (hl : Layered S) (h : obj S id = some (.overlay base data del)) (id' : ℕ) :
    baseOf (commit S id) id' = baseOf S id' := by
  have hset : baseOf (setAll S base (writesOf data)) id' = baseOf S id' :=
    baseOf_setAll id' (writesOf data) S
  rw [commit_eq hl h, ← hset]
  unfold baseOf
  rw [obj_update]
  split_ifs with heq
  · rw [heq, obj_setAll_of_lt (entry_overlay hl h).1, h]
    rfl
  · rfl

/-! ### The entries of overlays -/

/-- The entries of all overlays satisfy `Q`. -/
def LayersHold (Q : String → Bytes → Prop) (S : Heap) : Prop :=
  ∀ base data del, .overlay base data del ∈ S → ∀ key val, data.lookup key = some val → Q key val

variable {Q : String → Bytes → Prop}

theorem LayersHold.cons (h : LayersHold Q S) (base : ℕ) : LayersHold Q (.overlay base ∅ ∅ :: S) := by
  intro b d del hm key val hv
  rcases List.mem_cons.mp hm with heq | hm
  · cases heq
    simp at hv
  · exact h b d del hm key val hv

theorem mem_update : ∀ {S : Heap} {o : StoreObj}, o ∈ update f S id → o ∈ S ∨ ∃ o' ∈ S, o = f o'
  | [], _, h => by cases h
  | o' :: older, o, h => by
    rw [update] at h
    split_ifs at h
    · rcases List.mem_cons.mp h with rfl | h
      · exact .inr ⟨o', List.mem_cons_self, rfl⟩
      · exact .inl (List.mem_cons_of_mem _ h)
    · rcases List.mem_cons.mp h with rfl | h
      · exact .inl List.mem_cons_self
      · rcases mem_update h with h | ⟨o'', hmem, rfl⟩
        · exact .inl (List.mem_cons_of_mem _ h)
        · exact .inr ⟨o'', List.mem_cons_of_mem _ hmem, rfl⟩

theorem LayersHold.set (h : LayersHold Q S) (hQ : Q key val) (id : ℕ) :
    LayersHold Q (set S id key val) := by
  intro b d del hm k v hv
  rcases mem_update hm with hm | ⟨o, hold, heq⟩
  · exact h b d del hm k v hv
  · cases o with
    | mem data => cases heq
    | overlay base data del =>
      cases heq
      rw [lookup_insert_ite] at hv
      split_ifs at hv with hk
      · cases hv
        rw [hk]
        exact hQ
      · exact h b data del hold k v hv

theorem LayersHold.setAll : ∀ (sets : List (String × Bytes)) {S : Heap}, LayersHold Q S →
    (∀ key val, (key, val) ∈ sets → Q key val) → LayersHold Q (setAll S id sets)
  | [], _, h, _ => h
  | e :: sets, S, h, hQ => by
    have hfirst : LayersHold Q (Stores.set S id e.1 e.2) := h.set (hQ e.1 e.2 List.mem_cons_self) id
    exact LayersHold.setAll sets hfirst fun key val hmem => hQ key val (List.mem_cons_of_mem _ hmem)

theorem LayersHold.commit (hl : Layered S) (h : LayersHold Q S)
    (ho : obj S id = some (.overlay base data del)) :
    LayersHold Q (commit S id) := by
  rw [commit_eq hl ho]
  intro b d del' hm k v hv
  rcases mem_update hm with hm | ⟨o, -, heq⟩
  · refine LayersHold.setAll _ h (fun key val hmem => ?_) b d del' hm k v hv
    exact h base data del (obj_mem ho) key val (mem_writesOf.mp hmem)
  · cases heq
    simp at hv

end commit

end Namecoin.Chain.Overlays
