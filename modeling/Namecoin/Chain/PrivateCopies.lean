import Namecoin.Chain.Overlays

/-! # An overlay is a private copy

The chain service forks a chain by putting an `overlayStore` on top of the store of its parent. The
overlay is used as if it were a copy of that store: it starts with the content of its base, takes the
writes of the fork, and hands them over when it is committed. Here this is said of the four readers and
writers of a store together, deletions included, for overlays on top of overlays to any depth.

* `Sound`: the heaps the stores make, an overlay on top of an older store and never both
  holding and hiding a key;
* `Shows`: what a store answers to `Get`, `Len` and `ForEach` if it is to hold a given map;
* `shows_of_entry`: in a sound heap a store shows the map of its entries;
* `private_copy`: an overlay shows the map of its base with the writes made to it, the base shows what
  it has shown until the overlay is committed, and after that both show the map of the overlay. -/

namespace Namecoin.Chain.PrivateCopies

open Lib.Maps Lib.ByteStrings Types.Defs Chain.Stores Chain.Overlays

variable {S : Heap} {o : StoreObj} {id base n : ℕ} {m : Map String Bytes}
  {key key' : String} {val : Bytes} {f : StoreObj → StoreObj}

/-! ### Sound heaps -/

/-- A store with `n` older ones: an overlay has one of them as its base and holds no key that it hides. -/
def Fine (n : ℕ) : StoreObj → Prop
  | .mem _ => True
  | .overlay base data del => base < n ∧ ∀ key ∈ del, key ∉ data

/-- Every store of the heap is fine. -/
def Sound : Heap → Prop
  | [] => True
  | o :: older => Fine older.length o ∧ Sound older

theorem Fine.set : ∀ {o : StoreObj}, Fine n o → ∀ (key : String) (val : Bytes), Fine n (o.set key val)
  | .mem _, _, _, _ => True.intro
  | .overlay base data del, h, key, val => by
    refine ⟨h.1, fun k hk => ?_⟩
    rw [Finset.mem_erase] at hk
    rw [Finmap.mem_insert, not_or]
    exact ⟨hk.1, h.2 k hk.2⟩

theorem Fine.delete : ∀ {o : StoreObj}, Fine n o → ∀ key : String, Fine n (o.delete key)
  | .mem _, _, _ => True.intro
  | .overlay base data del, h, key => by
    refine ⟨h.1, fun k hk => ?_⟩
    rw [Finmap.mem_erase]
    rintro ⟨hne, hmem⟩
    exact h.2 k ((Finset.mem_insert.mp hk).resolve_left hne) hmem

theorem Sound.update (hf : ∀ {o}, Fine id o → Fine id (f o)) :
    ∀ {S : Heap}, Sound S → Sound (update f S id)
  | [], _ => True.intro
  | o :: older, h => by
    rw [Stores.update]
    split_ifs with hid
    · exact ⟨hid ▸ hf (hid ▸ h.1), h.2⟩
    · exact ⟨by rw [length_update]; exact h.1, Sound.update hf h.2⟩

theorem Sound.set (h : Sound S) (id : ℕ) (key : String) (val : Bytes) : Sound (set S id key val) :=
  Sound.update (fun hf => hf.set key val) h

theorem Sound.delete (h : Sound S) (id : ℕ) (key : String) : Sound (delete S id key) :=
  Sound.update (fun hf => hf.delete key) h

theorem Sound.fine : ∀ {S : Heap}, Sound S → obj S id = some o → Fine id o
  | [], _, h => by cases h
  | o' :: older, hS, h => by
    rw [obj] at h
    split_ifs at h with hid
    · cases h
      exact hid ▸ hS.1
    · exact Sound.fine hS.2 h

/-! ### What `ForEach` visits -/

theorem entries_step (o : StoreObj) (older : Heap) (id : ℕ) : entries (o :: older) id =
    if id = older.length then
      match o with
      | .mem data => writesOf data
      | .overlay base data del =>
        writesOf data ++ (entries older base).filter fun e => e.1 ∉ del ∧ e.1 ∉ data
    else entries older id := by
  rw [entries.eq_def]
  cases o <;> rfl

theorem nodup_writesOf (m : Map String Bytes) : ((writesOf m).map Prod.fst).Nodup := by
  rw [writesOf, map_fst_sortedEntries]
  exact nodup_sortedKeys _ m

theorem top_eq_some_iff {older : Heap} {data : Map String Bytes} {del : Finset String}
    (h : ∀ key ∈ del, key ∉ data) : top older key (.overlay base data del) = some val ↔
      data.lookup key = some val ∨ (key ∉ del ∧ key ∉ data) ∧ entry older base key = some val := by
  rw [top]
  by_cases hdel : key ∈ del
  · have hnone : data.lookup key = none := Finmap.lookup_eq_none.mpr (h key hdel)
    simp [hdel, hnone]
  · cases hdata : data.lookup key with
    | none => simp [hdel, Finmap.lookup_eq_none.mp hdata]
    | some v => simp [hdel, Finmap.mem_of_lookup_eq_some hdata]

theorem entries_spec : ∀ {S : Heap}, Sound S → ∀ id, ((entries S id).map Prod.fst).Nodup ∧
    ∀ key val, (key, val) ∈ entries S id ↔ entry S id key = some val
  | [], _, _ => ⟨List.nodup_nil, fun _ _ => by simp [entries, entry]⟩
  | o :: older, hS, id => by
    rw [entries_step]
    by_cases hid : id = older.length
    · rw [if_pos hid]
      cases o with
      | mem data =>
        refine ⟨nodup_writesOf data, fun key val => ?_⟩
        rw [entry_step, if_pos hid]
        exact mem_writesOf
      | overlay base data del =>
        obtain ⟨hnd, hmem⟩ := entries_spec hS.2 base
        refine ⟨?_, fun key val => ?_⟩
        · rw [List.map_append]
          refine (nodup_writesOf data).append (hnd.sublist (List.filter_sublist.map _)) fun k hk hk' => ?_
          -- what is visited below has not been written in the overlay
          obtain ⟨e, he, rfl⟩ := List.mem_map.mp hk
          obtain ⟨e', he', heq⟩ := List.mem_map.mp hk'
          have hnot := (of_decide_eq_true (List.mem_filter.mp he').2).2
          exact hnot (heq ▸ Finmap.mem_of_lookup_eq_some (mem_writesOf.mp he))
        · rw [entry_step, if_pos hid, top_eq_some_iff hS.1.2, List.mem_append, mem_writesOf,
            List.mem_filter, hmem key val, decide_eq_true_iff, and_comm]
    · rw [if_neg hid]
      simp only [entry_step, if_neg hid]
      exact entries_spec hS.2 id

/-! ### Stores that show a map -/

/-- The store shows the map `m`: `Get` returns copies of its values, `Len` is the number of its keys,
and `ForEach` visits each of its entries once. -/
structure Shows (S : Heap) (id : ℕ) (m : Map String Bytes) : Prop where
  get : ∀ key, get S id key = cloneBytes (m.lookup key)
  len : len S id = m.keys.card
  forEach : ∀ key val, (key, val) ∈ entries S id ↔ m.lookup key = some val
  once : ((entries S id).map Prod.fst).Nodup

theorem length_writesOf (m : Map String Bytes) : (writesOf m).length = m.keys.card := by
  have hlen : (sortedKeys (fun a b : String => a ≤ b) m).length = m.keys.card := by
    rw [← Multiset.coe_card, coe_sortedKeys]
    rfl
  rw [← hlen, ← map_fst_sortedEntries, List.length_map]
  rfl

theorem len_eq_length : ∀ (S : Heap) (id : ℕ), len S id = (entries S id).length
  | [], _ => rfl
  | o :: older, id => by
    rw [Stores.len.eq_def]
    dsimp only
    by_cases hid : id = older.length
    · rw [if_pos hid]
      cases o with
      | mem data => rw [entries_step, if_pos hid, length_writesOf]
      | overlay base data del => rfl
    · rw [if_neg hid, entries_step, if_neg hid]
      exact len_eq_length older id

theorem shows_of_entry (hS : Sound S) (h : ∀ key, entry S id key = m.lookup key) : Shows S id m := by
  obtain ⟨hnd, hmem⟩ := entries_spec hS id
  have hperm : (entries S id).Perm (writesOf m) := by
    rw [List.perm_ext_iff_of_nodup hnd.of_map (nodup_writesOf m).of_map]
    intro e
    rw [hmem e.1 e.2, h e.1]
    exact mem_writesOf.symm
  refine ⟨fun key => ?_, ?_, fun key val => by rw [hmem, h], hnd⟩
  · rw [Stores.get, h key]
    cases m.lookup key <;> rfl
  · rw [len_eq_length, hperm.length_eq, length_writesOf]

theorem Sound.shown (hS : Sound S) (id : ℕ) :
    ∃ m : Map String Bytes, ∀ key, entry S id key = m.lookup key := by
  obtain ⟨hnd, hmem⟩ := entries_spec hS id
  refine ⟨(entries S id).foldl (fun m e => m.insert e.1 e.2) ∅, fun key => Option.ext fun val => ?_⟩
  rw [lookup_foldl_insert hnd, hmem, Finmap.lookup_empty]
  simp

/-! ### Writes -/

/-- A call that writes. -/
inductive Write
  | set (key : String) (val : Bytes)
  | delete (key : String)

/-- A write to a map. -/
def Write.onMap (m : Map String Bytes) : Write → Map String Bytes
  | .set key val => m.insert key val
  | .delete key => m.erase key

/-- A write to one store. -/
def Write.onObj (o : StoreObj) : Write → StoreObj
  | .set key val => o.set key val
  | .delete key => o.delete key

/-- A write to the store number `id`. -/
def Write.onStore (id : ℕ) (S : Heap) : Write → Heap
  | .set key val => Stores.set S id key val
  | .delete key => Stores.delete S id key

theorem update_top (f : StoreObj → StoreObj) (o : StoreObj) (S : Heap) :
    update f (o :: S) S.length = f o :: S := by
  rw [Stores.update, if_pos rfl]

theorem writes_top : ∀ (ws : List Write) (o : StoreObj),
    ws.foldl (Write.onStore S.length) (o :: S) = ws.foldl Write.onObj o :: S
  | [], _ => rfl
  | w :: ws, o => by
    have hone : w.onStore S.length (o :: S) = w.onObj o :: S := by
      cases w <;> exact update_top _ o S
    rw [List.foldl_cons, List.foldl_cons, hone]
    exact writes_top ws (w.onObj o)

/-- An overlay over the store number `base` that shows the map `m`. -/
def Copy (S : Heap) (base : ℕ) (m : Map String Bytes) (o : StoreObj) : Prop :=
  (∃ data del, o = .overlay base data del) ∧ Fine S.length o ∧ ∀ key, top S key o = m.lookup key

theorem Copy.write (h : Copy S base m o) (w : Write) : Copy S base (w.onMap m) (w.onObj o) := by
  obtain ⟨⟨data, del, rfl⟩, hfine, htop⟩ := h
  cases w with
  | set k v =>
    refine ⟨⟨_, _, rfl⟩, hfine.set k v, fun key => ?_⟩
    have hkey := htop key
    rw [top] at hkey
    simp only [Write.onObj, Write.onMap, StoreObj.set, top, lookup_insert_ite, Finset.mem_erase, ← hkey]
    by_cases hk : key = k <;> simp [hk]
  | delete k =>
    refine ⟨⟨_, _, rfl⟩, hfine.delete k, fun key => ?_⟩
    have hkey := htop key
    rw [top] at hkey
    simp only [Write.onObj, Write.onMap, StoreObj.delete, top, lookup_erase_ite,
      Finset.mem_insert, ← hkey]
    by_cases hk : key = k <;> simp [hk]

theorem Copy.writes : ∀ (ws : List Write) {m : Map String Bytes} {o : StoreObj}, Copy S base m o →
    Copy S base (ws.foldl Write.onMap m) (ws.foldl Write.onObj o)
  | [], _, _, h => h
  | w :: ws, _, _, h => Copy.writes ws (h.write w)

/-! ### Commits -/

theorem entry_delete_ite : ∀ {S : Heap}, id < S.length →
    entry (delete S id key) id key' = if key' = key then none else entry S id key'
  | [], h => by cases h
  | o :: older, h => by
    rw [List.length_cons] at h
    rw [Stores.delete, Stores.update]
    split_ifs with hid hk hk
    · subst hk
      rw [entry_step, if_pos hid]
      cases o with
      | mem data => exact Finmap.lookup_erase _ data
      | overlay base data del => simp [StoreObj.delete, top]
    · rw [entry_step, if_pos hid, entry_step, if_pos hid]
      cases o with
      | mem data => exact Finmap.lookup_erase_ne hk
      | overlay base data del => simp [StoreObj.delete, top, hk, Finmap.lookup_erase_ne hk]
    · rw [entry_step, length_update, if_neg hid]
      exact (entry_delete_ite (by omega)).trans (if_pos hk)
    · rw [entry_step, length_update, if_neg hid, entry_step, if_neg hid]
      exact (entry_delete_ite (by omega)).trans (if_neg hk)

/-- Deletions one after the other in the store number `id`. -/
def deleteAll (S : Heap) (id : ℕ) (dels : List String) : Heap := dels.foldl (fun S k => delete S id k) S

@[simp] theorem length_deleteAll :
    ∀ (dels : List String) (S : Heap), (deleteAll S id dels).length = S.length
  | [], _ => rfl
  | _ :: dels, S => (length_deleteAll dels _).trans (length_update S id)

theorem entry_deleteAll : ∀ (dels : List String) {S : Heap}, id < S.length →
    entry (deleteAll S id dels) id key = if key ∈ dels then none else entry S id key
  | [], _, _ => by simp [deleteAll]
  | k :: dels, S, h => by
    show entry (deleteAll (delete S id k) id dels) id key = _
    rw [entry_deleteAll dels (by rw [Stores.delete, length_update]; exact h), entry_delete_ite h]
    by_cases hk : key ∈ dels
    · simp [hk]
    · by_cases hk' : key = k <;> simp [hk, hk']

theorem Sound.deleteAll : ∀ (dels : List String) {S : Heap}, Sound S → Sound (deleteAll S id dels)
  | [], _, h => h
  | k :: dels, _, h => Sound.deleteAll dels (h.delete id k)

theorem Sound.setAll : ∀ (sets : List (String × Bytes)) {S : Heap}, Sound S → Sound (setAll S id sets)
  | [], _, h => h
  | e :: sets, _, h => Sound.setAll sets (h.set id e.1 e.2)

theorem mem_sortedNames {s : Finset String} : key ∈ sortedNames s ↔ key ∈ s := by
  have hcoe : (sortedNames s : Multiset String) = s.val := by
    unfold sortedNames
    induction s.val using Quot.inductionOn with
    | h l => exact Quot.sound (List.perm_insertionSort _ l)
  rw [← Finset.mem_val, ← hcoe, Multiset.mem_coe]

/-- The base after the deletions and writes of a commit. -/
def committed (S : Heap) (base : ℕ) (data : Map String Bytes) (del : Finset String) : Heap :=
  setAll (deleteAll S base (sortedNames del)) base (writesOf data)

@[simp] theorem length_committed (S : Heap) (base : ℕ) (data : Map String Bytes) (del : Finset String) :
    (committed S base data del).length = S.length := by
  rw [committed, length_setAll, length_deleteAll]

theorem Sound.commit (h : Sound S) (id : ℕ) : Sound (commit S id) := by
  unfold Stores.commit
  split
  next base data del ho =>
    have hempty : Fine id (.overlay base ∅ ∅) := ⟨(h.fine ho).1, by simp⟩
    exact Sound.update (fun _ => hempty) ((h.deleteAll (sortedNames del)).setAll (writesOf data))
  next => exact h

theorem update_cons (f : StoreObj → StoreObj) (o : StoreObj) (h : id < S.length) :
    update f (o :: S) id = o :: update f S id := by
  rw [Stores.update, if_neg (by omega)]

theorem deleteAll_cons (o : StoreObj) : ∀ (dels : List String) {S : Heap}, id < S.length →
    deleteAll (o :: S) id dels = o :: deleteAll S id dels
  | [], _, _ => rfl
  | k :: dels, S, h => by
    show deleteAll (update (.delete k) (o :: S) id) id dels =
      o :: deleteAll (update (.delete k) S id) id dels
    rw [update_cons _ o h, deleteAll_cons o dels (by rw [length_update]; exact h)]

theorem setAll_cons (o : StoreObj) : ∀ (sets : List (String × Bytes)) {S : Heap}, id < S.length →
    setAll (o :: S) id sets = o :: setAll S id sets
  | [], _, _ => rfl
  | e :: sets, S, h => by
    show setAll (update (.set e.1 e.2) (o :: S) id) id sets =
      o :: setAll (update (.set e.1 e.2) S id) id sets
    rw [update_cons _ o h, setAll_cons o sets (by rw [length_update]; exact h)]

theorem commit_top {data : Map String Bytes} {del : Finset String} (h : base < S.length) :
    commit (.overlay base data del :: S) S.length = .overlay base ∅ ∅ :: committed S base data del := by
  have hlen : S.length = (committed S base data del).length := (length_committed S base data del).symm
  have hwrites : writeAll (.overlay base data del :: S) base (sortedNames del) (writesOf data) =
      .overlay base data del :: committed S base data del := by
    show setAll (deleteAll (.overlay base data del :: S) base (sortedNames del)) base (writesOf data) = _
    rw [deleteAll_cons _ _ h, setAll_cons _ _ (by rw [length_deleteAll]; exact h), committed]
  rw [commit, obj, if_pos rfl]
  show update _ (writeAll (.overlay base data del :: S) base (sortedNames del) (writesOf data))
    S.length = _
  rw [hwrites, hlen, update_top]

theorem entry_committed {data : Map String Bytes} {del : Finset String} (hb : base < S.length)
    (key : String) :
    entry (committed S base data del) base key =
      (data.lookup key).or (if key ∈ del then none else entry S base key) := by
  have hb' : base < (deleteAll S base (sortedNames del)).length := by rw [length_deleteAll]; exact hb
  have hdel : entry (deleteAll S base (sortedNames del)) base key = if key ∈ del then none
      else entry S base key := by
    rw [entry_deleteAll _ hb]
    simp only [mem_sortedNames]
  cases hk : data.lookup key with
  | some v => exact entry_setAll_self hb' (nodup_writesOf data) (mem_writesOf.mpr hk)
  | none =>
    rcases entry_setAll_cases base (writesOf data) (deleteAll S base (sortedNames del)) base
      key with h | ⟨v, hmem, -⟩
    · rw [committed, h, hdel]
      rfl
    · rw [mem_writesOf.mp hmem] at hk
      cases hk

theorem Copy.entry_base (hb : base < S.length) {data : Map String Bytes} {del : Finset String}
    (h : Copy S base m (.overlay base data del)) (key : String) :
    entry (committed S base data del) base key = m.lookup key := by
  obtain ⟨-, hfine, htop⟩ := h
  rw [entry_committed hb, ← htop key, top]
  by_cases hdel : key ∈ del
  · rw [if_pos hdel, if_pos hdel, Finmap.lookup_eq_none.mpr (hfine.2 key hdel)]
    rfl
  · rw [if_neg hdel, if_neg hdel]

/-! ### The overlay as a copy -/

/-- The heaps that come about: in-memory stores with any content, overlays on top of stores that
exist, writes and commits. -/
inductive Made : Heap → Prop
  | empty : Made []
  | mem {S : Heap} (data : Map String Bytes) : Made S → Made (.mem data :: S)
  | overlay {S : Heap} {base : ℕ} : Made S → base < S.length → Made (newOverlayStore S base).1
  | write {S : Heap} (id : ℕ) (w : Write) : Made S → Made (w.onStore id S)
  | commit {S : Heap} (id : ℕ) : Made S → Made (Stores.commit S id)

theorem Made.sound (h : Made S) : Sound S := by
  induction h with
  | empty => exact True.intro
  | mem data _ ih => exact ⟨True.intro, ih⟩
  | overlay _ hb ih => exact ⟨⟨hb, by simp⟩, ih⟩
  | write id w _ ih =>
    cases w with
    | set key val => exact ih.set id key val
    | delete key => exact ih.delete id key
  | commit id _ ih => exact ih.commit id

theorem Shows.cons (o : StoreObj) (hid : id < S.length) (h : Shows S id m) : Shows (o :: S) id m := by
  have hentries : entries (o :: S) id = entries S id := by rw [entries_step, if_neg (by omega)]
  refine ⟨fun key => ?_, ?_, ?_, ?_⟩
  · rw [← h.get key, Stores.get, Stores.get, entry_cons o hid]
  · rw [← h.len, len_eq_length, len_eq_length, hentries]
  · rw [hentries]
    exact h.forEach
  · rw [hentries]
    exact h.once

/-- **An overlay is a private copy until it is committed.** The base shows a map `m`. After any writes
to a fresh overlay on top of it the overlay shows `m` with these writes, and all older stores are what
they were. A commit then makes the base show the map of the overlay, and the overlay still shows it. -/
theorem private_copy (hS : Made S) (hb : base < S.length) (ws : List Write) : ∃ m : Map String Bytes,
    let fresh := newOverlayStore S base
    let written := ws.foldl (Write.onStore fresh.2) fresh.1
    let view := ws.foldl Write.onMap m
    Shows S base m ∧ Shows written fresh.2 view ∧
      (∀ id < S.length, obj written id = obj S id) ∧ Shows written base m ∧
      Shows (commit written fresh.2) base view ∧ Shows (commit written fresh.2) fresh.2 view := by
  obtain ⟨m, hm⟩ := hS.sound.shown base
  have hfresh : Copy S base m (.overlay base ∅ ∅) := by
    refine ⟨⟨∅, ∅, rfl⟩, ⟨hb, by simp⟩, fun key => ?_⟩
    rw [← hm key]
    simp [top]
  have hcopy := hfresh.writes ws
  have hwritten := writes_top (S := S) ws (.overlay base ∅ ∅)
  obtain ⟨data, del, ho⟩ := hcopy.1
  rw [ho] at hcopy hwritten
  have hsound : Sound (.overlay base data del :: S) := ⟨hcopy.2.1, hS.sound⟩
  have hcommit : Sound (commit (.overlay base data del :: S) S.length) := hsound.commit _
  have hbase := shows_of_entry hS.sound hm
  refine ⟨m, ?_⟩
  simp only [newOverlayStore, hwritten]
  rw [commit_top hb] at hcommit ⊢
  refine ⟨hbase, shows_of_entry hsound fun key => ?_, fun id hid => ?_, hbase.cons _ hb,
    shows_of_entry hcommit fun key => ?_, shows_of_entry hcommit fun key => ?_⟩
  · rw [entry_step, if_pos rfl]
    exact hcopy.2.2 key
  · rw [obj, if_neg (by omega)]
  · rw [entry_cons _ (by rw [length_committed]; exact hb)]
    exact hcopy.entry_base hb key
  · rw [entry_step, if_pos (length_committed S base data del).symm, ← hcopy.entry_base hb key]
    simp [top]

/-- An overlay on top of an overlay that has deleted a key, with a key written,
deleted and written again. -/
theorem private_copy_nested : ∃ m : Map String Bytes,
    let below := delete (newOverlayStore [.mem ((∅ : Map String Bytes).insert "a" [1])] 0).1 1 "a"
    let fresh := newOverlayStore below 1
    let written := [Write.set "b" [2], .delete "b", .set "a" [3]].foldl (Write.onStore fresh.2) fresh.1
    Made below ∧ Shows below 1 m ∧ Shows (commit written fresh.2) 1
    (((m.insert "b" [2]).erase "b").insert "a" [3]) := by
  have hmade : Made (delete (newOverlayStore [.mem ((∅ : Map String Bytes).insert "a" [1])] 0).1 1 "a") :=
    .write 1 (.delete "a") (.overlay (.mem _ .empty) (by decide))
  have hbase : 1 < (delete (newOverlayStore [.mem ((∅ : Map String Bytes).insert "a" [1])] 0).1 1
      "a").length := by
    decide
  obtain ⟨m, hm⟩ := private_copy hmade hbase [.set "b" [2], .delete "b", .set "a" [3]]
  exact ⟨m, hmade, hm.1, hm.2.2.2.2.1⟩

end Namecoin.Chain.PrivateCopies
