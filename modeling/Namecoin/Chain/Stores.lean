import Namecoin.Lib.Maps
import Namecoin.Types.Defs

/-! # Stores

The key-value stores chains are kept in: the in-memory store of `storage/inmemory` and the
`overlayStore` of `namecoin_chain_service.go`, which reads through to another store and keeps its
own writes until they are committed. Stores are shared by reference, so they live in a heap:
`Heap` is the list of all stores made so far, the newest first, and a store is named by the number
of stores older than it. The base of an overlay is older than the overlay, so a read only ever
looks further down the list. -/

namespace Namecoin.Chain.Stores

open Lib.Maps Lib.ByteStrings Types.Defs

/-- A store: an in-memory store, or an overlay with its base, its writes and its deletions. -/
inductive StoreObj
  | mem (data : Map String Bytes)
  | overlay (base : ℕ) (data : Map String Bytes) (del : Finset String)

/-- All stores, newest first. -/
abbrev Heap := List StoreObj

/-- The entry of a key in the store number `id`. -/
def entry : Heap → ℕ → String → Option Bytes
  | [], _, _ => none
  | o :: older, id, key =>
    if id = older.length then
      match o with
      | .mem data => data.lookup key
      | .overlay base data del =>
        if key ∈ del then none else (data.lookup key).or (entry older base key)
    else entry older id key

/-- `Get`: nil if there is no entry or an empty one. -/
def get (S : Heap) (id : ℕ) (key : String) : Slice UInt8 :=
  match entry S id key with
  | none => none
  | some v => cloneBytes (some v)

/-- Change the store number `id`. -/
def update (f : StoreObj → StoreObj) : Heap → ℕ → Heap
  | [], _ => []
  | o :: older, id => if id = older.length then f o :: older else o :: update f older id

/-- `Set` on one store. -/
def StoreObj.set (key : String) (val : Bytes) : StoreObj → StoreObj
  | .mem data => .mem (data.insert key val)
  | .overlay base data del => .overlay base (data.insert key val) (del.erase key)

/-- `Delete` on one store. -/
def StoreObj.delete (key : String) : StoreObj → StoreObj
  | .mem data => .mem (data.erase key)
  | .overlay base data del => .overlay base (data.erase key) (insert key del)

def set (S : Heap) (id : ℕ) (key : String) (val : Bytes) : Heap := update (.set key val) S id

def delete (S : Heap) (id : ℕ) (key : String) : Heap := update (.delete key) S id

/-- The store number `id`. -/
def obj : Heap → ℕ → Option StoreObj
  | [], _ => none
  | o :: older, id => if id = older.length then some o else obj older id

/-- `newOverlayStore`: the new store and its number. -/
def newOverlayStore (S : Heap) (base : ℕ) : Heap × ℕ := (.overlay base ∅ ∅ :: S, S.length)

/-- The base of an overlay. -/
def baseOf (S : Heap) (id : ℕ) : Option ℕ :=
  match obj S id with
  | some (.overlay base _ _) => some base
  | _ => none

/-- Deletions and then writes on the store number `id`. -/
def writeAll (S : Heap) (id : ℕ) (dels : List String) (sets : List (String × Bytes)) : Heap :=
  sets.foldl (fun S e => set S id e.1 e.2) (dels.foldl (fun S k => delete S id k) S)

/-- The keys of a set in order. -/
def sortedNames (s : Finset String) : List String :=
  Quot.liftOn s.val (List.insertionSort fun a b : String => a ≤ b) fun a b h =>
    ((List.perm_insertionSort _ a).trans (h.trans (List.perm_insertionSort _ b).symm)).eq_of_pairwise'
      (List.pairwise_insertionSort _ a) (List.pairwise_insertionSort _ b)

/-- `Commit`: the deletions and writes of an overlay are made in its base, and the
overlay is empty again. -/
def commit (S : Heap) (id : ℕ) : Heap :=
  match obj S id with
  | some (.overlay base data del) =>
    update (fun _ => .overlay base ∅ ∅)
      (writeAll S base (sortedNames del) (sortedEntries (fun a b : String => a ≤ b) data)) id
  | _ => S

/-- The entries `ForEach` visits: an overlay shows its own writes first. Go visits the entries of a map
in no fixed order; here they are taken in the order of the keys. -/
def entries : Heap → ℕ → List (String × Bytes)
  | [], _ => []
  | o :: older, id =>
    if id = older.length then
      match o with
      | .mem data => sortedEntries (fun a b : String => a ≤ b) data
      | .overlay base data del =>
        sortedEntries (fun a b : String => a ≤ b) data ++
          (entries older base).filter fun e => e.1 ∉ del ∧ e.1 ∉ data
    else entries older id

/-- `Len`: an in-memory store knows the size of its map, an overlay counts what `ForEach` visits. -/
def len : Heap → ℕ → ℕ
  | [], _ => 0
  | o :: older, id =>
    if id = older.length then
      match o with
      | .mem data => data.keys.card
      | .overlay _ _ _ => (entries (o :: older) id).length
    else len older id

end Namecoin.Chain.Stores
