import Mathlib.Order.WithBot
import XorEditor.SumTree.Keyed

/-!
# Maps as trees

A `TreeMap` is a tree of entries.  The summary of an entry is its key, and adding a summary
replaces the key.

* `TreeMap`: the map
* `Represents`: the list of pairs it stands for
* `get_eq_lookup`, `Represents.insert`: what its calls do to the list
-/

namespace XorEditor.SumTree

open List

universe u

/-- `MapEntry`. -/
@[ext] structure MapEntry (K V : Type u) where
  key : K
  value : V
  deriving DecidableEq

/-- `MapKey`, and `MapKeyRef`: a key, or what is before all keys. -/
@[ext] structure MapKey (K : Type u) where
  key : Option K
  deriving DecidableEq

variable {K V : Type u} [LinearOrder K]

/-- The derived order: no key is before all keys. -/
def MapKey.rank (self : MapKey K) : WithBot K :=
  match self.key with
  | none => ⊥
  | some key => key

omit [LinearOrder K] in
theorem MapKey.rank_injective : Function.Injective (MapKey.rank (K := K)) := by
  rintro ⟨_ | a⟩ ⟨_ | b⟩ h
  · rfl
  · cases h
  · cases h
  · obtain rfl : a = b := WithBot.coe_injective h
    rfl

instance : LinearOrder (MapKey K) := LinearOrder.lift' MapKey.rank MapKey.rank_injective

instance : Summary (MapKey K) where
  add _ b := b
  zero := ⟨none⟩
  add_assoc _ _ _ := rfl
  zero_add _ := rfl

instance : Item (MapEntry K V) (MapKey K) where
  summary entry := ⟨some entry.key⟩

theorem mapKey_lt {a b : K} : (⟨some a⟩ : MapKey K) < ⟨some b⟩ ↔ a < b := WithBot.coe_lt_coe

theorem mapKey_le {a b : K} : (⟨some a⟩ : MapKey K) ≤ ⟨some b⟩ ↔ a ≤ b := WithBot.coe_le_coe

instance : KeyedItem (MapEntry K V) (MapKey K) (MapKey K) where
  key entry := ⟨some entry.key⟩
  zero_le k := show MapKey.rank ⟨none⟩ ≤ k.rank from bot_le
  addItems_key xs x _ := by
    rw [addItems_append]
    rfl

/-- `TreeMap`. -/
abbrev TreeMap (K V : Type u) := Node (MapEntry K V) (MapKey K)

namespace TreeMap

/-- `TreeMap::get`. -/
def get (self : TreeMap K V) (key : K) : Option (Option V) := do
  let (_, _, item) ← self.find (compare (⟨some key⟩ : MapKey K)) .left
  match item with
  | some item => return if key = item.key then some item.value else none
  | none => return none

/-- `TreeMap::insert`. -/
def insert (self : TreeMap K V) (key : K) (value : V) : Option (TreeMap K V) := do
  let (newTree, _) ← self.insertOrReplace ⟨key, value⟩
  return newTree

variable {self : TreeMap K V} {xs ys : List (MapEntry K V)} {k : K} {v : V}

/-- The value of a key in a list of entries. -/
def lookup (xs : List (MapEntry K V)) (k : K) : Option V :=
  (xs.find? fun entry => entry.key = k).map MapEntry.value

theorem sortedKeys_iff : SortedKeys xs ↔ xs.Pairwise fun a b => a.key < b.key :=
  List.Pairwise.iff fun _ _ => mapKey_lt

/-- In the order of the keys, an entry is found if it is there. -/
theorem lookup_eq_some (hxs : SortedKeys xs) : lookup xs k = some v ↔ ⟨k, v⟩ ∈ xs := by
  rw [sortedKeys_iff] at hxs
  induction xs with
  | nil => simp [lookup]
  | cons entry xs ih =>
    obtain ⟨hlt, hxs⟩ := pairwise_cons.1 hxs
    by_cases hkey : entry.key = k
    · have hnot : ⟨k, v⟩ ∉ xs := fun hmem => (hlt _ hmem).ne hkey
      simp [lookup, find?_cons_of_pos, hkey, hnot, MapEntry.ext_iff, eq_comm]
    · have hne : (⟨k, v⟩ : MapEntry K V) ≠ entry := by
        rintro rfl
        exact hkey rfl
      rw [mem_cons, or_iff_right hne, ← ih hxs, lookup, find?_cons_of_neg (by simpa)]
      rfl

theorem lookup_append (h : ∀ entry ∈ xs, entry.key ≠ k) : lookup (xs ++ ys) k = lookup ys k := by
  rw [lookup, find?_append, find?_eq_none.2 (by simpa using h)]
  rfl

/-- `get` finds the value of the key. -/
theorem get_eq_lookup (hholds : self.Holds xs) (hxs : SortedKeys xs) (k : K) :
    self.get k = some (lookup xs k) := by
  have hsorted : SortedKeys ([] ++ xs) := hxs
  obtain ⟨skipped, rest, _, hskipped, hsplit, -, hfind⟩ :=
    findWith_eq Trail.keeps_nothing ⟨⟩ trivial hholds (emptyAdds _ xs)
      (hsorted.ahead : Ahead (compare (⟨some k⟩ : MapKey K)) _ _ _)
  have htake : skippedItems (Walk.seek (compare (⟨some k⟩ : MapKey K)) .left) _ xs = _ :=
    hsorted.skippedItems
  rw [addItems_nil] at htake
  rw [htake] at hskipped
  obtain rfl : xs.dropWhile (fun entry => decide (KeyedItem.key entry < ⟨some k⟩)) = rest := by
    refine append_cancel_left (Eq.trans ?_ hsplit)
    rw [hskipped, takeWhile_append_dropWhile]
  -- the entries that are skipped have lesser keys, the others not
  have hless : ∀ entry ∈ skipped, entry.key ≠ k := by
    intro entry hentry
    rw [hskipped] at hentry
    have hlt := mem_takeWhile_imp hentry
    exact (mapKey_lt.1 (of_decide_eq_true hlt)).ne
  have hgreater : ∀ entry ∈ xs.dropWhile
      (fun entry => decide (KeyedItem.key entry < (⟨some k⟩ : MapKey K))), k ≤ entry.key :=
    fun entry hentry => mapKey_le.1 (hxs.le_of_mem_dropWhile hentry)
  have hdrop : SortedKeys (xs.dropWhile fun entry => decide (KeyedItem.key entry < ⟨some k⟩)) :=
    hxs.sublist (dropWhile_sublist _)
  rw [hsplit, lookup_append hless, get, Node.find, hfind]
  generalize xs.dropWhile (fun entry => decide (KeyedItem.key entry < ⟨some k⟩)) = rest at *
  cases rest with
  | nil => rfl
  | cons entry rest =>
    by_cases hkey : k = entry.key
    · simp [lookup, hkey]
    · have hlt : k < entry.key := (hgreater entry (by simp)).lt_of_ne hkey
      have hnone : lookup (entry :: rest) k = none := by
        rw [lookup, find?_eq_none.2, Option.map_none]
        intro other hother
        rcases mem_cons.1 hother with rfl | hrest
        · simpa using hlt.ne'
        · have hnext := (pairwise_cons.1 (sortedKeys_iff.1 hdrop)).1 other hrest
          simpa using (hlt.trans hnext).ne'
      simp [hkey, hnone]

/-- The map holds the entries, in the order of their keys. -/
structure Represents (map : TreeMap K V) (xs : List (MapEntry K V)) : Prop where
  holds : map.Holds xs
  sorted : SortedKeys xs

/-- `insert` replaces the entry of the key. -/
theorem Represents.insert (h : self.Represents xs) (hlow : self.height < stackCapacity) (k : K)
    (v : V) :
    ∃ inserted, self.insert k v = some inserted ∧ inserted.Represents (insertKey ⟨k, v⟩ xs) := by
  obtain ⟨newTree, replaced, hinsert, hholds⟩ :=
    insertOrReplace_holds ⟨h.holds, hlow⟩ h.sorted ⟨k, v⟩
  exact ⟨newTree, by rw [TreeMap.insert, hinsert]; rfl, hholds, h.sorted.insertKey _⟩

/-- `insert` of a pair. -/
def insertPair (self : TreeMap K V) (pair : K × V) : Option (TreeMap K V) :=
  self.insert pair.1 pair.2

/-- The pairs are inserted one by one. -/
def insertAll (self : TreeMap K V) (pairs : List (K × V)) : Option (TreeMap K V) :=
  pairs.foldlM insertPair self

theorem Represents.insertAll (h : self.Represents xs) (pairs : List (K × V))
    (hlow : self.StaysLow insertPair pairs) :
    ∃ inserted, self.insertAll pairs = some inserted ∧ inserted.Represents
        (pairs.foldl (fun entries pair => insertKey ⟨pair.1, pair.2⟩ entries) xs) := by
  induction pairs generalizing self xs with
  | nil => exact ⟨self, rfl, h⟩
  | cons pair pairs ih =>
    obtain ⟨inserted, hinsert, hrepresents⟩ := h.insert hlow.1 pair.1 pair.2
    obtain ⟨final, hfinal, hrepresents'⟩ := ih hrepresents (hlow.2 inserted hinsert)
    refine ⟨final, ?_, hrepresents'⟩
    rw [TreeMap.insertAll, foldlM_cons, insertPair, hinsert]
    exact hfinal

/-- The entries after pairs with different keys have been inserted. -/
theorem mem_foldl_insertKey {pairs : List (K × V)} (hdistinct : (pairs.map Prod.fst).Nodup)
    {entry : MapEntry K V} :
    entry ∈ pairs.foldl (fun entries pair => insertKey ⟨pair.1, pair.2⟩ entries) xs ↔
      (entry.key, entry.value) ∈ pairs ∨ entry ∈ xs ∧ entry.key ∉ pairs.map Prod.fst := by
  induction pairs generalizing xs with
  | nil => simp
  | cons pair pairs ih =>
    rw [map_cons, nodup_cons] at hdistinct
    have hkey : KeyedItem.key entry ≠ KeyedItem.key (⟨pair.1, pair.2⟩ : MapEntry K V) ↔
        entry.key ≠ pair.1 := by simp [KeyedItem.key]
    have hentry : entry = ⟨pair.1, pair.2⟩ ↔ (entry.key, entry.value) = pair := by
      rw [MapEntry.ext_iff, Prod.ext_iff]
    have hfirst : entry = ⟨pair.1, pair.2⟩ → entry.key ∉ pairs.map Prod.fst := by
      rintro rfl
      exact hdistinct.1
    rw [foldl_cons, ih hdistinct.2, mem_insertKey, hkey, map_cons, mem_cons,
      mem_cons, not_or, ← hentry]
    tauto

end TreeMap
end XorEditor.SumTree
