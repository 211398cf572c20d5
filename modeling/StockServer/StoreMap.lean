import Mathlib.Data.Finmap
import StockServer.Store

set_option relaxedAutoImplicit false
set_option autoImplicit false

/-!
# The store as a finite map

What the tree of `stock_store.c` is for: a finite map from ids to quantities and prices.  Every
sequence of calls of `stock_store_upsert_nolock` and `stock_store_apply_delta_nolock` on an empty
store does to the tree what it does to the map, and moves no node.

## Main definitions

* `StockMap` — the map, with the two operations on it.
* `StoreCall`, `runCalls`, `runMapCalls` — the calls, and a sequence of them on a store and on a
  map.
* `Refines` — the tree is a search tree that stores the map.
* `ChangesOnly` — two trees agree at every position but that of one id, which stays where it is.

## Main results

* `Refines.call`, `refines_runCalls` — one call, and every sequence of calls, keeps the refinement.
* `Refines.find` — search returns the entry of the map.
* `Refines.length_inorder` — there are as many nodes as keys.
* `storeCalls_refine` — **the store refines a finite map**, and its operations move no node; the
  number of items is counted right while it fits an `int`.
-/

namespace StockServer

open SearchTree

/-- A finite map from ids to `(left_stock, price)`. -/
abbrev StockMap := Finmap fun _ : Int32 => Int32 × Int32

/-- What a map holds of an item. -/
def StockItem.entry (item : StockItem) : Int32 × Int32 := (item.leftStock, item.price)

/-- Applying a delta to a map: the entry must be there, and a negative delta must be covered. -/
def StockMap.applyDelta (m : StockMap) (id delta : Int32) : StockStatus × StockMap :=
  match m.lookup id with
  | none => (.errNotFound, m)
  | some (leftStock, price) =>
    if delta < 0 ∧ leftStock < -delta then (.errInsufficient, m)
    else (.ok, m.insert id (leftStock + delta, price))

/-! ## Calls -/

/-- A call that may change a store. -/
inductive StoreCall where
  | upsert (id leftStock price : Int32)
  | applyDelta (id delta : Int32)
  deriving DecidableEq, Repr

/-- A call on a store. -/
def StoreCall.run : StoreCall → StockStore → StockStatus × StockStore
  | .upsert id leftStock price, store => stockStoreUpsertNolock store id leftStock price
  | .applyDelta id delta, store => stockStoreApplyDeltaNolock store id delta

/-- A call on a map. -/
def StoreCall.runMap : StoreCall → StockMap → StockStatus × StockMap
  | .upsert id leftStock price, m => (.ok, m.insert id (leftStock, price))
  | .applyDelta id delta, m => m.applyDelta id delta

/-- The store after a sequence of calls. -/
def runCalls (store : StockStore) (calls : List StoreCall) : StockStore :=
  calls.foldl (fun store call => (call.run store).2) store

/-- The map after a sequence of calls. -/
def runMapCalls (m : StockMap) (calls : List StoreCall) : StockMap :=
  calls.foldl (fun m call => (call.runMap m).2) m

/-! ## The refinement -/

/-- The tree is a search tree by id and stores exactly the entries of the map. -/
structure Refines (store : StockStore) (m : StockMap) : Prop where
  ordered : Ordered store
  lookup : ∀ id, m.lookup id = (findStockItem store id).map StockItem.entry

variable {store store' : StockStore} {m : StockMap}

/-- An empty store refines the empty map. -/
theorem Refines.empty : Refines .nil ∅ := ⟨ordered_nil _, fun id => Finmap.lookup_empty id⟩

/-- An upsert is an insertion into the map. -/
theorem Refines.upsert (h : Refines store m) (id leftStock price : Int32) :
    Refines (upsertStockItem store id leftStock price) (m.insert id (leftStock, price)) := by
  refine ⟨h.ordered.upsert id leftStock price, fun k => ?_⟩
  rw [findStockItem_upsert]
  by_cases hk : k = id
  · subst hk
    rw [Finmap.lookup_insert, if_pos rfl]
    rfl
  · rw [Finmap.lookup_insert_of_ne _ hk, if_neg hk, h.lookup]

/-- An applied delta replaces one entry of the map. -/
theorem Refines.addLeftStock (h : Refines store m) {id : Int32} {item : StockItem}
    (hf : findStockItem store id = some item) (delta : Int32) :
    Refines (addLeftStock store id delta) (m.insert id (item.leftStock + delta, item.price)) := by
  refine ⟨h.ordered.addLeftStock id delta, fun k => ?_⟩
  rw [findStockItem_addLeftStock]
  by_cases hk : k = id
  · subst hk
    rw [Finmap.lookup_insert, if_pos rfl, hf]
    rfl
  · rw [Finmap.lookup_insert_of_ne _ hk, if_neg hk, h.lookup]

/-- Applying a delta to the tree is applying it to the map, with the same status. -/
theorem Refines.applyDelta (h : Refines store m) (id delta : Int32) :
    (stockStoreApplyDeltaNolock store id delta).1 = (m.applyDelta id delta).1 ∧
      Refines (stockStoreApplyDeltaNolock store id delta).2 (m.applyDelta id delta).2 := by
  have hlookup := h.lookup id
  cases hf : findStockItem store id with
  | none =>
    rw [hf, Option.map_none] at hlookup
    rw [applyDelta_none hf]
    simp only [StockMap.applyDelta, hlookup]
    exact ⟨trivial, h⟩
  | some item =>
    rw [hf, Option.map_some, StockItem.entry] at hlookup
    by_cases ha : Applies item delta
    · rw [applyDelta_applies hf ha]
      simp only [StockMap.applyDelta, hlookup]
      rw [if_neg ha]
      exact ⟨rfl, h.addLeftStock hf delta⟩
    · rw [applyDelta_refused hf ha]
      simp only [StockMap.applyDelta, hlookup]
      rw [if_pos (not_not.mp ha)]
      exact ⟨rfl, h⟩

/-- **One call keeps the refinement** and returns the status of the map. -/
theorem Refines.call (h : Refines store m) (call : StoreCall) :
    (call.run store).1 = (call.runMap m).1 ∧ Refines (call.run store).2 (call.runMap m).2 := by
  cases call with
  | upsert id leftStock price => exact ⟨rfl, h.upsert id leftStock price⟩
  | applyDelta id delta => exact h.applyDelta id delta

/-- **Every sequence of calls keeps the refinement.** -/
theorem Refines.runCalls (h : Refines store m) (calls : List StoreCall) :
    Refines (runCalls store calls) (runMapCalls m calls) := by
  induction calls generalizing store m with
  | nil => exact h
  | cons call calls ih => exact ih (h.call call).2

/-- Search returns the entry of the map. -/
theorem Refines.find (h : Refines store m) (id : Int32) : stockStoreFindNolock store id =
    match m.lookup id with
    | none => (.errNotFound, none)
    | some entry => (.ok, some ⟨id, entry.1, entry.2⟩) := by
  rw [h.lookup, stockStoreFindNolock]
  cases hf : findStockItem store id with
  | none => rfl
  | some item =>
    obtain ⟨-, rfl⟩ := (findStockItem_eq_some_iff h.ordered).mp hf
    rfl

/-- **There are as many nodes as keys.** -/
theorem Refines.length_inorder (h : Refines store m) : (inorder store).length = m.keys.card := by
  have hnodup : ((inorder store).map StockItem.id).Nodup :=
    List.Pairwise.map _ (fun a b hab heq => hab.ne (congrArg Int32.toInt heq)) h.ordered
  have hkeys : m.keys = ((inorder store).map StockItem.id).toFinset := by
    ext id
    rw [Finmap.mem_keys, ← Finmap.lookup_isSome, h.lookup, Option.isSome_map,
      Option.isSome_iff_exists, List.mem_toFinset, List.mem_map]
    exact exists_congr fun item => findStockItem_eq_some_iff h.ordered
  rw [hkeys, List.toFinset_card_of_nodup hnodup, List.length_map]

/-! ## Positions -/

/-- The two trees agree at every position of another id, and the record of `id`, if there is one,
stays where it is. -/
structure ChangesOnly (id : Int32) (store store' : StockStore) : Prop where
  others : ∀ p item, item.id ≠ id → (recordAt p store' = some item ↔ recordAt p store = some item)
  stays : ∀ p item, recordAt p store = some item → item.id = id →
    ∃ item', recordAt p store' = some item' ∧ item'.id = id

/-- An upsert changes one record, and no position. -/
theorem changesOnly_upsert (h : Ordered store) (id leftStock price : Int32) :
    ChangesOnly id store (upsertStockItem store id leftStock price) := by
  have hkey : ∀ item : StockItem, item.key = id.toInt ↔ item.id = id := fun _ => Int32.toInt_inj
  have hsame : ∀ item : StockItem, StockItem.key { item with leftStock, price } = item.key :=
    fun _ => rfl
  rw [upsertStockItem_eq]
  constructor
  · intro p item hid
    have hne : item.key ≠ StockItem.key ⟨id, leftStock, price⟩ := mt (hkey item).mp hid
    constructor
    · intro hp
      exact recordAt_of_upsert _ hsame hp hne
    · intro hp
      rw [recordAt_upsert _ h hp, if_neg hne]
  · intro p item hp hid
    have heq : item.key = StockItem.key ⟨id, leftStock, price⟩ := (hkey item).mpr hid
    exact ⟨_, recordAt_upsert _ h hp, by rw [if_pos heq]; exact hid⟩

/-- A delta is applied to one record at most, where it is. -/
theorem recordAt_applyDelta (h : Ordered store) (id delta : Int32) (p : List Bool) :
    recordAt p (stockStoreApplyDeltaNolock store id delta).2 = (recordAt p store).map fun item =>
      if item.id = id ∧ (stockStoreApplyDeltaNolock store id delta).1 = .ok then
        item.withLeftStock (item.leftStock + delta)
      else item := by
  by_cases hok : (stockStoreApplyDeltaNolock store id delta).1 = .ok
  · have hstore : (stockStoreApplyDeltaNolock store id delta).2 = addLeftStock store id delta := by
      cases hf : findStockItem store id with
      | none => rw [applyDelta_none hf] at hok; cases hok
      | some item =>
        by_cases ha : Applies item delta
        · rw [applyDelta_applies hf ha]
        · rw [applyDelta_refused hf ha] at hok; cases hok
    rw [hstore, addLeftStock_eq, recordAt_adjust _ h]
    simp only [StockItem.key, Int32.toInt_inj, hok, and_true]
  · rw [applyDelta_store_of_ne_ok hok]
    simp [hok]

/-! ## Counting in an `int` -/

/-- A count is right as an `int` if and only if it is at most `INT_MAX`. -/
theorem toInt_ofNat_eq_iff (n : ℕ) : (Int32.ofNat n).toInt = n ↔ n < 2 ^ 31 := by
  have hlt := (Int32.ofNat n).toInt_lt
  constructor
  · intro h
    omega
  · intro h
    exact Int32.toInt_ofNat_of_lt h

/-! ## The theorem -/

/-- **The store refines a finite map.**  After every sequence of calls on an empty store: the tree
is search-ordered; a search returns the entry of the map; an upsert changes one key and moves no
record; a delta is applied to one record at most, and the shape stays; and the count is the number
of keys if and only if that is an `int`. -/
theorem storeCalls_refine (calls : List StoreCall) :
    let store := runCalls .nil calls
    let m := runMapCalls ∅ calls
    Ordered store ∧
      (∀ id, stockStoreFindNolock store id =
        match m.lookup id with
        | none => (.errNotFound, none)
        | some entry => (.ok, some ⟨id, entry.1, entry.2⟩)) ∧
      (∀ call : StoreCall, (call.run store).1 = (call.runMap m).1) ∧
      (∀ id leftStock price, ∃ store',
        stockStoreUpsertNolock store id leftStock price = (.ok, store') ∧
        ChangesOnly id store store' ∧
        ∀ k, findStockItem store' k =
          if k = id then some ⟨id, leftStock, price⟩ else findStockItem store k) ∧
      (∀ id delta p, recordAt p (stockStoreApplyDeltaNolock store id delta).2 =
        (recordAt p store).map fun item =>
          if item.id = id ∧ (stockStoreApplyDeltaNolock store id delta).1 = .ok then
            item.withLeftStock (item.leftStock + delta)
          else item) ∧
      (stockStoreCount store).1 = .ok ∧
      ((stockStoreCount store).2.toInt = m.keys.card ↔ m.keys.card < 2 ^ 31) := by
  intro store m
  have h : Refines store m := Refines.empty.runCalls calls
  refine ⟨h.ordered, h.find, fun call => (h.call call).1, fun id leftStock price => ?_,
    recordAt_applyDelta h.ordered, ?_, ?_⟩
  · exact ⟨_, rfl, changesOnly_upsert h.ordered id leftStock price,
      findStockItem_upsert store id leftStock price⟩
  · rw [stockStoreCount_eq]
  · rw [stockStoreCount_eq, h.length_inorder]
    exact toInt_ofNat_eq_iff _

/-! ## Too many keys -/

/-- Upserts of the ids from `0` to `n - 1`. -/
def upsertsBelow (n : ℕ) : List StoreCall :=
  (List.range n).map fun i => .upsert (Int32.ofNat i) 0 0

/-- The keys after upserts of some ids are these ids and those before. -/
theorem mem_runMapCalls_upserts (l : List ℕ) (m : StockMap) (k : Int32) :
    k ∈ runMapCalls m (l.map fun i => .upsert (Int32.ofNat i) 0 0) ↔
      k ∈ l.map Int32.ofNat ∨ k ∈ m := by
  induction l generalizing m with
  | nil => simp [runMapCalls]
  | cons i l ih =>
    have hstep : runMapCalls m ((i :: l).map fun i => .upsert (Int32.ofNat i) 0 0) =
        runMapCalls (m.insert (Int32.ofNat i) (0, 0))
          (l.map fun i => .upsert (Int32.ofNat i) 0 0) := rfl
    rw [hstep, ih, Finmap.mem_insert, List.map_cons, List.mem_cons]
    tauto

/-- Up to `2 ^ 31` of these ids are distinct. -/
theorem card_keys_upsertsBelow {n : ℕ} (hn : n ≤ 2 ^ 31) :
    (runMapCalls ∅ (upsertsBelow n)).keys.card = n := by
  have hinj : ∀ i ∈ List.range n, ∀ j ∈ List.range n, Int32.ofNat i = Int32.ofNat j → i = j := by
    intro i hi j hj hij
    have hi' := (toInt_ofNat_eq_iff i).mpr (lt_of_lt_of_le (List.mem_range.mp hi) hn)
    have hj' := (toInt_ofNat_eq_iff j).mpr (lt_of_lt_of_le (List.mem_range.mp hj) hn)
    rw [hij, hj'] at hi'
    exact_mod_cast hi'.symm
  have hkeys : (runMapCalls ∅ (upsertsBelow n)).keys =
      ((List.range n).map Int32.ofNat).toFinset := by
    ext k
    rw [Finmap.mem_keys, upsertsBelow, mem_runMapCalls_upserts, List.mem_toFinset]
    simp only [Finmap.notMem_empty, or_false]
  rw [hkeys, List.toFinset_card_of_nodup (List.Nodup.map_on hinj List.nodup_range),
    List.length_map, List.length_range]

/-- **The count of `2 ^ 31` items is negative**: `(*count)++` has gone past `INT_MAX`. -/
theorem count_overflows :
    let store := runCalls .nil (upsertsBelow (2 ^ 31))
    let m := runMapCalls ∅ (upsertsBelow (2 ^ 31))
    m.keys.card = 2 ^ 31 ∧ (stockStoreCount store).2 = -2147483648 ∧
      (stockStoreCount store).2.toInt ≠ m.keys.card := by
  intro store m
  have hcard : m.keys.card = 2 ^ 31 := card_keys_upsertsBelow (le_refl (2 ^ 31))
  have hcount : (stockStoreCount store).2 = -2147483648 := by
    rw [stockStoreCount_eq, (Refines.empty.runCalls _).length_inorder]
    exact congrArg Int32.ofNat hcard
  refine ⟨hcard, hcount, ?_⟩
  rw [hcount, hcard]
  decide

end StockServer
