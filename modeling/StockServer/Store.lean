import Mathlib.Data.Int.Basic
import Mathlib.Order.Basic
import StockServer.Stock
import StockServer.Lib.SearchTree

set_option relaxedAutoImplicit false
set_option autoImplicit false

/-!
# The stock store

The in-memory store of `stock_store.c`: an unbalanced binary search tree of stock items.  A C
pointer to a node stands for the path of comparisons that leads to it, so writing through the
pointer that a search returned is an update at the end of that search.  The mutex of the store is
part of the worker model, not of this one.

## Main definitions

* `StockItem`, `StockStore` — the payload of a node, and the tree.
* `findStockItem`, `upsertStockItem`, `stockStoreApplyDeltaNolock`, `stockStoreInorderWalk`,
  `stockStoreCount` — the operations, under the names of the source.
* `Applies` — the check before a delta is added.
* `SameMap` — two stores hold the same records.
* `visitAll` — a visit of a list of items that stops at the first error.

## Main results

* `findStockItem_eq`, `upsertStockItem_eq`, `addLeftStock_eq` — the operations are those of a search
  tree keyed by the item's id.
* `stockStoreInorderWalk_eq` — the walk visits the items in order and stops at the first error.
* `stockStoreCount_eq` — the count is the number of nodes, in the arithmetic of `int`.
* `findStockItem_addLeftStock` — an applied delta changes one `left_stock` and nothing else.
* `applyDelta_none`, `applyDelta_applies`, `applyDelta_refused` — the three outcomes of a delta.
-/

namespace StockServer

open SearchTree

/-- The payload of a `stock_item_t` node. -/
structure StockItem where
  id : Int32
  leftStock : Int32
  price : Int32
  deriving DecidableEq, Repr

/-- `stock_store_t`: the tree under `root`. -/
abbrev StockStore := BinaryTree StockItem

/-- The search key of an item: its id as a number. -/
def StockItem.key (item : StockItem) : ℤ := item.id.toInt

/-- The item with another `left_stock`. -/
def StockItem.withLeftStock (item : StockItem) (leftStock : Int32) : StockItem :=
  { item with leftStock := leftStock }

/-! ## The operations -/

/-- `find_stock_item`. -/
def findStockItem : StockStore → Int32 → Option StockItem
  | .nil, _ => none
  | .node item left right, id =>
    if id < item.id then findStockItem left id
    else if id > item.id then findStockItem right id
    else some item

/-- `upsert_stock_item`. -/
def upsertStockItem : StockStore → Int32 → Int32 → Int32 → StockStore
  | .nil, id, leftStock, price => .node ⟨id, leftStock, price⟩ .nil .nil
  | .node item left right, id, leftStock, price =>
    if id < item.id then .node item (upsertStockItem left id leftStock price) right
    else if id > item.id then .node item left (upsertStockItem right id leftStock price)
    else .node { item with leftStock := leftStock, price := price } left right

/-- `stock_store_find_nolock`. -/
def stockStoreFindNolock (store : StockStore) (id : Int32) : StockStatus × Option StockItem :=
  match findStockItem store id with
  | none => (.errNotFound, none)
  | some item => (.ok, some item)

/-- `stock_store_upsert_nolock`. -/
def stockStoreUpsertNolock (store : StockStore) (id leftStock price : Int32) :
    StockStatus × StockStore :=
  (.ok, upsertStockItem store id leftStock price)

/-- `item->left_stock += delta` through the pointer that the search for `id` returned. -/
def addLeftStock : StockStore → Int32 → Int32 → StockStore
  | .nil, _, _ => .nil
  | .node item left right, id, delta =>
    if id < item.id then .node item (addLeftStock left id delta) right
    else if id > item.id then .node item left (addLeftStock right id delta)
    else .node (item.withLeftStock (item.leftStock + delta)) left right

/-- `stock_store_apply_delta_nolock`. -/
def stockStoreApplyDeltaNolock (store : StockStore) (id delta : Int32) :
    StockStatus × StockStore :=
  match findStockItem store id with
  | none => (.errNotFound, store)
  | some item =>
    if delta < 0 ∧ item.leftStock < -delta then (.errInsufficient, store)
    else (.ok, addLeftStock store id delta)

/-- `stock_store_inorder_walk`, for a visitor with any effect. -/
def stockStoreInorderWalk {m : Type → Type} [Monad m] (visit : StockItem → m StockStatus) :
    StockStore → m StockStatus
  | .nil => pure .ok
  | .node item left right => do
    let status ← stockStoreInorderWalk visit left
    if status ≠ .ok then return status
    let status ← visit item
    if status ≠ .ok then return status
    stockStoreInorderWalk visit right

/-- `count_stock_item`, as a visitor with the counter as its state. -/
def countStockItem (_ : StockItem) : StateM Int32 StockStatus := fun count => (.ok, count + 1)

/-- `stock_store_count`: the status and `*count`, an `int`. -/
def stockStoreCount (store : StockStore) : StockStatus × Int32 :=
  (stockStoreInorderWalk countStockItem store).run 0

/-! ## The operations on a search tree -/

theorem id_lt_iff {id : Int32} {item : StockItem} : id < item.id ↔ id.toInt < item.key :=
  Int32.lt_iff_toInt_lt

theorem lt_id_iff {id : Int32} {item : StockItem} : id > item.id ↔ item.key < id.toInt :=
  Int32.lt_iff_toInt_lt

/-- `find_stock_item` is search by id. -/
theorem findStockItem_eq (store : StockStore) (id : Int32) :
    findStockItem store id = search StockItem.key id.toInt store := by
  induction store with
  | nil => rfl
  | node item left right hl hr => simp only [findStockItem, search, hl, hr, id_lt_iff, lt_id_iff]

/-- `upsert_stock_item` is insertion or update in place by id. -/
theorem upsertStockItem_eq (store : StockStore) (id leftStock price : Int32) :
    upsertStockItem store id leftStock price = upsert StockItem.key ⟨id, leftStock, price⟩
      (fun item => { item with leftStock := leftStock, price := price }) store := by
  induction store with
  | nil => rfl
  | node item left right hl hr =>
    simp only [upsertStockItem, upsert, hl, hr, id_lt_iff, lt_id_iff]
    rfl

/-- The assignment through a pointer updates the record under its id. -/
theorem addLeftStock_eq (store : StockStore) (id delta : Int32) :
    addLeftStock store id delta = adjust StockItem.key id.toInt
      (fun item => item.withLeftStock (item.leftStock + delta)) store := by
  induction store with
  | nil => rfl
  | node item left right hl hr =>
    simp only [addLeftStock, adjust, hl, hr, id_lt_iff, lt_id_iff]

/-- A search tree by id. -/
def Ordered (store : StockStore) : Prop := SearchTree.Ordered StockItem.key store

/-- On a search tree, an item is found under its id exactly when it is in the tree. -/
theorem findStockItem_eq_some_iff {store : StockStore} (h : Ordered store) {id : Int32}
    {item : StockItem} :
    findStockItem store id = some item ↔ item ∈ inorder store ∧ item.id = id := by
  rw [findStockItem_eq, search_eq_some_iff _ h, StockItem.key, Int32.toInt_inj]

/-- An upsert keeps the search order. -/
theorem Ordered.upsert {store : StockStore} (h : Ordered store) (id leftStock price : Int32) :
    Ordered (upsertStockItem store id leftStock price) := by
  rw [upsertStockItem_eq]
  exact SearchTree.Ordered.upsert _ (by simp [StockItem.key]) h

/-- Search after an upsert. -/
theorem findStockItem_upsert (store : StockStore) (id leftStock price k : Int32) :
    findStockItem (upsertStockItem store id leftStock price) k =
      if k = id then some ⟨id, leftStock, price⟩ else findStockItem store k := by
  rw [findStockItem_eq, upsertStockItem_eq, search_upsert _ (by simp [StockItem.key]),
    findStockItem_eq]
  simp only [StockItem.key, Int32.toInt_inj]
  split_ifs with hk
  · subst hk
    cases hs : search StockItem.key k.toInt store with
    | none => rfl
    | some item =>
      obtain rfl : item.id = k := Int32.toInt_inj.mp (search_some _ hs).2
      rfl
  · rfl

/-- Search after an assignment to `left_stock`. -/
theorem findStockItem_addLeftStock (store : StockStore) (id delta k : Int32) :
    findStockItem (addLeftStock store id delta) k = if k = id
      then (findStockItem store k).map fun item => item.withLeftStock (item.leftStock + delta)
      else findStockItem store k := by
  have hkey : ∀ item : StockItem,
      (item.withLeftStock (item.leftStock + delta)).key = item.key := fun _ => rfl
  rw [findStockItem_eq, addLeftStock_eq, search_adjust _ hkey, findStockItem_eq]
  simp only [Int32.toInt_inj]

/-- An assignment to `left_stock` keeps the search order. -/
theorem Ordered.addLeftStock {store : StockStore} (h : Ordered store) (id delta : Int32) :
    Ordered (addLeftStock store id delta) := by
  have hkey : ∀ item : StockItem,
      (item.withLeftStock (item.leftStock + delta)).key = item.key := fun _ => rfl
  rw [addLeftStock_eq]
  exact SearchTree.Ordered.adjust StockItem.key hkey h _

/-- An assignment to `left_stock` in the list of items. -/
theorem inorder_addLeftStock {store : StockStore} (h : Ordered store) (id delta : Int32) :
    inorder (addLeftStock store id delta) = (inorder store).map fun item =>
      if item.id = id then item.withLeftStock (item.leftStock + delta) else item := by
  have hkey : ∀ item : StockItem,
      (item.withLeftStock (item.leftStock + delta)).key = item.key := fun _ => rfl
  rw [addLeftStock_eq, inorder_adjust StockItem.key h]
  simp only [StockItem.key, Int32.toInt_inj]

/-- An assignment to `left_stock` keeps the shape of the tree, the ids and the prices. -/
theorem frame_addLeftStock (store : StockStore) (id delta : Int32) :
    (addLeftStock store id delta).map (fun item => (item.id, item.price)) =
      store.map fun item => (item.id, item.price) := by
  have hview : ∀ item : StockItem, (fun item : StockItem => (item.id, item.price))
      (item.withLeftStock (item.leftStock + delta)) = (item.id, item.price) := fun _ => rfl
  rw [addLeftStock_eq, map_adjust StockItem.key _ hview]

/-! ## Applying a delta -/

/-- The check of `stock_store_apply_delta_nolock` lets this delta through. -/
def Applies (item : StockItem) (delta : Int32) : Prop := ¬ (delta < 0 ∧ item.leftStock < -delta)

instance (item : StockItem) (delta : Int32) : Decidable (Applies item delta) :=
  inferInstanceAs (Decidable (¬ _))

theorem applyDelta_none {store : StockStore} {id : Int32} (h : findStockItem store id = none)
    (delta : Int32) : stockStoreApplyDeltaNolock store id delta = (.errNotFound, store) := by
  simp [stockStoreApplyDeltaNolock, h]

theorem applyDelta_applies {store : StockStore} {id delta : Int32} {item : StockItem}
    (h : findStockItem store id = some item) (ha : Applies item delta) :
    stockStoreApplyDeltaNolock store id delta = (.ok, addLeftStock store id delta) := by
  simp only [stockStoreApplyDeltaNolock, h]
  exact if_neg ha

theorem applyDelta_refused {store : StockStore} {id delta : Int32} {item : StockItem}
    (h : findStockItem store id = some item) (ha : ¬ Applies item delta) :
    stockStoreApplyDeltaNolock store id delta = (.errInsufficient, store) := by
  simp only [stockStoreApplyDeltaNolock, h]
  exact if_pos (not_not.mp ha)

/-- A delta that is not applied leaves the store as it is. -/
theorem applyDelta_store_of_ne_ok {store : StockStore} {id delta : Int32}
    (h : (stockStoreApplyDeltaNolock store id delta).1 ≠ .ok) :
    (stockStoreApplyDeltaNolock store id delta).2 = store := by
  cases hf : findStockItem store id with
  | none => rw [applyDelta_none hf]
  | some item =>
    by_cases ha : Applies item delta
    · rw [applyDelta_applies hf ha] at h; exact absurd rfl h
    · rw [applyDelta_refused hf ha]

/-- Applying a delta keeps the search order. -/
theorem Ordered.applyDelta {store : StockStore} (h : Ordered store) (id delta : Int32) :
    Ordered (stockStoreApplyDeltaNolock store id delta).2 := by
  cases hf : findStockItem store id with
  | none => rwa [applyDelta_none hf]
  | some item =>
    by_cases ha : Applies item delta
    · rw [applyDelta_applies hf ha]
      exact h.addLeftStock id delta
    · rwa [applyDelta_refused hf ha]

/-! ## The map a store holds -/

/-- Two stores hold the same records. -/
def SameMap (store₁ store₂ : StockStore) : Prop :=
  ∀ id, findStockItem store₁ id = findStockItem store₂ id

theorem SameMap.refl (store : StockStore) : SameMap store store := fun _ => rfl

theorem SameMap.symm {store₁ store₂ : StockStore} (h : SameMap store₁ store₂) :
    SameMap store₂ store₁ := fun id => (h id).symm

theorem SameMap.trans {store₁ store₂ store₃ : StockStore} (h₁ : SameMap store₁ store₂)
    (h₂ : SameMap store₂ store₃) : SameMap store₁ store₃ := fun id => (h₁ id).trans (h₂ id)

/-! ## Walks -/

/-- Visit a list of items up to the first error. -/
def visitAll {m : Type → Type} [Monad m] (visit : StockItem → m StockStatus) :
    List StockItem → m StockStatus
  | [] => pure .ok
  | item :: items => do
    let status ← visit item
    if status ≠ .ok then return status
    visitAll visit items

/-- A visit of a concatenated list. -/
theorem visitAll_append {m : Type → Type} [Monad m] [LawfulMonad m]
    (visit : StockItem → m StockStatus) (l₁ l₂ : List StockItem) :
    visitAll visit (l₁ ++ l₂) = visitAll visit l₁ >>= fun status =>
      if status ≠ .ok then pure status else visitAll visit l₂ := by
  induction l₁ with
  | nil => simp [visitAll]
  | cons item l₁ ih =>
    simp only [List.cons_append, visitAll, ih, bind_assoc]
    refine bind_congr fun status => ?_
    by_cases h : status = .ok <;> simp [h]

/-- A visit of one item and the rest of a list, by a visitor with a state. -/
theorem run_visitAll {σ : Type} (visit : StockItem → StateM σ StockStatus) (item : StockItem)
    (items : List StockItem) (s : σ) :
    (visitAll visit (item :: items)).run s =
      if ((visit item).run s).1 = .ok then (visitAll visit items).run ((visit item).run s).2
      else (visit item).run s := by
  rw [visitAll, StateT.run_bind]
  rcases (visit item).run s with ⟨status, s'⟩
  by_cases hok : status = .ok
  · subst hok
    rfl
  · rw [if_neg hok]
    exact congrArg (fun rest => StateT.run rest s') (if_pos hok)

/-- **The walk visits the items in order** and stops at the first error. -/
theorem stockStoreInorderWalk_eq {m : Type → Type} [Monad m] [LawfulMonad m]
    (visit : StockItem → m StockStatus) (store : StockStore) :
    stockStoreInorderWalk visit store = visitAll visit (inorder store) := by
  induction store with
  | nil => rfl
  | node item left right hl hr =>
    rw [inorder_node, visitAll_append, stockStoreInorderWalk, hl, hr, visitAll]

/-- **The count is the number of nodes**, in the arithmetic of `int`. -/
theorem stockStoreCount_eq (store : StockStore) :
    stockStoreCount store = (.ok, Int32.ofNat (inorder store).length) := by
  have hvisit : ∀ (items : List StockItem) (count : Int32),
      (visitAll countStockItem items).run count = (.ok, count + Int32.ofNat items.length) := by
    intro items
    induction items with
    | nil =>
      intro count
      have hzero : count + Int32.ofNat 0 = count := Int32.add_zero count
      rw [List.length_nil, hzero]
      rfl
    | cons item items ih =>
      intro count
      have hstep : (visitAll countStockItem (item :: items)).run count =
          (visitAll countStockItem items).run (count + 1) := rfl
      rw [hstep, ih, Int32.add_assoc, Int32.add_comm 1, List.length_cons, Int32.ofNat_add]
      rfl
  rw [stockStoreCount, stockStoreInorderWalk_eq, hvisit, Int32.zero_add]

end StockServer
