import StockServer.Lib.HeapTree
import StockServer.StoreMap

set_option relaxedAutoImplicit false
set_option autoImplicit false

/-!
# The store in the heap

The functions of `stock_store.c` on `stock_item_t` cells and pointers: nodes come from `Malloc`,
links are written back on the way up from an insertion, and the tree is released node by node.  Each
function does to the tree under `root` what its counterpart on trees does, touches no other cell,
and meets neither a null nor a dangling pointer.

## Main definitions

* `StoreHeap.makeStockItem`, `findStockItem`, `upsertStockItem`, `stockStoreApplyDeltaNolock`,
  `stockStoreInorderWalk`, `freeStockTree` and their callers — the functions of the source.
* `StoreHeap.contents`, `StoreHeap.upsertAt`, `StoreHeap.applyDeltaAt` — the tree of records that a
  tree of nodes holds, and what an insertion and a delta do to the nodes.

## Main results

* `StoreHeap.does_findStockItem`, `StoreHeap.does_upsertStockItem`, `StoreHeap.does_applyDelta`,
  `StoreHeap.does_stockStoreInorderWalk`, `StoreHeap.does_freeStockTree` — one call each.
-/

namespace StockServer

open SearchTree HeapTree HeapProg

namespace StoreHeap

variable {σ : Type}

/-! ## The functions -/

/-- A function over the heap of `stock_item_t` cells. -/
abbrev StoreProg (σ α : Type) := HeapProg (TreeCell StockItem) σ α

/-- The allocator of the process. -/
abbrev StoreAllocator (σ : Type) := Allocator (TreeCell StockItem) σ

/-- `make_stock_item`. -/
def makeStockItem (A : StoreAllocator σ) (id leftStock price : Int32) : StoreProg σ Addr :=
  malloc A ⟨⟨id, leftStock, price⟩, 0, 0⟩

/-- `find_stock_item`, on a stack with this many frames left. -/
def findStockItem : ℕ → Addr → Int32 → StoreProg σ Addr
  | 0, _, _ => overflow
  | frames + 1, node, id =>
    if node = 0 then pure 0
    else do
      let cell ← load node
      if id < cell.value.id then findStockItem frames cell.left id
      else if id > cell.value.id then findStockItem frames cell.right id
      else pure node

/-- `upsert_stock_item`. -/
def upsertStockItem (A : StoreAllocator σ) :
    ℕ → Addr → Int32 → Int32 → Int32 → StoreProg σ Addr
  | 0, _, _, _, _ => overflow
  | frames + 1, node, id, leftStock, price =>
    if node = 0 then makeStockItem A id leftStock price
    else do
      let cell ← load node
      if id < cell.value.id then
        let left ← upsertStockItem A frames cell.left id leftStock price
        update node fun cell => { cell with left := left }
        pure node
      else if id > cell.value.id then
        let right ← upsertStockItem A frames cell.right id leftStock price
        update node fun cell => { cell with right := right }
        pure node
      else
        update node fun cell =>
          { cell with value := { cell.value with leftStock := leftStock, price := price } }
        pure node

/-- `stock_store_init`: the status and `store->root`; `rc` is the report of
`pthread_mutex_init`. -/
def stockStoreInit (rc : Int32) : StockStatus × Addr :=
  if rc ≠ 0 then (.errInternal, 0) else (.ok, 0)

/-- `stock_store_find_nolock`: the status and `*item`. -/
def stockStoreFindNolock (frames : ℕ) (root : Addr) (id : Int32) :
    StoreProg σ (StockStatus × Addr) := do
  let item ← findStockItem frames root id
  if item = 0 then pure (.errNotFound, item)
  else pure (.ok, item)

/-- `stock_store_upsert_nolock`: the status and `store->root`. -/
def stockStoreUpsertNolock (A : StoreAllocator σ) (frames : ℕ) (root : Addr)
    (id leftStock price : Int32) : StoreProg σ (StockStatus × Addr) := do
  let root ← upsertStockItem A frames root id leftStock price
  pure (.ok, root)

/-- `stock_store_apply_delta_nolock`. -/
def stockStoreApplyDeltaNolock (frames : ℕ) (root : Addr) (id delta : Int32) :
    StoreProg σ StockStatus := do
  let item ← findStockItem frames root id
  if item = 0 then pure .errNotFound
  else
    let cell ← load item
    if delta < 0 ∧ cell.value.leftStock < -delta then pure .errInsufficient
    else
      update item fun cell =>
        { cell with value := cell.value.withLeftStock (cell.value.leftStock + delta) }
      pure .ok

/-- `stock_store_inorder_walk`, for a visitor with the state `arg`. -/
def stockStoreInorderWalk {τ : Type} (visit : StockItem → StateM τ StockStatus) :
    ℕ → Addr → τ → StoreProg σ (StockStatus × τ)
  | 0, _, _ => overflow
  | frames + 1, node, arg =>
    if node = 0 then pure (.ok, arg)
    else do
      let cell ← load node
      let walked ← stockStoreInorderWalk visit frames cell.left arg
      if walked.1 ≠ .ok then pure walked
      else
        let cell ← load node
        let visited := (visit cell.value).run walked.2
        if visited.1 ≠ .ok then pure visited
        else
          let cell ← load node
          stockStoreInorderWalk visit frames cell.right visited.2

/-- `free_stock_tree`. -/
def freeStockTree : ℕ → Addr → StoreProg σ Unit
  | 0, _ => overflow
  | frames + 1, node =>
    if node = 0 then pure ()
    else do
      let cell ← load node
      freeStockTree frames cell.left
      let cell ← load node
      freeStockTree frames cell.right
      free node

/-- `stock_store_destroy`: `store->root` after it; `rc` is the report of
`pthread_mutex_destroy`. -/
def stockStoreDestroy (frames : ℕ) (root : Addr) (rc : Int32) : StoreProg σ Addr := do
  freeStockTree frames root
  if rc ≠ 0 then exit
  else pure 0

/-! ## The tree under the root -/

/-- The search key of a node with its address. -/
def nodeKey (x : Addr × StockItem) : ℤ := x.2.key

/-- The tree without its addresses. -/
def contents (t : BinaryTree (Addr × StockItem)) : StockStore := t.map Prod.snd

/-- What `upsert_stock_item` does to a tree with addresses: a new node is at address `a`. -/
def upsertAt (a : Addr) (id leftStock price : Int32) (t : BinaryTree (Addr × StockItem)) :
    BinaryTree (Addr × StockItem) :=
  SearchTree.upsert nodeKey (a, ⟨id, leftStock, price⟩)
    (onValue fun item => { item with leftStock := leftStock, price := price }) t

variable {t : BinaryTree (Addr × StockItem)} {m : Memory (TreeCell StockItem) σ}

theorem key_snd (x : Addr × StockItem) : x.2.key = nodeKey x := rfl

/-- Search in the tree with addresses. -/
theorem findStockItem_contents (t : BinaryTree (Addr × StockItem)) (id : Int32) :
    StockServer.findStockItem (contents t) id =
      (search nodeKey id.toInt t).map Prod.snd := by
  rw [findStockItem_eq, contents, search_map nodeKey key_snd]

/-- The contents after an insertion. -/
theorem contents_upsertAt (a : Addr) (id leftStock price : Int32)
    (t : BinaryTree (Addr × StockItem)) :
    contents (upsertAt a id leftStock price t) =
      StockServer.upsertStockItem (contents t) id leftStock price := by
  rw [upsertStockItem_eq, contents, upsertAt]
  exact upsert_map nodeKey key_snd (fun _ => rfl) t

/-- `find_stock_item` returns the address of the node that search finds, or null. -/
theorem does_findStockItem (ht : Placed m.heap t) {frames : ℕ} (hf : t.height < frames)
    (id : Int32) :
    Does False (findStockItem frames (rootAddr t) id) m fun p m' =>
      p = ((search nodeKey id.toInt t).map Prod.fst).getD 0 ∧ m' = m := by
  induction t generalizing frames with
  | nil =>
    obtain ⟨n, rfl⟩ := Nat.exists_eq_succ_of_ne_zero (Nat.ne_of_gt hf)
    have hdone : findStockItem (n + 1) (rootAddr (.nil : BinaryTree (Addr × StockItem))) id m =
        .done (0, m) := rfl
    exact does_of_done hdone ⟨rfl, rfl⟩
  | node x l r hl hr =>
    obtain ⟨n, rfl⟩ := Nat.exists_eq_succ_of_ne_zero (Nat.ne_of_gt (Nat.zero_lt_of_lt hf))
    rw [BinaryTree.height] at hf
    rw [rootAddr_node, findStockItem, if_neg (m.ne_zero ht.1)]
    refine (does_load ht.1).bind ?_
    rintro _ _ ⟨rfl, rfl⟩
    by_cases h1 : id < x.2.id
    · have hs : search nodeKey id.toInt (.node x l r) = search nodeKey id.toInt l :=
        if_pos (id_lt_iff.mp h1)
      rw [if_pos h1, hs]
      exact hl ht.2.1 (by omega)
    by_cases h2 : id > x.2.id
    · have hs : search nodeKey id.toInt (.node x l r) = search nodeKey id.toInt r :=
        (if_neg (mt id_lt_iff.mpr h1)).trans (if_pos (lt_id_iff.mp h2))
      rw [if_neg h1, if_pos h2, hs]
      exact hr ht.2.2 (by omega)
    · have hs : search nodeKey id.toInt (.node x l r) = some x :=
        (if_neg (mt id_lt_iff.mpr h1)).trans (if_neg (mt lt_id_iff.mpr h2))
      rw [if_neg h1, if_neg h2, hs]
      exact does_pure ⟨rfl, rfl⟩

/-- `make_stock_item` adds a node. -/
theorem does_makeStockItem (A : StoreAllocator σ) (id leftStock price : Int32) :
    Does A.CanFail (makeStockItem A id leftStock price) m fun p m' =>
      Becomes m.heap .nil m'.heap (.node (p, ⟨id, leftStock, price⟩) .nil .nil) := by
  refine (does_malloc A _).mono (fun h => h) ?_
  rintro a m' ⟨-, ha, hheap⟩
  rw [hheap]
  exact becomes_new ha _

/-- `upsert_stock_item` inserts or updates, and returns the root. -/
theorem does_upsertStockItem (A : StoreAllocator σ) (ht : Occupies m.heap t) {frames : ℕ}
    (hf : t.height < frames) (id leftStock price : Int32) :
    Does A.CanFail (upsertStockItem A frames (rootAddr t) id leftStock price) m fun p m' =>
      ∃ a, p = rootAddr (upsertAt a id leftStock price t) ∧
        Becomes m.heap t m'.heap (upsertAt a id leftStock price t) := by
  induction t generalizing frames m with
  | nil =>
    obtain ⟨n, rfl⟩ := Nat.exists_eq_succ_of_ne_zero (Nat.ne_of_gt hf)
    refine (does_makeStockItem A id leftStock price).mono (fun h => h) ?_
    intro p m' hbecomes
    exact ⟨p, rfl, hbecomes⟩
  | node x l r hl hr =>
    obtain ⟨n, rfl⟩ := Nat.exists_eq_succ_of_ne_zero (Nat.ne_of_gt (Nat.zero_lt_of_lt hf))
    obtain ⟨hx, hol, hor, hxl, hxr, hd⟩ := occupies_node.mp ht
    rw [BinaryTree.height] at hf
    rw [rootAddr_node, upsertStockItem, if_neg (m.ne_zero hx)]
    refine (does_load hx).bind ?_
    rintro _ m₁ ⟨rfl, rfl⟩
    by_cases h1 : id < x.2.id
    · -- the subtree on the left changes, and its link is written again
      have hstep : ∀ a, upsertAt a id leftStock price (.node x l r) =
          .node x (upsertAt a id leftStock price l) r := fun a => if_pos (id_lt_iff.mp h1)
      rw [if_pos h1]
      refine (hl hol (by omega)).bind ?_
      rintro p m₂ ⟨a, rfl, hbecomes⟩
      refine (does_update (hbecomes.keeps hx hxl).1 _).bind ?_
      intro _ m₃ hm₃
      refine does_pure ⟨a, ?_, ?_⟩
      · rw [hstep, rootAddr_node]
      · rw [hstep, hm₃]
        exact hbecomes.node ht (.refl (hbecomes.other hor hd).1) (Finmap.lookup_insert _)
          fun b hb => Finmap.lookup_insert_of_ne _ hb
    by_cases h2 : id > x.2.id
    · -- the subtree on the right changes
      have hstep : ∀ a, upsertAt a id leftStock price (.node x l r) =
          .node x l (upsertAt a id leftStock price r) := fun a =>
        (if_neg (mt id_lt_iff.mpr h1)).trans (if_pos (lt_id_iff.mp h2))
      rw [if_neg h1, if_pos h2]
      refine (hr hor (by omega)).bind ?_
      rintro p m₂ ⟨a, rfl, hbecomes⟩
      refine (does_update (hbecomes.keeps hx hxr).1 _).bind ?_
      intro _ m₃ hm₃
      refine does_pure ⟨a, ?_, ?_⟩
      · rw [hstep, rootAddr_node]
      · rw [hstep, hm₃]
        exact (Becomes.refl hol).node ht hbecomes (Finmap.lookup_insert _)
          fun b hb => Finmap.lookup_insert_of_ne _ hb
    · -- the node is updated where it is
      have hstep : ∀ a, upsertAt a id leftStock price (.node x l r) =
          .node (x.1, { x.2 with leftStock := leftStock, price := price }) l r := fun a =>
        (if_neg (mt id_lt_iff.mpr h1)).trans (if_neg (mt lt_id_iff.mpr h2))
      rw [if_neg h1, if_neg h2]
      refine (does_update hx _).bind ?_
      intro _ m₂ hm₂
      refine does_pure ⟨0, ?_, ?_⟩
      · rw [hstep, rootAddr_node]
      · rw [hstep, hm₂]
        exact (Becomes.refl hol).node ht (.refl hor) (Finmap.lookup_insert _)
          fun b hb => Finmap.lookup_insert_of_ne _ hb

/-- The contents after an assignment to `left_stock`. -/
theorem contents_adjust (t : BinaryTree (Addr × StockItem)) (id delta : Int32) :
    contents (adjust nodeKey id.toInt
      (onValue fun item => item.withLeftStock (item.leftStock + delta)) t) =
        addLeftStock (contents t) id delta := by
  rw [addLeftStock_eq, contents]
  exact adjust_view nodeKey key_snd (fun _ => rfl) _ t

/-- What `stock_store_apply_delta_nolock` does to a tree with addresses. -/
def applyDeltaAt (id delta : Int32) (t : BinaryTree (Addr × StockItem)) :
    BinaryTree (Addr × StockItem) :=
  if (StockServer.stockStoreApplyDeltaNolock (contents t) id delta).1 = .ok then
    adjust nodeKey id.toInt (onValue fun item => item.withLeftStock (item.leftStock + delta)) t
  else t

/-- The contents after an applied or refused delta. -/
theorem contents_applyDeltaAt (id delta : Int32) (t : BinaryTree (Addr × StockItem)) :
    contents (applyDeltaAt id delta t) =
      (StockServer.stockStoreApplyDeltaNolock (contents t) id delta).2 := by
  unfold applyDeltaAt
  split_ifs with hok
  · rw [contents_adjust]
    cases hs : StockServer.findStockItem (contents t) id with
    | none => rw [applyDelta_none hs] at hok; cases hok
    | some item =>
      by_cases ha : Applies item delta
      · rw [applyDelta_applies hs ha]
      · rw [applyDelta_refused hs ha] at hok; cases hok
  · rw [applyDelta_store_of_ne_ok hok]

/-- `stock_store_apply_delta_nolock` adjusts one record or none, and returns the status. -/
theorem does_applyDelta (ht : Occupies m.heap t) {frames : ℕ} (hf : t.height < frames)
    (id delta : Int32) :
    Does False (stockStoreApplyDeltaNolock frames (rootAddr t) id delta) m fun status m' =>
      status = (StockServer.stockStoreApplyDeltaNolock (contents t) id delta).1 ∧
        Becomes m.heap t m'.heap (applyDeltaAt id delta t) := by
  have hfind := findStockItem_contents t id
  refine (does_findStockItem ht.placed hf id).bind ?_
  rintro _ m₁ ⟨rfl, rfl⟩
  cases hs : search nodeKey id.toInt t with
  | none =>
    rw [hs, Option.map_none] at hfind
    have hne : StockStatus.errNotFound ≠ .ok := by decide
    rw [applyDeltaAt, applyDelta_none hfind, if_neg hne]
    exact does_pure ⟨rfl, .refl ht⟩
  | some x =>
    obtain ⟨a, item⟩ := x
    rw [hs, Option.map_some] at hfind
    obtain ⟨p, q, hlookup, hbecomes⟩ :=
      becomes_adjust ht hs fun item => item.withLeftStock (item.leftStock + delta)
    rw [Option.map_some, Option.getD_some, if_neg (m₁.ne_zero hlookup)]
    refine (does_load hlookup).bind ?_
    rintro _ m₂ ⟨rfl, rfl⟩
    by_cases ha : Applies item delta
    · rw [applyDeltaAt, applyDelta_applies hfind ha, if_pos rfl, if_neg ha]
      refine (does_update hlookup _).bind ?_
      intro _ m₃ hm₃
      refine does_pure ⟨rfl, ?_⟩
      rw [hm₃]
      exact hbecomes
    · have hne : StockStatus.errInsufficient ≠ .ok := by decide
      rw [applyDeltaAt, applyDelta_refused hfind ha, if_neg hne, if_pos (not_not.mp ha)]
      exact does_pure ⟨rfl, .refl ht⟩

/-- A visit of a concatenated list, by a visitor with a state. -/
theorem run_visitAll_append {τ : Type} (visit : StockItem → StateM τ StockStatus)
    (l₁ l₂ : List StockItem) (arg : τ) : (visitAll visit (l₁ ++ l₂)).run arg =
      if ((visitAll visit l₁).run arg).1 ≠ .ok then (visitAll visit l₁).run arg
      else (visitAll visit l₂).run ((visitAll visit l₁).run arg).2 := by
  rw [visitAll_append, StateT.run_bind]
  rcases (visitAll visit l₁).run arg with ⟨status, arg'⟩
  by_cases hok : status = .ok
  · subst hok
    rfl
  · rw [if_pos hok]
    exact congrArg (fun rest => StateT.run rest arg') (if_pos hok)

/-- `stock_store_inorder_walk` visits the items of the tree in order, up to the first error. -/
theorem does_stockStoreInorderWalk {τ : Type} (visit : StockItem → StateM τ StockStatus)
    (ht : Placed m.heap t) {frames : ℕ} (hf : t.height < frames) (arg : τ) :
    Does False (stockStoreInorderWalk visit frames (rootAddr t) arg) m fun r m' =>
      r = (visitAll visit (inorder (contents t))).run arg ∧ m' = m := by
  induction t generalizing frames arg with
  | nil =>
    obtain ⟨n, rfl⟩ := Nat.exists_eq_succ_of_ne_zero (Nat.ne_of_gt hf)
    have hdone : stockStoreInorderWalk visit (n + 1)
        (rootAddr (.nil : BinaryTree (Addr × StockItem))) arg m = .done ((.ok, arg), m) := rfl
    exact does_of_done hdone ⟨rfl, rfl⟩
  | node x l r hl hr =>
    obtain ⟨n, rfl⟩ := Nat.exists_eq_succ_of_ne_zero (Nat.ne_of_gt (Nat.zero_lt_of_lt hf))
    rw [BinaryTree.height] at hf
    have hcontents : contents (.node x l r) = .node x.2 (contents l) (contents r) := rfl
    rw [rootAddr_node, stockStoreInorderWalk, if_neg (m.ne_zero ht.1), hcontents, inorder_node,
      run_visitAll_append]
    refine (does_load ht.1).bind ?_
    rintro _ m₁ ⟨rfl, rfl⟩
    refine (hl ht.2.1 (by omega) arg).bind ?_
    rintro _ m₂ ⟨rfl, rfl⟩
    split_ifs with hleft
    · exact does_pure ⟨rfl, rfl⟩
    refine (does_load ht.1).bind ?_
    rintro _ m₃ ⟨rfl, rfl⟩
    rw [run_visitAll]
    by_cases hvisit : ((visit x.2).run ((visitAll visit (inorder (contents l))).run arg).2).1 = .ok
    · rw [if_pos hvisit, if_neg (not_not.mpr hvisit)]
      refine (does_load ht.1).bind ?_
      rintro _ m₄ ⟨rfl, rfl⟩
      exact hr ht.2.2 (by omega) _
    · rw [if_neg hvisit, if_pos hvisit]
      exact does_pure ⟨rfl, rfl⟩

/-- `free_stock_tree` gives every node back, once. -/
theorem does_freeStockTree (ht : Occupies m.heap t) {frames : ℕ} (hf : t.height < frames) :
    Does False (freeStockTree frames (rootAddr t)) m fun _ m' =>
      Becomes m.heap t m'.heap .nil := by
  induction t generalizing frames m with
  | nil =>
    obtain ⟨n, rfl⟩ := Nat.exists_eq_succ_of_ne_zero (Nat.ne_of_gt hf)
    have hdone : freeStockTree (n + 1) (rootAddr (.nil : BinaryTree (Addr × StockItem))) m =
        .done ((), m) := rfl
    exact does_of_done hdone (.refl ht)
  | node x l r hl hr =>
    obtain ⟨n, rfl⟩ := Nat.exists_eq_succ_of_ne_zero (Nat.ne_of_gt (Nat.zero_lt_of_lt hf))
    obtain ⟨hx, hol, hor, hxl, hxr, hd⟩ := occupies_node.mp ht
    rw [BinaryTree.height] at hf
    rw [rootAddr_node, freeStockTree, if_neg (m.ne_zero hx)]
    refine (does_load hx).bind ?_
    rintro _ m₁ ⟨rfl, rfl⟩
    refine (hl hol (by omega)).bind ?_
    intro _ m₂ hleft
    have hx₂ := (hleft.keeps hx hxl).1
    refine (does_load hx₂).bind ?_
    rintro _ m₃ ⟨rfl, rfl⟩
    refine (hr (hleft.other hor hd).1 (by omega)).bind ?_
    intro _ m₄ hright
    refine (does_free (hright.keeps hx₂ hxr).1).mono (fun h => h) ?_
    intro _ m₅ hm₅
    rw [hm₅]
    exact hleft.free ht hright

end StoreHeap

end StockServer
