import StockServer.StoreHeap

set_option relaxedAutoImplicit false
set_option autoImplicit false

/-!
# The life of a store in the heap

A store from `stock_store_init` to `stock_store_destroy`, with any sequence of calls between.  The
allocator may return any free address at any time, and the heap may hold anything else.

## Main definitions

* `StoreHeap.runCall`, `StoreHeap.runCalls` — a call, and a sequence of calls, on the store under
  a root.
* `StoreHeap.KeepsNodes` — every record is still in the node it was in.
* `StoreHeap.findThenCalls` — a search whose pointer is kept while calls go on.

## Main results

* `does_runCalls` — a sequence of calls does to the tree what it does to a store.
* `storeCalls_heap` — the store in the heap refines the store.
* `storeLifetime_heap` — destroying the store gives back the heap there was before it.
* `itemPointer_stays` — the pointer of a search stays good for its id.
* `storeFrames_exact` — the recursions need a frame more than the tree is high.
-/

namespace StockServer

open SearchTree HeapTree HeapProg

namespace StoreHeap

variable {σ : Type}

/-! ## Calls -/

/-- A call on the store under a root: the status and the root after it. -/
def runCall (A : StoreAllocator σ) (frames : ℕ) :
    StoreCall → Addr → StoreProg σ (StockStatus × Addr)
  | .upsert id leftStock price, root => stockStoreUpsertNolock A frames root id leftStock price
  | .applyDelta id delta, root => do
    let status ← stockStoreApplyDeltaNolock frames root id delta
    pure (status, root)

/-- A sequence of calls: the statuses and the last root. -/
def runCalls (A : StoreAllocator σ) (frames : ℕ) :
    List StoreCall → Addr → StoreProg σ (List StockStatus × Addr)
  | [], root => pure ([], root)
  | call :: calls, root => do
    let first ← runCall A frames call root
    let rest ← runCalls A frames calls first.2
    pure (first.1 :: rest.1, rest.2)

/-- The statuses of a sequence of calls on a store. -/
def statuses : StockStore → List StoreCall → List StockStatus
  | _, [] => []
  | store, call :: calls => (call.run store).1 :: statuses (call.run store).2 calls

/-- Every record is still in the node it was in. -/
def KeepsNodes (t t' : BinaryTree (Addr × StockItem)) : Prop :=
  ∀ k x, search nodeKey k t = some x → ∃ item, search nodeKey k t' = some (x.1, item)

variable {t t' t'' : BinaryTree (Addr × StockItem)} {m : Memory (TreeCell StockItem) σ}

theorem KeepsNodes.refl (t : BinaryTree (Addr × StockItem)) : KeepsNodes t t :=
  fun _ x hx => ⟨x.2, hx⟩

theorem KeepsNodes.trans (h : KeepsNodes t t') (h' : KeepsNodes t' t'') : KeepsNodes t t'' := by
  intro k x hx
  obtain ⟨item, hitem⟩ := h k x hx
  exact h' k (x.1, item) hitem

/-- An insertion moves no node. -/
theorem keepsNodes_upsertAt (a : Addr) (id leftStock price : Int32)
    (t : BinaryTree (Addr × StockItem)) : KeepsNodes t (upsertAt a id leftStock price t) := by
  intro k x hx
  have hkey : ∀ y : Addr × StockItem, nodeKey (onValue
      (fun item => { item with leftStock := leftStock, price := price }) y) = nodeKey y :=
    fun _ => rfl
  rw [upsertAt, search_upsert nodeKey hkey]
  split_ifs with hk
  · subst hk
    rw [hx]
    exact ⟨_, rfl⟩
  · exact ⟨x.2, hx⟩

/-- A delta moves no node. -/
theorem keepsNodes_applyDeltaAt (id delta : Int32) (t : BinaryTree (Addr × StockItem)) :
    KeepsNodes t (applyDeltaAt id delta t) := by
  intro k x hx
  unfold applyDeltaAt
  split_ifs with hok
  · have hkey : ∀ y : Addr × StockItem, nodeKey (onValue
        (fun item => item.withLeftStock (item.leftStock + delta)) y) = nodeKey y := fun _ => rfl
    rw [search_adjust nodeKey hkey, hx]
    split_ifs
    · exact ⟨_, rfl⟩
    · exact ⟨x.2, rfl⟩
  · exact ⟨x.2, hx⟩

/-- The contents are as high as the tree. -/
theorem height_contents (t : BinaryTree (Addr × StockItem)) : (contents t).height = t.height :=
  height_map _ t

/-- A call makes the tree higher by one at most. -/
theorem height_call_le (call : StoreCall) (store : StockStore) :
    (call.run store).2.height ≤ store.height + 1 := by
  cases call with
  | upsert id leftStock price =>
    change (StockServer.upsertStockItem store id leftStock price).height ≤ _
    rw [upsertStockItem_eq]
    exact height_upsert_le _ _ _ _
  | applyDelta id delta =>
    change (StockServer.stockStoreApplyDeltaNolock store id delta).2.height ≤ _
    by_cases hok : (StockServer.stockStoreApplyDeltaNolock store id delta).1 = .ok
    · cases hs : StockServer.findStockItem store id with
      | none => rw [applyDelta_none hs]; exact Nat.le_succ _
      | some item =>
        by_cases ha : Applies item delta
        · rw [applyDelta_applies hs ha, addLeftStock_eq, height_adjust]
          exact Nat.le_succ _
        · rw [applyDelta_refused hs ha]; exact Nat.le_succ _
    · rw [applyDelta_store_of_ne_ok hok]
      exact Nat.le_succ _

/-- Calls make the tree higher by one each at most. -/
theorem height_runCalls_le (calls : List StoreCall) (store : StockStore) :
    (StockServer.runCalls store calls).height ≤ store.height + calls.length := by
  induction calls generalizing store with
  | nil => exact Nat.le_refl _
  | cons call calls ih =>
    have hcall := height_call_le call store
    have hrest := ih (call.run store).2
    rw [List.length_cons]
    exact hrest.trans (by omega)

/-- **One call** does to the tree what it does to the store. -/
theorem does_runCall (A : StoreAllocator σ) (ht : Occupies m.heap t) {frames : ℕ}
    (hf : t.height < frames) (call : StoreCall) :
    Does A.CanFail (runCall A frames call (rootAddr t)) m fun r m' => ∃ t',
      r = ((call.run (contents t)).1, rootAddr t') ∧ contents t' = (call.run (contents t)).2 ∧
        Becomes m.heap t m'.heap t' ∧ KeepsNodes t t' := by
  cases call with
  | upsert id leftStock price =>
    refine (does_upsertStockItem A ht hf id leftStock price).bind ?_
    rintro p m' ⟨a, rfl, hbecomes⟩
    exact does_pure ⟨_, rfl, contents_upsertAt a id leftStock price t, hbecomes,
      keepsNodes_upsertAt a id leftStock price t⟩
  | applyDelta id delta =>
    refine ((does_applyDelta ht hf id delta).mono False.elim fun _ _ h => h).bind ?_
    rintro _ m' ⟨rfl, hbecomes⟩
    have hroot : rootAddr (applyDeltaAt id delta t) = rootAddr t := by
      unfold applyDeltaAt
      split_ifs
      · exact rootAddr_adjust _ _ _ _
      · rfl
    refine does_pure ⟨applyDeltaAt id delta t, ?_, contents_applyDeltaAt id delta t, hbecomes,
      keepsNodes_applyDeltaAt id delta t⟩
    rw [hroot]
    rfl

/-- **A sequence of calls** does to the tree what it does to the store. -/
theorem does_runCalls (A : StoreAllocator σ) {frames : ℕ} (calls : List StoreCall)
    (ht : Occupies m.heap t) (hf : t.height + calls.length < frames) :
    Does A.CanFail (runCalls A frames calls (rootAddr t)) m fun r m' => ∃ t',
      r = (statuses (contents t) calls, rootAddr t') ∧
        contents t' = StockServer.runCalls (contents t) calls ∧
        Becomes m.heap t m'.heap t' ∧ KeepsNodes t t' := by
  induction calls generalizing t m with
  | nil => exact does_pure ⟨t, rfl, rfl, .refl ht, .refl t⟩
  | cons call calls ih =>
    rw [List.length_cons] at hf
    refine (does_runCall A ht (by omega) call).bind ?_
    rintro _ m₁ ⟨t₁, rfl, hcontents, hbecomes, hkeeps⟩
    have hheight := height_call_le call (contents t)
    rw [← hcontents, height_contents, height_contents] at hheight
    refine (ih hbecomes.occupies (by omega)).bind ?_
    rintro _ m₂ ⟨t₂, rfl, hcontents₂, hbecomes₂, hkeeps₂⟩
    refine does_pure ⟨t₂, ?_, ?_, hbecomes.trans hbecomes₂, hkeeps.trans hkeeps₂⟩
    · rw [hcontents]
      rfl
    · rw [hcontents₂, hcontents]
      rfl

/-! ## The store in the heap refines the store -/

/-- `stock_store_find_nolock` returns the status and the node of the record. -/
theorem does_stockStoreFindNolock (ht : Placed m.heap t) {frames : ℕ} (hf : t.height < frames)
    (id : Int32) :
    Does False (stockStoreFindNolock frames (rootAddr t) id) m fun found m' => m' = m ∧
      found.1 = (StockServer.stockStoreFindNolock (contents t) id).1 ∧
      found.2 = ((search nodeKey id.toInt t).map Prod.fst).getD 0 := by
  have hfind := findStockItem_contents t id
  refine (does_findStockItem ht hf id).bind ?_
  rintro _ m' ⟨rfl, rfl⟩
  rw [StockServer.stockStoreFindNolock, hfind]
  cases hs : search nodeKey id.toInt t with
  | none => exact does_pure ⟨rfl, rfl, rfl⟩
  | some x =>
    obtain ⟨c, hc⟩ := ht.lookup (mem_addresses_of_search hs)
    rw [Option.map_some, Option.getD_some, if_neg (m'.ne_zero hc)]
    exact does_pure ⟨rfl, rfl, rfl⟩

/-- The node of a record holds it. -/
theorem lookup_of_search (ht : Placed m.heap t) {k : ℤ} {x : Addr × StockItem}
    (hs : search nodeKey k t = some x) : ∃ left right,
      m.heap.lookup x.1 = some ⟨x.2, left, right⟩ := by
  induction t with
  | nil => cases hs
  | node y l r hl hr =>
    simp only [search] at hs
    split_ifs at hs
    · exact hl ht.2.1 hs
    · exact hr ht.2.2 hs
    · obtain rfl := Option.some.inj hs
      exact ⟨_, _, ht.1⟩

/-- **The store in the heap refines the store.**  Whatever else is in the heap and whatever free
addresses `malloc` returns, a sequence of calls on a new store meets no null, dangling or
uninitialized pointer, returns the statuses of the model on trees, and leaves under the root the
tree of that model in cells that were free, with every other cell as it was.  There, searching
returns the node of the record, and a walk visits what a walk of the model visits.

**Proof sketch.** One call turns the tree under the root into the tree that the model's function
makes of it, and changes no cell outside of the two; such changes compose. -/
theorem storeCalls_heap (A : StoreAllocator σ) (m : Memory (TreeCell StockItem) σ)
    (calls : List StoreCall) {frames : ℕ} (hf : calls.length < frames) :
    let store := StockServer.runCalls .nil calls
    Does A.CanFail (runCalls A frames calls (stockStoreInit 0).2) m fun r m' => ∃ t,
      r = (statuses .nil calls, rootAddr t) ∧ contents t = store ∧ Occupies m'.heap t ∧
      (∀ a ∈ addresses t, m.heap.lookup a = none) ∧
      (∀ a, a ∉ addresses t → m'.heap.lookup a = m.heap.lookup a) ∧
      (∀ id, Does False (stockStoreFindNolock frames r.2 id) m' fun found m'' => m'' = m' ∧
        found.1 = (StockServer.stockStoreFindNolock store id).1 ∧
        ∀ item, StockServer.findStockItem store id = some item →
          ∃ left right, m'.heap.lookup found.2 = some ⟨item, left, right⟩) ∧
      ∀ (τ : Type) (visit : StockItem → StateM τ StockStatus) (arg : τ),
        Does False (stockStoreInorderWalk visit frames r.2 arg) m' fun walked m'' => m'' = m' ∧
          walked = (StockServer.stockStoreInorderWalk visit store).run arg := by
  intro store
  have hnil : (BinaryTree.nil : BinaryTree (Addr × StockItem)).height + calls.length < frames := by
    simpa using hf
  have hheight : store.height < frames := by
    have hle := height_runCalls_le calls .nil
    exact lt_of_le_of_lt hle (by simpa using hf)
  refine (does_runCalls A calls occupies_nil hnil).mono (fun h => h) ?_
  rintro _ m' ⟨t, rfl, hcontents, hbecomes, -⟩
  have hcontents' : contents t = store := hcontents
  have ht := hbecomes.occupies
  have hft : t.height < frames := by rwa [← height_contents, hcontents']
  refine ⟨t, rfl, hcontents', ht, fun a ha => (hbecomes.fresh a ha).resolve_left nofun,
    fun a ha => hbecomes.frame a nofun ha, fun id => ?_, fun τ visit arg => ?_⟩
  · refine (does_stockStoreFindNolock ht.placed hft id).mono (fun h => h) ?_
    rintro found m'' ⟨rfl, hstatus, haddr⟩
    refine ⟨rfl, hcontents' ▸ hstatus, fun item hitem => ?_⟩
    rw [← hcontents', findStockItem_contents] at hitem
    obtain ⟨x, hx, rfl⟩ := Option.map_eq_some_iff.mp hitem
    rw [haddr, hx]
    exact lookup_of_search ht.placed hx
  · refine (does_stockStoreInorderWalk visit ht.placed hft arg).mono (fun h => h) ?_
    rintro _ m'' ⟨rfl, rfl⟩
    rw [hcontents', stockStoreInorderWalk_eq]
    exact ⟨rfl, rfl⟩

/-- Two upserts on a new store in an empty heap, with an allocator that does not fail. -/
theorem storeCalls_heap_two :
    ∃ root m', runCalls (Allocator.firstAbove _) 3 [.upsert 5 1 100, .upsert 3 2 200]
        (stockStoreInit 0).2 (Memory.empty _ ()) = .done (([.ok, .ok], root), m') ∧
      Does False (stockStoreFindNolock 3 root 3) m' fun found m'' => m'' = m' ∧
        found.1 = .ok ∧ ∃ left right, m'.heap.lookup found.2 = some ⟨⟨3, 2, 200⟩, left, right⟩ := by
  have hdoes := storeCalls_heap (Allocator.firstAbove _) (Memory.empty _ ())
    [.upsert 5 1 100, .upsert 3 2 200] (by decide : 2 < 3)
  obtain ⟨r, m', hrun, t, rfl, -, -, -, -, hfind, -⟩ :=
    (hdoes.mono (Allocator.not_canFail_firstAbove _) fun _ _ h => h).done
  refine ⟨_, m', hrun, (hfind 3).mono (fun h => h) ?_⟩
  rintro found m'' ⟨hm, hstatus, hitem⟩
  exact ⟨hm, hstatus, hitem ⟨3, 2, 200⟩ (by decide)⟩

/-! ## Destruction -/

/-- A store from `stock_store_init` to `stock_store_destroy`: the statuses of the calls, and the
root at the end. -/
def storeLifetime (A : StoreAllocator σ) (frames : ℕ) (calls : List StoreCall) :
    StoreProg σ (List StockStatus × Addr) := do
  let ran ← runCalls A frames calls (stockStoreInit 0).2
  let root ← stockStoreDestroy frames ran.2 0
  pure (ran.1, root)

/-- **Destroying the store gives back the heap there was before it**: every node is freed, none
twice, and no other cell is touched. -/
theorem storeLifetime_heap (A : StoreAllocator σ) (m : Memory (TreeCell StockItem) σ)
    (calls : List StoreCall) {frames : ℕ} (hf : calls.length < frames) :
    Does A.CanFail (storeLifetime A frames calls) m fun r m' =>
      r = (statuses .nil calls, 0) ∧ m'.heap = m.heap := by
  have hnil : (BinaryTree.nil : BinaryTree (Addr × StockItem)).height + calls.length < frames := by
    simpa using hf
  refine (does_runCalls A calls occupies_nil hnil).bind ?_
  rintro _ m₁ ⟨t, rfl, hcontents, hbecomes, -⟩
  have hft : t.height < frames := by
    have hle := height_runCalls_le calls .nil
    rw [← height_contents, hcontents]
    exact lt_of_le_of_lt hle (by simpa using hf)
  have hdestroy : Does False (stockStoreDestroy frames (rootAddr t) 0) m₁ fun root m' =>
      root = 0 ∧ Becomes m₁.heap t m'.heap .nil := by
    refine (does_freeStockTree hbecomes.occupies hft).bind ?_
    intro _ m₂ hfree
    exact does_pure ⟨rfl, hfree⟩
  refine (hdestroy.mono False.elim fun _ _ h => h).bind ?_
  rintro _ m₂ ⟨rfl, hfree⟩
  refine does_pure ⟨rfl, ?_⟩
  have hlocal := hbecomes.trans hfree
  exact Finmap.ext_lookup fun a => hlocal.frame a nofun nofun

/-- A store that lives in a heap with another node in it. -/
theorem storeLifetime_heap_two :
    let m : Memory (TreeCell StockItem) Unit :=
      (Memory.empty _ ()).write 7 ⟨⟨1, 1, 1⟩, 0, 0⟩ (by decide)
    ∃ m', storeLifetime (Allocator.firstAbove _) 4
        [.upsert 5 1 100, .applyDelta 5 (-2), .upsert 3 2 200] m =
          .done (([.ok, .errInsufficient, .ok], 0), m') ∧ m'.heap = m.heap := by
  intro m
  have hdoes := storeLifetime_heap (Allocator.firstAbove _) m
    [.upsert 5 1 100, .applyDelta 5 (-2), .upsert 3 2 200] (by decide : 3 < 4)
  obtain ⟨r, m', hrun, rfl, hheap⟩ :=
    (hdoes.mono (Allocator.not_canFail_firstAbove _) fun _ _ h => h).done
  exact ⟨m', hrun, hheap⟩

/-! ## Pointers that are kept -/

/-- A search whose pointer is kept while calls go on: what the search returned, and the last
root. -/
def findThenCalls (A : StoreAllocator σ) (frames : ℕ) (id : Int32)
    (before after : List StoreCall) : StoreProg σ ((StockStatus × Addr) × Addr) := do
  let ran ← runCalls A frames before (stockStoreInit 0).2
  let found ← stockStoreFindNolock frames ran.2 id
  let ran ← runCalls A frames after ran.2
  pure (found, ran.2)

/-- **The pointer of a search stays good for its id.**  No later call of the store frees the node
or gives it to another id: after any calls, a search for the id returns the same pointer, and the
node holds the current record.  A search that finds nothing returns null. -/
theorem itemPointer_stays (A : StoreAllocator σ) (m : Memory (TreeCell StockItem) σ) (id : Int32)
    (before after : List StoreCall) {frames : ℕ} (hf : before.length + after.length < frames) :
    Does A.CanFail (findThenCalls A frames id before after) m fun r m' =>
      (StockServer.findStockItem (StockServer.runCalls .nil before) id = none ∧
        r.1 = (.errNotFound, 0)) ∨
      ∃ p item left right, r.1 = (.ok, p) ∧ m'.heap.lookup p = some ⟨item, left, right⟩ ∧
        StockServer.findStockItem (StockServer.runCalls .nil (before ++ after)) id = some item ∧
        Does False (stockStoreFindNolock frames r.2 id) m' fun found m'' =>
          m'' = m' ∧ found = (.ok, p) := by
  have hnil : (BinaryTree.nil : BinaryTree (Addr × StockItem)).height + before.length < frames := by
    have hle : before.length < frames := by omega
    simpa using hle
  refine (does_runCalls A before occupies_nil hnil).bind ?_
  rintro _ m₁ ⟨t₁, rfl, hcontents₁, hbecomes₁, -⟩
  have hheight₁ : t₁.height ≤ before.length := by
    rw [← height_contents, hcontents₁]
    exact (height_runCalls_le before .nil).trans (by simp)
  have hfind := does_stockStoreFindNolock hbecomes₁.occupies.placed
    (lt_of_le_of_lt hheight₁ (by omega : before.length < frames)) id
  refine (hfind.mono False.elim fun _ _ h => h).bind ?_
  rintro ⟨status, p⟩ m₂ ⟨rfl, hstatus, hp⟩
  refine (does_runCalls A after hbecomes₁.occupies (by omega)).bind ?_
  rintro _ m₃ ⟨t₂, rfl, hcontents₂, hbecomes₂, hkeeps⟩
  have happend : contents t₂ = StockServer.runCalls .nil (before ++ after) := by
    rw [hcontents₂, hcontents₁]
    exact (List.foldl_append).symm
  have hheight₂ : t₂.height < frames := by
    have hle := height_runCalls_le (before ++ after) .nil
    rw [← height_contents, happend]
    rw [List.length_append] at hle
    exact lt_of_le_of_lt hle (by simpa using hf)
  have hrecord := findStockItem_contents t₁ id
  rw [hcontents₁] at hrecord
  rw [StockServer.stockStoreFindNolock, hcontents₁] at hstatus
  refine does_pure ?_
  cases hs : search nodeKey id.toInt t₁ with
  | none =>
    rw [hs, Option.map_none] at hrecord
    rw [hrecord] at hstatus
    rw [hs] at hp
    exact .inl ⟨hrecord, Prod.ext hstatus hp⟩
  | some x =>
    rw [hs, Option.map_some] at hrecord
    rw [hrecord] at hstatus
    rw [hs] at hp
    obtain ⟨item, hitem⟩ := hkeeps _ x hs
    obtain ⟨left, right, hcell⟩ := lookup_of_search hbecomes₂.occupies.placed hitem
    have hnow := findStockItem_contents t₂ id
    rw [happend, hitem] at hnow
    refine .inr ⟨x.1, item, left, right, Prod.ext hstatus hp, hcell, hnow, ?_⟩
    refine (does_stockStoreFindNolock hbecomes₂.occupies.placed hheight₂ id).mono (fun h => h) ?_
    rintro ⟨status', p'⟩ m'' ⟨rfl, hstatus', hp'⟩
    rw [StockServer.stockStoreFindNolock, happend, hnow] at hstatus'
    rw [hitem] at hp'
    exact ⟨rfl, Prod.ext hstatus' hp'⟩

/-- A pointer that is kept over an update of its record. -/
theorem itemPointer_stays_update :
    ∃ p left right root m', findThenCalls (Allocator.firstAbove _) 5 5
        [.upsert 5 1 100, .upsert 3 2 200] [.upsert 4 4 4, .upsert 5 6 7] (Memory.empty _ ()) =
          .done (((.ok, p), root), m') ∧
      m'.heap.lookup p = some ⟨⟨5, 6, 7⟩, left, right⟩ := by
  have hdoes := itemPointer_stays (Allocator.firstAbove _) (Memory.empty _ ()) 5
    [.upsert 5 1 100, .upsert 3 2 200] [.upsert 4 4 4, .upsert 5 6 7] (by decide : 4 < 5)
  obtain ⟨⟨found, root⟩, m', hrun, hcase⟩ :=
    (hdoes.mono (Allocator.not_canFail_firstAbove _) fun _ _ h => h).done
  rcases hcase with ⟨hnone, -⟩ | ⟨p, item, left, right, hfound, hcell, hitem, -⟩
  · exact absurd hnone (by decide)
  · have hsome : StockServer.findStockItem (StockServer.runCalls .nil
        ([.upsert 5 1 100, .upsert 3 2 200] ++ [.upsert 4 4 4, .upsert 5 6 7])) 5 =
          some ⟨5, 6, 7⟩ := by decide
    obtain rfl : (⟨5, 6, 7⟩ : StockItem) = item := Option.some.inj (hsome.symm.trans hitem)
    obtain rfl : found = (.ok, p) := hfound
    exact ⟨p, left, right, root, m', hrun, hcell⟩

/-! ## The stack -/

/-- A tree higher than the stack makes `free_stock_tree` overflow. -/
theorem freeStockTree_overflow (ht : Occupies m.heap t) {frames : ℕ} (hf : frames ≤ t.height) :
    freeStockTree frames (rootAddr t) m = .overflow := by
  induction t generalizing frames m with
  | nil =>
    obtain rfl : frames = 0 := Nat.le_zero.mp hf
    rfl
  | node x l r hl hr =>
    cases frames with
    | zero => rfl
    | succ n =>
      obtain ⟨hx, hol, hor, hxl, hxr, hd⟩ := occupies_node.mp ht
      rw [BinaryTree.height] at hf
      rw [rootAddr_node, freeStockTree, if_neg (m.ne_zero hx), bind_of_done (load_eq hx)]
      by_cases hleft : n ≤ l.height
      · exact bind_of_overflow (hl hol hleft)
      · obtain ⟨_, m', hfree, hbecomes⟩ := (does_freeStockTree hol (not_le.mp hleft)).done
        rw [bind_of_done hfree, bind_of_done (load_eq (hbecomes.keeps hx hxl).1)]
        exact bind_of_overflow (hr (hbecomes.other hor hd).1 (by omega))

/-- Visits that all succeed. -/
theorem visitAll_ok {τ : Type} {visit : StockItem → StateM τ StockStatus}
    (hvisit : ∀ item arg, ((visit item).run arg).1 = .ok) (items : List StockItem) (arg : τ) :
    ((visitAll visit items).run arg).1 = .ok := by
  induction items generalizing arg with
  | nil => rfl
  | cons item items ih =>
    rw [run_visitAll, if_pos (hvisit item arg)]
    exact ih _

/-- A tree higher than the stack makes a walk overflow that no visitor stops. -/
theorem stockStoreInorderWalk_overflow {τ : Type} {visit : StockItem → StateM τ StockStatus}
    (hvisit : ∀ item arg, ((visit item).run arg).1 = .ok) (ht : Placed m.heap t) {frames : ℕ}
    (hf : frames ≤ t.height) (arg : τ) :
    stockStoreInorderWalk visit frames (rootAddr t) arg m = .overflow := by
  induction t generalizing frames arg with
  | nil =>
    obtain rfl : frames = 0 := Nat.le_zero.mp hf
    rfl
  | node x l r hl hr =>
    cases frames with
    | zero => rfl
    | succ n =>
      rw [BinaryTree.height] at hf
      rw [rootAddr_node, stockStoreInorderWalk, if_neg (m.ne_zero ht.1),
        bind_of_done (load_eq ht.1)]
      by_cases hleft : n ≤ l.height
      · exact bind_of_overflow (hl ht.2.1 hleft arg)
      · obtain ⟨walked, m', hwalk, rfl, rfl⟩ :=
          (does_stockStoreInorderWalk visit ht.2.1 (not_le.mp hleft) arg).done
        have hok := visitAll_ok hvisit (inorder (contents l)) arg
        rw [bind_of_done hwalk, if_neg (not_not.mpr hok), bind_of_done (load_eq ht.1),
          if_neg (not_not.mpr (hvisit _ _)), bind_of_done (load_eq ht.1)]
        exact hr ht.2.2 (by omega) _

/-- **The recursions need a frame more than the tree is high**, neither more nor less: with fewer
frames, freeing the tree and walking it overflow the stack. -/
theorem storeFrames_exact {τ : Type} {visit : StockItem → StateM τ StockStatus}
    (hvisit : ∀ item arg, ((visit item).run arg).1 = .ok) (ht : Occupies m.heap t)
    (frames : ℕ) (arg : τ) :
    ((∃ m', freeStockTree frames (rootAddr t) m = .done ((), m')) ↔ t.height < frames) ∧
      ((∃ r, stockStoreInorderWalk visit frames (rootAddr t) arg m = .done r) ↔
        t.height < frames) := by
  refine ⟨⟨fun hdone => ?_, fun hf => ?_⟩, fun hdone => ?_, fun hf => ?_⟩
  · obtain ⟨m', hdone⟩ := hdone
    by_contra hf
    rw [freeStockTree_overflow ht (not_lt.mp hf)] at hdone
    cases hdone
  · obtain ⟨_, m', hdone, -⟩ := (does_freeStockTree ht hf).done
    exact ⟨m', hdone⟩
  · obtain ⟨r, hdone⟩ := hdone
    by_contra hf
    rw [stockStoreInorderWalk_overflow hvisit ht.placed (not_lt.mp hf)] at hdone
    cases hdone
  · obtain ⟨r, m', hdone, -⟩ := (does_stockStoreInorderWalk visit ht.placed hf arg).done
    exact ⟨_, hdone⟩

end StoreHeap

end StockServer
