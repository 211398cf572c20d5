import Mathlib.Logic.Function.Basic
import StockServer.Lib.Machine
import StockServer.HandleClient

set_option relaxedAutoImplicit false
set_option autoImplicit false

/-!
# The worker pool

Any number of workers that run `worker_main`, each with the program counter and the locals of
`handle_client`, the store they share and its mutex.  One step is one action of one worker: read a
line, parse, validate, take the lock, follow one pointer of the search, read or write a
`left_stock`, visit one node of a walk, release the lock, format, send.  A schedule names the
worker that acts next; a worker that cannot act stays where it is.

## Main definitions

* `Critical`, `Phase`, `Conn`, `Worker`, `Pool` — where a worker is inside the lock and outside,
  its connection, and the state of all workers.
* `criticalStep`, `workerStep`, `workers` — one action inside the lock, any action, and the
  machine.
* `Event` — what a step shows: a line received, a request entering, a response sent.
* `Inside` — how far a critical section has come with its request.

## Main results

* `Inside.start`, `Inside.step` — a critical section, run step by step, computes what its handler
  computes in one go.
* `executeRequest_of_locks` — `execute_request` is the handler and the formatting around it.

## Implementation notes

`pthread_mutex_lock` and `pthread_mutex_unlock` provide mutual exclusion and succeed.  A request
enters when it takes the lock or is settled without it.  Descriptors in the queue are taken in
order; the queue itself is the subject of another module.
-/

namespace StockServer

open SearchTree

/-! ## The state -/

/-- One frame of the recursion of `stock_store_inorder_walk`: a call on a subtree, or a visit of a
node whose left subtree is done. -/
inductive Frame where
  | tree (p : List Bool)
  | node (p : List Bool)
  deriving DecidableEq, Repr

/-- Where a worker is while it holds the lock. -/
inductive Critical where
  /-- In `find_stock_item`, at this node. -/
  | searching (p : List Bool)
  /-- At the comparison of `stock_store_apply_delta_nolock`. -/
  | checking (p : List Bool)
  /-- Before the read of `item->left_stock += delta`. -/
  | loading (p : List Bool)
  /-- Before its write, with the value read. -/
  | storing (p : List Bool) (loaded : Int32)
  /-- Before the row of a single item is formatted. -/
  | rendering (p : List Bool)
  /-- In the walk of a full listing. -/
  | walking (frames : List Frame) (response : ResponseBuilder)
  /-- Before `pthread_mutex_unlock`, with the status of the handler. -/
  | unlocking (status : StockStatus) (response : ResponseBuilder)

/-- Where a worker is. -/
inductive Phase where
  /-- In `conn_queue_remove`. -/
  | idle
  /-- Before `Rio_readlineb`. -/
  | reading
  /-- Before `parse_request`. -/
  | parsing (line : Bytes)
  /-- Before `validate_request`. -/
  | validating (request : StockRequest)
  /-- Before `pthread_mutex_lock`. -/
  | locking (request : StockRequest)
  /-- Holding the lock. -/
  | holding (request : StockRequest) (critical : Critical)
  /-- Before the response is completed, outside the lock. -/
  | formatting (request : StockRequest) (status : StockStatus) (response : ResponseBuilder)
  /-- Before `Rio_writen`. -/
  | sending (request : StockRequest) (status : StockStatus) (response : ResponseBuilder)

/-- A connection: its reader, and what further calls of `write` on it report. -/
structure Conn where
  rio : Rio
  writes : List WriteResult

/-- A worker with its current connection. -/
structure Worker where
  conn : Conn
  phase : Phase

/-- All workers, the holder of the store's mutex, the store, the connections still queued, and
whether the process has ended. -/
structure Pool (ι : Type) where
  worker : ι → Worker
  holder : Option ι
  store : StockStore
  queue : List Conn
  exited : Bool

/-- What a step shows. -/
inductive Event (ι : Type) where
  /-- A worker has read a line. -/
  | received (w : ι) (line : Bytes)
  /-- A request has taken the lock, or has been settled without it. -/
  | entered (w : ι) (request : StockRequest)
  /-- A worker has sent a response. -/
  | answered (w : ι) (response : Bytes)
  deriving DecidableEq, Repr

/-! ## Steps inside the lock -/

/-- The request takes the lock: a valid `show`, `buy` or `sell`. -/
def Locks (request : StockRequest) : Prop :=
  validateRequest request = .ok ∧ (request.command = .requestShow ∨
    request.command = .requestBuy ∨ request.command = .requestSell)

instance (request : StockRequest) : Decidable (Locks request) :=
  inferInstanceAs (Decidable (_ ∧ _))

/-- The first step of a handler once it has the lock. -/
def criticalStart (request : StockRequest) : Critical :=
  if request.command = .requestShow ∧ request.argc = 1 then .walking [.tree []] responseInit
  else .searching []

/-- One action inside the lock.  A node is read and written where its pointer leads; the branches
for a pointer that leads nowhere are never taken. -/
def criticalStep (request : StockRequest) (store : StockStore) :
    Critical → StockStore × Critical
  | .searching p =>
    match subtreeAt p store with
    | .nil => (store, .unlocking .errNotFound responseInit)
    | .node item _ _ =>
      if request.id < item.id then (store, .searching (p ++ [false]))
      else if request.id > item.id then (store, .searching (p ++ [true]))
      else if request.command = .requestShow then (store, .rendering p)
      else (store, .checking p)
  | .checking p =>
    match recordAt p store with
    | none => (store, .checking p)
    | some item =>
      if requestDelta request < 0 ∧ item.leftStock < -requestDelta request then
        (store, .unlocking .errInsufficient responseInit)
      else (store, .loading p)
  | .loading p =>
    match recordAt p store with
    | none => (store, .loading p)
    | some item => (store, .storing p item.leftStock)
  | .storing p loaded =>
    (modifyAt (fun item => item.withLeftStock (loaded + requestDelta request)) p store,
      .unlocking .ok responseInit)
  | .rendering p =>
    match recordAt p store with
    | none => (store, .rendering p)
    | some item =>
      let appended := responseAppendf responseInit (stockLine item)
      (store, .unlocking appended.1 appended.2)
  | .walking [] response => (store, .unlocking .ok response)
  | .walking (.tree p :: frames) response =>
    match subtreeAt p store with
    | .nil => (store, .walking frames response)
    | .node _ _ _ =>
      (store, .walking (.tree (p ++ [false]) :: .node p :: .tree (p ++ [true]) :: frames) response)
  | .walking (.node p :: frames) response =>
    match recordAt p store with
    | none => (store, .walking frames response)
    | some item =>
      let appended := responseAppendf response (stockLine item)
      if appended.1 ≠ .ok then (store, .unlocking appended.1 appended.2)
      else (store, .walking frames appended.2)
  | .unlocking status response => (store, .unlocking status response)

/-- `execute_request` after the handler has returned: a successful buy, sell or exit gets its
text. -/
def afterHandler (request : StockRequest) (status : StockStatus) (response : ResponseBuilder) :
    StockStatus × ResponseBuilder :=
  if status = .ok ∧ request.command ≠ .requestShow then responseAppend response successText
  else (status, response)

/-! ## Steps of a worker -/

namespace Pool

variable {ι : Type} [DecidableEq ι]

/-- The pool with one worker moved. -/
def move (s : Pool ι) (w : ι) (worker : Worker) : Pool ι :=
  { s with worker := Function.update s.worker w worker }

/-- The pool with one worker in another phase. -/
def goto (s : Pool ι) (w : ι) (phase : Phase) : Pool ι :=
  s.move w { s.worker w with phase := phase }

end Pool

variable {ι : Type} [DecidableEq ι]

/-- One action of worker `w`. -/
def workerStep (s : Pool ι) (w : ι) : Pool ι × List (Event ι) :=
  if s.exited then (s, [])
  else
    let conn := (s.worker w).conn
    match (s.worker w).phase with
    | .idle =>
      match s.queue with
      | [] => (s, [])
      | next :: queue => ({ s with queue := queue }.move w ⟨next, .reading⟩, [])
    | .reading =>
      match rioReadlineb (maxLine - 1) conn.rio with
      | (none, _) => ({ s with exited := true }, [])
      | (some [], _) => (s.goto w .idle, [])
      | (some (b :: bs), rio) =>
        (s.move w ⟨{ conn with rio := rio }, .parsing (b :: bs)⟩, [.received w (b :: bs)])
    | .parsing line => (s.goto w (.validating (parseRequest line)), [])
    | .validating request =>
      if Locks request then (s.goto w (.locking request), [])
      else (s.goto w (.formatting request (validateRequest request) responseInit),
        [.entered w request])
    | .locking request =>
      match s.holder with
      | none => ({ s with holder := some w }.goto w (.holding request (criticalStart request)),
          [.entered w request])
      | some _ => (s, [])
    | .holding request (.unlocking status response) =>
      ({ s with holder := none }.goto w (.formatting request status response), [])
    | .holding request critical =>
      let next := criticalStep request s.store critical
      ({ s with store := next.1 }.goto w (.holding request next.2), [])
    | .formatting request status response =>
      let handled := afterHandler request status response
      (s.goto w (.sending request handled.1 (finishResponse handled.1 handled.2)), [])
    | .sending request status response =>
      let written := rioWriten conn.writes response.text
      if written.ok then
        let next := if request.command = .requestExit ∧ status = .ok then .idle else .reading
        (s.move w ⟨{ conn with writes := written.writes }, next⟩, [.answered w response.text])
      else ({ s with exited := true }, [])

/-- The pool as a machine: its input is the worker that acts. -/
def workers : Machine (Pool ι) ι (Event ι) := ⟨workerStep⟩

/-- A step of a worker moves no other worker. -/
theorem workerStep_worker (s : Pool ι) (w : ι) :
    ∃ worker, (workerStep s w).1.worker = Function.update s.worker w worker := by
  have hstay : ∃ worker, s.worker = Function.update s.worker w worker :=
    ⟨s.worker w, (Function.update_eq_self w s.worker).symm⟩
  unfold workerStep
  split_ifs
  · exact hstay
  cases (s.worker w).phase with
  | idle =>
    dsimp only
    split
    · exact hstay
    · exact ⟨_, rfl⟩
  | reading =>
    dsimp only
    split
    · exact hstay
    · exact ⟨_, rfl⟩
    · exact ⟨_, rfl⟩
  | parsing line => exact ⟨_, rfl⟩
  | validating request =>
    dsimp only
    split_ifs <;> exact ⟨_, rfl⟩
  | locking request =>
    dsimp only
    split
    · exact ⟨_, rfl⟩
    · exact hstay
  | holding request critical => cases critical <;> exact ⟨_, rfl⟩
  | formatting request status response => exact ⟨_, rfl⟩
  | sending request status response =>
    dsimp only
    split_ifs
    · exact ⟨_, rfl⟩
    · exact ⟨_, rfl⟩
    · exact hstay

/-! ## Handlers and the formatting around them -/

/-- What the handler of a locking request returns: status, response and store. -/
def handlerResult (store : StockStore) (request : StockRequest) :
    StockStatus × ResponseBuilder × StockStore :=
  if request.command = .requestShow then
    let shown := handleShowRequest store request responseInit
    (shown.1, shown.2, store)
  else
    let applied := handleBuySellRequest store request
    (applied.1, responseInit, applied.2)

/-- What a request is answered once its handler has returned. -/
def answerOf (request : StockRequest) (status : StockStatus) (response : ResponseBuilder) :
    StockStatus × Bytes :=
  let handled := afterHandler request status response
  (handled.1, (finishResponse handled.1 handled.2).text)

/-- **A request that takes the lock** is served by its handler and the formatting after it. -/
theorem serveRequest_of_locks {store : StockStore} {request : StockRequest}
    (h : Locks request) : serveRequest store request =
      let result := handlerResult store request
      let answer := answerOf request result.1 result.2.1
      ⟨request, answer.1, answer.2, result.2.2⟩ := by
  obtain ⟨hv, hc⟩ := h
  simp only [serveRequest, hv, ↓reduceIte, answerOf, afterHandler, handlerResult]
  rcases hc with hc | hc | hc
  · simp [executeRequest, hc]
  all_goals
    by_cases ha : (handleBuySellRequest store request).1 = .ok
    · simp [executeRequest, hc, ha]
    · simp [executeRequest, hc, ha]

/-- A request that does not take the lock is answered without the store. -/
theorem serveRequest_of_not_locks {store : StockStore} {request : StockRequest}
    (h : ¬ Locks request) : serveRequest store request =
      let answer := answerOf request (validateRequest request) responseInit
      ⟨request, answer.1, answer.2, store⟩ := by
  by_cases hv : validateRequest request = .ok
  · have hcommand : request.command = .requestExit := by
      have hknown := command_of_validate hv
      rw [Locks, not_and] at h
      have := h hv
      cases hc : request.command <;> simp_all
    simp [serveRequest, hv, answerOf, afterHandler, executeRequest, hcommand]
  · simp [serveRequest, hv, answerOf, afterHandler]

/-! ## The inside of a critical section -/

/-- The items a frame of a walk has still to visit. -/
def frameItems (store : StockStore) : Frame → List StockItem
  | .tree p => inorder (subtreeAt p store)
  | .node p => (recordAt p store).toList

/-- The search of a request has found this item at this node. -/
structure Found (base : StockStore) (request : StockRequest) (p : List Bool) (item : StockItem) :
    Prop where
  leads : Leads StockItem.key request.id.toInt p base
  node : ∃ left right, subtreeAt p base = .node item left right
  id_eq : item.id = request.id

/-- How far the critical section of `request`, entered on the store `base`, has come when it is
at `critical` and the store is `store`. -/
def Inside (base : StockStore) (request : StockRequest) : Critical → StockStore → Prop
  | .searching p, store => store = base ∧ Leads StockItem.key request.id.toInt p base ∧
      ¬ (request.command = .requestShow ∧ request.argc = 1)
  | .checking p, store => store = base ∧ request.command ≠ .requestShow ∧
      ∃ item, Found base request p item
  | .loading p, store => store = base ∧ request.command ≠ .requestShow ∧
      ∃ item, Found base request p item ∧ Applies item (requestDelta request)
  | .storing p loaded, store => store = base ∧ request.command ≠ .requestShow ∧
      ∃ item, Found base request p item ∧ Applies item (requestDelta request) ∧
        loaded = item.leftStock
  | .rendering p, store => store = base ∧ request.command = .requestShow ∧ request.argc ≠ 1 ∧
      ∃ item, Found base request p item
  | .walking frames response, store => store = base ∧ request.command = .requestShow ∧
      request.argc = 1 ∧
      (visitAll appendStockLine (frames.flatMap (frameItems base))).run response =
        handleShowRequest base request responseInit
  | .unlocking status response, store => handlerResult base request = (status, response, store)

/-- What a search finds at a node it was led to. -/
theorem Found.find {base : StockStore} {request : StockRequest} {p : List Bool} {item : StockItem}
    (h : Found base request p item) : findStockItem base request.id = some item := by
  obtain ⟨left, right, hs⟩ := h.node
  rw [findStockItem_eq, ← h.leads.search, hs, search, StockItem.key, h.id_eq]
  simp

theorem Found.record {base : StockStore} {request : StockRequest} {p : List Bool}
    {item : StockItem} (h : Found base request p item) : recordAt p base = some item := by
  obtain ⟨left, right, hs⟩ := h.node
  simp [recordAt, hs]

/-- Writing through the pointer that was found is the update by id. -/
theorem Found.write {base : StockStore} {request : StockRequest} {p : List Bool}
    {item : StockItem} (h : Found base request p item) (delta : Int32) :
    modifyAt (fun old => old.withLeftStock (item.leftStock + delta)) p base =
      addLeftStock base request.id delta := by
  obtain ⟨left, right, hs⟩ := h.node
  rw [addLeftStock_eq]
  exact h.leads.modifyAt _ hs (congrArg Int32.toInt h.id_eq) rfl

/-- A critical section starts on the store it was entered on. -/
theorem Inside.start (request : StockRequest) (base : StockStore) :
    Inside base request (criticalStart request) base := by
  unfold criticalStart
  split_ifs with hshow
  · refine ⟨rfl, hshow.1, hshow.2, ?_⟩
    simp [frameItems, subtreeAt, handleShowRequest, hshow.2, stockStoreInorderWalk_eq]
  · exact ⟨rfl, trivial, hshow⟩

/-- A step of the search goes down the tree, or ends it with what is found. -/
theorem Inside.search {base store : StockStore} {request : StockRequest} {p : List Bool}
    (h : Inside base request (.searching p) store) :
    Inside base request (criticalStep request store (.searching p)).2
      (criticalStep request store (.searching p)).1 := by
  obtain ⟨rfl, hleads, hplain⟩ := h
  have hfind : findStockItem (subtreeAt p store) request.id = findStockItem store request.id := by
    rw [findStockItem_eq, findStockItem_eq, hleads.search]
  cases hs : subtreeAt p store with
  | nil =>
    rw [hs, findStockItem] at hfind
    simp only [criticalStep, hs, Inside, handlerResult, handleShowRequest, stockStoreFindNolock,
      handleBuySellRequest, applyDelta_none hfind.symm, ← hfind]
    split_ifs <;> simp_all
  | node item left right =>
    simp only [criticalStep, hs]
    split_ifs with hlt hgt hshow
    · exact ⟨rfl, hleads.left _ hs (id_lt_iff.mp hlt), hplain⟩
    · exact ⟨rfl, hleads.right _ hs (lt_id_iff.mp hgt), hplain⟩
    all_goals
      have hfound : Found store request p item := ⟨hleads, ⟨left, right, hs⟩, by
        have h₁ := fun h => hlt (id_lt_iff.mpr h)
        have h₂ := fun h => hgt (lt_id_iff.mpr h)
        exact Int32.toInt_inj.mp (le_antisymm (not_lt.mp h₁) (not_lt.mp h₂))⟩
    · exact ⟨rfl, hshow, fun hargc => hplain ⟨hshow, hargc⟩, item, hfound⟩
    · exact ⟨rfl, hshow, item, hfound⟩

/-- A step of the walk visits the next node, or ends the walk. -/
theorem Inside.walk {base store : StockStore} {request : StockRequest} {frames : List Frame}
    {response : ResponseBuilder} (h : Inside base request (.walking frames response) store) :
    Inside base request (criticalStep request store (.walking frames response)).2
      (criticalStep request store (.walking frames response)).1 := by
  obtain ⟨rfl, hshow, hargc, hrun⟩ := h
  match frames with
  | [] =>
    have hdone : handleShowRequest store request responseInit = (.ok, response) := hrun.symm
    simp [criticalStep, Inside, handlerResult, hshow, hdone]
  | .tree p :: frames =>
    cases hs : subtreeAt p store with
    | nil =>
      simp only [criticalStep, hs]
      refine ⟨rfl, hshow, hargc, ?_⟩
      simpa [frameItems, hs] using hrun
    | node item left right =>
      simp only [criticalStep, hs]
      refine ⟨rfl, hshow, hargc, ?_⟩
      rw [← hrun]
      simp [frameItems, subtreeAt_concat, hs, subtreeAt, recordAt]
  | .node p :: frames =>
    cases hr : recordAt p store with
    | none =>
      simp only [criticalStep, hr]
      refine ⟨rfl, hshow, hargc, ?_⟩
      simpa [frameItems, hr] using hrun
    | some item =>
      simp only [List.flatMap_cons, frameItems, hr, Option.toList_some, List.singleton_append,
        run_visitAll_cons] at hrun
      by_cases hok : (responseAppendf response (stockLine item)).1 = .ok
      · simp only [criticalStep, hr, hok, ne_eq, not_true_eq_false, ↓reduceIte] at hrun ⊢
        exact ⟨rfl, hshow, hargc, hrun⟩
      · simp only [criticalStep, hr, hok, ne_eq, not_false_eq_true, ↓reduceIte] at hrun ⊢
        simp [Inside, handlerResult, hshow, ← hrun]

/-- **One action inside the lock** brings the critical section of its request one step on. -/
theorem Inside.step {base store : StockStore} {request : StockRequest} {critical : Critical}
    (h : Inside base request critical store) :
    Inside base request (criticalStep request store critical).2
      (criticalStep request store critical).1 := by
  cases critical with
  | searching p => exact h.search
  | checking p =>
    obtain ⟨rfl, htrade, item, hfound⟩ := h
    simp only [criticalStep, hfound.record]
    by_cases happ : Applies item (requestDelta request)
    · rw [if_neg happ]
      exact ⟨rfl, htrade, item, hfound, happ⟩
    · rw [if_pos (not_not.mp happ)]
      simp [Inside, handlerResult, htrade, handleBuySellRequest,
        applyDelta_refused hfound.find happ]
  | loading p =>
    obtain ⟨rfl, htrade, item, hfound, happ⟩ := h
    simp only [criticalStep, hfound.record]
    exact ⟨rfl, htrade, item, hfound, happ, rfl⟩
  | storing p loaded =>
    obtain ⟨rfl, htrade, item, hfound, happ, rfl⟩ := h
    simp [criticalStep, Inside, handlerResult, htrade, handleBuySellRequest,
      applyDelta_applies hfound.find happ, hfound.write]
  | rendering p =>
    obtain ⟨rfl, hshow, hargc, item, hfound⟩ := h
    simp [criticalStep, hfound.record, Inside, handlerResult, hshow, handleShowRequest, hargc,
      stockStoreFindNolock, hfound.find]
  | walking frames response => exact h.walk
  | unlocking status response => exact h

end StockServer
