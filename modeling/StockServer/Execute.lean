import StockServer.Response

set_option relaxedAutoImplicit false
set_option autoImplicit false

/-!
# Executing requests one at a time

`execute_request` and its handlers, and the body of the loop of `handle_client` between reading a
line and sending the response.  This is the sequential meaning of a request: what it answers and
what it does to the store when no other worker runs.

## Main definitions

* `Executed` — the status, response and store that executing a request ends with.
* `handleShowRequest`, `handleBuySellRequest`, `executeRequest` — under the names of the source.
* `IsTrade` — the requests that may change the store.
* `Served`, `serveRequest`, `serveRequests` — one request and a list of requests, up to the bytes
  of the responses; `serveLine`, `serveLines` — the same from the bytes of the lines.

## Main results

* `serveRequest_of_isTrade`, `serveRequest_store_of_not_isTrade` — what a valid buy or sell does,
  and that nothing else changes the store.
* `serveRequest_of_showOne`, `serveRequest_of_showAll`, `serveRequest_of_exit` — what the other
  requests are answered.
* `serveRequest_of_showAll_ok_iff` — the listing that is answered fits a `size_t`.
* `serveRequests_append` — a list of requests served in two parts.

## Implementation notes

`g_store` is not `NULL` while workers run: `run_server_stub` sets it before it creates them and
clears it after it has joined them.
-/

namespace StockServer

/-- The status of a request, the response built for it and the store after it. -/
structure Executed where
  status : StockStatus
  response : ResponseBuilder
  store : StockStore

/-- `handle_show_request` under the lock. -/
def handleShowRequest (store : StockStore) (request : StockRequest)
    (response : ResponseBuilder) : StockStatus × ResponseBuilder :=
  if request.argc = 1 then (stockStoreInorderWalk appendStockLine store).run response
  else match stockStoreFindNolock store request.id with
    | (_, some item) => responseAppendf response (stockLine item)
    | (status, none) => (status, response)

/-- The `delta` of `handle_buy_sell_request`. -/
def requestDelta (request : StockRequest) : Int32 :=
  if request.command = .requestBuy then -request.count else request.count

/-- `handle_buy_sell_request` under the lock. -/
def handleBuySellRequest (store : StockStore) (request : StockRequest) :
    StockStatus × StockStore :=
  stockStoreApplyDeltaNolock store request.id (requestDelta request)

/-- `execute_request`. -/
def executeRequest (store : StockStore) (request : StockRequest) (response : ResponseBuilder) :
    Executed :=
  match request.command with
  | .requestShow =>
    let shown := handleShowRequest store request response
    ⟨shown.1, shown.2, store⟩
  | .requestBuy | .requestSell =>
    let applied := handleBuySellRequest store request
    if applied.1 = .ok then
      let appended := responseAppend response successText
      ⟨appended.1, appended.2, applied.2⟩
    else ⟨applied.1, response, applied.2⟩
  | .requestExit =>
    let appended := responseAppend response successText
    ⟨appended.1, appended.2, store⟩
  | .requestUnknown => ⟨.errInvalid, response, store⟩

/-- The end of the loop body of `handle_client` before the response is sent: a status other than
`ok` replaces the response. -/
def finishResponse (status : StockStatus) (response : ResponseBuilder) : ResponseBuilder :=
  if status = .ok then response
  else
    let cleared := { response with len := 0, data := copyAt response.data 0 [0] }
    let appended := responseAppend cleared (statusResponse status)
    if appended.1 ≠ .ok then (responseAppend appended.2 (ascii "internal error\n")).2
    else appended.2

/-- What serving one line ends with. -/
structure Served where
  request : StockRequest
  status : StockStatus
  response : Bytes
  store : StockStore

/-- The loop body of `handle_client` after parsing: validate, execute and build the response to
send. -/
def serveRequest (store : StockStore) (request : StockRequest) : Served :=
  let status := validateRequest request
  let executed := if status = .ok then executeRequest store request responseInit
    else ⟨status, responseInit, store⟩
  ⟨request, executed.status, (finishResponse executed.status executed.response).text,
    executed.store⟩

/-- The loop body of `handle_client` for one line. -/
def serveLine (store : StockStore) (line : Bytes) : Served :=
  serveRequest store (parseRequest line)

/-- `handle_client` leaves its loop after this request. -/
def Served.leaves (served : Served) : Prop :=
  served.request.command = .requestExit ∧ served.status = .ok

instance (served : Served) : Decidable served.leaves := inferInstanceAs (Decidable (_ ∧ _))

/-- The requests served one after another: what each ended with, and the last store. -/
def serveRequests : StockStore → List StockRequest → List Served × StockStore
  | store, [] => ([], store)
  | store, request :: requests =>
    let served := serveRequest store request
    (served :: (serveRequests served.store requests).1, (serveRequests served.store requests).2)

/-- The lines served one after another. -/
def serveLines (store : StockStore) (lines : List Bytes) : List Served × StockStore :=
  serveRequests store (lines.map parseRequest)

/-! ## What the handlers do -/

/-- A list of requests served in two parts. -/
theorem serveRequests_append (store : StockStore) (l₁ l₂ : List StockRequest) :
    serveRequests store (l₁ ++ l₂) =
      ((serveRequests store l₁).1 ++ (serveRequests (serveRequests store l₁).2 l₂).1,
        (serveRequests (serveRequests store l₁).2 l₂).2) := by
  induction l₁ generalizing store with
  | nil => rfl
  | cons request l₁ ih => simp [serveRequests, ih]

/-- One more request is served in the store the others left. -/
theorem serveRequests_concat (store : StockStore) (l : List StockRequest)
    (request : StockRequest) : serveRequests store (l ++ [request]) =
      ((serveRequests store l).1 ++ [serveRequest (serveRequests store l).2 request],
        (serveRequest (serveRequests store l).2 request).store) := by
  simp [serveRequests_append, serveRequests]

/-- Every request is served. -/
theorem length_serveRequests (store : StockStore) (l : List StockRequest) :
    (serveRequests store l).1.length = l.length := by
  induction l generalizing store with
  | nil => rfl
  | cons request l ih => simp [serveRequests, ih]

/-- The `success` text of a buy, sell or exit always fits. -/
theorem responseAppend_success :
    (responseAppend responseInit successText).1 = .ok ∧
      (responseAppend responseInit successText).2.text = successText :=
  responseAppend_init (by decide)

/-- A request that fails is answered with the text of its status, whatever was in the buffer. -/
theorem text_finishResponse {status : StockStatus} (h : status ≠ .ok)
    {response : ResponseBuilder} (hcap : maxLine ≤ response.cap) :
    (finishResponse status response).text = statusResponse status := by
  have hsmall := @responseAppend_small { response with
    len := 0, data := copyAt response.data 0 [0] } rfl hcap _ (length_statusResponse_lt status)
  simp only [finishResponse, h, ↓reduceIte, hsmall.1, ne_eq, not_true_eq_false]
  exact hsmall.2

/-- A request that fails before anything was appended is answered with the text of its status. -/
theorem text_finishResponse_init {status : StockStatus} (h : status ≠ .ok) :
    (finishResponse status responseInit).text = statusResponse status :=
  text_finishResponse h le_rfl

/-- The statuses of a trade. -/
theorem handleBuySellRequest_status (store : StockStore) (request : StockRequest) :
    (handleBuySellRequest store request).1 = .ok ∨
      (handleBuySellRequest store request).1 = .errNotFound ∨
      (handleBuySellRequest store request).1 = .errInsufficient := by
  rw [handleBuySellRequest]
  cases hf : findStockItem store request.id with
  | none => simp [applyDelta_none hf]
  | some item =>
    by_cases ha : Applies item (requestDelta request)
    · simp [applyDelta_applies hf ha]
    · simp [applyDelta_refused hf ha]

/-- A valid buy or sell. -/
def IsTrade (request : StockRequest) : Prop :=
  validateRequest request = .ok ∧
    (request.command = .requestBuy ∨ request.command = .requestSell)

instance (request : StockRequest) : Decidable (IsTrade request) :=
  inferInstanceAs (Decidable (_ ∧ _))

/-- **A valid buy or sell** is answered by the status of its delta. -/
theorem serveRequest_of_isTrade {store : StockStore} {request : StockRequest}
    (h : IsTrade request) : serveRequest store request =
      let applied := handleBuySellRequest store request
      ⟨request, applied.1, if applied.1 = .ok then successText else statusResponse applied.1,
        applied.2⟩ := by
  have hexec : executeRequest store request responseInit =
      let applied := handleBuySellRequest store request
      if applied.1 = .ok then
        let appended := responseAppend responseInit successText
        ⟨appended.1, appended.2, applied.2⟩
      else ⟨applied.1, responseInit, applied.2⟩ := by
    rcases h.2 with hc | hc <;> simp only [executeRequest, hc]
  simp only [serveRequest, h.1, ↓reduceIte, hexec]
  by_cases ha : (handleBuySellRequest store request).1 = .ok
  · simp [ha, responseAppend_success, finishResponse]
  · simp [ha, text_finishResponse_init]

/-- A request that fails its validation is answered with that failure. -/
theorem serveRequest_of_invalid {store : StockStore} {request : StockRequest}
    (h : validateRequest request ≠ .ok) : serveRequest store request =
      ⟨request, validateRequest request, statusResponse (validateRequest request), store⟩ := by
  simp [serveRequest, h, text_finishResponse_init h]

/-- A valid `exit` is answered `success`. -/
theorem serveRequest_of_exit {store : StockStore} {request : StockRequest}
    (h : validateRequest request = .ok) (hc : request.command = .requestExit) :
    serveRequest store request = ⟨request, .ok, successText, store⟩ := by
  simp [serveRequest, h, executeRequest, hc, finishResponse, responseAppend_success]

/-- **A `show` of one item** is answered by its line, or by `stock not found`. -/
theorem serveRequest_of_showOne {store : StockStore} {request : StockRequest}
    (h : validateRequest request = .ok) (hc : request.command = .requestShow)
    (hargc : request.argc = 2) : serveRequest store request =
      match findStockItem store request.id with
      | none => ⟨request, .errNotFound, statusResponse .errNotFound, store⟩
      | some item => ⟨request, .ok, stockLine item, store⟩ := by
  have hone : request.argc ≠ 1 := by omega
  simp only [serveRequest, h, ↓reduceIte, executeRequest, hc, handleShowRequest, hone,
    stockStoreFindNolock]
  cases findStockItem store request.id with
  | none => simp [text_finishResponse_init]
  | some item =>
    have hshort := length_stockLine_le item
    obtain ⟨-, happended, hroom⟩ := @responseAppendf_spec responseInit (by decide) (stockLine item)
    have hok := hroom (by simp only [responseInit, sizeMax]; omega)
    obtain ⟨-, htext, -⟩ := happended.resolve_right (by rw [hok]; decide)
    simp only [hok, finishResponse, ↓reduceIte, htext]
    rfl

/-- **A `show` of all items** is answered by their lines in order, or has failed with an internal
error; it does not fail while the listing fits a `size_t`. -/
theorem serveRequest_of_showAll {store : StockStore} {request : StockRequest}
    (h : validateRequest request = .ok) (hc : request.command = .requestShow)
    (hargc : request.argc = 1) :
    (serveRequest store request =
        ⟨request, .ok, (SearchTree.inorder store).flatMap stockLine, store⟩ ∨
      serveRequest store request =
        ⟨request, .errInternal, statusResponse .errInternal, store⟩) ∧
      (((SearchTree.inorder store).flatMap stockLine).length < sizeMax →
        (serveRequest store request).status = .ok) := by
  obtain ⟨hle, hshown, hroom⟩ :=
    @visitAll_appendStockLine responseInit (by decide) (SearchTree.inorder store)
  rw [← stockStoreInorderWalk_eq] at hle hshown hroom
  simp only [serveRequest, h, ↓reduceIte, executeRequest, hc, handleShowRequest, hargc]
  constructor
  · rcases hshown with ⟨hok, htext⟩ | herror
    · left
      simp only [hok, finishResponse, ↓reduceIte, htext]
      rfl
    · right
      simp only [herror]
      rw [text_finishResponse (by decide) hle]
  · intro hlen
    exact hroom (by simpa [responseInit] using hlen)

/-- **A listing is sent exactly if it fits a `size_t`.** -/
theorem serveRequest_of_showAll_ok_iff {store : StockStore} {request : StockRequest}
    (h : validateRequest request = .ok) (hc : request.command = .requestShow)
    (hargc : request.argc = 1) : (serveRequest store request).status = .ok ↔
      ((SearchTree.inorder store).flatMap stockLine).length < sizeMax := by
  obtain ⟨hcases, hfits⟩ := @serveRequest_of_showAll store request h hc hargc
  refine ⟨fun hok => ?_, hfits⟩
  rcases hcases with hlisting | herror
  · -- the text that is sent is in a bounded buffer
    have hbounded := bounded_visitAll bounded_responseInit (SearchTree.inorder store)
    have hresponse : (serveRequest store request).response =
        ((visitAll appendStockLine (SearchTree.inorder store)).run responseInit).2.text := by
      simp only [serveRequest, h, ↓reduceIte, executeRequest, hc, handleShowRequest, hargc] at hok ⊢
      rw [hok, finishResponse, if_pos rfl, stockStoreInorderWalk_eq]
    rw [hlisting] at hresponse
    rw [show (SearchTree.inorder store).flatMap stockLine = _ from hresponse,
      ResponseBuilder.text, List.length_map, List.length_range]
    exact hbounded.1.trans_le hbounded.2
  · rw [herror] at hok
    cases hok

/-- A request other than a valid buy or sell leaves the store as it is. -/
theorem serveRequest_store_of_not_isTrade {store : StockStore} {request : StockRequest}
    (h : ¬ IsTrade request) : (serveRequest store request).store = store := by
  simp only [serveRequest]
  split_ifs with hv
  · unfold executeRequest
    split
    · rfl
    · exact absurd ⟨hv, Or.inl ‹_›⟩ h
    · exact absurd ⟨hv, Or.inr ‹_›⟩ h
    · rfl
    · rfl
  · rfl

/-- A request that fails leaves the store as it is. -/
theorem serveRequest_store_of_ne_ok {store : StockStore} {request : StockRequest}
    (h : (serveRequest store request).status ≠ .ok) :
    (serveRequest store request).store = store := by
  by_cases htrade : IsTrade request
  · rw [serveRequest_of_isTrade htrade] at h ⊢
    exact applyDelta_store_of_ne_ok h
  · exact serveRequest_store_of_not_isTrade htrade

end StockServer
