import StockServer.Execute
import StockServer.Lib.Commute

set_option relaxedAutoImplicit false
set_option autoImplicit false

/-!
# Requests on different ids are independent

A valid buy or sell looks for one node and writes at most that one, so it neither sees nor changes
what a request on another id does.  Only the order of the requests on each id matters.

## Main definitions

* `answer` — serving a request as an operation on the store: the status and the bytes sent.
* `answersTo` — the requests on one id in a list that is served, with their answers.

## Main results

* `addLeftStock_comm`, `applyDelta_comm` — deltas of different ids commute.
* `commuting_answer` — valid trades on different ids are independent.
* `reordered_trades` — **two orders of valid trades that agree for every id** give the same answers
  and the same store.
-/

namespace StockServer

open SearchTree

/-- Serving a request: the status and the response, and the store after it. -/
def answer (store : StockStore) (request : StockRequest) : (StockStatus × Bytes) × StockStore :=
  let served := serveRequest store request
  ((served.status, served.response), served.store)

/-- What the requests on an id are answered when a list of requests is served. -/
def answersTo (id : Int32) (store : StockStore) (requests : List StockRequest) :
    List (StockRequest × StockStatus × Bytes) :=
  ((serveRequests store requests).1.filter (·.request.id = id)).map fun served =>
    (served.request, served.status, served.response)

/-! ## Deltas of different ids -/

variable {store : StockStore} {id id' delta delta' : Int32}

/-- Writing to one node leaves the writes to another alone. -/
theorem addLeftStock_comm (hne : id ≠ id') (store : StockStore) (delta delta' : Int32) :
    addLeftStock (addLeftStock store id delta) id' delta' =
      addLeftStock (addLeftStock store id' delta') id delta := by
  have hkey : ∀ (delta : Int32) (item : StockItem),
      (item.withLeftStock (item.leftStock + delta)).key = item.key := fun _ _ => rfl
  have hne' : id'.toInt ≠ id.toInt := fun h => hne (Int32.toInt_inj.mp h).symm
  simp only [addLeftStock_eq]
  exact adjust_comm StockItem.key (hkey delta') (hkey delta) hne' store

/-- A delta leaves the item of another id as it is. -/
theorem findStockItem_applyDelta_of_ne (hne : id ≠ id') (store : StockStore) (delta : Int32) :
    findStockItem (stockStoreApplyDeltaNolock store id delta).2 id' = findStockItem store id' := by
  cases hf : findStockItem store id with
  | none => rw [applyDelta_none hf]
  | some item =>
    by_cases ha : Applies item delta
    · rw [applyDelta_applies hf ha, findStockItem_addLeftStock, if_neg hne.symm]
    · rw [applyDelta_refused hf ha]

/-- What a delta does is decided by the item of its id: the status, and whether it is written. -/
theorem exists_applyDelta (store : StockStore) (id delta : Int32) :
    ∃ (status : StockStatus) (effect : StockStore → StockStore),
      (effect = (fun s => s) ∨ effect = fun s => addLeftStock s id delta) ∧
      ∀ store', findStockItem store' id = findStockItem store id →
        stockStoreApplyDeltaNolock store' id delta = (status, effect store') := by
  cases hf : findStockItem store id with
  | none => exact ⟨.errNotFound, fun s => s, Or.inl rfl, fun store' h => applyDelta_none h delta⟩
  | some item =>
    by_cases ha : Applies item delta
    · exact ⟨.ok, fun s => addLeftStock s id delta, Or.inr rfl,
        fun store' h => applyDelta_applies h ha⟩
    · exact ⟨.errInsufficient, fun s => s, Or.inl rfl, fun store' h => applyDelta_refused h ha⟩

/-- **Deltas of different ids commute**, and their statuses do not depend on the order. -/
theorem applyDelta_comm (hne : id ≠ id') (store : StockStore) (delta delta' : Int32) :
    (stockStoreApplyDeltaNolock (stockStoreApplyDeltaNolock store id delta).2 id' delta').1 =
        (stockStoreApplyDeltaNolock store id' delta').1 ∧
      (stockStoreApplyDeltaNolock (stockStoreApplyDeltaNolock store id delta).2 id' delta').2 =
        (stockStoreApplyDeltaNolock (stockStoreApplyDeltaNolock store id' delta').2 id delta).2 :=
    by
  have hfind := findStockItem_applyDelta_of_ne hne store delta
  have hfind' := findStockItem_applyDelta_of_ne hne.symm store delta'
  obtain ⟨status, effect, heffect, happly⟩ := exists_applyDelta store id delta
  obtain ⟨status', effect', heffect', happly'⟩ := exists_applyDelta store id' delta'
  rw [happly' _ hfind, happly _ hfind', happly' store rfl, happly store rfl]
  refine ⟨rfl, ?_⟩
  rcases heffect with rfl | rfl <;> rcases heffect' with rfl | rfl
  · rfl
  · rfl
  · rfl
  · exact addLeftStock_comm hne store delta delta'

/-! ## Requests -/

/-- A valid trade is answered by its delta. -/
theorem answer_of_isTrade {request : StockRequest} (h : IsTrade request) (store : StockStore) :
    answer store request =
      let applied := stockStoreApplyDeltaNolock store request.id (requestDelta request)
      ((applied.1, if applied.1 = .ok then successText else statusResponse applied.1),
        applied.2) := by
  rw [answer, serveRequest_of_isTrade h]
  rfl

/-- **Valid trades on different ids are independent.** -/
theorem commuting_answer : Commuting answer StockRequest.id IsTrade := by
  constructor
  · intro store a b ha hb hne
    rw [answer_of_isTrade ha, answer_of_isTrade hb, answer_of_isTrade hb, answer_of_isTrade ha]
    exact (applyDelta_comm hne store _ _).2
  · intro store a b ha hb hne
    rw [answer_of_isTrade ha, answer_of_isTrade hb, answer_of_isTrade ha]
    simp only [(applyDelta_comm hne.symm store _ _).1]

/-- Serving a list of requests is running them as operations on the store. -/
theorem serveRequests_eq_runOps (store : StockStore) (requests : List StockRequest) :
    (serveRequests store requests).2 = (runOps answer store requests).2 ∧
      ∀ id, answersTo id store requests =
        (runOps answer store requests).1.filter (·.1.id = id) := by
  induction requests generalizing store with
  | nil => exact ⟨rfl, fun _ => rfl⟩
  | cons request requests ih =>
    obtain ⟨hlast, hanswers⟩ := ih (serveRequest store request).store
    refine ⟨hlast, fun id => ?_⟩
    have hrest := hanswers id
    simp only [answersTo] at hrest
    have hrequest : (serveRequest store request).request = request := rfl
    simp only [answersTo, serveRequests, runOps, List.filter_cons, hrequest]
    split_ifs with hid
    · rw [List.map_cons, hrest]
      rfl
    · exact hrest

/-- **Only the order among requests on one id matters.**  Two sequences of valid buys and sells with
the same subsequence of requests for every id (and so reorderings of each other), served from the
same store, end in the identical store, and the requests on every id get the same answers. -/
theorem reordered_trades (store : StockStore) {requests requests' : List StockRequest}
    (htrades : ∀ request ∈ requests, IsTrade request)
    (htrades' : ∀ request ∈ requests', IsTrade request)
    (hsame : ∀ id, requests.filter (·.id = id) = requests'.filter (·.id = id)) :
    (serveRequests store requests).2 = (serveRequests store requests').2 ∧
      ∀ id, answersTo id store requests = answersTo id store requests' := by
  have halike := commuting_answer.sameByKey htrades htrades' hsame store
  obtain ⟨hlast, hanswers⟩ := serveRequests_eq_runOps store requests
  obtain ⟨hlast', hanswers'⟩ := serveRequests_eq_runOps store requests'
  refine ⟨?_, fun id => ?_⟩
  · rw [hlast, hlast', halike.last]
  · rw [hanswers, hanswers', halike.outputs]

/-- Two buys of the last piece of one item, and a sell of another before, between or after them. -/
theorem reordered_trades_sell_last :
    let buy : StockRequest := ⟨.requestBuy, 3, 1, 1, false⟩
    let sell : StockRequest := ⟨.requestSell, 3, 2, 5, false⟩
    let store : StockStore := .node ⟨1, 1, 10⟩ .nil (.node ⟨2, 0, 20⟩ .nil .nil)
    (serveRequests store [sell, buy, buy]).2 = (serveRequests store [buy, sell, buy]).2 ∧
      ∀ id, answersTo id store [sell, buy, buy] = answersTo id store [buy, sell, buy] := by
  intro buy sell store
  refine reordered_trades store (by decide) (by decide) fun id => ?_
  by_cases h₁ : (1 : Int32) = id
  · subst h₁
    decide
  · simp [buy, sell, List.filter_cons, h₁]

end StockServer
