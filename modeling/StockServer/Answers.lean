import StockServer.Execute

set_option relaxedAutoImplicit false
set_option autoImplicit false

/-!
# What is answered and what is done

A response is assembled after the store has been changed, it can fail to be assembled, and a
failure overwrites it.  Still the text sent tells exactly what happened to the store: one line of
input, one row of the table.

## Main results

* `serveRequest_cases` — the two things a request can do to the store.
* `applies_requestDelta_iff` — the check of a delta refuses exactly the buys of more than is left.
* `serveLine_answers` — **the answer to a line tells what it did**, for every store and every line.
-/

namespace StockServer

open SearchTree

/-! ## One line -/

/-- No error text of the protocol reads `success`. -/
theorem statusResponse_ne_success (status : StockStatus) : statusResponse status ≠ successText := by
  cases status <;> decide

/-- **What a request can do**: a trade that finds its item and passes the check adds its delta and
is answered `success`; everything else leaves the store, and no other trade is answered
`success`. -/
theorem serveRequest_cases (store : StockStore) (request : StockRequest) :
    (∃ item, IsTrade request ∧ findStockItem store request.id = some item ∧
      Applies item (requestDelta request) ∧
      (serveRequest store request).response = successText ∧
      (serveRequest store request).store = addLeftStock store request.id (requestDelta request)) ∨
    (serveRequest store request).store = store ∧
      (IsTrade request → (serveRequest store request).response ≠ successText ∧
        ∀ item, findStockItem store request.id = some item →
          ¬ Applies item (requestDelta request)) := by
  by_cases htrade : IsTrade request
  · rw [serveRequest_of_isTrade htrade]
    simp only [handleBuySellRequest]
    cases hf : findStockItem store request.id with
    | none => simp [applyDelta_none hf, statusResponse_ne_success]
    | some item =>
      by_cases ha : Applies item (requestDelta request)
      · exact Or.inl ⟨item, htrade, rfl, ha, by simp [applyDelta_applies hf ha]⟩
      · simp [applyDelta_refused hf ha, statusResponse_ne_success, ha]
  · exact Or.inr ⟨serveRequest_store_of_not_isTrade htrade, fun h => absurd h htrade⟩

/-- Only valid buys and sells are answered `success` among the buys and sells. -/
theorem isTrade_of_success {store : StockStore} {request : StockRequest}
    (hc : request.command = .requestBuy ∨ request.command = .requestSell)
    (hr : (serveRequest store request).response = successText) : IsTrade request := by
  refine ⟨?_, hc⟩
  by_contra hv
  rw [serveRequest_of_invalid hv] at hr
  exact statusResponse_ne_success _ hr

/-! ## The check of a trade -/

/-- The negation of a positive number is exact. -/
theorem toInt_neg_of_pos {x : Int32} (h : 0 < x.toInt) : (-x).toInt = -x.toInt := by
  have := x.toInt_lt
  rw [Int32.toInt_neg]
  apply Int.bmod_eq_of_le <;> omega

/-- The check of a signed count refuses exactly the buys of more than is left. -/
theorem applies_signed_iff {count : Int32} (hcount : 0 < count) (item : StockItem) (buy : Prop)
    [Decidable buy] : Applies item (if buy then -count else count) ↔
      ¬ (buy ∧ item.leftStock < count) := by
  have hpos : 0 < count.toInt := Int32.lt_iff_toInt_lt.mp hcount
  by_cases hbuy : buy
  · have hlow : -count < 0 := by
      rw [Int32.lt_iff_toInt_lt, toInt_neg_of_pos hpos]
      simpa using hpos
    rw [if_pos hbuy, Applies, Int32.neg_neg]
    simp only [hlow, hbuy, true_and]
  · have hhigh : ¬ count < 0 := by
      rw [Int32.lt_iff_toInt_lt]
      simpa using hpos.le
    rw [if_neg hbuy, Applies]
    simp only [hhigh, hbuy, false_and]

/-- **The check refuses exactly the buys of more than is left.** -/
theorem applies_requestDelta_iff {request : StockRequest} (h : IsTrade request)
    {item : StockItem} : Applies item (requestDelta request) ↔
      ¬ (request.command = .requestBuy ∧ item.leftStock < request.count) :=
  applies_signed_iff (count_pos_of_validate h.1 h.2) item _

/-- A delta is added to one node: the one the search has found. -/
theorem addLeftStock_eq_modifyAt {store : StockStore} {id : Int32} {item : StockItem}
    (h : findStockItem store id = some item) (delta : Int32) :
    ∃ p, recordAt p store = some item ∧ item.id = id ∧ addLeftStock store id delta =
      modifyAt (fun item => item.withLeftStock (item.leftStock + delta)) p store := by
  rw [findStockItem_eq] at h
  have hid : item.id = id := Int32.toInt_inj.mp (search_some _ h).2
  obtain ⟨p, l, r, hlead, hsub⟩ := exists_leads _ h
  refine ⟨p, by rw [recordAt, hsub], hid, ?_⟩
  rw [addLeftStock_eq]
  exact (hlead.modifyAt _ hsub (search_some _ h).2 rfl).symm

/-! ## Invalid commands -/

/-- No line of a listing is the text of an invalid command. -/
theorem stockLine_append_ne (item : StockItem) (rest : Bytes) :
    stockLine item ++ rest ≠ statusResponse .errInvalid := by
  intro h
  obtain ⟨b, s, hs⟩ := List.exists_cons_of_ne_nil (showInt_ne_nil item.id.toInt)
  have hb : b = 45 ∨ isdigit b = true := mem_showInt (by rw [hs]; simp)
  have hhead : (stockLine item ++ rest).head? = some b := by simp [stockLine, hs]
  rw [h] at hhead
  obtain rfl : 105 = b := by simpa [statusResponse, ascii] using hhead
  revert hb
  decide

/-- Only one status has the text of an invalid command. -/
theorem statusResponse_ne_invalid {status : StockStatus} (h : status ≠ .errInvalid) :
    statusResponse status ≠ statusResponse .errInvalid := by
  cases status <;> first | decide | exact absurd rfl h

/-- A valid `show` has no argument or one. -/
theorem argc_of_show {request : StockRequest} (h : validateRequest request = .ok)
    (hc : request.command = .requestShow) : request.argc = 1 ∨ request.argc = 2 := by
  unfold validateRequest at h
  split at h
  · cases h
  · exact or_iff_not_imp_left.mpr (by simpa [hc] using h)

/-- **`invalid command` is sent exactly for the requests that fail their validation.** -/
theorem response_eq_invalid_iff (store : StockStore) (request : StockRequest) :
    (serveRequest store request).response = statusResponse .errInvalid ↔
      validateRequest request ≠ .ok := by
  constructor
  · intro hresp hv
    have htrade : ¬ IsTrade request := by
      intro htrade
      rw [serveRequest_of_isTrade htrade] at hresp
      rcases handleBuySellRequest_status store request with hs | hs | hs <;>
        simp only [hs, reduceCtorEq, ↓reduceIte] at hresp
      · exact statusResponse_ne_success _ hresp.symm
      · exact statusResponse_ne_invalid (by decide) hresp
      · exact statusResponse_ne_invalid (by decide) hresp
    cases hc : request.command with
    | requestShow =>
      rcases argc_of_show hv hc with hargc | hargc
      · rcases (serveRequest_of_showAll hv hc hargc).1 with hs | hs <;> rw [hs] at hresp
        · -- a listing is empty or starts with a number
          have hlist : (inorder store).flatMap stockLine = statusResponse .errInvalid := hresp
          cases hitems : inorder store with
          | nil =>
            rw [hitems] at hlist
            exact absurd hlist (by decide)
          | cons item items =>
            rw [hitems, List.flatMap_cons] at hlist
            exact stockLine_append_ne item _ hlist
        · exact @statusResponse_ne_invalid .errInternal (by decide) hresp
      · rw [serveRequest_of_showOne hv hc hargc] at hresp
        cases hf : findStockItem store request.id with
        | none =>
          simp only [hf] at hresp
          exact statusResponse_ne_invalid (by decide) hresp
        | some item =>
          simp only [hf] at hresp
          exact stockLine_append_ne item [] (by rwa [List.append_nil])
    | requestBuy => exact htrade ⟨hv, Or.inl hc⟩
    | requestSell => exact htrade ⟨hv, Or.inr hc⟩
    | requestExit =>
      rw [serveRequest_of_exit hv hc] at hresp
      exact statusResponse_ne_success _ hresp.symm
    | requestUnknown => exact command_of_validate hv hc
  · intro hv
    rw [serveRequest_of_invalid hv, validateRequest_eq_errInvalid hv]

/-! ## The table -/

/-- **The three answers to a trade.**  The item is missing, or it is a buy of more than is left, or
the count is taken from or added to the quantity of the one node that was found. -/
theorem serveRequest_trade_cases (store : StockStore) {request : StockRequest}
    (h : IsTrade request) :
    findStockItem store request.id = none ∧
        serveRequest store request = ⟨request, .errNotFound, ascii "stock not found\n", store⟩ ∨
      (∃ item, findStockItem store request.id = some item ∧ request.command = .requestBuy ∧
        item.leftStock < request.count ∧ serveRequest store request =
          ⟨request, .errInsufficient, ascii "not enough left stock\n", store⟩) ∨
      ∃ item p, findStockItem store request.id = some item ∧
        ¬ (request.command = .requestBuy ∧ item.leftStock < request.count) ∧
        recordAt p store = some item ∧ item.id = request.id ∧
        serveRequest store request = ⟨request, .ok, ascii "success\n",
          modifyAt (fun item => item.withLeftStock (item.leftStock + requestDelta request))
            p store⟩ := by
  rw [serveRequest_of_isTrade h]
  simp only [handleBuySellRequest]
  cases hf : findStockItem store request.id with
  | none =>
    left
    simp only [applyDelta_none hf]
    exact ⟨trivial, rfl⟩
  | some item =>
    right
    by_cases ha : Applies item (requestDelta request)
    · right
      obtain ⟨p, hp, hid, hstore⟩ := addLeftStock_eq_modifyAt hf (requestDelta request)
      simp only [applyDelta_applies hf ha, hstore]
      exact ⟨item, p, rfl, (applies_requestDelta_iff h).mp ha, hp, hid, rfl⟩
    · left
      simp only [applyDelta_refused hf ha]
      obtain ⟨hc, hlow⟩ := not_not.mp (mt (applies_requestDelta_iff h).mpr ha)
      exact ⟨item, rfl, hc, hlow, rfl⟩

/-- **The answer to a line tells what it did.**  For every store and every line: without `success`
nothing has changed; a valid buy or sell is answered `stock not found` exactly when its id is not
found, a valid buy `not enough left stock` exactly when less is left than it wants, and every other
trade `success`, with the count taken from or added to the quantity of one node; `show` and `exit`
change nothing; and `invalid command` is sent exactly for the lines that parsing or validation
refuses.  On a search tree, an id is found exactly when it is in the tree. -/
theorem serveLine_answers (store : StockStore) (line : Bytes) :
    let request := parseRequest line
    let served := serveLine store line
    (served.response ≠ ascii "success\n" → served.store = store) ∧
      (IsTrade request →
        (served.response = ascii "stock not found\n" ↔ findStockItem store request.id = none) ∧
        (request.command = .requestBuy → (served.response = ascii "not enough left stock\n" ↔
          ∃ item, findStockItem store request.id = some item ∧ item.leftStock < request.count)) ∧
        (∀ item, findStockItem store request.id = some item →
          ¬ (request.command = .requestBuy ∧ item.leftStock < request.count) →
          served.response = ascii "success\n" ∧ ∃ p, recordAt p store = some item ∧
            item.id = request.id ∧ served.store = modifyAt (fun item => item.withLeftStock
              (if request.command = .requestBuy then item.leftStock - request.count
                else item.leftStock + request.count)) p store)) ∧
      (request.command = .requestShow ∨ request.command = .requestExit → served.store = store) ∧
      (served.response = ascii "invalid command\n" ↔ validateRequest request ≠ .ok) ∧
      (Ordered store → ∀ id, findStockItem store id = none ↔
        ∀ item ∈ inorder store, item.id ≠ id) := by
  intro request served
  refine ⟨fun hresp => ?_, fun htrade => ?_, fun hc => ?_, response_eq_invalid_iff store request,
    fun hord id => ?_⟩
  · rcases serveRequest_cases store request with ⟨item, -, -, -, hsuccess, -⟩ | ⟨hstore, -⟩
    · exact absurd hsuccess hresp
    · exact hstore
  · have hneg : requestDelta request =
        if request.command = .requestBuy then -request.count else request.count := rfl
    rcases serveRequest_trade_cases store htrade with ⟨hf, hs⟩ | ⟨item, hf, hc, hlow, hs⟩ |
        ⟨item, p, hf, hcheck, hp, hid, hs⟩
    · have hresp : served.response = ascii "stock not found\n" := congrArg Served.response hs
      rw [hresp, hf]
      refine ⟨by decide, fun _ => iff_of_false (by decide) (by simp), by simp⟩
    · have hresp : served.response = ascii "not enough left stock\n" :=
        congrArg Served.response hs
      rw [hresp, hf]
      refine ⟨iff_of_false (by decide) (by simp), fun _ => iff_of_true rfl ⟨item, rfl, hlow⟩,
        fun item' hitem hcheck => ?_⟩
      obtain rfl := Option.some.inj hitem
      exact absurd ⟨hc, hlow⟩ hcheck
    · have hresp : served.response = ascii "success\n" := congrArg Served.response hs
      have hstore : served.store = _ := congrArg Served.store hs
      rw [hresp, hstore, hf]
      refine ⟨iff_of_false (by decide) (by simp), fun hc => iff_of_false (by decide) ?_,
        fun item' hitem _ => ?_⟩
      · rintro ⟨item', hitem, hlow⟩
        obtain rfl := Option.some.inj hitem
        exact hcheck ⟨hc, hlow⟩
      · obtain rfl := Option.some.inj hitem
        refine ⟨rfl, p, hp, hid, ?_⟩
        rw [hneg]
        split_ifs
        · simp only [Int32.sub_eq_add_neg]
        · rfl
  · apply serveRequest_store_of_not_isTrade
    rintro ⟨-, htrade | htrade⟩ <;> rcases hc with hc | hc <;>
      exact absurd (hc.symm.trans htrade) (by decide)
  · rw [findStockItem_eq, search_eq_none_iff _ hord]
    simp only [StockItem.key, ne_eq, Int32.toInt_inj]

end StockServer
