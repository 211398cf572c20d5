import StockServer.Answers
import StockServer.Records

set_option relaxedAutoImplicit false
set_option autoImplicit false

/-!
# The log of a live server

Two paths change quantities: the request path of `stock_server.c`, and the replay of log records in
`stock_persistence.c`, with checks and a sign convention of its own.  They agree: the records of
the trades that a live server has answered `success` replay on a copy of its first store to the
store it ended with.

## Main definitions

* `Served.logRecord`, `tradeLog` — the record of a successful trade, and those of a run.
* `applyRecords` — records applied one after another, up to the first that is refused.

## Main results

* `applyAofRecord_of_success` — a successful trade and its record do the same to a store.
* `applyRecords_tradeLog` — **the log of a live server replays to its store**.
-/

namespace StockServer

open SearchTree

/-- The log record of a buy or sell that was answered `success`. -/
def Served.logRecord (served : Served) : Option StockLogRecord :=
  if served.response = successText then
    match served.request.command with
    | .requestBuy => some ⟨.buy, served.request.id, served.request.count⟩
    | .requestSell => some ⟨.sell, served.request.id, served.request.count⟩
    | _ => none
  else none

/-- The log records of a run, in execution order. -/
def tradeLog (served : List Served) : List StockLogRecord := served.filterMap Served.logRecord

/-- Records applied one after another, up to the first that is refused. -/
def applyRecords (store : StockStore) : List StockLogRecord → StockStatus × StockStore
  | [] => (.ok, store)
  | record :: records =>
    let next := applyAofRecord store record
    if next.1 ≠ .ok then next else applyRecords next.2 records

/-- A record that is accepted is followed by the rest. -/
theorem applyRecords_cons {store : StockStore} {record : StockLogRecord}
    (h : (applyAofRecord store record).1 = .ok) (records : List StockLogRecord) :
    applyRecords store (record :: records) =
      applyRecords (applyAofRecord store record).2 records := by
  simp only [applyRecords, h, ne_eq, not_true_eq_false, ↓reduceIte]

/-- All ids are positive. -/
def PositiveIds (store : StockStore) : Prop := ∀ item ∈ inorder store, 0 < item.id

/-- An item that is found has the id searched for and is in the tree. -/
theorem mem_of_findStockItem {store : StockStore} {id : Int32} {item : StockItem}
    (h : findStockItem store id = some item) : item ∈ inorder store ∧ item.id = id := by
  rw [findStockItem_eq] at h
  exact ⟨(search_some _ h).1, Int32.toInt_inj.mp (search_some _ h).2⟩

/-- An applied delta changes no id. -/
theorem PositiveIds.addLeftStock {store : StockStore} (h : PositiveIds store) (id delta : Int32) :
    PositiveIds (addLeftStock store id delta) := by
  intro item hitem
  have hids : (inorder (StockServer.addLeftStock store id delta)).map
      (fun item => (item.id, item.price)) =
      (inorder store).map fun item => (item.id, item.price) := by
    rw [← inorder_map, frame_addLeftStock, inorder_map]
  have hmem : (item.id, item.price) ∈ (inorder store).map fun item => (item.id, item.price) := by
    rw [← hids]
    exact List.mem_map_of_mem hitem
  obtain ⟨item₀, hitem₀, heq⟩ := List.mem_map.mp hmem
  have hid : item₀.id = item.id := congrArg Prod.fst heq
  rw [← hid]
  exact h item₀ hitem₀

/-- **A successful trade and its record do the same**: the record is accepted, and applies the
delta of the request. -/
theorem applyAofRecord_of_success {store : StockStore} (hpos : PositiveIds store)
    {request : StockRequest} {item : StockItem} (htrade : IsTrade request)
    (hfind : findStockItem store request.id = some item)
    (happ : Applies item (requestDelta request)) (op : StockLogOp)
    (hop : op = .buy ↔ request.command = .requestBuy) :
    applyAofRecord store ⟨op, request.id, request.count⟩ =
      (.ok, addLeftStock store request.id (requestDelta request)) := by
  obtain ⟨hmem, hid⟩ := mem_of_findStockItem hfind
  have hid : ¬ request.id ≤ 0 := Int32.not_le.mpr (hid ▸ hpos item hmem)
  have hcount : ¬ request.count ≤ 0 := Int32.not_le.mpr (count_pos_of_validate htrade.1 htrade.2)
  have hdelta : (if op = .buy then -request.count else request.count) = requestDelta request := by
    simp only [hop, requestDelta]
  simp only [applyAofRecord, hid, hcount, or_self, ↓reduceIte, hdelta]
  exact applyDelta_applies hfind happ

/-- One request and its record, if it has one, take a store to the same store. -/
theorem applyRecords_logRecord {store : StockStore} (hpos : PositiveIds store)
    (request : StockRequest) : PositiveIds (serveRequest store request).store ∧
      ∀ records, applyRecords store ((serveRequest store request).logRecord.toList ++ records) =
        applyRecords (serveRequest store request).store records := by
  have hrequest : (serveRequest store request).request = request := rfl
  rcases serveRequest_cases store request with
    ⟨item, htrade, hfind, happ, hresp, hstore⟩ | ⟨hstore, hno⟩
  · -- a successful trade
    rw [hstore]
    refine ⟨hpos.addLeftStock _ _, fun records => ?_⟩
    rcases htrade.2 with hc | hc
    · have happly := applyAofRecord_of_success hpos htrade hfind happ .buy (by simp [hc])
      simp [Served.logRecord, hresp, hrequest, hc, applyRecords, happly]
    · have happly := applyAofRecord_of_success hpos htrade hfind happ .sell (by simp [hc])
      simp [Served.logRecord, hresp, hrequest, hc, applyRecords, happly]
  · -- the store is as it was, and nothing is logged
    have hnone : (serveRequest store request).logRecord = none := by
      unfold Served.logRecord
      split_ifs with hresp
      · have hnot : ¬ (request.command = .requestBuy ∨ request.command = .requestSell) :=
          fun hc => (hno (isTrade_of_success hc hresp)).1 hresp
        rw [not_or] at hnot
        rw [hrequest]
        split <;> simp_all
      · rfl
    rw [hstore, hnone]
    exact ⟨hpos, fun records => rfl⟩

/-- **The log of a live server replays to its store.**  For every store whose ids are positive and
every sequence of lines, the records of the trades answered `success` are all accepted when they
are applied to a copy of the first store, and end in the store of the server, node for node.

**Proof sketch.** Induction on the lines: one request and its record go the same step. -/
theorem applyRecords_tradeLog {store : StockStore} (hpos : PositiveIds store)
    (lines : List Bytes) :
    applyRecords store (tradeLog (serveLines store lines).1) =
      (.ok, (serveLines store lines).2) := by
  induction lines generalizing store with
  | nil => rfl
  | cons line lines ih =>
    obtain ⟨hnext, hstep⟩ := applyRecords_logRecord hpos (parseRequest line)
    have hlog : tradeLog (serveLines store (line :: lines)).1 =
        (serveRequest store (parseRequest line)).logRecord.toList ++
          tradeLog (serveLines (serveRequest store (parseRequest line)).store lines).1 := by
      simp only [tradeLog, serveLines, List.map_cons, serveRequests, List.filterMap_cons]
      cases (serveRequest store (parseRequest line)).logRecord <;> rfl
    have hlast : (serveLines store (line :: lines)).2 =
        (serveLines (serveRequest store (parseRequest line)).store lines).2 := rfl
    rw [hlog, hlast, hstep, ih hnext]

/-- A buy, a buy of too much, a sell of a missing item and a sell. -/
theorem applyRecords_tradeLog_mixed :
    let store : StockStore := .node ⟨1, 5, 100⟩ .nil .nil
    let lines := [ascii "buy 1 2\n", ascii "buy 1 9\n", ascii "sell 2 1\n", ascii "sell 1 3\n"]
    applyRecords store (tradeLog (serveLines store lines).1) = (.ok, (serveLines store lines).2) ∧
      tradeLog (serveLines store lines).1 = [⟨.buy, 1, 2⟩, ⟨.sell, 1, 3⟩] := by
  intro store lines
  have hpos : PositiveIds store := by
    intro item hitem
    obtain rfl := List.mem_singleton.mp hitem
    decide
  exact ⟨applyRecords_tradeLog hpos lines, by decide +kernel⟩

end StockServer
