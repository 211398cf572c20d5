import Mathlib.Algebra.Order.Group.Int
import Mathlib.Algebra.BigOperators.Group.List.Basic
import StockServer.Answers

set_option relaxedAutoImplicit false
set_option autoImplicit false

/-!
# Accounting: what the successful buys and sells add up to

Over a run of request lines, every item should hold its first value plus what was sold minus what
was bought, within `0` and `INT_MAX`, with no signed operation out of range.  A buy checks the
quantity before it subtracts; a sell adds without a check.  So the accounts are right exactly as
long as the sums that the sells compute fit an `int`.

## Main definitions

* `SignedOp`, `signedOps` — the `int` operations that executing a line performs.
* `soldTotal`, `boughtTotal` — the counts of the sells and buys on an id answered `success`.
* `Balanced`, `Accounted` — the accounts are right in one state, and in every state of a run.
* `SellsFit` — no sell of the run would take an item past `INT_MAX`.

## Main results

* `accounted_iff_sellsFit` — the accounts of a run are right if and only if every sell fits and no
  item starts out negative.
-/

namespace StockServer

open SearchTree

/-! ## Integer arithmetic of C -/

/-- An operation on `int`. -/
inductive SignedOp where
  | neg (x : Int32)
  | add (x y : Int32)
  deriving DecidableEq, Repr

/-- The exact result of an operation. -/
def SignedOp.value : SignedOp → ℤ
  | .neg x => -x.toInt
  | .add x y => x.toInt + y.toInt

/-- The exact result is an `int`: the operation does not overflow. -/
def SignedOp.Fits (o : SignedOp) : Prop := intMin ≤ o.value ∧ o.value ≤ intMax

/-- The operations of `stock_store_apply_delta_nolock`. -/
def applyDeltaOps (store : StockStore) (id delta : Int32) : List SignedOp :=
  match findStockItem store id with
  | none => []
  | some item =>
    (if delta < 0 then [.neg delta] else []) ++
      if Applies item delta then [.add item.leftStock delta] else []

/-- The operations on counts, deltas and quantities that serving a line performs. -/
def signedOps (store : StockStore) (line : Bytes) : List SignedOp :=
  let request := parseRequest line
  if IsTrade request then
    (if request.command = .requestBuy then [.neg request.count] else []) ++
      applyDeltaOps store request.id (requestDelta request)
  else []

/-- An addition that fits is exact. -/
theorem toInt_add_of_fits {x y : Int32} (h : (SignedOp.add x y).Fits) :
    (x + y).toInt = x.toInt + y.toInt := by
  simp only [SignedOp.Fits, SignedOp.value, intMin, intMax] at h
  rw [Int32.toInt_add]
  apply Int.bmod_eq_of_le <;> omega

/-- The delta of a valid request is its count with the sign of the command. -/
theorem toInt_requestDelta {request : StockRequest} (h : IsTrade request) :
    (requestDelta request).toInt =
      if request.command = .requestBuy then -request.count.toInt else request.count.toInt := by
  have hpos : 0 < request.count.toInt :=
    Int32.lt_iff_toInt_lt.mp (count_pos_of_validate h.1 h.2)
  unfold requestDelta
  split_ifs
  · exact toInt_neg_of_pos hpos
  · rfl

/-! ## Totals -/

/-- The counts of the requests with this command on this id that were answered `success`. -/
def countTotal (command : RequestCommand) (id : Int32) (served : List Served) : ℤ :=
  (served.map fun s =>
    if s.request.command = command ∧ s.request.id = id ∧ s.response = successText
    then s.request.count.toInt else 0).sum

/-- The counts of the successful sells on an id. -/
abbrev soldTotal := countTotal .requestSell

/-- The counts of the successful buys on an id. -/
abbrev boughtTotal := countTotal .requestBuy

/-- One more request adds its own count, if it counts. -/
theorem countTotal_concat (command : RequestCommand) (id : Int32) (l : List Served)
    (s : Served) : countTotal command id (l ++ [s]) = countTotal command id l +
      if s.request.command = command ∧ s.request.id = id ∧ s.response = successText
      then s.request.count.toInt else 0 := by
  simp [countTotal]

/-- What one served request adds to the net total of an id: its delta if it changed the store on
that id, and nothing otherwise. -/
def netDelta (store : StockStore) (request : StockRequest) (id : Int32) : ℤ :=
  (if request.command = .requestSell ∧ request.id = id ∧
      (serveRequest store request).response = successText then request.count.toInt else 0) -
    if request.command = .requestBuy ∧ request.id = id ∧
      (serveRequest store request).response = successText then request.count.toInt else 0

/-- A successful trade counts as its delta on its own id. -/
theorem netDelta_of_success {store : StockStore} {request : StockRequest} (h : IsTrade request)
    (hr : (serveRequest store request).response = successText) (id : Int32) :
    netDelta store request id = if request.id = id then (requestDelta request).toInt else 0 := by
  rw [toInt_requestDelta h, netDelta]
  rcases h.2 with hc | hc <;> by_cases hid : request.id = id <;> simp [hc, hid, hr]

/-- Everything else counts as nothing. -/
theorem netDelta_of_not_success {store : StockStore} {request : StockRequest}
    (h : IsTrade request → (serveRequest store request).response ≠ successText)
    (id : Int32) : netDelta store request id = 0 := by
  have hno : ∀ command : RequestCommand, (command = .requestBuy ∨ command = .requestSell) →
      ¬ (request.command = command ∧ request.id = id ∧
        (serveRequest store request).response = successText) := by
    rintro command hc ⟨rfl, -, hr⟩
    exact h (isTrade_of_success hc hr) hr
  simp [netDelta, hno]

/-- The net total after one more request. -/
theorem net_concat (id : Int32) (l : List Served) (store : StockStore) (request : StockRequest) :
    soldTotal id (l ++ [serveRequest store request]) -
        boughtTotal id (l ++ [serveRequest store request]) =
      soldTotal id l - boughtTotal id l + netDelta store request id := by
  rw [soldTotal, boughtTotal, countTotal_concat, countTotal_concat]
  exact add_sub_add_comm _ _ _ _

/-! ## The accounts of a run -/

/-- The store after a list of lines. -/
def after (store : StockStore) (lines : List Bytes) : StockStore := (serveLines store lines).2

/-- What the lines of a list ended with. -/
def answers (store : StockStore) (lines : List Bytes) : List Served := (serveLines store lines).1

@[simp] theorem after_nil (store : StockStore) : after store [] = store := rfl

theorem after_concat (store : StockStore) (lines : List Bytes) (line : Bytes) :
    after store (lines ++ [line]) =
      (serveRequest (after store lines) (parseRequest line)).store := by
  simp [after, serveLines, serveRequests_concat]

theorem answers_concat (store : StockStore) (lines : List Bytes) (line : Bytes) :
    answers store (lines ++ [line]) =
      answers store lines ++ [serveRequest (after store lines) (parseRequest line)] := by
  simp [answers, after, serveLines, serveRequests_concat]

/-- The accounts are right in the state after `lines`: the tree has the shape, ids and prices it
started with, and every quantity lies in `0..INT_MAX` and is the first one plus the successful
sells minus the successful buys on its id. -/
structure Balanced (store₀ : StockStore) (lines : List Bytes) : Prop where
  frame : (after store₀ lines).map (fun item => (item.id, item.price)) =
    store₀.map fun item => (item.id, item.price)
  items : ∀ item ∈ inorder (after store₀ lines), ∃ item₀ ∈ inorder store₀,
    item₀.id = item.id ∧ 0 ≤ item.leftStock.toInt ∧ item.leftStock.toInt ≤ intMax ∧
      item.leftStock.toInt = item₀.leftStock.toInt + soldTotal item.id (answers store₀ lines) -
        boughtTotal item.id (answers store₀ lines)

/-- The accounts are right in every state of a run, and no operation on the way overflows. -/
structure Accounted (store₀ : StockStore) (lines : List Bytes) : Prop where
  balanced : ∀ pre, pre <+: lines → Balanced store₀ pre
  exact_ops : ∀ pre line, pre ++ [line] <+: lines →
    ∀ o ∈ signedOps (after store₀ pre) line, o.Fits

/-- No item starts out negative, and no sell of the run would take its item past `INT_MAX`. -/
structure SellsFit (store₀ : StockStore) (lines : List Bytes) : Prop where
  nonneg : ∀ item ∈ inorder store₀, 0 ≤ item.leftStock.toInt
  fits : ∀ pre line, pre ++ [line] <+: lines → IsTrade (parseRequest line) →
    (parseRequest line).command = .requestSell →
    ∀ item, findStockItem (after store₀ pre) (parseRequest line).id = some item →
      item.leftStock.toInt + (parseRequest line).count.toInt ≤ intMax

/-- What the check of a buy and the condition on a sell give: the new quantity is computed
exactly and is not negative. -/
theorem add_fits {item : StockItem} {request : StockRequest} (htrade : IsTrade request)
    (hitem : 0 ≤ item.leftStock.toInt) (happ : Applies item (requestDelta request))
    (hsell : request.command = .requestSell →
      item.leftStock.toInt + request.count.toInt ≤ intMax) :
    (SignedOp.add item.leftStock (requestDelta request)).Fits ∧
      0 ≤ item.leftStock.toInt + (requestDelta request).toInt := by
  have hpos : 0 < request.count.toInt :=
    Int32.lt_iff_toInt_lt.mp (count_pos_of_validate htrade.1 htrade.2)
  have hdelta := toInt_requestDelta htrade
  have hmax := item.leftStock.toInt_lt
  simp only [SignedOp.Fits, SignedOp.value, intMin, intMax] at hsell ⊢
  rcases htrade.2 with hc | hc
  · -- a buy: the check compared the quantity with the count
    rw [if_pos hc] at hdelta
    have hneg : - requestDelta request = request.count := by
      rw [requestDelta, if_pos hc, Int32.neg_neg]
    have hcheck : request.count.toInt ≤ item.leftStock.toInt := by
      by_contra hlow
      refine happ ⟨Int32.lt_iff_toInt_lt.mpr ?_, Int32.lt_iff_toInt_lt.mpr ?_⟩
      · rw [hdelta]; simpa using hpos
      · rw [hneg]; omega
    omega
  · have hnb : request.command ≠ .requestBuy := by rw [hc]; decide
    rw [if_neg hnb] at hdelta
    have := hsell hc
    omega

/-- The operations of `stock_store_apply_delta_nolock`, all on an item that is found. -/
theorem mem_applyDeltaOps {store : StockStore} {id delta : Int32} {o : SignedOp} :
    o ∈ applyDeltaOps store id delta ↔ ∃ item, findStockItem store id = some item ∧
      (delta < 0 ∧ o = .neg delta ∨ Applies item delta ∧ o = .add item.leftStock delta) := by
  unfold applyDeltaOps
  cases findStockItem store id with
  | none => simp
  | some item =>
    by_cases hneg : delta < 0 <;> by_cases happ : Applies item delta <;> simp [hneg, happ]

/-- The operations of a line: those of a trade. -/
theorem mem_signedOps {store : StockStore} {line : Bytes} {o : SignedOp} :
    o ∈ signedOps store line ↔ IsTrade (parseRequest line) ∧
      ((parseRequest line).command = .requestBuy ∧ o = .neg (parseRequest line).count ∨
        o ∈ applyDeltaOps store (parseRequest line).id (requestDelta (parseRequest line))) := by
  simp only [signedOps]
  by_cases htrade : IsTrade (parseRequest line)
  · by_cases hbuy : (parseRequest line).command = .requestBuy <;> simp [htrade, hbuy]
  · simp [htrade]

/-- The addition to the quantity of an item that is found is among the operations. -/
theorem add_mem_signedOps {store : StockStore} {line : Bytes} {item : StockItem}
    (htrade : IsTrade (parseRequest line))
    (hfind : findStockItem store (parseRequest line).id = some item)
    (happ : Applies item (requestDelta (parseRequest line))) :
    .add item.leftStock (requestDelta (parseRequest line)) ∈ signedOps store line :=
  mem_signedOps.mpr ⟨htrade, Or.inr (mem_applyDeltaOps.mpr ⟨item, hfind, Or.inr ⟨happ, rfl⟩⟩)⟩

/-- Every operation of a line fits if the addition does. -/
theorem signedOps_fit {store : StockStore} {line : Bytes}
    (hadd : ∀ item, IsTrade (parseRequest line) →
      findStockItem store (parseRequest line).id = some item →
      Applies item (requestDelta (parseRequest line)) →
      (SignedOp.add item.leftStock (requestDelta (parseRequest line))).Fits) :
    ∀ o ∈ signedOps store line, o.Fits := by
  intro o ho
  obtain ⟨htrade, ho⟩ := mem_signedOps.mp ho
  have hpos : 0 < (parseRequest line).count.toInt :=
    Int32.lt_iff_toInt_lt.mp (count_pos_of_validate htrade.1 htrade.2)
  have hmax := (parseRequest line).count.toInt_lt
  rcases ho with ⟨-, rfl⟩ | ho
  · simp only [SignedOp.Fits, SignedOp.value, intMin, intMax]
    omega
  · obtain ⟨item, hfind, ⟨hneg, rfl⟩ | ⟨happ, rfl⟩⟩ := mem_applyDeltaOps.mp ho
    · have hdelta := toInt_requestDelta htrade
      have hneg : (requestDelta (parseRequest line)).toInt < 0 := by
        simpa using Int32.lt_iff_toInt_lt.mp hneg
      simp only [SignedOp.Fits, SignedOp.value, intMin, intMax]
      split_ifs at hdelta <;> omega
    · exact hadd item htrade hfind happ

/-- The frame of a balanced state keeps the search order. -/
theorem Balanced.ordered {store₀ : StockStore} {lines : List Bytes} (h : Balanced store₀ lines)
    (hord : Ordered store₀) : Ordered (after store₀ lines) := by
  have hiff : ∀ t : StockStore, SearchTree.Ordered (fun p : Int32 × Int32 => p.1.toInt)
      (t.map fun item => (item.id, item.price)) ↔ SearchTree.Ordered StockItem.key t :=
    ordered_map_iff StockItem.key fun _ => rfl
  rw [Ordered, ← hiff, h.frame, hiff]
  exact hord

/-- One line keeps the accounts right, if the addition it makes fits and gives no negative
quantity. -/
theorem Balanced.concat {store₀ : StockStore} (hord : Ordered store₀) {lines : List Bytes}
    {line : Bytes} (h : Balanced store₀ lines)
    (hadd : ∀ item, IsTrade (parseRequest line) →
      findStockItem (after store₀ lines) (parseRequest line).id = some item →
      Applies item (requestDelta (parseRequest line)) →
      (SignedOp.add item.leftStock (requestDelta (parseRequest line))).Fits ∧
        0 ≤ item.leftStock.toInt + (requestDelta (parseRequest line)).toInt) :
    Balanced store₀ (lines ++ [line]) := by
  have hnet : ∀ id, soldTotal id (answers store₀ (lines ++ [line])) -
      boughtTotal id (answers store₀ (lines ++ [line])) =
      soldTotal id (answers store₀ lines) - boughtTotal id (answers store₀ lines) +
        netDelta (after store₀ lines) (parseRequest line) id := by
    intro id
    rw [answers_concat]
    exact net_concat id _ _ _
  rcases serveRequest_cases (after store₀ lines) (parseRequest line) with
    ⟨item, htrade, hfind, happ, hresp, hstore⟩ | ⟨hstore, hno⟩
  · obtain ⟨hfits, hnonneg⟩ := hadd item htrade hfind happ
    have hitem := (findStockItem_eq_some_iff (h.ordered hord)).mp hfind
    refine ⟨?_, fun new hnew => ?_⟩
    · rw [after_concat, hstore, frame_addLeftStock, h.frame]
    · rw [after_concat, hstore, inorder_addLeftStock (h.ordered hord), List.mem_map] at hnew
      obtain ⟨old, hold, hnew⟩ := hnew
      obtain ⟨item₀, hitem₀, hid, hlow, hhigh, hsum⟩ := h.items old hold
      by_cases hkey : old.id = (parseRequest line).id
      · -- the item that the delta was added to
        obtain rfl : old = item := by
          have := (findStockItem_eq_some_iff (h.ordered hord)).mpr ⟨hold, hkey⟩
          simpa [hfind] using this.symm
        rw [if_pos hkey] at hnew
        subst hnew
        have hnet := hnet old.id
        rw [netDelta_of_success htrade hresp, if_pos hkey.symm] at hnet
        have hsumNew := toInt_add_of_fits hfits
        have hbound := hfits.2
        simp only [SignedOp.value] at hbound
        refine ⟨item₀, hitem₀, hid, ?_, ?_, ?_⟩ <;>
          simp only [StockItem.withLeftStock, hsumNew] <;> omega
      · rw [if_neg hkey] at hnew
        subst hnew
        have hnet := hnet old.id
        rw [netDelta_of_success htrade hresp, if_neg (Ne.symm hkey)] at hnet
        exact ⟨item₀, hitem₀, hid, hlow, hhigh, by omega⟩
  · refine ⟨by rw [after_concat, hstore]; exact h.frame, fun item hitem => ?_⟩
    rw [after_concat, hstore] at hitem
    obtain ⟨item₀, hitem₀, hid, hlow, hhigh, hsum⟩ := h.items item hitem
    have hnet := hnet item.id
    rw [netDelta_of_not_success (fun ht => (hno ht).1)] at hnet
    exact ⟨item₀, hitem₀, hid, hlow, hhigh, by omega⟩

/-- Before the first line the accounts are right exactly when no item is negative. -/
theorem balanced_nil {store₀ : StockStore}
    (h : ∀ item ∈ inorder store₀, 0 ≤ item.leftStock.toInt) : Balanced store₀ [] := by
  refine ⟨rfl, fun item hitem => ⟨item, hitem, rfl, h item hitem, ?_, ?_⟩⟩
  · have := item.leftStock.toInt_lt
    unfold intMax
    omega
  · simp [answers, serveLines, serveRequests, countTotal]

/-- **The accounts of a run are right if and only if every sell fits** and no item starts out
negative.

**Proof sketch.** From right to left, induction on the prefixes of the run: each line is one
step, and the check of a buy and the fitting of a sell make its addition exact.  From left to
right, the addition of an applied sell is one of the operations that do not overflow. -/
theorem accounted_iff_sellsFit {store₀ : StockStore} (hord : Ordered store₀)
    (lines : List Bytes) : Accounted store₀ lines ↔ SellsFit store₀ lines := by
  constructor
  · intro h
    refine ⟨fun item hitem => ?_, fun pre line hpre htrade hsell item hfind => ?_⟩
    · obtain ⟨_, _, _, hlow, _⟩ := (h.balanced [] List.nil_prefix).items item hitem
      exact hlow
    · have hdelta := toInt_requestDelta htrade
      rw [if_neg (by rw [hsell]; decide)] at hdelta
      have hpos : 0 < (parseRequest line).count.toInt :=
        Int32.lt_iff_toInt_lt.mp (count_pos_of_validate htrade.1 htrade.2)
      have happ : Applies item (requestDelta (parseRequest line)) := by
        rintro ⟨hneg, -⟩
        have := Int32.lt_iff_toInt_lt.mp hneg
        rw [hdelta] at this
        exact absurd this (by simpa using hpos.le)
      have hfits := h.exact_ops pre line hpre _ (add_mem_signedOps htrade hfind happ)
      have hle := hfits.2
      rwa [SignedOp.value, hdelta] at hle
  · intro h
    have hadd : ∀ pre line, pre ++ [line] <+: lines → Balanced store₀ pre → ∀ item,
        IsTrade (parseRequest line) →
        findStockItem (after store₀ pre) (parseRequest line).id = some item →
        Applies item (requestDelta (parseRequest line)) →
        (SignedOp.add item.leftStock (requestDelta (parseRequest line))).Fits ∧
          0 ≤ item.leftStock.toInt + (requestDelta (parseRequest line)).toInt := by
      intro pre line hpre hbal item htrade hfind happ
      have hmem := (findStockItem_eq_some_iff (hbal.ordered hord)).mp hfind
      obtain ⟨_, _, _, hlow, _⟩ := hbal.items item hmem.1
      exact add_fits htrade hlow happ fun hsell => h.fits pre line hpre htrade hsell item hfind
    have hbal : ∀ pre, pre <+: lines → Balanced store₀ pre := by
      intro pre
      induction pre using List.reverseRecOn with
      | nil => exact fun _ => balanced_nil h.nonneg
      | append_singleton pre line ih =>
        intro hpre
        have hprev := ih ((List.prefix_append pre [line]).trans hpre)
        exact hprev.concat hord (hadd pre line hpre hprev)
    refine ⟨hbal, fun pre line hpre => signedOps_fit fun item htrade hfind happ => ?_⟩
    have hprev := hbal pre ((List.prefix_append pre [line]).trans hpre)
    exact (hadd pre line hpre hprev item htrade hfind happ).1

end StockServer
