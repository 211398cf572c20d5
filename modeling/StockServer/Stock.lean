import Mathlib.Data.Nat.Notation

set_option relaxedAutoImplicit false
set_option autoImplicit false

/-!
# Shared data types

The types of `stock.h`, which the store, the request handlers and the persistence code share.
C's `int` is `Int32` and `long long` is `Int64`: arithmetic wraps, as the compiled code does.

## Main definitions

* `StockStatus` — the status codes.
* `StockGen` — a generation number.
* `StockRecord`, `StockLogOp`, `StockLogRecord`, `StockManifest` — the records of the data files.
-/

namespace StockServer

/-- `stock_status_t`. -/
inductive StockStatus where
  | ok
  | errNotFound
  | errInsufficient
  | errInvalid
  | errIo
  | errInternal
  deriving DecidableEq, Repr

/-- `stock_gen_t`. -/
abbrev StockGen := Int64

/-- `stock_record_t`: one line of an init file or a snapshot. -/
structure StockRecord where
  id : Int32
  leftStock : Int32
  price : Int32
  deriving DecidableEq, Repr

/-- `stock_log_op_t`. -/
inductive StockLogOp where
  | buy
  | sell
  deriving DecidableEq, Repr

/-- `stock_log_record_t`: one line of an append-only log. -/
structure StockLogRecord where
  op : StockLogOp
  id : Int32
  count : Int32
  deriving DecidableEq, Repr

/-- `stock_manifest_t`. -/
structure StockManifest where
  gen : StockGen
  deriving DecidableEq, Repr

/-- A positive `int` is at least one. -/
theorem one_le_iff_pos {x : Int32} : 1 ≤ x ↔ 0 < x := by
  rw [Int32.le_iff_toInt_le, Int32.lt_iff_toInt_lt]
  exact Iff.rfl

end StockServer
