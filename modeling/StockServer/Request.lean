import StockServer.Stock
import StockServer.Lib.Scanf

set_option relaxedAutoImplicit false
set_option autoImplicit false

/-!
# Requests

`parse_request` and `validate_request` of `stock_server.c`: from the line buffer of a worker to a
validated request.

## Main definitions

* `RequestCommand`, `StockRequest` — a normalized request.
* `parseIntToken`, `tokenize`, `parseRequest`, `validateRequest` — under the names of the source;
  `tokenize` is the `strtok_r` loop of `parse_request`.

## Main results

* `count_pos_of_validate`, `command_of_validate` — what the handlers may rely on.
-/

namespace StockServer

/-- `MAXLINE` of `csapp.h`. -/
def maxLine : ℕ := 8192

/-- `STOCK_REQUEST_MAX_TOKENS`. -/
def stockRequestMaxTokens : ℕ := 4

/-- `request_command_t`. -/
inductive RequestCommand where
  | requestUnknown
  | requestShow
  | requestBuy
  | requestSell
  | requestExit
  deriving DecidableEq, Repr

/-- `stock_request_t`. -/
structure StockRequest where
  command : RequestCommand
  argc : ℕ
  id : Int32
  count : Int32
  parseError : Bool
  deriving DecidableEq, Repr

/-- `INT_MAX`. -/
def intMax : ℤ := 2 ^ 31 - 1

/-- `INT_MIN`. -/
def intMin : ℤ := -2 ^ 31

/-- `parse_int_token`: the number, or `none` for a token that is not one or does not fit. -/
def parseIntToken (token : Bytes) : Option Int32 :=
  let parsed := strtol token
  if !parsed.found ∨ parsed.endptr ≠ [] ∨ parsed.erange ∨ parsed.value < intMin ∨
    parsed.value > intMax then none
  else some (Int32.ofInt parsed.value)

/-- The delimiters of `parse_request`: blank, tab, carriage return, newline. -/
def isDelimiter (b : UInt8) : Bool := b == 32 || b == 9 || b == 13 || b == 10

/-- The `strtok_r` loop of `parse_request` with room for `room` more tokens: the tokens, and
whether there was one too many. -/
def tokenize : ℕ → Bytes → List Bytes × Bool
  | room, s =>
    match room, strtokR isDelimiter s with
    | _, none => ([], false)
    | 0, some _ => ([], true)
    | room + 1, some (token, rest) => (token :: (tokenize room rest).1, (tokenize room rest).2)

/-- The command a first token names. -/
def commandOf (token : Bytes) : RequestCommand :=
  if token = ascii "show" then .requestShow
  else if token = ascii "buy" then .requestBuy
  else if token = ascii "sell" then .requestSell
  else if token = ascii "exit" then .requestExit
  else .requestUnknown

/-- `parse_request` after the `strtok_r` loop, from its tokens and `parse_error`. -/
def requestOfTokens (tokens : List Bytes) (tooMany : Bool) : StockRequest :=
  let blank : StockRequest := ⟨.requestUnknown, tokens.length, 0, 0, tooMany⟩
  match tokens with
  | [] => blank
  | first :: args =>
    if tooMany then blank
    else
      let request := { blank with command := commandOf first }
      if request.command = .requestUnknown then request
      else match args with
        | [] => request
        | idToken :: args =>
          match parseIntToken idToken with
          | none => { request with parseError := true }
          | some id =>
            let request := { request with id := id }
            match args with
            | [] => request
            | countToken :: _ =>
              match parseIntToken countToken with
              | none => { request with parseError := true }
              | some count => { request with count := count }

/-- `parse_request`: the line is cut at the first NUL and copied into a buffer of `MAXLINE`
bytes, which `strtok_r` then splits. -/
def parseRequest (line : Bytes) : StockRequest :=
  let copy := (cstr line).take (maxLine - 1)
  let split := tokenize stockRequestMaxTokens copy
  requestOfTokens split.1 split.2

/-- `validate_request`. -/
def validateRequest (request : StockRequest) : StockStatus :=
  if request.parseError then .errInvalid
  else match request.command with
    | .requestShow => if request.argc = 1 ∨ request.argc = 2 then .ok else .errInvalid
    | .requestBuy | .requestSell =>
      if request.argc = 3 ∧ request.count > 0 then .ok else .errInvalid
    | .requestExit => if request.argc = 1 then .ok else .errInvalid
    | .requestUnknown => .errInvalid

/-- A valid buy or sell has a positive count. -/
theorem count_pos_of_validate {request : StockRequest} (h : validateRequest request = .ok)
    (hc : request.command = .requestBuy ∨ request.command = .requestSell) :
    0 < request.count := by
  unfold validateRequest at h
  split at h
  · cases h
  · rcases hc with hc | hc <;> simp only [hc] at h <;> split at h
    · exact (‹request.argc = 3 ∧ request.count > 0›).2
    · cases h
    · exact (‹request.argc = 3 ∧ request.count > 0›).2
    · cases h

/-- A valid request has a known command. -/
theorem command_of_validate {request : StockRequest} (h : validateRequest request = .ok) :
    request.command ≠ .requestUnknown := by
  intro hc
  unfold validateRequest at h
  split at h
  · cases h
  · simp [hc] at h

/-- Validation accepts or reports an invalid command. -/
theorem validateRequest_eq_errInvalid {request : StockRequest}
    (h : validateRequest request ≠ .ok) : validateRequest request = .errInvalid := by
  unfold validateRequest at h ⊢
  split
  · rfl
  · rename_i herror
    rw [if_neg herror] at h
    split at h <;> first | rfl | (split_ifs at h ⊢ <;> first | rfl | exact absurd rfl h)

end StockServer
