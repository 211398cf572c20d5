import StockServer.Request

set_option relaxedAutoImplicit false
set_option autoImplicit false

/-!
# The request grammar

Which lines are requests.  `parse_request` and `validate_request` decide it together: a tokenizer
with room for four tokens, number parsing by `strtol`, early returns, and a check of the number of
arguments.  Here it is said once, in terms of the words of a line.

## Main definitions

* `IntToken` — a token that is a number in the range of an `int`.
* `Command` — the words of a request, and the command, id and count they write.

## Main results

* `parseIntToken_eq_some_iff` — `parse_int_token` accepts exactly these tokens.
* `parseRequest_eq` — the tokenizer loop finds the first four words.
* `requestOfTokens_of_command`, `command_of_requestOfTokens` — the two directions on words.
* `validate_parse_iff` — **a line is accepted if and only if its words are a request**, and then
  command, id and count are the ones written.
-/

namespace StockServer

/-- A token that writes a number: vertical tabs and form feeds, an optional sign, digits; `value`
being an `int`, the number written is in range. -/
def IntToken (token : Bytes) (value : Int32) : Prop :=
  ∃ skip sign digits : Bytes, token = skip ++ sign ++ digits ∧ (∀ b ∈ skip, b = 11 ∨ b = 12) ∧
    (sign = [] ∨ sign = ascii "+" ∨ sign = ascii "-") ∧ digits ≠ [] ∧
    (∀ b ∈ digits, isdigit b = true) ∧
    value.toInt = if sign = ascii "-" then -(digitsValue digits : ℤ) else digitsValue digits

/-- The requests of the protocol, by the words of their lines. -/
inductive Command : List Bytes → RequestCommand → Int32 → Int32 → Prop where
  | showAll : Command [ascii "show"] .requestShow 0 0
  | showOne {token : Bytes} {id : Int32} (hid : IntToken token id) :
      Command [ascii "show", token] .requestShow id 0
  | buy {idToken countToken : Bytes} {id count : Int32} (hid : IntToken idToken id)
      (hcount : IntToken countToken count) (hpos : 1 ≤ count) :
      Command [ascii "buy", idToken, countToken] .requestBuy id count
  | sell {idToken countToken : Bytes} {id count : Int32} (hid : IntToken idToken id)
      (hcount : IntToken countToken count) (hpos : 1 ≤ count) :
      Command [ascii "sell", idToken, countToken] .requestSell id count
  | exit : Command [ascii "exit"] .requestExit 0 0

/-! ## Numbers -/

/-- `parse_int_token` accepts the numerals in the range of an `int`. -/
theorem parseIntToken_eq_some {token : Bytes} {value : Int32} :
    parseIntToken token = some value ↔ Numeral token value.toInt := by
  constructor
  · intro h
    simp only [parseIntToken] at h
    split_ifs at h with hbad
    obtain rfl := Option.some.inj h
    simp only [Bool.not_eq_true', not_or, Bool.not_eq_false, not_not, Bool.not_eq_true, ne_eq,
      gt_iff_lt, not_lt, intMin, intMax] at hbad
    obtain ⟨hfound, hendptr, herange, hlow, hhigh⟩ := hbad
    have hread : strtol token = ⟨(strtol token).value, [], true, false⟩ := by
      rw [← hendptr, ← hfound, ← herange]
    rw [Int32.toInt_ofInt_of_le hlow (by omega)]
    exact (strtol_eq_iff.mp hread).1
  · intro hnumeral
    have hmin := value.le_toInt
    have hmax := value.toInt_lt
    have hread : strtol token = ⟨value.toInt, [], true, false⟩ :=
      strtol_eq_iff.mpr ⟨hnumeral, by unfold longMin; omega, by unfold longMax; omega⟩
    simp only [parseIntToken, hread, Int32.ofInt_toInt]
    refine if_neg ?_
    simp only [Bool.not_true, Bool.false_eq_true, ne_eq, not_true_eq_false, false_or, gt_iff_lt,
      not_or, not_lt, intMin, intMax]
    omega

/-- **`parse_int_token` accepts exactly the number tokens** among those that `strtok_r` delivers. -/
theorem parseIntToken_eq_some_iff {token : Bytes} (htoken : ∀ b ∈ token, isDelimiter b = false)
    {value : Int32} : parseIntToken token = some value ↔ IntToken token value := by
  have hskip : ∀ b : UInt8, isDelimiter b = false → (isspace b = true ↔ b = 11 ∨ b = 12) := by
    intro b hb
    simp only [isDelimiter, isspace, Bool.or_eq_false_iff, beq_eq_false_iff_ne, Bool.or_eq_true,
      beq_iff_eq, Bool.and_eq_true, decide_eq_true_eq, UInt8.le_iff_toNat_le, ne_eq,
      ← UInt8.toNat_inj] at hb ⊢
    simp at hb ⊢
    omega
  rw [parseIntToken_eq_some]
  constructor
  · rintro ⟨skip, sign, digits, rfl, hspace, hsign, hne, hdigits, hvalue⟩
    refine ⟨skip, sign, digits, rfl, fun b hb => ?_, hsign, hne, hdigits, hvalue⟩
    exact (hskip b (htoken b (by simp [hb]))).mp (hspace b hb)
  · rintro ⟨skip, sign, digits, rfl, hspace, hsign, hne, hdigits, hvalue⟩
    refine ⟨skip, sign, digits, rfl, fun b hb => ?_, hsign, hne, hdigits, hvalue⟩
    exact (hskip b (htoken b (by simp [hb]))).mpr (hspace b hb)

/-! ## Words -/

/-- The tokenizer loop finds the first words, as many as it has room for, and whether there are
more. -/
theorem tokenize_eq (room : ℕ) (s : Bytes) : tokenize room s =
    ((words isDelimiter s).take room, decide (room < (words isDelimiter s).length)) := by
  induction room generalizing s with
  | zero =>
    have hwords := words_eq isDelimiter s
    unfold tokenize
    cases hs : strtokR isDelimiter s <;> simp [hwords, hs]
  | succ room ih =>
    have hwords := words_eq isDelimiter s
    unfold tokenize
    cases hs : strtokR isDelimiter s <;> simp [hwords, hs, ih]

/-- `parse_request` reads a short line without NUL by its words. -/
theorem parseRequest_eq {line : Bytes} (hnul : ∀ b ∈ line, b ≠ 0) (hlen : line.length < maxLine) :
    parseRequest line = requestOfTokens ((words isDelimiter line).take 4)
      (decide (4 < (words isDelimiter line).length)) := by
  have hcopy : (cstr line).take (maxLine - 1) = line := by
    rw [cstr_eq_self hnul]
    exact List.take_of_length_le (by omega)
  simp only [parseRequest, hcopy, tokenize_eq, stockRequestMaxTokens]

/-! ## Requests -/

/-- The words of a request are parsed as written, and accepted. -/
theorem requestOfTokens_of_command {ws : List Bytes} {command : RequestCommand}
    {id count : Int32} (hws : ∀ w ∈ ws, ∀ b ∈ w, isDelimiter b = false)
    (h : Command ws command id count) :
    requestOfTokens ws false = ⟨command, ws.length, id, count, false⟩ ∧
      validateRequest (requestOfTokens ws false) = .ok := by
  have hparse : ∀ w ∈ ws, ∀ v, IntToken w v → parseIntToken w = some v := by
    intro w hw v hv
    exact (parseIntToken_eq_some_iff (hws w hw)).mpr hv
  have hcommands : commandOf (ascii "show") = .requestShow ∧
      commandOf (ascii "buy") = .requestBuy ∧ commandOf (ascii "sell") = .requestSell ∧
      commandOf (ascii "exit") = .requestExit := by decide
  obtain ⟨hshow, hbuy, hsell, hexit⟩ := hcommands
  cases h with
  | showAll => simp [requestOfTokens, hshow, validateRequest]
  | showOne hid =>
    have hid := hparse _ (by simp) _ hid
    simp [requestOfTokens, hshow, hid, validateRequest]
  | buy hid hcount hpos =>
    have hid := hparse _ (by simp) _ hid
    have hcount := hparse _ (by simp) _ hcount
    have hpos := one_le_iff_pos.mp hpos
    simp [requestOfTokens, hbuy, hid, hcount, validateRequest, hpos]
  | sell hid hcount hpos =>
    have hid := hparse _ (by simp) _ hid
    have hcount := hparse _ (by simp) _ hcount
    have hpos := one_le_iff_pos.mp hpos
    simp [requestOfTokens, hsell, hid, hcount, validateRequest, hpos]
  | exit => simp [requestOfTokens, hexit, validateRequest]

/-- The commands, by their words. -/
theorem commandOf_cases (w : Bytes) :
    w = ascii "show" ∧ commandOf w = .requestShow ∨ w = ascii "buy" ∧ commandOf w = .requestBuy ∨
      w = ascii "sell" ∧ commandOf w = .requestSell ∨
      w = ascii "exit" ∧ commandOf w = .requestExit ∨ commandOf w = .requestUnknown := by
  unfold commandOf
  split_ifs <;> simp_all

/-- What parsing has found when it reports no error: no argument, one number, or two numbers and
maybe more words. -/
theorem requestOfTokens_cases {first : Bytes} {args : List Bytes}
    (hcommand : commandOf first ≠ .requestUnknown)
    (h : (requestOfTokens (first :: args) false).parseError = false) :
    args = [] ∧ requestOfTokens (first :: args) false = ⟨commandOf first, 1, 0, 0, false⟩ ∨
      (∃ a id, args = [a] ∧ parseIntToken a = some id ∧
        requestOfTokens (first :: args) false = ⟨commandOf first, 2, id, 0, false⟩) ∨
      ∃ a b more id count, args = a :: b :: more ∧ parseIntToken a = some id ∧
        parseIntToken b = some count ∧ requestOfTokens (first :: args) false =
          ⟨commandOf first, more.length + 3, id, count, false⟩ := by
  rcases args with _ | ⟨a, _ | ⟨b, more⟩⟩
  · left
    simp [requestOfTokens, hcommand]
  · right; left
    cases ha : parseIntToken a with
    | none => simp [requestOfTokens, hcommand, ha] at h
    | some id => exact ⟨a, id, rfl, ha, by simp [requestOfTokens, hcommand, ha]⟩
  · right; right
    cases ha : parseIntToken a with
    | none => simp [requestOfTokens, hcommand, ha] at h
    | some id =>
      cases hb : parseIntToken b with
      | none => simp [requestOfTokens, hcommand, ha, hb] at h
      | some count =>
        exact ⟨a, b, more, id, count, rfl, ha, hb, by simp [requestOfTokens, hcommand, ha, hb]⟩

/-- An accepted request was written as one. -/
theorem command_of_requestOfTokens {ws : List Bytes}
    (hws : ∀ w ∈ ws, ∀ b ∈ w, isDelimiter b = false) {tooMany : Bool}
    (h : validateRequest (requestOfTokens ws tooMany) = .ok) :
    tooMany = false ∧ ∃ command id count, Command ws command id count := by
  cases ws with
  | nil => cases tooMany <;> simp [requestOfTokens, validateRequest] at h
  | cons first args =>
    cases tooMany with
    | true => simp [requestOfTokens, validateRequest] at h
    | false =>
      have herror : (requestOfTokens (first :: args) false).parseError = false := by
        by_contra herror
        rw [validateRequest, if_pos (Bool.of_not_eq_false herror)] at h
        cases h
      refine ⟨rfl, ?_⟩
      have hint : ∀ w ∈ args, ∀ v, parseIntToken w = some v → IntToken w v := by
        intro w hw v hv
        exact (parseIntToken_eq_some_iff (hws w (by simp [hw]))).mp hv
      by_cases hknown : commandOf first = .requestUnknown
      · simp [requestOfTokens, hknown, validateRequest] at h
      rcases requestOfTokens_cases hknown herror with ⟨rfl, hreq⟩ | ⟨a, id, rfl, ha, hreq⟩ |
          ⟨a, b, more, id, count, rfl, ha, hb, hreq⟩ <;> rw [hreq] at h
      · -- no argument
        rcases commandOf_cases first with ⟨rfl, hc⟩ | ⟨rfl, hc⟩ | ⟨rfl, hc⟩ | ⟨rfl, hc⟩ | hc
        · exact ⟨_, _, _, .showAll⟩
        · simp [validateRequest, hc] at h
        · simp [validateRequest, hc] at h
        · exact ⟨_, _, _, .exit⟩
        · exact absurd hc hknown
      · -- one number
        rcases commandOf_cases first with ⟨rfl, hc⟩ | ⟨rfl, hc⟩ | ⟨rfl, hc⟩ | ⟨rfl, hc⟩ | hc
        · exact ⟨_, _, _, .showOne (hint a (by simp) id ha)⟩
        all_goals simp [validateRequest, hc] at h
      · -- two numbers and maybe more words
        have hid := hint a (by simp) id ha
        have hcount := hint b (by simp) count hb
        rcases commandOf_cases first with ⟨rfl, hc⟩ | ⟨rfl, hc⟩ | ⟨rfl, hc⟩ | ⟨rfl, hc⟩ | hc
        · simp [validateRequest, hc] at h
        · obtain ⟨rfl, hpos⟩ : more = [] ∧ 0 < count := by simpa [validateRequest, hc] using h
          exact ⟨_, _, _, .buy hid hcount (one_le_iff_pos.mpr hpos)⟩
        · obtain ⟨rfl, hpos⟩ : more = [] ∧ 0 < count := by simpa [validateRequest, hc] using h
          exact ⟨_, _, _, .sell hid hcount (one_le_iff_pos.mpr hpos)⟩
        all_goals simp [validateRequest, hc] at h

/-- A request has at most three words. -/
theorem Command.length_le {ws : List Bytes} {command : RequestCommand} {id count : Int32}
    (h : Command ws command id count) : ws.length ≤ 3 := by
  cases h <;> simp

/-- **A line is accepted if and only if its words are a request.**  For every line without NUL that
is shorter than `MAXLINE`: parsing and validation return `STOCK_OK` exactly when the words of the
line are those of a request, the command, id and count parsed are then the ones written, and every
other line is `STOCK_ERR_INVALID`. -/
theorem validate_parse_iff {line : Bytes} (hnul : ∀ b ∈ line, b ≠ 0)
    (hlen : line.length < maxLine) :
    let request := parseRequest line
    let ws := words isDelimiter line
    (validateRequest request = .ok ↔ ∃ command id count, Command ws command id count) ∧
      (∀ command id count, Command ws command id count →
        request = ⟨command, ws.length, id, count, false⟩) ∧
      ((¬ ∃ command id count, Command ws command id count) →
        validateRequest request = .errInvalid) := by
  intro request ws
  have hws : ∀ w ∈ ws, ∀ b ∈ w, isDelimiter b = false := fun w hw => delim_of_mem_words hw
  have hparse : request = requestOfTokens (ws.take 4) (decide (4 < ws.length)) :=
    parseRequest_eq hnul hlen
  -- the words of a request all fit
  have hfit : ∀ {command id count}, Command ws command id count →
      request = ⟨command, ws.length, id, count, false⟩ ∧ validateRequest request = .ok := by
    intro command id count h
    have hlength := h.length_le
    have htake : ws.take 4 = ws := List.take_of_length_le (by omega)
    have hmore : decide (4 < ws.length) = false := by
      rw [decide_eq_false_iff_not]
      omega
    rw [hparse, htake, hmore]
    exact requestOfTokens_of_command hws h
  have hiff : validateRequest request = .ok ↔ ∃ command id count, Command ws command id count := by
    constructor
    · intro h
      rw [hparse] at h
      obtain ⟨hmore, command, id, count, hcommand⟩ :=
        command_of_requestOfTokens (fun w hw => hws w (List.mem_of_mem_take hw)) h
      have htake : ws.take 4 = ws := List.take_of_length_le (by simpa using hmore)
      rw [htake] at hcommand
      exact ⟨command, id, count, hcommand⟩
    · rintro ⟨command, id, count, h⟩
      exact (hfit h).2
  refine ⟨hiff, fun command id count h => (hfit h).1, fun hnone => ?_⟩
  exact validateRequest_eq_errInvalid fun hok => hnone (hiff.mp hok)

/-- A request with a tab, a sign and a vertical tab. -/
theorem validate_parse_iff_sell :
    let line := ascii "sell\t-3 " ++ 11 :: ascii "+07\r\n"
    (validateRequest (parseRequest line) = .ok ↔
      ∃ command id count, Command (words isDelimiter line) command id count) ∧
      parseRequest line = ⟨.requestSell, 3, -3, 7, false⟩ := by
  intro line
  have hnul : ∀ b ∈ line, b ≠ 0 := fun b hb => ne_of_mem_of_not_mem hb (by decide)
  have hlen : line.length < maxLine := by decide
  exact ⟨(validate_parse_iff hnul hlen).1, by decide +kernel⟩

end StockServer
