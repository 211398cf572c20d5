import StockServer.Response

set_option relaxedAutoImplicit false
set_option autoImplicit false

/-!
# Sequences of appends

The response builder over a whole run of `response_append` and `response_appendf`, with every
failure they can meet: a text that does not fit a `size_t`, and a negative result of either call of
`vsnprintf`.

## Main definitions

* `Formatting`, `vsnprintfResult` — what a call of `vsnprintf` comes to, and its result.
* `responseAppendfWith` — `response_appendf` with both calls of `vsnprintf` left open.
* `AppendCall`, `runAppends` — the calls, and a sequence of them.
* `ResponseBuilder.Holding` — the invariant: what is in the buffer, and the NUL behind it.
* `growLoop` — the doubling loop in the arithmetic of `size_t`.

## Main results

* `responseAppendfWith_formatted` — without failures this is `responseAppendf`.
* `Holding.run`, `holding_runAppends` — one call, and every sequence, keeps the invariant.
* `AppendCall.frame_of_error` — a call that fails leaves the text alone.
* `growLoop_eq` — the doubling loop is left within 64 rounds, and no product overflows.
* `responseBuilder_spec` — the three together.
-/

namespace StockServer

/-! ## Calls -/

/-- What a call of `vsnprintf` comes to: the text is formatted, or there is an error, and then the
room behind the text may hold anything. -/
inductive Formatting where
  | formatted
  | failed (junk : Bytes)
  deriving DecidableEq, Repr

/-- The result of `vsnprintf`, an `int`, with `none` for a negative one, and the buffer after it.
More than `INT_MAX` bytes cannot be reported. -/
def vsnprintfResult (response : ResponseBuilder) (text : Bytes) :
    Formatting → Option ℕ × ResponseBuilder
  | .formatted => (if (text.length : ℤ) ≤ intMax then some text.length else none,
      vsnprintf response text)
  | .failed junk => (none, { response with
      data := copyAt response.data response.len (junk.take (response.cap - response.len)) })

/-- `response_appendf`, with what its first and its second call of `vsnprintf` come to. -/
def responseAppendfWith (response : ResponseBuilder) (text : Bytes) (first second : Formatting) :
    StockStatus × ResponseBuilder :=
  let printed := vsnprintfResult response text first
  match printed.1 with
  | none => (.errInternal, printed.2)
  | some written =>
    if written ≥ printed.2.cap - printed.2.len then
      let ensured := responseEnsureCapacity printed.2 written
      if ensured.1 ≠ .ok then (ensured.1, ensured.2)
      else
        let again := vsnprintfResult ensured.2 text second
        match again.1 with
        | none => (.errInternal, again.2)
        | some written =>
          if written ≥ again.2.cap - again.2.len then (.errInternal, again.2)
          else (.ok, { again.2 with len := again.2.len + written })
    else (.ok, { printed.2 with len := printed.2.len + written })

/-- A call on a response builder. -/
inductive AppendCall where
  | append (text : Bytes)
  | appendf (text : Bytes) (first second : Formatting)
  deriving DecidableEq, Repr

/-- The text that is to be appended. -/
def AppendCall.text : AppendCall → Bytes
  | .append text => text
  | .appendf text _ _ => text

/-- A call on a builder. -/
def AppendCall.run : AppendCall → ResponseBuilder → StockStatus × ResponseBuilder
  | .append text, response => responseAppend response text
  | .appendf text first second, response => responseAppendfWith response text first second

/-- Calls one after another: what each returned, and the builder after the last. -/
def runAppends : ResponseBuilder → List AppendCall → List StockStatus × ResponseBuilder
  | response, [] => ([], response)
  | response, call :: calls =>
    let called := call.run response
    (called.1 :: (runAppends called.2 calls).1, (runAppends called.2 calls).2)

/-- The doubling loop of `response_ensure_capacity` in the arithmetic of `size_t`: the capacity it
is left with, or `none` if that takes more rounds than these. -/
def growLoop (needed : UInt64) : ℕ → UInt64 → Option UInt64
  | 0, newCap => if newCap < needed then none else some newCap
  | rounds + 1, newCap =>
    if newCap < needed then
      if newCap > 0xFFFFFFFFFFFFFFFF / 2 then some needed
      else growLoop needed rounds (newCap * 2)
    else some newCap

/-! ## The invariant -/

/-- The buffer holds a text with its NUL, and its capacity is a `size_t`. -/
structure ResponseBuilder.Holding (response : ResponseBuilder) (text : Bytes) : Prop where
  room : response.len < response.cap
  cap_le : response.cap ≤ sizeMax
  text_eq : response.text = text
  terminated : response.data response.len = 0

variable {response : ResponseBuilder} {held text : Bytes}

/-- A fresh builder holds the empty text. -/
theorem holding_responseInit : responseInit.Holding [] := ⟨by decide, by decide, rfl, rfl⟩

/-- A text that is copied behind the text with its NUL is held, where there is room for both. -/
theorem ResponseBuilder.Holding.copy (hheld : response.text = held) (hcap : response.cap ≤ sizeMax)
    (hroom : text.length < response.cap - response.len) :
    ({ response with
        data := copyAt response.data response.len (text ++ [0])
        len := response.len + text.length } : ResponseBuilder).Holding (held ++ text) where
  room := by dsimp only; omega
  cap_le := hcap
  text_eq := by
    rw [← hheld]
    exact text_copyAt response.data response.len text [0]
  terminated := by simp [copyAt]

/-- Making room leaves the bytes and the length alone. -/
theorem responseEnsureCapacity_data (response : ResponseBuilder) (additional : ℕ) :
    (responseEnsureCapacity response additional).2.data = response.data ∧
      (responseEnsureCapacity response additional).2.len = response.len := by
  simp only [responseEnsureCapacity]
  split_ifs <;> exact ⟨rfl, rfl⟩

/-- Making room keeps the capacity within a `size_t`; with success there is room for the text asked
for. -/
theorem responseEnsureCapacity_room (hroom : response.len < response.cap)
    (hcap : response.cap ≤ sizeMax) (additional : ℕ) :
    let ensured := responseEnsureCapacity response additional
    ensured.2.cap ≤ sizeMax ∧ (ensured.1 = .ok → additional < ensured.2.cap - ensured.2.len) := by
  intro ensured
  obtain ⟨hlen, -, -, -, hfits⟩ := @responseEnsureCapacity_spec response (by omega) additional
  refine ⟨(bounded_responseEnsureCapacity ⟨hroom, hcap⟩ additional).2, fun hok => ?_⟩
  have hsum : response.len + additional < sizeMax := by
    by_contra hover
    have herror : ensured.1 = .errInternal := by
      simp only [ensured, responseEnsureCapacity]
      rw [if_pos (by omega)]
    rw [herror] at hok
    cases hok
  have hspace : response.len + additional < ensured.2.cap := (hfits hsum).2
  have hsame : ensured.2.len = response.len := hlen
  omega

/-- **A literal text is appended** when the call succeeds. -/
theorem ResponseBuilder.Holding.append (h : response.Holding held) (text : Bytes)
    (hok : (responseAppend response text).1 = .ok) :
    (responseAppend response text).2.Holding (held ++ text) := by
  obtain ⟨hdata, hlen⟩ := responseEnsureCapacity_data response text.length
  obtain ⟨hcap, hroom⟩ := responseEnsureCapacity_room h.room h.cap_le text.length
  have hheld : (responseEnsureCapacity response text.length).2.text = held := by
    rw [ResponseBuilder.text, hdata, hlen]
    exact h.text_eq
  simp only [responseAppend] at hok ⊢
  split_ifs at hok ⊢ with hensured
  · exact absurd hok hensured
  · exact .copy hheld hcap (hroom (not_not.mp hensured))

/-- Formatting writes behind the text only. -/
theorem vsnprintfResult_frame (response : ResponseBuilder) (text : Bytes)
    (formatting : Formatting) :
    let printed := (vsnprintfResult response text formatting).2
    printed.len = response.len ∧ printed.cap = response.cap ∧
      ∀ i < response.len, printed.data i = response.data i := by
  cases formatting with
  | formatted =>
    simp only [vsnprintfResult, vsnprintf]
    split_ifs
    · exact ⟨rfl, rfl, fun _ _ => rfl⟩
    · exact ⟨rfl, rfl, fun i hi => copyAt_of_lt hi _⟩
  | failed junk => exact ⟨rfl, rfl, fun i hi => copyAt_of_lt hi _⟩

/-- The same bytes below the same length are the same text. -/
theorem text_eq_of_frame {response' : ResponseBuilder} (hlen : response'.len = response.len)
    (hdata : ∀ i < response.len, response'.data i = response.data i) :
    response'.text = response.text := by
  rw [ResponseBuilder.text, ResponseBuilder.text, hlen]
  exact List.map_congr_left fun i hi => hdata i (List.mem_range.mp hi)

/-- A call of `vsnprintf` that reports a length that fits has printed the whole text. -/
theorem ResponseBuilder.Holding.printed {formatting : Formatting} {written : ℕ}
    (hheld : response.text = held) (hcap : response.cap ≤ sizeMax)
    (hwritten : (vsnprintfResult response text formatting).1 = some written)
    (hroom : written < response.cap - response.len) :
    let printed := (vsnprintfResult response text formatting).2
    ({ printed with len := printed.len + written } : ResponseBuilder).Holding (held ++ text) := by
  cases formatting with
  | failed junk => cases hwritten
  | formatted =>
    simp only [vsnprintfResult] at hwritten ⊢
    split_ifs at hwritten with hint
    obtain rfl := Option.some.inj hwritten
    have hsize : response.cap - response.len ≠ 0 := by omega
    have htake : text.take (response.cap - response.len - 1) = text :=
      List.take_of_length_le (by omega)
    simp only [vsnprintf, hsize, ↓reduceIte, htake]
    exact .copy hheld hcap hroom

/-- **A formatted text is appended** when the call succeeds, at the first attempt or after the
buffer has grown. -/
theorem ResponseBuilder.Holding.appendf (h : response.Holding held) (text : Bytes)
    (first second : Formatting) (hok : (responseAppendfWith response text first second).1 = .ok) :
    (responseAppendfWith response text first second).2.Holding (held ++ text) := by
  obtain ⟨hlen, hsame, hdata⟩ := vsnprintfResult_frame response text first
  simp only [responseAppendfWith] at hok ⊢
  cases hwritten : (vsnprintfResult response text first).1 with
  | none =>
    rw [hwritten] at hok
    cases hok
  | some written =>
    simp only [hwritten] at hok ⊢
    by_cases hfull : written ≥ (vsnprintfResult response text first).2.cap -
        (vsnprintfResult response text first).2.len
    swap
    · -- the text fits at once
      simp only [hfull, ↓reduceIte]
      rw [hlen, hsame] at hfull
      exact .printed h.text_eq h.cap_le hwritten (not_le.mp hfull)
    simp only [hfull, ↓reduceIte] at hok ⊢
    -- the buffer grows, and the text is formatted again
    obtain ⟨hdata', hlen'⟩ :=
      responseEnsureCapacity_data (vsnprintfResult response text first).2 written
    obtain ⟨hcap', -⟩ := @responseEnsureCapacity_room (vsnprintfResult response text first).2
      (by rw [hlen, hsame]; exact h.room) (by rw [hsame]; exact h.cap_le) written
    set ensured := responseEnsureCapacity (vsnprintfResult response text first).2 written
    have hheld : ensured.2.text = held := by
      rw [← h.text_eq]
      refine text_eq_of_frame (hlen'.trans hlen) fun i hi => ?_
      rw [hdata']
      exact hdata i hi
    obtain ⟨halen, hasame, -⟩ := vsnprintfResult_frame ensured.2 text second
    split_ifs at hok ⊢ with hensured
    · exact absurd hok hensured
    cases hagain : (vsnprintfResult ensured.2 text second).1 with
    | none =>
      rw [hagain] at hok
      cases hok
    | some again =>
      simp only [hagain] at hok ⊢
      split_ifs at hok ⊢ with hstill
      rw [halen, hasame] at hstill
      exact .printed hheld hcap' hagain (not_le.mp hstill)

/-- **One call keeps the invariant** when it succeeds. -/
theorem ResponseBuilder.Holding.run (h : response.Holding held) (call : AppendCall)
    (hok : (call.run response).1 = .ok) :
    (call.run response).2.Holding (held ++ call.text) := by
  cases call with
  | append text => exact h.append text hok
  | appendf text first second => exact h.appendf text first second hok

/-- **Every sequence of calls keeps the invariant** as long as all succeed. -/
theorem holding_runAppends (h : response.Holding held) (calls : List AppendCall)
    (hok : ∀ status ∈ (runAppends response calls).1, status = .ok) :
    (runAppends response calls).2.Holding (held ++ calls.flatMap AppendCall.text) := by
  induction calls generalizing response held with
  | nil =>
    rw [List.flatMap_nil, List.append_nil]
    exact h
  | cons call calls ih =>
    simp only [runAppends, List.forall_mem_cons] at hok ⊢
    rw [List.flatMap_cons, ← List.append_assoc]
    exact ih (h.run call hok.1) hok.2

/-! ## Failures -/

/-- Without failures, and for a text whose length is an `int`, both models of `response_appendf`
are the same. -/
theorem responseAppendfWith_formatted (response : ResponseBuilder)
    (hint : (text.length : ℤ) ≤ intMax) :
    responseAppendfWith response text .formatted .formatted = responseAppendf response text := by
  have hresult : ∀ r : ResponseBuilder,
      vsnprintfResult r text .formatted = (some text.length, vsnprintf r text) := by
    intro r
    rw [vsnprintfResult, if_pos hint]
  simp only [responseAppendfWith, responseAppendf, hresult]

/-- **A call that fails leaves the text alone**: the length, and the bytes below it. -/
theorem AppendCall.frame_of_error {call : AppendCall} (herror : (call.run response).1 ≠ .ok) :
    (call.run response).2.len = response.len ∧
      ∀ i < response.len, (call.run response).2.data i = response.data i := by
  cases call with
  | append text =>
    obtain ⟨hdata, hlen⟩ := responseEnsureCapacity_data response text.length
    simp only [AppendCall.run, responseAppend] at herror ⊢
    split_ifs at herror ⊢ with hensured
    · exact ⟨hlen, fun i _ => by rw [hdata]⟩
    · exact absurd rfl herror
  | appendf text first second =>
    obtain ⟨hlen, -, hdata⟩ := vsnprintfResult_frame response text first
    simp only [AppendCall.run, responseAppendfWith] at herror ⊢
    cases hwritten : (vsnprintfResult response text first).1 with
    | none => exact ⟨hlen, hdata⟩
    | some written =>
      simp only [hwritten] at herror ⊢
      obtain ⟨hdata', hlen'⟩ :=
        responseEnsureCapacity_data (vsnprintfResult response text first).2 written
      set ensured := responseEnsureCapacity (vsnprintfResult response text first).2 written
      obtain ⟨halen, -, hadata⟩ := vsnprintfResult_frame ensured.2 text second
      have hframe : ensured.2.len = response.len ∧
          ∀ i < response.len, ensured.2.data i = response.data i :=
        ⟨hlen'.trans hlen, fun i hi => by rw [hdata', hdata i hi]⟩
      have hagainFrame : (vsnprintfResult ensured.2 text second).2.len = response.len ∧
          ∀ i < response.len,
            (vsnprintfResult ensured.2 text second).2.data i = response.data i :=
        ⟨halen.trans hframe.1, fun i hi =>
          (hadata i (hframe.1.symm ▸ hi)).trans (hframe.2 i hi)⟩
      split_ifs at herror ⊢ with hfull hensured
      · exact hframe
      · cases hagain : (vsnprintfResult ensured.2 text second).1 with
        | none => exact hagainFrame
        | some again =>
          simp only [hagain] at herror ⊢
          split_ifs at herror ⊢ with hstill
          · exact hagainFrame
          · exact absurd rfl herror
      · exact absurd rfl herror

/-! ## The doubling loop -/

/-- **The doubling loop is left in time**, with the capacity of the model.  That is the capacity
doubled some number of times, all within a `size_t`, or what is needed, when one more doubling would
go past it. -/
theorem growLoop_eq {needed : UInt64} {rounds : ℕ} {cap : UInt64}
    (hrounds : sizeMax < cap.toNat * 2 ^ rounds) :
    ∃ newCap doublings, growLoop needed rounds cap = some newCap ∧
      newCap.toNat = growCapacity rounds cap.toNat needed.toNat ∧
      doublings ≤ rounds ∧ cap.toNat * 2 ^ doublings ≤ sizeMax ∧
      (newCap.toNat = cap.toNat * 2 ^ doublings ∨
        newCap = needed ∧ sizeMax / 2 < cap.toNat * 2 ^ doublings) := by
  induction rounds generalizing cap with
  | zero =>
    have hlt := cap.toNat_lt
    unfold sizeMax at hrounds
    omega
  | succ rounds ih =>
    have hlt := cap.toNat_lt
    have hhalf : cap > 0xFFFFFFFFFFFFFFFF / 2 ↔ sizeMax / 2 < cap.toNat := UInt64.lt_iff_toNat_lt
    have hneeded : cap < needed ↔ cap.toNat < needed.toNat := UInt64.lt_iff_toNat_lt
    simp only [growLoop, growCapacity, hhalf, hneeded, gt_iff_lt]
    split_ifs with hlow hhigh
    · exact ⟨needed, 0, rfl, rfl, by omega, by unfold sizeMax; omega, Or.inr ⟨rfl, by simpa⟩⟩
    · have hdouble : (cap * 2).toNat = cap.toNat * 2 := by
        rw [UInt64.toNat_mul]
        unfold sizeMax at hhigh
        exact Nat.mod_eq_of_lt (by simpa using by omega)
      obtain ⟨newCap, doublings, hloop, hcap, hle, hfits, hcases⟩ := @ih (cap * 2) (by
        rw [hdouble, mul_assoc, ← pow_succ']
        exact hrounds)
      rw [hdouble] at hcap hfits hcases
      rw [mul_assoc, ← pow_succ'] at hfits hcases
      exact ⟨newCap, doublings + 1, hloop, hcap, by omega, hfits, hcases⟩
    · exact ⟨cap, 0, rfl, rfl, by omega, by unfold sizeMax; omega, Or.inl (by simp)⟩

/-! ## All together -/

/-- **The response builder is right over every sequence of calls.**  While all calls succeed, the
length is less than the capacity, and the buffer holds the texts in order with a NUL behind them.  A
call that fails leaves the length and the bytes below it alone, whatever came before.  And for every
`len < cap` and `additional`, either `response_ensure_capacity` refuses a sum that does not fit a
`size_t`, or nothing overflows, the doubling loop is left within 64 rounds, and the capacity is at
least `len + additional + 1`. -/
theorem responseBuilder_spec :
    (∀ calls, (∀ status ∈ (runAppends responseInit calls).1, status = .ok) →
      let response := (runAppends responseInit calls).2
      response.len < response.cap ∧
        (List.range response.len).map response.data = calls.flatMap AppendCall.text ∧
        response.data response.len = 0) ∧
    (∀ calls call, let response := (runAppends responseInit calls).2
      let called := AppendCall.run call response
      called.1 ≠ .ok → called.2.len = response.len ∧
        ∀ i < response.len, called.2.data i = response.data i) ∧
    (∀ len cap additional : UInt64, len < cap →
      (additional > 0xFFFFFFFFFFFFFFFF - len - 1 ∧
        sizeMax < len.toNat + additional.toNat + 1) ∨
      (len + additional + 1).toNat = len.toNat + additional.toNat + 1 ∧
      ∃ newCap doublings, growLoop (len + additional + 1) 64 cap = some newCap ∧
        newCap.toNat = growCapacity 64 cap.toNat (len.toNat + additional.toNat + 1) ∧
        len.toNat + additional.toNat + 1 ≤ newCap.toNat ∧
        cap.toNat * 2 ^ doublings ≤ sizeMax ∧
        (newCap.toNat = cap.toNat * 2 ^ doublings ∨
          newCap = len + additional + 1 ∧ sizeMax / 2 < cap.toNat * 2 ^ doublings)) := by
  refine ⟨fun calls hok => ?_, fun calls call herror => AppendCall.frame_of_error herror,
    fun len cap additional hlen => ?_⟩
  · have hheld := holding_runAppends holding_responseInit calls hok
    exact ⟨hheld.room, hheld.text_eq, hheld.terminated⟩
  · have hlt : len.toNat < cap.toNat := UInt64.lt_iff_toNat_lt.mp hlen
    have hcap := cap.toNat_lt
    have hadd := additional.toNat_lt
    have hfree : (0xFFFFFFFFFFFFFFFF - len - 1 : UInt64).toNat = sizeMax - len.toNat - 1 := by
      have h₁ : (0xFFFFFFFFFFFFFFFF - len : UInt64).toNat = sizeMax - len.toNat :=
        UInt64.toNat_sub_of_le _ _ (UInt64.le_iff_toNat_le.mpr (by simpa using by omega))
      rw [UInt64.toNat_sub_of_le _ _ (UInt64.le_iff_toNat_le.mpr
        (by rw [h₁]; unfold sizeMax; simpa using by omega)), h₁]
      rfl
    by_cases hover : additional > 0xFFFFFFFFFFFFFFFF - len - 1
    · have htoo := UInt64.lt_iff_toNat_lt.mp hover
      rw [hfree] at htoo
      exact Or.inl ⟨hover, by omega⟩
    · right
      have hfits : ¬ sizeMax - len.toNat - 1 < additional.toNat := by
        rw [← hfree]
        exact fun h => hover (UInt64.lt_iff_toNat_lt.mpr h)
      have hsum : (len + additional + 1).toNat = len.toNat + additional.toNat + 1 := by
        unfold sizeMax at hfits
        rw [UInt64.toNat_add, UInt64.toNat_add]
        have hone : (1 : UInt64).toNat = 1 := rfl
        rw [hone, Nat.mod_eq_of_lt (by omega), Nat.mod_eq_of_lt (by omega)]
      have hrounds : sizeMax < cap.toNat * 2 ^ 64 := by
        unfold sizeMax
        omega
      obtain ⟨newCap, doublings, hloop, hgrow, -, hdouble, hcases⟩ :=
        @growLoop_eq (len + additional + 1) 64 cap hrounds
      rw [hsum] at hgrow
      refine ⟨hsum, newCap, doublings, hloop, hgrow, ?_, hdouble, hcases⟩
      rw [hgrow]
      exact needed_le_growCapacity (by unfold sizeMax at hfits ⊢; omega) hrounds

end StockServer
