import StockServer.Request
import StockServer.Store

set_option relaxedAutoImplicit false
set_option autoImplicit false

/-!
# Responses

The response builder of `stock_server.c`: a growing buffer to which protocol text is appended.

## Main definitions

* `ResponseBuilder` — the buffer, the length of its text and its capacity.
* `responseInit`, `responseEnsureCapacity`, `responseAppend`, `responseAppendf` — under the names
  of the source.
* `ResponseBuilder.text` — the bytes that are sent.
* `stockLine`, `appendStockLine`, `statusResponse` — the texts of the protocol.

## Main results

* `responseAppend_init`, `responseAppend_small` — a short text always fits a fresh buffer.
* `responseAppendf_spec` — a formatted text is appended, or the append has failed.
* `visitAll_appendStockLine` — so is a listing, line by line.
* `bounded_visitAll` — the buffer of a listing ends with room for a NUL and has a `size_t` capacity.

## Implementation notes

The bytes of a buffer that were never written are `0` here; no function reads them.
-/

namespace StockServer

/-- `SIZE_MAX`. -/
def sizeMax : ℕ := 2 ^ 64 - 1

/-- `response_builder_t`. -/
structure ResponseBuilder where
  data : ℕ → UInt8
  len : ℕ
  cap : ℕ

namespace ResponseBuilder

/-- The text in the buffer, which is what `handle_client` sends. -/
def text (response : ResponseBuilder) : Bytes := (List.range response.len).map response.data

end ResponseBuilder

/-- Copy bytes into memory at an offset. -/
def copyAt (data : ℕ → UInt8) (offset : ℕ) (bytes : Bytes) (i : ℕ) : UInt8 :=
  if offset ≤ i then (bytes[i - offset]?).getD (data i) else data i

/-- `response_init`. -/
def responseInit : ResponseBuilder := ⟨fun _ => 0, 0, maxLine⟩

/-- The doubling loop of `response_ensure_capacity`.  A capacity doubled 64 times is past every
`size_t`, so 64 rounds are enough for a positive one. -/
def growCapacity : ℕ → ℕ → ℕ → ℕ
  | 0, newCap, _ => newCap
  | rounds + 1, newCap, needed =>
    if newCap < needed then
      if newCap > sizeMax / 2 then needed else growCapacity rounds (newCap * 2) needed
    else newCap

/-- `response_ensure_capacity`. -/
def responseEnsureCapacity (response : ResponseBuilder) (additional : ℕ) :
    StockStatus × ResponseBuilder :=
  if additional > sizeMax - response.len - 1 then (.errInternal, response)
  else
    let needed := response.len + additional + 1
    if needed ≤ response.cap then (.ok, response)
    else (.ok, { response with cap := growCapacity 64 response.cap needed })

/-- `response_append`: the text is copied with its NUL. -/
def responseAppend (response : ResponseBuilder) (text : Bytes) : StockStatus × ResponseBuilder :=
  let ensured := responseEnsureCapacity response text.length
  if ensured.1 ≠ .ok then (ensured.1, ensured.2)
  else (.ok, { ensured.2 with
    data := copyAt ensured.2.data ensured.2.len (text ++ [0])
    len := ensured.2.len + text.length })

/-- `vsnprintf` of a formatted text at the end of the buffer: as much of it as fits with its NUL,
and nothing where there is no room at all. -/
def vsnprintf (response : ResponseBuilder) (text : Bytes) : ResponseBuilder :=
  let size := response.cap - response.len
  if size = 0 then response
  else { response with data := copyAt response.data response.len (text.take (size - 1) ++ [0]) }

/-- `response_appendf` of a formatted text. -/
def responseAppendf (response : ResponseBuilder) (text : Bytes) : StockStatus × ResponseBuilder :=
  let printed := vsnprintf response text
  if text.length ≥ printed.cap - printed.len then
    let ensured := responseEnsureCapacity printed text.length
    if ensured.1 ≠ .ok then (ensured.1, ensured.2)
    else
      let again := vsnprintf ensured.2 text
      if text.length ≥ again.cap - again.len then (.errInternal, again)
      else (.ok, { again with len := again.len + text.length })
  else (.ok, { printed with len := printed.len + text.length })

/-! ## Texts -/

/-- `"%d %d %d\n"` of an item. -/
def stockLine (item : StockItem) : Bytes :=
  showInt item.id.toInt ++ ascii " " ++ showInt item.leftStock.toInt ++ ascii " " ++
    showInt item.price.toInt ++ [newline]

/-- `append_stock_line`, as a visitor. -/
def appendStockLine (item : StockItem) : StateM ResponseBuilder StockStatus := fun response =>
  responseAppendf response (stockLine item)

/-- `status_response`. -/
def statusResponse : StockStatus → Bytes
  | .errInvalid => ascii "invalid command\n"
  | .errNotFound => ascii "stock not found\n"
  | .errInsufficient => ascii "not enough left stock\n"
  | _ => ascii "internal error\n"

/-- `"success\n"`. -/
def successText : Bytes := ascii "success\n"

/-! ## Lines of a listing -/

/-- A line of a listing is three numbers and a newline. -/
theorem stockLine_eq (item : StockItem) : stockLine item = showInt item.id.toInt ++
    32 :: (showInt item.leftStock.toInt ++ 32 :: (showInt item.price.toInt ++ [newline])) := by
  simp [stockLine, ascii]

/-- A line of a listing ends with its newline. -/
theorem stockLine_concat (item : StockItem) : stockLine item = (showInt item.id.toInt ++
    32 :: (showInt item.leftStock.toInt ++ 32 :: showInt item.price.toInt)) ++ [newline] := by
  simp [stockLine_eq]

/-- A line of a listing has no NUL, and no newline before its end. -/
theorem mem_stockLine {item : StockItem} {b : UInt8}
    (hb : b ∈ showInt item.id.toInt ++ 32 :: (showInt item.leftStock.toInt ++
      32 :: showInt item.price.toInt)) : b ≠ 0 ∧ b ≠ newline := by
  simp only [List.mem_append, List.mem_cons] at hb
  rcases hb with hb | rfl | hb | rfl | hb
  · exact ⟨(mem_showInt_ne hb).1, (mem_showInt_ne hb).2.1⟩
  · decide
  · exact ⟨(mem_showInt_ne hb).1, (mem_showInt_ne hb).2.1⟩
  · decide
  · exact ⟨(mem_showInt_ne hb).1, (mem_showInt_ne hb).2.1⟩

/-- A line of a listing is shorter than a fresh buffer. -/
theorem length_stockLine_le (item : StockItem) : (stockLine item).length ≤ 36 := by
  have h₁ := length_showInt_int32 item.id
  have h₂ := length_showInt_int32 item.leftStock
  have h₃ := length_showInt_int32 item.price
  simp only [stockLine, List.length_append, List.length_singleton]
  have hspace : (ascii " ").length = 1 := rfl
  omega

/-! ## Short texts fit -/

/-- Bytes below the offset of a copy stay. -/
theorem copyAt_of_lt {data : ℕ → UInt8} {offset i : ℕ} (h : i < offset) (bytes : Bytes) :
    copyAt data offset bytes i = data i := if_neg (Nat.not_le.mpr h)

/-- A text written at the end of a text is appended to it. -/
theorem text_copyAt (data : ℕ → UInt8) (len : ℕ) (text rest : Bytes) :
    (List.range (len + text.length)).map (copyAt data len (text ++ rest)) =
      (List.range len).map data ++ text := by
  rw [List.range_add, List.map_append]
  congr 1
  · apply List.map_congr_left
    intro i hi
    exact copyAt_of_lt (List.mem_range.mp hi) _
  · apply List.ext_getElem
    · simp
    · intro i h₁ h₂
      simp [copyAt, List.getElem?_append_left h₂, List.getElem?_eq_getElem h₂]

/-- **A text shorter than `MAXLINE` fits an empty buffer** of at least that capacity. -/
theorem responseAppend_small {response : ResponseBuilder} (hlen : response.len = 0)
    (hcap : maxLine ≤ response.cap) {text : Bytes} (ht : text.length < maxLine) :
    (responseAppend response text).1 = .ok ∧ (responseAppend response text).2.text = text := by
  have hroom : ¬ text.length > sizeMax - response.len - 1 := by
    rw [hlen]; unfold sizeMax; unfold maxLine at ht; omega
  have hfit : response.len + text.length + 1 ≤ response.cap := by omega
  have hensure : responseEnsureCapacity response text.length = (.ok, response) := by
    rw [responseEnsureCapacity, if_neg hroom, if_pos hfit]
  simp only [responseAppend, hensure, ne_eq, not_true_eq_false, ↓reduceIte, true_and]
  simp only [ResponseBuilder.text, hlen]
  exact text_copyAt _ 0 _ _

/-- A text shorter than `MAXLINE` is appended to a fresh buffer. -/
theorem responseAppend_init {text : Bytes} (ht : text.length < maxLine) :
    (responseAppend responseInit text).1 = .ok ∧
      (responseAppend responseInit text).2.text = text :=
  responseAppend_small rfl le_rfl ht

/-- Every error text is short. -/
theorem length_statusResponse_lt (status : StockStatus) :
    (statusResponse status).length < maxLine := by
  cases status <;> decide

/-! ## Formatted texts -/

/-- A text that fits the room of a buffer is printed whole. -/
theorem text_vsnprintf {response : ResponseBuilder} {text : Bytes}
    (h : text.length < response.cap - response.len) :
    ({ vsnprintf response text with
      len := (vsnprintf response text).len + text.length } : ResponseBuilder).text =
      response.text ++ text := by
  have hroom : response.cap - response.len ≠ 0 := by omega
  have htake : text.take (response.cap - response.len - 1) = text :=
    List.take_of_length_le (by omega)
  simp only [vsnprintf, hroom, ↓reduceIte, htake]
  exact text_copyAt _ _ _ _

/-- Printing into a buffer keeps its text, its length and its capacity. -/
theorem vsnprintf_frame (response : ResponseBuilder) (text : Bytes) :
    (vsnprintf response text).len = response.len ∧ (vsnprintf response text).cap = response.cap ∧
      (vsnprintf response text).text = response.text := by
  simp only [vsnprintf]
  split_ifs
  · exact ⟨rfl, rfl, rfl⟩
  · refine ⟨rfl, rfl, List.map_congr_left fun i hi => ?_⟩
    exact copyAt_of_lt (List.mem_range.mp hi) _

/-- Growing never shrinks. -/
theorem le_growCapacity (rounds newCap needed : ℕ) :
    newCap ≤ growCapacity rounds newCap needed := by
  induction rounds generalizing newCap with
  | zero => exact le_rfl
  | succ rounds ih =>
    rw [growCapacity]
    split_ifs with hlow hhigh
    · omega
    · have := ih (newCap * 2)
      omega
    · exact le_rfl

/-- Growing makes room for what is needed, with enough rounds to get past every `size_t`. -/
theorem needed_le_growCapacity {rounds newCap needed : ℕ} (hneeded : needed ≤ sizeMax)
    (h : sizeMax < newCap * 2 ^ rounds) : needed ≤ growCapacity rounds newCap needed := by
  induction rounds generalizing newCap with
  | zero =>
    rw [growCapacity]
    omega
  | succ rounds ih =>
    rw [growCapacity]
    split_ifs with hlow hhigh
    · exact le_rfl
    · apply ih
      rwa [mul_assoc, ← pow_succ']
    · omega

/-- Making room keeps the text and never shrinks the buffer; there is room for a text that fits a
`size_t` with what is there. -/
theorem responseEnsureCapacity_spec {response : ResponseBuilder} (hcap : 0 < response.cap)
    (additional : ℕ) :
    let ensured := responseEnsureCapacity response additional
    ensured.2.len = response.len ∧ ensured.2.text = response.text ∧
      response.cap ≤ ensured.2.cap ∧ (ensured.1 = .ok ∨ ensured.1 = .errInternal) ∧
      (response.len + additional < sizeMax →
        ensured.1 = .ok ∧ response.len + additional < ensured.2.cap) := by
  intro ensured
  simp only [ensured, responseEnsureCapacity]
  split_ifs with hover hfit
  · exact ⟨rfl, rfl, le_rfl, Or.inr rfl, fun h => by omega⟩
  · exact ⟨rfl, rfl, le_rfl, Or.inl rfl, fun _ => ⟨rfl, hfit⟩⟩
  · refine ⟨rfl, rfl, le_growCapacity _ _ _, Or.inl rfl, fun h => ⟨rfl, ?_⟩⟩
    refine needed_le_growCapacity (by omega) ?_
    unfold sizeMax
    omega

/-- **A formatted text is appended, or the append has failed** with an internal error; it does not
fail while the whole text fits a `size_t`. -/
theorem responseAppendf_spec {response : ResponseBuilder} (hcap : 0 < response.cap)
    (text : Bytes) :
    let appended := responseAppendf response text
    response.cap ≤ appended.2.cap ∧
      (appended.1 = .ok ∧ appended.2.text = response.text ++ text ∧
        appended.2.len = response.len + text.length ∨ appended.1 = .errInternal) ∧
      (response.len + text.length < sizeMax → appended.1 = .ok) := by
  intro appended
  obtain ⟨hlen, hsame, htext⟩ := vsnprintf_frame response text
  by_cases hfull : text.length ≥ response.cap - response.len
  · -- the text does not fit as it is
    obtain ⟨helen, hetext, hle, hstatus, hroom⟩ :=
      @responseEnsureCapacity_spec (vsnprintf response text) (by rw [hsame]; exact hcap) text.length
    set ensured := responseEnsureCapacity (vsnprintf response text) text.length with hensured
    obtain ⟨halen, hasame, -⟩ := vsnprintf_frame ensured.2 text
    rw [hsame] at hle
    rw [hlen] at hroom helen
    by_cases hok : ensured.1 = .ok
    · by_cases hagain : text.length ≥ ensured.2.cap - ensured.2.len
      · have heq : appended = (.errInternal, vsnprintf ensured.2 text) := by
          simp only [appended, responseAppendf, hlen, hsame, hfull, ↓reduceIte, ← hensured, hok,
            ne_eq, not_true_eq_false, halen, hasame, hagain]
        rw [heq]
        refine ⟨hasame ▸ hle, Or.inr rfl, fun h => ?_⟩
        have := (hroom h).2
        omega
      · have heq : appended = (.ok, { vsnprintf ensured.2 text with
            len := (vsnprintf ensured.2 text).len + text.length }) := by
          simp only [appended, responseAppendf, hlen, hsame, hfull, ↓reduceIte, ← hensured, hok,
            ne_eq, not_true_eq_false, halen, hasame, hagain]
        rw [heq]
        refine ⟨hasame ▸ hle, Or.inl ⟨rfl, ?_, ?_⟩, fun _ => rfl⟩
        · rw [text_vsnprintf (Nat.not_le.mp hagain), hetext, htext]
        · exact congrArg (· + text.length) (halen.trans helen)
    · have heq : appended = (ensured.1, ensured.2) := by
        simp only [appended, responseAppendf, hlen, hsame, hfull, ↓reduceIte, ← hensured, hok,
          ne_eq, not_false_eq_true]
      rw [heq]
      exact ⟨hle, Or.inr (hstatus.resolve_left hok), fun h => (hroom h).1⟩
  · have heq : appended = (.ok, { vsnprintf response text with
        len := (vsnprintf response text).len + text.length }) := by
      simp only [appended, responseAppendf, hlen, hsame, hfull, ↓reduceIte]
    rw [heq]
    refine ⟨hsame.ge, Or.inl ⟨rfl, text_vsnprintf (Nat.not_le.mp hfull), ?_⟩, fun _ => rfl⟩
    exact congrArg (· + text.length) hlen

/-! ## Listings -/

/-- A visit of one item and the rest of a list. -/
theorem run_visitAll_cons (item : StockItem) (items : List StockItem)
    (response : ResponseBuilder) :
    (visitAll appendStockLine (item :: items)).run response =
      let appended := responseAppendf response (stockLine item)
      if appended.1 ≠ .ok then appended else (visitAll appendStockLine items).run appended.2 := by
  rw [run_visitAll]
  exact (ite_not _ _ _).symm

/-- **The walk of a listing appends the lines of the items**, or an append has failed. -/
theorem visitAll_appendStockLine {response : ResponseBuilder} (hcap : 0 < response.cap)
    (items : List StockItem) :
    let shown := (visitAll appendStockLine items).run response
    response.cap ≤ shown.2.cap ∧
      (shown.1 = .ok ∧ shown.2.text = response.text ++ items.flatMap stockLine ∨
        shown.1 = .errInternal) ∧
      (response.len + (items.flatMap stockLine).length < sizeMax → shown.1 = .ok) := by
  induction items generalizing response with
  | nil => exact ⟨le_rfl, Or.inl ⟨rfl, (List.append_nil _).symm⟩, fun _ => rfl⟩
  | cons item items ih =>
    intro shown
    obtain ⟨hle, happended, hroom⟩ := responseAppendf_spec hcap (stockLine item)
    set appended := responseAppendf response (stockLine item)
    have hstep : shown = if appended.1 ≠ .ok then appended
        else (visitAll appendStockLine items).run appended.2 :=
      run_visitAll_cons item items response
    rcases happended with ⟨hok, htext, hlen⟩ | herror
    · obtain ⟨hle', hshown, hroom'⟩ := @ih appended.2 (by omega)
      rw [hstep, if_neg (not_not.mpr hok)]
      refine ⟨hle.trans hle', ?_, fun h => hroom' ?_⟩
      · rw [htext, List.append_assoc, ← List.flatMap_cons] at hshown
        exact hshown
      · rw [hlen]
        rw [List.flatMap_cons, List.length_append] at h
        omega
    · rw [hstep, if_pos (by rw [herror]; decide)]
      refine ⟨hle, Or.inr herror, fun h => hroom ?_⟩
      rw [List.flatMap_cons, List.length_append] at h
      omega

/-! ## Capacities -/

/-- There is room for the NUL after the text, and the capacity fits a `size_t`. -/
def ResponseBuilder.Bounded (response : ResponseBuilder) : Prop :=
  response.len < response.cap ∧ response.cap ≤ sizeMax

/-- A fresh buffer is bounded. -/
theorem bounded_responseInit : responseInit.Bounded := ⟨by decide, by decide⟩

/-- Growing stays within a `size_t`. -/
theorem growCapacity_le {newCap needed : ℕ} (hcap : newCap ≤ sizeMax) (hneeded : needed ≤ sizeMax)
    (rounds : ℕ) : growCapacity rounds newCap needed ≤ sizeMax := by
  induction rounds generalizing newCap with
  | zero => exact hcap
  | succ rounds ih =>
    rw [growCapacity]
    split_ifs with hlow hhigh
    · exact hneeded
    · apply ih
      omega
    · exact hcap

/-- Making room keeps a buffer bounded. -/
theorem bounded_responseEnsureCapacity {response : ResponseBuilder} (h : response.Bounded)
    (additional : ℕ) : (responseEnsureCapacity response additional).2.Bounded := by
  obtain ⟨hlen, hcap⟩ := h
  simp only [responseEnsureCapacity]
  split_ifs
  · exact ⟨hlen, hcap⟩
  · exact ⟨hlen, hcap⟩
  · have hgrow := le_growCapacity 64 response.cap (response.len + additional + 1)
    refine ⟨?_, growCapacity_le hcap (by omega) 64⟩
    change response.len < growCapacity 64 response.cap (response.len + additional + 1)
    omega

/-- So does appending to it. -/
theorem bounded_responseAppendf {response : ResponseBuilder} (h : response.Bounded)
    (text : Bytes) : (responseAppendf response text).2.Bounded := by
  have hprint {r : ResponseBuilder} (hr : r.Bounded) : (vsnprintf r text).Bounded := by
    obtain ⟨hlen, hcap, -⟩ := vsnprintf_frame r text
    rwa [ResponseBuilder.Bounded, hlen, hcap]
  have hprinted := hprint h
  have hensured := bounded_responseEnsureCapacity hprinted text.length
  have hagain := hprint hensured
  simp only [responseAppendf]
  split_ifs with hfull hensure hstill
  · exact hensured
  · exact hagain
  · refine ⟨?_, hagain.2⟩
    dsimp only
    omega
  · refine ⟨?_, hprinted.2⟩
    dsimp only
    omega

/-- **And so does a listing.** -/
theorem bounded_visitAll {response : ResponseBuilder} (h : response.Bounded)
    (items : List StockItem) :
    ((visitAll appendStockLine items).run response).2.Bounded := by
  induction items generalizing response with
  | nil => exact h
  | cons item items ih =>
    have happended := bounded_responseAppendf h (stockLine item)
    rw [run_visitAll_cons]
    dsimp only
    split_ifs with hok
    · exact happended
    · exact ih happended

end StockServer
