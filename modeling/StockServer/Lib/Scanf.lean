import StockServer.Lib.Bytes

set_option relaxedAutoImplicit false
set_option autoImplicit false

/-!
# Reading numbers and words: `strtol`, `strtok_r`, `sscanf`

The scanning functions of the C library on byte strings, in the "C" locale and with 64-bit
`long`.  A number is scanned to its exact value first; what a function does with a value out of
range (saturate, set `errno`, keep the low bits) is applied to that value afterwards.

## Main definitions

* `scanNumber` — white space, an optional sign and digits: the exact value and the rest.
* `strtol` — the saturated value, the end pointer and the range error.
* `Numeral` — what such a number looks like; `Padding` — what it may have before the digits that are
  printed.
* `strtokR` — the next token and the rest of the string; `words` — all tokens.
* `Directive`, `sscanf` — the format directives in use, and the conversions made before the
  first directive that fails.

## Main results

* `scanNumber_eq_iff` — a string is scanned to its end exactly when it is a numeral.
* `strtol_eq_iff` — `strtol` reads to the end the numerals of 64 bits.
* `numeral_iff_of_pos` — the numerals of a positive number are its printed form behind padding.
* `words_eq` — splitting at delimiters is repeated `strtokR`.
* `scanNumber_showInt` — a printed number is scanned back, whatever non-digit follows it.
* `sscanfAux_d`, `sscanfAux_lld`, `strtol_showInt` — so it is by `%d`, by `%lld` and by `strtol`,
  where it fits.

## Implementation notes

`%d` converts like glibc: as a saturating 64-bit `strtol` whose low 32 bits are stored.
-/

/-! ## Numbers -/

/-- An optional sign: whether it is a minus, and what follows it. -/
def takeSign : Bytes → Bool × Bytes
  | [] => (false, [])
  | b :: s => if b = 45 then (true, s) else if b = 43 then (false, s) else (false, b :: s)

/-- The number at the front of a string, after white space: its exact value and what follows its
digits; `none` when there is no digit. -/
def scanNumber (s : Bytes) : Option (ℤ × Bytes) :=
  let body := takeSign (s.dropWhile isspace)
  let digits := body.2.takeWhile isdigit
  if digits = [] then none
  else some (if body.1 then -digitsValue digits else digitsValue digits,
    body.2.dropWhile isdigit)

/-- `LONG_MAX` and `LLONG_MAX`. -/
def longMax : ℤ := 2 ^ 63 - 1

/-- `LONG_MIN` and `LLONG_MIN`. -/
def longMin : ℤ := -2 ^ 63

/-- The nearest value that fits 64 bits. -/
def saturate (z : ℤ) : ℤ := max longMin (min z longMax)

/-- What `strtol` and `strtoll` in base 10 report. -/
structure Strtol where
  /-- The value returned. -/
  value : ℤ
  /-- The string at the end pointer. -/
  endptr : Bytes
  /-- A number was found: the end pointer has moved. -/
  found : Bool
  /-- `errno` is `ERANGE`. -/
  erange : Bool
  deriving DecidableEq, Repr

/-- `strtol(s, &endptr, 10)` with `errno` cleared before it. -/
def strtol (s : Bytes) : Strtol :=
  match scanNumber s with
  | none => ⟨0, s, false, false⟩
  | some (z, rest) => ⟨saturate z, rest, true, decide (saturate z ≠ z)⟩

/-- A 64-bit value is not changed by saturation. -/
theorem saturate_eq_self {z : ℤ} (h₁ : longMin ≤ z) (h₂ : z ≤ longMax) : saturate z = z := by
  simp only [saturate]
  omega

/-- White space, an optional sign and one or more digits, and the value they write. -/
def Numeral (s : Bytes) (z : ℤ) : Prop :=
  ∃ skip sign digits : Bytes, s = skip ++ sign ++ digits ∧ (∀ b ∈ skip, isspace b = true) ∧
    (sign = [] ∨ sign = [43] ∨ sign = [45]) ∧ digits ≠ [] ∧ (∀ b ∈ digits, isdigit b = true) ∧
    z = if sign = [45] then -(digitsValue digits : ℤ) else digitsValue digits

/-- A sign and what starts with a digit are taken apart. -/
theorem takeSign_append {sign digits : Bytes} (hsign : sign = [] ∨ sign = [43] ∨ sign = [45])
    (hne : digits ≠ []) (hdigits : ∀ b ∈ digits, isdigit b = true) (rest : Bytes) :
    takeSign (sign ++ (digits ++ rest)) = (decide (sign = [45]), digits ++ rest) := by
  obtain ⟨b, ds, rfl⟩ := List.exists_cons_of_ne_nil hne
  obtain ⟨-, -, h43, h45, -⟩ := isdigit_ne (hdigits b (by simp))
  rcases hsign with rfl | rfl | rfl
  · simp [takeSign, h43, h45]
  · simp [takeSign]
  · simp [takeSign]

/-- What `takeSign` takes is a sign. -/
theorem exists_sign (s : Bytes) : ∃ sign, s = sign ++ (takeSign s).2 ∧
    (sign = [] ∨ sign = [43] ∨ sign = [45]) ∧ (takeSign s).1 = decide (sign = [45]) := by
  cases s with
  | nil => exact ⟨[], rfl, Or.inl rfl, rfl⟩
  | cons b s =>
    rw [takeSign]
    split_ifs with h45 h43
    · exact ⟨[45], by rw [h45]; rfl, Or.inr (Or.inr rfl), rfl⟩
    · exact ⟨[43], by rw [h43]; rfl, Or.inr (Or.inl rfl), rfl⟩
    · exact ⟨[], rfl, Or.inl rfl, rfl⟩

/-- **What is scanned is a numeral**, up to the first byte that is no digit. -/
theorem scanNumber_eq_some_iff {s rest : Bytes} {z : ℤ} : scanNumber s = some (z, rest) ↔
    ∃ t, s = t ++ rest ∧ Numeral t z ∧ ∀ b, rest.head? = some b → isdigit b = false := by
  constructor
  · intro h
    simp only [scanNumber] at h
    split at h
    · cases h
    rename_i hnil
    rw [Option.some.injEq, Prod.mk.injEq] at h
    obtain ⟨sign, hbody, hsign, hminus⟩ := exists_sign (s.dropWhile isspace)
    set body := (takeSign (s.dropWhile isspace)).2
    obtain ⟨hz, hrest⟩ := h
    have hsplit : body.takeWhile isdigit ++ rest = body := by
      rw [← hrest, List.takeWhile_append_dropWhile]
    refine ⟨s.takeWhile isspace ++ sign ++ body.takeWhile isdigit, ?_, ⟨s.takeWhile isspace, sign,
      body.takeWhile isdigit, rfl, fun b hb => List.mem_takeWhile_imp hb, hsign, hnil,
      fun b hb => List.mem_takeWhile_imp hb, ?_⟩, fun b hb => ?_⟩
    · rw [List.append_assoc, hsplit, List.append_assoc, ← hbody,
        List.takeWhile_append_dropWhile]
    · rw [← hz, hminus]
      simp only [decide_eq_true_eq]
    · have hstop := List.head?_dropWhile_not isdigit body
      rw [hrest, hb] at hstop
      simpa using hstop
  · rintro ⟨t, rfl, ⟨skip, sign, digits, rfl, hskip, hsign, hne, hdigits, rfl⟩, hend⟩
    have hhead : ∀ b, (sign ++ digits).head? = some b → isspace b = false := by
      intro b hb
      obtain ⟨d, ds, rfl⟩ := List.exists_cons_of_ne_nil hne
      rcases hsign with rfl | rfl | rfl
      · obtain rfl : d = b := by simpa using hb
        exact isspace_eq_false_of_isdigit (hdigits d (by simp))
      · obtain rfl : 43 = b := by simpa using hb
        decide
      · obtain rfl : 45 = b := by simpa using hb
        decide
    have hdrop : (skip ++ sign ++ digits ++ rest).dropWhile isspace = sign ++ digits ++ rest := by
      rw [List.append_assoc, List.append_assoc, List.dropWhile_append_of_pos hskip,
        ← List.append_assoc]
      cases hs : sign ++ digits with
      | nil => exact absurd (List.append_eq_nil_iff.mp hs).2 hne
      | cons b u => simp [hhead b (by rw [hs]; rfl)]
    have htake : (digits ++ rest).takeWhile isdigit = digits ∧
        (digits ++ rest).dropWhile isdigit = rest := by
      rw [List.takeWhile_append_of_pos hdigits, List.dropWhile_append_of_pos hdigits]
      cases rest with
      | nil => simp
      | cons b rest => simp [hend b rfl]
    have hsigned : takeSign (sign ++ digits ++ rest) = (decide (sign = [45]), digits ++ rest) := by
      rw [List.append_assoc, takeSign_append hsign hne hdigits]
    rw [scanNumber, hdrop, hsigned]
    simp only [htake, hne, ↓reduceIte, decide_eq_true_eq]

/-- **A string is scanned to its end exactly when it is a numeral.** -/
theorem scanNumber_eq_iff {s : Bytes} {z : ℤ} : scanNumber s = some (z, []) ↔ Numeral s z := by
  rw [scanNumber_eq_some_iff]
  constructor
  · rintro ⟨t, hs, ht, -⟩
    rw [List.append_nil] at hs
    rwa [hs]
  · intro h
    exact ⟨s, (List.append_nil s).symm, h, by simp⟩

/-- **What `strtol` reads to the end** without a range error: a numeral of 64 bits. -/
theorem strtol_eq_iff {s : Bytes} {z : ℤ} :
    strtol s = ⟨z, [], true, false⟩ ↔ Numeral s z ∧ longMin ≤ z ∧ z ≤ longMax := by
  rw [← scanNumber_eq_iff, strtol]
  cases hscan : scanNumber s with
  | none => simp
  | some scanned =>
    obtain ⟨v, rest⟩ := scanned
    simp only [Strtol.mk.injEq, true_and, decide_eq_false_iff_not, ne_eq, not_not,
      Option.some.injEq, Prod.mk.injEq]
    constructor
    · rintro ⟨hvalue, rfl, hrange⟩
      obtain rfl : v = z := hrange.symm.trans hvalue
      refine ⟨⟨rfl, rfl⟩, ?_⟩
      have hmin : longMin ≤ longMax := by unfold longMin longMax; omega
      simp only [saturate] at hrange
      omega
    · rintro ⟨⟨rfl, rfl⟩, hmin, hmax⟩
      have hself := saturate_eq_self hmin hmax
      exact ⟨hself, rfl, hself⟩

/-- A value other than zero was found. -/
theorem found_of_value_ne_zero {s : Bytes} (h : (strtol s).value ≠ 0) :
    (strtol s).found = true := by
  rw [strtol] at h ⊢
  split at h
  · exact absurd rfl h
  · rfl

/-- What a numeral of a positive number may have before the digits that are printed: white space, a
plus sign and zeros. -/
def Padding (lead : Bytes) : Prop :=
  ∃ skip plus zeros : Bytes, lead = skip ++ plus ++ zeros ∧ (∀ b ∈ skip, isspace b = true) ∧
    (plus = [] ∨ plus = [43]) ∧ ∀ b ∈ zeros, b = 48

/-- Nothing is padding. -/
theorem padding_nil : Padding [] := ⟨[], [], [], rfl, by simp, Or.inl rfl, by simp⟩

/-- **The numerals of a positive number** are its printed form behind padding. -/
theorem numeral_iff_of_pos {s : Bytes} {z : ℤ} (hz : 0 < z) :
    Numeral s z ↔ ∃ lead, Padding lead ∧ s = lead ++ showInt z := by
  have hshow : showInt z = showNat z.natAbs := if_neg (not_lt.mpr hz.le)
  rw [hshow]
  constructor
  · rintro ⟨skip, sign, digits, rfl, hskip, hsign, -, hdigits, hvalue⟩
    have hminus : sign ≠ [45] := by
      rintro rfl
      rw [if_pos rfl] at hvalue
      omega
    rw [if_neg hminus] at hvalue
    obtain ⟨zeros, hzeros, hsplit⟩ := exists_zeros hdigits
    have hnatAbs : z.natAbs = digitsValue digits := by omega
    rw [if_neg (by omega), ← hnatAbs] at hsplit
    refine ⟨skip ++ sign ++ zeros, ⟨skip, sign, zeros, rfl, hskip, ?_, hzeros⟩, ?_⟩
    · exact hsign.imp_right fun h => h.resolve_right hminus
    · rw [List.append_assoc _ zeros, ← hsplit]
  · rintro ⟨_, ⟨skip, plus, zeros, rfl, hskip, hplus, hzeros⟩, rfl⟩
    refine ⟨skip, plus, zeros ++ showNat z.natAbs, by simp only [List.append_assoc], hskip,
      hplus.imp_right Or.inl, ?_, fun b hb => ?_, ?_⟩
    · exact List.append_ne_nil_of_right_ne_nil _ (showNat_ne_nil _)
    · rcases List.mem_append.mp hb with hb | hb
      · rw [hzeros b hb]
        decide
      · exact isdigit_of_mem_showNat b hb
    · have hminus : plus ≠ [45] := by
        rcases hplus with rfl | rfl <;> decide
      rw [if_neg hminus, digitsValue_zeros_append hzeros, digitsValue_showNat]
      omega

/-! ## Tokens -/

/-- `strtok_r`: skip delimiters, then the token up to the next delimiter and what follows that
delimiter; `none` when only delimiters are left. -/
def strtokR (delim : UInt8 → Bool) (s : Bytes) : Option (Bytes × Bytes) :=
  let t := s.dropWhile delim
  if t = [] then none
  else some (t.takeWhile (! delim ·), (t.dropWhile (! delim ·)).drop 1)

/-- The tokens of a string: what stands between delimiters. -/
def words (delim : UInt8 → Bool) (s : Bytes) : List Bytes :=
  (s.splitOnP delim).filter (· ≠ [])

/-- Delimiters in front of a string are no token. -/
theorem words_dropWhile (delim : UInt8 → Bool) (s : Bytes) :
    words delim (s.dropWhile delim) = words delim s := by
  induction s with
  | nil => rfl
  | cons b s ih =>
    by_cases hb : delim b = true
    · rw [List.dropWhile_cons_of_pos hb, ih, words, words, List.splitOnP_cons_eq_if_modifyHead,
        if_pos hb, List.filter_cons_of_neg (by simp)]
    · rw [List.dropWhile_cons_of_neg hb]

/-- A token in front of a string is the first one. -/
theorem words_append {delim : UInt8 → Bool} {token : Bytes} (hne : token ≠ [])
    (htoken : ∀ b ∈ token, delim b = false) {t : Bytes}
    (ht : ∀ b, t.head? = some b → delim b = true) :
    words delim (token ++ t) = token :: words delim (t.drop 1) := by
  cases t with
  | nil => simp [words, List.splitOnP_eq_singleton htoken, hne]
  | cons b t =>
    rw [words, List.splitOnP_append_cons_of_forall_mem htoken b (ht b rfl),
      List.filter_cons_of_pos (by simpa using hne)]
    rfl

/-- **Splitting at delimiters is repeated `strtok_r`.** -/
theorem words_eq (delim : UInt8 → Bool) (s : Bytes) : words delim s =
    match strtokR delim s with
    | none => []
    | some (token, rest) => token :: words delim rest := by
  rw [← words_dropWhile, strtokR]
  have hhead := List.head?_dropWhile_not delim s
  set t := s.dropWhile delim
  by_cases hnil : t = []
  · simp [hnil, words]
  · simp only [hnil, ↓reduceIte]
    conv_lhs => rw [← List.takeWhile_append_dropWhile (p := (! delim ·)) (l := t)]
    refine words_append ?_ (fun b hb => ?_) fun b hb => ?_
    · obtain ⟨b, u, hu⟩ := List.exists_cons_of_ne_nil hnil
      rw [hu] at hhead ⊢
      simp [show delim b = false from hhead]
    · simpa using List.mem_takeWhile_imp hb
    · have hstop := List.head?_dropWhile_not (! delim ·) t
      rw [hb] at hstop
      simpa using hstop

/-- A token holds no delimiter. -/
theorem delim_of_mem_words {delim : UInt8 → Bool} {s token : Bytes} (h : token ∈ words delim s) :
    ∀ b ∈ token, delim b = false := by
  have hsplit : ∀ l ∈ s.splitOnP delim, ∀ b ∈ l, delim b = false := by
    clear h
    induction s with
    | nil => simp
    | cons c s ih =>
      rw [List.splitOnP_cons_eq_if_modifyHead]
      split_ifs with hc
      · intro l hl
        rcases List.mem_cons.mp hl with rfl | hl
        · simp
        · exact ih l hl
      · obtain ⟨first, rest, hs⟩ :=
          List.exists_cons_of_ne_nil (List.splitOnP_ne_nil delim s)
        rw [hs] at ih ⊢
        intro l hl b hb
        rcases List.mem_cons.mp hl with rfl | hl
        · rcases List.mem_cons.mp hb with rfl | hb
          · simpa using hc
          · exact ih first (by simp) b hb
        · exact ih l (by simp [hl]) b hb
  exact hsplit token (List.mem_of_mem_filter h)

/-! ## Formats -/

/-- The directives of the formats in use. -/
inductive Directive where
  /-- A blank: any white space, none included. -/
  | blank
  /-- `%d`. -/
  | d
  /-- `%lld`. -/
  | lld
  /-- `%s` with a maximal width. -/
  | s (width : ℕ)
  /-- `%c`. -/
  | c
  deriving DecidableEq, Repr

/-- A converted value. -/
inductive Converted where
  | d (value : Int32)
  | lld (value : Int64)
  | s (text : Bytes)
  | c (byte : UInt8)
  deriving DecidableEq, Repr

/-- The value `%d` stores for a number. -/
def scanD (z : ℤ) : Int32 := Int32.ofInt (saturate z)

/-- The value `%lld` stores for a number. -/
def scanLld (z : ℤ) : Int64 := Int64.ofInt (saturate z)

/-- The conversions made before the first directive that fails, and whether that directive
failed at the end of the input. -/
def sscanfAux : List Directive → Bytes → List Converted × Bool
  | [], _ => ([], false)
  | .blank :: ds, s => sscanfAux ds (s.dropWhile isspace)
  | .d :: ds, s =>
    match scanNumber s with
    | none => ([], (s.dropWhile isspace).isEmpty)
    | some (z, rest) => (.d (scanD z) :: (sscanfAux ds rest).1, (sscanfAux ds rest).2)
  | .lld :: ds, s =>
    match scanNumber s with
    | none => ([], (s.dropWhile isspace).isEmpty)
    | some (z, rest) => (.lld (scanLld z) :: (sscanfAux ds rest).1, (sscanfAux ds rest).2)
  | .s width :: ds, s =>
    let t := s.dropWhile isspace
    let word := (t.takeWhile (! isspace ·)).take width
    if word = [] then ([], true)
    else (.s word :: (sscanfAux ds (t.drop word.length)).1,
      (sscanfAux ds (t.drop word.length)).2)
  | .c :: ds, s =>
    match s with
    | [] => ([], true)
    | b :: rest => (.c b :: (sscanfAux ds rest).1, (sscanfAux ds rest).2)

/-- `sscanf`: the number of conversions made, or `EOF` when the input ends before the first, and
the converted values. -/
def sscanf (format : List Directive) (s : Bytes) : ℤ × List Converted :=
  let r := sscanfAux format s
  (if r.1 = [] ∧ r.2 then -1 else r.1.length, r.1)

/-! ## Printed numbers are read back -/

/-- White space in front of a string that starts with none is skipped. -/
theorem dropWhile_isspace_of_head {s : Bytes} (h : ∀ b, s.head? = some b → isspace b = false) :
    s.dropWhile isspace = s := by
  cases s with
  | nil => rfl
  | cons b s => simp [List.dropWhile, h b rfl]

/-- A numeral starts with a digit. -/
theorem head?_showNat (n : ℕ) (t : Bytes) :
    ∃ b s, showNat n ++ t = b :: s ∧ isdigit b = true := by
  obtain ⟨b, s, h⟩ := List.exists_cons_of_ne_nil (showNat_ne_nil n)
  exact ⟨b, s ++ t, by rw [h, List.cons_append], isdigit_of_mem_showNat b (by rw [h]; simp)⟩

/-- The digits of a numeral are what a digit scan takes, and it leaves what follows. -/
theorem takeWhile_showNat (n : ℕ) {t : Bytes}
    (ht : ∀ b, t.head? = some b → isdigit b = false) :
    (showNat n ++ t).takeWhile isdigit = showNat n ∧
      (showNat n ++ t).dropWhile isdigit = t := by
  have hall := isdigit_of_mem_showNat (n := n)
  rw [List.takeWhile_append_of_pos hall, List.dropWhile_append_of_pos hall]
  cases t with
  | nil => simp
  | cons b t => simp [ht b rfl]

/-- A numeral has no sign in front. -/
theorem takeSign_showNat (n : ℕ) (t : Bytes) :
    takeSign (showNat n ++ t) = (false, showNat n ++ t) := by
  obtain ⟨b, s, h, hb⟩ := head?_showNat n t
  obtain ⟨-, -, h43, h45, -⟩ := isdigit_ne hb
  rw [h, takeSign, if_neg h45, if_neg h43]

/-- A printed number does not start with white space. -/
theorem dropWhile_isspace_showInt (z : ℤ) (t : Bytes) :
    (showInt z ++ t).dropWhile isspace = showInt z ++ t := by
  apply dropWhile_isspace_of_head
  intro b hb
  rw [showInt] at hb
  split_ifs at hb
  · obtain rfl : 45 = b := by simpa [ascii] using hb
    decide
  · obtain ⟨c, s, h, hc⟩ := head?_showNat z.natAbs t
    rw [h] at hb
    obtain rfl : c = b := by simpa using hb
    exact isspace_eq_false_of_isdigit hc

/-- **A printed number is scanned back**, and the scan stops at whatever non-digit follows. -/
theorem scanNumber_showInt (z : ℤ) {t : Bytes} (ht : ∀ b, t.head? = some b → isdigit b = false) :
    scanNumber (showInt z ++ t) = some (z, t) := by
  obtain ⟨htake, hdrop⟩ := takeWhile_showNat z.natAbs ht
  rw [scanNumber, dropWhile_isspace_showInt]
  by_cases hz : z < 0
  · have hsign : takeSign (showInt z ++ t) = (true, showNat z.natAbs ++ t) := by
      rw [showInt, if_pos hz]; rfl
    simp only [hsign, htake, hdrop, showNat_ne_nil, ↓reduceIte, digitsValue_showNat]
    congr 2
    omega
  · have hsign : takeSign (showInt z ++ t) = (false, showNat z.natAbs ++ t) := by
      rw [showInt, if_neg hz, takeSign_showNat]
    simp only [hsign, htake, hdrop, showNat_ne_nil, Bool.false_eq_true, ↓reduceIte,
      digitsValue_showNat]
    congr 2
    omega

/-- `%d` stores a 32-bit number unchanged. -/
theorem scanD_toInt (v : Int32) : scanD v.toInt = v := by
  have h₁ := v.le_toInt
  have h₂ := v.toInt_lt
  rw [scanD, saturate_eq_self (by unfold longMin; omega) (by unfold longMax; omega),
    Int32.ofInt_toInt]

/-- `%lld` stores a 64-bit number unchanged. -/
theorem scanLld_toInt (v : Int64) : scanLld v.toInt = v := by
  have h₁ := v.le_toInt
  have h₂ := v.toInt_lt
  rw [scanLld, saturate_eq_self (by unfold longMin; omega) (by unfold longMax; omega),
    Int64.ofInt_toInt]

/-! ## Printed lines are read back -/

/-- A byte of a printed number is a minus sign or a digit. -/
theorem mem_showInt {z : ℤ} {b : UInt8} (h : b ∈ showInt z) : b = 45 ∨ isdigit b = true := by
  rw [showInt] at h
  split_ifs at h
  · rcases List.mem_append.mp h with h | h
    · exact Or.inl (by simpa [ascii] using h)
    · exact Or.inr (isdigit_of_mem_showNat b h)
  · exact Or.inr (isdigit_of_mem_showNat b h)

/-- A byte of a printed number is no NUL, no newline and no white space. -/
theorem mem_showInt_ne {z : ℤ} {b : UInt8} (h : b ∈ showInt z) :
    b ≠ 0 ∧ b ≠ newline ∧ isspace b = false := by
  rcases mem_showInt h with rfl | h
  · decide
  · exact ⟨(isdigit_ne h).1, (isdigit_ne h).2.1, isspace_eq_false_of_isdigit h⟩

/-- A number is printed. -/
theorem showInt_ne_nil (z : ℤ) : showInt z ≠ [] := by
  rw [showInt]
  split_ifs
  · simp [ascii]
  · exact showNat_ne_nil _

/-- **The front of a printed number** is empty, or a lone minus sign, or a printed number. -/
theorem showInt_of_prefix {z : ℤ} {front : Bytes} (h : front <+: showInt z) :
    front = [] ∨ front = [45] ∨ ∃ v, front = showInt v := by
  have hnat : ∀ n, ∃ v, showNat n = showInt v := by
    intro n
    exact ⟨n, by rw [showInt, if_neg (by omega), Int.natAbs_natCast]⟩
  have hminus : ascii "-" = [45] := by decide
  rw [showInt] at h
  split_ifs at h with hz
  · rw [hminus, List.singleton_append] at h
    rcases List.prefix_cons_iff.mp h with hnil | ⟨digits, rfl, hdigits⟩
    · exact Or.inl hnil
    · by_cases hne : digits = []
      · exact Or.inr (Or.inl (by rw [hne]))
      · obtain ⟨m, rfl, -, hpos⟩ := showNat_of_prefix hne hdigits
        have hm : 0 < m := hpos (by omega)
        refine Or.inr (Or.inr ⟨-m, ?_⟩)
        rw [showInt, if_pos (by omega), Int.natAbs_neg, Int.natAbs_natCast]
        rfl
  · by_cases hne : front = []
    · exact Or.inl hne
    · obtain ⟨m, rfl, -⟩ := showNat_of_prefix hne h
      exact Or.inr (Or.inr (hnat m))

/-- Numbers that are printed alike are equal. -/
theorem showInt_inj {z w : ℤ} (h : showInt z = showInt w) : z = w := by
  have hscan : ∀ v, scanNumber (showInt v) = some (v, []) := by
    intro v
    simpa using @scanNumber_showInt v [] (by simp)
  have heq := hscan z
  rw [h, hscan w] at heq
  exact (congrArg Prod.fst (Option.some.inj heq)).symm

/-- A printed number below `10 ^ k` in absolute value has at most `k` digits and a sign. -/
theorem length_showInt_le {z : ℤ} {k : ℕ} (hk : 0 < k) (h : z.natAbs < 10 ^ k) :
    (showInt z).length ≤ k + 1 := by
  have := length_showNat_le hk h
  rw [showInt]
  split_ifs <;> simp [ascii] <;> omega

/-- A printed number of more than twenty bytes does not fit a `long`, and is scanned to an `int`
that is not positive. -/
theorem scanD_nonpos {z : ℤ} (h : 20 < (showInt z).length) : scanD z ≤ 0 := by
  have hbig : 10 ^ 19 ≤ z.natAbs := by
    by_contra hlt
    have := @length_showInt_le z 19 (by omega) (by omega)
    omega
  rcases le_total 0 z with hz | hz
  · have hsat : saturate z = longMax := by
      unfold saturate longMin longMax
      omega
    rw [scanD, hsat]
    decide
  · have hsat : saturate z = longMin := by
      unfold saturate longMin longMax
      omega
    rw [scanD, hsat]
    decide

/-- A printed 32-bit number has at most eleven bytes. -/
theorem length_showInt_int32 (v : Int32) : (showInt v.toInt).length ≤ 10 + 1 := by
  have h₁ := v.le_toInt
  have h₂ := v.toInt_lt
  exact length_showInt_le (by omega) (by omega)

/-- A blank in a format skips a space. -/
theorem sscanfAux_space (ds : List Directive) (s : Bytes) :
    sscanfAux (.blank :: ds) (32 :: s) = sscanfAux (.blank :: ds) s := by
  simp [sscanfAux, List.dropWhile, isspace]

/-- **`%d` reads a printed number** as the `int` it is scanned to, and goes on after it. -/
theorem sscanfAux_showInt (ds : List Directive) (z : ℤ) {t : Bytes}
    (ht : ∀ b, t.head? = some b → isdigit b = false) :
    sscanfAux (.blank :: .d :: ds) (showInt z ++ t) =
      (.d (scanD z) :: (sscanfAux ds t).1, (sscanfAux ds t).2) := by
  rw [sscanfAux, dropWhile_isspace_showInt, sscanfAux, scanNumber_showInt _ ht]

/-- **`%d` reads a printed 32-bit number back** and goes on after it. -/
theorem sscanfAux_d (ds : List Directive) (v : Int32) {t : Bytes}
    (ht : ∀ b, t.head? = some b → isdigit b = false) :
    sscanfAux (.blank :: .d :: ds) (showInt v.toInt ++ t) =
      (.d v :: (sscanfAux ds t).1, (sscanfAux ds t).2) := by
  rw [sscanfAux_showInt ds _ ht, scanD_toInt]

/-- **`%lld` reads a printed 64-bit number back** and goes on after it. -/
theorem sscanfAux_lld (ds : List Directive) (v : Int64) {t : Bytes}
    (ht : ∀ b, t.head? = some b → isdigit b = false) :
    sscanfAux (.blank :: .lld :: ds) (showInt v.toInt ++ t) =
      (.lld v :: (sscanfAux ds t).1, (sscanfAux ds t).2) := by
  rw [sscanfAux, dropWhile_isspace_showInt, sscanfAux, scanNumber_showInt _ ht]
  simp only [scanLld_toInt]

/-- **`strtol` reads a printed 64-bit number back** and stops at its end. -/
theorem strtol_showInt (v : Int64) : strtol (showInt v.toInt) = ⟨v.toInt, [], true, false⟩ := by
  have h₁ := v.le_toInt
  have h₂ := v.toInt_lt
  have hsat : saturate v.toInt = v.toInt :=
    saturate_eq_self (by unfold longMin; omega) (by unfold longMax; omega)
  have hscan : scanNumber (showInt v.toInt) = some (v.toInt, []) := by
    simpa using @scanNumber_showInt v.toInt [] (by simp)
  simp [strtol, hscan, hsat]
