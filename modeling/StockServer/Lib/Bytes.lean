import Mathlib.Data.Nat.Digits.Lemmas
import Mathlib.Data.List.TakeWhile

set_option relaxedAutoImplicit false
set_option autoImplicit false

/-!
# Byte strings, decimal numerals and bounded lines

The text layer of the C library in the "C" locale: byte strings, the character classes of
`ctype.h`, the decimal numerals that `printf` writes, and the way a reader with a bounded line
buffer cuts a byte stream into lines.

## Main definitions

* `Bytes`, `ascii`, `cstr` — byte strings, the bytes of an ASCII literal, and the C string at the
  start of a buffer.
* `isspace`, `isdigit` — the character classes.
* `digitsValue`, `showNat`, `showInt` — the value of a digit string; `%d` as `printf` writes it.
* `takeLine`, `pieces` — one bounded line of a stream, and all of them.
* `splitLines` — the physical lines of a stream.

## Main results

* `digitsValue_showNat`, `isdigit_of_mem_showNat` — numerals are digit strings with the value
  they print.
* `pieces_eq`, `flatten_pieces` — cutting is repeated `takeLine`, and loses no byte.
* `pieces_append_line` — a line that fits the buffer is one piece.
* `pieces_eq_flatMap` — a reader cuts line by line.
-/

/-- A byte string. -/
abbrev Bytes := List UInt8

/-- The bytes of an ASCII literal. -/
def ascii (s : String) : Bytes := s.toList.map fun c => c.toNat.toUInt8

/-- The newline byte. -/
def newline : UInt8 := 10

/-- The C string at the start of a buffer: everything before the first NUL. -/
def cstr (bs : Bytes) : Bytes := bs.takeWhile (· ≠ 0)

/-- A byte string without NUL is its own C string. -/
theorem cstr_eq_self {bs : Bytes} (h : ∀ b ∈ bs, b ≠ 0) : cstr bs = bs := by
  rw [cstr, List.takeWhile_eq_self_iff]
  simpa using h

/-! ## Character classes -/

/-- `isspace`: space, tab, newline, vertical tab, form feed, carriage return. -/
def isspace (b : UInt8) : Bool := b == 32 || (9 ≤ b && b ≤ 13)

/-- `isdigit`: `0` to `9`. -/
def isdigit (b : UInt8) : Bool := 48 ≤ b && b ≤ 57

/-- No digit is white space. -/
theorem isspace_eq_false_of_isdigit {b : UInt8} (h : isdigit b = true) : isspace b = false := by
  simp only [isdigit, isspace, Bool.and_eq_true, decide_eq_true_eq, UInt8.le_iff_toNat_le,
    Bool.or_eq_false_iff, beq_eq_false_iff_ne, ne_eq, Bool.and_eq_false_iff,
    decide_eq_false_iff_not, ← UInt8.toNat_inj] at h ⊢
  simp at h ⊢
  omega

/-! ## Decimal numerals -/

/-- The digit `d` as a byte. -/
def digitByte (d : ℕ) : UInt8 := (48 + d).toUInt8

/-- The value of a digit string, most significant digit first. -/
def digitsValue (ds : Bytes) : ℕ := ds.foldl (fun v b => 10 * v + (b.toNat - 48)) 0

/-- A natural number as `printf` writes it: its decimal digits, at least one. -/
def showNat (n : ℕ) : Bytes :=
  if n = 0 then [digitByte 0] else (Nat.digits 10 n).reverse.map digitByte

/-- `%d` and `%lld`: the sign, if negative, and the digits. -/
def showInt (z : ℤ) : Bytes :=
  if z < 0 then ascii "-" ++ showNat z.natAbs else showNat z.natAbs

/-- A digit byte has the number it stands for above `0`. -/
theorem toNat_digitByte {d : ℕ} (hd : d < 10) : (digitByte d).toNat = 48 + d := by
  simp [digitByte]; omega

/-- A digit byte is a digit. -/
theorem isdigit_digitByte {d : ℕ} (hd : d < 10) : isdigit (digitByte d) = true := by
  have := toNat_digitByte hd
  simp [isdigit, UInt8.le_iff_toNat_le, this]
  omega

/-- Numerals extend on the right by the last digit. -/
theorem showNat_eq (n : ℕ) :
    showNat n = if n < 10 then [digitByte n] else showNat (n / 10) ++ [digitByte (n % 10)] := by
  split_ifs with h
  · rcases Nat.eq_zero_or_pos n with rfl | hn
    · rfl
    · rw [showNat, if_neg hn.ne', Nat.digits_of_lt 10 n hn.ne' h]; rfl
  · have hn : n ≠ 0 := by omega
    have hq : n / 10 ≠ 0 := by omega
    rw [showNat, if_neg hn, showNat, if_neg hq, Nat.digits_def' (by norm_num) (by omega)]
    simp

@[simp] theorem digitsValue_nil : digitsValue [] = 0 := rfl

/-- One more digit on the right. -/
theorem digitsValue_concat (ds : Bytes) (b : UInt8) :
    digitsValue (ds ++ [b]) = 10 * digitsValue ds + (b.toNat - 48) := by
  simp [digitsValue, List.foldl_append]

/-- **A numeral has the value it prints.** -/
theorem digitsValue_showNat (n : ℕ) : digitsValue (showNat n) = n := by
  induction n using Nat.strong_induction_on with
  | _ n ih =>
    rw [showNat_eq]
    split_ifs with h
    · have := toNat_digitByte h
      simp [digitsValue, this]
    · rw [digitsValue_concat, ih (n / 10) (by omega), toNat_digitByte (Nat.mod_lt n (by norm_num))]
      omega

/-- Numerals consist of digits. -/
theorem isdigit_of_mem_showNat {n : ℕ} : ∀ b ∈ showNat n, isdigit b = true := by
  induction n using Nat.strong_induction_on with
  | _ n ih =>
    intro b hb
    rw [showNat_eq] at hb
    split_ifs at hb with h
    · obtain rfl := List.mem_singleton.mp hb
      exact isdigit_digitByte h
    · rcases List.mem_append.mp hb with hb | hb
      · exact ih (n / 10) (by omega) b hb
      · obtain rfl := List.mem_singleton.mp hb
        exact isdigit_digitByte (Nat.mod_lt n (by norm_num))

/-- A numeral has at least one digit. -/
theorem showNat_ne_nil (n : ℕ) : showNat n ≠ [] := by
  rw [showNat_eq]; split_ifs <;> simp

/-- A numeral below `10 ^ k` has at most `k` digits. -/
theorem length_showNat_le {n k : ℕ} (hk : 0 < k) (h : n < 10 ^ k) : (showNat n).length ≤ k := by
  induction k generalizing n with
  | zero => omega
  | succ k ih =>
    rw [showNat_eq]
    split_ifs with hn
    · simp
    · have hk0 : 0 < k := by
        rcases Nat.eq_zero_or_pos k with rfl | h0
        · omega
        · exact h0
      have := ih hk0 (n := n / 10) (by rw [pow_succ] at h; omega)
      simp only [List.length_append, List.length_singleton]
      omega

/-- The byte of a digit. -/
theorem exists_digit {b : UInt8} (h : isdigit b = true) :
    ∃ d < 10, b = digitByte d ∧ b.toNat - 48 = d := by
  simp only [isdigit, Bool.and_eq_true, decide_eq_true_eq, UInt8.le_iff_toNat_le] at h
  have hlow : 48 ≤ b.toNat := h.1
  have hhigh : b.toNat ≤ 57 := h.2
  have hd : b.toNat - 48 < 10 := by omega
  refine ⟨b.toNat - 48, hd, ?_, rfl⟩
  rw [← UInt8.toNat_inj, toNat_digitByte hd]
  omega

/-- **A digit string is the numeral of its value behind zeros.** -/
theorem exists_zeros {ds : Bytes} (hds : ∀ b ∈ ds, isdigit b = true) :
    ∃ zeros : Bytes, (∀ b ∈ zeros, b = 48) ∧
      ds = zeros ++ if digitsValue ds = 0 then [] else showNat (digitsValue ds) := by
  induction ds using List.reverseRecOn with
  | nil => exact ⟨[], by simp, rfl⟩
  | append_singleton ds b ih =>
    obtain ⟨zeros, hzeros, hsplit⟩ := ih fun c hc => hds c (List.mem_append_left _ hc)
    obtain ⟨d, hd, hb, hvalue⟩ := exists_digit (hds b (by simp))
    rw [digitsValue_concat, hvalue]
    by_cases hfront : digitsValue ds = 0
    · rw [if_pos hfront, List.append_nil] at hsplit
      rw [hfront, Nat.mul_zero, Nat.zero_add]
      by_cases hzero : d = 0
      · subst hzero
        refine ⟨zeros ++ [b], fun c hc => ?_, by rw [if_pos rfl, List.append_nil, hsplit]⟩
        rcases List.mem_append.mp hc with hc | hc
        · exact hzeros c hc
        · rw [List.mem_singleton.mp hc, hb]
          rfl
      · refine ⟨zeros, hzeros, ?_⟩
        rw [if_neg hzero, showNat_eq, if_pos hd, ← hb, hsplit]
    · rw [if_neg hfront] at hsplit
      refine ⟨zeros, hzeros, ?_⟩
      have hquot : (10 * digitsValue ds + d) / 10 = digitsValue ds := by omega
      have hrem : (10 * digitsValue ds + d) % 10 = d := by omega
      rw [if_neg (by omega), showNat_eq, if_neg (by omega), hquot, hrem, ← hb, ← List.append_assoc,
        ← hsplit]

/-- Zeros before a digit string do not count. -/
theorem digitsValue_zeros_append {zeros : Bytes} (hzeros : ∀ b ∈ zeros, b = 48) (ds : Bytes) :
    digitsValue (zeros ++ ds) = digitsValue ds := by
  have hfold : digitsValue zeros = 0 := by
    induction zeros using List.reverseRecOn with
    | nil => rfl
    | append_singleton zeros b ih =>
      rw [digitsValue_concat, ih fun c hc => hzeros c (List.mem_append_left _ hc),
        hzeros b (by simp)]
      rfl
  rw [digitsValue, List.foldl_append]
  exact congrArg (fun v => ds.foldl (fun v b => 10 * v + (b.toNat - 48)) v) hfold

/-- **The front of a numeral is a numeral**, of a smaller number unless it is the whole. -/
theorem showNat_of_prefix {n : ℕ} {ds : Bytes} (hne : ds ≠ []) (h : ds <+: showNat n) :
    ∃ m, ds = showNat m ∧ m ≤ n ∧ (0 < n → 0 < m) := by
  induction n using Nat.strong_induction_on with
  | _ n ih =>
    by_cases hwhole : ds = showNat n
    · exact ⟨n, hwhole, le_rfl, id⟩
    · rw [showNat_eq] at h hwhole
      split_ifs at h hwhole with hsmall
      · -- one digit has no proper front
        rcases List.prefix_cons_iff.mp h with hnil | ⟨t, ht, hpre⟩
        · exact absurd hnil hne
        · rw [List.prefix_nil.mp hpre] at ht
          exact absurd ht hwhole
      · have hfront := (List.prefix_concat_iff.mp h).resolve_left hwhole
        obtain ⟨m, hm, hle, hpos⟩ := ih (n / 10) (by omega) hfront
        exact ⟨m, hm, by omega, fun _ => hpos (by omega)⟩

/-- A digit is no NUL, no newline, no sign and no white space. -/
theorem isdigit_ne {b : UInt8} (h : isdigit b = true) :
    b ≠ 0 ∧ b ≠ newline ∧ b ≠ 43 ∧ b ≠ 45 ∧ b ≠ 32 := by
  refine ⟨?_, ?_, ?_, ?_, ?_⟩ <;> (rintro rfl; revert h; decide)

/-! ## Fronts of texts -/

/-- The front of two texts is a front of the first, or goes into the second. -/
theorem prefix_append_cases {w s t : Bytes} (h : w <+: s ++ t) :
    w <+: s ∨ ∃ u, w = s ++ u ∧ u <+: t := by
  rcases List.prefix_or_prefix_of_prefix h (List.prefix_append s t) with hfront | ⟨u, rfl⟩
  · exact Or.inl hfront
  · exact Or.inr ⟨u, rfl, (List.prefix_append_right_inj s).mp h⟩

/-- The front of two texts with a byte between them is a front of the first, or has that byte and
goes into the second. -/
theorem prefix_append_cons_cases {w s t : Bytes} {b : UInt8} (h : w <+: s ++ b :: t) :
    w <+: s ∨ ∃ u, w = s ++ b :: u ∧ u <+: t := by
  rcases prefix_append_cases h with hfront | ⟨u, rfl, hu⟩
  · exact Or.inl hfront
  · rcases List.prefix_cons_iff.mp hu with rfl | ⟨v, rfl, hv⟩
    · exact Or.inl (by rw [List.append_nil])
    · exact Or.inr ⟨v, rfl, hv⟩

/-! ## Bounded lines -/

/-- One line of a stream for a reader with room for `max` bytes: up to and including the first
newline, but at most `max` bytes; and what is left of the stream. -/
def takeLine : ℕ → Bytes → Bytes × Bytes
  | 0, s => ([], s)
  | _ + 1, [] => ([], [])
  | max + 1, b :: s =>
    if b = newline then ([b], s) else (b :: (takeLine max s).1, (takeLine max s).2)

/-- Cut a stream with `room` bytes left in the line buffer of size `max`: a piece ends with a
newline, when the buffer is full, or with the stream. -/
def cutLines (max : ℕ) : ℕ → Bytes → List Bytes
  | _, [] => []
  | room, b :: s =>
    if b = newline ∨ room ≤ 1 then [b] :: cutLines max max s
    else match cutLines max (room - 1) s with
      | [] => [[b]]
      | l :: ls => (b :: l) :: ls

/-- All lines of a stream for a reader with room for `max` bytes at a time. -/
def pieces (max : ℕ) (s : Bytes) : List Bytes := cutLines max max s

@[simp] theorem pieces_nil (max : ℕ) : pieces max [] = [] := rfl

/-- With room for at least one byte, cutting is taking one line and going on. -/
theorem cutLines_eq (max : ℕ) : ∀ (room : ℕ) (s : Bytes), 0 < room → s ≠ [] →
    cutLines max room s = (takeLine room s).1 :: cutLines max max (takeLine room s).2
  | 0, _, h, _ => absurd h (Nat.lt_irrefl 0)
  | _ + 1, [], _, h => absurd rfl h
  | room + 1, b :: s, _, _ => by
    rw [cutLines, takeLine]
    by_cases hb : b = newline
    · simp [hb]
    · rcases Nat.eq_zero_or_pos room with rfl | hr
      · simp [hb, takeLine]
      · have hne : ¬(b = newline ∨ room + 1 ≤ 1) := by
          rintro (h | h)
          exacts [hb h, by omega]
        rw [if_neg hne, if_neg hb, Nat.add_sub_cancel]
        rcases s with _ | ⟨c, s⟩
        · cases room <;> simp [cutLines, takeLine]
        · rw [cutLines_eq max room (c :: s) hr (List.cons_ne_nil c s)]

/-- **Cutting is repeated `takeLine`.** -/
theorem pieces_eq {max : ℕ} (hmax : 0 < max) (s : Bytes) : pieces max s =
    if s = [] then [] else (takeLine max s).1 :: pieces max (takeLine max s).2 := by
  split_ifs with h
  · rw [h]; rfl
  · exact cutLines_eq max max s hmax h

/-- A taken line and the rest are the stream. -/
theorem takeLine_append : ∀ (max : ℕ) (s : Bytes), (takeLine max s).1 ++ (takeLine max s).2 = s
  | 0, _ => rfl
  | _ + 1, [] => rfl
  | max + 1, b :: s => by
    rw [takeLine]
    split_ifs
    · rfl
    · simp [takeLine_append max s]

/-- A non-empty stream has a non-empty line. -/
theorem takeLine_ne_nil {max : ℕ} (hmax : 0 < max) {s : Bytes} (hs : s ≠ []) :
    (takeLine max s).1 ≠ [] := by
  obtain ⟨m, rfl⟩ : ∃ m, max = m + 1 := ⟨max - 1, by omega⟩
  cases s with
  | nil => exact absurd rfl hs
  | cons b s => rw [takeLine]; split_ifs <;> simp

/-- Taking a line makes a non-empty stream shorter. -/
theorem length_takeLine_snd_lt {max : ℕ} (hmax : 0 < max) {s : Bytes} (hs : s ≠ []) :
    (takeLine max s).2.length < s.length := by
  have happ := congrArg List.length (takeLine_append max s)
  have hpos := List.length_pos_iff.mpr (takeLine_ne_nil hmax hs)
  rw [List.length_append] at happ
  omega

/-- A taken line fits the buffer. -/
theorem length_takeLine_le : ∀ (max : ℕ) (s : Bytes), (takeLine max s).1.length ≤ max
  | 0, _ => by simp [takeLine]
  | _ + 1, [] => by simp [takeLine]
  | max + 1, b :: s => by
    rw [takeLine]
    split_ifs
    · simp
    · simpa using length_takeLine_le max s

/-- **Cutting loses no byte** and adds none. -/
theorem flatten_pieces {max : ℕ} (hmax : 0 < max) (s : Bytes) : (pieces max s).flatten = s := by
  induction h : s.length using Nat.strong_induction_on generalizing s with
  | _ n ih =>
    rw [pieces_eq hmax]
    split_ifs with hs
    · simp [hs]
    · have hlt := length_takeLine_snd_lt hmax hs
      rw [List.flatten_cons, ih _ (h ▸ hlt) _ rfl, takeLine_append]

/-- A line with its newline that fits the buffer is taken whole. -/
theorem takeLine_line {max : ℕ} {line : Bytes} (hl : ∀ b ∈ line, b ≠ newline)
    (hmax : line.length < max) (s : Bytes) :
    takeLine max (line ++ newline :: s) = (line ++ [newline], s) := by
  induction line generalizing max with
  | nil =>
    obtain ⟨m, rfl⟩ : ∃ m, max = m + 1 := ⟨max - 1, by simp at hmax; omega⟩
    simp [takeLine]
  | cons b line ih =>
    obtain ⟨m, rfl⟩ : ∃ m, max = m + 1 := ⟨max - 1, by simp at hmax; omega⟩
    have hb : b ≠ newline := hl b (by simp)
    have ih' := @ih m (fun c hc => hl c (by simp [hc])) (by simp at hmax; omega)
    simp [takeLine, hb, ih']

/-- An unterminated line that fits the buffer is taken whole at the end of the stream. -/
theorem takeLine_tail {max : ℕ} {line : Bytes} (hl : ∀ b ∈ line, b ≠ newline)
    (hmax : line.length ≤ max) : takeLine max line = (line, []) := by
  induction line generalizing max with
  | nil => cases max <;> simp [takeLine]
  | cons b line ih =>
    obtain ⟨m, rfl⟩ : ∃ m, max = m + 1 := ⟨max - 1, by simp at hmax; omega⟩
    have hb : b ≠ newline := hl b (by simp)
    have ih' := @ih m (fun c hc => hl c (by simp [hc])) (by simp at hmax; omega)
    simp [takeLine, hb, ih']

/-- A run of bytes without newline that is at least as long as the buffer fills it. -/
theorem takeLine_full {max : ℕ} {line : Bytes} (hl : ∀ b ∈ line, b ≠ newline)
    (hlen : line.length = max) (s : Bytes) : takeLine max (line ++ s) = (line, s) := by
  induction line generalizing max with
  | nil => obtain rfl : max = 0 := by simpa using hlen.symm
           simp [takeLine]
  | cons b line ih =>
    obtain ⟨m, rfl⟩ : ∃ m, max = m + 1 := ⟨max - 1, by simp at hlen; omega⟩
    have hb : b ≠ newline := hl b (by simp)
    have ih' := @ih m (fun c hc => hl c (by simp [hc])) (by simpa using hlen)
    simp [takeLine, hb, ih']

/-- **A line that fits the buffer is one piece.** -/
theorem pieces_append_line {max : ℕ} {line : Bytes} (hl : ∀ b ∈ line, b ≠ newline)
    (hmax : line.length < max) (s : Bytes) :
    pieces max (line ++ newline :: s) = (line ++ [newline]) :: pieces max s := by
  rw [pieces_eq (by omega), if_neg (by simp), takeLine_line hl hmax]

/-! ## Physical lines -/

/-- The lines of a stream, each with its newline; bytes after the last newline are a line too. -/
def splitLines : Bytes → List Bytes
  | [] => []
  | b :: s =>
    if b = newline then [b] :: splitLines s
    else match splitLines s with
      | [] => [[b]]
      | l :: ls => (b :: l) :: ls

/-- The lines of a stream are the stream. -/
theorem flatten_splitLines (s : Bytes) : (splitLines s).flatten = s := by
  induction s with
  | nil => rfl
  | cons b s ih =>
    rw [splitLines]
    split_ifs
    · simp [ih]
    · cases h : splitLines s with
      | nil => rw [h] at ih; simp [← ih]
      | cons l ls => rw [h] at ih; simp [← ih]

/-- The first line of a stream ends at its newline. -/
theorem splitLines_append_line {line : Bytes} (hl : ∀ b ∈ line, b ≠ newline) (s : Bytes) :
    splitLines (line ++ newline :: s) = (line ++ [newline]) :: splitLines s := by
  induction line with
  | nil => simp [splitLines]
  | cons b line ih =>
    have hb : b ≠ newline := hl b (by simp)
    simp [splitLines, hb, ih fun c hc => hl c (by simp [hc])]

/-- No line is empty. -/
theorem ne_nil_of_mem_splitLines {s l : Bytes} (h : l ∈ splitLines s) : l ≠ [] := by
  induction s generalizing l with
  | nil => simp [splitLines] at h
  | cons b s ih =>
    rw [splitLines] at h
    by_cases hb : b = newline
    · rw [if_pos hb] at h
      rcases List.mem_cons.mp h with rfl | h
      · simp
      · exact ih h
    · rw [if_neg hb] at h
      cases hs : splitLines s with
      | nil => rw [hs] at h; simp at h; simp [h]
      | cons k ks =>
        rw [hs] at h
        rcases List.mem_cons.mp h with rfl | h
        · simp
        · exact ih (by rw [hs]; simp [h])

/-- With enough room for every line, cutting a stream gives its lines. -/
theorem cutLines_eq_splitLines {max : ℕ} : ∀ (room : ℕ) (s : Bytes),
    (∀ l ∈ (splitLines s).head?, l.length ≤ room) → (∀ l ∈ splitLines s, l.length ≤ max) →
    cutLines max room s = splitLines s := by
  intro room s
  induction s generalizing room with
  | nil => intros; rfl
  | cons b s ih =>
    intro hroom hmax
    rw [splitLines] at hroom hmax ⊢
    rw [cutLines]
    by_cases hb : b = newline
    · simp only [hb, ↓reduceIte, true_or] at hmax ⊢
      have hrest : ∀ l ∈ splitLines s, l.length ≤ max := fun l hl => hmax l (by simp [hl])
      rw [ih max (fun l hl => hrest l (List.mem_of_mem_head? hl)) hrest]
    · simp only [hb, ↓reduceIte, false_or] at hroom hmax ⊢
      cases hs : splitLines s with
      | nil =>
        have hnil : s = [] := by rw [← flatten_splitLines s, hs]; rfl
        subst hnil
        split_ifs <;> simp [cutLines]
      | cons l ls =>
        rw [hs] at hroom hmax
        have hl : l.length + 1 ≤ room := by simpa using hroom
        have hne : l ≠ [] := ne_nil_of_mem_splitLines (s := s) (by rw [hs]; simp)
        have hpos := List.length_pos_iff.mpr hne
        rw [if_neg (by omega), ih (room - 1)]
        · simp [hs]
        · rw [hs]; simpa using by omega
        · rw [hs]
          intro x hx
          rcases List.mem_cons.mp hx with rfl | hx
          · have := hmax (b :: x) (by simp)
            simp at this; omega
          · exact hmax x (by simp [hx])

/-- **When every line fits, the pieces of a stream are its lines.** -/
theorem pieces_eq_splitLines {max : ℕ} {s : Bytes} (h : ∀ l ∈ splitLines s, l.length ≤ max) :
    pieces max s = splitLines s :=
  cutLines_eq_splitLines max s (fun l hl => h l (List.mem_of_mem_head? hl)) h

/-- A non-empty stream without newline is one line. -/
theorem splitLines_eq_singleton {s : Bytes} (hs : s ≠ []) (hl : ∀ b ∈ s, b ≠ newline) :
    splitLines s = [s] := by
  induction s with
  | nil => exact absurd rfl hs
  | cons b s ih =>
    rw [splitLines, if_neg (hl b (by simp))]
    rcases s.eq_nil_or_concat with hnil | ⟨_, _, hne⟩
    · rw [hnil]
      rfl
    · rw [ih (by simp [hne]) fun c hc => hl c (by simp [hc])]

/-- The pieces of a line and what follows it are those of the line and those of the rest. -/
theorem pieces_append {max : ℕ} (hmax : 0 < max) {line : Bytes} (hl : ∀ b ∈ line, b ≠ newline)
    (s : Bytes) :
    pieces max (line ++ newline :: s) = pieces max (line ++ [newline]) ++ pieces max s := by
  induction h : line.length using Nat.strong_induction_on generalizing line with
  | _ n ih =>
    by_cases hshort : line.length < max
    · rw [pieces_append_line hl hshort, pieces_append_line hl hshort, pieces_nil,
        List.singleton_append]
    · -- the front of the line fills the buffer
      have hfront : (line.take max).length = max := List.length_take_of_le (by omega)
      have htake : ∀ t, takeLine max (line ++ t) = (line.take max, line.drop max ++ t) := by
        intro t
        have hfull := takeLine_full (fun b hb => hl b (List.mem_of_mem_take hb)) hfront
          (line.drop max ++ t)
        rwa [← List.append_assoc, List.take_append_drop] at hfull
      have hrest := @ih (line.drop max).length (by rw [List.length_drop]; omega) (line.drop max)
        (fun b hb => hl b (List.mem_of_mem_drop hb)) rfl
      rw [pieces_eq hmax, if_neg (by simp), htake, hrest, pieces_eq hmax (line ++ [newline]),
        if_neg (by simp), htake, List.cons_append]

/-- **A reader cuts line by line**: the pieces of a stream are the pieces of its lines. -/
theorem pieces_eq_flatMap {max : ℕ} (hmax : 0 < max) (s : Bytes) :
    pieces max s = (splitLines s).flatMap (pieces max) := by
  induction h : s.length using Nat.strong_induction_on generalizing s with
  | _ n ih =>
    by_cases hnl : newline ∈ s
    · obtain ⟨line, rest, rfl, hline⟩ := List.eq_append_cons_of_mem hnl
      have hl : ∀ b ∈ line, b ≠ newline := fun b hb hbn => hline (hbn ▸ hb)
      have hlt : rest.length < n := by
        rw [← h, List.length_append, List.length_cons]
        omega
      rw [splitLines_append_line hl, List.flatMap_cons, pieces_append hmax hl, ih _ hlt rest rfl]
    · rcases s.eq_nil_or_concat with rfl | ⟨_, _, hne⟩
      · rfl
      · rw [splitLines_eq_singleton (by simp [hne]) fun b hb hbn => hnl (hbn ▸ hb),
          List.flatMap_singleton]
