import Mathlib.Data.List.DropRight
import StockServer.Lib.Scanf

set_option relaxedAutoImplicit false
set_option autoImplicit false

/-!
# Formats that take a whole line

A format of `n` number directives that ends with `" %c"`, with a conversion count of `n` asked for,
takes lines that hold `n` numbers and nothing else.  It does not ask for white space between the
numbers: a sign is enough to start the next one.

## Main definitions

* `Numbers` — numbers one after another, up to white space at the end.
* `firstWord`, `behindWord` — the first word of a string and what follows it.
* `numbersFormat` — `n` number directives and `" %c"`.

## Main results

* `numbers_cons_iff`, `Numbers.inj` — the numbers are those that `scanNumber` finds one by one.
* `numbers_of_words` — words that are numerals are numbers.
* `words_of_numbers` — there are at most as many words as numbers, and as many exactly when each
  number is a word.
* `sscanfAux_of_numbers`, `numbers_of_sscanfAux` — **a text of `n` numbers is what such a format
  takes**.
* `numbers_pad_iff`, `firstWord_pad` — white space around a text makes no difference.
* `sscanfAux_word` — a `%s` in front takes the first word, up to its width.
-/

/-! ## Words -/

/-- The string is white space. -/
def Blank (s : Bytes) : Prop := ∀ b ∈ s, isspace b = true

instance (s : Bytes) : Decidable (Blank s) := inferInstanceAs (Decidable (∀ _ ∈ _, _))

/-- The first word of a string. -/
def firstWord (s : Bytes) : Bytes := (s.dropWhile isspace).takeWhile (! isspace ·)

/-- What follows the first word. -/
def behindWord (s : Bytes) : Bytes := (s.dropWhile isspace).dropWhile (! isspace ·)

/-- Only white space is left exactly when dropping it leaves nothing. -/
theorem dropWhile_isspace_eq_nil {s : Bytes} : s.dropWhile isspace = [] ↔ Blank s :=
  List.dropWhile_eq_nil_iff

/-- A delimiter at the front ends no word. -/
theorem words_drop_one {delim : UInt8 → Bool} {s : Bytes}
    (h : ∀ b, s.head? = some b → delim b = true) : words delim (s.drop 1) = words delim s := by
  cases s with
  | nil => rfl
  | cons b s =>
    rw [words, words, List.splitOnP_cons_eq_if_modifyHead, if_pos (h b rfl),
      List.filter_cons_of_neg (by simp), List.drop_one, List.tail_cons]

/-- What follows the first word starts with white space. -/
theorem head?_behindWord (s : Bytes) : ∀ b, (behindWord s).head? = some b → isspace b = true := by
  intro b hb
  have hstop := List.head?_dropWhile_not (! isspace ·) (s.dropWhile isspace)
  rw [show (s.dropWhile isspace).dropWhile (! isspace ·) = behindWord s from rfl, hb] at hstop
  simpa using hstop

/-- A string is white space, its first word and what follows. -/
theorem split_firstWord (s : Bytes) : s = s.takeWhile isspace ++ (firstWord s ++ behindWord s) := by
  rw [firstWord, behindWord, List.takeWhile_append_dropWhile, List.takeWhile_append_dropWhile]

/-- **The words of a string** are its first word and those behind it. -/
theorem words_eq_firstWord (s : Bytes) : words isspace s =
    if Blank s then [] else firstWord s :: words isspace (behindWord s) := by
  rw [words_eq, strtokR]
  simp only [dropWhile_isspace_eq_nil]
  split_ifs
  · rfl
  · dsimp only
    rw [← words_drop_one (head?_behindWord s)]
    rfl

/-- White space has no words, and nothing else has none. -/
theorem words_eq_nil_iff {s : Bytes} : words isspace s = [] ↔ Blank s := by
  rw [words_eq_firstWord]
  split_ifs with h <;> simp [h]

/-- A word in front of a string is its first, or is grown together with its first. -/
theorem words_append_word {word : Bytes} (hne : word ≠ []) (hword : ∀ b ∈ word, isspace b = false)
    (s : Bytes) : words isspace (word ++ s) = word :: words isspace s ∨
      ∃ w ws, words isspace s = w :: ws ∧ words isspace (word ++ s) = (word ++ w) :: ws := by
  by_cases hspace : ∀ b, s.head? = some b → isspace b = true
  · exact Or.inl (by rw [words_append hne hword hspace, words_drop_one hspace])
  · right
    push Not at hspace
    obtain ⟨b, hb, hnot⟩ := hspace
    obtain ⟨u, rfl⟩ : ∃ u, s = b :: u := by
      cases s with
      | nil => cases hb
      | cons c u => exact ⟨u, by rw [Option.some.inj hb]⟩
    have hsplit := List.takeWhile_append_dropWhile (p := (! isspace ·)) (l := b :: u)
    set w := (b :: u).takeWhile (! isspace ·)
    set t := (b :: u).dropWhile (! isspace ·) with ht
    have hw : ∀ c ∈ w, isspace c = false := fun c hc => by
      simpa using List.mem_takeWhile_imp hc
    have hwne : w ≠ [] := by simp [w, hnot]
    have hstop : ∀ c, t.head? = some c → isspace c = true := by
      intro c hc
      have hhead := List.head?_dropWhile_not (! isspace ·) (b :: u)
      rw [← ht, hc] at hhead
      simpa using hhead
    rw [← hsplit, ← List.append_assoc]
    refine ⟨w, words isspace (t.drop 1), words_append hwne hw hstop, ?_⟩
    refine words_append (by simp [hne]) (fun c hc => ?_) hstop
    rcases List.mem_append.mp hc with hc | hc
    · exact hword c hc
    · exact hw c hc

/-! ## Numbers -/

/-- Numbers one after another, each up to a byte that is no digit, and white space at the end. -/
inductive Numbers : Bytes → List ℤ → Prop where
  | nil {s : Bytes} (hs : Blank s) : Numbers s []
  | cons {t rest : Bytes} {z : ℤ} {zs : List ℤ} (ht : Numeral t z)
      (hend : ∀ b, rest.head? = some b → isdigit b = false) (hrest : Numbers rest zs) :
      Numbers (t ++ rest) (z :: zs)

theorem numbers_nil_iff {s : Bytes} : Numbers s [] ↔ Blank s :=
  ⟨fun h => by cases h; assumption, .nil⟩

/-- The first number is the one that is scanned. -/
theorem numbers_cons_iff {s : Bytes} {z : ℤ} {zs : List ℤ} :
    Numbers s (z :: zs) ↔ ∃ rest, scanNumber s = some (z, rest) ∧ Numbers rest zs := by
  constructor
  · intro h
    cases h with
    | cons ht hend hrest => exact ⟨_, scanNumber_eq_some_iff.mpr ⟨_, rfl, ht, hend⟩, hrest⟩
  · rintro ⟨rest, hscan, hrest⟩
    obtain ⟨t, rfl, ht, hend⟩ := scanNumber_eq_some_iff.mp hscan
    exact .cons ht hend hrest

/-- Numbers are not blank. -/
theorem Numbers.not_blank {s : Bytes} {z : ℤ} {zs : List ℤ} (h : Numbers s (z :: zs)) :
    ¬ Blank s := by
  intro hblank
  obtain ⟨rest, hscan, -⟩ := numbers_cons_iff.mp h
  rw [scanNumber, dropWhile_isspace_eq_nil.mpr hblank] at hscan
  cases hscan

/-- A string is the numbers of one list of each length at most. -/
theorem Numbers.inj {s : Bytes} {zs zs' : List ℤ} (h : Numbers s zs) (h' : Numbers s zs')
    (hlen : zs.length = zs'.length) : zs = zs' := by
  induction zs generalizing s zs' with
  | nil => exact (List.length_eq_zero_iff.mp hlen.symm).symm
  | cons z zs ih =>
    obtain ⟨z', zs', rfl⟩ := List.exists_cons_of_length_eq_add_one hlen.symm
    obtain ⟨rest, hscan, hrest⟩ := numbers_cons_iff.mp h
    obtain ⟨rest', hscan', hrest'⟩ := numbers_cons_iff.mp h'
    rw [hscan, Option.some.injEq, Prod.mk.injEq] at hscan'
    obtain ⟨rfl, rfl⟩ := hscan'
    rw [ih hrest hrest' (by simpa using hlen)]

/-- White space in front of a numeral is part of it. -/
theorem Numeral.blank_append {skip t : Bytes} {z : ℤ} (hskip : Blank skip) (h : Numeral t z) :
    Numeral (skip ++ t) z := by
  obtain ⟨skip', sign, digits, rfl, hskip', hsign, hne, hdigits, hz⟩ := h
  refine ⟨skip ++ skip', sign, digits, by simp, fun b hb => ?_, hsign, hne, hdigits, hz⟩
  rcases List.mem_append.mp hb with hb | hb
  · exact hskip b hb
  · exact hskip' b hb

/-- A numeral ends with a digit. -/
theorem Numeral.getLast? {t : Bytes} {z : ℤ} (h : Numeral t z) :
    ∃ b, t.getLast? = some b ∧ isdigit b = true := by
  obtain ⟨skip, sign, digits, rfl, -, -, hne, hdigits, -⟩ := h
  refine ⟨digits.getLast hne, ?_, hdigits _ (List.getLast_mem hne)⟩
  rw [List.getLast?_append_of_ne_nil _ hne, List.getLast?_eq_getLast_of_ne_nil hne]

/-- A string that is not blank has a first word. -/
theorem firstWord_ne_nil {s : Bytes} (h : ¬ Blank s) : firstWord s ≠ [] := by
  intro hnil
  have hstop := List.head?_dropWhile_not isspace s
  cases hs : s.dropWhile isspace with
  | nil => exact h (dropWhile_isspace_eq_nil.mp hs)
  | cons b t =>
    rw [hs] at hstop
    have hb : isspace b = false := hstop
    rw [firstWord, hs, List.takeWhile_cons_of_pos (by simp [hb])] at hnil
    cases hnil

/-- **Words that are numerals are numbers.** -/
theorem numbers_of_words {s : Bytes} {zs : List ℤ} (h : List.Forall₂ Numeral (words isspace s) zs) :
    Numbers s zs := by
  induction zs generalizing s with
  | nil => exact .nil (words_eq_nil_iff.mp (List.forall₂_nil_right_iff.mp h))
  | cons z zs ih =>
    rw [words_eq_firstWord] at h
    split_ifs at h with hblank
    · cases h
    · obtain ⟨hfirst, hothers⟩ := List.forall₂_cons.mp h
      have hsplit := split_firstWord s
      rw [← List.append_assoc] at hsplit
      rw [hsplit]
      refine .cons (hfirst.blank_append fun b hb => List.mem_takeWhile_imp hb) (fun b hb => ?_)
        (ih hothers)
      by_contra hdigit
      rw [Bool.not_eq_false] at hdigit
      have hspace := head?_behindWord s b hb
      rw [isspace_eq_false_of_isdigit hdigit] at hspace
      cases hspace

/-- White space in front of a string holds no word. -/
theorem words_blank_append {skip : Bytes} (hskip : Blank skip) (s : Bytes) :
    words isspace (skip ++ s) = words isspace s := by
  rw [← words_dropWhile, List.dropWhile_append_of_pos hskip, words_dropWhile]

/-- **Numbers have at most as many words**, and as many exactly when each number is a word. -/
theorem words_of_numbers {s : Bytes} {zs : List ℤ} (h : Numbers s zs) :
    (words isspace s).length ≤ zs.length ∧
      ((words isspace s).length = zs.length → List.Forall₂ Numeral (words isspace s) zs) := by
  induction h with
  | nil hs =>
    rw [words_eq_nil_iff.mpr hs]
    exact ⟨le_rfl, fun _ => .nil⟩
  | @cons t rest z zs ht hend hrest ih =>
    obtain ⟨skip, sign, digits, rfl, hskip, hsign, hne, hdigits, hz⟩ := ht
    have hword : ∀ b ∈ sign ++ digits, isspace b = false := by
      intro b hb
      rcases List.mem_append.mp hb with hb | hb
      · rcases hsign with rfl | rfl | rfl
        · cases hb
        · rw [List.mem_singleton.mp hb]; decide
        · rw [List.mem_singleton.mp hb]; decide
      · exact isspace_eq_false_of_isdigit (hdigits b hb)
    have hnumeral : Numeral (sign ++ digits) z :=
      ⟨[], sign, digits, by simp, by simp, hsign, hne, hdigits, hz⟩
    rw [List.append_assoc, List.append_assoc, words_blank_append hskip, ← List.append_assoc]
    rcases words_append_word (by simp [hne]) hword rest with hown | ⟨w, ws, hrestWords, hgrown⟩
    · -- the number is a word of its own
      rw [hown, List.length_cons, List.length_cons]
      exact ⟨by omega, fun hlen => .cons hnumeral (ih.2 (by omega))⟩
    · -- the number is part of the next word
      rw [hrestWords, List.length_cons] at ih
      rw [hgrown, List.length_cons, List.length_cons]
      exact ⟨by omega, fun hlen => by omega⟩

/-! ## Formats -/

/-- `" %d"`, or `" %lld"`, `n` times, and `" %c"`. -/
def numbersFormat (number : Directive) : ℕ → List Directive
  | 0 => [.blank, .c]
  | n + 1 => .blank :: number :: numbersFormat number n

/-- The directive converts a number. -/
def ConvertsNumber (number : Directive) (convert : ℤ → Converted) : Prop :=
  ∀ ds s, (sscanfAux (number :: ds) s).1 =
    match scanNumber s with
    | none => []
    | some (z, rest) => convert z :: (sscanfAux ds rest).1

theorem convertsNumber_d : ConvertsNumber .d fun z => .d (scanD z) := by
  intro ds s
  simp only [sscanfAux]
  cases scanNumber s <;> rfl

theorem convertsNumber_lld : ConvertsNumber .lld fun z => .lld (scanLld z) := by
  intro ds s
  simp only [sscanfAux]
  cases scanNumber s <;> rfl

/-- White space in front of a number makes no difference. -/
theorem scanNumber_dropWhile (s : Bytes) : scanNumber (s.dropWhile isspace) = scanNumber s := by
  rw [scanNumber, scanNumber, List.dropWhile_idempotent]

/-- One number more is scanned first. -/
theorem sscanfAux_numbersFormat_succ {number : Directive} {convert : ℤ → Converted}
    (hnumber : ConvertsNumber number convert) (n : ℕ) (s : Bytes) :
    (sscanfAux (numbersFormat number (n + 1)) s).1 =
      match scanNumber s with
      | none => []
      | some (z, rest) => convert z :: (sscanfAux (numbersFormat number n) rest).1 := by
  rw [numbersFormat, sscanfAux, hnumber, scanNumber_dropWhile]

/-- **Numbers are converted** by a format of as many, and nothing is left. -/
theorem sscanfAux_of_numbers {number : Directive} {convert : ℤ → Converted}
    (hnumber : ConvertsNumber number convert) {s : Bytes} {zs : List ℤ} (h : Numbers s zs) :
    (sscanfAux (numbersFormat number zs.length) s).1 = zs.map convert := by
  induction zs generalizing s with
  | nil =>
    have hs := dropWhile_isspace_eq_nil.mpr (numbers_nil_iff.mp h)
    simp [numbersFormat, sscanfAux, hs]
  | cons z zs ih =>
    obtain ⟨rest, hscan, hrest⟩ := numbers_cons_iff.mp h
    rw [List.length_cons, sscanfAux_numbersFormat_succ hnumber, hscan, List.map_cons]
    exact congrArg (convert z :: ·) (ih hrest)

/-- **Only numbers are**: a format of `n` numbers makes `n` conversions on no other text. -/
theorem numbers_of_sscanfAux {number : Directive} {convert : ℤ → Converted}
    (hnumber : ConvertsNumber number convert) {n : ℕ} {s : Bytes}
    (h : (sscanfAux (numbersFormat number n) s).1.length = n) :
    ∃ zs, Numbers s zs ∧ zs.length = n := by
  induction n generalizing s with
  | zero =>
    refine ⟨[], .nil (dropWhile_isspace_eq_nil.mp ?_), rfl⟩
    cases hs : s.dropWhile isspace with
    | nil => rfl
    | cons b t => simp [numbersFormat, sscanfAux, hs] at h
  | succ n ih =>
    rw [sscanfAux_numbersFormat_succ hnumber] at h
    cases hscan : scanNumber s with
    | none => simp [hscan] at h
    | some scanned =>
      obtain ⟨z, rest⟩ := scanned
      simp only [hscan, List.length_cons, Nat.add_right_cancel_iff] at h
      obtain ⟨zs, hzs, hlen⟩ := ih h
      exact ⟨z :: zs, numbers_cons_iff.mpr ⟨rest, hscan, hzs⟩, by simp [hlen]⟩

/-- **A `%s` in front** takes the first word, up to its width. -/
theorem sscanfAux_word {width : ℕ} (hwidth : 0 < width) {s : Bytes} (hs : ¬ Blank s)
    (ds : List Directive) : (sscanfAux (.blank :: .s width :: ds) s).1 =
      .s ((firstWord s).take width) ::
        (sscanfAux ds ((firstWord s).drop width ++ behindWord s)).1 := by
  have hsplit : s.dropWhile isspace = firstWord s ++ behindWord s := by
    rw [firstWord, behindWord, List.takeWhile_append_dropWhile]
  have hne : (firstWord s).take width ≠ [] := by
    rw [Ne, List.take_eq_nil_iff, not_or]
    exact ⟨by omega, firstWord_ne_nil hs⟩
  have hword : (s.dropWhile isspace).takeWhile (! isspace ·) = firstWord s := rfl
  have hdrop : (s.dropWhile isspace).drop ((firstWord s).take width).length =
      (firstWord s).drop width ++ behindWord s := by
    rw [hsplit, List.length_take]
    rcases le_total width (firstWord s).length with hle | hle
    · rw [min_eq_left hle, List.drop_append_of_le_length hle]
    · rw [min_eq_right hle, List.drop_left, List.drop_eq_nil_of_le hle, List.nil_append]
  rw [sscanfAux, sscanfAux]
  simp only [List.dropWhile_idempotent, hword, hne, ↓reduceIte, hdrop]

/-! ## White space around a text -/

theorem blank_append {s t : Bytes} : Blank (s ++ t) ↔ Blank s ∧ Blank t := by
  simp only [Blank, List.mem_append]
  constructor
  · intro h
    exact ⟨fun b hb => h b (Or.inl hb), fun b hb => h b (Or.inr hb)⟩
  · rintro ⟨hs, ht⟩ b (hb | hb)
    exacts [hs b hb, ht b hb]

/-- The first word does not depend on white space around the text, and what follows it has that of
the end. -/
theorem firstWord_pad {front s tail : Bytes} (hfront : Blank front) (htail : Blank tail)
    (hs : ¬ Blank s) : firstWord (front ++ (s ++ tail)) = firstWord s ∧
      behindWord (front ++ (s ++ tail)) = behindWord s ++ tail := by
  have hdrop : (front ++ (s ++ tail)).dropWhile isspace = s.dropWhile isspace ++ tail := by
    rw [List.dropWhile_append_of_pos hfront, List.dropWhile_append, if_neg]
    rw [List.isEmpty_iff, dropWhile_isspace_eq_nil]
    exact hs
  have hnone : tail.takeWhile (! isspace ·) = [] ∧ tail.dropWhile (! isspace ·) = tail := by
    cases tail with
    | nil => exact ⟨rfl, rfl⟩
    | cons b tail => simp [htail b (by simp)]
  rw [firstWord, behindWord, hdrop, List.takeWhile_append, List.dropWhile_append, hnone.1, hnone.2]
  constructor
  · split_ifs with hwhole
    · rw [List.append_nil]
      exact ((List.takeWhile_prefix _).eq_of_length hwhole).symm
    · rfl
  · split_ifs with hnil
    · rw [behindWord, List.isEmpty_iff.mp hnil, List.nil_append]
    · rfl

/-- White space behind a number is not part of it. -/
theorem scanNumber_append_blank {tail : Bytes} (htail : Blank tail) (s : Bytes) :
    scanNumber (s ++ tail) = (scanNumber s).map fun scanned => (scanned.1, scanned.2 ++ tail) := by
  have hend : ∀ rest : Bytes, (∀ b, rest.head? = some b → isdigit b = false) →
      ∀ b, (rest ++ tail).head? = some b → isdigit b = false := by
    intro rest hrest b hb
    cases rest with
    | nil =>
      by_contra hdigit
      have hspace := htail b (List.mem_of_mem_head? hb)
      rw [isspace_eq_false_of_isdigit (Bool.not_eq_false _ ▸ hdigit)] at hspace
      cases hspace
    | cons c rest => exact hrest b hb
  cases hscan : scanNumber s with
  | some scanned =>
    obtain ⟨t, rfl, ht, hrest⟩ := scanNumber_eq_some_iff.mp hscan
    exact scanNumber_eq_some_iff.mpr ⟨t, List.append_assoc _ _ _, ht, hend _ hrest⟩
  | none =>
    -- a number of the longer text would end before the white space
    cases hlong : scanNumber (s ++ tail) with
    | none => rfl
    | some scanned =>
      obtain ⟨t, hsplit, ht, hrest⟩ := scanNumber_eq_some_iff.mp hlong
      have hnone : ∀ u, s = t ++ u → ¬ ∀ b, u.head? = some b → isdigit b = false := by
        intro u hu hhead
        rw [scanNumber_eq_some_iff.mpr ⟨t, hu, ht, hhead⟩] at hscan
        cases hscan
      rcases List.append_eq_append_iff.mp hsplit with ⟨u, hu, hwhite⟩ | ⟨u, hu, hwhite⟩
      · obtain ⟨b, hb, hdigit⟩ := ht.getLast?
        rcases u.eq_nil_or_concat with rfl | ⟨v, c, rfl⟩
        · exact absurd (by simp) (hnone [] (by simpa using hu.symm))
        · rw [hu, List.concat_eq_append, ← List.append_assoc, List.getLast?_concat,
            Option.some.injEq] at hb
          have hspace := htail b (by rw [hwhite, hb]; simp)
          rw [isspace_eq_false_of_isdigit hdigit] at hspace
          cases hspace
      · refine absurd (fun b hb => hrest b ?_) (hnone u hu)
        rw [hwhite, List.head?_append, hb]
        rfl

/-- **White space around numbers** makes no difference. -/
theorem numbers_pad_iff {front s tail : Bytes} (hfront : Blank front) (htail : Blank tail)
    {zs : List ℤ} : Numbers (front ++ (s ++ tail)) zs ↔ Numbers s zs := by
  have hscan : ∀ t, scanNumber (front ++ t) = scanNumber t := by
    intro t
    rw [← scanNumber_dropWhile, List.dropWhile_append_of_pos hfront, scanNumber_dropWhile]
  have hbehind : ∀ (zs : List ℤ) (t : Bytes), Numbers (t ++ tail) zs ↔ Numbers t zs := by
    intro zs
    induction zs with
    | nil =>
      intro t
      rw [numbers_nil_iff, numbers_nil_iff, blank_append, and_iff_left htail]
    | cons z zs ih =>
      intro t
      rw [numbers_cons_iff, numbers_cons_iff, scanNumber_append_blank htail]
      cases scanNumber t with
      | none => simp
      | some scanned =>
        obtain ⟨z', rest⟩ := scanned
        simp [ih]
  rw [← hbehind zs s]
  cases zs with
  | nil => rw [numbers_nil_iff, numbers_nil_iff, blank_append, and_iff_right hfront]
  | cons z zs => rw [numbers_cons_iff, numbers_cons_iff, hscan]
