import StockServer.TornLog
import StockServer.Lib.Formats

set_option relaxedAutoImplicit false
set_option autoImplicit false

/-!
# What the line parsers accept

The three parsers of `stock_persistence.c` tell a record by the number of conversions of a `sscanf`
format.  Their formats are said here in terms of the words of a line: a stock record is three
numbers, a log record a verb and two, a manifest record `gen` and a positive one.  The parsers keep
to them except on two kinds of lines.  A sign is enough for `sscanf` to start the next number, so
`1+2 3` is three numbers; and a number out of range is read as another number.

## Main definitions

* `IsRecordLine`, `IsLogLine`, `IsManifestLine` — the three formats.
* `KeepsTo` — a parser accepts exactly its format, skips exactly the blank lines, and refuses
  everything else.
* `Misread` — numbers of which one is not separated from the next, or is out of range.

## Main results

* `parseStockRecordLine_eq_ok_iff`, `parseAofRecordLine_eq_ok_iff`, `parseManifestLine_eq_ok_iff` —
  what the parsers accept.
* `parsers_keepTo_iff` — **the parsers keep to their formats exactly on the other lines**.
-/

namespace StockServer

/-! ## Formats -/

/-- The line is a stock record: three words, which write the numbers of the record. -/
def IsRecordLine (line : Bytes) (record : StockRecord) : Prop :=
  List.Forall₂ Numeral (words isspace line)
    [record.id.toInt, record.leftStock.toInt, record.price.toInt]

/-- The line is a log record: the verb, and two words which write the numbers of the record. -/
def IsLogLine (line : Bytes) (record : StockLogRecord) : Prop :=
  ∃ numbers, words isspace line = logVerb record.op :: numbers ∧
    List.Forall₂ Numeral numbers [record.id.toInt, record.count.toInt]

/-- The line is a manifest record: `gen`, and a word which writes the generation, a positive
number. -/
def IsManifestLine (line : Bytes) (manifest : StockManifest) : Prop :=
  ∃ number, words isspace line = [ascii "gen", number] ∧ Numeral number manifest.gen.toInt ∧
    0 < manifest.gen

/-- On a line, the parser accepts exactly its format, with the numbers written, skips exactly the
blank lines, and reports an error for everything else. -/
structure KeepsTo {ρ : Type} (parse : Bytes → Parsed ρ) (format : Bytes → ρ → Prop)
    (line : Bytes) : Prop where
  ok_iff : ∀ record, parse line = .ok record ↔ format line record
  skip_iff : parse line = .skip ↔ Blank line
  err_iff : parse line = .err ↔ ¬ Blank line ∧ ∀ record, ¬ format line record

/-- The text is `n` numbers, but one follows the one before without white space, or one is out of
range. -/
def Misread (low high : ℤ) (n : ℕ) (text : Bytes) : Prop :=
  ∃ zs, Numbers text zs ∧ zs.length = n ∧
    ((words isspace text).length ≠ n ∨ ∃ z ∈ zs, z < low ∨ high < z)

/-! ## Scanned values -/

/-- `is_blank_line`. -/
theorem isBlankLine_iff {line : Bytes} : isBlankLine line = true ↔ Blank line := List.all_eq_true

/-- A number in the range of an `int` is stored as it is, and no other number is. -/
theorem toInt_scanD_of_range {z : ℤ} (hlow : intMin ≤ z) (hhigh : z ≤ intMax) :
    (scanD z).toInt = z := by
  unfold intMin at hlow
  unfold intMax at hhigh
  rw [scanD, saturate_eq_self (by unfold longMin; omega) (by unfold longMax; omega)]
  exact Int32.toInt_ofInt_of_le hlow (by omega)

/-- An `int` is in the range of an `int`. -/
theorem int32_range (v : Int32) : intMin ≤ v.toInt ∧ v.toInt ≤ intMax := by
  have hlow := v.le_toInt
  have hhigh := v.toInt_lt
  unfold intMin intMax
  omega

/-- **Numbers that are not misread** are words, each in range. -/
theorem words_of_not_misread {low high : ℤ} {n : ℕ} {text : Bytes} (h : ¬ Misread low high n text)
    {zs : List ℤ} (hzs : Numbers text zs) (hlen : zs.length = n) :
    List.Forall₂ Numeral (words isspace text) zs ∧ ∀ z ∈ zs, low ≤ z ∧ z ≤ high := by
  have hright : (words isspace text).length = n ∧ ∀ z ∈ zs, low ≤ z ∧ z ≤ high := by
    constructor
    · by_contra hwords
      exact h ⟨zs, hzs, hlen, Or.inl hwords⟩
    · intro z hz
      by_contra hrange
      exact h ⟨zs, hzs, hlen, Or.inr ⟨z, hz, by omega⟩⟩
  exact ⟨(words_of_numbers hzs).2 (hright.1.trans hlen.symm), hright.2⟩

/-- **Words that are numerals in range are not misread.** -/
theorem not_misread_of_words {low high : ℤ} {text : Bytes} {zs : List ℤ}
    (hwords : List.Forall₂ Numeral (words isspace text) zs)
    (hrange : ∀ z ∈ zs, low ≤ z ∧ z ≤ high) : ¬ Misread low high zs.length text := by
  rintro ⟨zs', hzs', hlen, hbad⟩
  obtain rfl := hzs'.inj (numbers_of_words hwords) hlen
  rcases hbad with hbad | ⟨z, hz, hbad⟩
  · exact hbad hwords.length_eq
  · have := hrange z hz
    omega

/-! ## What the parsers accept -/

/-- Two or three values converted by `%d` are those of the numbers. -/
theorem numbers_of_converted {n : ℕ} {text : Bytes} {values : List Int32}
    (h : (sscanfAux (numbersFormat .d n) text).1 = values.map .d) (hlen : values.length = n) :
    ∃ zs, Numbers text zs ∧ zs.length = n ∧ values = zs.map scanD := by
  obtain ⟨zs, hzs, hn⟩ := numbers_of_sscanfAux convertsNumber_d (n := n)
    (by rw [h, List.length_map, hlen])
  have hconverted := sscanfAux_of_numbers convertsNumber_d hzs
  rw [hn, h] at hconverted
  refine ⟨zs, hzs, hn, ?_⟩
  have hinj : Function.Injective Converted.d := fun v w => Converted.d.inj
  exact hinj.list_map (by rw [hconverted, List.map_map]; rfl)

/-- **What `parse_stock_record_line` accepts**: three numbers. -/
theorem parseStockRecordLine_eq_ok_iff {line : Bytes} {record : StockRecord} :
    parseStockRecordLine line = .ok record ↔ ∃ z₁ z₂ z₃, Numbers line [z₁, z₂, z₃] ∧
      record = ⟨scanD z₁, scanD z₂, scanD z₃⟩ := by
  have hformat : [.blank, .d, .blank, .d, .blank, .d, .blank, .c] = numbersFormat .d 3 := rfl
  rw [parseStockRecordLine, sscanf, hformat]
  constructor
  · intro h
    by_cases hblank : isBlankLine line = true
    · rw [if_pos hblank] at h
      cases h
    rw [if_neg hblank] at h
    split at h
    · rename_i id leftStock price hscan
      obtain ⟨zs, hzs, hlen, hvalues⟩ := @numbers_of_converted 3 line [id, leftStock, price]
        (congrArg Prod.snd hscan) rfl
      obtain ⟨z₁, z₂, z₃, rfl⟩ := List.length_eq_three.mp hlen
      simp only [List.map_cons, List.map_nil, List.cons.injEq, and_true] at hvalues
      exact ⟨z₁, z₂, z₃, hzs, by rw [← Parsed.ok.inj h, hvalues.1, hvalues.2.1, hvalues.2.2]⟩
    · cases h
  · rintro ⟨z₁, z₂, z₃, hzs, rfl⟩
    have hblank : ¬ isBlankLine line = true := fun h => hzs.not_blank (isBlankLine_iff.mp h)
    have hconverted := sscanfAux_of_numbers convertsNumber_d hzs
    rw [show [z₁, z₂, z₃].length = 3 from rfl] at hconverted
    rw [if_neg hblank, hconverted]
    rfl

/-- A front of more bytes than a short word has is the word itself. -/
theorem eq_of_take_eq {word verb : Bytes} {width : ℕ} (h : word.take width = verb)
    (hverb : verb.length < width) : word = verb := by
  have hlen := congrArg List.length h
  rw [List.length_take] at hlen
  rw [← h, List.take_of_length_le (by omega)]

/-- Numbers behind the first word are behind a word. -/
theorem not_blank_of_behindWord {line : Bytes} {z : ℤ} {zs : List ℤ}
    (h : Numbers (behindWord line) (z :: zs)) : ¬ Blank line := by
  intro hblank
  refine h.not_blank ?_
  rw [behindWord, dropWhile_isspace_eq_nil.mpr hblank]
  simp [Blank]

/-- **What `parse_aof_record_line` accepts**: a verb and two numbers. -/
theorem parseAofRecordLine_eq_ok_iff {line : Bytes} {record : StockLogRecord} :
    parseAofRecordLine line = .ok record ↔ firstWord line = logVerb record.op ∧
      ∃ z₁ z₂, Numbers (behindWord line) [z₁, z₂] ∧ record.id = scanD z₁ ∧
        record.count = scanD z₂ := by
  have hformat : [.blank, .s 15, .blank, .d, .blank, .d, .blank, .c] =
      .blank :: .s 15 :: numbersFormat .d 2 := rfl
  have hshort : ∀ op, (logVerb op).length < 15 := by
    intro op
    cases op <;> decide
  rw [parseAofRecordLine, sscanf, hformat]
  constructor
  · intro h
    by_cases hblank : isBlankLine line = true
    · rw [if_pos hblank] at h
      cases h
    rw [if_neg hblank, sscanfAux_word (by decide) (fun h => hblank (isBlankLine_iff.mpr h))] at h
    split at h
    · rename_i op id count hscan
      obtain ⟨hop, hnumbers⟩ := List.cons.inj (congrArg Prod.snd hscan)
      have hverb : firstWord line = logVerb record.op ∧ record.id = id ∧ record.count = count := by
        rw [← Converted.s.inj hop] at h
        split_ifs at h with hbuy hsell
        · obtain rfl := Parsed.ok.inj h
          exact ⟨eq_of_take_eq hbuy (hshort .buy), rfl, rfl⟩
        · obtain rfl := Parsed.ok.inj h
          exact ⟨eq_of_take_eq hsell (hshort .sell), rfl, rfl⟩
      rw [hverb.1, List.drop_eq_nil_of_le (hshort record.op).le, List.nil_append] at hnumbers
      obtain ⟨zs, hzs, hlen, hvalues⟩ :=
        @numbers_of_converted 2 (behindWord line) [id, count] hnumbers rfl
      obtain ⟨z₁, z₂, rfl⟩ := List.length_eq_two.mp hlen
      simp only [List.map_cons, List.map_nil, List.cons.injEq, and_true] at hvalues
      exact ⟨hverb.1, z₁, z₂, hzs, hverb.2.1.trans hvalues.1, hverb.2.2.trans hvalues.2⟩
    · cases h
  · rintro ⟨hword, z₁, z₂, hzs, hid, hcount⟩
    have hblank := not_blank_of_behindWord hzs
    have hconverted := sscanfAux_of_numbers convertsNumber_d hzs
    rw [show [z₁, z₂].length = 2 from rfl] at hconverted
    rw [if_neg (fun h => hblank (isBlankLine_iff.mp h)), sscanfAux_word (by decide) hblank, hword,
      List.drop_eq_nil_of_le (hshort record.op).le, List.nil_append,
      List.take_of_length_le (hshort record.op).le, hconverted]
    obtain ⟨op, id, count⟩ := record
    dsimp only at hid hcount ⊢
    rw [hid, hcount]
    cases op <;> simp [logVerb, ascii]

/-- **What `parse_manifest_line` accepts**: `gen` and a positive number. -/
theorem parseManifestLine_eq_ok_iff {line : Bytes} {manifest : StockManifest} :
    parseManifestLine line = .ok manifest ↔ firstWord line = ascii "gen" ∧
      ∃ z, Numbers (behindWord line) [z] ∧ manifest.gen = scanLld z ∧ 0 < manifest.gen := by
  have hformat : [.blank, .s 15, .blank, .lld, .blank, .c] =
      .blank :: .s 15 :: numbersFormat .lld 1 := rfl
  have hshort : (ascii "gen").length < 15 := by decide
  rw [parseManifestLine, sscanf, hformat]
  constructor
  · intro h
    by_cases hblank : isBlankLine line = true
    · rw [if_pos hblank] at h
      cases h
    rw [if_neg hblank, sscanfAux_word (by decide) (fun h => hblank (isBlankLine_iff.mpr h))] at h
    split at h
    · rename_i key gen hscan
      obtain ⟨hkey, hnumbers⟩ := List.cons.inj (congrArg Prod.snd hscan)
      rw [← Converted.s.inj hkey] at h
      split_ifs at h with hbad
      obtain ⟨hgen, hpos⟩ := not_or.mp hbad
      have hword := eq_of_take_eq (not_not.mp hgen) hshort
      obtain rfl := Parsed.ok.inj h
      rw [hword, List.drop_eq_nil_of_le hshort.le, List.nil_append] at hnumbers
      obtain ⟨zs, hzs, hlen⟩ := numbers_of_sscanfAux convertsNumber_lld (n := 1)
        (by rw [hnumbers]; rfl)
      obtain ⟨z, rfl⟩ := List.length_eq_one_iff.mp hlen
      have hconverted := sscanfAux_of_numbers convertsNumber_lld hzs
      rw [show [z].length = 1 from rfl, hnumbers] at hconverted
      refine ⟨hword, z, hzs, ?_, Int64.not_le.mp hpos⟩
      exact Converted.lld.inj (List.cons.inj hconverted).1
    · cases h
  · rintro ⟨hword, z, hzs, hgen, hpos⟩
    have hblank := not_blank_of_behindWord hzs
    have hconverted := sscanfAux_of_numbers convertsNumber_lld hzs
    rw [show [z].length = 1 from rfl] at hconverted
    rw [if_neg (fun h => hblank (isBlankLine_iff.mp h)), sscanfAux_word (by decide) hblank, hword,
      List.drop_eq_nil_of_le hshort.le, List.nil_append, List.take_of_length_le hshort.le,
      hconverted]
    obtain ⟨gen⟩ := manifest
    dsimp only at hgen hpos ⊢
    subst hgen
    simp [Int64.not_le.mpr hpos]

/-! ## The formats are kept -/

/-- Blank lines are those that the log parser skips. -/
theorem parseAofRecordLine_eq_skip {line : Bytes} :
    parseAofRecordLine line = .skip ↔ isBlankLine line = true := by
  unfold parseAofRecordLine
  split_ifs with hblank
  · simp [hblank]
  · simp only [hblank, Bool.false_eq_true, iff_false]
    split
    · split_ifs <;> simp
    · simp

/-- Blank lines are those that the manifest parser skips. -/
theorem parseManifestLine_eq_skip {line : Bytes} :
    parseManifestLine line = .skip ↔ isBlankLine line = true := by
  unfold parseManifestLine
  split_ifs with hblank
  · simp [hblank]
  · simp only [hblank, Bool.false_eq_true, iff_false]
    split
    · split_ifs <;> simp
    · simp

/-- A parser that skips the blank lines keeps to its format when it accepts what the format asks
for. -/
theorem keepsTo_iff {ρ : Type} {parse : Bytes → Parsed ρ} {format : Bytes → ρ → Prop} {line : Bytes}
    (hskip : parse line = .skip ↔ isBlankLine line = true) :
    KeepsTo parse format line ↔ ∀ record, parse line = .ok record ↔ format line record := by
  refine ⟨fun h => h.ok_iff, fun h => ⟨h, hskip.trans isBlankLine_iff, ?_⟩⟩
  rw [← isBlankLine_iff, ← hskip]
  simp only [← h]
  cases parse line <;> simp

/-- The stock record parser keeps to its format exactly on lines that are not misread. -/
theorem parseStockRecordLine_keepsTo_iff (line : Bytes) :
    KeepsTo parseStockRecordLine IsRecordLine line ↔ ¬ Misread intMin intMax 3 line := by
  have hrange : ∀ record : StockRecord,
      ∀ z ∈ [record.id.toInt, record.leftStock.toInt, record.price.toInt],
        intMin ≤ z ∧ z ≤ intMax := by
    intro record
    simp only [List.forall_mem_cons]
    exact ⟨int32_range _, int32_range _, int32_range _, by simp⟩
  rw [keepsTo_iff parseStockRecordLine_eq_skip]
  constructor
  · rintro h hmisread
    obtain ⟨zs, hzs, hlen, -⟩ := id hmisread
    obtain ⟨z₁, z₂, z₃, rfl⟩ := List.length_eq_three.mp hlen
    have hline := (h _).mp (parseStockRecordLine_eq_ok_iff.mpr ⟨z₁, z₂, z₃, hzs, rfl⟩)
    exact not_misread_of_words hline (hrange _) hmisread
  · intro h record
    rw [parseStockRecordLine_eq_ok_iff]
    constructor
    · rintro ⟨z₁, z₂, z₃, hzs, rfl⟩
      obtain ⟨hwords, hin⟩ := words_of_not_misread h hzs rfl
      simp only [List.forall_mem_cons] at hin
      rw [IsRecordLine]
      dsimp only
      rwa [toInt_scanD_of_range hin.1.1 hin.1.2, toInt_scanD_of_range hin.2.1.1 hin.2.1.2,
        toInt_scanD_of_range hin.2.2.1.1 hin.2.2.1.2]
    · intro hline
      exact ⟨_, _, _, numbers_of_words hline, by simp only [scanD_toInt]⟩

/-- A log record is a verb and its numbers behind it. -/
theorem isLogLine_iff {line : Bytes} {record : StockLogRecord} : IsLogLine line record ↔
    firstWord line = logVerb record.op ∧
      List.Forall₂ Numeral (words isspace (behindWord line))
        [record.id.toInt, record.count.toInt] := by
  have hverb : logVerb record.op ≠ [] := by cases record.op <;> decide
  rw [IsLogLine, words_eq_firstWord]
  split_ifs with hblank
  · refine iff_of_false (by simp) fun ⟨hword, _⟩ => hverb ?_
    rw [← hword, firstWord, dropWhile_isspace_eq_nil.mpr hblank]
    rfl
  · constructor
    · rintro ⟨numbers, hwords, hnumbers⟩
      obtain ⟨hword, rfl⟩ := List.cons.inj hwords
      exact ⟨hword, hnumbers⟩
    · rintro ⟨hword, hnumbers⟩
      exact ⟨_, by rw [hword], hnumbers⟩

/-- The log record parser keeps to its format unless the numbers behind a verb are misread. -/
theorem parseAofRecordLine_keepsTo_iff (line : Bytes) :
    KeepsTo parseAofRecordLine IsLogLine line ↔
      ¬ ((∃ op, firstWord line = logVerb op) ∧ Misread intMin intMax 2 (behindWord line)) := by
  have hrange : ∀ record : StockLogRecord, ∀ z ∈ [record.id.toInt, record.count.toInt],
      intMin ≤ z ∧ z ≤ intMax := by
    intro record
    simp only [List.forall_mem_cons]
    exact ⟨int32_range _, int32_range _, by simp⟩
  rw [keepsTo_iff parseAofRecordLine_eq_skip]
  simp only [parseAofRecordLine_eq_ok_iff, isLogLine_iff]
  constructor
  · rintro h ⟨⟨op, hop⟩, hmisread⟩
    obtain ⟨zs, hzs, hlen, -⟩ := id hmisread
    obtain ⟨z₁, z₂, rfl⟩ := List.length_eq_two.mp hlen
    have hline := (h ⟨op, scanD z₁, scanD z₂⟩).mp ⟨hop, z₁, z₂, hzs, rfl, rfl⟩
    exact not_misread_of_words hline.2 (hrange _) hmisread
  · intro h record
    refine and_congr_right fun hop => ?_
    constructor
    · rintro ⟨z₁, z₂, hzs, hid, hcount⟩
      have hright : ¬ Misread intMin intMax 2 (behindWord line) := fun hmisread =>
        h ⟨⟨_, hop⟩, hmisread⟩
      obtain ⟨hwords, hin⟩ := words_of_not_misread hright hzs rfl
      simp only [List.forall_mem_cons] at hin
      rwa [hid, hcount, toInt_scanD_of_range hin.1.1 hin.1.2,
        toInt_scanD_of_range hin.2.1.1 hin.2.1.2]
    · intro hwords
      exact ⟨_, _, numbers_of_words hwords, by rw [scanD_toInt], by rw [scanD_toInt]⟩

/-- A manifest record is `gen` and one number behind it. -/
theorem isManifestLine_iff {line : Bytes} {manifest : StockManifest} :
    IsManifestLine line manifest ↔ firstWord line = ascii "gen" ∧
      List.Forall₂ Numeral (words isspace (behindWord line)) [manifest.gen.toInt] ∧
        0 < manifest.gen := by
  rw [IsManifestLine, words_eq_firstWord]
  split_ifs with hblank
  · refine iff_of_false (by simp) fun ⟨hword, _⟩ => ?_
    rw [firstWord, dropWhile_isspace_eq_nil.mpr hblank] at hword
    exact absurd hword (by decide)
  · constructor
    · rintro ⟨number, hwords, hnumber, hpos⟩
      obtain ⟨hword, hrest⟩ := List.cons.inj hwords
      exact ⟨hword, by rw [hrest]; exact .cons hnumber .nil, hpos⟩
    · rintro ⟨hword, hnumbers, hpos⟩
      obtain ⟨number, rest, hnumber, hrest, hwords⟩ := List.forall₂_cons_right_iff.mp hnumbers
      obtain rfl := List.forall₂_nil_right_iff.mp hrest
      exact ⟨number, by rw [hword, hwords], hnumber, hpos⟩

/-- `%lld` stores the nearest number that fits. -/
theorem toInt_scanLld (z : ℤ) : (scanLld z).toInt = saturate z := by
  rw [scanLld, Int64.toInt_ofInt_of_le] <;> simp only [saturate, longMin, longMax] <;> omega

/-- A number that is alone is a word. -/
theorem words_of_number {text : Bytes} {z : ℤ} (h : Numbers text [z]) :
    List.Forall₂ Numeral (words isspace text) [z] := by
  obtain ⟨hle, hwords⟩ := words_of_numbers h
  refine hwords (le_antisymm hle (List.length_pos_iff.mpr ?_))
  exact fun hnil => h.not_blank (words_eq_nil_iff.mp hnil)

/-- The manifest parser keeps to its format unless the number behind `gen` is past `LLONG_MAX`. -/
theorem parseManifestLine_keepsTo_iff (line : Bytes) :
    KeepsTo parseManifestLine IsManifestLine line ↔
      ¬ (firstWord line = ascii "gen" ∧ ∃ z, Numbers (behindWord line) [z] ∧ longMax < z) := by
  have hpos : ∀ z, 0 < scanLld z ↔ 0 < z := by
    intro z
    rw [Int64.lt_iff_toInt_lt, toInt_scanLld]
    change 0 < saturate z ↔ 0 < z
    simp only [saturate, longMin, longMax]
    omega
  rw [keepsTo_iff parseManifestLine_eq_skip]
  simp only [parseManifestLine_eq_ok_iff, isManifestLine_iff]
  constructor
  · rintro h ⟨hword, z, hz, hbig⟩
    have hline := (h ⟨scanLld z⟩).mp ⟨hword, z, hz, rfl, (hpos z).mpr (by
      unfold longMax at hbig
      omega)⟩
    have hsame := hz.inj (numbers_of_words hline.2.1) rfl
    have hle := (scanLld z).toInt_lt
    unfold longMax at hbig
    have hz' : z = (scanLld z).toInt := (List.cons.inj hsame).1
    omega
  · intro h manifest
    refine and_congr_right fun hword => ?_
    constructor
    · rintro ⟨z, hz, hgen, hmanifest⟩
      have hle : z ≤ longMax := by
        by_contra hbig
        exact h ⟨hword, z, hz, not_le.mp hbig⟩
      have hz0 : 0 < z := (hpos z).mp (hgen ▸ hmanifest)
      have hvalue : manifest.gen.toInt = z := by
        rw [hgen, toInt_scanLld, saturate_eq_self (by unfold longMin; omega) hle]
      exact ⟨hvalue.symm ▸ words_of_number hz, hmanifest⟩
    · rintro ⟨hwords, hmanifest⟩
      exact ⟨_, numbers_of_words hwords, (scanLld_toInt _).symm, hmanifest⟩

/-- **The line parsers keep to their formats exactly on the lines that are not misread.**  Misread
are a stock record and the two numbers behind the verb of a log record when a number follows the one
before without white space (it starts with a sign) or is no `int`, and the number of a manifest when
it is past `LLONG_MAX`. -/
theorem parsers_keepTo_iff (line : Bytes) :
    (KeepsTo parseStockRecordLine IsRecordLine line ↔ ¬ Misread intMin intMax 3 line) ∧
    (KeepsTo parseAofRecordLine IsLogLine line ↔
      ¬ ((∃ op, firstWord line = logVerb op) ∧ Misread intMin intMax 2 (behindWord line))) ∧
    (KeepsTo parseManifestLine IsManifestLine line ↔
      ¬ (firstWord line = ascii "gen" ∧ ∃ z, Numbers (behindWord line) [z] ∧ longMax < z)) :=
  ⟨parseStockRecordLine_keepsTo_iff line, parseAofRecordLine_keepsTo_iff line,
    parseManifestLine_keepsTo_iff line⟩

/-- Numbers without white space between them are accepted, and numbers out of range are accepted as
other numbers. -/
theorem parsers_misread :
    (parseStockRecordLine (ascii "1+2 3\n") = .ok ⟨1, 2, 3⟩ ∧
      ¬ KeepsTo parseStockRecordLine IsRecordLine (ascii "1+2 3\n")) ∧
    (parseStockRecordLine (ascii "4294967297 2 3\n") = .ok ⟨1, 2, 3⟩ ∧
      ¬ KeepsTo parseStockRecordLine IsRecordLine (ascii "4294967297 2 3\n")) ∧
    (parseAofRecordLine (ascii "BUY 1+2\n") = .ok ⟨.buy, 1, 2⟩ ∧
      ¬ KeepsTo parseAofRecordLine IsLogLine (ascii "BUY 1+2\n")) ∧
    (parseManifestLine (ascii "gen 9223372036854775808\n") = .ok ⟨9223372036854775807⟩ ∧
      ¬ KeepsTo parseManifestLine IsManifestLine (ascii "gen 9223372036854775808\n")) := by
  refine ⟨⟨by decide +kernel, fun h => ?_⟩, ⟨by decide +kernel, fun h => ?_⟩,
    ⟨by decide +kernel, fun h => ?_⟩, ⟨by decide +kernel, fun h => ?_⟩⟩
  · have hline := (h.ok_iff ⟨1, 2, 3⟩).mp (by decide +kernel)
    exact absurd hline.length_eq (by decide +kernel)
  · have hline := (h.ok_iff ⟨1, 2, 3⟩).mp (by decide +kernel)
    have hwords : words isspace (ascii "4294967297 2 3\n") =
        [ascii "4294967297", ascii "2", ascii "3"] := by decide +kernel
    rw [IsRecordLine, hwords] at hline
    have hscan := scanNumber_eq_iff.mpr (List.forall₂_cons.mp hline).1
    revert hscan
    decide +kernel
  · obtain ⟨numbers, hwords, hnumbers⟩ := (h.ok_iff ⟨.buy, 1, 2⟩).mp (by decide +kernel)
    have hlen : (words isspace (ascii "BUY 1+2\n")).length = 3 := by
      rw [hwords, List.length_cons, hnumbers.length_eq]
      rfl
    exact absurd hlen (by decide +kernel)
  · obtain ⟨number, hwords, hnumber, -⟩ :=
      (h.ok_iff ⟨9223372036854775807⟩).mp (by decide +kernel)
    have hnumber' : number = ascii "9223372036854775808" := by
      have hwords' : words isspace (ascii "gen 9223372036854775808\n") =
          [ascii "gen", ascii "9223372036854775808"] := by decide +kernel
      rw [hwords'] at hwords
      simpa using (List.cons.inj hwords).2.symm
    have hscan := scanNumber_eq_iff.mpr hnumber
    rw [hnumber'] at hscan
    revert hscan
    decide +kernel

end StockServer
