import StockServer.Parsers

set_option relaxedAutoImplicit false
set_option autoImplicit false

/-!
# Physical lines

The loaders see a file through `fgets`, which delivers at most `MAXLINE - 1` bytes of a line at a
time, and through C strings, which end at a NUL.  So a line that is longer than the buffer is taken
for several, and what stands behind a NUL is not seen.  Here the loaders are compared with the
lines of the file.

## Main definitions

* `parseWhole` — a line with all of its bytes: one with a NUL is malformed.
* `pieceRecords`, `AsUnit` — the records taken from the pieces of a line; the line is taken as one
  unit.
* `WholeLines` — a file that is accepted has all of its lines taken as units.
* `OnePiece` — at most one piece of the line is not blank.
* `ReplayableInto` — the lines of a log that a store accepts.

## Main results

* `applyLines_fileLines_of_ok` — an accepted file has the records applied that are taken from its
  lines.
* `asUnit_iff` — which lines of an accepted file are taken as units.
* `wholeLines_iff` — **the loaders treat lines as units exactly if** every file they accept has
  only such lines.
-/

namespace StockServer

open Prog SearchTree

/-! ## Lines and their pieces -/

/-- The record of a line. -/
def Parsed.record {ρ : Type} : Parsed ρ → Option ρ
  | .ok record => some record
  | _ => none

section Pieces

variable {ρ : Type} (parse : Bytes → Parsed ρ)

/-- What a line is parsed to, all of its bytes considered. -/
def parseWhole (line : Bytes) : Parsed ρ := if 0 ∈ line then .err else parse line

/-- The records that are taken from the pieces of a line that `fgets` delivers. -/
def pieceRecords (line : Bytes) : List ρ :=
  (fileLines line).filterMap fun piece => (parse (cstr piece)).record

/-- The line is taken as one unit: it is blank or one well-formed record, and that record, if any,
is what is taken from it. -/
def AsUnit (line : Bytes) : Prop :=
  parseWhole parse line ≠ .err ∧ pieceRecords parse line = (parseWhole parse line).record.toList

/-- When a file is accepted, every physical line of it is taken as one unit. -/
def WholeLines (apply : StockStore → ρ → StockStatus × StockStore) (store : StockStore)
    (data : Bytes) : Prop :=
  (applyLines (applyLine parse apply) store (fileLines data)).1 = .ok →
    ∀ line ∈ splitLines data, AsUnit parse line

end Pieces

/-- At most one of the pieces of the line is not blank. -/
def OnePiece (line : Bytes) : Prop := ((fileLines line).filter (¬ Blank ·)).length ≤ 1

/-- A parser that skips the blank lines, and to which white space around a line makes no
difference. -/
structure LineParser {ρ : Type} (parse : Bytes → Parsed ρ) : Prop where
  skip_iff : ∀ line, parse line = .skip ↔ Blank line
  pad : ∀ front line tail, Blank front → Blank tail → parse (front ++ (line ++ tail)) = parse line

/-- What a parser accepts and skips is all it does. -/
theorem parsed_ext {ρ : Type} {p q : Parsed ρ} (hok : ∀ record, p = .ok record ↔ q = .ok record)
    (hskip : p = .skip ↔ q = .skip) : p = q := by
  cases p with
  | ok record => exact ((hok record).mp rfl).symm
  | skip => exact (hskip.mp rfl).symm
  | err =>
    cases q with
    | ok record => exact (hok record).mpr rfl
    | skip => exact hskip.mpr rfl
    | err => rfl

/-- White space around a blank line leaves it blank. -/
theorem blank_pad_iff {front line tail : Bytes} (hfront : Blank front) (htail : Blank tail) :
    Blank (front ++ (line ++ tail)) ↔ Blank line := by
  rw [blank_append, blank_append, and_iff_right hfront, and_iff_left htail]

theorem lineParser_stockRecord : LineParser parseStockRecordLine where
  skip_iff line := parseStockRecordLine_eq_skip.trans isBlankLine_iff
  pad front line tail hfront htail := by
    refine parsed_ext (fun record => ?_) ?_
    · simp only [parseStockRecordLine_eq_ok_iff, numbers_pad_iff hfront htail]
    · rw [parseStockRecordLine_eq_skip, parseStockRecordLine_eq_skip, isBlankLine_iff,
        isBlankLine_iff, blank_pad_iff hfront htail]

theorem lineParser_aofRecord : LineParser parseAofRecordLine where
  skip_iff line := parseAofRecordLine_eq_skip.trans isBlankLine_iff
  pad front line tail hfront htail := by
    have hskip : parseAofRecordLine (front ++ (line ++ tail)) = .skip ↔
        parseAofRecordLine line = .skip := by
      rw [parseAofRecordLine_eq_skip, parseAofRecordLine_eq_skip, isBlankLine_iff,
        isBlankLine_iff, blank_pad_iff hfront htail]
    by_cases hblank : Blank line
    · have hline := parseAofRecordLine_eq_skip.mpr (isBlankLine_iff.mpr hblank)
      rw [hline, hskip.mpr hline]
    · obtain ⟨hfirst, hbehind⟩ := firstWord_pad hfront htail hblank
      have hnumbers : ∀ zs, Numbers (behindWord line ++ tail) zs ↔ Numbers (behindWord line) zs :=
        fun zs => @numbers_pad_iff [] _ tail (by simp [Blank]) htail zs
      refine parsed_ext (fun record => ?_) hskip
      simp only [parseAofRecordLine_eq_ok_iff, hfirst, hbehind, hnumbers]

/-! ## Lines as units -/

section Units

variable {ρ : Type} {parse : Bytes → Parsed ρ} {line : Bytes}

/-- A line that is blank has only blank pieces, and the other way round. -/
theorem blank_iff_pieces : Blank line ↔ ∀ piece ∈ fileLines line, Blank piece := by
  conv_lhs => rw [← flatten_pieces (show 0 < maxLine - 1 by decide) line]
  simp only [Blank, List.mem_flatten]
  constructor
  · intro h piece hpiece b hb
    exact h b ⟨piece, hpiece, hb⟩
  · rintro h b ⟨piece, hpiece, hb⟩
    exact h piece hpiece b hb

/-- The pieces of a line without NUL are C strings. -/
theorem cstr_piece (hnul : 0 ∉ line) {piece : Bytes} (hpiece : piece ∈ fileLines line) :
    cstr piece = piece := by
  apply cstr_eq_self
  rintro b hb rfl
  apply hnul
  rw [← flatten_pieces (show 0 < maxLine - 1 by decide) line]
  exact List.mem_flatten.mpr ⟨piece, hpiece, hb⟩

/-- Records are taken from the pieces that are not blank, one from each when none is refused. -/
theorem pieceRecords_eq (h : LineParser parse) (hnul : 0 ∉ line) :
    pieceRecords parse line =
      ((fileLines line).filter (¬ Blank ·)).filterMap fun piece => (parse piece).record := by
  rw [pieceRecords, List.filterMap_filter]
  refine List.filterMap_congr fun piece hpiece => ?_
  rw [cstr_piece hnul hpiece]
  by_cases hblank : Blank piece
  · simp [hblank, (h.skip_iff piece).mpr hblank, Parsed.record]
  · simp [hblank]

/-- A piece that is not blank and not refused has a record. -/
theorem exists_record (h : LineParser parse) {piece : Bytes} (hblank : ¬ Blank piece)
    (hok : parse piece ≠ .err) : ∃ record, parse piece = .ok record := by
  cases hparse : parse piece with
  | ok record => exact ⟨record, rfl⟩
  | skip => exact absurd ((h.skip_iff piece).mp hparse) hblank
  | err => exact absurd hparse hok

/-- **Which lines of an accepted file are taken as units**: those without a NUL of which at most one
piece is not blank. -/
theorem asUnit_iff (h : LineParser parse)
    (hok : ∀ piece ∈ fileLines line, parse (cstr piece) ≠ .err) :
    AsUnit parse line ↔ 0 ∉ line ∧ OnePiece line := by
  by_cases hnul : 0 ∈ line
  · refine iff_of_false (fun hunit => hunit.1 ?_) fun hplain => hplain.1 hnul
    rw [parseWhole, if_pos hnul]
  have hpieces : ∀ piece ∈ fileLines line, parse piece ≠ .err := fun piece hpiece => by
    rw [← cstr_piece hnul hpiece]
    exact hok piece hpiece
  have hflat : (fileLines line).flatten = line := flatten_pieces (by decide) line
  rw [AsUnit, parseWhole, if_neg hnul, pieceRecords_eq h hnul, and_iff_right hnul, OnePiece]
  have hfull : ∀ piece ∈ (fileLines line).filter (¬ Blank ·),
      ∃ record, parse piece = .ok record := by
    intro piece hpiece
    obtain ⟨hmem, hblank⟩ := List.mem_filter.mp hpiece
    exact exists_record h (by simpa using hblank) (hpieces piece hmem)
  cases hfilter : (fileLines line).filter (¬ Blank ·) with
  | nil =>
    -- the line is blank
    have hblank : Blank line := by
      refine blank_iff_pieces.mpr fun piece hpiece => ?_
      simpa using List.filter_eq_nil_iff.mp hfilter piece hpiece
    simp [(h.skip_iff line).mpr hblank, Parsed.record]
  | cons piece rest =>
    cases rest with
    | nil =>
      -- the record is in one piece, with white space around it
      obtain ⟨before, after, hsplit, hbefore, -, hafter⟩ := List.filter_eq_cons_iff.mp hfilter
      have hblanks : ∀ ps : List Bytes, (∀ p ∈ ps, Blank p) → Blank ps.flatten := by
        intro ps hps b hb
        obtain ⟨p, hp, hbp⟩ := List.mem_flatten.mp hb
        exact hps p hp b hbp
      have hline : line = before.flatten ++ (piece ++ after.flatten) := by
        rw [← hflat, hsplit]
        simp
      have hparse : parse line = parse piece := by
        rw [hline]
        refine h.pad _ _ _ (hblanks _ fun p hp => ?_) (hblanks _ fun p hp => ?_)
        · simpa using hbefore p hp
        · simpa using List.filter_eq_nil_iff.mp hafter p hp
      obtain ⟨record, hrecord⟩ := hfull piece (by rw [hfilter]; simp)
      simp [hparse, hrecord, Parsed.record]
    | cons other rest =>
      -- two records are taken from one line
      obtain ⟨first, hfirst⟩ := hfull piece (by rw [hfilter]; simp)
      obtain ⟨second, hsecond⟩ := hfull other (by rw [hfilter]; simp)
      refine iff_of_false (fun hunit => ?_) (by simp)
      have hlen := congrArg List.length hunit.2
      have htwo := Option.length_toList_le (o := (parse line).record)
      simp only [List.filterMap_cons, hfirst, hsecond, Parsed.record, List.length_cons] at hlen
      simp only [Parsed.record] at htwo
      omega

/-- No line of an accepted file is refused by the parser. -/
theorem parse_ne_err_of_ok {apply : StockStore → ρ → StockStatus × StockStore} {store : StockStore}
    {lines : List Bytes} (hok : (applyLines (applyLine parse apply) store lines).1 = .ok) :
    ∀ line ∈ lines, parse (cstr line) ≠ .err := by
  induction lines generalizing store with
  | nil => simp
  | cons line lines ih =>
    simp only [applyLines] at hok
    split_ifs at hok with hfirst
    · exact absurd hok hfirst
    · refine List.forall_mem_cons.mpr ⟨fun herr => hfirst ?_, ih hok⟩
      simp [applyLine, herr]

/-- What a loop that accepts all lines has applied: the records of the pieces, in order. -/
theorem applyLines_of_ok {apply : StockStore → ρ → StockStatus × StockStore} {store : StockStore}
    {lines : List Bytes} (hok : (applyLines (applyLine parse apply) store lines).1 = .ok) :
    (applyLines (applyLine parse apply) store lines).2 =
      (lines.filterMap fun piece => (parse (cstr piece)).record).foldl
        (fun store record => (apply store record).2) store := by
  induction lines generalizing store with
  | nil => rfl
  | cons line lines ih =>
    have hfirst : (applyLine parse apply store line).1 = .ok := by
      by_contra hne
      rw [applyLines, if_pos hne] at hok
      exact hne hok
    have hcons : applyLines (applyLine parse apply) store (line :: lines) =
        applyLines (applyLine parse apply) (applyLine parse apply store line).2 lines := by
      rw [applyLines, if_neg (not_not.mpr hfirst)]
    rw [hcons] at hok ⊢
    rw [ih hok, List.filterMap_cons]
    cases hparse : parse (cstr line) with
    | ok record => simp [applyLine, hparse, Parsed.record]
    | skip => simp [applyLine, hparse, Parsed.record]
    | err => simp [applyLine, hparse] at hfirst

/-- An accepted file has the records applied that are taken from its lines, line by line. -/
theorem applyLines_fileLines_of_ok {apply : StockStore → ρ → StockStatus × StockStore}
    {store : StockStore} {data : Bytes}
    (hok : (applyLines (applyLine parse apply) store (fileLines data)).1 = .ok) :
    (applyLines (applyLine parse apply) store (fileLines data)).2 =
      ((splitLines data).flatMap (pieceRecords parse)).foldl
        (fun store record => (apply store record).2) store := by
  have hlines : fileLines data = (splitLines data).flatMap fileLines :=
    pieces_eq_flatMap (by decide) data
  rw [applyLines_of_ok hok, hlines, List.filterMap_flatMap]
  rfl

/-- The loop treats lines as units exactly if every file that it accepts has only plain lines. -/
theorem wholeLines_iff_of_lineParser (h : LineParser parse)
    {apply : StockStore → ρ → StockStatus × StockStore} (store : StockStore) (data : Bytes) :
    WholeLines parse apply store data ↔
      ((applyLines (applyLine parse apply) store (fileLines data)).1 = .ok →
        ∀ line ∈ splitLines data, 0 ∉ line ∧ OnePiece line) := by
  refine imp_congr_right fun hok => forall₂_congr fun line hline => asUnit_iff h fun piece hpiece =>
    parse_ne_err_of_ok hok piece ?_
  rw [fileLines, pieces_eq_flatMap (by decide)]
  exact List.mem_flatMap.mpr ⟨line, hline, hpiece⟩

end Units

/-! ## The loaders -/

/-- A log that a store accepts: every line is blank or a record, and the records are applied one
after another. -/
def ReplayableInto (store : StockStore) (lines : List Bytes) : Prop :=
  (∀ line ∈ lines, parseAofRecordLine (cstr line) ≠ .err) ∧
    (applyRecords store (parsedLog lines)).1 = .ok

/-- The replay accepts exactly these logs. -/
theorem applyLines_replayLine_ok_iff (store : StockStore) (lines : List Bytes) :
    (applyLines replayLine store lines).1 = .ok ↔ ReplayableInto store lines := by
  induction lines generalizing store with
  | nil => exact iff_of_true rfl ⟨by simp, rfl⟩
  | cons line lines ih =>
    have hrecords : parsedLog (line :: lines) = (parsedRecord line).toList ++ parsedLog lines := by
      rw [parsedLog, List.filterMap_cons]
      cases parsedRecord line <;> rfl
    rw [ReplayableInto, List.forall_mem_cons, hrecords, applyLines]
    cases hparse : parseAofRecordLine (cstr line) with
    | skip =>
      have hstep : replayLine store line = (.ok, store) := by simp [replayLine, applyLine, hparse]
      have hrecord : parsedRecord line = none := by simp [parsedRecord, hparse]
      rw [hstep, hrecord, if_neg (by simp), ih, ReplayableInto]
      simp
    | err =>
      have hstep : (replayLine store line).1 ≠ .ok := by simp [replayLine, applyLine, hparse]
      rw [if_pos hstep]
      exact iff_of_false hstep fun hlines => hlines.1.1 rfl
    | ok record =>
      have hstep : replayLine store line = applyAofRecord store record := by
        simp [replayLine, applyLine, hparse]
      have hrecord : parsedRecord line = some record := by simp [parsedRecord, hparse]
      rw [hstep, hrecord, Option.toList_some, List.singleton_append, applyRecords]
      by_cases hfirst : (applyAofRecord store record).1 = .ok
      · rw [if_neg (by simp [hfirst]), if_neg (by simp [hfirst]), ih, ReplayableInto]
        simp
      · rw [if_pos hfirst, if_pos hfirst]
        exact iff_of_false hfirst fun hlines => hfirst hlines.2

/-- A file that is read into a store with `STOCK_OK` has been read whole. -/
theorem applyLines_of_readFileInto {step : StockStore → Bytes → StockStatus × StockStore}
    {store : StockStore} {d : Disk} {path : Name} {data : Bytes}
    (hdata : d.contents path = some data) {σ : ℕ → Choice} {s : StockStore}
    (hs : ((readFileInto step store path).run d σ).1 = .returned (.ok, s)) :
    applyLines step store (fileLines data) = (.ok, s) := by
  have himage : imageOf step store d path = applyLines step store (fileLines data) := by
    rw [imageOf, hdata]
  obtain ⟨-, hread | ⟨-, status, store', hread, hstatus⟩⟩ :=
    (@ensures_readFileInto (fun _ => True) (fun _ => True) d step store path trivial).run (σ := σ)
      fun _ => trivial
  · rw [← himage]
    exact Outcome.returned.inj (hread.symm.trans hs)
  · exact absurd (congrArg Prod.fst (Outcome.returned.inj (hread.symm.trans hs))) hstatus

/-- **The loaders treat the lines of a file as units exactly if** it is a file that they refuse, or
none of its lines has a NUL and of no line more than one piece of `MAXLINE - 1` bytes is not blank.
What is said of the loops holds of the two functions: a file that they return `STOCK_OK` for has
been read by the loop, and it is when no call fails. -/
theorem wholeLines_iff (store : StockStore) (data : Bytes) :
    (WholeLines parseStockRecordLine applyStockRecord store data ↔
      (LoadableInto store (fileLines data) → ∀ line ∈ splitLines data, 0 ∉ line ∧ OnePiece line)) ∧
    (WholeLines parseAofRecordLine applyAofRecord store data ↔
      (ReplayableInto store (fileLines data) →
        ∀ line ∈ splitLines data, 0 ∉ line ∧ OnePiece line)) ∧
    ∀ (d : Disk) (path : Name) (σ : ℕ → Choice), d.contents path = some data →
      (∀ s, ((loadStockFileIntoStore store path).run d σ).1 = .returned (.ok, s) →
        applyLines (applyLine parseStockRecordLine applyStockRecord) store (fileLines data) =
          (.ok, s)) ∧
      (∀ s, ((replayAofIntoStore store path).run d σ).1 = .returned (.ok, s) →
        applyLines (applyLine parseAofRecordLine applyAofRecord) store (fileLines data) =
          (.ok, s)) ∧
      ((∀ n, (σ n).Fine) →
        ((loadStockFileIntoStore store path).run d σ).1 = .returned
          (applyLines (applyLine parseStockRecordLine applyStockRecord) store (fileLines data)) ∧
        ((replayAofIntoStore store path).run d σ).1 = .returned
          (applyLines (applyLine parseAofRecordLine applyAofRecord) store (fileLines data))) := by
  refine ⟨?_, ?_, fun d path σ hdata => ?_⟩
  · rw [wholeLines_iff_of_lineParser lineParser_stockRecord, ← (applyLines_ok_iff store _).1]
    rfl
  · rw [wholeLines_iff_of_lineParser lineParser_aofRecord, ← applyLines_replayLine_ok_iff]
    rfl
  · refine ⟨fun s => applyLines_of_readFileInto hdata, fun s => applyLines_of_readFileInto hdata,
      fun hσ => ⟨?_, ?_⟩⟩
    · exact congrArg Prod.fst (run_readFileInto_fine hdata hσ)
    · exact congrArg Prod.fst (run_readFileInto_fine hdata hσ)

/-- A line of five numbers behind 8186 blanks. -/
def fiveNumbers : Bytes := List.replicate 8186 32 ++ ascii "1 2 34 5 6\n"

/-- The buffer is full after the third digit of the line. -/
theorem fileLines_fiveNumbers : fileLines fiveNumbers =
    [List.replicate 8186 32 ++ ascii "1 2 3", ascii "4 5 6\n"] := by
  have hsplit : fiveNumbers =
      (List.replicate 8186 32 ++ ascii "1 2 3") ++ ascii "4 5 6\n" := by
    rw [fiveNumbers, List.append_assoc]
    rfl
  have hfront : ∀ b ∈ List.replicate 8186 32 ++ ascii "1 2 3", b ≠ newline := by
    intro b hb
    rcases List.mem_append.mp hb with hb | hb
    · rw [(List.mem_replicate.mp hb).2]
      decide
    · exact ne_of_mem_of_not_mem hb (by decide)
  have hlen : (List.replicate 8186 (32 : UInt8) ++ ascii "1 2 3").length = maxLine - 1 := by
    rw [List.length_append, List.length_replicate]
    rfl
  have htake : takeLine (maxLine - 1) (List.replicate 8186 32 ++ ascii "1 2 3" ++ ascii "4 5 6\n") =
      (List.replicate 8186 32 ++ ascii "1 2 3", ascii "4 5 6\n") := takeLine_full hfront hlen _
  have htail : pieces (maxLine - 1) (ascii "4 5 6\n") = [ascii "4 5 6\n"] := by decide +kernel
  have hne : List.replicate 8186 (32 : UInt8) ++ ascii "1 2 3" ++ ascii "4 5 6\n" ≠ [] :=
    List.append_ne_nil_of_right_ne_nil _ (by decide)
  rw [fileLines, hsplit, pieces_eq (by decide), if_neg hne, htake, htail]

/-- **A line of five numbers is taken for two records**, one of its numbers for two; and what stands
behind a NUL is not seen. -/
theorem lines_split_and_cut :
    (∃ s, applyLines loadLine .nil (fileLines fiveNumbers) = (.ok, s) ∧
      inorder s = [⟨1, 2, 3⟩, ⟨4, 5, 6⟩]) ∧
    ¬ WholeLines parseStockRecordLine applyStockRecord .nil fiveNumbers ∧
    ¬ WholeLines parseStockRecordLine applyStockRecord .nil
      (ascii "1 2 3" ++ 0 :: ascii " junk\n") ∧
    ¬ WholeLines parseAofRecordLine applyAofRecord (.node ⟨1, 2, 3⟩ .nil .nil)
      (ascii "BUY 1 2" ++ 0 :: ascii " junk\n") := by
  have hfirst : parseStockRecordLine (cstr (List.replicate 8186 32 ++ ascii "1 2 3")) =
      .ok ⟨1, 2, 3⟩ := by
    have hblank : Blank (List.replicate 8186 32) := by
      intro b hb
      rw [(List.mem_replicate.mp hb).2]
      decide
    have hnul : ∀ b ∈ List.replicate 8186 32 ++ ascii "1 2 3", b ≠ 0 := by
      intro b hb
      rcases List.mem_append.mp hb with hb | hb
      · rw [(List.mem_replicate.mp hb).2]
        decide
      · exact ne_of_mem_of_not_mem hb (by decide)
    have hpad := lineParser_stockRecord.pad _ (ascii "1 2 3") [] hblank (by simp [Blank])
    rw [List.append_nil] at hpad
    rw [cstr_eq_self hnul, hpad]
    decide +kernel
  have hload : applyLines loadLine .nil (fileLines fiveNumbers) =
      (.ok, .node ⟨1, 2, 3⟩ .nil (.node ⟨4, 5, 6⟩ .nil .nil)) := by
    rw [fileLines_fiveNumbers]
    simp only [applyLines, loadLine, applyLine, hfirst]
    decide +kernel
  refine ⟨⟨_, hload, rfl⟩, fun h => ?_, fun h => ?_, fun h => ?_⟩
  · have hok : (applyLines loadLine .nil (fileLines fiveNumbers)).1 = .ok := by rw [hload]
    have hlines : splitLines fiveNumbers = [fiveNumbers] := by
      have hplain : ∀ b ∈ List.replicate 8186 32 ++ ascii "1 2 34 5 6", b ≠ newline := by
        intro b hb
        rcases List.mem_append.mp hb with hb | hb
        · rw [(List.mem_replicate.mp hb).2]
          decide
        · exact ne_of_mem_of_not_mem hb (by decide)
      have hcut := splitLines_append_line hplain []
      rwa [List.append_assoc] at hcut
    have hunit := h hok fiveNumbers (by rw [hlines]; simp)
    have hrecords : pieceRecords parseStockRecordLine fiveNumbers = [⟨1, 2, 3⟩, ⟨4, 5, 6⟩] := by
      rw [pieceRecords, fileLines_fiveNumbers, List.filterMap_cons, hfirst]
      decide +kernel
    have hlen := congrArg List.length hunit.2
    have hone := Option.length_toList_le (o := (parseWhole parseStockRecordLine fiveNumbers).record)
    rw [hrecords] at hlen
    simp only [List.length_cons, List.length_nil] at hlen
    omega
  · refine (h (by decide +kernel) (ascii "1 2 3" ++ 0 :: ascii " junk\n") (by decide +kernel)).1 ?_
    decide +kernel
  · refine (h (by decide +kernel) (ascii "BUY 1 2" ++ 0 :: ascii " junk\n")
      (by decide +kernel)).1 ?_
    decide +kernel

end StockServer
