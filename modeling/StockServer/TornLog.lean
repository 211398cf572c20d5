import StockServer.Persistence
import StockServer.TradeLog

set_option relaxedAutoImplicit false
set_option autoImplicit false

/-!
# Torn logs

What `replay_aof_into_store` makes of a log that a crash has cut at some byte.  A log is a text of
lines `BUY <id> <count>` and `SELL <id> <count>`; the replay reads it with `fgets`, which delivers
an unterminated last line like any other, and with `sscanf`, for which the front of a number is a
number.  So a cut inside the digits of a count leaves a line with another count, which is applied
if the store admits it; every other cut is harmless.

## Main definitions

* `LogEntry`, `logText` — an entry of a log, and the text of its entries.
* `parsedLog` — the records that a sequence of lines is parsed to.
* `replayLog` — the replay of a text.
* `TornSafe` — the replay reports an error, or has applied some first records of the log and no
  other.
* `CutInCount` — the cut leaves the front of a count, and the line it ends in is accepted.

## Main results

* `LogEntry.cut_cases` — what the front of a line is parsed to.
* `tornSafe_iff` — **the replay of a torn log is safe if and only if the cut does not fall inside a
  count**.
* `cutInCount_iff_of_int` — if the counts are `int`s, every cut between two digits of a count is
  such a cut.

## Implementation notes

The decimals of a log may be of any size: the parser reads them into an `int` without a range
check.  That a replayed log has no line as long as the buffer of `fgets` is a consequence of its
being replayed (`LogEntry.length_body_lt`).
-/

namespace StockServer

open SearchTree

/-! ## Texts of logs -/

/-- The verb of a log line. -/
def logVerb : StockLogOp → Bytes
  | .buy => ascii "BUY"
  | .sell => ascii "SELL"

/-- An entry of a log, with the numbers that its decimals stand for. -/
structure LogEntry where
  op : StockLogOp
  id : ℤ
  count : ℤ
  deriving DecidableEq, Repr

/-- The record that an entry is parsed to. -/
def LogEntry.record (entry : LogEntry) : StockLogRecord :=
  ⟨entry.op, scanD entry.id, scanD entry.count⟩

/-- The line of an entry up to its count. -/
def LogEntry.head (entry : LogEntry) : Bytes :=
  logVerb entry.op ++ 32 :: (showInt entry.id ++ [32])

/-- The line of an entry without its newline. -/
def LogEntry.body (entry : LogEntry) : Bytes := entry.head ++ showInt entry.count

/-- The line of an entry. -/
def LogEntry.line (entry : LogEntry) : Bytes := entry.body ++ [newline]

/-- The text of a log. -/
def logText (entries : List LogEntry) : Bytes := entries.flatMap LogEntry.line

/-- The record that a log line is parsed to. -/
def parsedRecord (line : Bytes) : Option StockLogRecord :=
  match parseAofRecordLine (cstr line) with
  | .ok record => some record
  | _ => none

/-- The records that the lines of a log are parsed to. -/
def parsedLog (lines : List Bytes) : List StockLogRecord := lines.filterMap parsedRecord

/-- The replay of a text: the loop of `replay_aof_into_store` over its lines. -/
def replayLog (store : StockStore) (data : Bytes) : StockStatus × StockStore :=
  applyLines replayLine store (fileLines data)

/-- The replay of a text reports an error, or it has parsed and applied the first records of the
log, as many as it may be, and ends in the store after these. -/
def TornSafe (store : StockStore) (entries : List LogEntry) (torn : Bytes) : Prop :=
  (replayLog store torn).1 ≠ .ok ∨ ∃ k,
    parsedLog (fileLines torn) = (entries.take k).map LogEntry.record ∧
    replayLog store torn = applyRecords store ((entries.take k).map LogEntry.record)

/-- The text ends within a count, at the decimals of another number; that number is another `int`,
and the line it leaves is accepted by the store that the entries before it lead to. -/
def CutInCount (store : StockStore) (entries : List LogEntry) (torn : Bytes) : Prop :=
  ∃ before entry later v, entries = before ++ entry :: later ∧
    torn = logText before ++ (LogEntry.mk entry.op entry.id v).body ∧
    showInt v <+: showInt entry.count ∧ scanD v ≠ scanD entry.count ∧
    (applyAofRecord (applyRecords store (before.map LogEntry.record)).2
      ⟨entry.op, scanD entry.id, scanD v⟩).1 = .ok

/-! ## Lines are read back -/

/-- The verb of a log line is read as a word. -/
theorem sscanfAux_verb (ds : List Directive) (op : StockLogOp) (t : Bytes) :
    sscanfAux (.blank :: .s 15 :: ds) (logVerb op ++ 32 :: t) =
      (.s (logVerb op) :: (sscanfAux ds (32 :: t)).1, (sscanfAux ds (32 :: t)).2) := by
  cases op <;> simp [sscanfAux, logVerb, ascii, List.takeWhile, isspace]

/-- A log line is not blank. -/
theorem isBlankLine_verb (op : StockLogOp) (t : Bytes) :
    isBlankLine (logVerb op ++ t) = false := by
  cases op with
  | buy => exact @isBlankLine_eq_false _ 66 (by simp [logVerb, ascii]) (by decide)
  | sell => exact @isBlankLine_eq_false _ 83 (by simp [logVerb, ascii]) (by decide)

/-- What follows the verb decides: two numbers, and nothing but white space after them. -/
theorem parseAofRecordLine_verb (op : StockLogOp) (t : Bytes) :
    parseAofRecordLine (logVerb op ++ 32 :: t) =
      match (sscanfAux [.blank, .d, .blank, .d, .blank, .c] t).1 with
      | [.d id, .d count] => .ok ⟨op, id, count⟩
      | _ => .err := by
  simp only [parseAofRecordLine, isBlankLine_verb, Bool.false_eq_true, ↓reduceIte, sscanf,
    sscanfAux_verb, sscanfAux_space]
  generalize sscanfAux [.blank, .d, .blank, .d, .blank, .c] t = scanned
  obtain ⟨values, atEnd⟩ := scanned
  rcases values with _ | ⟨v, _ | ⟨w, _ | ⟨x, rest⟩⟩⟩
  · simp
  · simp
  · cases op <;> cases v <;> cases w <;> simp [logVerb, ascii]
  · cases v <;> cases w <;> simp

/-- **A log line is read back** as the record of its entry. -/
theorem parseAofRecordLine_body (entry : LogEntry) {t : Bytes} (ht : t = [] ∨ t = [newline]) :
    parseAofRecordLine (entry.body ++ t) = .ok entry.record := by
  have hspace : ∀ b : UInt8, (32 :: (showInt entry.count ++ t)).head? = some b →
      isdigit b = false := by
    rintro b ⟨⟩
    decide
  have hafter : ∀ b, t.head? = some b → isdigit b = false := by
    rcases ht with rfl | rfl
    · simp
    · rintro b ⟨⟩
      decide
  have hend : (sscanfAux [.blank, .c] t).1 = [] := by
    rcases ht with rfl | rfl <;> decide
  have htext : entry.body ++ t =
      logVerb entry.op ++ 32 :: (showInt entry.id ++ 32 :: (showInt entry.count ++ t)) := by
    simp [LogEntry.body, LogEntry.head]
  rw [htext, parseAofRecordLine_verb, sscanfAux_showInt _ _ hspace, sscanfAux_space,
    sscanfAux_showInt _ _ hafter, hend]
  rfl

/-- A number is missing where its decimals are cut to nothing or to a lone minus sign. -/
theorem sscanfAux_noNumber (ds : List Directive) {front : Bytes} (h : front = [] ∨ front = [45]) :
    (sscanfAux (.blank :: .d :: ds) front).1 = [] := by
  rcases h with rfl | rfl <;> rfl

/-- A line cut in its id is not a record. -/
theorem parseAofRecordLine_id (op : StockLogOp) {id : ℤ} {front : Bytes}
    (h : front <+: showInt id) : parseAofRecordLine (logVerb op ++ 32 :: front) = .err := by
  rw [parseAofRecordLine_verb]
  rcases showInt_of_prefix h with hfront | hfront | ⟨v, rfl⟩
  · rw [sscanfAux_noNumber _ (Or.inl hfront)]
  · rw [sscanfAux_noNumber _ (Or.inr hfront)]
  · have hscan := @sscanfAux_showInt [.blank, .d, .blank, .c] v [] (by simp)
    rw [List.append_nil] at hscan
    rw [hscan, sscanfAux_noNumber _ (Or.inl rfl)]

/-- A line cut before the first digit of its count is not a record. -/
theorem parseAofRecordLine_count (entry : LogEntry) {front : Bytes}
    (h : front = [] ∨ front = [45]) : parseAofRecordLine (entry.head ++ front) = .err := by
  have hspace : ∀ b : UInt8, (32 :: front).head? = some b → isdigit b = false := by
    rintro b ⟨⟩
    decide
  have htext : entry.head ++ front =
      logVerb entry.op ++ 32 :: (showInt entry.id ++ 32 :: front) := by
    simp [LogEntry.head]
  rw [htext, parseAofRecordLine_verb, sscanfAux_showInt _ _ hspace, sscanfAux_space,
    sscanfAux_noNumber _ h]

/-- A verb that is cut is not a record. -/
theorem parseAofRecordLine_prefix_verb (op : StockLogOp) {w : Bytes} (h : w <+: logVerb op) :
    w = [] ∨ parseAofRecordLine w = .err := by
  have hall : ∀ w ∈ (logVerb op).inits, w = [] ∨ parseAofRecordLine w = .err := by
    cases op <;> decide
  exact hall w ((List.mem_inits w _).mpr h)

/-- **What the front of a line is parsed to**: it is empty, or no record, or the line of the entry
with another count, whose decimals are the front of those of the count. -/
theorem LogEntry.cut_cases (entry : LogEntry) {w : Bytes} (h : w <+: entry.body) :
    w = [] ∨ parseAofRecordLine w = .err ∨
      ∃ v, w = (LogEntry.mk entry.op entry.id v).body ∧ showInt v <+: showInt entry.count := by
  have htext : entry.body =
      logVerb entry.op ++ 32 :: (showInt entry.id ++ 32 :: showInt entry.count) := by
    simp [LogEntry.body, LogEntry.head]
  rw [htext] at h
  rcases prefix_append_cons_cases h with hverb | ⟨u, rfl, hu⟩
  · exact (parseAofRecordLine_prefix_verb entry.op hverb).imp_right Or.inl
  rcases prefix_append_cons_cases hu with hid | ⟨front, rfl, hfront⟩
  · exact Or.inr (Or.inl (parseAofRecordLine_id entry.op hid))
  have hhead : logVerb entry.op ++ 32 :: (showInt entry.id ++ 32 :: front) =
      entry.head ++ front := by
    simp [LogEntry.head]
  rw [hhead]
  rcases showInt_of_prefix hfront with hcut | hcut | ⟨v, rfl⟩
  · exact Or.inr (Or.inl (parseAofRecordLine_count entry (Or.inl hcut)))
  · exact Or.inr (Or.inl (parseAofRecordLine_count entry (Or.inr hcut)))
  · exact Or.inr (Or.inr ⟨v, rfl, hfront⟩)

/-! ## One line of a log -/

/-- The bytes of a line are no NUL and no newline. -/
theorem LogEntry.mem_body {entry : LogEntry} {b : UInt8} (h : b ∈ entry.body) :
    b ≠ 0 ∧ b ≠ newline := by
  have hnul : 0 ∉ logVerb entry.op ++ [32] := by cases entry.op <;> decide
  have hnewline : newline ∉ logVerb entry.op ++ [32] := by cases entry.op <;> decide
  have htext : entry.body =
      (logVerb entry.op ++ [32]) ++ (showInt entry.id ++ ([32] ++ showInt entry.count)) := by
    simp [LogEntry.body, LogEntry.head]
  rw [htext] at h
  rcases List.mem_append.mp h with h | h
  · exact ⟨ne_of_mem_of_not_mem h hnul, ne_of_mem_of_not_mem h hnewline⟩
  rcases List.mem_append.mp h with h | h
  · exact ⟨(mem_showInt_ne h).1, (mem_showInt_ne h).2.1⟩
  rcases List.mem_append.mp h with h | h
  · obtain rfl := List.mem_singleton.mp h
    decide
  · exact ⟨(mem_showInt_ne h).1, (mem_showInt_ne h).2.1⟩

/-- A line that is accepted is far shorter than the buffer: longer decimals do not fit a `long`,
and are read as an `int` that is not positive. -/
theorem LogEntry.length_body_lt {store : StockStore} {entry : LogEntry}
    (h : (applyAofRecord store entry.record).1 = .ok) : entry.body.length < 100 := by
  have hrange : ¬ (entry.record.id ≤ 0 ∨ entry.record.count ≤ 0) := by
    intro hbad
    rw [applyAofRecord, if_pos hbad] at h
    cases h
  have hid : (showInt entry.id).length ≤ 20 := by
    by_contra hlong
    exact hrange (Or.inl (scanD_nonpos (Nat.lt_of_not_le hlong)))
  have hcount : (showInt entry.count).length ≤ 20 := by
    by_contra hlong
    exact hrange (Or.inr (scanD_nonpos (Nat.lt_of_not_le hlong)))
  have hverb : (logVerb entry.op).length ≤ 4 := by cases entry.op <;> decide
  simp only [LogEntry.body, LogEntry.head, List.length_append, List.length_cons, List.length_nil]
  omega

/-- A line of an entry, with or without its newline, applies the record of the entry. -/
theorem replayLine_body (store : StockStore) (entry : LogEntry) {t : Bytes}
    (ht : t = [] ∨ t = [newline]) :
    parsedRecord (entry.body ++ t) = some entry.record ∧
      replayLine store (entry.body ++ t) = applyAofRecord store entry.record := by
  have hcstr : cstr (entry.body ++ t) = entry.body ++ t := by
    refine cstr_eq_self fun b hb => ?_
    rcases List.mem_append.mp hb with hb | hb
    · exact (LogEntry.mem_body hb).1
    · rcases ht with rfl | rfl
      · cases hb
      · obtain rfl := List.mem_singleton.mp hb
        decide
  simp only [parsedRecord, replayLine, applyLine, hcstr, parseAofRecordLine_body entry ht,
    and_self]

/-- The front of a line that is no record is refused. -/
theorem replayLine_err (store : StockStore) {entry : LogEntry} {w : Bytes} (h : w <+: entry.body)
    (hparse : parseAofRecordLine w = .err) : replayLine store w = (.errInvalid, store) := by
  have hcstr : cstr w = w := cstr_eq_self fun b hb => (LogEntry.mem_body (h.subset hb)).1
  simp only [replayLine, applyLine, hcstr, hparse]

/-! ## The lines of a log -/

/-- A short line is the first that is read of a log. -/
theorem fileLines_line {entry : LogEntry} (hshort : entry.body.length < maxLine - 1)
    (data : Bytes) : fileLines (entry.line ++ data) = entry.line :: fileLines data := by
  rw [fileLines, LogEntry.line, List.append_assoc, List.singleton_append,
    pieces_append_line (fun b hb => (LogEntry.mem_body hb).2) hshort]
  rfl

/-- The front of a line is read as one line. -/
theorem fileLines_cut {entry : LogEntry} {w : Bytes} (h : w <+: entry.body) (hne : w ≠ [])
    (hshort : w.length < 100) : fileLines w = [w] := by
  have hmax : w.length ≤ maxLine - 1 := by
    unfold maxLine
    omega
  have htail := takeLine_tail (fun b hb => (LogEntry.mem_body (h.subset hb)).2) hmax
  rw [fileLines, pieces_eq (by decide), if_neg hne, htail, pieces_eq (by decide), if_pos rfl]

/-- The replay of a log goes on after an entry that is accepted. -/
theorem replayLog_line {store : StockStore} {entry : LogEntry}
    (h : (applyAofRecord store entry.record).1 = .ok) (data : Bytes) :
    parsedLog (fileLines (entry.line ++ data)) = entry.record :: parsedLog (fileLines data) ∧
      replayLog store (entry.line ++ data) =
        replayLog (applyAofRecord store entry.record).2 data := by
  obtain ⟨hparsed, hreplay⟩ := @replayLine_body store entry [newline] (Or.inr rfl)
  have hshort : entry.body.length < maxLine - 1 :=
    (LogEntry.length_body_lt h).trans (by unfold maxLine; omega)
  have hlines := fileLines_line hshort data
  constructor
  · rw [parsedLog, hlines, LogEntry.line, List.filterMap_cons_some hparsed]
    rfl
  · rw [replayLog, hlines, applyLines, LogEntry.line, hreplay]
    simp only [h, ne_eq, not_true_eq_false, ↓reduceIte]
    rfl

/-- **The first entry of a log that is replayed is accepted**, whatever the length of its line.

**Proof sketch.** If the line is as long as the buffer, then its front is replayed instead, which
is refused: as no record, or because one of its numbers is too long. -/
theorem accepted_of_replayLog {store : StockStore} {entry : LogEntry} {data : Bytes}
    (h : (replayLog store (entry.line ++ data)).1 = .ok) :
    (applyAofRecord store entry.record).1 = .ok := by
  have hfirst : ∀ line lines, fileLines (entry.line ++ data) = line :: lines →
      (replayLine store line).1 = .ok := by
    intro line lines hlines
    rw [replayLog, hlines, applyLines] at h
    by_contra hbad
    rw [if_pos hbad] at h
    exact hbad h
  by_cases hshort : entry.body.length < maxLine - 1
  · have hok := hfirst _ _ (fileLines_line hshort data)
    rwa [LogEntry.line, (replayLine_body store entry (Or.inr rfl)).2] at hok
  · -- the buffer is filled by the front of the line
    set w := entry.body.take (maxLine - 1) with hw
    have hpre : w <+: entry.body := List.take_prefix _ _
    have hlen : w.length = maxLine - 1 := by
      rw [hw, List.length_take]
      omega
    have hne : w ≠ [] := by
      intro hnil
      rw [hnil] at hlen
      cases hlen
    have hsplit : entry.line ++ data =
        w ++ (entry.body.drop (maxLine - 1) ++ ([newline] ++ data)) := by
      rw [LogEntry.line, ← List.append_assoc, hw, List.take_append_drop, List.append_assoc]
    have hlines := @pieces_eq (maxLine - 1) (by decide) (entry.line ++ data)
    rw [hsplit, if_neg (by simp [hne]),
      takeLine_full (fun b hb => (LogEntry.mem_body (hpre.subset hb)).2) hlen, ← hsplit] at hlines
    have hok := hfirst _ _ hlines
    rcases LogEntry.cut_cases entry hpre with hnil | hparse | ⟨v, hv, -⟩
    · exact absurd hnil hne
    · rw [replayLine_err store hpre hparse] at hok
      cases hok
    · have hbody := (@replayLine_body store ⟨entry.op, entry.id, v⟩ [] (Or.inl rfl)).2
      rw [List.append_nil, ← hv] at hbody
      rw [hbody] at hok
      have hlt := LogEntry.length_body_lt hok
      rw [← hv, hlen] at hlt
      exact absurd hlt (by decide)

/-! ## Torn logs -/

/-- A text that goes on after the first entry is safe when what follows is safe for the store
after that entry. -/
theorem tornSafe_line {store : StockStore} {entry : LogEntry}
    (h : (applyAofRecord store entry.record).1 = .ok) (entries : List LogEntry) (torn : Bytes) :
    TornSafe store (entry :: entries) (entry.line ++ torn) ↔
      TornSafe (applyAofRecord store entry.record).2 entries torn := by
  obtain ⟨hparsed, hreplay⟩ := replayLog_line h torn
  rw [TornSafe, hparsed, hreplay]
  refine or_congr_right ⟨?_, ?_⟩
  · rintro ⟨k, hk, hstore⟩
    cases k with
    | zero => cases hk
    | succ k =>
      rw [List.take_succ_cons, List.map_cons] at hk hstore
      exact ⟨k, (List.cons.inj hk).2, hstore.trans (applyRecords_cons h _)⟩
  · rintro ⟨k, hk, hstore⟩
    refine ⟨k + 1, ?_, ?_⟩
    · rw [List.take_succ_cons, List.map_cons, hk]
    · rw [List.take_succ_cons, List.map_cons, applyRecords_cons h, hstore]

/-- A cut after the first entry is a cut of what follows. -/
theorem cutInCount_line {store : StockStore} {entry : LogEntry}
    (h : (applyAofRecord store entry.record).1 = .ok) (entries : List LogEntry) (torn : Bytes) :
    CutInCount store (entry :: entries) (entry.line ++ torn) ↔
      CutInCount (applyAofRecord store entry.record).2 entries torn := by
  constructor
  · rintro ⟨before, cut, later, v, hentries, htorn, hv⟩
    cases before with
    | nil =>
      -- a line that is cut has no newline
      have hmem : newline ∈ (LogEntry.mk cut.op cut.id v).body := by
        rw [logText, List.flatMap_nil, List.nil_append] at htorn
        rw [← htorn, LogEntry.line]
        simp
      exact absurd rfl (LogEntry.mem_body hmem).2
    | cons first before =>
      obtain ⟨rfl, rfl⟩ := List.cons.inj hentries
      rw [logText, List.flatMap_cons, List.append_assoc, List.append_cancel_left_eq] at htorn
      rw [List.map_cons, applyRecords_cons h] at hv
      exact ⟨before, cut, later, v, rfl, htorn, hv⟩
  · rintro ⟨before, cut, later, v, rfl, rfl, hv⟩
    refine ⟨entry :: before, cut, later, v, rfl, ?_, ?_⟩
    · rw [logText, logText, List.flatMap_cons, List.append_assoc]
    · rw [List.map_cons, applyRecords_cons h]
      exact hv

/-- A text that ends within the first line is cut in the count of that line, or not at all. -/
theorem cutInCount_first {store : StockStore} {entry : LogEntry} {entries : List LogEntry}
    {torn : Bytes} (h : torn <+: entry.body) : CutInCount store (entry :: entries) torn ↔
      ∃ v, torn = (LogEntry.mk entry.op entry.id v).body ∧ showInt v <+: showInt entry.count ∧
        scanD v ≠ scanD entry.count ∧
        (applyAofRecord store ⟨entry.op, scanD entry.id, scanD v⟩).1 = .ok := by
  constructor
  · rintro ⟨before, cut, later, v, hentries, htorn, hv⟩
    cases before with
    | nil =>
      obtain ⟨rfl, rfl⟩ := List.cons.inj hentries
      exact ⟨v, htorn, hv⟩
    | cons first before =>
      have hmem : newline ∈ torn := by
        rw [htorn, logText, List.flatMap_cons, LogEntry.line]
        simp
      exact absurd rfl (LogEntry.mem_body (h.subset hmem)).2
  · rintro ⟨v, htorn, hv⟩
    exact ⟨[], entry, entries, v, rfl, htorn, hv⟩

/-- A log of one line is replayed as that line. -/
theorem replayLog_singleton {line : Bytes} (hlines : fileLines line = [line])
    (store : StockStore) : replayLog store line = replayLine store line := by
  rw [replayLog, hlines, applyLines]
  split_ifs with hbad
  · rfl
  · rw [applyLines, ← not_not.mp hbad]

/-- A first line that is left with another count is safe when that count is read as the same number,
and when the line is refused. -/
theorem tornSafe_count {store : StockStore} {entry : LogEntry}
    (hok : (applyAofRecord store entry.record).1 = .ok) (entries : List LogEntry) {torn : Bytes}
    (hlines : fileLines torn = [torn]) {v : ℤ}
    (hv : torn = (LogEntry.mk entry.op entry.id v).body) :
    TornSafe store (entry :: entries) torn ↔ scanD v = scanD entry.count ∨
      (applyAofRecord store ⟨entry.op, scanD entry.id, scanD v⟩).1 ≠ .ok := by
  obtain ⟨hparsed, hline⟩ := @replayLine_body store ⟨entry.op, entry.id, v⟩ [] (Or.inl rfl)
  rw [List.append_nil, ← hv] at hparsed hline
  have hreplay := (replayLog_singleton hlines store).trans hline
  have hlog : parsedLog (fileLines torn) = [⟨entry.op, scanD entry.id, scanD v⟩] := by
    rw [parsedLog, hlines, List.filterMap_cons_some hparsed]
    rfl
  constructor
  · rintro (hbad | ⟨k, hk, -⟩)
    · rw [hreplay] at hbad
      exact Or.inr hbad
    · rw [hlog] at hk
      cases k with
      | zero => cases hk
      | succ k =>
        rw [List.take_succ_cons, List.map_cons] at hk
        exact Or.inl (congrArg StockLogRecord.count (List.cons.inj hk).1)
  · rintro (hsame | hbad)
    · have hrecord : (LogEntry.mk entry.op entry.id v).record = entry.record := by
        rw [LogEntry.record, LogEntry.record, hsame]
      refine Or.inr ⟨1, ?_, ?_⟩
      · rw [hlog, hsame]
        rfl
      · rw [hreplay, hrecord]
        change _ = applyRecords store [entry.record]
        rw [applyRecords_cons hok, applyRecords, ← hok]
    · exact Or.inl (hreplay ▸ hbad)

/-- Within the first line, the cut is safe when it does not fall inside the count. -/
theorem tornSafe_first {store : StockStore} {entry : LogEntry}
    (hok : (applyAofRecord store entry.record).1 = .ok) {entries : List LogEntry} {torn : Bytes}
    (h : torn <+: entry.body) :
    TornSafe store (entry :: entries) torn ↔ ¬ CutInCount store (entry :: entries) torn := by
  rw [cutInCount_first h]
  by_cases hne : torn = []
  · -- nothing is left of the line
    refine iff_of_true (Or.inr ⟨0, ?_, ?_⟩) ?_
    · rw [hne]; rfl
    · rw [hne]; rfl
    · rintro ⟨v, htorn, -⟩
      rw [hne] at htorn
      exact showInt_ne_nil v (List.append_eq_nil_iff.mp htorn.symm).2
  have hlines : fileLines torn = [torn] := by
    refine fileLines_cut h hne (lt_of_le_of_lt h.length_le (LogEntry.length_body_lt hok))
  rcases LogEntry.cut_cases entry h with hnil | hparse | ⟨v, hv, hfront⟩
  · exact absurd hnil hne
  · -- the line is refused
    refine iff_of_true (Or.inl ?_) ?_
    · rw [replayLog_singleton hlines, replayLine_err store h hparse]
      simp
    · rintro ⟨v, htorn, -⟩
      have hbody := parseAofRecordLine_body ⟨entry.op, entry.id, v⟩ (Or.inl rfl)
      rw [List.append_nil, ← htorn, hparse] at hbody
      cases hbody
  · -- the line is that of another count
    have hunique : ∀ w, torn = (LogEntry.mk entry.op entry.id w).body → w = v := by
      intro w hw
      rw [hv] at hw
      exact (showInt_inj (List.append_cancel_left hw)).symm
    rw [tornSafe_count hok entries hlines hv]
    constructor
    · rintro hsafe ⟨w, hw, -, hdiff, haccept⟩
      obtain rfl := hunique w hw
      exact hsafe.elim hdiff (absurd haccept)
    · intro hnone
      by_contra hunsafe
      rw [not_or, not_not] at hunsafe
      exact hnone ⟨v, hv, hfront, hunsafe⟩

/-- **The replay of a torn log is safe if and only if the cut does not fall inside a count.**  For
every store and every log that is replayed from it without error, whatever numbers stand there, and
every front of its text: what `replay_aof_into_store` returns for a file of that text is an error,
or the store after some first records of the log, all of them parsed as they were written, exactly
when the text does not end at the decimals of another count that the store accepts.

**Proof sketch.** Induction on the entries.  A text that goes past the first line is safe, and cut
in a count, when the rest is; within the first line the cases are those of `cut_cases`. -/
theorem tornSafe_iff {store : StockStore} {entries : List LogEntry} {torn : Bytes}
    (hreplays : (replayLog store (logText entries)).1 = .ok) (htorn : torn <+: logText entries) :
    (TornSafe store entries torn ↔ ¬ CutInCount store entries torn) ∧
      ∀ (d : Disk) (path : Name) (σ : ℕ → Choice), d.contents path = some torn →
        (∀ n, (σ n).Fine) →
          ((replayAofIntoStore store path).run d σ).1 = .returned (replayLog store torn) := by
  constructor
  · induction entries generalizing store torn with
    | nil =>
      obtain rfl := List.prefix_nil.mp htorn
      refine iff_of_true (Or.inr ⟨0, rfl, rfl⟩) ?_
      rintro ⟨before, entry, later, v, hentries, -⟩
      cases before <;> cases hentries
    | cons entry entries ih =>
      rw [logText, List.flatMap_cons] at hreplays htorn
      have hok := accepted_of_replayLog hreplays
      rw [(replayLog_line hok _).2] at hreplays
      rcases prefix_append_cases htorn with hfirst | ⟨rest, rfl, hrest⟩
      · rcases List.prefix_concat_iff.mp hfirst with rfl | hbody
        · have hpast := ih hreplays (List.nil_prefix)
          rw [← tornSafe_line hok, ← cutInCount_line hok, List.append_nil] at hpast
          exact hpast
        · exact tornSafe_first hok hbody
      · rw [tornSafe_line hok, cutInCount_line hok]
        exact ih hreplays hrest
  · intro d path σ hdata hσ
    rw [replayAofIntoStore, run_readFileInto_fine hdata hσ]
    rfl

/-- A buy and a sell, cut in the count of the sell. -/
theorem tornSafe_iff_sell :
    let store : StockStore := .node ⟨1, 100, 50⟩ .nil .nil
    let entries : List LogEntry := [⟨.buy, 1, 5⟩, ⟨.sell, 1, 23⟩]
    let torn := ascii "BUY 1 5\nSELL 1 2"
    (TornSafe store entries torn ↔ ¬ CutInCount store entries torn) ∧
      ∀ (d : Disk) (path : Name) (σ : ℕ → Choice), d.contents path = some torn →
        (∀ n, (σ n).Fine) →
          ((replayAofIntoStore store path).run d σ).1 = .returned (replayLog store torn) := by
  intro store entries torn
  have hreplays : (replayLog store (logText entries)).1 = .ok := by decide +kernel
  have htorn : torn <+: logText entries := by decide
  exact tornSafe_iff hreplays htorn

/-- The sell of 23 is replayed as a sell of 2. -/
theorem tornLog_applied :
    let store : StockStore := .node ⟨1, 100, 50⟩ .nil .nil
    let entries : List LogEntry := [⟨.sell, 1, 23⟩]
    let torn := ascii "SELL 1 2"
    (replayLog store (logText entries)).1 = .ok ∧ torn <+: logText entries ∧
      replayLog store torn = (.ok, .node ⟨1, 102, 50⟩ .nil .nil) ∧
      ¬ TornSafe store entries torn ∧
      ∀ k, (applyRecords store ((entries.take k).map LogEntry.record)).2 ≠
        (replayLog store torn).2 := by
  intro store entries torn
  have hreplay : replayLog store torn = (.ok, .node ⟨1, 102, 50⟩ .nil .nil) := by
    decide +kernel
  have hstores : ∀ k, (applyRecords store ((entries.take k).map LogEntry.record)).2 ≠
      (replayLog store torn).2 := by
    intro k
    rw [hreplay]
    rcases k with _ | k
    · decide
    · have hwhole : entries.take (k + 1) = entries := by simp [entries]
      rw [hwhole]
      decide
  refine ⟨by decide +kernel, by decide, hreplay, ?_, hstores⟩
  rintro (hbad | ⟨k, -, hk⟩)
  · exact hbad (by rw [hreplay])
  · exact hstores k (by rw [hk])

/-! ## Logs of numbers in range -/

/-- A smaller positive count is accepted where a count is. -/
theorem accepted_of_count_le {store : StockStore} {record : StockLogRecord} {count : Int32}
    (h : (applyAofRecord store record).1 = .ok) (hpos : 0 < count) (hle : count ≤ record.count) :
    (applyAofRecord store ⟨record.op, record.id, count⟩).1 = .ok := by
  have hrange : ¬ (record.id ≤ 0 ∨ record.count ≤ 0) := by
    intro hbad
    rw [applyAofRecord, if_pos hbad] at h
    cases h
  have hid : ¬ record.id ≤ 0 := fun hid => hrange (Or.inl hid)
  have hcount : ¬ count ≤ 0 := Int32.not_le.mpr hpos
  rw [applyAofRecord, if_neg hrange] at h
  cases hfind : findStockItem store record.id with
  | none =>
    rw [applyDelta_none hfind] at h
    cases h
  | some item =>
    have happlies : Applies item (if record.op = .buy then -record.count else record.count) := by
      by_contra hrefused
      rw [applyDelta_refused hfind hrefused] at h
      cases h
    have hsmaller : Applies item (if record.op = .buy then -count else count) := by
      have hbefore : 0 < record.count := Int32.not_le.mp fun hbad => hrange (Or.inr hbad)
      rw [applies_signed_iff hbefore] at happlies
      rw [applies_signed_iff hpos]
      exact fun hbad => happlies ⟨hbad.1, Int32.lt_of_lt_of_le hbad.2 hle⟩
    simp only [applyAofRecord, hid, hcount, or_self, ↓reduceIte]
    rw [applyDelta_applies hfind hsmaller]

/-- Every entry of a log that is replayed is accepted after those before it. -/
theorem accepted_of_replayLog_append {store : StockStore} {before : List LogEntry}
    {entry : LogEntry} {later : List LogEntry}
    (h : (replayLog store (logText (before ++ entry :: later))).1 = .ok) :
    (applyAofRecord (applyRecords store (before.map LogEntry.record)).2 entry.record).1 = .ok := by
  induction before generalizing store with
  | nil => exact accepted_of_replayLog h
  | cons first before ih =>
    rw [List.cons_append, logText, List.flatMap_cons] at h
    have hok := accepted_of_replayLog h
    rw [(replayLog_line hok _).2] at h
    rw [List.map_cons, applyRecords_cons hok]
    exact ih h

/-- The front of a positive `int` is a positive `int`, and no larger. -/
theorem int32_of_prefix {count : Int32} (hpos : 0 < count) {digits : Bytes} (hne : digits ≠ [])
    (h : digits <+: showInt count.toInt) :
    ∃ front : Int32, digits = showInt front.toInt ∧ 0 < front ∧ front ≤ count := by
  have hcount : 0 < count.toInt := Int32.lt_iff_toInt_lt.mp hpos
  have hlt := count.toInt_lt
  rw [showInt, if_neg (by omega)] at h
  obtain ⟨m, rfl, hle, hm⟩ := showNat_of_prefix hne h
  have hm : 0 < m := hm (by omega)
  have hvalue : (Int32.ofInt m).toInt = m := by
    have hsize : Int32.size = 2 ^ 32 := rfl
    rw [Int32.toInt_ofInt, hsize]
    exact Int.bmod_eq_of_le (by omega) (by omega)
  refine ⟨Int32.ofInt m, ?_, ?_, ?_⟩
  · rw [hvalue, showInt, if_neg (by omega), Int.natAbs_natCast]
  · rw [Int32.lt_iff_toInt_lt, hvalue]
    simpa using hm
  · rw [Int32.le_iff_toInt_le, hvalue]
    omega

/-- **If the counts are `int`s, every cut between two digits of a count is a cut in a count**: the
smaller count that is left is accepted, because the count is. -/
theorem cutInCount_iff_of_int {store : StockStore} {entries : List LogEntry} {torn : Bytes}
    (hreplays : (replayLog store (logText entries)).1 = .ok)
    (hint : ∀ entry ∈ entries, ∃ count : Int32, entry.count = count.toInt) :
    CutInCount store entries torn ↔ ∃ before entry later digits lost,
      entries = before ++ entry :: later ∧ showInt entry.count = digits ++ lost ∧ digits ≠ [] ∧
        lost ≠ [] ∧ torn = logText before ++ (entry.head ++ digits) := by
  constructor
  · rintro ⟨before, entry, later, v, hentries, htorn, ⟨lost, hlost⟩, hdiff, -⟩
    refine ⟨before, entry, later, showInt v, lost, hentries, hlost.symm, showInt_ne_nil v, ?_,
      htorn⟩
    rintro rfl
    rw [List.append_nil] at hlost
    exact hdiff (congrArg scanD (showInt_inj hlost))
  · rintro ⟨before, entry, later, digits, lost, rfl, hdigits, hne, hlost, rfl⟩
    obtain ⟨count, hcount⟩ := hint entry (by simp)
    have hok := accepted_of_replayLog_append hreplays
    have hrecord : entry.record.count = count := by
      rw [LogEntry.record, hcount, scanD_toInt]
    have hpos : 0 < count := by
      rw [← hrecord]
      by_contra hbad
      rw [applyAofRecord, if_pos (Or.inr (Int32.not_lt.mp hbad))] at hok
      cases hok
    have hpre : digits <+: showInt count.toInt := ⟨lost, by rw [← hdigits, hcount]⟩
    obtain ⟨front, rfl, hfront, hle⟩ := int32_of_prefix hpos hne hpre
    refine ⟨before, entry, later, front.toInt, rfl, rfl, hcount ▸ hpre, ?_, ?_⟩
    · rw [hcount, scanD_toInt, scanD_toInt]
      rintro rfl
      rw [hcount] at hdigits
      exact hlost (List.self_eq_append_right.mp hdigits)
    · have hsmaller : front ≤ entry.record.count := by
        rw [hrecord]
        exact hle
      rw [scanD_toInt]
      exact @accepted_of_count_le _ entry.record _ hok hfront hsmaller

end StockServer
