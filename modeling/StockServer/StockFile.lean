import StockServer.Records

set_option relaxedAutoImplicit false
set_option autoImplicit false

/-!
# Loading an init file or a snapshot

Which lines the loop of `load_stock_file_into_store` accepts, and what it makes of them.  It tests
every record against the tree it has built so far, so that a duplicate is found depends on the
search in a tree whose shape is the order of the lines; the answer does not depend on that order.

## Main definitions

* `lineRecord`, `fileRecords` — the record of a line, and those of a sequence of lines.
* `GoodLine` — a blank line, or one with a record in range.
* `Loadable` — the lines are good and no id occurs twice.

## Main results

* `applyLines_ok_iff` — the loop accepts exactly the good lines of new and distinct ids.
* `findStockItem_applyLines` — the store then holds the records, and what it held.
* `storable_of_load` — what is loaded is storable.
* `applyLines_snapshotText`, `sameMap_of_snapshotText` — **a snapshot is read back** as the map it
  was written from.
-/

namespace StockServer

open SearchTree

/-- The record that a line is parsed to. -/
def lineRecord (line : Bytes) : Option StockRecord :=
  match parseStockRecordLine (cstr line) with
  | .ok record => some record
  | _ => none

/-- The records that a sequence of lines is parsed to. -/
def fileRecords (lines : List Bytes) : List StockRecord := lines.filterMap lineRecord

/-- A record in the range of an init file. -/
def StockRecord.InRange (record : StockRecord) : Prop :=
  1 ≤ record.id ∧ 0 ≤ record.leftStock ∧ 0 ≤ record.price

instance (record : StockRecord) : Decidable record.InRange := inferInstanceAs (Decidable (_ ∧ _))

/-- The line is blank, or is parsed to a record in range. -/
def GoodLine (line : Bytes) : Prop :=
  isBlankLine (cstr line) = true ∨
    ∃ record, parseStockRecordLine (cstr line) = .ok record ∧ record.InRange

/-- Every line is good, and no id occurs twice. -/
structure Loadable (lines : List Bytes) : Prop where
  lines_good : ∀ line ∈ lines, GoodLine line
  ids_nodup : ((fileRecords lines).map StockRecord.id).Nodup

/-- The record of an item. -/
def StockItem.record (item : StockItem) : StockRecord := ⟨item.id, item.leftStock, item.price⟩

/-! ## One line -/

/-- Blank lines are those that are skipped. -/
theorem parseStockRecordLine_eq_skip {line : Bytes} :
    parseStockRecordLine line = .skip ↔ isBlankLine line = true := by
  unfold parseStockRecordLine
  split_ifs with hblank
  · simp [hblank]
  · simp only [hblank, Bool.false_eq_true, iff_false]
    split <;> simp

/-- Only blank lines and records are good. -/
theorem goodLine_iff (line : Bytes) : GoodLine line ↔
    match parseStockRecordLine (cstr line) with
    | .skip => True
    | .err => False
    | .ok record => record.InRange := by
  rw [GoodLine, ← parseStockRecordLine_eq_skip]
  cases parseStockRecordLine (cstr line) <;> simp

/-- A record is accepted if it is in range and its id is new, and then inserted; else it is
invalid. -/
theorem applyStockRecord_eq (store : StockStore) (record : StockRecord) :
    applyStockRecord store record =
      if record.InRange ∧ findStockItem store record.id = none then
        (.ok, upsertStockItem store record.id record.leftStock record.price)
      else (.errInvalid, store) := by
  have hrange : record.InRange ↔ ¬ (record.id ≤ 0 ∨ record.leftStock < 0 ∨ record.price < 0) := by
    rw [StockRecord.InRange, not_or, not_or, Int32.not_le, Int32.not_lt, Int32.not_lt]
    exact and_congr_left fun _ => one_le_iff_pos
  have hnew : (stockStoreFindNolock store record.id).1 = .ok ↔
      findStockItem store record.id ≠ none := by
    rw [stockStoreFindNolock]
    cases findStockItem store record.id <;> simp
  simp only [applyStockRecord, hnew, hrange, stockStoreUpsertNolock]
  split_ifs <;> simp_all

/-- **What a line does**: it is skipped, or inserts a record of a new id, or is refused. -/
theorem loadLine_cases (store : StockStore) (line : Bytes) :
    lineRecord line = none ∧ GoodLine line ∧ loadLine store line = (.ok, store) ∨
      (∃ record, lineRecord line = some record ∧ GoodLine line ∧
        findStockItem store record.id = none ∧ loadLine store line =
          (.ok, upsertStockItem store record.id record.leftStock record.price)) ∨
      (GoodLine line → ∃ record, lineRecord line = some record ∧
        findStockItem store record.id ≠ none) ∧ loadLine store line = (.errInvalid, store) := by
  simp only [goodLine_iff, lineRecord, loadLine, applyLine]
  cases parseStockRecordLine (cstr line) with
  | skip => simp
  | err => simp
  | ok record =>
    dsimp only
    rw [applyStockRecord_eq]
    by_cases hgood : record.InRange <;> by_cases hnew : findStockItem store record.id = none <;>
      simp [hgood, hnew]

/-! ## All lines -/

/-- The lines are good, and their ids are distinct and new to the store. -/
def LoadableInto (store : StockStore) (lines : List Bytes) : Prop :=
  Loadable lines ∧ ∀ record ∈ fileRecords lines, findStockItem store record.id = none

/-- Lines can be loaded when the first is accepted and the others can be loaded after it. -/
theorem loadableInto_cons (store : StockStore) (line : Bytes) (lines : List Bytes) :
    LoadableInto store (line :: lines) ↔
      (loadLine store line).1 = .ok ∧ LoadableInto (loadLine store line).2 lines := by
  have hgood : Loadable (line :: lines) ↔ GoodLine line ∧ (∀ l ∈ lines, GoodLine l) ∧
      ((fileRecords (line :: lines)).map StockRecord.id).Nodup := by
    constructor
    · intro h
      exact ⟨h.lines_good line (by simp), fun l hl => h.lines_good l (by simp [hl]), h.ids_nodup⟩
    · rintro ⟨hline, hlines, hnodup⟩
      exact ⟨List.forall_mem_cons.mpr ⟨hline, hlines⟩, hnodup⟩
  rcases loadLine_cases store line with
    ⟨hrecord, hline, hload⟩ | ⟨record, hrecord, hline, hnew, hload⟩ | ⟨hrefused, hload⟩
  · have hrecords : fileRecords (line :: lines) = fileRecords lines := by
      simp [fileRecords, hrecord]
    rw [hload, LoadableInto, hgood, hrecords]
    constructor
    · rintro ⟨⟨-, hlines, hnodup⟩, hnone⟩
      exact ⟨rfl, ⟨hlines, hnodup⟩, hnone⟩
    · rintro ⟨-, ⟨hlines, hnodup⟩, hnone⟩
      exact ⟨⟨hline, hlines, hnodup⟩, hnone⟩
  · have hrecords : fileRecords (line :: lines) = record :: fileRecords lines := by
      simp [fileRecords, hrecord]
    have hother : (∀ r ∈ fileRecords lines, findStockItem
        (upsertStockItem store record.id record.leftStock record.price) r.id = none) ↔
        ∀ r ∈ fileRecords lines, r.id ≠ record.id ∧ findStockItem store r.id = none := by
      refine forall₂_congr fun r _ => ?_
      rw [findStockItem_upsert]
      split_ifs with hid <;> simp [hid]
    rw [hload, LoadableInto, LoadableInto, hgood, hrecords, List.map_cons, List.nodup_cons,
      hother]
    constructor
    · rintro ⟨⟨-, hlines, hfresh, hnodup⟩, hnone⟩
      refine ⟨rfl, ⟨hlines, hnodup⟩, fun r hr => ⟨?_, hnone r (by simp [hr])⟩⟩
      intro hid
      exact hfresh (hid ▸ List.mem_map_of_mem hr)
    · rintro ⟨-, ⟨hlines, hnodup⟩, hnone⟩
      refine ⟨⟨hline, hlines, ?_, hnodup⟩, ?_⟩
      · intro hmem
        obtain ⟨r, hr, hid⟩ := List.mem_map.mp hmem
        exact (hnone r hr).1 hid
      · exact List.forall_mem_cons.mpr ⟨hnew, fun r hr => (hnone r hr).2⟩
  · rw [hload]
    refine iff_of_false ?_ (by simp)
    rintro ⟨hloadable, hnone⟩
    obtain ⟨record, hrecord, hfound⟩ := hrefused (hgood.mp hloadable).1
    exact hfound (hnone record (by simp [fileRecords, hrecord]))

/-- **The loop accepts exactly the good lines of new and distinct ids**, and reports everything else
as invalid. -/
theorem applyLines_ok_iff (store : StockStore) (lines : List Bytes) :
    ((applyLines loadLine store lines).1 = .ok ↔ LoadableInto store lines) ∧
      ((applyLines loadLine store lines).1 = .ok ∨
        (applyLines loadLine store lines).1 = .errInvalid) := by
  induction lines generalizing store with
  | nil =>
    refine ⟨iff_of_true rfl ⟨⟨by simp, by simp [fileRecords]⟩, by simp [fileRecords]⟩, Or.inl rfl⟩
  | cons line lines ih =>
    rw [loadableInto_cons]
    simp only [applyLines]
    split_ifs with hfirst
    · refine ⟨iff_of_false hfirst fun h => hfirst h.1, ?_⟩
      rcases loadLine_cases store line with ⟨-, -, hload⟩ | ⟨_, -, -, -, hload⟩ | ⟨-, hload⟩
      · exact Or.inl (by rw [hload])
      · exact Or.inl (by rw [hload])
      · exact Or.inr (by rw [hload])
    · rw [not_not] at hfirst
      exact ⟨(ih _).1.trans (and_iff_right hfirst).symm, (ih _).2⟩

/-- An empty store accepts exactly the lines that are loadable. -/
theorem applyLines_nil_ok_iff (lines : List Bytes) :
    (applyLines loadLine .nil lines).1 = .ok ↔ Loadable lines :=
  (applyLines_ok_iff .nil lines).1.trans (and_iff_left fun _ _ => rfl)

/-- **The store then holds the records**, and what it held before. -/
theorem findStockItem_applyLines {store : StockStore} {lines : List Bytes}
    (h : (applyLines loadLine store lines).1 = .ok) (id : Int32) (item : StockItem) :
    findStockItem (applyLines loadLine store lines).2 id = some item ↔
      item.record ∈ fileRecords lines ∧ item.id = id ∨ findStockItem store id = some item := by
  induction lines generalizing store with
  | nil => simp [applyLines, fileRecords]
  | cons line lines ih =>
    simp only [applyLines] at h ⊢
    split_ifs at h ⊢ with hfirst
    · exact absurd h hfirst
    rw [ih h]
    rcases loadLine_cases store line with
      ⟨hrecord, -, hload⟩ | ⟨record, hrecord, -, hnew, hload⟩ | ⟨-, hload⟩
    · have hrecords : fileRecords (line :: lines) = fileRecords lines := by
        simp [fileRecords, hrecord]
      rw [hload, hrecords]
    · have hrecords : fileRecords (line :: lines) = record :: fileRecords lines := by
        simp [fileRecords, hrecord]
      have hitem : item.record = record ↔
          (⟨record.id, record.leftStock, record.price⟩ : StockItem) = item :=
        ⟨fun h => by rw [← h]; rfl, fun h => by rw [← h]; rfl⟩
      rw [hload, hrecords, List.mem_cons, findStockItem_upsert]
      by_cases hid : id = record.id
      · subst hid
        rw [if_pos rfl, hnew, Option.some.injEq, ← hitem]
        constructor
        · rintro (⟨hmem, hid⟩ | heq)
          · exact Or.inl ⟨Or.inr hmem, hid⟩
          · exact Or.inl ⟨Or.inl heq, congrArg StockRecord.id heq⟩
        · rintro (⟨heq | hmem, hid⟩ | hnone)
          · exact Or.inr heq
          · exact Or.inl ⟨hmem, hid⟩
          · cases hnone
      · have hother : ¬ (item.record = record ∧ item.id = id) := by
          rintro ⟨heq, rfl⟩
          exact hid (congrArg StockRecord.id heq)
        rw [if_neg hid]
        tauto
    · rw [hload] at hfirst
      exact absurd (by simp) hfirst

/-- A line keeps the search order. -/
theorem Ordered.loadLine {store : StockStore} (h : Ordered store) (line : Bytes) :
    Ordered (loadLine store line).2 := by
  rcases loadLine_cases store line with
    ⟨-, -, hload⟩ | ⟨record, -, -, -, hload⟩ | ⟨-, hload⟩
  · rw [hload]
    exact h
  · rw [hload]
    exact h.upsert _ _ _
  · rw [hload]
    exact h

/-- The records of good lines are in range. -/
theorem inRange_of_mem_fileRecords {lines : List Bytes} (h : ∀ line ∈ lines, GoodLine line)
    {record : StockRecord} (hmem : record ∈ fileRecords lines) : record.InRange := by
  obtain ⟨line, hline, hrecord⟩ := List.mem_filterMap.mp hmem
  have hgood := (goodLine_iff line).mp (h line hline)
  unfold lineRecord at hrecord
  cases hparse : parseStockRecordLine (cstr line) with
  | skip =>
    rw [hparse] at hrecord
    cases hrecord
  | err =>
    rw [hparse] at hrecord
    cases hrecord
  | ok parsed =>
    rw [hparse] at hgood hrecord
    obtain rfl := Option.some.inj hrecord
    exact hgood

/-- A storable item is one whose record is in range. -/
theorem storable_iff_inRange (item : StockItem) : Storable item ↔ item.record.InRange := by
  constructor
  · rintro ⟨hid, hleft, hprice⟩
    exact ⟨one_le_iff_pos.mpr hid, hleft, hprice⟩
  · rintro ⟨hid, hleft, hprice⟩
    exact ⟨one_le_iff_pos.mp hid, hleft, hprice⟩

/-- **A base image holds only storable records.** -/
theorem storable_of_load {lines : List Bytes} {store : StockStore}
    (h : applyLines loadLine .nil lines = (.ok, store)) :
    ∀ item ∈ inorder store, Storable item := by
  have hok : (applyLines loadLine .nil lines).1 = .ok := by rw [h]
  have hord : Ordered (applyLines loadLine .nil lines).2 :=
    .applyLines (fun _ line hs => hs.loadLine line) (ordered_nil _) lines
  have hfind := fun item => findStockItem_applyLines hok item.id item
  rw [h] at hord hfind
  intro item hitem
  have hfound := (hfind item).mp ((findStockItem_eq_some_iff hord).mpr ⟨hitem, rfl⟩)
  have hmem := (hfound.resolve_right (by simp [findStockItem])).1
  have hgood := ((applyLines_ok_iff .nil lines).1.mp hok).1.lines_good
  exact (storable_iff_inRange item).mpr (inRange_of_mem_fileRecords hgood hmem)

/-! ## Snapshots -/

/-- `fgets` delivers a snapshot line by line. -/
theorem fileLines_stockLines (items : List StockItem) :
    fileLines (items.flatMap stockLine) = items.map stockLine := by
  induction items with
  | nil => rfl
  | cons item items ih =>
    have hlen : (showInt item.id.toInt ++ 32 :: (showInt item.leftStock.toInt ++
        32 :: showInt item.price.toInt)).length < maxLine - 1 := by
      have h₁ := length_showInt_int32 item.id
      have h₂ := length_showInt_int32 item.leftStock
      have h₃ := length_showInt_int32 item.price
      simp only [List.length_append, List.length_cons, maxLine]
      omega
    have hpieces := pieces_append_line (fun b hb => (mem_stockLine hb).2) hlen
      (items.flatMap stockLine)
    rw [List.flatMap_cons, List.map_cons, ← ih, fileLines, stockLine_concat,
      List.append_assoc, List.singleton_append, hpieces]
    rfl

/-- A snapshot line is parsed to the record it was printed from. -/
theorem parseStockRecordLine_cstr (item : StockItem) :
    parseStockRecordLine (cstr (stockLine item)) = .ok item.record := by
  have hcstr : cstr (stockLine item) = stockLine item := by
    apply cstr_eq_self
    intro b hb
    rw [stockLine_concat] at hb
    rcases List.mem_append.mp hb with hb | hb
    · exact (mem_stockLine hb).1
    · obtain rfl := List.mem_singleton.mp hb
      decide
  rw [hcstr]
  exact parseStockRecordLine_stockLine item

/-- The records of snapshot lines are those of the items. -/
theorem fileRecords_stockLines (items : List StockItem) :
    fileRecords (items.map stockLine) = items.map StockItem.record := by
  have hline : ∀ item, lineRecord (stockLine item) = some item.record := by
    intro item
    rw [lineRecord, parseStockRecordLine_cstr]
  rw [fileRecords, List.filterMap_map, ← List.filterMap_eq_map]
  exact List.filterMap_congr fun item _ => hline item

/-- A snapshot that is accepted is read back as the map it was written from, whatever was in
it. -/
theorem sameMap_of_snapshotText {store store' : StockStore} (hord : Ordered store)
    (h : applyLines loadLine .nil (fileLines (snapshotText store)) = (.ok, store')) :
    SameMap store' store := by
  rw [snapshotText, fileLines_stockLines] at h
  have hfind := fun id item => findStockItem_applyLines (congrArg Prod.fst h) id item
  rw [h, fileRecords_stockLines] at hfind
  intro id
  ext item
  rw [hfind, findStockItem_eq_some_iff hord]
  have hmem : item.record ∈ (inorder store).map StockItem.record ↔ item ∈ inorder store := by
    refine ⟨fun hrecord => ?_, List.mem_map_of_mem⟩
    obtain ⟨other, hother, heq⟩ := List.mem_map.mp hrecord
    obtain ⟨id, leftStock, price⟩ := other
    cases heq
    exact hother
  rw [hmem]
  exact or_iff_left (by simp [findStockItem])

/-- **A snapshot is read back** as the map it was written from. -/
theorem applyLines_snapshotText {store : StockStore} (hord : Ordered store)
    (hstorable : ∀ item ∈ inorder store, Storable item) :
    ∃ store', applyLines loadLine .nil (fileLines (snapshotText store)) = (.ok, store') ∧
      SameMap store' store := by
  have hloadable : LoadableInto .nil ((inorder store).map stockLine) := by
    refine ⟨⟨?_, ?_⟩, fun _ _ => rfl⟩
    · intro line hline
      obtain ⟨item, hitem, rfl⟩ := List.mem_map.mp hline
      exact Or.inr ⟨item.record, parseStockRecordLine_cstr item,
        (storable_iff_inRange item).mp (hstorable item hitem)⟩
    · rw [fileRecords_stockLines, List.map_map]
      refine List.pairwise_map.mpr (hord.imp fun {a b} hlt heq => ?_)
      exact hlt.ne (congrArg Int32.toInt heq)
  rw [snapshotText, fileLines_stockLines]
  have hok := (applyLines_ok_iff .nil _).1.mpr hloadable
  refine ⟨(applyLines loadLine .nil ((inorder store).map stockLine)).2, Prod.ext hok rfl, ?_⟩
  apply sameMap_of_snapshotText hord
  rw [snapshotText, fileLines_stockLines]
  exact Prod.ext hok rfl

end StockServer
