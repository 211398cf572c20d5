import StockServer.Response
import StockServer.Lib.FsProgram

set_option relaxedAutoImplicit false
set_option autoImplicit false

/-!
# The data files

What `stock_persistence.c` reads and writes, apart from the file-system calls: the names under
`./data`, the lines of init files, snapshots, append-only logs and the manifest, and the
application of their records to a store.

## Main definitions

* `parseGenerationSuffix`, `buildGenerationPath`, `buildDataPath` — names of generation files.
* `parseStockRecordLine`, `parseAofRecordLine`, `parseManifestLine` — the line parsers.
* `applyStockRecord`, `applyAofRecord`, `applyLines` — the records of a file, line by line.
* `snapshotText`, `manifestText` — the contents of a snapshot and of a manifest.
* `Storable` — a record that a base image may hold.

## Main results

* `parseGenerationSuffix_eq_some_iff` — the names that are read as the file of a generation.
* `parseGenerationSuffix_generationName`, `artifactGeneration_generationName` — a generation file is
  recognized by its name.
* `Ordered.applyLines` — loading keeps the search order.
* `readManifest_manifestText` — a manifest is read back as the generation written.
-/

namespace StockServer

open SearchTree

/-! ## Names

A name is a path with `./data/` stripped; all files are in that directory. -/

/-- `STOCK_INIT_PATH`. -/
def stockInitName : Name := ascii "stock_init.txt"

/-- `STOCK_SNAPSHOT_NAME`, `STOCK_SNAPSHOT_PREFIX`. -/
def stockSnapshotName : Name := ascii "stock.snapshot"

/-- `STOCK_AOF_NAME`, `STOCK_AOF_PREFIX`. -/
def stockAofName : Name := ascii "stock.aof"

/-- `STOCK_BOOTSTRAP_MARKER_NAME`. -/
def stockBootstrapMarkerName : Name := ascii "stock.bootstraping"

/-- `STOCK_MANIFEST_NAME`. -/
def stockManifestName : Name := ascii "stock.manifest"

/-- `STOCK_MANIFEST_TMP_NAME`. -/
def stockManifestTmpName : Name := ascii "stock.manifest.tmp"

/-- `STOCK_PATH_SIZE`. -/
def stockPathSize : ℕ := 256

/-- The path of a name. -/
def dataPath (name : Name) : Bytes := ascii "./data/" ++ name

/-- `build_data_path`; `none` for `STOCK_ERR_INTERNAL`. -/
def buildDataPath (name : Name) : Option Name :=
  if (dataPath name).length ≥ stockPathSize then none else some name

/-- The name of a generation file. -/
def generationName (base : Name) (gen : StockGen) : Name := base ++ ascii "." ++ showInt gen.toInt

/-- `build_generation_path`; `none` for `STOCK_ERR_INTERNAL`. -/
def buildGenerationPath (base : Name) (gen : StockGen) : Option Name :=
  if (dataPath (generationName base gen)).length ≥ stockPathSize then none
  else some (generationName base gen)

/-- `parse_generation_suffix`. -/
def parseGenerationSuffix (name baseName : Name) : Option StockGen :=
  if baseName.isPrefixOf name then
    match name.drop baseName.length with
    | 46 :: genStr =>
      if genStr = [] then none
      else
        let parsed := strtol genStr
        if parsed.erange ∨ parsed.endptr ≠ [] ∨ parsed.value ≤ 0 then none
        else some (Int64.ofInt parsed.value)
    | _ => none
  else none

/-- The generation of a snapshot or of an append-only log, by its name. -/
def artifactGeneration (name : Name) : Option StockGen :=
  (parseGenerationSuffix name stockSnapshotName).or (parseGenerationSuffix name stockAofName)

/-! ## Lines -/

/-- `stock_parse_status_t`, with the record parsed. -/
inductive Parsed (ρ : Type) where
  | ok (record : ρ)
  | skip
  | err
  deriving DecidableEq, Repr

/-- `is_blank_line`. -/
def isBlankLine (line : Bytes) : Bool := line.all isspace

/-- `parse_stock_record_line`, format `" %d %d %d %c"`. -/
def parseStockRecordLine (line : Bytes) : Parsed StockRecord :=
  if isBlankLine line then .skip
  else match sscanf [.blank, .d, .blank, .d, .blank, .d, .blank, .c] line with
    | (3, [.d id, .d leftStock, .d price]) => .ok ⟨id, leftStock, price⟩
    | _ => .err

/-- `parse_aof_record_line`, format `" %15s %d %d %c"`. -/
def parseAofRecordLine (line : Bytes) : Parsed StockLogRecord :=
  if isBlankLine line then .skip
  else match sscanf [.blank, .s 15, .blank, .d, .blank, .d, .blank, .c] line with
    | (3, [.s op, .d id, .d count]) =>
      if op = ascii "BUY" then .ok ⟨.buy, id, count⟩
      else if op = ascii "SELL" then .ok ⟨.sell, id, count⟩
      else .err
    | _ => .err

/-- `parse_manifest_line`, format `" %15s %lld %c"`. -/
def parseManifestLine (line : Bytes) : Parsed StockManifest :=
  if isBlankLine line then .skip
  else match sscanf [.blank, .s 15, .blank, .lld, .blank, .c] line with
    | (2, [.s key, .lld gen]) => if key ≠ ascii "gen" ∨ gen ≤ 0 then .err else .ok ⟨gen⟩
    | _ => .err

/-! ## Records -/

/-- `apply_stock_record`. -/
def applyStockRecord (store : StockStore) (record : StockRecord) : StockStatus × StockStore :=
  if record.id ≤ 0 ∨ record.leftStock < 0 ∨ record.price < 0 then (.errInvalid, store)
  else if (stockStoreFindNolock store record.id).1 = .ok then (.errInvalid, store)
  else stockStoreUpsertNolock store record.id record.leftStock record.price

/-- `apply_aof_record`. -/
def applyAofRecord (store : StockStore) (record : StockLogRecord) : StockStatus × StockStore :=
  if record.id ≤ 0 ∨ record.count ≤ 0 then (.errInvalid, store)
  else stockStoreApplyDeltaNolock store record.id
    (if record.op = .buy then -record.count else record.count)

/-- One line of the loop in `load_stock_file_into_store` and `replay_aof_into_store`. -/
def applyLine {ρ : Type} (parse : Bytes → Parsed ρ)
    (apply : StockStore → ρ → StockStatus × StockStore) (store : StockStore) (line : Bytes) :
    StockStatus × StockStore :=
  match parse (cstr line) with
  | .skip => (.ok, store)
  | .err => (.errInvalid, store)
  | .ok record => apply store record

/-- The loop over the lines, up to the first that is refused. -/
def applyLines (step : StockStore → Bytes → StockStatus × StockStore) (store : StockStore) :
    List Bytes → StockStatus × StockStore
  | [] => (.ok, store)
  | line :: lines =>
    let next := step store line
    if next.1 ≠ .ok then next else applyLines step next.2 lines

/-- A line of an init file or a snapshot. -/
def loadLine : StockStore → Bytes → StockStatus × StockStore :=
  applyLine parseStockRecordLine applyStockRecord

/-- A line of an append-only log. -/
def replayLine : StockStore → Bytes → StockStatus × StockStore :=
  applyLine parseAofRecordLine applyAofRecord

/-- The loop of `read_manifest_generation`, with the generation seen so far. -/
def readManifest (seen : Option StockGen) : List Bytes → StockStatus × Option StockGen
  | [] => (.ok, seen)
  | line :: lines =>
    match parseManifestLine (cstr line) with
    | .skip => readManifest seen lines
    | .err => (.errInvalid, seen)
    | .ok manifest =>
      if seen.isSome then (.errInvalid, seen) else readManifest (some manifest.gen) lines

/-- The lines `fgets` delivers of a file, with a buffer of `MAXLINE` bytes. -/
def fileLines (data : Bytes) : List Bytes := pieces (maxLine - 1) data

/-! ## Texts -/

/-- The text of a snapshot. -/
def snapshotText (store : StockStore) : Bytes := (inorder store).flatMap stockLine

/-- `"gen %lld\n"`. -/
def manifestText (gen : StockGen) : Bytes := ascii "gen " ++ showInt gen.toInt ++ [newline]

/-- A record that `apply_stock_record` accepts. -/
structure Storable (item : StockItem) : Prop where
  id_pos : 0 < item.id
  leftStock_nonneg : 0 ≤ item.leftStock
  price_nonneg : 0 ≤ item.price

/-! ## Lines are read back -/

/-- A line with a byte that is no white space is not blank. -/
theorem isBlankLine_eq_false {line : Bytes} {b : UInt8} (hb : b ∈ line) (h : isspace b = false) :
    isBlankLine line = false := by
  rw [isBlankLine, List.all_eq_false]
  exact ⟨b, hb, by simp [h]⟩

/-- **A snapshot line is read back** as the record it was printed from. -/
theorem parseStockRecordLine_stockLine (item : StockItem) :
    parseStockRecordLine (stockLine item) = .ok ⟨item.id, item.leftStock, item.price⟩ := by
  have hspace : ∀ (s : Bytes) (b : UInt8), (32 :: s).head? = some b → isdigit b = false := by
    rintro s b ⟨⟩
    decide
  have hnewline : ∀ b : UInt8, [newline].head? = some b → isdigit b = false := by
    rintro b ⟨⟩
    decide
  have hend : sscanfAux [.blank, .c] [newline] = ([], true) := by decide
  have hscan : sscanf [.blank, .d, .blank, .d, .blank, .d, .blank, .c] (stockLine item) =
      (3, [.d item.id, .d item.leftStock, .d item.price]) := by
    rw [sscanf, stockLine_eq, sscanfAux_d _ _ (hspace _), sscanfAux_space,
      sscanfAux_d _ _ (hspace _), sscanfAux_space, sscanfAux_d _ _ hnewline, hend]
    rfl
  obtain ⟨b, s, hs⟩ := List.exists_cons_of_ne_nil (showInt_ne_nil item.id.toInt)
  have hb : b ∈ showInt item.id.toInt := by simp [hs]
  have hblank : isBlankLine (stockLine item) = false :=
    isBlankLine_eq_false (by rw [stockLine_eq]; simp [hb]) (mem_showInt_ne hb).2.2
  simp [parseStockRecordLine, hblank, hscan]

/-- **A manifest line is read back** as the generation it was printed from, if that is positive. -/
theorem parseManifestLine_manifestText (gen : StockGen) :
    parseManifestLine (manifestText gen) = if 0 < gen then .ok ⟨gen⟩ else .err := by
  have htext : manifestText gen = ascii "gen" ++ 32 :: (showInt gen.toInt ++ [newline]) := by
    simp [manifestText, ascii]
  have hnewline : ∀ b : UInt8, [newline].head? = some b → isdigit b = false := by
    rintro b ⟨⟩
    decide
  have hword : ∀ (ds : List Directive) (s : Bytes),
      sscanfAux (.blank :: .s 15 :: ds) (ascii "gen" ++ 32 :: s) =
        (.s (ascii "gen") :: (sscanfAux ds (32 :: s)).1, (sscanfAux ds (32 :: s)).2) := by
    intro ds s
    simp [sscanfAux, ascii, List.takeWhile, isspace]
  have hend : sscanfAux [.blank, .c] [newline] = ([], true) := by decide
  have hscan : sscanf [.blank, .s 15, .blank, .lld, .blank, .c] (manifestText gen) =
      (2, [.s (ascii "gen"), .lld gen]) := by
    rw [sscanf, htext, hword, sscanfAux_space, sscanfAux_lld _ _ hnewline, hend]
    rfl
  have hblank : isBlankLine (manifestText gen) = false :=
    @isBlankLine_eq_false _ 103 (by simp [htext, ascii]) (by decide)
  by_cases hpos : 0 < gen
  · have hle : ¬ gen ≤ 0 := Int64.not_le.mpr hpos
    simp [parseManifestLine, hblank, hscan, hpos, hle]
  · have hle : gen ≤ 0 := Int64.not_lt.mp hpos
    simp [parseManifestLine, hblank, hscan, hpos, hle]

/-! ## Generation names are recognized -/

/-- A generation name is its base, a dot and the number. -/
theorem generationName_eq (base : Name) (gen : StockGen) :
    generationName base gen = base ++ 46 :: showInt gen.toInt := by
  simp [generationName, ascii]

/-- **What `parse_generation_suffix` accepts**: the base, a dot, and a numeral of a positive number
of 64 bits. -/
theorem parseGenerationSuffix_eq_some_iff {name base : Name} {gen : StockGen} :
    parseGenerationSuffix name base = some gen ↔
      0 < gen ∧ ∃ genStr, name = base ++ 46 :: genStr ∧ Numeral genStr gen.toInt := by
  constructor
  · intro h
    rw [parseGenerationSuffix] at h
    split_ifs at h with hbase
    obtain ⟨suffix, rfl⟩ := List.isPrefixOf_iff_prefix.mp hbase
    rw [List.drop_left] at h
    split at h
    · rename_i genStr
      dsimp only at h
      split_ifs at h with hempty hbad
      obtain rfl := Option.some.inj h
      obtain ⟨herange, hrest⟩ := not_or.mp hbad
      obtain ⟨hendptr, hpos⟩ := not_or.mp hrest
      rw [not_not] at hendptr
      rw [not_le] at hpos
      have hread : strtol genStr = ⟨(strtol genStr).value, [], true, false⟩ := by
        rw [← hendptr, ← found_of_value_ne_zero hpos.ne', ← Bool.eq_false_iff.mpr herange]
      obtain ⟨hnumeral, hmin, hmax⟩ := strtol_eq_iff.mp hread
      unfold longMin at hmin
      unfold longMax at hmax
      have hvalue : (Int64.ofInt (strtol genStr).value).toInt = (strtol genStr).value :=
        Int64.toInt_ofInt_of_le hmin (by omega)
      rw [Int64.lt_iff_toInt_lt, hvalue]
      exact ⟨hpos, genStr, rfl, hnumeral⟩
    · cases h
  · rintro ⟨hpos, genStr, rfl, hnumeral⟩
    have hvalue : 0 < gen.toInt := Int64.lt_iff_toInt_lt.mp hpos
    have hmin := gen.le_toInt
    have hmax := gen.toInt_lt
    have hread : strtol genStr = ⟨gen.toInt, [], true, false⟩ :=
      strtol_eq_iff.mpr ⟨hnumeral, by unfold longMin; omega, by unfold longMax; omega⟩
    have hne : genStr ≠ [] := by
      rintro rfl
      exact absurd (congrArg Strtol.found hread) Bool.false_ne_true
    simp [parseGenerationSuffix, hne, hread, not_le.mpr hvalue]

/-- What follows the base of a generation name is its number, if that is positive. -/
theorem parseGenerationSuffix_generationName (base : Name) (gen : StockGen) :
    parseGenerationSuffix (generationName base gen) base = if 0 < gen then some gen else none := by
  by_cases hpos : 0 < gen
  · have hvalue : 0 < gen.toInt := Int64.lt_iff_toInt_lt.mp hpos
    simp [parseGenerationSuffix, generationName_eq, showInt_ne_nil, strtol_showInt, hpos, hvalue]
  · have hvalue : gen.toInt ≤ 0 := not_lt.mp fun h => hpos (Int64.lt_iff_toInt_lt.mpr h)
    simp [parseGenerationSuffix, generationName_eq, showInt_ne_nil, strtol_showInt, hpos, hvalue]

/-- Generation names of one base differ when their generations do. -/
theorem generationName_inj {base : Name} {gen gen' : StockGen}
    (h : generationName base gen = generationName base gen') : gen = gen' := by
  rw [generationName_eq, generationName_eq, List.append_cancel_left_eq] at h
  have hvalue := congrArg (fun s => (strtol s).value) (List.cons.inj h).2
  simp only [strtol_showInt] at hvalue
  exact Int64.toInt_inj.mp hvalue

/-- A snapshot and a log are artifacts of their generation, if that is positive. -/
theorem artifactGeneration_generationName {base : Name} (gen : StockGen)
    (hbase : base = stockSnapshotName ∨ base = stockAofName) :
    artifactGeneration (generationName base gen) = if 0 < gen then some gen else none := by
  rcases hbase with rfl | rfl
  · have hother : parseGenerationSuffix (generationName stockSnapshotName gen) stockAofName =
        none := by
      simp [parseGenerationSuffix, generationName, stockSnapshotName, stockAofName, ascii,
        List.isPrefixOf]
    rw [artifactGeneration, hother, parseGenerationSuffix_generationName, Option.or_none]
  · have hother : parseGenerationSuffix (generationName stockAofName gen) stockSnapshotName =
        none := by
      simp [parseGenerationSuffix, generationName, stockSnapshotName, stockAofName, ascii,
        List.isPrefixOf]
    rw [artifactGeneration, hother, parseGenerationSuffix_generationName, Option.none_or]

/-- The generation of an artifact is positive. -/
theorem pos_of_artifactGeneration {name : Name} {gen : StockGen}
    (h : artifactGeneration name = some gen) : 0 < gen := by
  rw [artifactGeneration] at h
  rcases Option.or_eq_some_iff.mp h with h | ⟨-, h⟩
  · exact (parseGenerationSuffix_eq_some_iff.mp h).1
  · exact (parseGenerationSuffix_eq_some_iff.mp h).1

/-- Paths of generation files fit the path buffer. -/
theorem buildGenerationPath_eq {base : Name} (gen : StockGen)
    (hbase : base = stockSnapshotName ∨ base = stockAofName) :
    buildGenerationPath base gen = some (generationName base gen) := by
  have hlen : (showInt gen.toInt).length ≤ 19 + 1 := by
    have h₁ := gen.le_toInt
    have h₂ := gen.toInt_lt
    exact length_showInt_le (by omega) (by omega)
  have hbase' : base.length ≤ 14 := by rcases hbase with rfl | rfl <;> decide
  have hdir : (ascii "./data/").length = 7 := rfl
  have hdot : (ascii ".").length = 1 := rfl
  rw [buildGenerationPath, if_neg]
  simp only [dataPath, generationName, List.length_append, stockPathSize]
  omega

/-! ## Loading -/

/-- Loading a file keeps the search order when each line does. -/
theorem Ordered.applyLines {step : StockStore → Bytes → StockStatus × StockStore}
    (hstep : ∀ store line, Ordered store → Ordered (step store line).2) {store : StockStore}
    (h : Ordered store) (lines : List Bytes) : Ordered (applyLines step store lines).2 := by
  induction lines generalizing store with
  | nil => exact h
  | cons line lines ih =>
    simp only [StockServer.applyLines]
    split_ifs
    · exact hstep store line h
    · exact ih (hstep store line h)

/-- A line of a log keeps the search order. -/
theorem Ordered.replayLine {store : StockStore} (h : Ordered store) (line : Bytes) :
    Ordered (replayLine store line).2 := by
  simp only [StockServer.replayLine, applyLine]
  split
  · exact h
  · exact h
  · rename_i record _
    simp only [applyAofRecord]
    split_ifs
    · exact h
    · exact h.applyDelta _ _
    · exact h.applyDelta _ _

/-- **A manifest is read back** as the generation it was written for, if that is positive. -/
theorem readManifest_manifestText (gen : StockGen) :
    readManifest none (fileLines (manifestText gen)) =
      if 0 < gen then (.ok, some gen) else (.errInvalid, none) := by
  have hline : ∀ b ∈ ascii "gen " ++ showInt gen.toInt, b ≠ 0 ∧ b ≠ newline := by
    intro b hb
    have hbytes : ascii "gen " = [103, 101, 110, 32] := rfl
    have hgen : ∀ b ∈ ascii "gen ", b ≠ 0 ∧ b ≠ newline := by
      rw [hbytes]
      simp [newline]
    rcases List.mem_append.mp hb with hb | hb
    · exact hgen b hb
    · exact ⟨(mem_showInt_ne hb).1, (mem_showInt_ne hb).2.1⟩
  have hlen : (ascii "gen " ++ showInt gen.toInt).length < maxLine - 1 := by
    have h₁ := gen.le_toInt
    have h₂ := gen.toInt_lt
    have hshow := @length_showInt_le gen.toInt 19 (by omega) (by omega)
    have hgen : (ascii "gen ").length = 4 := rfl
    simp only [List.length_append, maxLine]
    omega
  have hpieces : fileLines (manifestText gen) = [manifestText gen] := by
    rw [fileLines, manifestText, pieces_append_line (fun b hb => (hline b hb).2) hlen]
    rfl
  have hcstr : cstr (manifestText gen) = manifestText gen := by
    apply cstr_eq_self
    intro b hb
    rcases List.mem_append.mp hb with hb | hb
    · exact (hline b hb).1
    · obtain rfl := List.mem_singleton.mp hb
      decide
  by_cases hpos : 0 < gen <;>
    simp [hpieces, readManifest, hcstr, parseManifestLine_manifestText, hpos]

end StockServer
