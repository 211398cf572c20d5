import StockServer.StockFile

set_option relaxedAutoImplicit false
set_option autoImplicit false

/-!
# Recovery and persistence

The functions of `stock_persistence.c` that make file-system calls, as programs over the data
directory.

## Main definitions

* `recoverStockStore`, `materializeStoreGeneration` — the two entry points, and all functions they
  call, under the names of the source.
* `writeFile`, `readFileInto` — what the three functions that write a file durably have in common,
  and the two that read one into a store.
* `manifestOf`, `imageOf` — what the manifest and a file say, as a process sees them.

## Main results

* `ensures_readManifestGeneration`, `ensures_readFileInto` — the readers change nothing and return
  what the files say, or have met a failure.
* `ensures_fsyncParentDir` — a successful fsync makes the directory durable.
* `loadStockFile_iff` — **a file is loaded if and only if it is `Loadable`**, and then gives the map
  of its records, in whatever order they stand.

## Implementation notes

`readdir` delivers no `.` and `..` here; both are skipped by the source.  Closing a stream that was
open for reading has no effect and its result is ignored, so it is left out, and so are the
messages on `stderr`.
-/

namespace StockServer

open Prog SearchTree

/-! ## Helpers -/

/-- `status = first; if (status != STOCK_OK) return status;` and what follows. -/
def ifOk (first rest : Prog StockStatus) : Prog StockStatus := do
  let status ← first
  if status ≠ .ok then return status else rest

/-- `file_exists`. -/
def fileExists (name : Name) : Prog Bool := op (.stat name)

/-- `Close(fd)` of the directory: a failure ends the process. -/
def closeDir : Prog Unit := do
  if ← op .closeDir then return () else Prog.exit 0

/-- `fsync_parent_dir`; all paths are in the data directory. -/
def fsyncParentDir (path : Name) : Prog StockStatus :=
  if (dataPath path).length ≥ stockPathSize then return .errInternal
  else do
    if ← op .openDir then
      if ← op .fsyncDir then
        closeDir
        return .ok
      else
        closeDir
        return .errIo
    else return .errIo

/-! ## Reading -/

/-- `read_manifest_generation`: the status and `*gen`. -/
def readManifestGeneration : Prog (StockStatus × StockGen) := do
  match ← op (.openRead stockManifestName) with
  | .error .notFound => return (.errNotFound, 0)
  | .error .other => return (.errIo, 0)
  | .ok fp =>
    let read ← op (.readLines fp (maxLine - 1))
    match readManifest none read.1 with
    | (.ok, seen) =>
      if read.2 then return (.errIo, 0)
      else match seen with
        | none => return (.errInvalid, 0)
        | some gen => return (.ok, gen)
    | (status, _) => return (status, 0)

/-- The body of `load_stock_file_into_store` and `replay_aof_into_store`: read a file into a store
line by line. -/
def readFileInto (step : StockStore → Bytes → StockStatus × StockStore) (store : StockStore)
    (path : Name) : Prog (StockStatus × StockStore) := do
  match ← op (.openRead path) with
  | .error .notFound => return (.errNotFound, store)
  | .error .other => return (.errIo, store)
  | .ok fp =>
    let read ← op (.readLines fp (maxLine - 1))
    let loaded := applyLines step store read.1
    if loaded.1 ≠ .ok then return loaded
    else if read.2 then return (.errIo, loaded.2)
    else return loaded

/-- `load_stock_file_into_store`. -/
def loadStockFileIntoStore : StockStore → Name → Prog (StockStatus × StockStore) :=
  readFileInto loadLine

/-- `replay_aof_into_store`. -/
def replayAofIntoStore : StockStore → Name → Prog (StockStatus × StockStore) :=
  readFileInto replayLine

/-! ## Writing -/

/-- `fclose(fp); unlink(path); return status;`. -/
def abandon (fp : Ino) (path : Name) (status : StockStatus) : Prog StockStatus := do
  let _ ← op (.close fp)
  let _ ← op (.unlink path)
  return status

/-- `if (status == STOCK_OK && fflush(fp) != 0) status = STOCK_ERR_IO;`. -/
def flushIfOk (fp : Ino) (status : StockStatus) : Prog StockStatus :=
  if status = .ok then do
    if ← op (.flush fp) then return .ok else return .errIo
  else return status

/-- What `save_snapshot_file`, `create_empty_aof_file` and `write_manifest_file` have in common:
open, write the contents, flush, fsync and close, and unlink the file if anything fails. -/
def writeFile (path : Name) (contents : Ino → Prog StockStatus) : Prog StockStatus := do
  match ← op (.openWrite path) with
  | none => return .errIo
  | some fp =>
    let status ← contents fp
    let status ← flushIfOk fp status
    if status ≠ .ok then abandon fp path status
    else if ← op (.fsync fp) then
      if ← op (.close fp) then return .ok
      else
        let _ ← op (.unlink path)
        return .errIo
    else abandon fp path .errIo

/-- `fprintf(fp, …)`, with `STOCK_ERR_IO` for a failure. -/
def printTo (fp : Ino) (text : Bytes) : Prog StockStatus := do
  if ← op (.print fp text) then return .ok else return .errIo

/-- `write_snapshot_node`. -/
def writeSnapshotNode (fp : Ino) (item : StockItem) : Prog StockStatus :=
  printTo fp (stockLine item)

/-- `save_snapshot_file`. -/
def saveSnapshotFile (store : StockStore) (path : Name) : Prog StockStatus :=
  ifOk (writeFile path fun fp => stockStoreInorderWalk (writeSnapshotNode fp) store)
    (fsyncParentDir path)

/-- `create_empty_aof_file`. -/
def createEmptyAofFile (path : Name) : Prog StockStatus :=
  ifOk (writeFile path fun _ => return .ok) (fsyncParentDir path)

/-- `write_manifest_file`. -/
def writeManifestFile (gen : StockGen) : Prog StockStatus :=
  ifOk (writeFile stockManifestTmpName fun fp => printTo fp (manifestText gen)) do
    if ← op (.rename stockManifestTmpName stockManifestName) then
      fsyncParentDir stockManifestName
    else
      let _ ← op (.unlink stockManifestTmpName)
      return .errIo

/-- The loop of `cleanup_old_generation_files`. -/
def cleanupEntries (currentGen : StockGen) : List Name → Prog StockStatus
  | [] => return .ok
  | entry :: entries =>
    match buildDataPath entry with
    | none => return .errInternal
    | some path =>
      if entry = stockManifestTmpName then do
        match ← op (.unlink path) with
        | .error .other => return .errIo
        | _ => cleanupEntries currentGen entries
      else match artifactGeneration entry with
        | none => cleanupEntries currentGen entries
        | some gen =>
          if gen = currentGen then cleanupEntries currentGen entries
          else do
            match ← op (.unlink path) with
            | .error .other => return .errIo
            | _ => cleanupEntries currentGen entries

/-- `cleanup_old_generation_files`. -/
def cleanupOldGenerationFiles (currentGen : StockGen) : Prog StockStatus := do
  match ← op .listDir with
  | none => return .errIo
  | some entries => cleanupEntries currentGen entries

/-- `materialize_store_generation`. -/
def materializeStoreGeneration (store : StockStore) : Prog StockStatus := do
  let (status, gen) ← readManifestGeneration
  if status ≠ .errNotFound ∧ status ≠ .ok then return status
  else
    let currentGen := if status = .errNotFound then 0 else gen
    let nextGen := currentGen + 1
    match buildGenerationPath stockSnapshotName nextGen with
    | none => return .errInternal
    | some snapshotPath =>
      match buildGenerationPath stockAofName nextGen with
      | none => return .errInternal
      | some aofPath =>
        ifOk (saveSnapshotFile store snapshotPath) <| ifOk (createEmptyAofFile aofPath) <|
          ifOk (writeManifestFile nextGen) do
            let _ ← cleanupOldGenerationFiles nextGen
            return .ok

/-! ## Recovery -/

/-- `create_bootstrap_marker`. -/
def createBootstrapMarker : Prog StockStatus := do
  match ← op (.openWrite stockBootstrapMarkerName) with
  | none => return .errIo
  | some fp =>
    if ← op (.close fp) then fsyncParentDir stockBootstrapMarkerName
    else
      let _ ← op (.unlink stockBootstrapMarkerName)
      return .errIo

/-- `remove_bootstrap_marker`. -/
def removeBootstrapMarker : Prog StockStatus := do
  match ← op (.unlink stockBootstrapMarkerName) with
  | .error .notFound => return .ok
  | .error .other => return .errIo
  | .ok () => fsyncParentDir stockBootstrapMarkerName

/-- The entry is an artifact that bootstrap must not find. -/
def blocksBootstrap (entry : Name) : Bool :=
  entry = stockManifestTmpName ∨ (artifactGeneration entry).isSome

/-- `ensure_bootstrap_recovery_state`. -/
def ensureBootstrapRecoveryState : Prog StockStatus := do
  match ← op .listDir with
  | none => return .errIo
  | some entries => if entries.any blocksBootstrap then return .errInvalid else return .ok

/-- `recover_stock_store` without a manifest, up to the test for the init file: clean up after an
interrupted bootstrap, or check that there is nothing to clean up. -/
def prepareBootstrap : Prog StockStatus := do
  if ← fileExists stockBootstrapMarkerName then
    ifOk (cleanupOldGenerationFiles 0) removeBootstrapMarker
  else ensureBootstrapRecoveryState

/-- `recover_stock_store` without a manifest, from the creation of the marker on. -/
def bootstrapStore (liveStore : StockStore) : Prog (StockStatus × StockStore) := do
  let created ← createBootstrapMarker
  if created ≠ .ok then return (created, liveStore)
  else
    let loaded ← loadStockFileIntoStore liveStore stockInitName
    if loaded.1 ≠ .ok then return loaded
    else
      let published ← materializeStoreGeneration loaded.2
      if published ≠ .ok then return (published, loaded.2)
      else
        let removed ← removeBootstrapMarker
        return (removed, loaded.2)

/-- `recover_stock_store` with a manifest: a stale marker is removed if possible. -/
def removeStaleMarker : Prog Unit := do
  if ← fileExists stockBootstrapMarkerName then
    let _ ← removeBootstrapMarker
    return ()
  else return ()

/-- `recover_stock_store` with a manifest: load the snapshot and replay the log of the active
generation. -/
def loadGeneration (liveStore : StockStore) (activeGen : StockGen) :
    Prog (StockStatus × StockStore) :=
  match buildGenerationPath stockSnapshotName activeGen with
  | none => return (.errInternal, liveStore)
  | some snapshotPath =>
    match buildGenerationPath stockAofName activeGen with
    | none => return (.errInternal, liveStore)
    | some aofPath => do
      let loaded ← loadStockFileIntoStore liveStore snapshotPath
      if loaded.1 ≠ .ok then return loaded else replayAofIntoStore loaded.2 aofPath

/-- `recover_stock_store`: the status and the store. -/
def recoverStockStore (liveStore : StockStore) : Prog (StockStatus × StockStore) := do
  let (status, activeGen) ← readManifestGeneration
  if status = .errNotFound then
    let prepared ← prepareBootstrap
    if prepared ≠ .ok then return (prepared, liveStore)
    else if ← fileExists stockInitName then bootstrapStore liveStore
    else return (.errIo, liveStore)
  else if status ≠ .ok then return (status, liveStore)
  else
    removeStaleMarker
    loadGeneration liveStore activeGen

/-! ## What the helpers do -/

variable {ok : Choice → Prop} {crash : Disk → Prop} {d : Disk}

/-- A call that fails. -/
theorem fault {c : Choice} (hc : ok c) (h : c.fail = true) : ∃ c, ok c ∧ ¬ c.Fine :=
  ⟨c, hc, by simp [Choice.Fine, h]⟩

/-- The rule for `ifOk`: the rest goes on from the disks that the first leaves when it succeeds. -/
theorem ensures_ifOk {first rest : Prog StockStatus} {between good bad : Disk → Prop}
    (hfirst : Ensures ok crash (Reports ok .ok between bad) first d)
    (hrest : ∀ d, between d → Ensures ok crash (Reports ok .ok good bad) rest d) :
    Ensures ok crash (Reports ok .ok good bad) (ifOk first rest) d := by
  refine hfirst.bind (fun status d' hcrash h => ?_) (fun code d' _ h => ?_)
  · by_cases hstatus : status = .ok
    · subst hstatus
      rw [if_neg (not_not.mpr rfl)]
      exact hrest d' (h.good rfl)
    · rw [if_pos hstatus, ensures_pure]
      exact ⟨hcrash, Or.inr (h.resolve_left fun hok => hstatus (by simpa using hok.1))⟩
  · exact Or.inr (h.resolve_left fun hok => by cases hok.1)

/-- Closing the directory goes on, or ends the process after a failure. -/
theorem ensures_closeDir {α : Type} {f : Unit → Prog α} {post : Outcome α → Disk → Prop}
    (hcrash : crash d) (hf : Ensures ok crash post (f ()) d)
    (hexit : (∃ c, ok c ∧ ¬ c.Fine) → post (.exited 0) d) :
    Ensures ok crash post (closeDir >>= f) d := by
  rw [closeDir, bind_assoc, ensures_op_bind]
  refine ⟨hcrash, fun c hc => ?_⟩
  cases hfail : c.fail with
  | false => simpa [perform, hfail] using hf
  | true => simpa [perform, hfail, ensures_exit] using ⟨hcrash, hexit (fault hc hfail)⟩

/-- **A successful fsync of the directory makes it durable**; a failed one may have done so. -/
theorem ensures_fsyncParentDir {path : Name} (hpath : (dataPath path).length < stockPathSize)
    (hcrash : crash d) (hsync : crash d.syncDir) :
    Ensures ok crash (Reports ok .ok (· = d.syncDir) fun d' => d' = d ∨ d' = d.syncDir)
      (fsyncParentDir path) d := by
  rw [fsyncParentDir, if_neg (Nat.not_le.mpr hpath), ensures_op_bind]
  refine ⟨hcrash, fun c hc => ?_⟩
  cases hopen : c.fail with
  | true =>
    simp only [perform, hopen, Bool.not_true, Bool.false_eq_true, ↓reduceIte, ensures_pure]
    exact ⟨hcrash, Or.inr ⟨by simp, fault hc hopen, Or.inl rfl⟩⟩
  | false =>
    simp only [perform, hopen, Bool.not_false, ↓reduceIte]
    rw [ensures_op_bind]
    refine ⟨hcrash, fun c hc => ?_⟩
    cases hfsync : c.fail with
    | true =>
      simp only [perform, hfsync, ↓reduceIte, Bool.false_eq_true]
      refine ensures_closeDir hcrash ?_ fun hf => Or.inr ⟨by simp, hf, Or.inl rfl⟩
      exact ⟨hcrash, Or.inr ⟨by simp, fault hc hfsync, Or.inl rfl⟩⟩
    | false =>
      simp only [perform, hfsync, ↓reduceIte, Bool.false_eq_true]
      refine ensures_closeDir hsync ?_ fun hf => Or.inr ⟨by simp, hf, Or.inr rfl⟩
      exact ⟨hsync, Or.inl ⟨rfl, rfl⟩⟩

/-! ## What the readers return -/

/-- What `read_manifest_generation` finds in the manifest. -/
def manifestOf (d : Disk) : StockStatus × StockGen :=
  match d.contents stockManifestName with
  | none => (.errNotFound, 0)
  | some data =>
    match readManifest none (fileLines data) with
    | (.ok, none) => (.errInvalid, 0)
    | (.ok, some gen) => (.ok, gen)
    | (status, _) => (status, 0)

/-- What a file makes of a store when it is read line by line. -/
def imageOf (step : StockStore → Bytes → StockStatus × StockStore) (store : StockStore)
    (d : Disk) (path : Name) : StockStatus × StockStore :=
  match d.contents path with
  | none => (.errNotFound, store)
  | some data => applyLines step store (fileLines data)

/-- A manifest is never reported missing because of its lines. -/
theorem readManifest_status (seen : Option StockGen) (lines : List Bytes) :
    (readManifest seen lines).1 = .ok ∨ (readManifest seen lines).1 = .errInvalid := by
  induction lines generalizing seen with
  | nil => exact Or.inl rfl
  | cons line lines ih =>
    rw [readManifest]
    split
    · exact ih _
    · exact Or.inr rfl
    · split_ifs
      · exact Or.inr rfl
      · exact ih _

/-- **The manifest is read as it is**, or a call has failed and the status says so. -/
theorem ensures_readManifestGeneration (hcrash : crash d) :
    Ensures ok crash (fun r d' => d' = d ∧ (r = .returned (manifestOf d) ∨
      (∃ c, ok c ∧ ¬ c.Fine) ∧ ∃ status, r = .returned (status, 0) ∧ status ≠ .ok ∧
        status ≠ .errNotFound)) readManifestGeneration d := by
  rw [readManifestGeneration, ensures_op_bind]
  refine ⟨hcrash, fun c hc => ?_⟩
  cases hopen : c.fail with
  | true =>
    simp only [perform, hopen, ↓reduceIte]
    exact ⟨hcrash, rfl, Or.inr ⟨fault hc hopen, .errIo, by simp⟩⟩
  | false =>
    cases hl : d.lookup stockManifestName with
    | none =>
      simp only [perform, hopen, Bool.false_eq_true, ↓reduceIte, hl]
      exact ⟨hcrash, rfl, Or.inl (by simp [manifestOf, Disk.contents, hl])⟩
    | some fp =>
      simp only [perform, hopen, Bool.false_eq_true, ↓reduceIte, hl]
      rw [ensures_op_bind]
      refine ⟨hcrash, fun c hc => ?_⟩
      have hcontents := Disk.contents_of_lookup hl
      cases hread : c.fail with
      | true =>
        simp only [perform, hread, ↓reduceIte]
        have hstatus := readManifest_status none
          ((pieces (maxLine - 1) (d.files fp).data).take c.count)
        rcases hm : readManifest none ((pieces (maxLine - 1) (d.files fp).data).take c.count) with
          ⟨status, seen⟩
        rw [hm] at hstatus
        rcases hstatus with rfl | rfl
        · exact ⟨hcrash, rfl, Or.inr ⟨fault hc hread, .errIo, by simp⟩⟩
        · exact ⟨hcrash, rfl, Or.inr ⟨fault hc hread, .errInvalid, by simp⟩⟩
      | false =>
        simp only [perform, hread, Bool.false_eq_true, ↓reduceIte]
        have hstatus := readManifest_status none (pieces (maxLine - 1) (d.files fp).data)
        rcases hm : readManifest none (pieces (maxLine - 1) (d.files fp).data) with
          ⟨status, _ | gen⟩ <;> rw [hm] at hstatus <;> rcases hstatus with rfl | rfl
        all_goals exact ⟨hcrash, rfl, Or.inl (by simp [manifestOf, hcontents, fileLines, hm])⟩

/-- The rule for a program that reads the manifest first: it goes on with what the manifest says, or
a call has failed and it goes on with an error other than `STOCK_ERR_NOT_FOUND`. -/
theorem ensures_readManifest_bind {α : Type} {post : Outcome α → Disk → Prop}
    {f : StockStatus × StockGen → Prog α} (hcrash : crash d)
    (hread : Ensures ok crash post (f (manifestOf d)) d)
    (hfault : ∀ status, (∃ c, ok c ∧ ¬ c.Fine) → status ≠ .ok → status ≠ .errNotFound →
      Ensures ok crash post (f (status, 0)) d) :
    Ensures ok crash post (readManifestGeneration >>= f) d := by
  refine (ensures_readManifestGeneration hcrash).bind (fun read d' _ h => ?_) fun code d' _ h => ?_
  · obtain ⟨rfl, hr | ⟨hfailed, status, hr, hok, hfound⟩⟩ := h
    · obtain rfl := Outcome.returned.inj hr
      exact hread
    · obtain rfl := Outcome.returned.inj hr
      exact hfault status hfailed hok hfound
  · obtain ⟨-, hr | ⟨-, status, hr, -⟩⟩ := h <;> cases hr

/-- A directory without an entry for the manifest. -/
theorem manifestOf_of_lookup (h : d.lookup stockManifestName = none) :
    manifestOf d = (.errNotFound, 0) := by
  rw [manifestOf, Disk.contents, h]
  rfl

/-- **A file is read as it is**, or a call has failed and the status says so. -/
theorem ensures_readFileInto {step : StockStore → Bytes → StockStatus × StockStore}
    {store : StockStore} {path : Name} (hcrash : crash d) :
    Ensures ok crash (fun r d' => d' = d ∧ (r = .returned (imageOf step store d path) ∨
      (∃ c, ok c ∧ ¬ c.Fine) ∧ ∃ status store', r = .returned (status, store') ∧ status ≠ .ok))
      (readFileInto step store path) d := by
  rw [readFileInto, ensures_op_bind]
  refine ⟨hcrash, fun c hc => ?_⟩
  cases hopen : c.fail with
  | true =>
    simp only [perform, hopen, ↓reduceIte]
    exact ⟨hcrash, rfl, Or.inr ⟨fault hc hopen, .errIo, store, by simp⟩⟩
  | false =>
    cases hl : d.lookup path with
    | none =>
      simp only [perform, hopen, Bool.false_eq_true, ↓reduceIte, hl]
      exact ⟨hcrash, rfl, Or.inl (by simp [imageOf, Disk.contents, hl])⟩
    | some fp =>
      simp only [perform, hopen, Bool.false_eq_true, ↓reduceIte, hl]
      rw [ensures_op_bind]
      refine ⟨hcrash, fun c hc => ?_⟩
      have hcontents := Disk.contents_of_lookup hl
      cases hread : c.fail with
      | true =>
        simp only [perform, hread, ↓reduceIte]
        rcases hm : applyLines step store ((pieces (maxLine - 1) (d.files fp).data).take c.count)
          with ⟨status, store'⟩
        by_cases hstatus : status = .ok
        · simp only [hstatus, ne_eq, not_true_eq_false, ↓reduceIte]
          exact ⟨hcrash, rfl, Or.inr ⟨fault hc hread, .errIo, store', by simp⟩⟩
        · simp only [hstatus, ne_eq, not_false_eq_true, ↓reduceIte]
          exact ⟨hcrash, rfl, Or.inr ⟨fault hc hread, status, store', rfl, hstatus⟩⟩
      | false =>
        simp only [perform, hread, Bool.false_eq_true, ↓reduceIte, ite_self]
        exact ⟨hcrash, rfl, Or.inl (by simp [imageOf, hcontents, fileLines])⟩

/-- A file is read whole when no call fails. -/
theorem run_readFileInto_fine {step : StockStore → Bytes → StockStatus × StockStore}
    {store : StockStore} {path : Name} {data : Bytes} (hdata : d.contents path = some data)
    {σ : ℕ → Choice} (hσ : ∀ n, (σ n).Fine) :
    (readFileInto step store path).run d σ =
      (.returned (applyLines step store (fileLines data)), d) := by
  obtain ⟨hdisk, hread⟩ :=
    (@ensures_readFileInto Choice.Fine (fun _ => True) d step store path trivial).run hσ
  have himage : imageOf step store d path = applyLines step store (fileLines data) := by
    rw [imageOf, hdata]
  have hr := hread.resolve_right fun hbad => not_fault hbad.1
  exact Prod.ext (hr.trans (congrArg _ himage)) hdisk

/-- **A file is loaded if and only if it is `Loadable`.**  For every sequence of lines that `fgets`
delivers: loading them into an empty store returns `STOCK_OK` exactly when every line is blank or a
record in range and no id occurs twice; the store is then a search tree that holds exactly the
records, and every permutation of the lines gives the same map; otherwise the status is
`STOCK_ERR_INVALID`.  This is what `load_stock_file_into_store` returns for a file of these lines
that is read without an error. -/
theorem loadStockFile_iff (lines : List Bytes) :
    let loaded := applyLines loadLine .nil lines
    (loaded.1 = .ok ↔ Loadable lines) ∧
      (loaded.1 = .ok → Ordered loaded.2 ∧
        (∀ id item, findStockItem loaded.2 id = some item ↔
          item.record ∈ fileRecords lines ∧ item.id = id) ∧
        ∀ lines', lines'.Perm lines → (applyLines loadLine .nil lines').1 = .ok ∧
          SameMap (applyLines loadLine .nil lines').2 loaded.2) ∧
      (loaded.1 ≠ .ok → loaded.1 = .errInvalid) ∧
      ∀ (d : Disk) (path : Name) (data : Bytes) (σ : ℕ → Choice),
        d.contents path = some data → fileLines data = lines → (∀ n, (σ n).Fine) →
          ((loadStockFileIntoStore .nil path).run d σ).1 = .returned loaded := by
  intro loaded
  have hiff := applyLines_nil_ok_iff
  have hfind : ∀ ls, (applyLines loadLine .nil ls).1 = .ok → ∀ id item,
      findStockItem (applyLines loadLine .nil ls).2 id = some item ↔
        item.record ∈ fileRecords ls ∧ item.id = id := by
    intro ls hls id item
    rw [findStockItem_applyLines hls]
    exact or_iff_left (by simp [findStockItem])
  refine ⟨hiff lines, fun hok => ⟨?_, hfind lines hok, fun lines' hperm => ?_⟩,
    (applyLines_ok_iff .nil lines).2.resolve_left, fun d path data σ hdata hlines hσ => ?_⟩
  · exact Ordered.applyLines (fun _ line hs => hs.loadLine line) (ordered_nil _) lines
  · have hrecords : (fileRecords lines').Perm (fileRecords lines) := hperm.filterMap lineRecord
    have hok' : (applyLines loadLine .nil lines').1 = .ok := by
      obtain ⟨hgood, hnodup⟩ := (hiff lines).mp hok
      refine (hiff lines').mpr ⟨fun line hline => hgood line (hperm.mem_iff.mp hline), ?_⟩
      exact (hrecords.map StockRecord.id).nodup_iff.mpr hnodup
    refine ⟨hok', fun id => ?_⟩
    ext item
    rw [hfind lines' hok', hfind lines hok, hrecords.mem_iff]
  · rw [loadStockFileIntoStore, run_readFileInto_fine hdata hσ, hlines]

end StockServer
