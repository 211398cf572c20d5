import StockServer.Lib.Serial
import StockServer.Cleanup
import StockServer.Generations

set_option relaxedAutoImplicit false
set_option autoImplicit false

/-!
# Publications that are reported as failed

The manifest is switched by a rename, and the rename is followed by one more step that can fail, the
fsync of the directory.  When it does, `materialize_store_generation` returns an error although the
new generation is authoritative.  Every other failure that is reported leaves the manifest and the
files of its generation as they were: all calls before the rename write to files of their own, and
what comes after the fsync is not reported.

## Main definitions

* `publishUpToRename` — the publication of a generation up to the rename, the rename included.
* `callsToRename` — the number of calls up to the rename.
* `authoritativeNames` — the manifest, and the snapshot and the log of its generation.
* `FailedKeeps` — a run that returns an error has left these files as they were.

## Main results

* `serial_publishUpToRename` — the publication gives up at the first failed call before the rename.
* `failedKeeps_iff` — **a failed publication leaves the authoritative files untouched if and only
  if** it is not the fsync behind the rename that has failed.
-/

namespace StockServer

open Prog SearchTree

variable {ok : Choice → Prop} {crash : Disk → Prop} {d : Disk} {ps old : List Pin}
  {store : StockStore} {gen g : StockGen} {n m : ℕ} {σ : ℕ → Choice}

/-! ## Functions that give up at the first failed call -/

/-- One step after another. -/
theorem serial_ifOk {first rest : Prog StockStatus} (hfirst : Serial .ok n first)
    (hrest : Serial .ok m rest) : Serial .ok (m + n) (ifOk first rest) := by
  refine hfirst.bind ?_ fun status hstatus => ?_
  · rw [if_neg (not_not.mpr rfl)]
    exact hrest
  · rw [if_pos hstatus]
    exact hstatus

/-- `fsync_parent_dir`. -/
theorem serial_fsyncParentDir {path : Name} (hpath : (dataPath path).length < stockPathSize) :
    Serial .ok 3 (fsyncParentDir path) := by
  rw [fsyncParentDir, if_neg (Nat.not_le.mpr hpath), serial_op_bind]
  refine serial_bool ?_ fun h => by cases h
  rw [if_pos rfl, serial_op_bind]
  refine serial_bool ?_ ?_
  · exact serial_bool rfl trivial
  · rintro (_ | _)
    · trivial
    · exact fun h => by cases h

/-- A print. -/
theorem serial_printTo {fp : Ino} {text : Bytes} : Serial .ok 1 (printTo fp text) := by
  rw [printTo, serial_op_bind]
  exact serial_bool rfl fun h => by cases h

/-- The prints of a list of items. -/
theorem serial_visitAll {fp : Ino} (items : List StockItem) :
    Serial .ok items.length (visitAll (writeSnapshotNode fp) items) := by
  induction items with
  | nil => rfl
  | cons item items ih =>
    have hrest := serial_ifOk (@serial_printTo fp (stockLine item)) ih
    simpa [visitAll, writeSnapshotNode, ifOk] using hrest

/-- What the three functions that write a file have in common. -/
theorem serial_writeFile {path : Name} {contents : Ino → Prog StockStatus}
    (hcontents : ∀ fp, Serial .ok n (contents fp)) :
    Serial .ok (3 + n + 1) (writeFile path contents) := by
  rw [writeFile, serial_op_bind]
  rintro (_ | fp)
  · refine ⟨?_, fun _ h => by cases h⟩
    rintro ⟨i, hi⟩
    cases hi
  refine ⟨fun _ => ?_, fun h => absurd ⟨fp, rfl⟩ h⟩
  have habandon : ∀ status : StockStatus, status ≠ .ok → Never .ok (abandon fp path status) :=
    fun status hstatus _ _ => hstatus
  refine (hcontents fp).bind ?_ fun status hstatus => ?_
  · rw [flushIfOk, if_pos rfl, bind_assoc, serial_op_bind]
    refine serial_bool ?_ (habandon .errIo (by decide))
    refine serial_bool ?_ (habandon .errIo (by decide))
    exact serial_bool rfl fun _ h => by cases h
  · rw [flushIfOk, if_neg hstatus, pure_bind, if_pos hstatus]
    exact habandon status hstatus

/-! ## Up to the rename -/

/-- `write_manifest_file`, the rename. -/
def renameManifest : Prog StockStatus := do
  if ← op (.rename stockManifestTmpName stockManifestName) then return .ok
  else
    let _ ← op (.unlink stockManifestTmpName)
    return .errIo

/-- The publication of a generation up to the rename of the manifest. -/
def publishUpToRename (store : StockStore) (gen : StockGen) : Prog StockStatus :=
  ifOk (saveSnapshotFile store (generationName stockSnapshotName gen)) <|
    ifOk (createEmptyAofFile (generationName stockAofName gen)) <|
      ifOk (writeFile stockManifestTmpName fun fp => printTo fp (manifestText gen)) renameManifest

/-- The publication of a generation from the fsync behind the rename on. -/
def publishFromSync (gen : StockGen) : Prog StockStatus :=
  ifOk (fsyncParentDir stockManifestName) do
    let _ ← cleanupOldGenerationFiles gen
    return .ok

/-- Steps may be grouped. -/
theorem ifOk_assoc (first second rest : Prog StockStatus) :
    ifOk (ifOk first second) rest = ifOk first (ifOk second rest) := by
  rw [ifOk, ifOk, ifOk, bind_assoc]
  congr 1
  funext status
  split_ifs with hstatus
  · rw [pure_bind, if_pos hstatus]
  · rfl

/-- The rename is one step of `write_manifest_file`, the fsync the next. -/
theorem writeManifestFile_eq (gen : StockGen) : writeManifestFile gen =
    ifOk (writeFile stockManifestTmpName fun fp => printTo fp (manifestText gen))
      (ifOk renameManifest (fsyncParentDir stockManifestName)) := by
  rw [writeManifestFile]
  congr 1
  rw [ifOk, renameManifest, bind_assoc]
  congr 1
  funext renamed
  cases renamed <;> rfl

/-- The publication of a generation in two parts. -/
theorem publish_eq (store : StockStore) (gen : StockGen) :
    (ifOk (saveSnapshotFile store (generationName stockSnapshotName gen)) <|
      ifOk (createEmptyAofFile (generationName stockAofName gen)) <|
        ifOk (writeManifestFile gen) do
          let _ ← cleanupOldGenerationFiles gen
          return .ok) = ifOk (publishUpToRename store gen) (publishFromSync gen) := by
  rw [writeManifestFile_eq, publishUpToRename, publishFromSync]
  simp only [ifOk_assoc]

/-- **The publication gives up at the first failed call** up to the rename. -/
theorem serial_publishUpToRename (store : StockStore) (gen : StockGen) :
    Serial .ok ((inorder store).length + 20) (publishUpToRename store gen) := by
  have hrename : Serial .ok 1 renameManifest := by
    rw [renameManifest, serial_op_bind]
    exact serial_bool rfl fun _ h => by cases h
  have hmanifest : Serial .ok (3 + 1 + 1)
      (writeFile stockManifestTmpName fun fp => printTo fp (manifestText gen)) :=
    serial_writeFile fun _ => serial_printTo
  have haof : Serial .ok (3 + (3 + 0 + 1)) (createEmptyAofFile (generationName stockAofName gen)) :=
    serial_ifOk (serial_writeFile (n := 0) fun _ => rfl)
      (serial_fsyncParentDir (length_generationName gen (Or.inr rfl)))
  have hsnapshot : Serial .ok (3 + (3 + (inorder store).length + 1))
      (saveSnapshotFile store (generationName stockSnapshotName gen)) := by
    refine serial_ifOk (serial_writeFile fun fp => ?_)
      (serial_fsyncParentDir (length_generationName gen (Or.inl rfl)))
    rw [stockStoreInorderWalk_eq]
    exact serial_visitAll (inorder store)
  have hall := serial_ifOk hsnapshot (serial_ifOk haof (serial_ifOk hmanifest hrename))
  rwa [show (inorder store).length + 20 =
    1 + (3 + 1 + 1) + (3 + (3 + 0 + 1)) + (3 + (3 + (inorder store).length + 1)) by omega]

/-- What is left when the publication has come up to the rename, and when it has not. -/
theorem ensures_publishUpToRename (hd : d.Holds old) (hnames : Untouched old [] gen) :
    Ensures ok (fun _ => True)
      (Reports ok .ok (·.contents stockManifestName = some (manifestText gen)) (·.Holds old))
      (publishUpToRename store gen) d := by
  have htmp : stockManifestTmpName ∉ old.map Pin.name := fun hmem => by
    obtain ⟨p, hp, hname⟩ := List.mem_map.mp hmem
    exact hnames.tmp p (by simpa using hp) hname
  have hother : ∀ {base}, base = stockSnapshotName ∨ base = stockAofName →
      generationName base gen ∉ old.map Pin.name := fun hbase => by
    simpa using hnames.notMem hbase
  -- the snapshot
  refine ensures_ifOk ((ensures_saveSnapshotFile hd (hother (Or.inl rfl))
    (length_generationName gen (Or.inl rfl)) fun _ _ => trivial)) ?_
  rintro d ⟨j, hsnapshot⟩
  -- the log
  refine ensures_ifOk ((ensures_createEmptyAofFile (hsnapshot.subset (List.subset_cons_self _ _))
    (hother (Or.inr rfl)) (length_generationName gen (Or.inr rfl)) fun _ _ => trivial)) ?_
  rintro d ⟨k, hlog⟩
  -- the temporary manifest and the rename
  have hwrite := @ensures_writeFile ok (fun _ => True) d old stockManifestTmpName
    (manifestText gen) (fun fp => printTo fp (manifestText gen))
    (hlog.subset (List.subset_cons_self _ _)) htmp (fun _ _ => trivial)
    fun i d hd => ensures_printTo hd fun _ _ => trivial
  refine ensures_ifOk hwrite ?_
  rintro d ⟨i, hwritten⟩
  rw [renameManifest, ensures_op_bind]
  refine ⟨trivial, fun c hc => ?_⟩
  cases hfail : c.fail with
  | true =>
    simp only [perform, hfail, ↓reduceIte, Bool.false_eq_true]
    rw [ensures_op_bind]
    refine ⟨trivial, fun c' _ => ?_⟩
    have hunlinked := @Disk.Holds.of_spared _ _ hwritten.holds (.unlink stockManifestTmpName)
      hwritten.other c'
    exact ⟨trivial, Or.inr ⟨by simp, fault hc hfail, hunlinked⟩⟩
  | false =>
    simp only [perform, hfail, ↓reduceIte, Bool.false_eq_true, hwritten.entry]
    exact ⟨trivial, Or.inl ⟨rfl, hwritten.contents_rename⟩⟩

/-! ## From the fsync on -/

/-- The choices that let the fsync of the directory fail without ending the process. -/
def SyncFails (σ : ℕ → Choice) : Prop := ¬ (σ 0).Fine ∨ ¬ (σ 1).Fine ∧ (σ 2).Fine

/-- What the fsync of the directory reports, from the choices. -/
theorem run_fsyncParentDir {path : Name} (hpath : (dataPath path).length < stockPathSize) :
    (SyncFails σ ∧ (fsyncParentDir path).run d σ = (.returned .errIo, d)) ∨
      (¬ SyncFails σ ∧ (((fsyncParentDir path).run d σ).1 = .exited 0 ∨
        ((fsyncParentDir path).run d σ).1 = .returned .ok)) := by
  rw [fsyncParentDir, if_neg (Nat.not_le.mpr hpath), run_op_bind]
  unfold SyncFails Choice.Fine
  cases hopen : (σ 0).fail with
  | true =>
    refine Or.inl ⟨Or.inl (by simp), ?_⟩
    simp only [perform, hopen, Bool.not_true, Bool.false_eq_true, ↓reduceIte]
    rfl
  | false =>
    simp only [perform, hopen, Bool.not_false, ↓reduceIte]
    rw [run_op_bind]
    cases hsync : (σ 1).fail with
    | true =>
      simp only [perform, hsync, Bool.false_eq_true, ↓reduceIte]
      rw [closeDir, bind_assoc, run_op_bind]
      cases hclose : (σ 2).fail with
      | true =>
        refine Or.inr ⟨by simp, Or.inl ?_⟩
        simp only [perform, hclose, Bool.not_true, Bool.false_eq_true, ↓reduceIte]
        rfl
      | false =>
        refine Or.inl ⟨by simp, ?_⟩
        simp only [perform, hclose, Bool.not_false, ↓reduceIte]
        rfl
    | false =>
      simp only [perform, hsync, Bool.false_eq_true, ↓reduceIte]
      rw [closeDir, bind_assoc, run_op_bind]
      refine Or.inr ⟨by simp, ?_⟩
      cases hclose : (σ 2).fail with
      | true =>
        left
        simp only [perform, hclose, Bool.not_true, Bool.false_eq_true, ↓reduceIte]
        rfl
      | false =>
        right
        simp only [perform, hclose, Bool.not_false, ↓reduceIte]
        rfl

/-- The status of the cleanup is not reported. -/
theorem ensures_finish : Ensures (fun _ => True) (fun _ => True)
    (fun r _ => r = .returned StockStatus.ok)
    (do
      let _ ← cleanupOldGenerationFiles gen
      return .ok) d := by
  refine (ensures_cleanupOldGenerationFiles_exact d).bind (fun _ _ _ _ => ⟨trivial, rfl⟩) ?_
  rintro code d' - (⟨hr, -⟩ | ⟨hr, -⟩ | ⟨hr, -⟩) <;> cases hr

/-- What a publication reports that has come up to the rename: only the failed fsync. -/
theorem run_publishFromSync :
    (SyncFails σ ∧ (publishFromSync gen).run d σ = (.returned .errIo, d)) ∨
      (¬ SyncFails σ ∧ ∀ status, ((publishFromSync gen).run d σ).1 = .returned status →
        status = .ok) := by
  have hpath : (dataPath stockManifestName).length < stockPathSize := by decide
  have hreturn : ∀ status : StockStatus, status ≠ .ok →
      (if status ≠ .ok then return status else do
        let _ ← cleanupOldGenerationFiles gen
        return .ok : Prog StockStatus) = .ret status := fun status hstatus => if_pos hstatus
  rcases @run_fsyncParentDir d σ _ hpath with ⟨hfails, hrun⟩ | ⟨hnot, hrun⟩
  · refine Or.inl ⟨hfails, ?_⟩
    rw [publishFromSync, ifOk, run_bind_of_ne hreturn (by simp [hrun]), hrun]
  · refine Or.inr ⟨hnot, fun status hstatus => ?_⟩
    rw [publishFromSync, ifOk] at hstatus
    rcases hrun with hexited | hsynced
    · rw [run_bind_of_ne hreturn (by simp [hexited]), hexited] at hstatus
      cases hstatus
    · rw [(serial_fsyncParentDir hpath).run_bind hsynced, if_neg (not_not.mpr rfl)] at hstatus
      exact (Outcome.returned.inj (hstatus.symm.trans (ensures_finish.run fun _ => trivial)))

/-! ## The whole publication -/

/-- The number of calls that `read_manifest_generation` makes. -/
def readCalls (d : Disk) : ℕ := if (d.lookup stockManifestName).isSome then 2 else 1

/-- The manifest is read by the first calls, or one of them fails and nothing has changed. -/
theorem run_readManifestGeneration {f : StockStatus × StockGen → Prog StockStatus}
    (hf : ∀ status, status ≠ .ok → status ≠ .errNotFound → f (status, 0) = .ret status) :
    ((∀ i < readCalls d, (σ i).Fine) ∧ (readManifestGeneration >>= f).run d σ =
      (f (manifestOf d)).run d fun i => σ (i + readCalls d)) ∨
    (¬ (∀ i < readCalls d, (σ i).Fine) ∧
      ∃ status, (readManifestGeneration >>= f).run d σ = (.returned status, d)) := by
  rw [readManifestGeneration, bind_assoc, run_op_bind]
  cases hl : d.lookup stockManifestName with
  | none =>
    have hcalls : readCalls d = 1 := by rw [readCalls, hl]; rfl
    rw [hcalls, manifestOf_of_lookup hl]
    cases hopen : (σ 0).fail with
    | true =>
      refine Or.inr ⟨fun h => ?_, .errIo, ?_⟩
      · exact Bool.noConfusion (hopen.symm.trans (h 0 Nat.one_pos))
      · simp only [perform, hopen, ↓reduceIte, pure_bind]
        rw [hf _ (by decide) (by decide)]
        rfl
    | false =>
      refine Or.inl ⟨fun i hi => ?_, ?_⟩
      · rw [Nat.lt_one_iff.mp hi]
        exact hopen
      · simp only [perform, hopen, Bool.false_eq_true, ↓reduceIte, hl, pure_bind]
  | some fp =>
    have hcalls : readCalls d = 2 := by rw [readCalls, hl]; rfl
    have hcontents := Disk.contents_of_lookup hl
    rw [hcalls]
    cases hopen : (σ 0).fail with
    | true =>
      refine Or.inr ⟨fun h => ?_, .errIo, ?_⟩
      · exact Bool.noConfusion (hopen.symm.trans (h 0 Nat.two_pos))
      · simp only [perform, hopen, ↓reduceIte, pure_bind]
        rw [hf _ (by decide) (by decide)]
        rfl
    | false =>
      simp only [perform, hopen, Bool.false_eq_true, ↓reduceIte, hl]
      rw [bind_assoc, run_op_bind]
      cases hread : (σ 1).fail with
      | true =>
        refine Or.inr ⟨fun h => ?_, ?_⟩
        · exact Bool.noConfusion (hread.symm.trans (h 1 Nat.one_lt_two))
        · simp only [perform, hread, ↓reduceIte]
          have hstatus := readManifest_status none
            ((pieces (maxLine - 1) (d.files fp).data).take (σ 1).count)
          rcases hm : readManifest none
            ((pieces (maxLine - 1) (d.files fp).data).take (σ 1).count) with ⟨status, seen⟩
          rw [hm] at hstatus
          rcases hstatus with rfl | rfl
          · exact ⟨.errIo, by rw [pure_bind, hf _ (by decide) (by decide)]; rfl⟩
          · exact ⟨.errInvalid, by rw [pure_bind, hf _ (by decide) (by decide)]; rfl⟩
      | false =>
        refine Or.inl ⟨fun i hi => ?_, ?_⟩
        · rcases Nat.le_one_iff_eq_zero_or_eq_one.mp (Nat.le_of_lt_succ hi) with rfl | rfl
          exacts [hopen, hread]
        · simp only [perform, hread, Bool.false_eq_true, ↓reduceIte]
          have hstatus := readManifest_status none (pieces (maxLine - 1) (d.files fp).data)
          rcases hm : readManifest none (pieces (maxLine - 1) (d.files fp).data) with
            ⟨status, _ | gen⟩ <;> rw [hm] at hstatus <;> rcases hstatus with rfl | rfl
          all_goals
            rw [manifestOf, hcontents]
            simp only [fileLines, hm]
            rfl

/-- The number of calls of a publication up to the rename of the manifest: reading the manifest,
and writing the snapshot, the log and the temporary manifest. -/
def callsToRename (d : Disk) (store : StockStore) : ℕ :=
  readCalls d + ((inorder store).length + 20)

/-- The manifest, and the snapshot and the log of the generation that it names. -/
def authoritativeNames (d : Disk) : List Name :=
  match manifestOf d with
  | (.ok, g) =>
    [stockManifestName, generationName stockSnapshotName g, generationName stockAofName g]
  | _ => [stockManifestName]

/-- A run that returns an error has left the manifest and the files of its generation as they
were. -/
def FailedKeeps (d : Disk) (r : Outcome StockStatus × Disk) : Prop :=
  ∀ status, status ≠ .ok → r.1 = .returned status →
    ∀ name ∈ authoritativeNames d, r.2.contents name = d.contents name

/-- The calls up to the rename succeed, and the fsync behind it fails. -/
def SyncFailsAfterRename (d : Disk) (store : StockStore) (σ : ℕ → Choice) : Prop :=
  (∀ i < callsToRename d store, (σ i).Fine) ∧ SyncFails fun i => σ (i + callsToRename d store)

/-- The next publication writes to none of the authoritative files. -/
theorem untouched_authoritative (hnext : NextOf d gen) :
    Untouched ((authoritativeNames d).map d.pinOf) [] gen := by
  have hfixed : ∀ {g base}, base = stockSnapshotName ∨ base = stockAofName →
      ∀ name ∈ _, generationName base g ≠ name := fun hbase => generationName_ne _ hbase
  rcases hnext with ⟨hnone, rfl⟩ | ⟨g, hsome, rfl⟩
  · rw [authoritativeNames, hnone]
    refine untouched_pinOf (by decide) fun base hbase name hname => ?_
    rw [List.mem_singleton.mp hname]
    exact (hfixed hbase _ (by simp)).symm
  · rw [authoritativeNames, hsome]
    have hlater : ∀ {base}, generationName base g ≠ generationName base (g + 1) :=
      fun h => ne_add_one g (generationName_inj h)
    refine untouched_pinOf (fun name hname => ?_) fun base hbase name hname => ?_
    · simp only [List.mem_cons, List.not_mem_nil, or_false] at hname
      rcases hname with rfl | rfl | rfl
      · decide
      · exact hfixed (Or.inl rfl) _ (by simp)
      · exact hfixed (Or.inr rfl) _ (by simp)
    · simp only [List.mem_cons, List.not_mem_nil, or_false] at hname
      rcases hname with rfl | rfl | rfl
      · exact (hfixed hbase _ (by simp)).symm
      · rcases hbase with rfl | rfl
        exacts [hlater, snapshotName_ne_aofName _ _]
      · rcases hbase with rfl | rfl
        exacts [(snapshotName_ne_aofName _ _).symm, hlater]

/-- The first choices, in two parts. -/
theorem fine_add_iff {a b : ℕ} :
    (∀ i < a + b, (σ i).Fine) ↔ (∀ i < a, (σ i).Fine) ∧ ∀ i < b, (σ (i + a)).Fine := by
  constructor
  · exact fun h => ⟨fun i hi => h i (by omega), fun i hi => h (i + a) (by omega)⟩
  · rintro ⟨hfirst, hrest⟩ i hi
    by_cases hia : i < a
    · exact hfirst i hia
    · have hi' := hrest (i - a) (by omega)
      rwa [Nat.sub_add_cancel (not_lt.mp hia)] at hi'

/-- A publication reads the manifest and goes on with the next generation. -/
theorem run_materializeStoreGeneration (hnext : NextOf d gen) :
    ((∀ i < readCalls d, (σ i).Fine) ∧ (materializeStoreGeneration store).run d σ =
      (ifOk (publishUpToRename store gen) (publishFromSync gen)).run d
        fun i => σ (i + readCalls d)) ∨
    (¬ (∀ i < readCalls d, (σ i).Fine) ∧
      ∃ status, (materializeStoreGeneration store).run d σ = (.returned status, d)) := by
  rw [materializeStoreGeneration]
  refine (run_readManifestGeneration fun status hok hfound => if_pos ⟨hfound, hok⟩).imp_left
    fun ⟨hread, hrun⟩ => ⟨hread, hrun.trans ?_⟩
  rw [← publish_eq]
  rcases hnext with ⟨hnone, rfl⟩ | ⟨g, hsome, rfl⟩
  · simp [hnone, buildGenerationPath_eq]
  · simp [hsome, buildGenerationPath_eq]

/-- Behind the rename the authoritative files are untouched exactly if no failure is reported. -/
theorem failedKeeps_publishFromSync_iff {d' : Disk} (hnext : NextOf d gen)
    (hnew : d'.contents stockManifestName = some (manifestText gen)) (σ : ℕ → Choice) :
    FailedKeeps d ((publishFromSync gen).run d' σ) ↔ ¬ SyncFails σ := by
  rcases @run_publishFromSync d' gen σ with ⟨hfails, hfailed⟩ | ⟨hnot, hreturned⟩
  · refine iff_of_false (fun hkeeps => ?_) (not_not.mpr hfails)
    have hmem : stockManifestName ∈ authoritativeNames d := by
      rw [authoritativeNames]
      split <;> simp
    have hkept := hkeeps .errIo (by decide) (by rw [hfailed]) stockManifestName hmem
    rw [hfailed, hnew] at hkept
    exact hnext.manifestText_ne hkept.symm
  · exact iff_of_true (fun status hstatus hr => absurd (hreturned status hr) hstatus) hnot

/-- Up to the rename a publication shows the new manifest, exactly if no call fails, or it stops
with an error and has touched none of the authoritative files. -/
theorem run_publishUpToRename (hdir : d.Sound) (hnext : NextOf d gen) (store : StockStore)
    (σ : ℕ → Choice) :
    let r := (publishUpToRename store gen).run d σ
    (r.1 = .returned .ok ↔ ∀ i < (inorder store).length + 20, (σ i).Fine) ∧
      (r.1 = .returned .ok ∧ r.2.contents stockManifestName = some (manifestText gen) ∨
        r.1 ≠ .returned .ok ∧ ∀ name ∈ authoritativeNames d, r.2.contents name = d.contents name) :=
    by
  intro r
  have hpins := hdir.holds_settle (authoritativeNames d)
  have hnames := untouched_authoritative hnext
  obtain ⟨hsame, halike⟩ := run_alike (publishUpToRename store gen) (Disk.alike_settle d) σ
  have hfine := (serial_publishUpToRename store gen).returned_iff (σ := σ)
    ((@ensures_publishUpToRename Choice.Fine d.settle _ store gen hpins hnames).mono
      (fun _ h => h) fun _ _ h => h.fine.1)
  have hstep := (@ensures_publishUpToRename (fun _ => True) d.settle _ store gen hpins hnames).run
    (σ := σ) fun _ => trivial
  rw [← hsame] at hfine hstep
  refine ⟨hfine, hstep.imp (fun h => ⟨h.1, ?_⟩) fun h => ⟨h.1, fun name hname => ?_⟩⟩
  · exact (halike.contents _).trans h.2
  · rw [halike.contents]
    exact Disk.Fixes.contents_pinOf (h.2.2.fixes _ (List.mem_map_of_mem hname))

/-- **A publication that is reported as failed leaves the authoritative files untouched if and only
if** it is not the fsync behind the rename that has failed: for every directory whose manifest names
a generation or is missing, every store, and every pattern of failing calls. -/
theorem failedKeeps_iff (hdir : d.Sound)
    (hmanifest : (manifestOf d).1 = .errNotFound ∨ (manifestOf d).1 = .ok) (store : StockStore)
    (σ : ℕ → Choice) :
    FailedKeeps d ((materializeStoreGeneration store).run d σ) ↔
      ¬ SyncFailsAfterRename d store σ := by
  obtain ⟨gen, hnext⟩ : ∃ gen, NextOf d gen := by
    rcases hmanifest with hnone | hsome
    · exact ⟨1, Or.inl ⟨manifestOf_of_lookup (lookup_of_manifestOf hnone), rfl⟩⟩
    · exact ⟨(manifestOf d).2 + 1, Or.inr ⟨_, Prod.ext hsome rfl, rfl⟩⟩
  rw [SyncFailsAfterRename, callsToRename, fine_add_iff]
  rcases @run_materializeStoreGeneration d store gen σ hnext with
    ⟨hread, hrun⟩ | ⟨hread, status, hrun⟩
  swap
  · -- the manifest has not been read
    rw [hrun]
    exact iff_of_true (fun _ _ _ _ _ => rfl) fun hfails => hread hfails.1.1
  rw [hrun, ifOk]
  obtain ⟨hfine, ⟨hr, hnew⟩ | ⟨hr, hold⟩⟩ :=
    run_publishUpToRename hdir hnext store fun i => σ (i + readCalls d)
  · -- the manifest has been renamed
    have hshift : (fun i => σ (i + ((inorder store).length + 20) + readCalls d)) =
        fun i => σ (i + (readCalls d + ((inorder store).length + 20))) := by
      funext i
      congr 1
      omega
    rw [(serial_publishUpToRename store gen).run_bind hr, if_neg (not_not.mpr rfl), ← hshift,
      failedKeeps_publishFromSync_iff hnext hnew]
    exact not_congr (and_iff_right ⟨hread, hfine.mp hr⟩).symm
  · -- a call has failed before the rename
    have hstop : ∀ status : StockStatus, status ≠ .ok →
        (if status ≠ .ok then return status else publishFromSync gen : Prog StockStatus) =
          .ret status := fun status hstatus => if_pos hstatus
    rw [run_bind_of_ne hstop hr]
    exact iff_of_true (fun _ _ _ => hold) fun hfails => hr (hfine.mpr hfails.1.2)

/-- The first line of the second snapshot cannot be written. -/
def snapshotFails : ℕ → Choice := fun n => if n = 3 then ⟨true, [], 0, []⟩ else .fine

/-- The publication of the second generation over the first gives up before the rename: an error is
returned, and the authoritative files are those of the first generation, untouched. -/
theorem failedKeeps_iff_firstDirectory :
    let r := (materializeStoreGeneration smallStore).run firstDirectory snapshotFails
    r.1 = .returned .errIo ∧ FailedKeeps firstDirectory r ∧ manifestOf r.2 = (.ok, 1) := by
  intro r
  have hr : r.1 = .returned .errIo := by decide +kernel
  have hkeeps : FailedKeeps firstDirectory r :=
    (failedKeeps_iff firstDirectory_holds.wf.sound (Or.inr (by decide +kernel)) smallStore
      snapshotFails).mpr fun hfails => absurd (hfails.1 3 (by decide +kernel)) (by decide)
  exact ⟨hr, hkeeps, by decide +kernel⟩

/-- The directory cannot be opened after the rename of the second manifest. -/
def openFails : ℕ → Choice := fun n => if n = 24 then ⟨true, [], 0, []⟩ else .fine

/-- **A failed publication has switched the manifest**: an error is returned, and the manifest names
the second generation. -/
theorem failed_publication_authoritative :
    let r := (materializeStoreGeneration smallStore).run firstDirectory openFails
    manifestOf firstDirectory = (.ok, 1) ∧ r.1 = .returned .errIo ∧ manifestOf r.2 = (.ok, 2) ∧
      ¬ FailedKeeps firstDirectory r := by
  intro r
  have hr : r.1 = .returned .errIo := by decide +kernel
  have hmanifest : r.2.contents stockManifestName ≠ firstDirectory.contents stockManifestName := by
    decide +kernel
  refine ⟨by decide +kernel, hr, by decide +kernel, fun hkeeps => ?_⟩
  exact hmanifest (hkeeps .errIo (by decide) hr stockManifestName (by decide +kernel))

end StockServer
