import StockServer.Lib.Monitor
import StockServer.Standing

set_option relaxedAutoImplicit false
set_option autoImplicit false

/-!
# No writer is left open

The functions of `stock_persistence.c` open one stream for writing, or the directory to fsync it, at
a time, use it, and close it before they do anything else, on every path and whichever of their
calls fail.  So none of these is used after it has been closed, closed twice or left open; and a
process that ends by itself, also through the `exit` in `Close`, has no text left in a stdio buffer.

## Main definitions

* `Tidy` — a program that starts and ends without such a handle, and keeps to the rules of
  `handles`.
* `LeavesNoWriterOpen` — what that means for its runs.

## Main results

* `Tidy.leavesNoWriterOpen` — a tidy program leaves no such handle open, in any run.
* `tidy_writeFile` — the writers are tidy, whatever they write.
* `persistence_leavesNoWriterOpen` — **recovery and publication leave no writer open**.

## Implementation notes

The streams from which the manifest, the stock file and the log are read, and the directory streams
of the two scans, are not followed: nothing here says that they are closed.
-/

namespace StockServer

open Prog SearchTree

variable {α β : Type} {p : Prog α} {path : Name} {store : StockStore} {gen : StockGen}

/-! ## Tidy programs -/

/-- With no stream for writing and no descriptor of the directory open before and after, by the
rules of `handles`, whatever the calls report. -/
def Tidy (p : Prog α) : Prop := Follows handles (fun _ h => h = .closed) p .closed

/-- **In every run**, each call is made with that stream for writing, or that descriptor of the
directory, open that it needs and no other, none is open at the end, and the end of the process
loses no text. -/
def LeavesNoWriterOpen (p : Prog α) : Prop :=
  ∀ d σ, (∀ t₁ e t₂, p.trace d σ = t₁ ++ e :: t₂ →
      handles.allows (handles.after .closed t₁) e.1) ∧
    handles.after .closed (p.trace d σ) = .closed ∧
    (d.kill = d → (p.run d σ).2.kill = (p.run d σ).2)

/-- **A tidy program leaves no writer open.** -/
theorem Tidy.leavesNoWriterOpen (h : Tidy p) : LeavesNoWriterOpen p := by
  intro d σ
  obtain ⟨haccepts, hclosed⟩ := h.accepts d σ
  refine ⟨Monitor.accepts_iff.mp haccepts, hclosed, fun hd => ?_⟩
  obtain ⟨_, rfl, hdrained⟩ := @Follows.run _ _ _ _ p d σ _ Disk.Drained h
    (fun _ _ _ c ho hd => Disk.drained_perform hd ho c) (Disk.drained_of_kill hd)
  exact hdrained.kill

/-- Nothing is called. -/
theorem tidy_pure (a : α) : Tidy (pure a : Prog α) := rfl

/-- Tidy programs one after another. -/
theorem Tidy.bind (h : Tidy p) {f : α → Prog β} (hf : ∀ a, Tidy (f a)) : Tidy (p >>= f) := by
  refine Follows.bind h (fun a s hs => ?_) fun _ _ hs => hs
  subst hs
  exact hf a

/-- The same for the steps of a sequence. -/
theorem Tidy.ifOk {first rest : Prog StockStatus} (h : Tidy first) (h' : Tidy rest) :
    Tidy (ifOk first rest) := by
  refine h.bind fun status => ?_
  split_ifs
  · exact tidy_pure status
  · exact h'

/-- A call that opens no handle and closes none. -/
theorem tidy_op {o : Op} (ho : handles.allows .closed o)
    (hnext : ∀ r, handles.next .closed o r = .closed) : Tidy (op o) :=
  follows_op.mpr ⟨ho, hnext⟩

/-! ## The directory -/

/-- `fsync_parent_dir` closes the directory that it opens. -/
theorem tidy_fsyncParentDir (path : Name) : Tidy (fsyncParentDir path) := by
  have hclose : ∀ status : StockStatus, Follows handles (fun _ h => h = .closed)
      (closeDir >>= fun _ => pure status) .directory := by
    intro status
    refine follows_op_bind.mpr ⟨rfl, fun closed => ?_⟩
    cases closed <;> rfl
  rw [fsyncParentDir]
  split_ifs
  · exact tidy_pure _
  · refine follows_op_bind.mpr ⟨rfl, fun opened => ?_⟩
    cases opened with
    | false => rfl
    | true =>
      refine follows_op_bind.mpr ⟨rfl, fun synced => ?_⟩
      cases synced <;> exact hclose _

/-! ## Reading -/

/-- Whether a file exists is asked with no handle open. -/
theorem tidy_fileExists (name : Name) : Tidy (fileExists name) :=
  @tidy_op (.stat name) rfl fun _ => rfl

/-- Reading the manifest opens nothing for writing. -/
theorem tidy_readManifestGeneration : Tidy readManifestGeneration := by
  refine (@tidy_op (.openRead _) rfl fun _ => rfl).bind fun opened => ?_
  split
  · exact tidy_pure _
  · exact tidy_pure _
  · refine (@tidy_op (.readLines _ _) rfl fun _ => rfl).bind fun read => ?_
    split
    · split_ifs
      · exact tidy_pure _
      · split <;> exact tidy_pure _
    · exact tidy_pure _

/-- Nor does reading a file into the store. -/
theorem tidy_readFileInto (step : StockStore → Bytes → StockStatus × StockStore)
    (store : StockStore) (path : Name) : Tidy (readFileInto step store path) := by
  refine (@tidy_op (.openRead _) rfl fun _ => rfl).bind fun opened => ?_
  split
  · exact tidy_pure _
  · exact tidy_pure _
  · refine (@tidy_op (.readLines _ _) rfl fun _ => rfl).bind fun read => ?_
    dsimp only
    split_ifs <;> exact tidy_pure _

/-! ## Writing -/

/-- A program that uses the open stream, leaves it open, and returns. -/
def Writes (fp : Ino) (p : Prog StockStatus) : Prop :=
  Follows handles (fun r h => (∃ status, r = .returned status) ∧ h = .stream fp) p (.stream fp)

/-- Programs that use the stream one after another. -/
theorem Writes.bind {fp : Ino} {first : Prog StockStatus} (h : Writes fp first)
    {f : StockStatus → Prog β} {post : Outcome β → Handle → Prop}
    (hf : ∀ status, Follows handles post (f status) (.stream fp)) :
    Follows handles post (first >>= f) (.stream fp) := by
  refine Follows.bind h (fun status s hs => ?_) fun code s hs => ?_
  · obtain ⟨-, rfl⟩ := hs
    exact hf status
  · obtain ⟨⟨status, hstatus⟩, -⟩ := hs
    cases hstatus

/-- Returning a status uses nothing. -/
theorem writes_pure (fp : Ino) (status : StockStatus) : Writes fp (pure status) :=
  ⟨⟨status, rfl⟩, rfl⟩

/-- A print. -/
theorem writes_printTo (fp : Ino) (text : Bytes) : Writes fp (printTo fp text) := by
  refine follows_op_bind.mpr ⟨rfl, fun printed => ?_⟩
  cases printed <;> exact writes_pure fp _

/-- A flush, if all is well. -/
theorem writes_flushIfOk (fp : Ino) (status : StockStatus) : Writes fp (flushIfOk fp status) := by
  rw [flushIfOk]
  split_ifs
  · refine follows_op_bind.mpr ⟨rfl, fun flushed => ?_⟩
    cases flushed <;> exact writes_pure fp _
  · exact writes_pure fp status

/-- The walk that writes a snapshot. -/
theorem writes_snapshot (fp : Ino) (items : List StockItem) :
    Writes fp (visitAll (writeSnapshotNode fp) items) := by
  induction items with
  | nil => exact writes_pure fp .ok
  | cons item items ih =>
    rw [visitAll]
    refine (writes_printTo fp (stockLine item)).bind fun status => ?_
    split_ifs
    · exact writes_pure fp status
    · exact ih

/-- **A file is written and closed** on every path, and unlinked after it has been closed if
anything fails. -/
theorem tidy_writeFile {contents : Ino → Prog StockStatus}
    (hcontents : ∀ fp, Writes fp (contents fp)) (path : Name) : Tidy (writeFile path contents) := by
  refine follows_op_bind.mpr ⟨rfl, fun opened => ?_⟩
  cases opened with
  | none => rfl
  | some fp =>
    have habandon : ∀ status, Follows handles (fun _ h => h = .closed) (abandon fp path status)
        (.stream fp) := fun _ => ⟨rfl, fun _ => ⟨rfl, fun _ => rfl⟩⟩
    refine (hcontents fp).bind fun status => (writes_flushIfOk fp status).bind fun status => ?_
    split_ifs
    · exact habandon status
    · refine follows_op_bind.mpr ⟨rfl, fun synced => ?_⟩
      cases synced with
      | false => exact habandon .errIo
      | true =>
        refine follows_op_bind.mpr ⟨rfl, fun closed => ?_⟩
        cases closed with
        | false => exact ⟨rfl, fun _ => rfl⟩
        | true => rfl

/-- So is a snapshot. -/
theorem tidy_saveSnapshotFile (store : StockStore) (path : Name) :
    Tidy (saveSnapshotFile store path) := by
  refine (tidy_writeFile (fun fp => ?_) path).ifOk (tidy_fsyncParentDir path)
  rw [stockStoreInorderWalk_eq]
  exact writes_snapshot fp _

/-- An empty log. -/
theorem tidy_createEmptyAofFile (path : Name) : Tidy (createEmptyAofFile path) :=
  (tidy_writeFile (fun fp => writes_pure fp .ok) path).ifOk (tidy_fsyncParentDir path)

/-- A manifest, which is renamed after it has been closed. -/
theorem tidy_writeManifestFile (gen : StockGen) : Tidy (writeManifestFile gen) := by
  refine (tidy_writeFile (fun fp => writes_printTo fp _) _).ifOk ?_
  refine follows_op_bind.mpr ⟨rfl, fun renamed => ?_⟩
  cases renamed with
  | true => exact tidy_fsyncParentDir stockManifestName
  | false => exact ⟨rfl, fun _ => rfl⟩

/-! ## Cleanup and publication -/

/-- Cleaning up unlinks with no handle open. -/
theorem tidy_cleanupOldGenerationFiles (gen : StockGen) :
    Tidy (cleanupOldGenerationFiles gen) := by
  have hentries : ∀ entries, Tidy (cleanupEntries gen entries) := by
    intro entries
    induction entries with
    | nil => exact tidy_pure _
    | cons entry entries ih =>
      have hunlink : ∀ path {f : Except SysError Unit → Prog StockStatus},
          (∀ r, f r = pure .errIo ∨ f r = cleanupEntries gen entries) →
          Tidy (op (.unlink path) >>= f) := by
        intro path f hf
        refine (@tidy_op (.unlink path) rfl fun _ => rfl).bind fun unlinked => ?_
        rcases hf unlinked with h | h <;> rw [h]
        · exact tidy_pure _
        · exact ih
      rw [cleanupEntries]
      split
      · exact tidy_pure _
      · split_ifs
        · exact hunlink _ fun r => by split <;> simp
        · split
          · exact ih
          · split_ifs
            · exact ih
            · exact hunlink _ fun r => by split <;> simp
  refine (@tidy_op .listDir rfl fun _ => rfl).bind fun listed => ?_
  cases listed with
  | none => exact tidy_pure _
  | some entries => exact hentries entries

/-- **Publication is tidy.** -/
theorem tidy_materializeStoreGeneration (store : StockStore) :
    Tidy (materializeStoreGeneration store) := by
  refine tidy_readManifestGeneration.bind fun read => ?_
  obtain ⟨status, gen⟩ := read
  dsimp only
  split_ifs
  · exact tidy_pure _
  all_goals
    split
    · exact tidy_pure _
    · split
      · exact tidy_pure _
      · refine (tidy_saveSnapshotFile store _).ifOk ((tidy_createEmptyAofFile _).ifOk
          ((tidy_writeManifestFile _).ifOk ?_))
        exact (tidy_cleanupOldGenerationFiles _).bind fun _ => tidy_pure _

/-! ## Recovery -/

/-- The marker is closed as soon as it has been created. -/
theorem tidy_createBootstrapMarker : Tidy createBootstrapMarker := by
  refine follows_op_bind.mpr ⟨rfl, fun opened => ?_⟩
  cases opened with
  | none => rfl
  | some fp =>
    refine follows_op_bind.mpr ⟨rfl, fun closed => ?_⟩
    cases closed with
    | true => exact tidy_fsyncParentDir stockBootstrapMarkerName
    | false => exact ⟨rfl, fun _ => rfl⟩

/-- Removing it. -/
theorem tidy_removeBootstrapMarker : Tidy removeBootstrapMarker := by
  refine (@tidy_op (.unlink _) rfl fun _ => rfl).bind fun unlinked => ?_
  split
  · exact tidy_pure _
  · exact tidy_pure _
  · exact tidy_fsyncParentDir _

/-- What is done before bootstrap. -/
theorem tidy_prepareBootstrap : Tidy prepareBootstrap := by
  refine (tidy_fileExists _).bind fun found => ?_
  split_ifs
  · exact (tidy_cleanupOldGenerationFiles 0).ifOk tidy_removeBootstrapMarker
  · refine (@tidy_op .listDir rfl fun _ => rfl).bind fun listed => ?_
    split
    · exact tidy_pure _
    · split_ifs <;> exact tidy_pure _

/-- Bootstrap. -/
theorem tidy_bootstrapStore (store : StockStore) : Tidy (bootstrapStore store) := by
  refine tidy_createBootstrapMarker.bind fun created => ?_
  split_ifs
  · exact tidy_pure _
  refine (tidy_readFileInto loadLine store _).bind fun loaded => ?_
  split_ifs
  · exact tidy_pure _
  refine (tidy_materializeStoreGeneration loaded.2).bind fun published => ?_
  split_ifs
  · exact tidy_pure _
  exact tidy_removeBootstrapMarker.bind fun removed => tidy_pure _

/-- **Recovery is tidy.** -/
theorem tidy_recoverStockStore (store : StockStore) : Tidy (recoverStockStore store) := by
  refine tidy_readManifestGeneration.bind fun read => ?_
  obtain ⟨status, gen⟩ := read
  dsimp only
  split_ifs
  · refine tidy_prepareBootstrap.bind fun prepared => ?_
    split_ifs
    · exact tidy_pure _
    · refine (tidy_fileExists _).bind fun found => ?_
      split_ifs
      · exact tidy_bootstrapStore store
      · exact tidy_pure _
  · exact tidy_pure _
  · refine Tidy.bind ?_ fun _ => ?_
    · refine (tidy_fileExists _).bind fun found => ?_
      split_ifs
      · exact tidy_removeBootstrapMarker.bind fun _ => tidy_pure _
      · exact tidy_pure _
    · rw [loadGeneration]
      split
      · exact tidy_pure _
      · split
        · exact tidy_pure _
        · refine (tidy_readFileInto loadLine store _).bind fun loaded => ?_
          split_ifs
          · exact tidy_pure _
          · exact tidy_readFileInto replayLine loaded.2 _

/-- **Recovery and publication leave no writer open**: no stream for writing and no descriptor of the
directory, whichever of their calls fail. -/
theorem persistence_leavesNoWriterOpen (store : StockStore) :
    LeavesNoWriterOpen (recoverStockStore store) ∧
      LeavesNoWriterOpen (materializeStoreGeneration store) :=
  ⟨(tidy_recoverStockStore store).leavesNoWriterOpen,
    (tidy_materializeStoreGeneration store).leavesNoWriterOpen⟩

end StockServer
