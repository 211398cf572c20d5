import StockServer.Calls

set_option relaxedAutoImplicit false
set_option autoImplicit false

/-!
# What cleanup removes

`cleanup_old_generation_files` goes through the entries of the data directory and unlinks the
temporary manifest and the files of other generations.  It builds the path of every entry before it
looks at its name, so an unrelated entry whose path does not fit the buffer ends the cleanup with an
error, although nothing was to be done about that entry.  Without such an entry cleanup removes what
it should, and nothing else; and bootstrap finds nothing to reject in a directory that has been
cleaned for generation 0.

## Main definitions

* `Removed` — the directory after the entries of a list that are not spared have been removed.
* `CleansUp` — a run that returns `STOCK_OK`, has removed the entries that are not spared, and has
  left everything else alone.

## Main results

* `ensures_cleanupEntries_exact` — what the loop does and reports, whatever calls fail.
* `cleansUp_iff` — **cleanup does so exactly if** the paths of all entries fit the buffer.
-/

namespace StockServer

open Prog

variable {ok : Choice → Prop} {gen : StockGen} {d : Disk}

instance (gen : StockGen) (name : Name) : Decidable (Spared gen name) :=
  match h : artifactGeneration name with
  | none => decidable_of_iff (name ≠ stockManifestTmpName) (by simp [Spared, h])
  | some g => decidable_of_iff (name ≠ stockManifestTmpName ∧ g = gen) (by simp [Spared, h])

/-- The directory after the entries of a list that are not spared have been removed. -/
def Removed (gen : StockGen) (entries : List Name) (d d' : Disk) : Prop :=
  d'.files = d.files ∧
    ∀ name, d'.lookup name = if name ∈ entries ∧ ¬ Spared gen name then none else d.lookup name

/-- The run has returned `STOCK_OK` and has removed exactly the entries that are not spared. -/
def CleansUp (gen : StockGen) (entries : List Name) (d : Disk) (r : Outcome StockStatus × Disk) :
    Prop :=
  r.1 = .returned .ok ∧ Removed gen entries d r.2

/-! ## The loop -/

/-- Nothing has been removed before the first entry. -/
theorem removed_nil : Removed gen [] d d := ⟨rfl, by simp⟩

/-- An entry that is spared is passed over. -/
theorem Removed.skip {entry : Name} {entries : List Name} {d' : Disk} (hspared : Spared gen entry)
    (h : Removed gen entries d d') : Removed gen (entry :: entries) d d' := by
  refine ⟨h.1, fun name => ?_⟩
  rw [h.2 name]
  refine if_congr ?_ rfl rfl
  rw [List.mem_cons]
  constructor
  · rintro ⟨hmem, hnot⟩
    exact ⟨Or.inr hmem, hnot⟩
  · rintro ⟨rfl | hmem, hnot⟩
    · exact absurd hspared hnot
    · exact ⟨hmem, hnot⟩

/-- The lookup after an `unlink` that does not fail. -/
theorem lookup_unlinked {entry : Name} {c : Choice} (hc : c.fail = false) (name : Name) :
    (perform d (.unlink entry) c).2.lookup name =
      if name = entry then none else d.lookup name := by
  simp only [perform, hc, Bool.false_eq_true, ↓reduceIte]
  by_cases hname : name = entry
  · subst hname
    rw [if_pos rfl]
    split_ifs with hsome
    · rw [Disk.lookup_change]
      exact AList.lookup_erase _ _
    · exact Option.not_isSome_iff_eq_none.mp hsome
  · rw [if_neg hname]
    split_ifs
    · exact Disk.lookup_change_of_not_touches (Ne.symm hname)
    · rfl

/-- An entry that is not spared is unlinked, be it there or not. -/
theorem Removed.unlink {entry : Name} {entries : List Name} {d' : Disk} {c : Choice}
    (hnot : ¬ Spared gen entry) (hc : c.fail = false)
    (h : Removed gen entries (perform d (.unlink entry) c).2 d') :
    Removed gen (entry :: entries) d d' := by
  have hfiles : (perform d (.unlink entry) c).2.files = d.files := by
    simp only [perform]
    split_ifs <;> rfl
  refine ⟨h.1.trans hfiles, fun name => ?_⟩
  rw [h.2 name, lookup_unlinked hc]
  by_cases hname : name = entry
  · subst hname
    simp [hnot]
  · simp [hname]

/-- What a cleanup reports: all entries fit and are dealt with, or an entry does not fit, or a call
has failed. -/
def Cleaned (ok : Choice → Prop) (gen : StockGen) (entries : List Name) (d : Disk)
    (r : Outcome StockStatus) (d' : Disk) : Prop :=
  (r = .returned .ok ∧ (∀ entry ∈ entries, Fits entry) ∧ Removed gen entries d d') ∨
    (r = .returned .errInternal ∧ ∃ entry ∈ entries, ¬ Fits entry) ∨
    (r = .returned .errIo ∧ ∃ c, ok c ∧ ¬ c.Fine)

/-- One more entry that fits. -/
theorem Cleaned.cons {entry : Name} {entries : List Name} {d₁ d' : Disk} {r : Outcome StockStatus}
    (hfits : Fits entry)
    (hremoved : Removed gen entries d₁ d' → Removed gen (entry :: entries) d d')
    (h : Cleaned ok gen entries d₁ r d') : Cleaned ok gen (entry :: entries) d r d' := by
  rcases h with ⟨hr, hall, hrest⟩ | ⟨hr, other, hmem, hnot⟩ | hfailed
  · exact Or.inl ⟨hr, List.forall_mem_cons.mpr ⟨hfits, hall⟩, hremoved hrest⟩
  · exact Or.inr (Or.inl ⟨hr, other, List.mem_cons_of_mem _ hmem, hnot⟩)
  · exact Or.inr (Or.inr hfailed)

/-- **What the loop does and reports**, for every list of entries, be they in the directory or
not. -/
theorem ensures_cleanupEntries_exact (entries : List Name) (d : Disk) :
    Ensures ok (fun _ => True) (Cleaned ok gen entries d) (cleanupEntries gen entries) d := by
  induction entries generalizing d with
  | nil => exact ⟨trivial, Or.inl ⟨rfl, by simp, removed_nil⟩⟩
  | cons entry entries ih =>
    refine ensures_cleanupEntries_cons trivial (fun hlong => ?_) (fun hfits hspared => ?_)
      fun hfits hnot c hc => ?_
    · exact Or.inr (Or.inl ⟨rfl, entry, by simp, hlong⟩)
    · exact (ih d).mono (fun _ h => h) fun _ _ h => h.cons hfits (Removed.skip hspared)
    · split_ifs with hfail
      · exact Or.inr (Or.inr ⟨rfl, fault hc hfail⟩)
      · exact (ih _).mono (fun _ h => h) fun _ _ h =>
          h.cons hfits (Removed.unlink hnot (Bool.eq_false_iff.mpr hfail))

/-- The entries that `readdir` delivers are those of the directory. -/
theorem Cleaned.congr {entries entries' : List Name} {r : Outcome StockStatus} {d' : Disk}
    (hmem : ∀ name, name ∈ entries ↔ name ∈ entries') (h : Cleaned ok gen entries d r d') :
    Cleaned ok gen entries' d r d' := by
  simpa only [Cleaned, Removed, hmem] using h

/-- **What cleanup does and reports.** -/
theorem ensures_cleanupOldGenerationFiles_exact (d : Disk) :
    Ensures ok (fun _ => True) (Cleaned ok gen d.current.keys d)
      (cleanupOldGenerationFiles gen) d := by
  rw [cleanupOldGenerationFiles, ensures_op_bind]
  refine ⟨trivial, fun c hc => ?_⟩
  cases hfail : c.fail with
  | true =>
    simp only [perform, hfail, ↓reduceIte]
    exact ⟨trivial, Or.inr (Or.inr ⟨rfl, fault hc hfail⟩)⟩
  | false =>
    simp only [perform, hfail, Bool.false_eq_true, ↓reduceIte]
    refine (ensures_cleanupEntries_exact _ d).mono (fun _ h => h)
      fun _ _ h => h.congr fun name => ?_
    rw [Disk.mem_listing, Disk.mem_keys]

/-! ## Cleanup and the guard of bootstrap -/

/-- What a cleanup that returns `STOCK_OK` has done. -/
theorem Cleaned.of_ok {entries : List Name} {d' : Disk}
    (h : Cleaned ok gen entries d (.returned .ok) d') :
    (∀ entry ∈ entries, Fits entry) ∧ Removed gen entries d d' := by
  rcases h with ⟨-, hcleaned⟩ | ⟨hr, -⟩ | ⟨hr, -⟩
  · exact hcleaned
  all_goals cases hr

/-- Without a failing call cleanup removes what it should if and only if all entries fit. -/
theorem Cleaned.clean_iff {entries : List Name} {r : Outcome StockStatus × Disk}
    (h : Cleaned Choice.Fine gen entries d r.1 r.2) :
    CleansUp gen entries d r ↔ ∀ entry ∈ entries, Fits entry := by
  rcases h with ⟨hr, hall, hremoved⟩ | ⟨hr, entry, hmem, hnot⟩ | ⟨-, hfault⟩
  · exact iff_of_true ⟨hr, hremoved⟩ hall
  · refine iff_of_false (fun hclean => ?_) fun hall => hnot (hall entry hmem)
    exact absurd (hr.symm.trans hclean.1) (by decide)
  · exact absurd hfault not_fault

/-- **Cleanup removes exactly the temporary manifest and the files of other generations**, and
returns `STOCK_OK`, if and only if the paths of all entries fit the buffer: for every list of
entries the loop is given, in whatever order and be they still in the directory or not, and for
every directory.  And whenever a cleanup for generation 0 returns `STOCK_OK`, whatever calls fail,
bootstrap accepts what it leaves. -/
theorem cleansUp_iff (gen : StockGen) (d : Disk) {σ : ℕ → Choice} (hσ : ∀ n, (σ n).Fine) :
    (∀ entries, CleansUp gen entries d ((cleanupEntries gen entries).run d σ) ↔
      ∀ entry ∈ entries, Fits entry) ∧
    (CleansUp gen d.current.keys d ((cleanupOldGenerationFiles gen).run d σ) ↔
      ∀ entry ∈ d.current.keys, Fits entry) ∧
    ∀ σ', ((cleanupOldGenerationFiles 0).run d σ').1 = .returned .ok →
      (ensureBootstrapRecoveryState.run ((cleanupOldGenerationFiles 0).run d σ').2 σ).1 =
        .returned .ok := by
  refine ⟨fun entries => ?_, ?_, fun σ' hok => ?_⟩
  · exact ((ensures_cleanupEntries_exact entries d).run hσ).clean_iff
  · exact ((ensures_cleanupOldGenerationFiles_exact d).run hσ).clean_iff
  · have hcleaned := (@ensures_cleanupOldGenerationFiles_exact (fun _ => True) 0 d).run (σ := σ')
      fun _ => trivial
    rw [hok] at hcleaned
    refine ((@ensures_guard_clean (fun _ => True) _ (fun name hname => ?_) trivial).run hσ).1
    rw [hcleaned.of_ok.2.2 name] at hname
    split_ifs at hname with hgone
    · cases hname
    · refine spared_zero_iff.mp (by_contra fun hnot => hgone ⟨?_, hnot⟩)
      rwa [Disk.mem_keys]

/-- A directory with an init file and the snapshot of an interrupted bootstrap. -/
def leftSnapshot : Disk :=
  (oneItemDirectory "1 5 100\n").add (generationName stockSnapshotName 1) []

/-- The cleanup of that directory is clean exactly if its names fit, as they do. -/
theorem cleansUp_iff_leftSnapshot :
    CleansUp 0 leftSnapshot.current.keys leftSnapshot
        ((cleanupOldGenerationFiles 0).run leftSnapshot fun _ => .fine) ↔
      ∀ entry ∈ leftSnapshot.current.keys, Fits entry :=
  (cleansUp_iff 0 leftSnapshot (σ := fun _ => .fine) fun _ => rfl).2.1

/-- The same directory with an unrelated entry of 249 bytes. -/
def longEntry : Disk := leftSnapshot.add (List.replicate 249 97) []

/-- **An unrelated entry ends the cleanup with an error**: `STOCK_ERR_INTERNAL` is returned and the
snapshot is still there, so that bootstrap rejects the directory. -/
theorem longEntry_not_cleansUp :
    let r := (cleanupOldGenerationFiles 0).run longEntry fun _ => .fine
    r.1 = .returned .errInternal ∧ ¬ CleansUp 0 longEntry.current.keys longEntry r ∧
      (ensureBootstrapRecoveryState.run r.2 fun _ => .fine).1 = .returned .errInvalid := by
  intro r
  have hr : r.1 = .returned .errInternal := by decide +kernel
  refine ⟨hr, fun hclean => ?_, by decide +kernel⟩
  exact absurd (hr.symm.trans hclean.1) (by decide)

end StockServer
