import StockServer.Lib.Machine
import StockServer.CrashSafety
import StockServer.Authority

set_option relaxedAutoImplicit false
set_option autoImplicit false

/-!
# Startups without a manifest, cut off by crashes

A directory that holds only an init file is started from any number of times, and every startup
is cut off by a crash.  The bootstrap marker is to tell an interrupted bootstrap from a directory
that has lost its manifest.  But a startup that finds the marker unlinks the leftovers of the
interrupted bootstrap and then the marker with a single fsync at the end: a crash before it that
loses the unlink of a leftover and keeps that of the marker leaves a directory that the guard
rejects from then on.  Every other sequence of crashes is survived.

## Main definitions

* `CutStartup`, `startups` — a startup that is cut off by a crash, and the machine of such startups.
* `Reorders`, `InOrder` — the crash keeps the unlink of the marker and loses that of a leftover.
* `Bootable`, `Rejected` — the directories that a startup recovers from, and those that the guard
  rejects.
* `Survivable` — what a crash makes of a disk.

## Main results

* `ensures_recover_bootable` — every call of a startup leaves a survivable disk, and a startup that
  is not cut off returns the records of the init file.
* `not_recovers_of_rejected` — a directory that the guard rejects is rejected for good.
* `recovers_iff_inOrder` — the next startup returns the records of the init file if and only if
  every crash was in order.
-/

namespace StockServer

open Prog SearchTree

/-! ## Startups that are cut off -/

/-- A startup that is cut off by a crash: after how many calls, what the environment decides about
each call, none of which fails, which pending directory changes survive the crash, and what is in
the files that had not been fsynced. -/
structure CutStartup where
  calls : ℕ
  choices : ℕ → Choice
  fine : ∀ n, (choices n).Fine
  keep : List Bool
  junk : Ino → Bytes

/-- The disk when the crash comes. -/
def CutStartup.reached (cut : CutStartup) (d : Disk) : Disk :=
  (recoverStockStore .nil).after cut.calls d cut.choices

/-- Startups as a machine: its input is a startup that is cut off. -/
def startups : Machine Disk CutStartup Empty :=
  ⟨fun d cut => ((cut.reached d).crash cut.keep cut.junk, [])⟩

/-- While there is no manifest, the crash keeps the unlink of the marker and loses the unlink of a
leftover. -/
def Reorders (d : Disk) (keep : List Bool) : Prop :=
  d.lookup stockManifestName = none ∧
    .unlink stockBootstrapMarkerName ∈ Change.kept d.pending keep ∧
    ∃ name, blocksBootstrap name = true ∧ .unlink name ∈ d.pending ∧
      .unlink name ∉ Change.kept d.pending keep

/-- The crash is in order. -/
def InOrder (d : Disk) (cut : CutStartup) : Prop := ¬ Reorders (cut.reached d) cut.keep

/-- The directory holds an init file that loads as the store `s`, and nothing else. -/
structure OnlyInit (d : Disk) (i : Ino) (data : Bytes) (s : StockStore) : Prop where
  holds : d.Holds [.file stockInitName i data]
  only : ∀ name, name ≠ stockInitName → d.Fixed name none
  loads : applyLines loadLine .nil (fileLines data) = (.ok, s)

/-! ## What a crash makes of a disk -/

variable {d : Disk} {i₀ : Ino} {data : Bytes} {s : StockStore}

/-- The directories that a startup recovers from: one with the marker, one without the marker and
without leftovers, and one with a complete first generation. -/
inductive Bootable (i₀ : Ino) (data : Bytes) (s : StockStore) (d : Disk) : Prop
  | marked (h : d.Holds [.absent stockManifestName, .entry stockBootstrapMarkerName,
      .file stockInitName i₀ data]) (settled : d.pending = [])
  | clean (h : d.Holds [.absent stockManifestName, .absent stockBootstrapMarkerName,
      .file stockInitName i₀ data])
      (hclean : ∀ name, blocksBootstrap name = true → d.Fixed name none)
  | published (i j k : Ino) (h : d.Holds (publishedPins 1 s i j k []))

/-- The directories that the guard rejects. -/
structure Rejected (d : Disk) : Prop where
  settled : d.pending = []
  manifest : d.lookup stockManifestName = none
  marker : d.lookup stockBootstrapMarkerName = none
  blocked : ∃ name, blocksBootstrap name = true ∧ (d.lookup name).isSome

/-- A crash in order makes a directory that a startup recovers from, and any other one that the
guard rejects. -/
def Survivable (i₀ : Ino) (data : Bytes) (s : StockStore) (d : Disk) : Prop :=
  ∀ keep junk, (¬ Reorders d keep → Bootable i₀ data s (d.crash keep junk)) ∧
    (Reorders d keep → Rejected (d.crash keep junk))

/-- A disk on which no crash is out of order. -/
theorem survivable_of_not_reorders (horder : ∀ keep, ¬ Reorders d keep)
    (hcrash : ∀ keep junk, Bootable i₀ data s (d.crash keep junk)) : Survivable i₀ data s d :=
  fun keep junk => ⟨fun _ => hcrash keep junk, fun h => absurd h (horder keep)⟩

/-- As long as the marker stays on disk, no crash is out of order. -/
theorem not_reorders_of_marked {i : Ino} (h : d.Fixed stockBootstrapMarkerName (some i))
    (keep : List Bool) : ¬ Reorders d keep := by
  rintro ⟨-, hmarker, -⟩
  exact h.quiet _ ((Change.kept_sublist _ _).subset hmarker) rfl

/-- With the marker on disk every crash is survived. -/
theorem survivable_marked (h : d.Holds [.absent stockManifestName, .entry stockBootstrapMarkerName,
    .file stockInitName i₀ data]) : Survivable i₀ data s d := by
  obtain ⟨i, hi⟩ : ∃ i, d.Fixed stockBootstrapMarkerName (some i) :=
    h.fixes (.entry _) (by simp)
  exact survivable_of_not_reorders (not_reorders_of_marked hi) fun keep junk =>
    .marked (h.crash keep junk) rfl

/-- Without leftovers every crash is survived. -/
theorem survivable_clean (h : d.Holds [.absent stockManifestName, .file stockInitName i₀ data])
    (hclean : ∀ name, blocksBootstrap name = true → d.Fixed name none) :
    Survivable i₀ data s d := by
  refine survivable_of_not_reorders ?_ fun keep junk => ?_
  · rintro keep ⟨-, -, name, hname, hpending, -⟩
    exact (hclean name hname).quiet _ hpending rfl
  · have hcrash := h.crash keep junk
    have hsettled : ∀ name v, (d.crash keep junk).lookup name = v →
        (d.crash keep junk).Fixed name v := fun name v hv => ⟨hv, by simp [Disk.crash]⟩
    cases hmarker : (d.crash keep junk).lookup stockBootstrapMarkerName with
    | none =>
      refine .clean ?_ fun name hname => (hclean name hname).crash keep junk
      have hcons : (d.crash keep junk).Holds (.absent stockBootstrapMarkerName :: _) :=
        hcrash.cons (hsettled _ _ hmarker)
      exact hcons.subset (by simp)
    | some i =>
      refine .marked ?_ rfl
      have hcons : (d.crash keep junk).Holds (.entry stockBootstrapMarkerName :: _) :=
        hcrash.cons ⟨i, hsettled _ _ hmarker⟩
      exact hcons.subset (by simp)

/-- With a complete first generation every crash is survived. -/
theorem survivable_published {i j k : Ino} (h : d.Holds (publishedPins 1 s i j k [])) :
    Survivable i₀ data s d := by
  refine survivable_of_not_reorders ?_ fun keep junk => .published i j k (h.crash keep junk)
  rintro keep ⟨hmanifest, -⟩
  have hpinned : d.Pinned stockManifestName i (manifestText 1) :=
    h.fixes (.file _ i _) (by simp [publishedPins])
  rw [hpinned.lookup] at hmanifest
  cases hmanifest

/-- While the first generation is published every crash is survived. -/
theorem survivable_publishing (h : Publishing [.absent stockManifestName]
    [.entry stockBootstrapMarkerName, .file stockInitName i₀ data] 1 s d) :
    Survivable i₀ data s d := by
  cases h with
  | before h => exact survivable_marked h
  | switching j k h =>
    cases h with
    | before h => exact survivable_marked (h.subset (by simp))
    | after i h => exact @survivable_published _ _ _ _ i j k (h.subset (by simp [publishedPins]))
    | renamed d₀ i h hd =>
      obtain ⟨m, hm⟩ : ∃ m, d₀.Fixed stockBootstrapMarkerName (some m) :=
        h.holds.fixes (.entry _) (by simp)
      have hother : ¬ (Change.rename stockManifestTmpName stockManifestName i).Touches
          stockBootstrapMarkerName := not_or.mpr ⟨by decide, by decide⟩
      subst hd
      refine survivable_of_not_reorders (not_reorders_of_marked (hm.change hother))
        fun keep junk => ?_
      have hmanifest : stockManifestName ∉ ([Pin.file (generationName stockAofName 1) k [],
          .file (generationName stockSnapshotName 1) j (snapshotText s),
          .entry stockBootstrapMarkerName, .file stockInitName i₀ data]).map Pin.name := by
        simp only [List.map_cons, List.map_nil, Pin.name]
        decide +kernel
      rcases h.rename_crash hmanifest keep junk with hold | hnew
      · exact .marked (hold.subset (by simp)) rfl
      · exact .published i j k (hnew.subset (by simp [publishedPins]))

/-! ## Cleaning up after an interrupted bootstrap -/

/-- A cleanup for bootstrap that has still to look at the entries `rest`: all it has done is to
unlink leftovers, and every leftover that is still there is among the entries to come. -/
structure Cleaning (d : Disk) (rest : List Name) : Prop where
  pending : ∀ c ∈ d.pending, ∃ name, blocksBootstrap name = true ∧
    (d.durable.lookup name).isSome ∧ c = .unlink name
  left : ∀ name, blocksBootstrap name = true → d.lookup name = none ∨ name ∈ rest

/-- What a cleanup for bootstrap shows of a name. -/
theorem Cleaning.lookup {rest : List Name} (h : Cleaning d rest) (name : Name) :
    d.lookup name = if .unlink name ∈ d.pending then none else d.durable.lookup name :=
  Change.lookup_applyAll_unlinks (fun c hc => (h.pending c hc).imp fun _ h => h.2.2) _ _

/-- An entry that does not block bootstrap is passed over. -/
theorem Cleaning.skip {entry : Name} {rest : List Name} (h : Cleaning d (entry :: rest))
    (hentry : blocksBootstrap entry = false) : Cleaning d rest := by
  refine ⟨h.pending, fun name hname => (h.left name hname).imp_right fun hmem => ?_⟩
  rcases List.mem_cons.mp hmem with rfl | hmem
  · rw [hentry] at hname
    cases hname
  · exact hmem

/-- A leftover is unlinked. -/
theorem Cleaning.unlink {entry : Name} {rest : List Name} (h : Cleaning d (entry :: rest))
    (hentry : blocksBootstrap entry = true) {c : Choice} (hc : c.Fine) :
    Cleaning (perform d (.unlink entry) c).2 rest := by
  have hfine : c.fail = false := hc
  have hlookup := h.lookup entry
  simp only [perform, hfine, Bool.false_eq_true, ↓reduceIte]
  cases hl : d.lookup entry with
  | none =>
    refine ⟨h.pending, fun name hname => ?_⟩
    rcases h.left name hname with hnone | hmem
    · exact Or.inl hnone
    · rcases List.mem_cons.mp hmem with rfl | hmem
      · exact Or.inl hl
      · exact Or.inr hmem
  | some i =>
    refine ⟨fun x hx => ?_, fun name hname => ?_⟩
    · rcases List.mem_append.mp hx with hx | hx
      · exact h.pending x hx
      · rw [hl] at hlookup
        split_ifs at hlookup with hgone
        · refine ⟨entry, hentry, ?_, List.mem_singleton.mp hx⟩
          show (d.durable.lookup entry).isSome
          rw [← hlookup]
          rfl
    · by_cases hne : name = entry
      · subst hne
        left
        show (d.change (.unlink name)).lookup name = none
        rw [Disk.lookup_change]
        exact AList.lookup_erase _ _
      · have hother : (d.change (.unlink entry)).lookup name = d.lookup name :=
          Disk.lookup_change_of_not_touches (Ne.symm hne)
        refine (h.left name hname).imp (fun hnone => hother.trans hnone) fun hmem => ?_
        exact (List.mem_cons.mp hmem).resolve_left hne

/-- **Cleanup for bootstrap removes all leftovers** when no call fails and all names fit. -/
theorem ensures_cleanupEntries_bootstrap {entries : List Name} (hfits : ∀ e ∈ entries, Fits e)
    {d : Disk} (h : Cleaning d entries) :
    Ensures Choice.Fine (fun _ => True) (fun r d => r = .returned .ok ∧ Cleaning d [])
      (cleanupEntries 0 entries) d := by
  induction entries generalizing d with
  | nil => exact ⟨trivial, rfl, h⟩
  | cons entry entries ih =>
    have hrest : ∀ e ∈ entries, Fits e := fun e he => hfits e (List.mem_cons_of_mem _ he)
    refine ensures_cleanupEntries_cons trivial (fun hlong => absurd (hfits entry (by simp)) hlong)
      (fun _ hspared => ih hrest (h.skip (spared_zero_iff.mp hspared))) fun _ hnot c hc => ?_
    have hfine : c.fail = false := hc
    have hblocks : blocksBootstrap entry = true := by
      rwa [spared_zero_iff, Bool.not_eq_false] at hnot
    rw [hfine, if_neg Bool.false_ne_true]
    exact ih hrest (h.unlink hblocks hc)

/-- The marker does not block bootstrap. -/
theorem blocksBootstrap_marker : blocksBootstrap stockBootstrapMarkerName = false := by decide

/-- Without the marker the other pins hold. -/
theorem holds_unlinked (h : d.Holds [.absent stockManifestName, .entry stockBootstrapMarkerName,
    .file stockInitName i₀ data]) : (d.change (.unlink stockBootstrapMarkerName)).Holds
      [.absent stockManifestName, .file stockInitName i₀ data] := by
  refine ⟨h.wf.unlink _, fun p hp => ?_⟩
  have hp' : d.Fixes p := h.fixes p (by simp only [List.mem_cons] at hp ⊢; tauto)
  refine hp'.of_effect h.wf (o := .unlink stockBootstrapMarkerName) ?_
    (fun _ _ _ _ => trivial) .unlink
  simp only [List.mem_cons, List.not_mem_nil, or_false] at hp
  rcases hp with rfl | rfl
  · show stockBootstrapMarkerName ≠ stockManifestName
    decide
  · show stockBootstrapMarkerName ≠ stockInitName
    decide

/-- The marker is none of the leftovers. -/
theorem ne_marker_of_blocks {name : Name} (h : blocksBootstrap name = true) :
    name ≠ stockBootstrapMarkerName := by
  rintro rfl
  rw [blocksBootstrap_marker] at h
  cases h

/-- A cleanup has not unlinked the marker. -/
theorem Cleaning.marker_notMem {rest : List Name} (h : Cleaning d rest) :
    .unlink stockBootstrapMarkerName ∉ d.pending := by
  intro hmem
  obtain ⟨name, hname, -, heq⟩ := h.pending _ hmem
  exact ne_marker_of_blocks hname (Change.unlink.inj heq).symm

/-- What a crash leaves that keeps the unlink of the marker: the marker is gone, and a leftover is
gone if and only if its unlink is kept. -/
theorem Cleaning.lookup_unlinked (h : Cleaning d []) {keep : List Bool}
    (hkept : Change.kept (d.change (.unlink stockBootstrapMarkerName)).pending keep =
      Change.kept d.pending keep ++ [.unlink stockBootstrapMarkerName]) (junk : Ino → Bytes) :
    ((d.change (.unlink stockBootstrapMarkerName)).crash keep junk).lookup
        stockBootstrapMarkerName = none ∧
      ∀ name, blocksBootstrap name = true →
        ((d.change (.unlink stockBootstrapMarkerName)).crash keep junk).lookup name =
          if .unlink name ∈ Change.kept d.pending keep then none else d.durable.lookup name := by
  have hunlinks : ∀ c ∈ Change.kept d.pending keep ++ [.unlink stockBootstrapMarkerName],
      ∃ name, c = .unlink name := by
    intro c hc
    rcases List.mem_append.mp hc with hc | hc
    · exact (h.pending c ((Change.kept_sublist _ _).subset hc)).imp fun _ h => h.2.2
    · exact ⟨_, List.mem_singleton.mp hc⟩
  have hlookup : ∀ name, ((d.change (.unlink stockBootstrapMarkerName)).crash keep junk).lookup
      name = if .unlink name ∈ Change.kept d.pending keep ++ [.unlink stockBootstrapMarkerName]
        then none else d.durable.lookup name := by
    intro name
    rw [← Change.lookup_applyAll_unlinks hunlinks, ← hkept]
    rfl
  refine ⟨by rw [hlookup, if_pos (by simp)], fun name hname => ?_⟩
  rw [hlookup]
  refine if_congr ?_ rfl rfl
  simp [ne_marker_of_blocks hname]

/-- A crash in order that keeps the unlink of the marker has kept that of every leftover. -/
theorem Cleaning.bootable_unlinked (h : d.Holds [.absent stockManifestName,
    .entry stockBootstrapMarkerName, .file stockInitName i₀ data]) (hcleaning : Cleaning d [])
    {keep : List Bool}
    (hkept : Change.kept (d.change (.unlink stockBootstrapMarkerName)).pending keep =
      Change.kept d.pending keep ++ [.unlink stockBootstrapMarkerName])
    (horder : ¬ Reorders (d.change (.unlink stockBootstrapMarkerName)) keep) (junk : Ino → Bytes) :
    Bootable i₀ data s ((d.change (.unlink stockBootstrapMarkerName)).crash keep junk) := by
  obtain ⟨hmarker, hleftover⟩ := hcleaning.lookup_unlinked hkept junk
  have hnew := holds_unlinked h
  have hsettled : ∀ name, ((d.change (.unlink stockBootstrapMarkerName)).crash keep junk).lookup
      name = none → ((d.change (.unlink stockBootstrapMarkerName)).crash keep junk).Fixed
        name none := fun name hv => ⟨hv, by simp [Disk.crash]⟩
  have hcons : ((d.change (.unlink stockBootstrapMarkerName)).crash keep junk).Holds
      (.absent stockBootstrapMarkerName :: _) := (hnew.crash keep junk).cons (hsettled _ hmarker)
  refine .clean (hcons.subset (by simp)) fun name hname => hsettled name ?_
  rw [hleftover name hname]
  split_ifs with hgone
  · rfl
  · -- its unlink was not even pending
    have hquiet : .unlink name ∉ d.pending := by
      intro hpending
      refine horder ⟨(hnew.fixes (.absent _) (by simp)).lookup, by rw [hkept]; simp, name, hname,
        List.mem_append_left _ hpending, ?_⟩
      rw [hkept]
      simp [ne_marker_of_blocks hname, hgone]
    have hnone := (hcleaning.left name hname).resolve_right List.not_mem_nil
    rwa [hcleaning.lookup, if_neg hquiet] at hnone

/-- A crash out of order leaves a leftover without the marker. -/
theorem Cleaning.rejected_unlinked (h : d.Holds [.absent stockManifestName,
    .entry stockBootstrapMarkerName, .file stockInitName i₀ data]) (hcleaning : Cleaning d [])
    {keep : List Bool}
    (hkept : Change.kept (d.change (.unlink stockBootstrapMarkerName)).pending keep =
      Change.kept d.pending keep ++ [.unlink stockBootstrapMarkerName])
    (hreorders : Reorders (d.change (.unlink stockBootstrapMarkerName)) keep) (junk : Ino → Bytes) :
    Rejected ((d.change (.unlink stockBootstrapMarkerName)).crash keep junk) := by
  obtain ⟨hmarker, hleftover⟩ := hcleaning.lookup_unlinked hkept junk
  have hcrash := (holds_unlinked h).crash keep junk
  obtain ⟨-, -, name, hname, hpending, hlost⟩ := hreorders
  refine ⟨rfl, (hcrash.fixes (.absent _) (by simp)).lookup, hmarker, name, hname, ?_⟩
  rw [hkept, List.mem_append, not_or] at hlost
  rw [hleftover name hname, if_neg hlost.1]
  have hpending : .unlink name ∈ d.pending := by
    rcases List.mem_append.mp hpending with hpending | hpending
    · exact hpending
    · exact absurd hpending hlost.2
  obtain ⟨name', -, hsome, heq⟩ := hcleaning.pending _ hpending
  obtain rfl := Change.unlink.inj heq
  exact hsome

/-- **The one point where order matters**: the leftovers and the marker have been unlinked, and the
directory has not been fsynced.

**Proof sketch.** Without the unlink of the marker the crash leaves the marker.  With it, every
leftover is gone exactly when its unlink is kept. -/
theorem survivable_unlinked (h : d.Holds [.absent stockManifestName,
    .entry stockBootstrapMarkerName, .file stockInitName i₀ data]) (hcleaning : Cleaning d []) :
    Survivable i₀ data s (d.change (.unlink stockBootstrapMarkerName)) := by
  intro keep junk
  have hkept : Change.kept (d.change (.unlink stockBootstrapMarkerName)).pending keep =
      Change.kept d.pending keep ∨
    Change.kept (d.change (.unlink stockBootstrapMarkerName)).pending keep =
      Change.kept d.pending keep ++ [.unlink stockBootstrapMarkerName] :=
    Change.kept_concat d.pending _ keep
  rcases hkept with hkept | hkept
  · -- the marker is still there
    have hsame : (d.change (.unlink stockBootstrapMarkerName)).crash keep junk =
        d.crash keep junk := by
      rw [Disk.crash, hkept]
      rfl
    refine ⟨fun _ => ?_, fun hreorders => ?_⟩
    · rw [hsame]
      exact .marked (h.crash keep junk) rfl
    · have hmarker := hreorders.2.1
      rw [hkept] at hmarker
      exact absurd ((Change.kept_sublist _ _).subset hmarker) hcleaning.marker_notMem
  · exact ⟨fun horder => Cleaning.bootable_unlinked h hcleaning hkept horder junk,
      fun hreorders => Cleaning.rejected_unlinked h hcleaning hkept hreorders junk⟩

/-- The directories in which bootstrap may create its marker. -/
structure Prepared (i₀ : Ino) (data : Bytes) (d : Disk) : Prop where
  holds : d.Holds [.absent stockManifestName, .file stockInitName i₀ data]
  clean : ∀ name, blocksBootstrap name = true → d.Fixed name none

/-- Cleaning a settled directory of fitting names for bootstrap. -/
theorem ensures_cleanup_bootstrap (hsettled : d.pending = []) (hfits : Fitting d) :
    Ensures Choice.Fine (fun _ => True) (fun r d => r = .returned .ok ∧ Cleaning d [])
      (cleanupOldGenerationFiles 0) d := by
  rw [cleanupOldGenerationFiles, ensures_op_bind]
  refine ⟨trivial, fun c hc => ?_⟩
  have hfine : c.fail = false := hc
  simp only [perform, hfine, Bool.false_eq_true, ↓reduceIte]
  refine ensures_cleanupEntries_bootstrap (fun name hname => ?_) ⟨?_, fun name _ => ?_⟩
  · obtain ⟨i, hi⟩ := Option.isSome_iff_exists.mp (Disk.mem_listing.mp hname)
    exact hfits name i (Disk.names_of_lookup hi)
  · simp [hsettled]
  · cases hl : d.lookup name with
    | none => exact Or.inl rfl
    | some i => exact Or.inr (Disk.mem_listing.mpr (by rw [hl]; rfl))

/-- **A startup that finds the marker** cleans up, and leaves a survivable disk at every call. -/
theorem ensures_prepareBootstrap_marked (h : d.Holds [.absent stockManifestName,
    .entry stockBootstrapMarkerName, .file stockInitName i₀ data]) (hsettled : d.pending = [])
    (hfits : Fitting d) : Ensures Choice.Fine (Survivable i₀ data s)
      (fun r d => r = .returned .ok ∧ Prepared i₀ data d) prepareBootstrap d := by
  obtain ⟨m, hm⟩ : ∃ m, d.Fixed stockBootstrapMarkerName (some m) := h.fixes (.entry _) (by simp)
  rw [prepareBootstrap, fileExists, ensures_op_bind]
  refine ⟨survivable_marked h, fun c hc => ?_⟩
  have hfine : c.fail = false := hc
  simp only [perform, hfine, hm.lookup, Bool.not_false, Option.isSome_some, Bool.and_self,
    ↓reduceIte]
  have hspared : ∀ p ∈ [Pin.absent stockManifestName, .entry stockBootstrapMarkerName,
      .file stockInitName i₀ data], Spared 0 p.name := by
    intro p hp
    have hnone : artifactGeneration p.name = none ∧ p.name ≠ stockManifestTmpName := by
      simp only [List.mem_cons, List.not_mem_nil, or_false] at hp
      rcases hp with rfl | rfl | rfl <;> simp only [Pin.name] <;> decide
    refine ⟨hnone.2, fun g hg => ?_⟩
    rw [hnone.1] at hg
    cases hg
  have hcleanup : Ensures Choice.Fine (Survivable i₀ data s) (Reports Choice.Fine .ok
      (fun d => d.Holds [.absent stockManifestName, .entry stockBootstrapMarkerName,
        .file stockInitName i₀ data] ∧ Cleaning d []) fun _ => True)
      (cleanupOldGenerationFiles 0) d :=
    ((ensures_cleanupOldGenerationFiles hspared (fun _ hd => survivable_marked hd) h).and
      (ensures_cleanup_bootstrap hsettled hfits)).mono (fun _ h => h.1)
        fun r d hr => Or.inl ⟨hr.2.1, hr.1.2, hr.2.2⟩
  refine (@ensures_ifOk _ _ _ _ _ _ (Prepared i₀ data) _ hcleanup ?_).mono (fun _ h => h)
    fun r d hr => hr.fine
  rintro d ⟨hd, hcleaning⟩
  obtain ⟨m, hm⟩ : ∃ m, d.Fixed stockBootstrapMarkerName (some m) := hd.fixes (.entry _) (by simp)
  have hclean : ∀ name, blocksBootstrap name = true →
      (d.change (.unlink stockBootstrapMarkerName)).syncDir.Fixed name none := by
    intro name hname
    have hne : stockBootstrapMarkerName ≠ name := by
      rintro rfl
      rw [blocksBootstrap_marker] at hname
      cases hname
    have hother : (d.change (.unlink stockBootstrapMarkerName)).lookup name = d.lookup name :=
      Disk.lookup_change_of_not_touches hne
    refine Disk.fixed_syncDir (hother.trans ?_)
    exact (hcleaning.left name hname).resolve_right List.not_mem_nil
  have hsynced := (holds_unlinked hd).syncDir
  rw [removeBootstrapMarker, ensures_op_bind]
  refine ⟨survivable_marked hd, fun c hc => ?_⟩
  have hfine : c.fail = false := hc
  simp only [perform, hfine, hm.lookup, Bool.false_eq_true, Option.isSome_some, ↓reduceIte]
  refine (ensures_fsyncParentDir (by decide) (survivable_unlinked hd hcleaning)
    (survivable_clean hsynced hclean)).mono (fun _ h => h) fun r d' hr => hr.mono ?_
      fun _ _ => trivial
  rintro _ rfl
  exact ⟨hsynced, hclean⟩

/-- **A startup that finds no marker and no leftovers** passes the guard. -/
theorem ensures_prepareBootstrap_clean (h : d.Holds [.absent stockManifestName,
    .absent stockBootstrapMarkerName, .file stockInitName i₀ data])
    (hclean : ∀ name, blocksBootstrap name = true → d.Fixed name none) :
    Ensures Choice.Fine (Survivable i₀ data s)
      (fun r d => r = .returned .ok ∧ Prepared i₀ data d) prepareBootstrap d := by
  have hm : d.Fixed stockBootstrapMarkerName none := h.fixes (.absent _) (by simp)
  have hd : d.Holds [.absent stockManifestName, .file stockInitName i₀ data] :=
    h.subset (by simp)
  rw [prepareBootstrap, fileExists, ensures_op_bind]
  refine ⟨survivable_clean hd hclean, fun c hc => ?_⟩
  have hfine : c.fail = false := hc
  simp only [perform, hfine, hm.lookup, Option.isSome_none, Bool.and_false, Bool.false_eq_true,
    ↓reduceIte]
  have hnone : ∀ name, (d.lookup name).isSome = true → blocksBootstrap name = false := by
    intro name hname
    rw [Bool.eq_false_iff]
    intro hblocks
    rw [(hclean name hblocks).lookup] at hname
    cases hname
  refine (ensures_guard_clean hnone (survivable_clean hd hclean)).mono (fun _ h => h) ?_
  rintro r d' ⟨hr, rfl⟩
  exact ⟨hr, hd, hclean⟩

/-! ## Whole startups -/

/-- Bootstrap writes to no name of its pins. -/
theorem untouched_bootstrap : Untouched [.absent stockManifestName]
    [.entry stockBootstrapMarkerName, .file stockInitName i₀ data] 1 := by
  have hnames : ∀ p ∈ [Pin.absent stockManifestName] ++
      [.entry stockBootstrapMarkerName, .file stockInitName i₀ data],
      p.name ∈ [stockManifestName, stockBootstrapMarkerName, stockInitName] := by
    intro p hp
    simp only [List.cons_append, List.nil_append, List.mem_cons, List.not_mem_nil, or_false] at hp
    rcases hp with rfl | rfl | rfl <;> simp [Pin.name]
  have hother : ∀ name ∈ [stockManifestName, stockBootstrapMarkerName, stockInitName],
      name ≠ stockManifestTmpName := by decide
  have hkept : ∀ name ∈ [stockBootstrapMarkerName, stockInitName],
      name ≠ stockManifestName ∧ artifactGeneration name = none := by decide
  have hps : ∀ p ∈ [Pin.entry stockBootstrapMarkerName, .file stockInitName i₀ data],
      p.name ∈ [stockBootstrapMarkerName, stockInitName] := by
    intro p hp
    simp only [List.mem_cons, List.not_mem_nil, or_false] at hp
    rcases hp with rfl | rfl <;> simp [Pin.name]
  refine ⟨fun p hp => hother _ (hnames p hp), fun p hp base hbase => ?_,
    fun p hp => (hkept _ (hps p hp)).1, fun p hp => (hkept _ (hps p hp)).2⟩
  refine (generationName_ne 1 hbase _ (List.mem_cons.mpr ?_)).symm
  rcases List.mem_cons.mp (hnames p hp) with hmanifest | hrest
  · exact Or.inl hmanifest
  · exact Or.inr (List.mem_cons_of_mem _ hrest)

/-- **Bootstrap from a prepared directory** leaves a survivable disk at every call and returns the
store of the init file. -/
theorem ensures_bootstrap_prepared (h : Prepared i₀ data d)
    (hloads : applyLines loadLine .nil (fileLines data) = (.ok, s)) :
    Ensures Choice.Fine (Survivable i₀ data s) (fun r _ => r = .returned (.ok, s))
      (bootstrapStore .nil) d := by
  -- one bootstrap for each name of a leftover, with that name pinned as absent
  have heach : ∀ name : {name : Name // blocksBootstrap name = true},
      Ensures Choice.Fine (fun d => d.Holds [.absent stockManifestName, .absent name.1,
          .file stockInitName i₀ data] ∨
        Publishing [.absent stockManifestName]
          [.entry stockBootstrapMarkerName, .file stockInitName i₀ data] 1 s d ∨
        ∃ i j k, d.Holds (publishedPins 1 s i j k [.file stockInitName i₀ data]))
      (fun r _ => r = .returned (.ok, s)) (bootstrapStore .nil) d := by
    rintro ⟨name, hname⟩
    have hpins : d.Holds
        [.absent stockManifestName, .absent name, .file stockInitName i₀ data] := by
      have hcons : d.Holds (.absent name :: _) := h.holds.cons (h.clean name hname)
      exact hcons.subset (by simp)
    have hother : name ≠ stockBootstrapMarkerName := by
      rintro rfl
      rw [blocksBootstrap_marker] at hname
      cases hname
    have hsub : [Pin.file stockInitName i₀ data] ⊆
        [.absent name, .file stockInitName i₀ data] := by simp
    refine (ensures_bootstrapStore hpins hsub ?_ untouched_bootstrap (fun d hd => ?_)
      (fun d hd => Or.inl hd) (fun d hd => Or.inr (Or.inl hd))
      fun d i j k hd => Or.inr (Or.inr ⟨i, j, k, hd⟩)).mono (fun _ h => h) fun r d hr => hr.fine.1
    · simp only [List.map_cons, List.map_nil, Pin.name, List.mem_cons, List.not_mem_nil, or_false,
        not_or]
      exact ⟨by decide, Ne.symm hother, by decide⟩
    · have hinit : d.Pinned stockInitName i₀ data := hd.fixes (.file _ i₀ _) (by simp)
      rw [imageOf, hinit.contents]
      exact hloads
  refine (ensures_forall heach).mono (fun d hd => ?_) fun r d hr =>
    hr ⟨stockManifestTmpName, by decide⟩
  by_cases hpublishing : Publishing [.absent stockManifestName]
      [.entry stockBootstrapMarkerName, .file stockInitName i₀ data] 1 s d
  · exact survivable_publishing hpublishing
  by_cases hpublished : ∃ i j k, d.Holds (publishedPins 1 s i j k [.file stockInitName i₀ data])
  · obtain ⟨i, j, k, hpublished⟩ := hpublished
    exact @survivable_published _ _ _ _ i j k (hpublished.subset (by simp [publishedPins]))
  have hclean : ∀ name : {name : Name // blocksBootstrap name = true},
      d.Holds [.absent stockManifestName, .absent name.1, .file stockInitName i₀ data] :=
    fun name => (hd name).resolve_right (not_or.mpr ⟨hpublishing, hpublished⟩)
  refine survivable_clean ((hclean ⟨stockManifestTmpName, by decide⟩).subset (by simp))
    fun name hname => ?_
  exact (hclean ⟨name, hname⟩).fixes (.absent name) (by simp)

/-- A startup that misses the manifest and meets no failure: it is prepared, then it bootstraps. -/
theorem ensures_recover_prepared {crash good : Disk → Prop}
    {post : Outcome (StockStatus × StockStore) → Disk → Prop} {store : StockStore}
    (hmanifest : manifestOf d = (.errNotFound, 0)) (hcrash : crash d)
    (hprepare : Ensures Choice.Fine crash (fun r d => r = .returned .ok ∧ good d)
      prepareBootstrap d)
    (hinit : ∀ d, good d → (d.lookup stockInitName).isSome = true)
    (hboot : ∀ d, good d → Ensures Choice.Fine crash post (bootstrapStore store) d) :
    Ensures Choice.Fine crash post (recoverStockStore store) d := by
  refine ensures_readManifest_bind hcrash ?_ fun _ hfault => absurd hfault not_fault
  rw [hmanifest]
  dsimp only
  rw [if_pos rfl]
  refine hprepare.bind (fun prepared d₁ hd₁ h => ?_) fun code d₁ _ h => by cases h.1
  obtain ⟨hprepared, hgood⟩ := h
  obtain rfl : prepared = .ok := Outcome.returned.inj hprepared
  rw [if_neg (not_not.mpr rfl), fileExists, ensures_op_bind]
  refine ⟨hd₁, fun c hc => ?_⟩
  have hfine : c.fail = false := hc
  simp only [perform, hfine, hinit d₁ hgood, Bool.not_false, Bool.and_self, ↓reduceIte]
  exact hboot d₁ hgood

/-- A startup from a directory that can be prepared returns the store of the init file. -/
theorem ensures_recover_unpublished (hmanifest : d.Fixed stockManifestName none)
    (hloads : applyLines loadLine .nil (fileLines data) = (.ok, s))
    (hsurvivable : Survivable i₀ data s d)
    (hprepare : Ensures Choice.Fine (Survivable i₀ data s)
      (fun r d => r = .returned .ok ∧ Prepared i₀ data d) prepareBootstrap d) :
    Ensures Choice.Fine (Survivable i₀ data s) (fun r _ => r = .returned (.ok, s))
      (recoverStockStore .nil) d := by
  refine ensures_recover_prepared (manifestOf_of_lookup hmanifest.lookup) hsurvivable hprepare
    (fun d₁ hd₁ => ?_)
    fun d₁ hd₁ => ensures_bootstrap_prepared hd₁ hloads
  have hinit : d₁.Pinned stockInitName i₀ data := hd₁.holds.fixes (.file _ i₀ _) (by simp)
  rw [hinit.lookup]
  rfl

/-- **Every startup from a bootable directory** leaves a survivable disk at every call, and returns
the records of the init file if it is not cut off. -/
theorem ensures_recover_bootable (hloads : applyLines loadLine .nil (fileLines data) = (.ok, s))
    (h : Bootable i₀ data s d) (hfits : Fitting d) :
    Ensures Choice.Fine (Survivable i₀ data s)
      (fun r _ => ∃ s', r = .returned (.ok, s') ∧ SameMap s' s) (recoverStockStore .nil) d := by
  have hfirst : Ensures Choice.Fine (Survivable i₀ data s) (fun r _ => r = .returned (.ok, s))
      (recoverStockStore .nil) d → Ensures Choice.Fine (Survivable i₀ data s)
        (fun r _ => ∃ s', r = .returned (.ok, s') ∧ SameMap s' s) (recoverStockStore .nil) d :=
    fun h => h.mono (fun _ h => h) fun _ _ hr => ⟨s, hr, SameMap.refl s⟩
  cases h with
  | marked h hsettled =>
    exact hfirst (ensures_recover_unpublished (h.fixes (.absent _) (by simp)) hloads
      (survivable_marked h) (ensures_prepareBootstrap_marked h hsettled hfits))
  | clean h hclean =>
    exact hfirst (ensures_recover_unpublished (h.fixes (.absent _) (by simp)) hloads
      (survivable_clean (h.subset (by simp)) hclean) (ensures_prepareBootstrap_clean h hclean))
  | published i j k h =>
    have hord : Ordered s := by
      have hord := @Ordered.applyLines loadLine (fun _ line hs => hs.loadLine line) .nil
        (ordered_nil _) (fileLines data)
      rwa [hloads] at hord
    obtain ⟨base, hdescribes, hsame⟩ := @newFiles_describes s 1 (by decide) hord
      (storable_of_load hloads)
    have hshown : (newFiles 1 s).Shown d := @GenerationFiles.shown_of_holds _ _ i j k [] h
    have hmanifest : manifestOf d = (.ok, 1) := hshown.manifestOf hdescribes
    have himage : generationImage .nil d 1 = (.ok, base) := hshown.image hdescribes
    have hmarker : stockBootstrapMarkerName ∉ (publishedPins 1 s i j k []).map Pin.name := by
      simp only [publishedPins, List.map_cons, List.map_nil, Pin.name]
      decide +kernel
    refine ((ensures_recover_keeps hmanifest h hmarker).and
      (ensures_recover_of_manifest hmanifest)).mono (fun d hd => survivable_published hd.1)
        fun r d hr => ⟨base, ?_, hsame⟩
    rw [hr.2.2.resolve_right fun hbad => not_fault hbad.1, himage]

/-- A bootable directory is recovered. -/
theorem Bootable.recovers (h : Bootable i₀ data s d) (hfits : Fitting d)
    (hloads : applyLines loadLine .nil (fileLines data) = (.ok, s)) : Recovers d s :=
  fun _ hσ => (ensures_recover_bootable hloads h hfits).run hσ

/-- **A step of a run of crashes**: the directory stays bootable, or the crash was out of order and
the guard rejects what it left. -/
theorem Bootable.step (h : Bootable i₀ data s d) (hfits : Fitting d)
    (hloads : applyLines loadLine .nil (fileLines data) = (.ok, s)) (cut : CutStartup) :
    Fitting (startups.step d cut).1 ∧
      (InOrder d cut → Bootable i₀ data s (startups.step d cut).1) ∧
        (¬ InOrder d cut → Rejected (startups.step d cut).1) := by
  have hsurvivable := (ensures_recover_bootable hloads h hfits).after cut.fine cut.calls
  have hnames : Ensures Choice.Fine Fitting (fun _ d => Fitting d) (recoverStockStore .nil) d :=
    calls_recoverStockStore.ensures (fun _ _ c ho hd => hd.of_perform ho c) hfits
  have hfitting : Fitting (cut.reached d) := hnames.after cut.fine cut.calls
  exact ⟨hfitting.crash _ _, (hsurvivable cut.keep cut.junk).1,
    fun h => (hsurvivable cut.keep cut.junk).2 (not_not.mp h)⟩

/-! ## The guard -/

/-- A startup from a directory that the guard rejects changes nothing and reports it. -/
theorem ensures_recover_rejected (h : Rejected d) :
    Ensures Choice.Fine (· = d) (fun r _ => r = .returned (.errInvalid, .nil))
      (recoverStockStore .nil) d := by
  refine (ensures_recover_leftover h.manifest h.marker h.blocked).mono (fun _ hd => hd) ?_
  intro r d' h
  obtain ⟨-, status, hr, -, hinvalid⟩ := h
  rw [hr, hinvalid.resolve_right not_fault]

/-- **A directory that the guard rejects is not recovered.** -/
theorem not_recovers_of_rejected (h : Rejected d) : ¬ Recovers d s := by
  intro hrecovers
  have hfine : ∀ n : ℕ, ((fun _ => Choice.fine) n : Choice).Fine := fun _ => rfl
  obtain ⟨s', hs', -⟩ := hrecovers (fun _ => .fine) hfine
  have hrun := (ensures_recover_rejected h).run hfine
  rw [hs'] at hrun
  cases hrun

/-- It is rejected for good. -/
theorem Rejected.step (h : Rejected d) (cut : CutStartup) : Rejected (startups.step d cut).1 := by
  have hreached : cut.reached d = d := (ensures_recover_rejected h).after cut.fine cut.calls
  have hlookup : ∀ name, (startups.step d cut).1.lookup name = d.lookup name := by
    intro name
    have hkept : Change.kept d.pending cut.keep = [] := by
      rw [h.settled]
      cases cut.keep <;> rfl
    show (Change.applyAll (Change.kept (cut.reached d).pending cut.keep)
      (cut.reached d).durable).lookup name = d.lookup name
    rw [hreached, hkept, Disk.lookup, Disk.current, h.settled]
  refine ⟨rfl, (hlookup _).trans h.manifest, (hlookup _).trans h.marker, ?_⟩
  obtain ⟨name, hname, hsome⟩ := h.blocked
  exact ⟨name, hname, by rw [hlookup]; exact hsome⟩

/-! ## Runs of crashes -/

/-- From a bootable directory, the next startup recovers if and only if all crashes were in
order. -/
theorem Bootable.recovers_iff (h : Bootable i₀ data s d) (hfits : Fitting d)
    (hloads : applyLines loadLine .nil (fileLines data) = (.ok, s)) (cuts : List CutStartup) :
    Recovers (startups.run d cuts).1 s ↔ startups.Meets InOrder d cuts := by
  have hrejected : ∀ (cuts : List CutStartup) (d : Disk), Rejected d →
      Rejected (startups.run d cuts).1 := by
    intro cuts
    induction cuts with
    | nil => exact fun d hd => hd
    | cons cut cuts ih => exact fun d hd => ih _ (hd.step cut)
  induction cuts generalizing d with
  | nil => exact iff_of_true (h.recovers hfits hloads) trivial
  | cons cut cuts ih =>
    obtain ⟨hfits', hkeeps, hrejects⟩ := h.step hfits hloads cut
    rw [Machine.run_cons, Machine.Meets]
    by_cases horder : InOrder d cut
    · exact (ih (hkeeps horder) hfits').trans (and_iff_right horder).symm
    · refine iff_of_false (not_recovers_of_rejected ?_) fun hmeets => horder hmeets.1
      exact hrejected cuts _ (hrejects horder)

/-- The directory with nothing but an init file is bootable. -/
theorem OnlyInit.bootable (h : OnlyInit d i₀ data s) : Bootable i₀ data s d ∧ Fitting d := by
  have hdiffer : ∀ name, blocksBootstrap name = true → name ≠ stockInitName := by
    rintro name hname rfl
    exact absurd hname (by decide)
  constructor
  · refine .clean ?_ fun name hname => h.only name (hdiffer name hname)
    have hmarker : d.Holds (.absent stockBootstrapMarkerName :: _) :=
      h.holds.cons (h.only _ (by decide))
    exact hmarker.cons (h.only stockManifestName (by decide))
  · intro name i hname
    by_cases hinit : name = stockInitName
    · rw [hinit]
      decide
    · have hnone := h.only name hinit
      rcases hname with hname | ⟨c, hc, hname⟩
      · rw [hnone.durable] at hname
        cases hname
      · exact absurd (Change.touches_of_names hname) (hnone.quiet c hc)

/-- **Repeated crashes during bootstrap.**  The directory holds a loadable init file and nothing
else, and any number of startups are cut off by crashes.  Then the next startup that is not cut
off returns `STOCK_OK` with exactly the records of the init file, and the guard does not reject the
directory, if and only if no crash, while there was no manifest, kept the unlink of the marker and
lost that of a leftover. -/
theorem recovers_iff_inOrder (h : OnlyInit d i₀ data s) (cuts : List CutStartup) :
    Recovers (startups.run d cuts).1 s ∧ ¬ Rejected (startups.run d cuts).1 ↔
      startups.Meets InOrder d cuts := by
  obtain ⟨hbootable, hfits⟩ := h.bootable
  rw [← hbootable.recovers_iff hfits h.loads]
  exact and_iff_left_of_imp fun hrecovers hrejected => not_recovers_of_rejected hrejected hrecovers

/-- A directory with an init file of one record. -/
def initDirectory : Disk := oneItemDirectory "1 5 100\n"

theorem initDirectory_onlyInit :
    OnlyInit initDirectory 0 (ascii "1 5 100\n") (.node ⟨1, 5, 100⟩ .nil .nil) where
  holds := Disk.holds_empty.add (by simp) rfl
  only name hname := by
    have hnone : initDirectory.lookup name = none := by
      rw [initDirectory, oneItemDirectory, Disk.lookup_add, if_neg hname]
      rfl
    exact ⟨hnone, fun c hc => by cases hc⟩
  loads := by decide +kernel

/-- The crash comes when the snapshot of the first generation has been created. -/
def snapshotCut : CutStartup := ⟨13, fun _ => .fine, fun _ => rfl, [true], fun _ => []⟩

/-- The crash comes when the marker has been unlinked; it keeps that unlink and loses the one
before it, of the snapshot. -/
def markerCut : CutStartup := ⟨5, fun _ => .fine, fun _ => rfl, [false, true], fun _ => []⟩

/-- After the first of these crashes alone, the next startup recovers exactly if the crash was in
order, as it was. -/
theorem recovers_iff_inOrder_snapshotCut :
    Recovers (startups.run initDirectory [snapshotCut]).1 (.node ⟨1, 5, 100⟩ .nil .nil) ∧
        ¬ Rejected (startups.run initDirectory [snapshotCut]).1 ↔
      startups.Meets InOrder initDirectory [snapshotCut] :=
  recovers_iff_inOrder initDirectory_onlyInit [snapshotCut]

/-- Two crashes leave a snapshot without a marker: the next startup is not cut off, and reports
`STOCK_ERR_INVALID`. -/
theorem markerCut_not_recovers :
    let d := (startups.run initDirectory [snapshotCut, markerCut]).1
    ((recoverStockStore .nil).run d fun _ => .fine).1 = .returned (.errInvalid, .nil) ∧
      ¬ Recovers d (.node ⟨1, 5, 100⟩ .nil .nil) := by
  intro d
  have hrejected : ((recoverStockStore .nil).run d fun _ => .fine).1 =
      .returned (.errInvalid, .nil) := by decide +kernel
  refine ⟨hrejected, fun hrecovers => ?_⟩
  obtain ⟨s', hs', -⟩ := hrecovers (fun _ => .fine) fun _ => rfl
  rw [hrejected] at hs'
  cases hs'

end StockServer
