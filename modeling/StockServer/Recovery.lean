import StockServer.Accounting
import StockServer.Publish

set_option relaxedAutoImplicit false
set_option autoImplicit false

/-!
# Recovery from a published generation, and bootstrap

What `recover_stock_store` returns and leaves behind: from a directory with a manifest, the store
that the snapshot and the log of its generation describe; from one without, the store of the init
file, published as generation 1.

## Main definitions

* `generationImage` — what the snapshot and the log of a generation describe, as a process sees
  them.

## Main results

* `ensures_recover_of_manifest`, `ensures_recover_cases` — recovery from a manifest, and the rule
  for recovery from any directory.
* `ensures_createBootstrapMarker`, `ensures_removeBootstrapMarker` — the marker.
* `ensures_ensureBootstrapRecoveryState` — the guard of bootstrap.
* `ensures_bootstrapStore` — bootstrap from the init file.
* `ensures_recover_ordered` — every recovered store is a search tree.
* `recovered_accounted_iff` — when the accounts of a server that has recovered its store are right.
-/

namespace StockServer

open Prog SearchTree

variable {ok : Choice → Prop} {crash : Disk → Prop} {d : Disk} {ps old : List Pin}
  {store : StockStore} {gen : StockGen}

/-! ## Recovery from a manifest -/

/-- What the snapshot and the log of a generation make of a store. -/
def generationImage (liveStore : StockStore) (d : Disk) (gen : StockGen) :
    StockStatus × StockStore :=
  let loaded := imageOf loadLine liveStore d (generationName stockSnapshotName gen)
  if loaded.1 ≠ .ok then loaded
  else imageOf replayLine loaded.2 d (generationName stockAofName gen)

/-- The image of a file depends on what a process sees under its name. -/
theorem imageOf_congr {step : StockStore → Bytes → StockStatus × StockStore} {d d' : Disk}
    {path : Name} (h : d'.contents path = d.contents path) :
    imageOf step store d' path = imageOf step store d path := by
  rw [imageOf, imageOf, h]

/-- So does the image of a generation. -/
theorem generationImage_congr {d d' : Disk}
    (h : ∀ name, name ≠ stockBootstrapMarkerName → d'.contents name = d.contents name) :
    generationImage store d' gen = generationImage store d gen := by
  have hsnapshot := h _ (generationName_ne gen (Or.inl rfl) stockBootstrapMarkerName (by simp))
  have haof := h _ (generationName_ne gen (Or.inr rfl) stockBootstrapMarkerName (by simp))
  simp only [generationImage, imageOf_congr hsnapshot, imageOf_congr haof]

/-- Removing the marker leaves everything else visible as it is. -/
theorem ensures_removeBootstrapMarker_contents :
    Ensures ok (fun _ => True) (fun r d' =>
      (∀ name, name ≠ stockBootstrapMarkerName → d'.contents name = d.contents name) ∧
        ((∃ status, r = .returned status) ∨ ∃ c, ok c ∧ ¬ c.Fine)) removeBootstrapMarker d := by
  rw [removeBootstrapMarker, ensures_op_bind]
  refine ⟨trivial, fun c _ => ?_⟩
  simp only [perform]
  split_ifs with hfail hpresent
  · exact ⟨trivial, fun _ _ => rfl, Or.inl ⟨_, rfl⟩⟩
  · refine (ensures_fsyncParentDir (by decide) trivial trivial).mono (fun _ h => h)
      fun r d' h => ⟨fun name hname => ?_, ?_⟩
    · have hkept : (d.change (.unlink stockBootstrapMarkerName)).contents name =
          d.contents name := Disk.contents_change (Ne.symm hname)
      rcases h with ⟨-, rfl⟩ | ⟨-, -, rfl | rfl⟩
      all_goals simpa using hkept
    · exact h.imp (fun h => ⟨_, h.1⟩) fun h => h.2.1
  · exact ⟨trivial, fun _ _ => rfl, Or.inl ⟨_, rfl⟩⟩

/-- So does removing a stale marker. -/
theorem ensures_removeStaleMarker :
    Ensures ok (fun _ => True) (fun r d' =>
      (∀ name, name ≠ stockBootstrapMarkerName → d'.contents name = d.contents name) ∧
        (r = .returned () ∨ ∃ c, ok c ∧ ¬ c.Fine)) removeStaleMarker d := by
  rw [removeStaleMarker, fileExists, ensures_op_bind]
  refine ⟨trivial, fun c _ => ?_⟩
  split_ifs
  · refine ensures_removeBootstrapMarker_contents.bind (fun status d' _ h =>
      ⟨trivial, h.1, Or.inl rfl⟩) fun code d' _ h => ⟨h.1, ?_⟩
    exact h.2.imp_left fun ⟨_, hr⟩ => by cases hr
  · exact ⟨trivial, fun _ _ => rfl, Or.inl rfl⟩

/-- **Loading a generation** returns its image, or has met a failure and says so. -/
theorem ensures_loadGeneration :
    Ensures ok (fun _ => True) (fun r d' => d' = d ∧
      (r = .returned (generationImage store d gen) ∨
        (∃ c, ok c ∧ ¬ c.Fine) ∧ ∀ s, r ≠ .returned (.ok, s))) (loadGeneration store gen) d := by
  rw [loadGeneration, buildGenerationPath_eq gen (Or.inl rfl)]
  simp only [buildGenerationPath_eq gen (Or.inr rfl)]
  refine (ensures_readFileInto trivial).bind (fun loaded d' _ h => ?_) fun code d' _ h => ?_
  · obtain ⟨rfl, hloaded | ⟨hfault, status, store', hloaded, hstatus⟩⟩ := h
    · obtain rfl : loaded = imageOf loadLine store d' (generationName stockSnapshotName gen) := by
        simpa using hloaded
      simp only [generationImage]
      split_ifs with hok
      · exact ⟨trivial, rfl, Or.inl rfl⟩
      · refine (ensures_readFileInto trivial).mono (fun _ h => h) fun r d'' h =>
          ⟨h.1, h.2.imp_right fun ⟨hfault, status, store', hr, hstatus⟩ => ⟨hfault, ?_⟩⟩
        intro s hs
        exact hstatus (congrArg Prod.fst (Outcome.returned.inj (hr.symm.trans hs)))
    · obtain rfl : loaded = (status, store') := by simpa using hloaded
      rw [if_pos hstatus]
      exact ⟨trivial, rfl, Or.inr ⟨hfault, fun s hs =>
        hstatus (congrArg Prod.fst (Outcome.returned.inj hs))⟩⟩
  · obtain ⟨-, hr | ⟨-, status, store', hr, -⟩⟩ := h <;> cases hr

/-- The recovery of a generation returns its image and changes nothing but the marker, or has met a
failure and says so. -/
theorem ensures_recoverGeneration :
    Ensures ok (fun _ => True) (fun r d' =>
      (∀ name, name ≠ stockBootstrapMarkerName → d'.contents name = d.contents name) ∧
        (r = .returned (generationImage store d gen) ∨
          (∃ c, ok c ∧ ¬ c.Fine) ∧ ∀ s, r ≠ .returned (.ok, s)))
      (removeStaleMarker >>= fun _ => loadGeneration store gen) d := by
  refine ensures_removeStaleMarker.bind (fun _ d' _ h => ?_) fun code d' _ h => ?_
  · rw [← generationImage_congr h.1]
    exact ensures_loadGeneration.mono (fun _ h => h) fun r d₂ hr =>
      ⟨fun name hname => hr.1 ▸ h.1 name hname, hr.2⟩
  · exact ⟨h.1, Or.inr ⟨h.2.resolve_left (by simp), by simp⟩⟩

/-- **Recovery from a manifest** returns the image of its generation and changes nothing but the
marker, or has met a failure and says so. -/
theorem ensures_recover_of_manifest (hmanifest : manifestOf d = (.ok, gen)) :
    Ensures ok (fun _ => True) (fun r d' =>
      (∀ name, name ≠ stockBootstrapMarkerName → d'.contents name = d.contents name) ∧
        (r = .returned (generationImage store d gen) ∨
          (∃ c, ok c ∧ ¬ c.Fine) ∧ ∀ s, r ≠ .returned (.ok, s))) (recoverStockStore store) d := by
  refine ensures_readManifest_bind trivial ?_ fun status hfault hok hfound => ?_
  · rw [hmanifest]
    exact ensures_recoverGeneration
  · simp only [hfound, ↓reduceIte, hok, ne_eq, not_false_eq_true]
    exact ⟨trivial, fun _ _ => rfl, Or.inr ⟨hfault, by simpa using hok⟩⟩

/-- Recovery from a manifest returns the image of its generation when no call fails. -/
theorem run_recover_fine (hmanifest : manifestOf d = (.ok, gen)) {σ : ℕ → Choice}
    (hσ : ∀ n, (σ n).Fine) :
    ((recoverStockStore store).run d σ).1 = .returned (generationImage store d gen) :=
  ((ensures_recover_of_manifest hmanifest).run hσ).2.resolve_right fun hbad => not_fault hbad.1

/-- The rule for recovery: it gives up with the store it was given, or it bootstraps from the disks
that a successful preparation leaves, or it loads the generation that the manifest names. -/
theorem ensures_recover_cases {A : Disk → Prop}
    {post : Outcome (StockStatus × StockStore) → Disk → Prop}
    (hfailed : ∀ status d, status ≠ .ok → post (.returned (status, store)) d)
    (hexited : ∀ code d, post (.exited code) d)
    (hprepare : (manifestOf d).1 = .errNotFound → Ensures ok (fun _ => True)
      (fun r d => r = .returned .ok → A d) prepareBootstrap d)
    (hboot : ∀ d, A d → Ensures ok (fun _ => True) post (bootstrapStore store) d)
    (hload : ∀ gen, manifestOf d = (.ok, gen) → Ensures ok (fun _ => True) post
      (removeStaleMarker >>= fun _ => loadGeneration store gen) d) :
    Ensures ok (fun _ => True) post (recoverStockStore store) d := by
  refine ensures_readManifest_bind trivial ?_ fun status _ hok hfound => ?_
  swap
  · simp only [hfound, ↓reduceIte, hok, ne_eq, not_false_eq_true]
    exact ⟨trivial, hfailed status d hok⟩
  rcases hmanifest : manifestOf d with ⟨status, gen⟩
  dsimp only
  split_ifs with hmissing hstatus
  · -- there is no manifest
    subst hmissing
    refine (hprepare (congrArg Prod.fst hmanifest)).bind (fun prepared d₁ _ h => ?_)
      fun code d₁ _ _ => hexited code d₁
    split_ifs with hprepared
    · exact ⟨trivial, hfailed prepared d₁ hprepared⟩
    rw [fileExists, ensures_op_bind]
    refine ⟨trivial, fun c _ => ?_⟩
    split_ifs
    · exact hboot d₁ (h (congrArg _ (not_not.mp hprepared)))
    · exact ⟨trivial, hfailed .errIo d₁ (by decide)⟩
  · exact ⟨trivial, hfailed status d hstatus⟩
  · -- the manifest names a generation
    rw [not_not.mp hstatus] at hmanifest
    exact hload gen hmanifest

/-! ## The marker -/

/-- **The marker** has an entry on disk once it has been created with success. -/
theorem ensures_createBootstrapMarker (hd : d.Holds ps)
    (hmarker : stockBootstrapMarkerName ∉ ps.map Pin.name) (hcrash : ∀ d, d.Holds ps → crash d) :
    Ensures ok crash (Reports ok .ok (·.Holds (.entry stockBootstrapMarkerName :: ps)) (·.Holds ps))
      createBootstrapMarker d := by
  rw [createBootstrapMarker, ensures_op_bind]
  refine ⟨hcrash _ hd, fun c hc => ?_⟩
  rcases hd.openWrite hmarker c with ⟨hnone, hkeep⟩ | ⟨i, hsome, hwriting⟩
  · have hfail : c.fail = true := fail_of_openWrite hnone
    rw [hnone]
    exact ⟨hcrash _ hkeep, Or.inr ⟨by simp, fault hc hfail, hkeep⟩⟩
  rw [hsome]
  dsimp only
  rw [ensures_op_bind]
  refine ⟨hcrash _ hwriting.holds, fun c hc => ?_⟩
  have hclosed := hwriting.close c
  cases hclose : c.fail with
  | true =>
    simp only [perform, hclose, ↓reduceIte, Bool.false_eq_true] at hclosed ⊢
    rw [ensures_op_bind]
    refine ⟨hcrash _ hclosed.holds, fun c' _ => ?_⟩
    have hunlinked := @Disk.Holds.of_spared _ _ hclosed.holds (.unlink stockBootstrapMarkerName)
      hmarker c'
    exact ⟨hcrash _ hunlinked, Or.inr ⟨by simp, fault hc hclose, hunlinked⟩⟩
  | false =>
    simp only [perform, hclose, ↓reduceIte, Bool.false_eq_true] at hclosed ⊢
    refine (ensures_fsyncParentDir (by decide) (hcrash _ hclosed.holds)
      (hcrash _ hclosed.holds.syncDir)).mono (fun _ h => h) fun r d' h => h.mono ?_ ?_
    · rintro _ rfl
      exact hclosed.entry_syncDir
    · rintro _ (rfl | rfl)
      exacts [hclosed.holds, hclosed.holds.syncDir]

/-- Removing the marker keeps the pins on other names. -/
theorem ensures_removeBootstrapMarker (hd : d.Holds ps)
    (hmarker : stockBootstrapMarkerName ∉ ps.map Pin.name) (hcrash : ∀ d, d.Holds ps → crash d) :
    Ensures ok crash (Reports ok .ok (·.Holds ps) (·.Holds ps)) removeBootstrapMarker d := by
  rw [removeBootstrapMarker, ensures_op_bind]
  refine ⟨hcrash _ hd, fun c hc => ?_⟩
  have hunlinked := @Disk.Holds.of_spared _ _ hd (.unlink stockBootstrapMarkerName) hmarker c
  revert hunlinked
  simp only [perform]
  split_ifs with hfail hpresent <;> intro hunlinked
  · exact ⟨hcrash _ hunlinked, Or.inr ⟨by simp, fault hc hfail, hunlinked⟩⟩
  · refine (ensures_fsyncParentDir (by decide) (hcrash _ hunlinked)
      (hcrash _ hunlinked.syncDir)).mono (fun _ h => h) fun r d' h => h.mono ?_ ?_
    · rintro _ rfl
      exact hunlinked.syncDir
    · rintro _ (rfl | rfl)
      exacts [hunlinked, hunlinked.syncDir]
  · exact ⟨hcrash _ hunlinked, Or.inl ⟨rfl, hunlinked⟩⟩

/-! ## The guard -/

/-- The names that do not block bootstrap. -/
theorem blocksBootstrap_eq_false_iff {name : Name} : blocksBootstrap name = false ↔
    name ≠ stockManifestTmpName ∧ artifactGeneration name = none := by
  simp [blocksBootstrap, Option.isSome_iff_ne_none]

/-- Generation 0 spares exactly the entries that do not block bootstrap. -/
theorem spared_zero_iff {name : Name} : Spared 0 name ↔ blocksBootstrap name = false := by
  rw [blocksBootstrap_eq_false_iff, Spared]
  refine and_congr_right fun _ => ?_
  cases hgen : artifactGeneration name with
  | none => simp
  | some gen =>
    have hpos := pos_of_artifactGeneration hgen
    have hne : gen ≠ 0 := fun hzero => by
      rw [hzero] at hpos
      exact absurd hpos (by decide)
    simp [hne]

/-- **The guard of bootstrap** rejects a directory that holds the temporary manifest or a file of a
generation, and accepts any other one.  It changes nothing. -/
theorem ensures_ensureBootstrapRecoveryState (hd : crash d) :
    Ensures ok crash (fun r d' => d' = d ∧
      ((r = .returned .ok ∧
          ∀ name, (d.lookup name).isSome = true → blocksBootstrap name = false) ∨
        (r = .returned .errInvalid ∧
          ∃ name, blocksBootstrap name = true ∧ (d.lookup name).isSome) ∨
        (r = .returned .errIo ∧ ∃ c, ok c ∧ ¬ c.Fine))) ensureBootstrapRecoveryState d := by
  rw [ensureBootstrapRecoveryState, ensures_op_bind]
  refine ⟨hd, fun c hc => ?_⟩
  cases hfail : c.fail with
  | true =>
    simp only [perform, hfail, ↓reduceIte]
    exact ⟨hd, rfl, Or.inr (Or.inr ⟨rfl, fault hc hfail⟩)⟩
  | false =>
    simp only [perform, hfail, Bool.false_eq_true, ↓reduceIte]
    have hlisted := fun name => @Disk.mem_listing d name c.listing
    revert hlisted
    generalize (if c.listing.isPerm d.current.keys then c.listing else d.current.keys) = entries
    intro hlisted
    split_ifs with hany
    · obtain ⟨name, hmem, hblocks⟩ := List.any_eq_true.mp hany
      exact ⟨hd, rfl, Or.inr (Or.inl ⟨rfl, name, hblocks, (hlisted name).mp hmem⟩)⟩
    · refine ⟨hd, rfl, Or.inl ⟨rfl, fun name hname => Bool.eq_false_iff.mpr fun hblocks => ?_⟩⟩
      exact hany (List.any_eq_true.mpr ⟨name, (hlisted name).mpr hname, hblocks⟩)

/-- A directory without an entry that blocks bootstrap is accepted. -/
theorem ensures_guard_clean
    (hclean : ∀ name, (d.lookup name).isSome = true → blocksBootstrap name = false)
    (hd : crash d) : Ensures Choice.Fine crash (fun r d' => r = .returned .ok ∧ d' = d)
      ensureBootstrapRecoveryState d := by
  refine (ensures_ensureBootstrapRecoveryState hd).mono (fun _ h => h) fun r d' h => ?_
  rcases h.2 with ⟨hr, -⟩ | ⟨-, name, hblocks, hname⟩ | ⟨-, hfault⟩
  · exact ⟨hr, h.1⟩
  · exact absurd hblocks (by rw [hclean name hname]; decide)
  · exact absurd hfault not_fault

/-! ## Bootstrap -/

/-- **Bootstrap from the init file** publishes the store of the init file as generation 1.  Until
the marker is on disk the pins of `qs` hold; from then on the marker is there until the generation
is complete. -/
theorem ensures_bootstrapStore {qs : List Pin} {s : StockStore}
    (hd : d.Holds (.absent stockManifestName :: qs)) (hsub : ps ⊆ qs)
    (hmarker : stockBootstrapMarkerName ∉ (Pin.absent stockManifestName :: qs).map Pin.name)
    (hnames : Untouched [.absent stockManifestName] (.entry stockBootstrapMarkerName :: ps) 1)
    (hload : ∀ d, d.Holds ps → imageOf loadLine store d stockInitName = (.ok, s))
    (h₁ : ∀ d, d.Holds (.absent stockManifestName :: qs) → crash d)
    (h₂ : ∀ d, Publishing [.absent stockManifestName] (.entry stockBootstrapMarkerName :: ps)
      1 s d → crash d)
    (h₃ : ∀ d i j k, d.Holds (publishedPins 1 s i j k ps) → crash d) :
    Ensures ok crash (Reports ok (.ok, s) (fun d => ∃ i j k, d.Holds (publishedPins 1 s i j k ps))
      fun _ => True) (bootstrapStore store) d := by
  refine (ensures_createBootstrapMarker hd hmarker h₁).bind (fun created d₁ hd₁ h => ?_)
    fun code d₁ _ h => Or.inr ⟨by simp, (h.resolve_left (by simp)).2.1, trivial⟩
  by_cases hcreated : created = .ok
  swap
  · obtain ⟨-, hfault, -⟩ := h.resolve_left fun hr => hcreated (by simpa using hr.1)
    rw [if_pos hcreated]
    exact ⟨hd₁, Or.inr ⟨by simpa using fun h => absurd h hcreated, hfault, trivial⟩⟩
  have hmarked := h.good (congrArg _ hcreated)
  rw [if_neg (not_not.mpr hcreated)]
  -- from here on the marker is on disk
  have hpins : d₁.Holds
      ([.absent stockManifestName] ++ (.entry stockBootstrapMarkerName :: ps)) := by
    refine hmarked.subset fun p hp => ?_
    simp only [List.cons_append, List.nil_append, List.mem_cons] at hp ⊢
    rcases hp with rfl | rfl | hp
    · simp
    · simp
    · exact Or.inr (Or.inr (hsub hp))
  have himage := hload d₁ (hpins.subset fun p hp => by simp [hp])
  refine (ensures_readFileInto hd₁).bind (fun loaded d₂ hd₂ h => ?_) fun code d₂ _ h => ?_
  swap
  · obtain ⟨-, hr | ⟨-, status, store', hr, -⟩⟩ := h <;> cases hr
  obtain ⟨rfl, hloaded | ⟨hfault, status, store', hloaded, hstatus⟩⟩ := h
  swap
  · obtain rfl : loaded = (status, store') := by simpa using hloaded
    rw [if_pos hstatus]
    exact ⟨hd₂, Or.inr ⟨by simpa using fun h => absurd h hstatus, hfault, trivial⟩⟩
  obtain rfl : loaded = (.ok, s) := by simpa [himage] using hloaded
  rw [if_neg (not_not.mpr rfl)]
  have hmanifest : manifestOf d₂ = (.errNotFound, 0) := by
    have habsent : d₂.Fixed stockManifestName none := hpins.fixes (.absent _) (by simp)
    simp [manifestOf, Disk.contents, habsent.lookup]
  refine (ensures_materializeStoreGeneration hpins (Or.inl ⟨hmanifest, rfl⟩) hnames
    h₂).bind (fun published d₃ hd₃ h => ?_)
      fun code d₃ _ h => Or.inr ⟨by simp, (h.resolve_left (by simp)).2.1, trivial⟩
  by_cases hpublished : published = .ok
  swap
  · obtain ⟨-, hfault, -⟩ := h.resolve_left fun hr => hpublished (by simpa using hr.1)
    rw [if_pos hpublished]
    exact ⟨hd₃, Or.inr ⟨by simpa using fun h => absurd h hpublished, hfault, trivial⟩⟩
  obtain ⟨i, j, k, hpub⟩ := h.good (congrArg _ hpublished)
  rw [if_neg (not_not.mpr hpublished)]
  have hkept : d₃.Holds (publishedPins 1 s i j k ps) := hpub.subset fun p hp => by
    simp only [publishedPins, List.mem_cons] at hp ⊢
    tauto
  have hother : stockBootstrapMarkerName ∉ (publishedPins 1 s i j k ps).map Pin.name := by
    simp only [publishedPins, List.map_cons, List.mem_cons, Pin.name, not_or]
    refine ⟨by decide, (generationName_ne 1 (Or.inr rfl) _ (by simp)).symm,
      (generationName_ne 1 (Or.inl rfl) _ (by simp)).symm, fun hmem => hmarker ?_⟩
    exact List.mem_cons_of_mem _ (List.map_subset _ hsub hmem)
  refine (ensures_removeBootstrapMarker hkept hother fun d hd => h₃ d i j k hd).bind
    (fun removed d₄ hd₄ h => ⟨hd₄, ?_⟩)
      fun code d₄ _ h => Or.inr ⟨by simp, (h.resolve_left (by simp)).2.1, trivial⟩
  rcases h with ⟨hr, hpub⟩ | ⟨hr, hfault, -⟩
  · obtain rfl : removed = .ok := by simpa using hr
    exact Or.inl ⟨rfl, i, j, k, hpub⟩
  · exact Or.inr ⟨fun h => hr (by simpa using h), hfault, trivial⟩

/-! ## Recoveries that return `STOCK_OK` -/

/-- Everything can happen. -/
theorem ensures_true {α : Type} (p : Prog α) (d : Disk) :
    Ensures ok (fun _ => True) (fun _ _ => True) p d := by
  induction p generalizing d with
  | ret a => exact ⟨trivial, trivial⟩
  | exit code => exact ⟨trivial, trivial⟩
  | call o k ih => exact ⟨trivial, fun c _ => ih _ _⟩

/-- Another status than `STOCK_OK` promises nothing. -/
theorem ok_of_returned {status : StockStatus} {s s' : StockStore} {P : Prop} (h : status ≠ .ok)
    (hr : Outcome.returned (status, s) = .returned (.ok, s')) : P :=
  absurd (congrArg Prod.fst (Outcome.returned.inj hr)) h

/-- **What a bootstrap leaves that returns `STOCK_OK`**: its stages leave it, each with whatever
calls failed. -/
theorem ensures_bootstrapStore_ok {A : Disk → Prop} {C : StockStore → Disk → Prop}
    (hmarker : Ensures ok (fun _ => True) (fun _ d => A d) createBootstrapMarker d)
    (hpublish : ∀ d s, A d → imageOf loadLine store d stockInitName = (.ok, s) →
      Ensures ok (fun _ => True) (fun r d => r = .returned .ok → C s d)
        (materializeStoreGeneration s) d)
    (hremove : ∀ d s, C s d →
      Ensures ok (fun _ => True) (fun _ d => C s d) removeBootstrapMarker d) :
    Ensures ok (fun _ => True) (fun r d => ∀ s, r = .returned (.ok, s) → C s d)
      (bootstrapStore store) d := by
  refine hmarker.bind (fun created d₁ _ hd₁ => ?_) fun code d' _ _ s hs => by cases hs
  split_ifs with hcreated
  · exact ⟨trivial, fun s => ok_of_returned hcreated⟩
  refine (ensures_readFileInto trivial).bind (fun loaded d₂ _ hread => ?_)
    fun code d' _ _ s hs => by cases hs
  split_ifs with hloaded
  · exact ⟨trivial, fun s => ok_of_returned hloaded⟩
  obtain ⟨rfl, hread⟩ := hread
  have himage : imageOf loadLine store d₂ stockInitName = (.ok, loaded.2) := by
    rcases hread with hr | ⟨-, status, store', hr, hstatus⟩
    · rw [← Outcome.returned.inj hr]
      exact Prod.ext (not_not.mp hloaded) rfl
    · obtain rfl := Outcome.returned.inj hr
      exact absurd hstatus hloaded
  refine (hpublish d₂ loaded.2 hd₁ himage).bind (fun published d₃ _ hd₃ => ?_)
    fun code d' _ _ s hs => by cases hs
  split_ifs with hpublished
  · exact ⟨trivial, fun s => ok_of_returned hpublished⟩
  refine (hremove d₃ loaded.2 (hd₃ (congrArg _ (not_not.mp hpublished)))).bind
    (fun removed d₄ _ hd₄ => ⟨trivial, fun s hs => ?_⟩) fun code d' _ _ s hs => by cases hs
  obtain rfl : loaded.2 = s := congrArg Prod.snd (Outcome.returned.inj hs)
  exact hd₄

/-- **What a recovery leaves that returns `STOCK_OK`**: a bootstrap leaves it, or it holds of the
image of the generation that the manifest names. -/
theorem ensures_recoverStockStore_ok {A : Disk → Prop} {C : StockStore → Disk → Prop}
    (hprepare : (manifestOf d).1 = .errNotFound →
      Ensures ok (fun _ => True) (fun _ d => A d) prepareBootstrap d)
    (hbootstrap : ∀ d, A d → Ensures ok (fun _ => True)
      (fun r d => ∀ s, r = .returned (.ok, s) → C s d) (bootstrapStore store) d)
    (hload : ∀ gen s d', manifestOf d = (.ok, gen) → generationImage store d gen = (.ok, s) →
      (∀ name, name ≠ stockBootstrapMarkerName → d'.contents name = d.contents name) → C s d') :
    Ensures ok (fun _ => True) (fun r d => ∀ s, r = .returned (.ok, s) → C s d)
      (recoverStockStore store) d := by
  refine ensures_recover_cases (fun status _ hstatus s => ok_of_returned hstatus)
    (fun code _ s hs => by cases hs) (fun hmissing => ?_) hbootstrap fun gen hmanifest => ?_
  · exact (hprepare hmissing).mono (fun _ h => h) fun _ _ hd _ => hd
  · refine ensures_recoverGeneration.mono (fun _ h => h) fun r d' h s hs => ?_
    rcases h.2 with hr | ⟨-, hnot⟩
    · exact hload gen s d' hmanifest (Outcome.returned.inj (hr.symm.trans hs)) h.1
    · exact absurd hs (hnot s)

/-! ## Recovered stores are search trees -/

/-- An image of a search tree is one. -/
theorem ordered_imageOf {step : StockStore → Bytes → StockStatus × StockStore}
    (hstep : ∀ store line, Ordered store → Ordered (step store line).2) (h : Ordered store)
    (path : Name) : Ordered (imageOf step store d path).2 := by
  rw [imageOf]
  split
  · exact h
  · exact Ordered.applyLines hstep h _

/-- So is the image of a generation. -/
theorem ordered_generationImage (h : Ordered store) : Ordered (generationImage store d gen).2 := by
  have hloaded := ordered_imageOf (d := d) (fun _ line hs => hs.loadLine line) h
    (generationName stockSnapshotName gen)
  simp only [generationImage]
  split_ifs
  · exact hloaded
  · exact ordered_imageOf (fun _ line hs => hs.replayLine line) hloaded _

/-- **Every store that recovery returns with `STOCK_OK` is a search tree**, whatever is on disk
and whatever fails. -/
theorem ensures_recover_ordered (h : Ordered store) :
    Ensures ok (fun _ => True) (fun r _ => ∀ s, r = .returned (.ok, s) → Ordered s)
      (recoverStockStore store) d := by
  refine ensures_recoverStockStore_ok (A := fun _ => True) (C := fun s _ => Ordered s)
    (fun _ => ensures_true _ _) (fun d _ => ?_) fun gen s d' _ himage _ => ?_
  · refine ensures_bootstrapStore_ok (A := fun _ => True) (C := fun s _ => Ordered s)
      (ensures_true _ _) (fun d s _ himage => ?_) fun d s hs => ?_
    · have hs := ordered_imageOf (d := d) (fun _ line hs => hs.loadLine line) h stockInitName
      rw [himage] at hs
      exact (ensures_true _ _).mono (fun _ h => h) fun _ _ _ _ => hs
    · exact (ensures_true _ _).mono (fun _ h => h) fun _ _ _ => hs
  · have hs := @ordered_generationImage d store gen h
    rwa [himage] at hs

/-! ## The accounts of a recovered store -/

/-- **The accounts of a server that has recovered its store** are right, for a sequence of request
lines, if and only if no recovered quantity is negative and every sell of the sequence that finds
its item fits an `int`. -/
theorem recovered_accounted_iff {σ : ℕ → Choice}
    (h : ((recoverStockStore .nil).run d σ).1 = .returned (.ok, store)) (lines : List Bytes) :
    Accounted store lines ↔ SellsFit store lines := by
  have hordered := (@ensures_recover_ordered (fun _ => True) d .nil (ordered_nil _)).run (σ := σ)
    fun _ => trivial
  exact accounted_iff_sellsFit (hordered store h) lines

/-- A directory with an init file of one record. -/
def oneItemDirectory (record : String) : Disk := Disk.empty.add stockInitName (ascii record)

/-- A buy and a sell of an item with some left. -/
theorem recovered_accounted_iff_someLeft :
    let lines := [ascii "buy 1 2\n", ascii "sell 1 3\n"]
    Accounted (.node ⟨1, 5, 100⟩ .nil .nil) lines ↔ SellsFit (.node ⟨1, 5, 100⟩ .nil .nil) lines :=
  @recovered_accounted_iff (oneItemDirectory "1 5 100\n") _ (fun _ => .fine) (by decide +kernel) _

/-- A sell of one more of an item of which `INT_MAX` are left: `left_stock += delta` overflows. -/
theorem sell_not_accounted :
    ((recoverStockStore .nil).run (oneItemDirectory "1 2147483647 100\n") fun _ => .fine).1 =
        .returned (.ok, .node ⟨1, 2147483647, 100⟩ .nil .nil) ∧
      ¬ Accounted (.node ⟨1, 2147483647, 100⟩ .nil .nil) [ascii "sell 1 1\n"] := by
  refine ⟨by decide +kernel, fun h => ?_⟩
  have hmem : SignedOp.add 2147483647 1 ∈ signedOps
      (after (.node ⟨1, 2147483647, 100⟩ .nil .nil) []) (ascii "sell 1 1\n") := by decide +kernel
  have hfits := h.exact_ops [] (ascii "sell 1 1\n") (by simp) _ hmem
  exact absurd hfits.2 (by decide)

end StockServer
