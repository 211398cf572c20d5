import StockServer.Persistence

set_option relaxedAutoImplicit false
set_option autoImplicit false

/-!
# Publication of a generation

What `materialize_store_generation` does to the disk, at every call and under every pattern of
failing calls: until the manifest is renamed, everything that was pinned stays pinned; from then
on a complete new generation is there.

## Main definitions

* `Publishing` — the three kinds of disks that occur: the old pins hold, the rename of the
  manifest is pending over pinned new files, or the new generation is pinned.
* `NextOf` — the generation that a publication creates.

## Main results

* `ensures_writeFile` — a file written with success has its contents on disk.
* `ensures_saveSnapshotFile`, `ensures_createEmptyAofFile`, `ensures_writeManifestFile`,
  `ensures_cleanupOldGenerationFiles` — the steps.
* `ensures_cleanupEntries_cons` — the rule for one entry of a cleanup.
* `ensures_materializeStoreGeneration` — the whole publication.
-/

namespace StockServer

open Prog SearchTree

variable {ok : Choice → Prop} {crash : Disk → Prop} {d : Disk} {ps old : List Pin} {path : Name}
  {text : Bytes}

/-! ## Writing a file -/

/-- Only a failing call opens no file for writing. -/
theorem fail_of_openWrite {c : Choice} (h : (perform d (.openWrite path) c).1 = none) :
    c.fail = true := by
  by_contra hok
  simp only [perform, hok, ↓reduceIte] at h
  split at h <;> cases h

/-- Giving up a file that no pin is about keeps the pins. -/
theorem ensures_abandon {good : Disk → Prop} {i : Ino} {P : File → Prop} {status : StockStatus}
    (hd : d.Writing ps path i P) (hcrash : ∀ d, d.Holds ps → crash d) (hstatus : status ≠ .ok)
    (hfault : ∃ c, ok c ∧ ¬ c.Fine) :
    Ensures ok crash (Reports ok .ok good (·.Holds ps)) (abandon i path status) d := by
  rw [abandon, ensures_op_bind]
  refine ⟨hcrash _ hd.holds, fun c _ => ?_⟩
  have hclosed := (hd.close c).holds
  rw [ensures_op_bind]
  refine ⟨hcrash _ hclosed, fun c _ => ?_⟩
  have hunlinked := @Disk.Holds.of_spared _ _ hclosed (.unlink path) hd.other c
  exact ⟨hcrash _ hunlinked, Or.inr ⟨by simpa using hstatus, hfault, hunlinked⟩⟩

/-- A flush with success leaves the text in the file and nothing in the buffer. -/
theorem ensures_flushIfOk {i : Ino} (hd : d.Writing ps path i (·.text = text))
    (hcrash : ∀ d, d.Holds ps → crash d) :
    Ensures ok crash (Reports ok .ok (·.Writing ps path i fun f => f.data = text ∧ f.buffered = [])
      (·.Writing ps path i fun _ => True)) (flushIfOk i .ok) d := by
  rw [flushIfOk, if_pos rfl, ensures_op_bind]
  refine ⟨hcrash _ hd.holds, fun c hc => ?_⟩
  have hflushed := hd.flush c
  cases hfail : c.fail with
  | true =>
    simp only [perform, hfail, ↓reduceIte] at hflushed ⊢
    exact ⟨hcrash _ hflushed.holds,
      Or.inr ⟨by simp, fault hc hfail, hflushed.mono fun _ _ => trivial⟩⟩
  | false =>
    simp only [perform, hfail, Bool.false_eq_true, ↓reduceIte] at hflushed ⊢
    exact ⟨hcrash _ hflushed.holds, Or.inl ⟨rfl, hflushed.mono fun _ hf => hf trivial⟩⟩

/-- **A file written with success** has its contents on disk; whatever happens, the pins hold. -/
theorem ensures_writeFile {contents : Ino → Prog StockStatus} (hd : d.Holds ps)
    (hpath : path ∉ ps.map Pin.name) (hcrash : ∀ d, d.Holds ps → crash d)
    (hcontents : ∀ i d, d.Writing ps path i (·.text = []) →
      Ensures ok crash (Reports ok .ok (·.Writing ps path i (·.text = text))
        (·.Writing ps path i fun _ => True)) (contents i) d) :
    Ensures ok crash (Reports ok .ok
      (fun d => ∃ i, d.Writing ps path i fun f => f.data = text ∧ f.synced = true)
      (·.Holds ps)) (writeFile path contents) d := by
  rw [writeFile, ensures_op_bind]
  refine ⟨hcrash _ hd, fun c hc => ?_⟩
  rcases hd.openWrite hpath c with ⟨hnone, hkeep⟩ | ⟨i, hsome, hwriting⟩
  · have hfail : c.fail = true := fail_of_openWrite hnone
    rw [hnone]
    exact ⟨hcrash _ hkeep, Or.inr ⟨by simp, fault hc hfail, hkeep⟩⟩
  rw [hsome]
  refine (hcontents i _ hwriting).bind (fun status d₁ hd₁ h => ?_) fun code d₁ _ h =>
    Or.inr ((h.resolve_left fun hr => by cases hr.1).imp_right
      (And.imp_right Disk.Writing.holds))
  by_cases hstatus : status = .ok
  · subst hstatus
    refine (ensures_flushIfOk (h.good rfl) hcrash).bind (fun status d₂ hd₂ h => ?_)
      fun code d₂ _ h => Or.inr ((h.resolve_left fun hr => by cases hr.1).imp_right
        (And.imp_right Disk.Writing.holds))
    by_cases hstatus : status = .ok
    · have hflushed := h.good (congrArg _ hstatus)
      rw [if_neg (not_not.mpr hstatus), ensures_op_bind]
      refine ⟨hcrash _ hflushed.holds, fun c hc => ?_⟩
      have hsynced := hflushed.fsync c
      cases hfail : c.fail with
      | true =>
        simp only [perform, hfail, ↓reduceIte, Bool.false_eq_true] at hsynced ⊢
        exact ensures_abandon hsynced hcrash (by simp) (fault hc hfail)
      | false =>
        simp only [perform, hfail, ↓reduceIte, Bool.false_eq_true] at hsynced ⊢
        have hsynced' : Disk.Writing _ ps path i fun f =>
            f.data = text ∧ f.buffered = [] ∧ f.synced = true :=
          hsynced.mono fun f hf => ⟨hf.1, hf.2.1, hf.2.2 trivial⟩
        rw [ensures_op_bind]
        refine ⟨hcrash _ hsynced.holds, fun c hc => ?_⟩
        have hclosed := hsynced'.close_flushed c
        cases hclose : c.fail with
        | true =>
          simp only [perform, hclose, ↓reduceIte, Bool.false_eq_true] at hclosed ⊢
          rw [ensures_op_bind]
          refine ⟨hcrash _ hclosed.holds, fun c' _ => ?_⟩
          have hunlinked := @Disk.Holds.of_spared _ _ hclosed.holds (.unlink path) hclosed.other c'
          exact ⟨hcrash _ hunlinked, Or.inr ⟨by simp, fault hc hclose, hunlinked⟩⟩
        | false =>
          simp only [perform, hclose, ↓reduceIte, Bool.false_eq_true] at hclosed ⊢
          exact ⟨hcrash _ hclosed.holds, Or.inl ⟨rfl, i, hclosed⟩⟩
    · obtain ⟨-, hfault, hwriting⟩ := h.resolve_left fun hr => hstatus (by simpa using hr.1)
      rw [if_pos hstatus]
      exact ensures_abandon hwriting hcrash hstatus hfault
  · obtain ⟨-, hfault, hwriting⟩ := h.resolve_left fun hr => hstatus (by simpa using hr.1)
    rw [flushIfOk, if_neg hstatus, pure_bind, if_pos hstatus]
    exact ensures_abandon hwriting hcrash hstatus hfault

/-- A text printed to a file. -/
theorem ensures_printTo {i : Ino} {done : Bytes} (hd : d.Writing ps path i (·.text = done))
    (hcrash : ∀ d, d.Holds ps → crash d) :
    Ensures ok crash (Reports ok .ok (·.Writing ps path i (·.text = done ++ text))
      (·.Writing ps path i fun _ => True)) (printTo i text) d := by
  rw [printTo, ensures_op_bind]
  refine ⟨hcrash _ hd.holds, fun c hc => ?_⟩
  have hprinted := hd.print text c
  cases hfail : c.fail with
  | true =>
    simp only [perform, hfail, ↓reduceIte] at hprinted ⊢
    exact ⟨hcrash _ hprinted.holds,
      Or.inr ⟨by simp, fault hc hfail, hprinted.mono fun _ _ => trivial⟩⟩
  | false =>
    simp only [perform, hfail, Bool.false_eq_true, ↓reduceIte] at hprinted ⊢
    exact ⟨hcrash _ hprinted.holds, Or.inl ⟨rfl, hprinted.mono fun _ hf => hf trivial⟩⟩

/-- The lines of a list of items printed to a file. -/
theorem ensures_visitAll {i : Ino} (hcrash : ∀ d, d.Holds ps → crash d) (items : List StockItem)
    {done : Bytes} {d : Disk} (hd : d.Writing ps path i (·.text = done)) :
    Ensures ok crash (Reports ok .ok
      (·.Writing ps path i (·.text = done ++ items.flatMap stockLine))
      (·.Writing ps path i fun _ => True)) (visitAll (writeSnapshotNode i) items) d := by
  induction items generalizing done d with
  | nil =>
    exact ⟨hcrash _ hd.holds, Or.inl ⟨rfl, by simpa using hd⟩⟩
  | cons item items ih =>
    have hprinted := @ensures_printTo ok crash d ps path (stockLine item) i done hd hcrash
    have hrest := ensures_ifOk hprinted fun d hd => ih hd
    simpa [visitAll, writeSnapshotNode, ifOk] using hrest

/-! ## Publishing a generation -/

variable {store : StockStore} {gen : StockGen}

/-- A written file is pinned once the directory has been fsynced with success. -/
theorem ensures_syncWritten
    (hd : ∃ i, d.Writing ps path i fun f => f.data = text ∧ f.synced = true)
    (hlen : (dataPath path).length < stockPathSize) (hcrash : ∀ d, d.Holds ps → crash d) :
    Ensures ok crash (Reports ok .ok (fun d => ∃ i, d.Holds (.file path i text :: ps)) (·.Holds ps))
      (fsyncParentDir path) d := by
  obtain ⟨i, hwriting⟩ := hd
  have hsynced := hwriting.syncDir
  have hkept : d.syncDir.Holds ps := hsynced.subset (List.subset_cons_self _ _)
  refine (ensures_fsyncParentDir hlen (hcrash _ hwriting.holds) (hcrash _ hkept)).mono
    (fun _ h => h) fun r d' h => h.mono ?_ ?_
  · rintro _ rfl
    exact ⟨i, hsynced⟩
  · rintro _ (rfl | rfl)
    exacts [hwriting.holds, hkept]

/-- **The snapshot** is pinned once it has been saved with success. -/
theorem ensures_saveSnapshotFile (hd : d.Holds ps) (hpath : path ∉ ps.map Pin.name)
    (hlen : (dataPath path).length < stockPathSize) (hcrash : ∀ d, d.Holds ps → crash d) :
    Ensures ok crash
      (Reports ok .ok (fun d => ∃ i, d.Holds (.file path i (snapshotText store) :: ps))
        (·.Holds ps)) (saveSnapshotFile store path) d := by
  have hwrite := @ensures_writeFile ok crash d ps path (snapshotText store)
    (fun fp => stockStoreInorderWalk (writeSnapshotNode fp) store) hd hpath hcrash
    fun i d hd => by
      rw [stockStoreInorderWalk_eq]
      simpa [snapshotText] using ensures_visitAll hcrash (inorder store) hd
  exact ensures_ifOk hwrite fun d hd => ensures_syncWritten hd hlen hcrash

/-- **The empty log** is pinned once it has been created with success. -/
theorem ensures_createEmptyAofFile (hd : d.Holds ps) (hpath : path ∉ ps.map Pin.name)
    (hlen : (dataPath path).length < stockPathSize) (hcrash : ∀ d, d.Holds ps → crash d) :
    Ensures ok crash (Reports ok .ok (fun d => ∃ i, d.Holds (.file path i [] :: ps)) (·.Holds ps))
      (createEmptyAofFile path) d :=
  ensures_ifOk (ensures_writeFile hd hpath hcrash fun _ _ hd =>
      ⟨hcrash _ hd.holds, Or.inl ⟨rfl, hd⟩⟩)
    fun _ hd => ensures_syncWritten hd hlen hcrash

/-- The disks that occur while a manifest is written: the pins hold as before, the rename of the
written file is pending, or the new manifest is pinned. -/
inductive Switching (old ps : List Pin) (gen : StockGen) (d : Disk) : Prop
  | before (h : d.Holds (old ++ ps))
  | renamed (d₀ : Disk) (i : Ino) (h : d₀.Writing (old ++ ps) stockManifestTmpName i
      fun f => f.data = manifestText gen ∧ f.synced = true)
      (hd : d = d₀.change (.rename stockManifestTmpName stockManifestName i))
  | after (i : Ino) (h : d.Holds (.file stockManifestName i (manifestText gen) :: ps))

/-- **The manifest** is switched by the rename: with success the new one is pinned, and whatever
happens the disk is one of the three. -/
theorem ensures_writeManifestFile (hd : d.Holds (old ++ ps))
    (htmp : stockManifestTmpName ∉ (old ++ ps).map Pin.name)
    (hmanifest : stockManifestName ∉ ps.map Pin.name)
    (hcrash : ∀ d, Switching old ps gen d → crash d) :
    Ensures ok crash (Reports ok .ok
      (fun d => ∃ i, d.Holds (.file stockManifestName i (manifestText gen) :: ps))
      (Switching old ps gen)) (writeManifestFile gen) d := by
  have hbefore : ∀ d, d.Holds (old ++ ps) → crash d := fun d hd => hcrash d (.before hd)
  have hwrite := @ensures_writeFile ok crash d (old ++ ps) stockManifestTmpName
    (manifestText gen) (fun fp => printTo fp (manifestText gen)) hd htmp hbefore
    fun i d hd => ensures_printTo hd hbefore
  refine ensures_ifOk (hwrite.mono (fun _ h => h) fun _ _ h => h.mono (fun _ h => h)
    fun _ h => Switching.before h) ?_
  rintro d ⟨i, hwritten⟩
  rw [ensures_op_bind]
  refine ⟨hbefore _ hwritten.holds, fun c hc => ?_⟩
  cases hfail : c.fail with
  | true =>
    simp only [perform, hfail, ↓reduceIte, Bool.false_eq_true]
    rw [ensures_op_bind]
    refine ⟨hbefore _ hwritten.holds, fun c' _ => ?_⟩
    have hunlinked := @Disk.Holds.of_spared _ _ hwritten.holds (.unlink stockManifestTmpName)
      hwritten.other c'
    exact ⟨hbefore _ hunlinked, Or.inr ⟨by simp, fault hc hfail, .before hunlinked⟩⟩
  | false =>
    simp only [perform, hfail, ↓reduceIte, Bool.false_eq_true, hwritten.entry]
    have hrenamed : Switching old ps gen
        (d.change (.rename stockManifestTmpName stockManifestName i)) :=
      .renamed d i hwritten rfl
    have hsynced := hwritten.rename_syncDir hmanifest
    refine (ensures_fsyncParentDir (by decide) (hcrash _ hrenamed)
      (hcrash _ (.after i hsynced))).mono (fun _ h => h) fun r d' h => h.mono ?_ ?_
    · rintro _ rfl
      exact ⟨i, hsynced⟩
    · rintro _ (rfl | rfl)
      exacts [hrenamed, .after i hsynced]

/-! ## Cleaning up -/

/-- A name that cleanup for a generation leaves alone. -/
def Spared (gen : StockGen) (name : Name) : Prop :=
  name ≠ stockManifestTmpName ∧ ∀ g, artifactGeneration name = some g → g = gen

/-- An `unlink` on the way of a cleanup: only a failing call ends the loop. -/
theorem ensures_unlinkEntry {post : Outcome StockStatus → Disk → Prop} {entry : Name}
    {rest : Prog StockStatus} {f : Except SysError Unit → Prog StockStatus} (hd : crash d)
    (hother : f (.error .other) = pure .errIo) (hrest : ∀ r, r ≠ .error .other → f r = rest)
    (h : ∀ c, ok c → if c.fail = true then post (.returned .errIo) d
      else Ensures ok crash post rest (perform d (.unlink entry) c).2) :
    Ensures ok crash post (op (.unlink entry) >>= f) d := by
  rw [ensures_op_bind]
  refine ⟨hd, fun c hc => ?_⟩
  have hcall := h c hc
  by_cases hfail : c.fail = true
  · rw [if_pos hfail] at hcall
    have hperform : perform d (.unlink entry) c = (.error .other, d) := by
      simp only [perform, hfail, ↓reduceIte]
    rw [hperform]
    simp only [hother]
    exact ⟨hd, hcall⟩
  · rw [if_neg hfail] at hcall
    have hreport : (perform d (.unlink entry) c).1 ≠ .error .other := by
      simp only [perform, hfail, Bool.false_eq_true, ↓reduceIte]
      split_ifs <;> simp
    rw [hrest _ hreport]
    exact hcall

/-- **One entry of a cleanup**: its path does not fit, or it is spared and passed over, or it is
unlinked. -/
theorem ensures_cleanupEntries_cons {post : Outcome StockStatus → Disk → Prop} {entry : Name}
    {entries : List Name} (hd : crash d)
    (hlong : ¬ (dataPath entry).length < stockPathSize → post (.returned .errInternal) d)
    (hskip : (dataPath entry).length < stockPathSize → Spared gen entry →
      Ensures ok crash post (cleanupEntries gen entries) d)
    (hunlink : (dataPath entry).length < stockPathSize → ¬ Spared gen entry → ∀ c, ok c →
      if c.fail = true then post (.returned .errIo) d
      else Ensures ok crash post (cleanupEntries gen entries) (perform d (.unlink entry) c).2) :
    Ensures ok crash post (cleanupEntries gen (entry :: entries)) d := by
  have hgo : ∀ {r : Except SysError Unit}, r ≠ .error .other → r = .error .notFound ∨ r = .ok () :=
    fun {r} hr => by rcases r with (_ | _) | _ <;> simp at hr ⊢
  rw [cleanupEntries, buildDataPath]
  by_cases hlen : (dataPath entry).length < stockPathSize
  swap
  · rw [if_pos (Nat.not_lt.mp hlen)]
    exact ⟨hd, hlong hlen⟩
  rw [if_neg (Nat.not_le.mpr hlen)]
  dsimp only
  split_ifs with htmp
  · refine ensures_unlinkEntry hd rfl (fun r hr => ?_) (hunlink hlen fun hspared => hspared.1 htmp)
    rcases hgo hr with rfl | rfl <;> rfl
  cases hgen : artifactGeneration entry with
  | none => exact hskip hlen ⟨htmp, fun g hg => by rw [hgen] at hg; cases hg⟩
  | some g =>
    dsimp only
    split_ifs with hcurrent
    · refine hskip hlen ⟨htmp, fun g' hg' => ?_⟩
      rw [hgen] at hg'
      exact (Option.some.inj hg').symm.trans hcurrent
    · refine ensures_unlinkEntry hd rfl (fun r hr => ?_)
        (hunlink hlen fun hspared => hcurrent (hspared.2 g hgen))
      rcases hgo hr with rfl | rfl <;> rfl

/-- Going through the entries keeps the pins on names that are spared. -/
theorem ensures_cleanupEntries (hspared : ∀ p ∈ ps, Spared gen p.name)
    (hcrash : ∀ d, d.Holds ps → crash d) (entries : List Name) {d : Disk} (hd : d.Holds ps) :
    Ensures ok crash (fun r d => (∃ status, r = .returned status) ∧ d.Holds ps)
      (cleanupEntries gen entries) d := by
  induction entries generalizing d with
  | nil => exact ⟨hcrash _ hd, ⟨_, rfl⟩, hd⟩
  | cons entry entries ih =>
    refine ensures_cleanupEntries_cons (hcrash _ hd) (fun _ => ⟨⟨_, rfl⟩, hd⟩) (fun _ _ => ih hd)
      fun _ hnot c _ => ?_
    split_ifs
    · exact ⟨⟨_, rfl⟩, hd⟩
    · refine ih (@Disk.Holds.of_spared _ _ hd (.unlink entry) (fun hmem => ?_) c)
      obtain ⟨p, hp, hname⟩ := List.mem_map.mp hmem
      exact hnot (hname ▸ hspared p hp)

/-- **Cleanup keeps the pins** on names it spares, and does not end the process. -/
theorem ensures_cleanupOldGenerationFiles (hspared : ∀ p ∈ ps, Spared gen p.name)
    (hcrash : ∀ d, d.Holds ps → crash d) (hd : d.Holds ps) :
    Ensures ok crash (fun r d => (∃ status, r = .returned status) ∧ d.Holds ps)
      (cleanupOldGenerationFiles gen) d := by
  rw [cleanupOldGenerationFiles, ensures_op_bind]
  refine ⟨hcrash _ hd, fun c _ => ?_⟩
  simp only [perform]
  split_ifs
  · exact ⟨hcrash _ hd, ⟨_, rfl⟩, hd⟩
  all_goals exact ensures_cleanupEntries hspared hcrash _ hd

/-! ## The whole publication -/

/-- The pins of a complete generation that holds a store, and the pins kept beside it. -/
def publishedPins (gen : StockGen) (store : StockStore) (i j k : Ino) (ps : List Pin) : List Pin :=
  .file stockManifestName i (manifestText gen) :: .file (generationName stockAofName gen) k [] ::
    .file (generationName stockSnapshotName gen) j (snapshotText store) :: ps

/-- The disks that occur while a generation is published: the pins hold as before, or the new
snapshot and the new log are pinned and the manifest is being switched. -/
inductive Publishing (old ps : List Pin) (gen : StockGen) (store : StockStore) (d : Disk) : Prop
  | before (h : d.Holds (old ++ ps))
  | switching (j k : Ino) (h : Switching old (.file (generationName stockAofName gen) k [] ::
      .file (generationName stockSnapshotName gen) j (snapshotText store) :: ps) gen d)

/-- While a generation is published the pins hold as before, or a process sees the new manifest. -/
theorem Publishing.manifest (h : Publishing old ps gen store d) :
    d.Holds (old ++ ps) ∨ d.contents stockManifestName = some (manifestText gen) := by
  cases h with
  | before h => exact Or.inl h
  | switching j k h =>
    cases h with
    | before h =>
      refine Or.inl (h.subset fun p hp => ?_)
      simp only [List.mem_append, List.mem_cons] at hp ⊢
      tauto
    | renamed d₀ i h hd =>
      subst hd
      exact Or.inr h.contents_rename
    | after i h => exact Or.inr (Disk.Pinned.contents (h.fixes (.file _ i _) (by simp)))

/-- The names a publication of generation `gen` writes to are those of no pin, and its cleanup
spares the pins that it keeps. -/
structure Untouched (old ps : List Pin) (gen : StockGen) : Prop where
  tmp : ∀ p ∈ old ++ ps, p.name ≠ stockManifestTmpName
  artifacts : ∀ p ∈ old ++ ps, ∀ base, base = stockSnapshotName ∨ base = stockAofName →
    p.name ≠ generationName base gen
  manifest : ∀ p ∈ ps, p.name ≠ stockManifestName
  kept : ∀ p ∈ ps, artifactGeneration p.name = none

/-- No pin is about a file of generation `gen`. -/
theorem Untouched.notMem (h : Untouched old ps gen) {base : Name}
    (hbase : base = stockSnapshotName ∨ base = stockAofName) :
    generationName base gen ∉ (old ++ ps).map Pin.name := by
  intro hmem
  obtain ⟨p, hp, hname⟩ := List.mem_map.mp hmem
  exact h.artifacts p hp base hbase hname

/-- Snapshots and logs have different names. -/
theorem snapshotName_ne_aofName (gen gen' : StockGen) :
    generationName stockSnapshotName gen ≠ generationName stockAofName gen' := by
  simp [generationName, stockSnapshotName, stockAofName, ascii]

/-- Generation files are none of the files with fixed names. -/
theorem generationName_ne (gen : StockGen) {base : Name}
    (hbase : base = stockSnapshotName ∨ base = stockAofName) : ∀ name ∈ [stockManifestName,
      stockManifestTmpName, stockBootstrapMarkerName, stockInitName],
        generationName base gen ≠ name := by
  intro name hname
  simp only [List.mem_cons, List.not_mem_nil, or_false] at hname
  rcases hbase with rfl | rfl <;> rcases hname with rfl | rfl | rfl | rfl <;>
    simp [generationName, stockSnapshotName, stockAofName, stockManifestName,
      stockManifestTmpName, stockBootstrapMarkerName, stockInitName, ascii]

/-- A path of a generation file fits. -/
theorem length_generationName (gen : StockGen) {base : Name}
    (hbase : base = stockSnapshotName ∨ base = stockAofName) :
    (dataPath (generationName base gen)).length < stockPathSize := by
  have h := buildGenerationPath_eq gen hbase
  rw [buildGenerationPath] at h
  split_ifs at h with hlen
  exact Nat.not_le.mp hlen

/-- A name that is neither of two names nor among others is not among all of them. -/
theorem notMem_names {a b : Pin} {name : Name} (ha : a.name ≠ name) (hb : b.name ≠ name)
    (hps : name ∉ ps.map Pin.name) : name ∉ (a :: b :: ps).map Pin.name := by
  simp only [List.map_cons, List.mem_cons, not_or]
  exact ⟨ha.symm, hb.symm, hps⟩

/-- Cleanup for a generation spares its files. -/
theorem spared_generationName (gen : StockGen) {base : Name}
    (hbase : base = stockSnapshotName ∨ base = stockAofName) :
    Spared gen (generationName base gen) := by
  refine ⟨generationName_ne gen hbase _ (by simp), fun g hg => ?_⟩
  rw [artifactGeneration_generationName gen hbase] at hg
  split_ifs at hg
  exact (Option.some.inj hg).symm

/-- Cleanup after a publication spares the new generation and the pins that are kept. -/
theorem Untouched.spared (h : Untouched old ps gen) {i j k : Ino} :
    ∀ p ∈ publishedPins gen store i j k ps, Spared gen p.name := by
  intro p hp
  simp only [publishedPins, List.mem_cons] at hp
  rcases hp with rfl | rfl | rfl | hp
  · have hnone : artifactGeneration stockManifestName = none := by decide
    refine ⟨by simp only [Pin.name]; decide, fun g hg => ?_⟩
    rw [Pin.name, hnone] at hg
    cases hg
  · exact spared_generationName gen (Or.inr rfl)
  · exact spared_generationName gen (Or.inl rfl)
  · refine ⟨h.tmp p (List.mem_append_right _ hp), fun g hg => ?_⟩
    rw [h.kept p hp] at hg
    cases hg

/-- The files of a generation are written, the manifest is switched and old files are cleaned up,
once the generation is known. -/
theorem ensures_publish (hd : d.Holds (old ++ ps)) (hnames : Untouched old ps gen)
    (hcrash : ∀ d, Publishing old ps gen store d → crash d) :
    Ensures ok crash (Reports ok .ok (fun d => ∃ i j k, d.Holds (publishedPins gen store i j k ps))
      (Publishing old ps gen store))
      (ifOk (saveSnapshotFile store (generationName stockSnapshotName gen)) <|
        ifOk (createEmptyAofFile (generationName stockAofName gen)) <|
          ifOk (writeManifestFile gen) do
            let _ ← cleanupOldGenerationFiles gen
            return .ok) d := by
  have hbefore : ∀ d, d.Holds (old ++ ps) → crash d := fun d hd => hcrash d (.before hd)
  have hfixed : ∀ {base}, base = stockSnapshotName ∨ base = stockAofName → ∀ name ∈ _, _ :=
    fun hbase => generationName_ne gen hbase
  have htmp : stockManifestTmpName ∉ (old ++ ps).map Pin.name := fun hmem => by
    obtain ⟨p, hp, hname⟩ := List.mem_map.mp hmem
    exact hnames.tmp p hp hname
  have hmanifest : stockManifestName ∉ ps.map Pin.name := fun hmem => by
    obtain ⟨p, hp, hname⟩ := List.mem_map.mp hmem
    exact hnames.manifest p hp hname
  -- the snapshot
  refine ensures_ifOk ((ensures_saveSnapshotFile hd (hnames.notMem (Or.inl rfl))
    (length_generationName gen (Or.inl rfl)) hbefore).mono (fun _ h => h)
    fun _ _ h => h.mono (fun _ h => h) fun _ h => .before h) ?_
  rintro d ⟨j, hsnapshot⟩
  -- the log
  have haof : generationName stockAofName gen ∉
      ((Pin.file (generationName stockSnapshotName gen) j (snapshotText store)) ::
        (old ++ ps)).map Pin.name := by
    simp only [List.map_cons, List.mem_cons, not_or]
    exact ⟨(snapshotName_ne_aofName gen gen).symm, hnames.notMem (Or.inr rfl)⟩
  refine ensures_ifOk ((ensures_createEmptyAofFile hsnapshot haof
    (length_generationName gen (Or.inr rfl))
    fun d hd => hbefore d (hd.subset (List.subset_cons_self _ _))).mono (fun _ h => h)
    fun _ _ h => h.mono (fun _ h => h)
      fun _ h => .before (h.subset (List.subset_cons_self _ _))) ?_
  rintro d ⟨k, hlog⟩
  -- the manifest
  have hboth : d.Holds (old ++ (.file (generationName stockAofName gen) k [] ::
      .file (generationName stockSnapshotName gen) j (snapshotText store) :: ps)) := by
    refine hlog.subset fun p hp => ?_
    simp only [List.mem_append, List.mem_cons] at hp ⊢
    tauto
  have htmp' : stockManifestTmpName ∉ (old ++ (.file (generationName stockAofName gen) k [] ::
      .file (generationName stockSnapshotName gen) j (snapshotText store) :: ps)).map Pin.name := by
    rw [List.map_append, List.mem_append, not_or]
    rw [List.map_append, List.mem_append, not_or] at htmp
    exact ⟨htmp.1, notMem_names (hfixed (Or.inr rfl) _ (by simp))
      (hfixed (Or.inl rfl) _ (by simp)) htmp.2⟩
  refine ensures_ifOk ((ensures_writeManifestFile hboth htmp'
    (notMem_names (hfixed (Or.inr rfl) _ (by simp)) (hfixed (Or.inl rfl) _ (by simp))
      hmanifest) fun d hd => hcrash d (.switching j k hd)).mono (fun _ h => h)
    fun _ _ h => h.mono (fun _ h => h) fun _ h => .switching j k h) ?_
  rintro d ⟨i, hpublished⟩
  -- the cleanup, whose status is ignored
  have hafter : ∀ d, d.Holds (publishedPins gen store i j k ps) → crash d := fun d hd =>
    hcrash d (.switching j k (.after i hd))
  refine (ensures_cleanupOldGenerationFiles hnames.spared hafter hpublished).bind
    (fun status d' hd' h => ⟨hd', Or.inl ⟨rfl, i, j, k, h.2⟩⟩) fun code d' _ h => ?_
  obtain ⟨⟨status, hstatus⟩, -⟩ := h
  cases hstatus

/-- The generation that a publication creates. -/
def NextOf (d : Disk) (gen : StockGen) : Prop :=
  manifestOf d = (.errNotFound, 0) ∧ gen = 1 ∨ ∃ g, manifestOf d = (.ok, g) ∧ gen = g + 1

/-- **The publication of a generation.**  With success the new generation is pinned, beside the
pins that are kept; at every call, and whatever fails, the disk is one of those of `Publishing`. -/
theorem ensures_materializeStoreGeneration (hd : d.Holds (old ++ ps))
    (hnext : NextOf d gen) (hnames : Untouched old ps gen)
    (hcrash : ∀ d, Publishing old ps gen store d → crash d) :
    Ensures ok crash (Reports ok .ok (fun d => ∃ i j k, d.Holds (publishedPins gen store i j k ps))
      (Publishing old ps gen store)) (materializeStoreGeneration store) d := by
  have hbefore := hcrash d (.before hd)
  refine ensures_readManifest_bind hbefore ?_ fun status hfault hok hfound => ?_
  · rcases hnext with ⟨hnone, rfl⟩ | ⟨g, hsome, rfl⟩
    · rw [hnone]
      simpa [buildGenerationPath_eq] using ensures_publish hd hnames hcrash
    · rw [hsome]
      simpa [buildGenerationPath_eq] using ensures_publish hd hnames hcrash
  · dsimp only
    rw [if_pos ⟨hfound, hok⟩]
    exact ⟨hbefore, Or.inr ⟨by simpa using hok, hfault, .before hd⟩⟩

end StockServer
