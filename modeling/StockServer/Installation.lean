import StockServer.Lib.Journal
import StockServer.Availability
import StockServer.Cleanup

set_option relaxedAutoImplicit false
set_option autoImplicit false

/-!
# Installations that are cut off

The first process to find a directory with an init file and nothing else bootstraps it: it creates
the marker, publishes the first generation and removes the marker.  As long as there is no manifest,
the guard refuses a directory with leftovers and without the marker.  The processes never make such
a directory: leftovers come and go while the manifest or the marker is there.  So where power cuts
keep the changes of the directory in order, the guard never stands in the way, whichever calls fail
and wherever processes are cut off.

## Main definitions

* `Guarded` — the guard would let the directory pass.
* `Marked`, `Bare` — the two ways to see to it: the manifest or the marker is there, or no leftover.
* `Ending.InOrder` — the process is killed, or a power cut loses the last directory changes only.
* `Restartable` — what installations keep: every directory that such a power cut may leave is
  guarded, and all names fit.

## Main results

* `ensures_recover_guarded` — the directory is guarded at every call of a startup.
* `Restartable.bootable` — an unpublished directory can be bootstrapped.
* `sessions_recover_installed` — **an installation can always be started from**, unless a quantity
  is negative.

## Implementation notes

Every listing of the directory is whole here.  The source takes an error of `readdir` for the end of
the directory: a cleanup that is cut short by one reports success, so that the marker is unlinked
with leftovers still there, and a process that is cut off next leaves a directory which the guard
refuses.  The results are about the runs in which no `readdir` fails part-way.
-/

namespace StockServer

open Prog SearchTree

variable {ok : Choice → Prop} {d : Disk} {store base : StockStore} {log : List Report}

/-! ## What the guard asks for -/

/-- Without the manifest and the marker, there are no leftovers. -/
def Guarded (dir : Dir) : Prop :=
  dir.lookup stockManifestName = none → dir.lookup stockBootstrapMarkerName = none →
    ∀ name, blocksBootstrap name = true → dir.lookup name = none

/-- The manifest or the marker is there. -/
def Marked (d : Disk) : Prop :=
  (d.lookup stockManifestName).isSome = true ∨ (d.lookup stockBootstrapMarkerName).isSome = true

/-- There are no leftovers. -/
def Bare (d : Disk) : Prop := ∀ name, blocksBootstrap name = true → d.lookup name = none

/-- A marked directory is guarded. -/
theorem Marked.guarded (h : Marked d) : Guarded d.current := by
  intro hmanifest hmarker
  rcases h with h | h
  · rw [Disk.lookup, hmanifest] at h
    cases h
  · rw [Disk.lookup, hmarker] at h
    cases h

/-- So is a bare one. -/
theorem Bare.guarded (h : Bare d) : Guarded d.current := fun _ _ => h

/-- A directory is bare when what is there does not block bootstrap. -/
theorem bare_of_forall (h : ∀ name, (d.lookup name).isSome = true → blocksBootstrap name = false) :
    Bare d := by
  intro name hname
  rw [← Option.not_isSome_iff_eq_none]
  intro hsome
  rw [h name hsome] at hname
  cases hname

/-- The manifest of a generation that a process sees is there. -/
theorem GenerationFiles.Shown.isSome {g : GenerationFiles} (h : g.Shown d) :
    (d.lookup stockManifestName).isSome = true := by
  obtain ⟨i, hi, -⟩ := Option.map_eq_some_iff.mp h.manifest
  exact Option.isSome_iff_exists.mpr ⟨i, hi⟩

/-- A call of a publication takes away neither the manifest nor the marker. -/
theorem retains_of_publishes {name : Name}
    (hname : name = stockManifestName ∨ name = stockBootstrapMarkerName) {o : Op}
    (ho : Publishes o) : Retains name o := by
  have htmp : stockManifestTmpName ≠ name := by rcases hname with rfl | rfl <;> decide
  cases o with
  | unlink m =>
    rintro rfl
    rcases ho with (rfl | ⟨gen, base, hbase, rfl⟩) | hblocks
    · exact htmp rfl
    · exact generationName_ne gen hbase _ (by rcases hname with h | h <;> simp [h]) rfl
    · rcases hname with rfl | rfl <;> exact absurd hblocks (by decide)
  | rename a b =>
    obtain ⟨rfl, -⟩ := ho
    exact htmp
  | _ => trivial

/-- **A call of a publication** leaves a marked directory marked. -/
theorem Marked.of_publishes (h : Marked d) {o : Op} (ho : Publishes o) (c : Choice) :
    Marked (perform d o c).2 :=
  h.imp (fun h => isSome_of_retains h (retains_of_publishes (Or.inl rfl) ho) c)
    fun h => isSome_of_retains h (retains_of_publishes (Or.inr rfl) ho) c

/-- **A call that creates no leftover** leaves a bare directory bare. -/
theorem Bare.of_creates (h : Bare d) {o : Op} (ho : Creates (blocksBootstrap · = false) o)
    (c : Choice) : Bare (perform d o c).2 := by
  intro name hname
  refine lookup_of_creates (h name hname) ?_ c
  have hne : ∀ m, blocksBootstrap m = false → m ≠ name := by
    rintro m hm rfl
    rw [hm] at hname
    cases hname
  cases o with
  | openWrite m => exact hne m ho
  | rename a b => exact hne b ho
  | _ => trivial

/-! ## Bootstrap -/

/-- **Preparing for bootstrap** keeps the directory guarded, and leaves it bare when it returns
`STOCK_OK`. -/
theorem ensures_prepareBootstrap_guarded (h : Guarded d.current) :
    Ensures ok (fun d => Guarded d.current) (fun r d => r = .returned .ok → Bare d)
      prepareBootstrap d := by
  rw [prepareBootstrap, fileExists, ensures_op_bind]
  refine ⟨h, fun c _ => ?_⟩
  split_ifs with hpresent
  · -- the marker is there until all leftovers have been unlinked
    have hmarked : Marked d := by
      simp only [perform, Bool.and_eq_true] at hpresent
      exact Or.inr hpresent.2
    have hcleanup : Calls Publishes (cleanupOldGenerationFiles 0) :=
      calls_cleanupOldGenerationFiles trivial fun _ => Or.inr
    have hclean := (@Calls.ensures _ ok _ _ _ hcleanup Marked
      (fun _ _ c ho hd => hd.of_publishes ho c) hmarked).and
        (ensures_cleanupOldGenerationFiles_exact d)
    refine (hclean.mono (fun _ h => h.1.guarded) fun _ _ h => h).bind
      (fun status d₁ hd₁ hcleaned => ?_) fun _ _ _ _ hr => by cases hr
    split_ifs with hstatus
    · exact ⟨hd₁, fun hr => absurd (Outcome.returned.inj hr) hstatus⟩
    · obtain rfl := not_not.mp hstatus
      have hbare : Bare d₁ := by
        refine bare_of_forall fun name hname => ?_
        rw [(Cleaned.of_ok hcleaned.2).2.2 name] at hname
        split_ifs at hname with hgone
        · cases hname
        · -- what is still there was spared
          by_contra hblocks
          exact hgone ⟨Disk.mem_keys.mpr hname, fun hspared => hblocks (spared_zero_iff.mp hspared)⟩
      exact ((calls_removeBootstrapMarker creates_of_quiet trivial).ensures (I := Bare)
        (fun _ _ c ho hd => hd.of_creates ho c) hbare).mono (fun _ h => h.guarded)
          fun _ _ h _ => h
  · refine (ensures_ensureBootstrapRecoveryState h).mono (fun _ h => h) fun r d₁ hd₁ hr => ?_
    obtain ⟨rfl, ⟨-, hclean⟩ | ⟨hinvalid, -⟩ | ⟨hio, -⟩⟩ := hd₁
    · exact bare_of_forall hclean
    · exact absurd (hinvalid.symm.trans hr) (by decide)
    · exact absurd (hio.symm.trans hr) (by decide)

/-- The marker is there when its creation has returned `STOCK_OK`. -/
theorem ensures_createBootstrapMarker_marked :
    Ensures ok (fun _ => True)
      (fun r d => r = .returned .ok → (d.lookup stockBootstrapMarkerName).isSome = true)
      createBootstrapMarker d := by
  rw [createBootstrapMarker, ensures_op_bind]
  refine ⟨trivial, fun c _ => ?_⟩
  cases hopened : (perform d (.openWrite stockBootstrapMarkerName) c).1 with
  | none => exact ⟨trivial, fun hr => by cases hr⟩
  | some fp =>
    have hentry := Option.isSome_of_eq_some (Disk.lookup_openWrite hopened)
    rw [ensures_op_bind]
    refine ⟨trivial, fun c _ => ?_⟩
    have hclosed := isSome_of_retains hentry (o := .close fp) trivial c
    split_ifs
    · exact (ensures_isSome (calls_fsyncParentDir retains_of_quiet) hclosed).mono
        (fun _ _ => trivial) fun _ _ h _ => h
    · rw [ensures_op_bind]
      exact ⟨trivial, fun c _ => ⟨trivial, fun hr => by cases hr⟩⟩

/-- A publication leaves a marked directory marked. -/
theorem ensures_materialize_marked (h : Marked d) :
    Ensures ok Marked (fun _ d => Marked d) (materializeStoreGeneration store) d :=
  calls_materializeStoreGeneration.ensures (fun _ _ c ho hd => hd.of_publishes ho c) h

/-- **Bootstrap from a bare directory** keeps it guarded: until the marker is there it is bare, and
the marker goes when the manifest is there. -/
theorem ensures_bootstrapStore_guarded (hdir : d.Sound) (hbare : Bare d)
    (hnone : d.lookup stockManifestName = none) :
    Ensures ok (fun d => Guarded d.current) (fun _ _ => True) (bootstrapStore store) d := by
  have hcreate : Ensures ok Bare (fun _ d => Bare d) createBootstrapMarker d :=
    (calls_createBootstrapMarker (by decide)).ensures (fun _ _ c ho hd => hd.of_creates ho c) hbare
  refine (((hcreate.and (ensures_absent (calls_createBootstrapMarker (by decide)) hdir hnone)).and
    ensures_createBootstrapMarker_marked).mono (fun _ h => h.1.1.guarded) fun _ _ h => h).bind
    (fun created d₁ hd₁ h => ?_) fun _ _ _ _ => trivial
  split_ifs with hcreated
  · exact ⟨hd₁, trivial⟩
  obtain ⟨⟨-, hdir₁, hnone₁⟩, hmarker⟩ := h
  have hmarked : Marked d₁ := Or.inr (hmarker (congrArg _ (not_not.mp hcreated)))
  refine (ensures_readFileInto hd₁).bind (fun loaded d₂ _ hread => ?_) fun _ _ _ _ => trivial
  obtain ⟨rfl, -⟩ := hread
  split_ifs
  · exact ⟨hd₁, trivial⟩
  have hpublish := @ensures_materialize_shown d₂ loaded.2 1 ok hdir₁
    (Or.inl ⟨manifestOf_of_lookup hnone₁, rfl⟩)
  refine (((ensures_materialize_marked hmarked).and hpublish).mono (fun _ h => h.1.guarded)
    fun _ _ h => h).bind (fun published d₃ hd₃ h => ?_) fun _ _ _ _ => trivial
  split_ifs with hpublished
  · exact ⟨hd₃, trivial⟩
  have hmanifest := (h.2 (congrArg _ (not_not.mp hpublished))).isSome
  have hremove : Calls (Retains stockManifestName) removeBootstrapMarker :=
    calls_removeBootstrapMarker retains_of_quiet
      (by decide : stockBootstrapMarkerName ≠ stockManifestName)
  exact ((ensures_isSome hremove hmanifest).mono (fun _ h => Marked.guarded (Or.inl h))
    fun _ _ h => h).bind (fun _ _ hd₄ _ => ⟨hd₄, trivial⟩) fun _ _ _ _ => trivial

/-- **A startup** keeps the directory guarded, at every call and whatever fails. -/
theorem ensures_recover_guarded (hdir : d.Sound) (h : Guarded d.current) :
    Ensures ok (fun d => Guarded d.current) (fun _ _ => True) (recoverStockStore store) d := by
  by_cases hnone : d.lookup stockManifestName = none
  · refine ensures_readManifest_bind h ?_ fun status _ hok hnot => ?_
    swap
    · simp only [hnot, ↓reduceIte, hok, ne_eq, not_false_eq_true]
      exact ⟨h, trivial⟩
    rw [manifestOf_of_lookup hnone]
    dsimp only
    rw [if_pos rfl]
    have hprepare := (@ensures_prepareBootstrap_guarded ok d h).and
      (ensures_absent calls_prepareBootstrap hdir hnone)
    refine (hprepare.mono (fun _ h => h.1) fun _ _ h => h).bind
      (fun prepared d₁ hd₁ hprepared => ?_) fun _ _ _ _ => trivial
    split_ifs with hok
    · exact ⟨hd₁, trivial⟩
    rw [fileExists, ensures_op_bind]
    refine ⟨hd₁, fun c _ => ?_⟩
    split_ifs
    · obtain ⟨hbare, hdir₁, hnone₁⟩ := hprepared
      exact ensures_bootstrapStore_guarded hdir₁ (hbare (congrArg _ (not_not.mp hok))) hnone₁
    · exact ⟨hd₁, trivial⟩
  · -- no call of such a startup takes the manifest away
    refine (ensures_recover_of_found (K := fun d => (d.lookup stockManifestName).isSome = true)
      (fun d o c ho hd => isSome_of_retains hd ?_ c) (fun h => hnone (lookup_of_manifestOf h))
        (Option.isSome_iff_ne_none.mpr hnone)).mono
        (fun _ hd => Marked.guarded (Or.inl hd)) fun _ _ _ => trivial
    rcases ho with ho | rfl
    · exact retains_of_quiet o ho
    · exact (by decide : stockBootstrapMarkerName ≠ stockManifestName)

/-! ## Sessions -/

/-- The process is killed, or a power cut loses the last of its directory changes. -/
def Ending.InOrder : Ending → Prop
  | .kill => True
  | .powerCut keep _ => ∃ n, keep = List.replicate n true

/-- **What installations keep**: every directory that such a power cut may leave is guarded, and all
names fit. -/
structure Restartable (d : Disk) : Prop where
  guarded : d.Always Guarded
  fitting : Fitting d

/-- A process that ends so leaves it so. -/
theorem Restartable.leave (h : Restartable d) {e : Ending} (he : e.InOrder) :
    Restartable (e.leave d) := by
  cases e with
  | kill => exact ⟨h.guarded.kill, h.fitting⟩
  | powerCut keep junk =>
    obtain ⟨n, rfl⟩ := he
    exact ⟨h.guarded.crash n junk, h.fitting.crash _ junk⟩

/-- A program that keeps what is seen guarded, and creates only names that fit, keeps the directory
restartable. -/
theorem ensures_restartable {α : Type} {p : Prog α} {post : Outcome α → Disk → Prop}
    (h : Restartable d) (hguarded : Ensures ok (fun d => Guarded d.current) post p d)
    (hcalls : Calls (Creates Fits) p) : Ensures ok Restartable (fun _ _ => True) p d :=
  ((hguarded.always h.guarded).and (hcalls.ensures (fun _ _ c ho hd => hd.of_perform ho c)
    h.fitting)).mono (fun _ h => ⟨h.1, h.2⟩) fun _ _ _ => trivial

/-- **A session** keeps the directory restartable, whatever fails and wherever it is cut off, as
long as power cuts keep directory changes in order. -/
theorem Session.keeps_restartable (hdir : d.Sound) (h : Restartable d) (s : Session)
    (horder : s.ending.InOrder) : Restartable (s.run d).2 := by
  have hrecover := (@ensures_restartable (fun _ => True) d _ _ _ h
    (@ensures_recover_guarded _ _ .nil hdir h.guarded.current) calls_recoverStockStore).and
      (@ensures_recover_backed (fun _ => True) d hdir)
  obtain ⟨⟨hstarted, -⟩, hreturned⟩ := hrecover.within s.startup (fun _ => trivial) s.startupCalls
  rcases s.run_cases d with ⟨-, hrun⟩ | ⟨store, hstore, hrun | ⟨final, -, hrun⟩⟩ <;> rw [hrun]
  · exact hstarted.leave horder
  · exact hstarted.leave horder
  -- a startup that returns a store leaves a manifest, so that the publication cannot unguard
  obtain ⟨⟨g, _, hshown, -, -⟩, -⟩ := (hreturned _ hstore).2 store rfl
  have hmarked : Ensures (fun _ => True) Marked (fun _ d => Marked d)
      (materializeStoreGeneration final) (s.started d).2 :=
    ensures_materialize_marked (Or.inl hshown.isSome)
  have hpublish := ensures_restartable hstarted (hmarked.mono (fun _ h => h.guarded) fun _ _ h => h)
    (calls_materializeStoreGeneration.mono creates_of_publishes)
  exact (hpublish.within s.publication (fun _ => trivial) s.publicationCalls).1.leave horder

/-- **An unpublished directory** that is restartable can be bootstrapped, once it is fsynced. -/
theorem Restartable.bootable (h : Restartable d) {i : Ino} {data : Bytes}
    (hinit : d.Holds (initPins i data)) : Bootable i data base d.syncDir := by
  have hholds : d.syncDir.Holds (initPins i data) := hinit.syncDir
  have habsent : d.Fixed stockManifestName none := hinit.fixes (.absent _) (by simp)
  cases hmarker : d.lookup stockBootstrapMarkerName with
  | some m =>
    have hcons : d.syncDir.Holds (.entry stockBootstrapMarkerName :: initPins i data) :=
      hholds.cons ⟨m, Disk.fixed_syncDir hmarker⟩
    exact .marked (hcons.subset (by simp)) rfl
  | none =>
    have hcons : d.syncDir.Holds (.absent stockBootstrapMarkerName :: initPins i data) :=
      hholds.cons (Disk.fixed_syncDir hmarker)
    exact .clean (hcons.subset (by simp)) fun name hname =>
      Disk.fixed_syncDir (h.guarded.current habsent.lookup hmarker name hname)

/-- So an undisturbed startup returns the records of its init file. -/
theorem Restartable.started (h : Restartable d) {i : Ino} {data : Bytes}
    (hinit : d.Holds (initPins i data))
    (hload : applyLines loadLine .nil (fileLines data) = (.ok, base)) {s : Session}
    (hs : s.Undisturbed) :
    ∃ store, (s.started d).1 = some (.returned (.ok, store)) ∧ SameMap store base := by
  have hfits : Fitting d.syncDir := @Fitting.of_perform d h.fitting .fsyncDir trivial .fine
  obtain ⟨store, hstore, hsame⟩ := (h.bootable hinit).recovers hfits hload s.startup hs.fine
  refine ⟨store, ?_, hsame⟩
  rw [Session.started, hs.whole, within]
  exact congrArg some ((run_alike _ (Disk.alike_syncDir d) s.startup).1.symm.trans hstore)

/-- A directory with nothing but an init file is restartable. -/
theorem OnlyInit.restartable {i : Ino} {data : Bytes} (h : OnlyInit d i data base) :
    Restartable d := by
  refine ⟨fun n => ?_, h.bootable.2⟩
  intro _ _ name hname
  have hfixed := h.only name (by rintro rfl; exact absurd hname (by decide))
  rw [Change.lookup_applyAll (fun x hx => hfixed.quiet x (List.mem_of_mem_take hx))]
  exact hfixed.durable

/-- **Any number of sessions** keep the directory restartable. -/
theorem sessions_restartable {initFile : Prop} {first : StockGen} (hord : Ordered base)
    (hfirst : initFile → first = 1)
    (h : Standing (Unpublished initFile base []) (Stored first base []) d) (hd : Restartable d)
    (history : List Session) (hjoins : sessions.Meets JoinsSucceed d history)
    (horder : ∀ s ∈ history, s.ending.InOrder) : Restartable (sessions.run d history).1 := by
  induction history using List.reverseRecOn with
  | nil => exact hd
  | append_singleton history s ih =>
    rw [Machine.meets_append] at hjoins
    rw [sessions.run_snoc]
    have hsound := (sessions_standing hord hfirst h history hjoins.1).sound
    refine Session.keeps_restartable hsound (ih hjoins.1 fun t ht => ?_) s ?_
    · exact horder t (List.mem_append_left _ ht)
    · exact horder s (List.mem_append_right _ (List.mem_singleton_self s))

/-- **Installations can always be started from.**  A directory holds a loadable init file and
nothing else.  Any number of processes use it one after another, each with any clients in any
interleaving, with file-system calls failing anywhere (but no `readdir` part-way), and cut off
anywhere, also while they bootstrap, by a kill or by a power cut that keeps directory changes in
order; no join of a worker fails, and the generation numbers do not run out.  Then an undisturbed
startup succeeds, with the store after the sessions that survive, if and only if no quantity is
negative after them. -/
theorem sessions_recover_installed {i : Ino} {data : Bytes} (h : OnlyInit d i data base)
    (history : List Session) (hroom : 1 + history.length ≤ Int64.maxValue.toInt)
    (hjoins : sessions.Meets JoinsSucceed d history) (horder : ∀ s ∈ history, s.ending.InOrder)
    (s : Session) (hs : s.Undisturbed) :
    ∃ kept, Surviving base (sessions.run d history).2 kept ∧
      ((∃ store, (s.started (sessions.run d history).1).1 = some (.returned (.ok, store))) ↔
        ∀ item ∈ inorder (accounts base kept), 0 ≤ item.leftStock) ∧
      ∀ store, (s.started (sessions.run d history).1).1 = some (.returned (.ok, store)) →
        SameMap store (accounts base kept) := by
  have hord : Ordered base := ordered_of_load h.loads
  have hholds : d.Holds (initPins i data) := h.holds.cons (h.only stockManifestName (by decide))
  have hinstalled : Standing (Unpublished True base []) (Stored 1 base []) d :=
    .settled (.initFile i data base h.loads ⟨trivial, rfl, .none⟩) hholds
  have hstanding := sessions_standing hord (fun _ => rfl) hinstalled history hjoins
  have hrestartable := sessions_restartable hord (fun _ => rfl) hinstalled h.restartable history
    hjoins horder
  rcases hstanding.shows with ⟨i', data', _, ⟨-, rfl, hnone⟩, hload, hinit⟩ |
    ⟨shown, hstored, hself, hshown⟩
  · -- no session survives, and the init file is there
    obtain ⟨store, hstore, hsame⟩ := hrestartable.started hinit hload hs
    refine ⟨[], hnone, iff_of_true ⟨store, hstore⟩ fun item hitem =>
      (storable_of_load hload item hitem).leftStock_nonneg, fun store' hstore' => ?_⟩
    obtain rfl : store' = store := by simpa [hstore] using hstore'.symm
    exact hsame
  · have hone : (1 : StockGen).toInt = 1 := by decide
    rw [← length_sessions d history, ← hone] at hroom
    obtain ⟨kept, hkept, -, -, hiff, hvalue⟩ :=
      hstored.recovers hord (by decide) (storable_of_load h.loads) hroom
    have hstarted := fun store => @Session.Undisturbed.started_iff store _ shown s hs hshown hself
      hstanding.sound
    simp only [hstarted]
    exact ⟨kept, hkept, hiff, hvalue⟩

/-- A process of which the power is cut after so many calls of its startup, when so many of the
pending directory changes have reached the disk. -/
def cutSession (calls kept : ℕ) : Session :=
  { boughtSession none with
    startupCalls := some calls, ending := .powerCut (List.replicate kept true) fun _ => [] }

/-- A process that cannot open the directory to fsync it once it has unlinked the marker. -/
def unsyncedSession : Session :=
  { boughtSession none with startup := fun n => ⟨n == 4, [], 0, []⟩ }

/-- The first process is cut off when it has created the snapshot, the second when it has unlinked
the snapshot and the marker, and the third cannot fsync the directory.  Then one item is bought, and
the next startup returns what is left. -/
theorem sessions_recover_installed_cut :
    let base : StockStore := .node ⟨1, 5, 100⟩ .nil .nil
    let history := [cutSession 13 1, cutSession 5 1, unsyncedSession, boughtSession none]
    let after := sessions.run initDirectory history
    ((boughtSession none).started after.1).1 =
        some (.returned (.ok, .node ⟨1, 4, 100⟩ .nil .nil)) ∧
      ∃ kept, Surviving base after.2 kept ∧
        SameMap (.node ⟨1, 4, 100⟩ .nil .nil) (accounts base kept) := by
  intro base history after
  have hstarted : ((boughtSession none).started after.1).1 =
      some (.returned (.ok, .node ⟨1, 4, 100⟩ .nil .nil)) := by decide +kernel
  have hunsynced : (unsyncedSession.started (sessions.run initDirectory
      [cutSession 13 1, cutSession 5 1]).1).1 = some (.returned (.errIo, .nil)) := by
    decide +kernel
  have hjoins : sessions.Meets JoinsSucceed initDirectory history := by
    refine ⟨fun store h => (by cases h), fun store h => (by cases h), fun store h => ?_, ?_,
      trivial⟩
    · exact absurd (hunsynced.symm.trans h) (by simp)
    · exact @joinsSucceed_of_started base _ _ (by decide +kernel) (by decide +kernel)
  have horder : ∀ s ∈ history, s.ending.InOrder := by
    intro s hs
    simp only [history, List.mem_cons, List.not_mem_nil, or_false] at hs
    rcases hs with rfl | rfl | rfl | rfl
    exacts [⟨1, rfl⟩, ⟨1, rfl⟩, trivial, trivial]
  obtain ⟨kept, hkept, -, hsame⟩ := sessions_recover_installed initDirectory_onlyInit history
    (by decide +kernel) hjoins horder (boughtSession none) ⟨fun _ => rfl, rfl⟩
  exact ⟨hstarted, kept, hkept, hsame _ hstarted⟩

end StockServer
