import StockServer.Lib.Hanging
import StockServer.Bootstrap
import StockServer.Restart

set_option relaxedAutoImplicit false
set_option autoImplicit false

/-!
# What can be recovered from a directory

What a startup may find, at every moment of the life of a data directory: while it holds an init
file and no manifest yet, while it holds a generation, and while the rename of a manifest hangs, so
that a process sees one generation and a crash may find the other.  Startups and publications lead
from such a moment to such a moment, whichever of their calls fail and wherever they are cut off.

## Main definitions

* `Basis` — the pins of an init file, or of the three files of a generation, with what is asked of
  them.
* `Standing` — the directory holds a basis, or a rename hangs between two.

## Main results

* `Standing.leaves` — the directory goes on standing however the process ends.
* `Standing.ensures_recover` — it goes on standing at every call of a startup.
* `Standing.of_shown`, `Standing.shows` — what a process sees is what the directory stands on, and
  it sees a generation or an init file.
* `Standing.ensures_materialize` — the directory goes on standing at every call of a publication,
  and holds the published generation when `STOCK_OK` is returned.

## Implementation notes

A publication that finds a rename hanging goes on hanging until its first fsync of the directory,
and from there goes as if the directory had been fsynced before it started.
-/

namespace StockServer

open Prog SearchTree

variable {ok : Choice → Prop} {d d' : Disk} {I I' : StockStore → Prop}
  {F F' : GenerationFiles → Prop} {ps old : List Pin}
  {g : GenerationFiles} {i j k : Ino} {store final : StockStore} {gen : StockGen}

/-! ## Bases -/

/-- The manifest of a generation names no other generation. -/
def GenerationFiles.NamesSelf (g : GenerationFiles) : Prop :=
  ∀ gen, readManifest none (fileLines g.manifest) = (.ok, some gen) → gen = g.gen

/-- The pins of an init file without a manifest. -/
abbrev initPins (i : Ino) (data : Bytes) : List Pin :=
  [.absent stockManifestName, .file stockInitName i data]

/-- **What a startup may start from**: an init file whose store satisfies `I` and no manifest, or
the files of a generation that satisfy `F`. -/
inductive Basis (I : StockStore → Prop) (F : GenerationFiles → Prop) : List Pin → Prop
  | initFile (i : Ino) (data : Bytes) (base : StockStore)
      (hload : applyLines loadLine .nil (fileLines data) = (.ok, base)) (h : I base) :
      Basis I F (initPins i data)
  | generation (g : GenerationFiles) (i j k : Ino) (hself : g.NamesSelf) (h : F g) :
      Basis I F (g.pins i j k)

/-- Less may be asked. -/
theorem Basis.mono (h : Basis I F ps) (hI : ∀ s, I s → I' s) (hF : ∀ g, F g → F' g) :
    Basis I' F' ps := by
  cases h with
  | initFile i data base hload h => exact .initFile i data base hload (hI _ h)
  | generation g i j k hself h => exact .generation g i j k hself (hF g h)

/-- A generation that has just been published names itself. -/
theorem newFiles_namesSelf : (newFiles gen store).NamesSelf := by
  intro gen' hread
  simp only [newFiles, readManifest_manifestText] at hread
  split_ifs at hread
  · exact (Option.some.inj (congrArg Prod.snd hread)).symm
  · cases hread

/-- The marker is none of the files of a generation. -/
theorem GenerationFiles.marker_notMem (g : GenerationFiles) :
    stockBootstrapMarkerName ∉ (g.pins i j k).map Pin.name := by
  simp only [pins, List.map_cons, List.map_nil, Pin.name, List.mem_cons, List.not_mem_nil,
    or_false, not_or]
  exact ⟨by decide, (generationName_ne g.gen (Or.inr rfl) _ (by simp)).symm,
    (generationName_ne g.gen (Or.inl rfl) _ (by simp)).symm⟩

/-- Nor is it in another basis. -/
theorem Basis.marker_notMem (h : Basis I F ps) : stockBootstrapMarkerName ∉ ps.map Pin.name := by
  cases h with
  | initFile i data base =>
    simp only [List.map_cons, List.map_nil, Pin.name]
    decide
  | generation g i j k => exact g.marker_notMem

/-- A publication writes neither to the init file nor, before the rename, to the manifest. -/
theorem untouched_initFile {i : Ino} {data : Bytes} (gen : StockGen) :
    Untouched [.absent stockManifestName, .file stockInitName i data] [] gen where
  tmp p hp := by
    simp only [List.append_nil, List.mem_cons, List.not_mem_nil, or_false] at hp
    rcases hp with rfl | rfl <;> simp only [Pin.name] <;> decide
  artifacts p hp base hbase := by
    simp only [List.append_nil, List.mem_cons, List.not_mem_nil, or_false] at hp
    rcases hp with rfl | rfl
    · exact (generationName_ne gen hbase _ (by simp [Pin.name])).symm
    · exact (generationName_ne gen hbase _ (by simp [Pin.name])).symm
  manifest p hp := by cases hp
  kept p hp := by cases hp

/-- Two lists of pins that a publication leaves alone. -/
theorem Untouched.append {old' : List Pin} (h : Untouched old [] gen) (h' : Untouched old' [] gen) :
    Untouched (old ++ old') [] gen where
  tmp p hp := by
    rw [List.append_nil, List.mem_append] at hp
    exact hp.elim (fun hp => h.tmp p (by simpa using hp)) fun hp => h'.tmp p (by simpa using hp)
  artifacts p hp := by
    rw [List.append_nil, List.mem_append] at hp
    exact hp.elim (fun hp => h.artifacts p (by simpa using hp))
      fun hp => h'.artifacts p (by simpa using hp)
  manifest p hp := by cases hp
  kept p hp := by cases hp

/-! ## Standing directories -/

/-- **A directory that can be started from**: it holds a basis, or the rename of a manifest hangs,
and a process sees the one basis while a crash may find the other. -/
inductive Standing (I : StockStore → Prop) (F : GenerationFiles → Prop) (d : Disk) : Prop
  | settled {ps : List Pin} (hps : Basis I F ps) (h : d.Holds ps)
  | hanging {old : List Pin} {g : GenerationFiles} {i j k : Ino} (hold : Basis I F old)
      (hself : g.NamesSelf) (hnew : F g) (hnames : Untouched (old ++ g.pins i j k) [] (g.gen + 1))
      (h : d.Hanging stockManifestTmpName stockManifestName old (g.pins i j k))

/-- Less may be asked. -/
theorem Standing.mono (h : Standing I F d) (hI : ∀ s, I s → I' s) (hF : ∀ g, F g → F' g) :
    Standing I' F' d := by
  cases h with
  | settled hps h => exact .settled (hps.mono hI hF) h
  | hanging hold hself hnew hnames h =>
    exact .hanging (hold.mono hI hF) hself (hF _ hnew) hnames h

/-- **However the process ends**, the directory goes on standing. -/
theorem Standing.leaves (h : Standing I F d) (hd : d.Leaves d') : Standing I F d' := by
  cases h with
  | settled hps h =>
    cases hd with
    | crash keep junk => exact .settled hps (h.crash keep junk)
    | kill => exact .settled hps h.kill
  | hanging hold hself hnew hnames h =>
    cases hd with
    | crash keep junk =>
      rcases h.crashed keep junk with h | h
      · exact .settled hold h
      · exact .settled (.generation _ _ _ _ hself hnew) h
    | kill => exact .hanging hold hself hnew hnames h.kill

/-- What is visible of it is well formed. -/
theorem Standing.sound (h : Standing I F d) : d.Sound := by
  cases h with
  | settled _ h => exact h.wf.sound
  | hanging _ _ _ _ h => exact h.sound

/-- A name that a publication of the next generation writes to has nothing to do with a rename that
hangs. -/
theorem aside_of_untouched {new : List Pin} (hnames : Untouched (old ++ new) [] gen) {base : Name}
    (hbase : base = stockSnapshotName ∨ base = stockAofName) :
    Disk.Aside stockManifestTmpName stockManifestName old new (generationName base gen) := by
  have hnot := hnames.notMem hbase
  rw [List.append_nil, List.map_append, List.mem_append, not_or] at hnot
  exact ⟨generationName_ne gen hbase _ (by simp), generationName_ne gen hbase _ (by simp), hnot.1,
    hnot.2⟩

/-- Nor has the marker. -/
theorem aside_marker (hold : Basis I F old) (g : GenerationFiles) :
    Disk.Aside stockManifestTmpName stockManifestName old (g.pins i j k)
      stockBootstrapMarkerName where
  source := by decide
  target := by decide
  old := hold.marker_notMem
  new := g.marker_notMem

/-! ## Startups -/

/-- A quiet call leaves the disk as it is, or fsyncs the directory. -/
theorem perform_of_quiet {o : Op} (ho : Quiet o) (d : Disk) (c : Choice) :
    (perform d o c).2 = d ∨ (perform d o c).2 = d.syncDir := by
  have heffect := Disk.perform_effect d o c
  revert heffect
  generalize (perform d o c).2 = d'
  intro heffect
  cases heffect with
  | nothing => exact Or.inl rfl
  | syncDir => exact Or.inr rfl
  | print | flush | fsync | close | truncate | create | unlink | rename => exact ho.elim

/-- The calls of a startup that finds a manifest: quiet ones, and the unlink of the marker. -/
def QuietOrMarker (o : Op) : Prop := Quiet o ∨ o = .unlink stockBootstrapMarkerName

/-- **A quiet call, or the unlink of the marker**, leaves a directory standing. -/
theorem Standing.of_perform (h : Standing I F d) {o : Op} (ho : QuietOrMarker o) (c : Choice) :
    Standing I F (perform d o c).2 := by
  cases h with
  | settled hps h =>
    refine .settled hps (h.of_spared ?_ c)
    rcases ho with ho | rfl
    · cases o <;> trivial
    · exact hps.marker_notMem
  | hanging hold hself hnew hnames h =>
    rcases ho with ho | rfl
    · rcases perform_of_quiet ho d c with hd | hd <;> rw [hd]
      · exact .hanging hold hself hnew hnames h
      · exact .settled (.generation _ _ _ _ hself hnew) h.settled
    · exact .hanging hold hself hnew hnames (h.unlink (aside_marker hold _) c).1

/-- **A startup that does not miss the manifest** keeps whatever quiet calls and the unlink of the
marker keep. -/
theorem ensures_recover_of_found {K : Disk → Prop}
    (hK : ∀ d o c, QuietOrMarker o → K d → K (perform d o c).2)
    (hfound : (manifestOf d).1 ≠ .errNotFound) (hd : K d) :
    Ensures ok K (fun _ d => K d) (recoverStockStore store) d := by
  refine ensures_readManifest_bind hd ?_ fun status _ hok hnot => ?_
  · rcases hmanifest : manifestOf d with ⟨status, gen⟩
    rw [hmanifest] at hfound
    dsimp only at hfound ⊢
    rw [if_neg hfound]
    split_ifs with hok
    · exact ⟨hd, hd⟩
    · exact (calls_recoverGeneration (C := QuietOrMarker) (fun o ho => Or.inl ho)
        (Or.inr rfl)).ensures hK hd
  · simp only [hnot, ↓reduceIte, hok, ne_eq, not_false_eq_true]
    exact ⟨hd, hd⟩

/-- A process sees the files of one generation. -/
theorem GenerationFiles.Shown.unique {g' : GenerationFiles} (h : g.Shown d) (hself : g.NamesSelf)
    (h' : g'.Shown d) (hg' : g'.Describes store) : g' = g := by
  have hnames := hg'.names
  rw [Option.some.inj (h'.manifest.symm.trans h.manifest)] at hnames
  have hgen : g'.gen = g.gen := hself _ hnames
  cases g' with
  | mk gen' manifest snapshot aof =>
    obtain rfl : gen' = g.gen := hgen
    have hm := Option.some.inj (h'.manifest.symm.trans h.manifest)
    have hs := Option.some.inj (h'.snapshot.symm.trans h.snapshot)
    have ha := Option.some.inj (h'.aof.symm.trans h.aof)
    dsimp only at hm hs ha
    rw [hm, hs, ha]

/-- Files that are seen are not missed. -/
theorem GenerationFiles.Shown.found (h : g.Shown d) :
    (StockServer.manifestOf d).1 ≠ .errNotFound := by
  intro hmissing
  have hcontents := h.manifest
  rw [Disk.contents, lookup_of_manifestOf hmissing] at hcontents
  cases hcontents

/-! ## While a generation is published -/

/-- **While a generation is published** the directory stands: it holds the basis it held, or the new
generation, or the rename hangs between them. -/
theorem Publishing.standing {qs : List Pin} (h : Publishing old ps gen final d) (hqs : Basis I F qs)
    (hsub : qs ⊆ old ++ ps) (hmanifest : stockManifestName ∉ ps.map Pin.name)
    (hfinal : F (newFiles gen final))
    (hnames : ∀ i j k, Untouched (qs ++ (newFiles gen final).pins i j k) [] (gen + 1)) :
    Standing I F d := by
  cases h with
  | before h => exact .settled hqs (h.subset hsub)
  | switching j k h =>
    have hwider : qs ⊆ old ++ (.file (generationName stockAofName gen) k [] ::
        .file (generationName stockSnapshotName gen) j (snapshotText final) :: ps) := by
      intro p hp
      have := hsub hp
      simp only [List.mem_append, List.mem_cons] at this ⊢
      tauto
    have hpins : ∀ i, (newFiles gen final).pins i j k ⊆ .file stockManifestName i
        (manifestText gen) :: .file (generationName stockAofName gen) k [] ::
          .file (generationName stockSnapshotName gen) j (snapshotText final) :: ps := by
      intro i p hp
      rw [newFiles_pins] at hp
      simp only [List.mem_cons, List.not_mem_nil, or_false] at hp ⊢
      tauto
    cases h with
    | before h => exact .settled hqs (h.subset hwider)
    | renamed d₀ i h hd =>
      subst hd
      have hother := notMem_names
        (a := .file (generationName stockAofName gen) k [])
        (b := .file (generationName stockSnapshotName gen) j (snapshotText final))
        (generationName_ne gen (Or.inr rfl) _ (by simp))
        (generationName_ne gen (Or.inl rfl) _ (by simp)) hmanifest
      exact .hanging hqs newFiles_namesSelf hfinal (hnames i j k)
        ((h.hanging hother).subset hwider (hpins i))
    | after i h =>
      exact .settled (.generation _ i j k newFiles_namesSelf hfinal) (h.subset (hpins i))

/-- The files of a generation and those published after it are left alone by the next
publication. -/
theorem untouched_next (hgen : g.gen + 1 = gen) {i' j' k' : Ino} :
    Untouched (g.pins i j k ++ (newFiles gen final).pins i' j' k') [] (gen + 1) := by
  refine (GenerationFiles.untouched ?_).append (GenerationFiles.untouched (ne_add_one gen))
  subst hgen
  intro h
  have hzero : g.gen + 0 = g.gen + (1 + 1) := by
    rw [← Int64.add_assoc]
    exact (Int64.add_zero _).trans h
  exact absurd ((Int64.add_right_inj _).mp hzero) (by decide)

/-! ## Bootstrap -/

/-- Preparing for bootstrap keeps the pins that its cleanup spares. -/
theorem ensures_prepareBootstrap_holds {crash : Disk → Prop} (hd : d.Holds ps)
    (hspared : ∀ p ∈ ps, Spared 0 p.name) (hmarker : stockBootstrapMarkerName ∉ ps.map Pin.name)
    (hcrash : ∀ d, d.Holds ps → crash d) :
    Ensures ok crash (fun _ d => d.Holds ps) prepareBootstrap d := by
  rw [prepareBootstrap, fileExists, ensures_op_bind]
  refine ⟨hcrash d hd, fun c _ => ?_⟩
  split_ifs
  · refine (ensures_cleanupOldGenerationFiles hspared hcrash hd).bind (fun status d₁ _ h => ?_)
      fun code d₁ _ h => h.2
    split_ifs
    · exact ⟨hcrash d₁ h.2, h.2⟩
    · refine (ensures_removeBootstrapMarker h.2 hmarker hcrash).mono (fun _ h => h) fun r d₂ h => ?_
      rcases h with ⟨-, h⟩ | ⟨-, -, h⟩ <;> exact h
  · refine (ensures_ensureBootstrapRecoveryState (hcrash d hd)).mono (fun _ h => h) fun r d₁ h => ?_
    rw [h.1]
    exact hd

variable {data : Bytes} {base : StockStore}

/-- Cleaning up spares an init file and a missing manifest. -/
theorem spared_initPins : ∀ p ∈ initPins i data, Spared 0 p.name := by
  intro p hp
  have hnone : artifactGeneration p.name = none ∧ p.name ≠ stockManifestTmpName := by
    simp only [List.mem_cons, List.not_mem_nil, or_false] at hp
    rcases hp with rfl | rfl <;> simp only [Pin.name] <;> decide
  refine ⟨hnone.2, fun g hg => ?_⟩
  rw [hnone.1] at hg
  cases hg

/-- What the init file loads as. -/
theorem imageOf_initFile (i : Ino)
    (hload : applyLines loadLine .nil (fileLines data) = (.ok, base))
    (h : d.Holds [.file stockInitName i data]) :
    imageOf loadLine .nil d stockInitName = (.ok, base) := by
  have hinit : d.Pinned stockInitName i data := h.fixes (.file _ i _) (by simp)
  rw [imageOf, hinit.contents]
  exact hload

/-- **A startup without a manifest** leaves the directory standing. -/
theorem ensures_recover_initFile (hload : applyLines loadLine .nil (fileLines data) = (.ok, base))
    (hbase : I base) (hboot : F (newFiles 1 base)) (h : d.Holds (initPins i data)) :
    Ensures ok (Standing I F) (fun _ _ => True) (recoverStockStore .nil) d := by
  have hbasis : Basis I F (initPins i data) := .initFile i data base hload hbase
  have hstanding : ∀ d, d.Holds (initPins i data) → Standing I F d := fun _ hd =>
    .settled hbasis hd
  have habsent : d.Fixed stockManifestName none := h.fixes (.absent _) (by simp)
  refine ensures_readManifest_bind (hstanding d h) ?_ fun status _ hok hnot => ?_
  swap
  · simp only [hnot, ↓reduceIte, hok, ne_eq, not_false_eq_true]
    exact ⟨hstanding d h, trivial⟩
  rw [manifestOf_of_lookup habsent.lookup]
  dsimp only
  rw [if_pos rfl]
  refine (ensures_prepareBootstrap_holds h spared_initPins hbasis.marker_notMem hstanding).bind
    (fun prepared d₁ hd₁ h₁ => ?_) fun _ _ _ _ => trivial
  split_ifs
  · exact ⟨hd₁, trivial⟩
  rw [fileExists, ensures_op_bind]
  refine ⟨hd₁, fun c _ => ?_⟩
  split_ifs
  swap
  · exact ⟨hd₁, trivial⟩
  refine (ensures_bootstrapStore h₁ (List.Subset.refl _) hbasis.marker_notMem untouched_bootstrap
    (fun d hd => imageOf_initFile i hload hd) hstanding (fun d hd => ?_)
    fun d i' j k hd => ?_).mono (fun _ h => h) fun _ _ _ => trivial
  · exact hd.standing hbasis (by simp) (by simp only [List.map_cons, Pin.name]; decide) hboot
      fun i' j k => (untouched_initFile _).append (GenerationFiles.untouched (ne_add_one 1))
  · refine .settled (.generation _ i' j k newFiles_namesSelf hboot) (hd.subset ?_)
    rw [newFiles_pins]
    simp [publishedPins]

/-- What a hanging rename shows. -/
theorem shown_of_hanging (h : d.Hanging stockManifestTmpName stockManifestName old (g.pins i j k)) :
    g.Shown d := by
  have hpins : d.syncDir.Holds (g.pins i j k ++ []) := by simpa using h.settled
  exact (GenerationFiles.shown_of_holds hpins).congr fun _ => Disk.contents_syncDir.symm

/-- What a file loads as is a search tree. -/
theorem ordered_of_load {lines : List Bytes} (h : applyLines loadLine .nil lines = (.ok, store)) :
    Ordered store := by
  have hord := @Ordered.applyLines loadLine (fun _ line hs => hs.loadLine line) .nil
    (ordered_nil _) lines
  rwa [h] at hord

/-- **A startup** leaves the directory standing, at every call and whatever fails. -/
theorem Standing.ensures_recover (h : Standing I F d)
    (hboot : ∀ base, Ordered base → I base → F (newFiles 1 base)) :
    Ensures ok (Standing I F) (fun _ _ => True) (recoverStockStore .nil) d := by
  have hfound : ∀ {g : GenerationFiles}, g.Shown d →
      Ensures ok (Standing I F) (fun _ _ => True) (recoverStockStore .nil) d :=
    fun hshown => (ensures_recover_of_found (fun _ _ c ho hd => hd.of_perform ho c) hshown.found
      h).mono (fun _ h => h) fun _ _ _ => trivial
  cases h with
  | settled hps h =>
    cases hps with
    | initFile i data base hload hbase =>
      exact ensures_recover_initFile hload hbase (hboot base (ordered_of_load hload) hbase) h
    | generation g i j k hself hg =>
      have hpins : d.Holds (g.pins i j k ++ []) := by simpa using h
      exact hfound (GenerationFiles.shown_of_holds hpins)
  | hanging hold hself hnew hnames h => exact hfound (shown_of_hanging h)

/-- **The files that a process sees** are those that the directory stands on. -/
theorem Standing.of_shown (h : Standing I F d) (hshown : g.Shown d) (hg : g.Describes store) :
    F g := by
  cases h with
  | settled hps h =>
    cases hps with
    | initFile i data base hload hbase =>
      have habsent : d.Fixed stockManifestName none := h.fixes (.absent _) (by simp)
      exact absurd (by rw [manifestOf_of_lookup habsent.lookup]) hshown.found
    | generation g' i j k hself hg' =>
      have hpins : d.Holds (g'.pins i j k ++ []) := by simpa using h
      rwa [(GenerationFiles.shown_of_holds hpins).unique hself hshown hg]
  | hanging hold hself hnew hnames h =>
    rwa [(shown_of_hanging h).unique hself hshown hg]

/-- **What is seen**: the directory holds an init file and no manifest, or a process sees a
generation. -/
theorem Standing.shows (h : Standing I F d) :
    (∃ i data base, I base ∧ applyLines loadLine .nil (fileLines data) = (.ok, base) ∧
      d.Holds (initPins i data)) ∨ ∃ g, F g ∧ g.NamesSelf ∧ g.Shown d := by
  cases h with
  | settled hps h =>
    cases hps with
    | initFile i data base hload hbase => exact Or.inl ⟨i, data, base, hbase, hload, h⟩
    | generation g i j k hself hg =>
      have hpins : d.Holds (g.pins i j k ++ []) := by simpa using h
      exact Or.inr ⟨g, hg, hself, GenerationFiles.shown_of_holds hpins⟩
  | hanging hold hself hnew hnames h => exact Or.inr ⟨_, hnew, hself, shown_of_hanging h⟩

/-! ## Publications -/

/-- A publication that finds a basis: with `STOCK_OK` its own generation is on disk. -/
theorem ensures_materialize_settled (hps : Basis I F ps) (h : d.Holds ps)
    (hfinal : ∀ gen, NextOf d gen → F (newFiles gen final)) :
    Ensures ok (Standing I F) (fun r d' => r = .returned .ok →
      ∃ gen i j k, NextOf d gen ∧ d'.Holds ((newFiles gen final).pins i j k))
      (materializeStoreGeneration final) d := by
  have hpublish : ∀ gen, NextOf d gen → Untouched ps [] gen →
      (∀ i j k, Untouched (ps ++ (newFiles gen final).pins i j k) [] (gen + 1)) →
      Ensures ok (Standing I F) (fun r d' => r = .returned .ok →
        ∃ gen i j k, NextOf d gen ∧ d'.Holds ((newFiles gen final).pins i j k))
        (materializeStoreGeneration final) d := by
    intro gen hnext hnames hnext'
    have hpins : d.Holds (ps ++ []) := by simpa using h
    refine (ensures_materializeStoreGeneration hpins hnext hnames
      fun d hd => hd.standing hps (by simp) (by simp) (hfinal gen hnext) hnext').mono
      (fun _ h => h) fun r d hr hok => ?_
    obtain ⟨i, j, k, hd⟩ := hr.good hok
    exact ⟨gen, i, j, k, hnext, by rwa [newFiles_pins]⟩
  have hstanding : Standing I F d := .settled hps h
  cases hps with
  | initFile i data base hload hbase =>
    have habsent : d.Fixed stockManifestName none := h.fixes (.absent _) (by simp)
    exact hpublish 1 (Or.inl ⟨manifestOf_of_lookup habsent.lookup, rfl⟩) (untouched_initFile 1)
      fun i' j k => (untouched_initFile _).append (GenerationFiles.untouched (ne_add_one 1))
  | generation g i j k hself hg =>
    have hpins : d.Holds (g.pins i j k ++ []) := by simpa using h
    have hshown := GenerationFiles.shown_of_holds hpins
    rcases hmanifest : manifestOf d with ⟨status, gen⟩
    by_cases hok : status = .ok
    · subst hok
      obtain ⟨manifest, hm, hread⟩ := contents_of_manifestOf hmanifest
      rw [Option.some.inj (hm.symm.trans hshown.manifest)] at hread
      obtain rfl : gen = g.gen := hself gen hread
      exact hpublish (g.gen + 1) (Or.inr ⟨g.gen, hmanifest, rfl⟩)
        (GenerationFiles.untouched (ne_add_one g.gen)) fun _ _ _ => untouched_next rfl
    · have hfound : status ≠ .errNotFound := by
        rintro rfl
        exact hshown.found (congrArg Prod.fst hmanifest)
      refine ensures_readManifest_bind hstanding ?_ fun status' _ hok' hfound' => ?_
      · rw [hmanifest]
        dsimp only
        rw [if_pos ⟨hfound, hok⟩]
        exact ⟨hstanding, fun hr => absurd (Outcome.returned.inj hr) hok⟩
      · dsimp only
        rw [if_pos ⟨hfound', hok'⟩]
        exact ⟨hstanding, fun hr => absurd (Outcome.returned.inj hr) hok'⟩

/-! ## Publications that find a rename hanging -/

section Hanging

variable {a b path : Name} {new : List Pin} {C : Op → Prop} {K : Disk → Prop}

/-- **Writing a file of its own** leaves a rename hanging. -/
theorem ensures_writeFile_hanging {contents : Ino → Prog StockStatus}
    (h : d.Hanging a b old new) (hpath : Disk.Aside a b old new path)
    (hcontents : ∀ fp, Calls (Disk.OnFile path fp) (contents fp)) :
    Ensures ok (·.Hanging a b old new) (fun _ d => d.Hanging a b old new)
      (writeFile path contents) d := by
  rw [writeFile, ensures_op_bind]
  refine ⟨h, fun c _ => ?_⟩
  obtain ⟨hopened, hown⟩ := h.openWrite hpath c
  cases hr : (perform d (.openWrite path) c).1 with
  | none => exact ⟨hopened, hopened⟩
  | some fp =>
    -- from here on all calls are on the file, or unlink it
    refine (Calls.ensures (C := Disk.OnFile path fp)
      (I := fun d => d.Hanging a b old new ∧ d.OwnFile path fp) ?_
      (fun d o c ho hd => hd.1.of_onFile hpath hd.2 ho c) ⟨hopened, hown fp hr⟩).mono
      (fun _ h => h.1) fun _ _ h => h.1
    have habandon : ∀ status, Calls (Disk.OnFile path fp) (abandon fp path status) := fun _ =>
      ⟨rfl, fun _ => ⟨rfl, fun _ => trivial⟩⟩
    have hon : ∀ o, Disk.OnFile path fp o → Calls (Disk.OnFile path fp) (op o) := fun _ =>
      calls_op.mpr
    refine (hcontents fp).bind fun status => Calls.bind ?_ fun status => ?_
    · rw [flushIfOk]
      split_ifs
      · refine Calls.bind (hon (.flush fp) rfl) fun flushed => ?_
        split_ifs <;> trivial
      · trivial
    · split_ifs
      · exact habandon _
      · refine Calls.bind (hon (.fsync fp) rfl) fun synced => ?_
        split_ifs
        · refine Calls.bind (hon (.close fp) rfl) fun closed => ?_
          split_ifs
          · trivial
          · exact ⟨rfl, fun _ => trivial⟩
        · exact habandon _

/-- Until the directory is fsynced, the function that fsyncs it has not succeeded. -/
theorem until_fsyncParentDir (hd : K d) :
    Until K (fun r _ => r ≠ .returned .ok) (fsyncParentDir path) d := by
  rw [fsyncParentDir]
  split_ifs
  · exact ⟨hd, by simp⟩
  rw [until_op_bind]
  refine ⟨hd, fun c => Or.inr ?_⟩
  cases hopen : c.fail with
  | true =>
    simp only [perform, hopen, Bool.not_true, Bool.false_eq_true, ↓reduceIte]
    exact ⟨hd, by simp⟩
  | false =>
    simp only [perform, hopen, Bool.not_false, ↓reduceIte]
    rw [until_op_bind]
    refine ⟨hd, fun c => ?_⟩
    cases hsync : c.fail with
    | false => exact Or.inl ⟨rfl, rfl⟩
    | true =>
      right
      simp only [perform, hsync, ↓reduceIte, Bool.false_eq_true]
      rw [closeDir, bind_assoc, until_op_bind]
      refine ⟨hd, fun c => Or.inr ?_⟩
      cases hclose : c.fail with
      | true =>
        simp only [perform, hclose, Bool.not_true, Bool.false_eq_true, ↓reduceIte]
        exact ⟨hd, by simp⟩
      | false =>
        simp only [perform, hclose, Bool.not_false, ↓reduceIte]
        exact ⟨hd, by simp⟩

/-- Nor has a sequence of steps of which the first has not succeeded. -/
theorem until_ifOk {first rest : Prog StockStatus}
    (h : Until K (fun r _ => r ≠ .returned .ok) first d) :
    Until K (fun r _ => r ≠ .returned .ok) (ifOk first rest) d := by
  refine h.bind (fun status d' hd' hstatus => ?_) fun code _ _ _ => by simp
  have hnot : status ≠ .ok := fun hok => hstatus (congrArg _ hok)
  rw [if_pos hnot]
  exact ⟨hd', hstatus⟩

/-- **Until the directory is fsynced, a publication leaves a rename hanging**, and it has not
succeeded. -/
theorem until_materialize
    (h : d.Hanging stockManifestTmpName stockManifestName old (g.pins i j k)) (hself : g.NamesSelf)
    (hnames : Untouched (old ++ g.pins i j k) [] (g.gen + 1)) :
    Until (·.Hanging stockManifestTmpName stockManifestName old (g.pins i j k))
      (fun r _ => r ≠ .returned .ok) (materializeStoreGeneration final) d := by
  have hshown := shown_of_hanging h
  refine (ensures_readManifestGeneration h).until.bind (fun read d' _ hread => ?_)
    fun code _ _ _ => by simp
  obtain ⟨rfl, hr⟩ := hread
  by_cases hok : read.1 = .ok
  swap
  · -- an error, of the manifest or of a call
    have hfound : read.1 ≠ .errNotFound := by
      rcases hr with hr | ⟨-, status, hr, -, hnot⟩
      · obtain rfl := Outcome.returned.inj hr
        exact hshown.found
      · obtain rfl := Outcome.returned.inj hr
        exact hnot
    dsimp only
    rw [if_pos ⟨hfound, hok⟩]
    exact ⟨h, fun hr => hok (Outcome.returned.inj hr)⟩
  · have hmanifest : manifestOf d' = (.ok, read.2) := by
      rcases hr with hr | ⟨-, status, hr, hnot, -⟩
      · obtain rfl := Outcome.returned.inj hr
        exact Prod.ext hok rfl
      · obtain rfl := Outcome.returned.inj hr
        exact absurd hok hnot
    obtain ⟨manifest, hm, hread⟩ := contents_of_manifestOf hmanifest
    rw [Option.some.inj (hm.symm.trans hshown.manifest)] at hread
    obtain ⟨status, gen⟩ := read
    obtain rfl : status = .ok := hok
    obtain rfl : gen = g.gen := hself gen hread
    have haside := aside_of_untouched hnames (Or.inl rfl)
    have hwrite : Until (·.Hanging stockManifestTmpName stockManifestName old (g.pins i j k))
        (fun r _ => r ≠ .returned .ok)
        (saveSnapshotFile final (generationName stockSnapshotName (g.gen + 1))) d' := by
      refine Until.bind (ensures_writeFile_hanging h haside fun fp => ?_).until
        (fun status d₁ hd₁ _ => ?_) fun code _ _ _ => by simp
      · rw [stockStoreInorderWalk_eq]
        exact calls_prints (fun _ => rfl) _
      · split_ifs with hstatus
        · exact ⟨hd₁, fun hr => hstatus (Outcome.returned.inj hr)⟩
        · exact until_fsyncParentDir hd₁
    simpa [buildGenerationPath_eq] using until_ifOk hwrite

end Hanging

/-- **A publication** leaves the directory standing, at every call and whatever fails; with
`STOCK_OK` its own generation is on disk. -/
theorem Standing.ensures_materialize (h : Standing I F d)
    (hfinal : ∀ gen, NextOf d gen → F (newFiles gen final)) :
    Ensures ok (Standing I F) (fun r d' => r = .returned .ok →
      ∃ gen i j k, NextOf d gen ∧ d'.Holds ((newFiles gen final).pins i j k))
      (materializeStoreGeneration final) d := by
  cases h with
  | settled hps h => exact ensures_materialize_settled hps h hfinal
  | @hanging old g i j k hold hself hnew hnames h =>
    -- after the first fsync the publication goes as on the fsynced directory
    have hsettled := @ensures_materialize_settled ok d.syncDir I F _ final
      (.generation g i j k hself hnew) h.settled hfinal
    refine ((until_materialize h hself hnames).ensures hsettled (Disk.level_syncDir d)).mono
      (fun d hd => ?_) fun r d hr => ?_
    · exact hd.elim (fun hd => .hanging hold hself hnew hnames hd) id
    · exact hr.elim (fun hr hok => absurd hok hr.2) id

end StockServer
