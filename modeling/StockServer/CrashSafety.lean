import StockServer.Lib.Alike
import StockServer.Recovery

set_option relaxedAutoImplicit false
set_option autoImplicit false

/-!
# A publication is read back, and survives crashes

Recovery depends on three files only: the manifest, and the snapshot and the log of the generation
it names.  A successful publication leaves three files that describe the store; a publication
that is cut off anywhere, with any of its calls failing, leaves the old three files or the new
three.

## Main definitions

* `GenerationFiles` — the contents of the three files of a generation.
* `GenerationFiles.Shown`, `GenerationFiles.pins`, `GenerationFiles.Describes` — a process sees
  them, they are on disk, and they describe a store.
* `newFiles` — the files of a generation that has just been published.

## Main results

* `recover_of_shown` — recovery returns the store that the files a process sees describe.
* `newFiles_describes` — the files of a published generation describe its store.
* `Publishing.shown` — at every point of a publication, whichever way the process ends, the next
  one sees the old files or the new ones.
* `recover_materialize` — what has been published with success is recovered.
* `materialize_crash_safe` — a crash during a publication loses nothing but the publication.
-/

namespace StockServer

open Prog SearchTree

/-! ## The files of a generation -/

/-- A generation number and the contents of the manifest, the snapshot and the log. -/
structure GenerationFiles where
  gen : StockGen
  manifest : Bytes
  snapshot : Bytes
  aof : Bytes

namespace GenerationFiles

/-- A process sees the three files. -/
structure Shown (g : GenerationFiles) (d : Disk) : Prop where
  manifest : d.contents stockManifestName = some g.manifest
  snapshot : d.contents (generationName stockSnapshotName g.gen) = some g.snapshot
  aof : d.contents (generationName stockAofName g.gen) = some g.aof

/-- The three files are on disk. -/
def pins (g : GenerationFiles) (i j k : Ino) : List Pin :=
  [.file stockManifestName i g.manifest, .file (generationName stockAofName g.gen) k g.aof,
    .file (generationName stockSnapshotName g.gen) j g.snapshot]

/-- The manifest names the generation, and the snapshot and the log load as this store. -/
structure Describes (g : GenerationFiles) (store : StockStore) : Prop where
  names : readManifest none (fileLines g.manifest) = (.ok, some g.gen)
  loads : ∃ base, applyLines loadLine .nil (fileLines g.snapshot) = (.ok, base) ∧
    applyLines replayLine base (fileLines g.aof) = (.ok, store)

variable {g : GenerationFiles} {d d' : Disk} {store : StockStore} {i j k : Ino} {ps : List Pin}

/-- Files on disk are seen. -/
theorem shown_of_holds (h : d.Holds (g.pins i j k ++ ps)) : g.Shown d where
  manifest := Disk.Pinned.contents (h.fixes (.file _ i _) (by simp [pins]))
  snapshot := Disk.Pinned.contents (h.fixes (.file _ j _) (by simp [pins]))
  aof := Disk.Pinned.contents (h.fixes (.file _ k _) (by simp [pins]))

/-- What a process sees decides. -/
theorem Shown.congr (h : g.Shown d) (hd : ∀ name, d'.contents name = d.contents name) :
    g.Shown d' :=
  ⟨(hd _).trans h.manifest, (hd _).trans h.snapshot, (hd _).trans h.aof⟩

/-- The next process sees files on disk, whichever way this one ends. -/
theorem shown_of_leaves (h : d.Holds (g.pins i j k ++ ps)) (hd : d.Leaves d') : g.Shown d' := by
  cases hd with
  | crash keep junk => exact shown_of_holds (h.crash keep junk)
  | kill => exact (shown_of_holds h).congr fun _ => Disk.contents_kill

/-- A manifest names a positive generation. -/
theorem pos_of_readManifest {lines : List Bytes} {seen : Option StockGen} {gen : StockGen}
    (hseen : ∀ g, seen = some g → 0 < g) (h : readManifest seen lines = (.ok, some gen)) :
    0 < gen := by
  induction lines generalizing seen with
  | nil => exact hseen gen (congrArg Prod.snd h)
  | cons line lines ih =>
    rw [readManifest] at h
    split at h
    · exact ih hseen h
    · cases h
    · rename_i manifest hparse
      split_ifs at h
      · cases h
      · refine ih (fun g hg => ?_) h
        obtain rfl := Option.some.inj hg
        simp only [parseManifestLine] at hparse
        split_ifs at hparse
        split at hparse
        · split_ifs at hparse with hbad
          obtain rfl := Parsed.ok.inj hparse
          exact Int64.not_le.mp (not_or.mp hbad).2
        · cases hparse

theorem Describes.pos (h : g.Describes store) : 0 < g.gen :=
  pos_of_readManifest (fun _ hg => by cases hg) h.names

/-- The manifest that a process sees is read as it is. -/
theorem Shown.manifestOf (h : g.Shown d) (hg : g.Describes store) :
    manifestOf d = (.ok, g.gen) := by
  rw [StockServer.manifestOf, h.manifest]
  simp only [hg.names]

/-- So are the snapshot and the log. -/
theorem Shown.image (h : g.Shown d) (hg : g.Describes store) :
    generationImage .nil d g.gen = (.ok, store) := by
  obtain ⟨base, hbase, hstore⟩ := hg.loads
  simp [generationImage, imageOf, h.snapshot, h.aof, hbase, hstore]

/-- **Recovery returns the store that the files describe.** -/
theorem recover_of_shown (h : g.Shown d) (hg : g.Describes store) {σ : ℕ → Choice}
    (hσ : ∀ n, (σ n).Fine) :
    ((recoverStockStore .nil).run d σ).1 = .returned (.ok, store) := by
  rw [run_recover_fine (h.manifestOf hg) hσ, h.image hg]

end GenerationFiles

/-! ## A published generation -/

/-- The files of a generation that has just been published. -/
def newFiles (gen : StockGen) (store : StockStore) : GenerationFiles :=
  ⟨gen, manifestText gen, snapshotText store, []⟩

variable {g : GenerationFiles} {d d' : Disk} {store base : StockStore} {i j k j' k' : Ino}
  {gen : StockGen}

/-- **The files of a published generation describe its store.** -/
theorem newFiles_describes (hgen : 0 < gen) (hord : Ordered store)
    (hstorable : ∀ item ∈ inorder store, Storable item) :
    ∃ s, (newFiles gen store).Describes s ∧ SameMap s store := by
  obtain ⟨s, hload, hsame⟩ := applyLines_snapshotText hord hstorable
  exact ⟨s, ⟨(readManifest_manifestText gen).trans (if_pos hgen), s, hload, rfl⟩, hsame⟩

/-- Nothing of the files of one generation is written by the publication of another. -/
theorem GenerationFiles.untouched (hgen : g.gen ≠ gen) : Untouched (g.pins i j k) [] gen where
  tmp p hp := by
    simp only [pins, List.append_nil, List.mem_cons, List.not_mem_nil, or_false] at hp
    rcases hp with rfl | rfl | rfl
    · simp only [Pin.name]; decide
    · exact generationName_ne g.gen (Or.inr rfl) _ (by simp)
    · exact generationName_ne g.gen (Or.inl rfl) _ (by simp)
  artifacts p hp base hbase := by
    simp only [pins, List.append_nil, List.mem_cons, List.not_mem_nil, or_false] at hp
    rcases hp with rfl | rfl | rfl
    · exact (generationName_ne gen hbase stockManifestName (by simp)).symm
    · rcases hbase with rfl | rfl
      · exact (snapshotName_ne_aofName gen g.gen).symm
      · exact fun h => hgen (generationName_inj h)
    · rcases hbase with rfl | rfl
      · exact fun h => hgen (generationName_inj h)
      · exact snapshotName_ne_aofName g.gen gen
  manifest p hp := by cases hp
  kept p hp := by cases hp

/-- The pins of the files of a generation that has just been published. -/
theorem newFiles_pins : (newFiles gen store).pins i j k =
    [.file stockManifestName i (manifestText gen), .file (generationName stockAofName gen) k [],
      .file (generationName stockSnapshotName gen) j (snapshotText store)] := rfl

/-- While a manifest is being switched, and whichever way the process ends, the next one sees the
old files or the new ones. -/
theorem Switching.shown (h : Switching (g.pins i j k)
    [.file (generationName stockAofName gen) k' [],
      .file (generationName stockSnapshotName gen) j' (snapshotText store)] gen d)
    (hd : d.Leaves d') : g.Shown d' ∨ (newFiles gen store).Shown d' := by
  cases h with
  | before h => exact Or.inl (GenerationFiles.shown_of_leaves h hd)
  | after i' h =>
    rw [← newFiles_pins, ← List.append_nil ((newFiles gen store).pins i' j' k')] at h
    exact Or.inr (GenerationFiles.shown_of_leaves h hd)
  | renamed d₀ i' h hchange =>
    subst hchange
    have hfixed : ∀ {base}, base = stockSnapshotName ∨ base = stockAofName →
        generationName base gen ≠ stockManifestName := fun hbase =>
      generationName_ne gen hbase _ (by simp)
    cases hd with
    | crash keep junk =>
      have hmanifest : stockManifestName ∉ ([Pin.file (generationName stockAofName gen) k' [],
          .file (generationName stockSnapshotName gen) j' (snapshotText store)]).map Pin.name := by
        simp only [List.map_cons, List.map_nil, List.mem_cons, List.not_mem_nil, Pin.name,
          or_false, not_or]
        exact ⟨(hfixed (Or.inr rfl)).symm, (hfixed (Or.inl rfl)).symm⟩
      rcases h.rename_crash hmanifest keep junk with hold | hnew
      · exact Or.inl (GenerationFiles.shown_of_holds hold)
      · rw [← newFiles_pins, ← List.append_nil ((newFiles gen store).pins i' j' k')] at hnew
        exact Or.inr (GenerationFiles.shown_of_holds hnew)
    | kill =>
      have hother : ∀ base, base = stockSnapshotName ∨ base = stockAofName →
          (d₀.change (.rename stockManifestTmpName stockManifestName i')).contents
            (generationName base gen) = d₀.contents (generationName base gen) := by
        intro base hbase
        refine Disk.contents_change (not_or.mpr ⟨?_, ?_⟩)
        · exact (generationName_ne gen hbase _ (by simp)).symm
        · exact (hfixed hbase).symm
      have hnew : (newFiles gen store).Shown
          (d₀.change (.rename stockManifestTmpName stockManifestName i')) := by
        refine ⟨h.contents_rename, ?_, ?_⟩
        · rw [newFiles, hother _ (Or.inl rfl)]
          exact Disk.Pinned.contents (h.holds.fixes (.file _ j' _) (by simp))
        · rw [newFiles, hother _ (Or.inr rfl)]
          exact Disk.Pinned.contents (h.holds.fixes (.file _ k' _) (by simp))
      exact Or.inr (hnew.congr fun _ => Disk.contents_kill)

/-- **At every point of a publication**, and whichever way the process ends, the next one sees the
old files or the new ones. -/
theorem Publishing.shown (h : Publishing (g.pins i j k) [] gen store d) (hd : d.Leaves d') :
    g.Shown d' ∨ (newFiles gen store).Shown d' := by
  cases h with
  | before h => exact Or.inl (GenerationFiles.shown_of_leaves h hd)
  | switching j' k' h => exact h.shown hd

/-- Below the largest generation the next number is one more. -/
theorem toInt_add_one (hlt : gen < Int64.maxValue) : (gen + 1).toInt = gen.toInt + 1 := by
  have hlt' : gen.toInt < 2 ^ 63 - 1 := Int64.lt_iff_toInt_lt.mp hlt
  have hle : -2 ^ 63 ≤ gen.toInt := Int64.le_toInt gen
  rw [Int64.toInt_add, show (1 : Int64).toInt = 1 from rfl]
  exact Int.bmod_eq_of_le (by omega) (by omega)

/-- The number after a generation below the largest is positive. -/
theorem pos_add_one (hpos : 0 < gen) (hlt : gen < Int64.maxValue) : 0 < gen + 1 := by
  have hpos' : 0 < gen.toInt := Int64.lt_iff_toInt_lt.mp hpos
  rw [Int64.lt_iff_toInt_lt, toInt_add_one hlt]
  show (0 : ℤ) < gen.toInt + 1
  omega

/-- No generation is its own successor. -/
theorem ne_add_one (gen : StockGen) : gen ≠ gen + 1 := by
  intro h
  have hzero : gen + 0 = gen + 1 := (Int64.add_zero gen).trans h
  exact absurd ((Int64.add_right_inj gen).mp hzero) (by decide)

/-- The manifest of the next generation is another one. -/
theorem NextOf.manifestText_ne (h : NextOf d gen) :
    d.contents stockManifestName ≠ some (manifestText gen) := by
  intro hsame
  have hread : manifestOf d = if 0 < gen then (.ok, gen) else (.errInvalid, 0) := by
    rw [manifestOf, hsame]
    dsimp only
    rw [readManifest_manifestText]
    split_ifs <;> rfl
  rcases h with ⟨hnone, rfl⟩ | ⟨g, hsome, rfl⟩
  · rw [hnone] at hread
    exact absurd hread (by decide)
  · rw [hsome] at hread
    split_ifs at hread
    · exact ne_add_one g (congrArg Prod.snd hread)
    · cases congrArg Prod.fst hread

/-! ## What has been published is recovered -/

/-- A recovery none of whose calls fails returns `STOCK_OK` and a store with this map. -/
def Recovers (d : Disk) (store : StockStore) : Prop :=
  ∀ σ : ℕ → Choice, (∀ n, (σ n).Fine) →
    ∃ s, ((recoverStockStore .nil).run d σ).1 = .returned (.ok, s) ∧ SameMap s store

/-- The files that a process sees are recovered. -/
theorem GenerationFiles.Shown.recovers (h : g.Shown d) (hg : g.Describes base)
    (hsame : SameMap base store) : Recovers d store :=
  fun _ hσ => ⟨base, recover_of_shown h hg hσ, hsame⟩

/-- The manifest is missing or names a generation that has a successor. -/
def CanPublish (d : Disk) : Prop :=
  d.contents stockManifestName = none ∨ ∃ data gen, d.contents stockManifestName = some data ∧
    readManifest none (fileLines data) = (.ok, some gen) ∧ gen < Int64.maxValue

/-- The generation that a publication creates. -/
theorem CanPublish.next (h : CanPublish d) : ∃ gen, 0 < gen ∧ NextOf d gen := by
  rcases h with hnone | ⟨data, g, hdata, hnames, hlt⟩
  · exact ⟨1, by decide, Or.inl ⟨by simp [manifestOf, hnone], rfl⟩⟩
  · have hpos := GenerationFiles.pos_of_readManifest (fun _ hg => by cases hg) hnames
    exact ⟨g + 1, pos_add_one hpos hlt, Or.inr ⟨g, by simp [manifestOf, hdata, hnames], rfl⟩⟩

/-- A publication that returns `STOCK_OK` shows the files of the new generation, whatever was on
disk. -/
theorem ensures_materialize_shown {ok : Choice → Prop} (hdir : d.Sound) (hnext : NextOf d gen) :
    Ensures ok (fun _ => True) (fun r d' => r = .returned .ok → (newFiles gen store).Shown d')
      (materializeStoreGeneration store) d := by
  have hpins : d.settle.Holds ([] ++ []) := ⟨hdir.wf_settle, fun p hp => by cases hp⟩
  have hnames : Untouched [] [] gen := ⟨by simp, by simp, by simp, by simp⟩
  have hsettled := @ensures_materializeStoreGeneration ok (fun _ => True) d.settle [] [] store gen
    hpins hnext hnames fun _ _ => trivial
  refine (hsettled.mono (fun _ h => h) fun r d' h hr => ?_).of_alike (Disk.alike_settle d).symm
    fun r d' e halike h hr => (h hr).congr fun name => (halike.contents name).symm
  obtain ⟨i, j, k, hnew⟩ := h.good hr
  exact @GenerationFiles.shown_of_holds (newFiles gen store) _ i j k [] hnew

/-- **What has been published with success is recovered.**  For every search-ordered store of
records that a base image may hold, and every directory without a manifest or with one that names
a generation below the largest: when `materialize_store_generation` returns `STOCK_OK`, whatever
its calls reported, `recover_stock_store` into an empty store rebuilds the same map.

**Proof sketch.** What is on disk before the publication may be taken to be what is visible.  The
publication pins the three files of the new generation.  The manifest reads as that generation,
the snapshot loads as the same map because printing and scanning a record are inverse, and the log
is empty. -/
theorem recover_materialize (hord : Ordered store)
    (hstorable : ∀ item ∈ inorder store, Storable item) (hdir : d.Sound) (hcan : CanPublish d)
    (σ : ℕ → Choice) (hok : ((materializeStoreGeneration store).run d σ).1 = .returned .ok) :
    Recovers ((materializeStoreGeneration store).run d σ).2 store := by
  obtain ⟨gen, hgen, hnext⟩ := hcan.next
  have hpublish := @ensures_materialize_shown d store gen (fun _ => True) hdir hnext
  have hshown := hpublish.run (σ := σ) (fun _ => trivial) hok
  obtain ⟨s, hdescribes, hsame⟩ := newFiles_describes hgen hord hstorable
  exact hshown.recovers hdescribes hsame

/-- A store of two records. -/
def smallStore : StockStore := .node ⟨2, 5, 100⟩ (.node ⟨1, 0, 7⟩ .nil .nil) .nil

theorem smallStore_ordered : Ordered smallStore := by
  unfold Ordered SearchTree.Ordered
  decide

theorem smallStore_storable : ∀ item ∈ inorder smallStore, Storable item := by
  intro item hitem
  simp only [smallStore, inorder_node, inorder_nil, List.mem_append, List.mem_cons,
    List.not_mem_nil, or_false, List.nil_append] at hitem
  rcases hitem with rfl | rfl
  all_goals exact ⟨by decide, by decide, by decide⟩

/-- The first generation of a store of two records. -/
theorem recover_materialize_smallStore :
    Recovers ((materializeStoreGeneration smallStore).run Disk.empty fun _ => .fine).2 smallStore :=
  recover_materialize smallStore_ordered smallStore_storable Disk.holds_empty.wf.sound
    (Or.inl (by decide +kernel)) _ (by decide +kernel)

/-! ## A crash during a publication -/

/-- **A crash during a publication loses nothing but the publication.**  The directory holds a
manifest, a snapshot and a log that load as the store `old`, beside any other files, and `store` is
a search-ordered store of records that a base image may hold.  Whichever calls of
`materialize_store_generation` fail, and wherever it is cut off, the next undisturbed recovery
succeeds with exactly the map recovered before or exactly the map of `store`; after a publication
that returned `STOCK_OK` it is the map of `store`.

**Proof sketch.** Every call leaves one of the disks of `Publishing`: the old three files are
pinned until the new snapshot and the new log are, and a rename is all that happens to the
manifest.  A crash keeps all pins, and either makes the rename or does not. -/
theorem materialize_crash_safe {old : StockStore} (hdir : d.Holds (g.pins i j k))
    (hold : g.Describes old) (hlt : g.gen < Int64.maxValue) (hord : Ordered store)
    (hstorable : ∀ item ∈ inorder store, Storable item) (σ : ℕ → Choice) :
    Recovers d old ∧
    (∀ n d', ((materializeStoreGeneration store).after n d σ).Leaves d' →
      Recovers d' old ∨ Recovers d' store) ∧
    (((materializeStoreGeneration store).run d σ).1 = .returned .ok →
      ∀ d', ((materializeStoreGeneration store).run d σ).2.Leaves d' → Recovers d' store) := by
  have hgen : 0 < g.gen + 1 := pos_add_one hold.pos hlt
  have hpins : d.Holds (g.pins i j k ++ []) := by simpa using hdir
  have hmanifest := (GenerationFiles.shown_of_holds hpins).manifestOf hold
  have hpublish := @ensures_materializeStoreGeneration (fun _ => True)
    (Publishing (g.pins i j k) [] (g.gen + 1) store) d [] (g.pins i j k) store (g.gen + 1) hpins
    (Or.inr ⟨g.gen, hmanifest, rfl⟩) (GenerationFiles.untouched (ne_add_one g.gen)) fun _ h => h
  obtain ⟨s, hnew, hsame⟩ := newFiles_describes hgen hord hstorable
  refine ⟨(GenerationFiles.shown_of_holds hpins).recovers hold (SameMap.refl old), ?_, ?_⟩
  · intro n d' hd'
    rcases (hpublish.after (fun _ => trivial) n).shown hd' with hshown | hshown
    · exact Or.inl (hshown.recovers hold (SameMap.refl old))
    · exact Or.inr (hshown.recovers hnew hsame)
  · intro hok d' hd'
    obtain ⟨i', j', k', hafter⟩ := (hpublish.run fun _ => trivial).good hok
    rw [publishedPins, ← newFiles_pins,
      ← List.append_nil ((newFiles (g.gen + 1) store).pins i' j' k')] at hafter
    exact (GenerationFiles.shown_of_leaves hafter hd').recovers hnew hsame

/-- The files of a first generation with one record. -/
def firstFiles : GenerationFiles := ⟨1, ascii "gen 1\n", ascii "1 5 100\n", []⟩

/-- A directory that holds the first generation and nothing else. -/
def firstDirectory : Disk :=
  ((Disk.empty.add stockManifestName firstFiles.manifest).add
    (generationName stockSnapshotName 1) firstFiles.snapshot).add
      (generationName stockAofName 1) firstFiles.aof

theorem firstDirectory_holds : firstDirectory.Holds (firstFiles.pins 0 1 2) := by
  have hmanifest : (Disk.empty.add stockManifestName firstFiles.manifest).Holds _ :=
    Disk.holds_empty.add (by simp) (by decide +kernel)
  have hsnapshot : ((Disk.empty.add stockManifestName firstFiles.manifest).add
      (generationName stockSnapshotName 1) firstFiles.snapshot).Holds _ :=
    hmanifest.add (by decide +kernel) (by decide +kernel)
  have haof : firstDirectory.Holds _ := hsnapshot.add (by decide +kernel) (by decide +kernel)
  refine haof.subset ?_
  decide +kernel

/-- The second generation over the first: a crash after seven calls, and one at the end. -/
theorem materialize_crash_safe_firstDirectory :
    let oldStore : StockStore := .node ⟨1, 5, 100⟩ .nil .nil
    let publication := materializeStoreGeneration smallStore
    let cut := (publication.after 7 firstDirectory fun _ => .fine).crash [] fun _ => []
    let done := (publication.run firstDirectory fun _ => .fine).2.crash [] fun _ => []
    (Recovers cut oldStore ∨ Recovers cut smallStore) ∧ Recovers done smallStore := by
  intro oldStore publication cut done
  have hdescribes : firstFiles.Describes oldStore :=
    ⟨by decide +kernel, oldStore, by decide +kernel, by decide +kernel⟩
  have hsafe := materialize_crash_safe firstDirectory_holds hdescribes (by decide)
    smallStore_ordered smallStore_storable fun _ => .fine
  exact ⟨hsafe.2.1 7 _ (.crash _ _), hsafe.2.2 (by decide +kernel) _ (.crash _ _)⟩

end StockServer
