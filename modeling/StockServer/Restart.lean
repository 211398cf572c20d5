import StockServer.CrashSafety
import StockServer.Calls

set_option relaxedAutoImplicit false
set_option autoImplicit false

/-!
# What the next startup finds

After a startup that returned `STOCK_OK` the files that a process sees describe the recovered
store, and nothing but a later publication changes that.  When the process is killed during the
publication, the next one sees the old files or the new ones; a startup that returns `STOCK_OK`
returns what the files it sees describe.

## Main definitions

* `Backed` — the files that a process sees describe a store with this map.

## Main results

* `ensures_recover_backed` — a startup that returns `STOCK_OK` leaves files that describe the store
  it returns, whichever of its calls failed.
* `recover_inv` — a startup that finds a manifest and returns `STOCK_OK` returns the image of the
  generation it names.
* `GenerationFiles.Shown.killed` — what a process killed during a publication leaves.
-/

namespace StockServer

open Prog SearchTree

variable {ok : Choice → Prop} {d d' : Disk} {store s : StockStore} {gen : StockGen}

/-- The files that a process sees describe a store with this map. -/
def Backed (d : Disk) (s : StockStore) : Prop :=
  ∃ (g : GenerationFiles) (base : StockStore), g.Shown d ∧ g.Describes base ∧ SameMap base s

/-- A manifest that names a generation is there, and its lines name the generation. -/
theorem contents_of_manifestOf (h : manifestOf d = (.ok, gen)) :
    ∃ manifest, d.contents stockManifestName = some manifest ∧
      readManifest none (fileLines manifest) = (.ok, some gen) := by
  rw [manifestOf] at h
  cases hm : d.contents stockManifestName with
  | none =>
    rw [hm] at h
    cases h
  | some manifest =>
    refine ⟨manifest, rfl, ?_⟩
    rw [hm] at h
    dsimp only at h
    rcases hread : readManifest none (fileLines manifest) with ⟨status, _ | g⟩ <;>
      rw [hread] at h <;> cases status <;> simp_all

/-- Files that load are the files of a generation. -/
theorem exists_shown (hmanifest : manifestOf d = (.ok, gen))
    (himage : generationImage .nil d gen = (.ok, store)) :
    ∃ g : GenerationFiles, g.gen = gen ∧ g.Shown d ∧ g.Describes store := by
  obtain ⟨manifest, hm, hnames⟩ := contents_of_manifestOf hmanifest
  simp only [generationImage, imageOf] at himage
  cases hsnapshot : d.contents (generationName stockSnapshotName gen) with
  | none => simp [hsnapshot] at himage
  | some snapshot =>
    rcases hbase : applyLines loadLine .nil (fileLines snapshot) with ⟨status, base⟩
    by_cases hstatus : status = .ok
    swap
    · simp [hsnapshot, hbase, hstatus] at himage
    cases haof : d.contents (generationName stockAofName gen) with
    | none => simp [hsnapshot, hbase, hstatus, haof] at himage
    | some aof =>
      simp only [hsnapshot, hbase, hstatus, ne_eq, not_true_eq_false, ↓reduceIte, haof] at himage
      exact ⟨⟨gen, manifest, snapshot, aof⟩, rfl, ⟨hm, hsnapshot, haof⟩, hnames, base,
        hstatus ▸ hbase, himage⟩

/-- Files stay visible when nothing but the marker changes. -/
theorem GenerationFiles.Shown.of_other {g : GenerationFiles} (h : g.Shown d)
    (hd : ∀ name, name ≠ stockBootstrapMarkerName → d'.contents name = d.contents name) :
    g.Shown d' where
  manifest := (hd _ (by decide)).trans h.manifest
  snapshot := (hd _ (generationName_ne g.gen (Or.inl rfl) _ (by simp))).trans h.snapshot
  aof := (hd _ (generationName_ne g.gen (Or.inr rfl) _ (by simp))).trans h.aof

/-! ## After a startup -/

/-- A program that does not create a name leaves it without an entry. -/
theorem ensures_absent {α : Type} {p : Prog α} {name : Name}
    (hcalls : Calls (Creates (· ≠ name)) p) (hdir : d.Sound) (hnone : d.lookup name = none) :
    Ensures ok (fun _ => True) (fun _ d => d.Sound ∧ d.lookup name = none) p d := by
  have habsent : Ensures ok (fun d => d.lookup name = none) (fun _ d => d.lookup name = none) p d :=
    hcalls.ensures (fun _ _ c ho hd => lookup_of_creates hd ho c) hnone
  exact ((ensures_sound p hdir).and habsent).mono (fun _ _ => trivial) fun _ _ h => h

/-- Bootstrap that returns `STOCK_OK` leaves files that describe the store it returns. -/
theorem ensures_bootstrapStore_backed (hdir : d.Sound) (hnone : d.lookup stockManifestName = none) :
    Ensures ok (fun _ => True) (fun r d' => ∀ s, r = .returned (.ok, s) → Backed d' s)
      (bootstrapStore .nil) d := by
  refine ensures_bootstrapStore_ok
    (A := fun d => d.Sound ∧ d.lookup stockManifestName = none) (C := fun s d => Backed d s)
    (ensures_absent (calls_createBootstrapMarker (by decide)) hdir hnone)
    (fun d s hd himage => ?_) fun d s hbacked => ?_
  · -- the store was loaded from a base image, so it can be published
    obtain ⟨data, hdata⟩ : ∃ data, applyLines loadLine .nil (fileLines data) = (.ok, s) := by
      rw [imageOf] at himage
      cases hcontents : d.contents stockInitName with
      | none => rw [hcontents] at himage; cases himage
      | some data => rw [hcontents] at himage; exact ⟨data, himage⟩
    have hord : Ordered s := by
      have hord := @Ordered.applyLines loadLine (fun _ line hs => hs.loadLine line) .nil
        (ordered_nil _) (fileLines data)
      rwa [hdata] at hord
    obtain ⟨base, hdescribes, hsame⟩ :=
      @newFiles_describes s 1 (by decide) hord (storable_of_load hdata)
    exact (ensures_materialize_shown hd.1 (Or.inl ⟨manifestOf_of_lookup hd.2, rfl⟩)).mono
      (fun _ h => h)
      fun r d' hshown hr => ⟨_, base, hshown hr, hdescribes, hsame⟩
  · -- removing the marker hides none of the files
    obtain ⟨g, base, hshown, hdescribes, hsame⟩ := hbacked
    exact ensures_removeBootstrapMarker_contents.mono (fun _ h => h)
      fun r d' h => ⟨g, base, hshown.of_other h.1, hdescribes, hsame⟩

/-- A manifest that is reported missing has no entry. -/
theorem lookup_of_manifestOf (h : (manifestOf d).1 = .errNotFound) :
    d.lookup stockManifestName = none := by
  rw [manifestOf] at h
  cases hcontents : d.contents stockManifestName with
  | none =>
    rw [Disk.contents, Option.map_eq_none_iff] at hcontents
    exact hcontents
  | some manifest =>
    rw [hcontents] at h
    dsimp only at h
    have hstatus := readManifest_status none (fileLines manifest)
    rcases hread : readManifest none (fileLines manifest) with ⟨status, _ | g⟩ <;>
      rw [hread] at h hstatus <;> rcases hstatus with rfl | rfl <;> cases h

/-- **A startup that returns `STOCK_OK`** leaves files that describe the store it returns,
whichever of its calls failed.  There was no manifest, or the store is the image of the generation
that it names. -/
theorem ensures_recover_backed (hdir : d.Sound) :
    Ensures ok (fun _ => True) (fun r d' => ∀ s, r = .returned (.ok, s) →
      Backed d' s ∧ (d.lookup stockManifestName = none ∨
        ∃ gen, manifestOf d = (.ok, gen) ∧ generationImage .nil d gen = (.ok, s)))
      (recoverStockStore .nil) d := by
  refine ensures_recoverStockStore_ok
    (A := fun d' => (d'.Sound ∧ d'.lookup stockManifestName = none) ∧
      d.lookup stockManifestName = none)
    (C := fun s d' => Backed d' s ∧ (d.lookup stockManifestName = none ∨
      ∃ gen, manifestOf d = (.ok, gen) ∧ generationImage .nil d gen = (.ok, s)))
    (fun hmissing => ?_) (fun d' hd' => ?_) fun gen s d' hmanifest himage hsame => ?_
  · have hnone := lookup_of_manifestOf hmissing
    exact (ensures_absent calls_prepareBootstrap hdir hnone).mono (fun _ h => h)
      fun _ _ hd' => ⟨hd', hnone⟩
  · exact (ensures_bootstrapStore_backed hd'.1.1 hd'.1.2).mono (fun _ h => h)
      fun r d' hbacked s hs => ⟨hbacked s hs, Or.inl hd'.2⟩
  · obtain ⟨g, -, hshown, hdescribes⟩ := exists_shown hmanifest himage
    exact ⟨⟨g, s, hshown.of_other hsame, hdescribes, SameMap.refl s⟩,
      Or.inr ⟨gen, hmanifest, himage⟩⟩

/-- **A startup that finds a manifest** and returns `STOCK_OK` returns the image of the generation
it names. -/
theorem recover_inv {σ : ℕ → Choice} (hdir : d.Sound)
    (hfound : (d.contents stockManifestName).isSome)
    (h : ((recoverStockStore .nil).run d σ).1 = .returned (.ok, s)) :
    ∃ gen, manifestOf d = (.ok, gen) ∧ generationImage .nil d gen = (.ok, s) := by
  have hrun := (@ensures_recover_backed (fun _ => True) d hdir).run (σ := σ) fun _ => trivial
  rcases (hrun s h).2 with hnone | himage
  · rw [Disk.contents, hnone] at hfound
    cases hfound
  · exact himage

/-! ## After a kill -/

/-- Visible contents are those of a file, which is pinned once the disk is settled. -/
theorem exists_lookup {name : Name} {data : Bytes} (h : d.contents name = some data) :
    ∃ i, d.settle.Pinned name i data := by
  obtain ⟨i, hi, rfl⟩ := Option.map_eq_some_iff.mp h
  exact ⟨i, Disk.pinned_settle hi⟩

/-- A startup that sees the files of a generation and returns `STOCK_OK` returns the store that they
describe. -/
theorem GenerationFiles.Shown.recovered {g : GenerationFiles} {σ : ℕ → Choice} (h : g.Shown d)
    (hg : g.Describes store) (hdir : d.Sound)
    (hok : ((recoverStockStore .nil).run d σ).1 = .returned (.ok, s)) : s = store := by
  obtain ⟨gen, hmanifest, himage⟩ := recover_inv hdir (by rw [h.manifest]; rfl) hok
  rw [h.manifestOf hg] at hmanifest
  obtain rfl : g.gen = gen := congrArg Prod.snd hmanifest
  rw [h.image hg] at himage
  exact (congrArg Prod.snd himage).symm

/-- A startup that sees the files of a published generation and returns `STOCK_OK` has loaded its
snapshot. -/
theorem applyLines_of_recovered {σ : ℕ → Choice} (h : (newFiles gen store).Shown d)
    (hdir : d.Sound) (hok : ((recoverStockStore .nil).run d σ).1 = .returned (.ok, s)) :
    applyLines loadLine .nil (fileLines (snapshotText store)) = (.ok, s) := by
  obtain ⟨gen', hmanifest, himage⟩ := recover_inv hdir (by rw [h.manifest]; rfl) hok
  obtain ⟨g, hgen, hshown, hdescribes⟩ := exists_shown hmanifest himage
  have hread : readManifest none (fileLines (manifestText gen)) = (.ok, some g.gen) := by
    have hsame : g.manifest = manifestText gen :=
      Option.some.inj (hshown.manifest.symm.trans h.manifest)
    rw [← hsame]
    exact hdescribes.names
  rw [readManifest_manifestText] at hread
  split_ifs at hread with hpos
  swap
  · cases hread
  obtain rfl : gen = g.gen := Option.some.inj (congrArg Prod.snd hread)
  obtain ⟨base, hbase, hreplay⟩ := hdescribes.loads
  have hsnapshot : g.snapshot = snapshotText store :=
    Option.some.inj (hshown.snapshot.symm.trans h.snapshot)
  have haof : g.aof = [] := Option.some.inj (hshown.aof.symm.trans h.aof)
  rw [haof] at hreplay
  obtain rfl : base = s := congrArg Prod.snd hreplay
  rwa [hsnapshot] at hbase

/-- A startup that sees the files of a published generation and returns `STOCK_OK` returns the map
that was published. -/
theorem recovered_newFiles {σ : ℕ → Choice} (h : (newFiles gen store).Shown d)
    (hord : Ordered store) (hdir : d.Sound)
    (hok : ((recoverStockStore .nil).run d σ).1 = .returned (.ok, s)) : SameMap s store :=
  sameMap_of_snapshotText hord (applyLines_of_recovered h hdir hok)

/-- **A process killed during a publication** leaves the old files or the new ones. -/
theorem GenerationFiles.Shown.killed {g : GenerationFiles} {base : StockStore} (h : g.Shown d)
    (hg : g.Describes base) (hdir : d.Sound) (n : ℕ) (σ : ℕ → Choice) :
    g.Shown ((materializeStoreGeneration store).after n d σ).kill ∨
      (newFiles (g.gen + 1) store).Shown ((materializeStoreGeneration store).after n d σ).kill := by
  obtain ⟨i, hi⟩ := exists_lookup h.manifest
  obtain ⟨j, hj⟩ := exists_lookup h.snapshot
  obtain ⟨k, hk⟩ := exists_lookup h.aof
  have hpins : d.settle.Holds (g.pins i j k ++ []) := by
    refine ⟨hdir.wf_settle, fun p hp => ?_⟩
    simp only [pins, List.append_nil, List.mem_cons, List.not_mem_nil, or_false] at hp
    rcases hp with rfl | rfl | rfl
    exacts [hi, hk, hj]
  have hmanifest : StockServer.manifestOf d.settle = (.ok, g.gen) :=
    (shown_of_holds hpins).manifestOf hg
  have hpublish := @ensures_materializeStoreGeneration (fun _ => True)
    (Publishing (g.pins i j k) [] (g.gen + 1) store) d.settle [] (g.pins i j k) store (g.gen + 1)
    hpins (Or.inr ⟨g.gen, hmanifest, rfl⟩) (untouched (ne_add_one g.gen)) fun _ h => h
  have halike := (after_alike n (materializeStoreGeneration store) (Disk.alike_settle d) σ)
  have hsame : ∀ name, ((materializeStoreGeneration store).after n d σ).kill.contents name =
      ((materializeStoreGeneration store).after n d.settle σ).kill.contents name := by
    intro name
    rw [Disk.contents_kill, Disk.contents_kill]
    exact halike.contents name
  exact ((hpublish.after (fun _ => trivial) n).shown .kill).imp (·.congr hsame) (·.congr hsame)

end StockServer
