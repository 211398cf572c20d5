import StockServer.Lib.Machine
import StockServer.Authority
import StockServer.Restart

set_option relaxedAutoImplicit false
set_option autoImplicit false

/-!
# Generation numbers

Every publication takes the number of the manifest and adds one.  The manifest may name any
positive 64-bit number, the largest included, and a number that is too large is read as the
largest; at that one the sum overflows, and the manifest that is published is none that recovery
accepts.  Below it the published numbers increase from one publication to the next, whatever else
the processes that use the directory do.

## Main definitions

* `Advances` — what a publication is to leave: a manifest that names a later generation, with its
  snapshot and its log.
* `Act`, `processes` — what a process does with the directory, one process after another; a
  publication that returns `STOCK_OK` emits the number that the manifest names after it.
* `BelowMax` — no publication is started at the largest number.

## Main results

* `ensures_materialize_next` — at every point of a publication the manifest names the old generation
  or the next.
* `generations_increase` — **a publication advances if and only if** the manifest names a generation
  below the largest, and the numbers published below it strictly increase.
-/

namespace StockServer

open Prog SearchTree

variable {ok : Choice → Prop} {d d' : Disk} {store : StockStore} {gen g : StockGen}

/-! ## One publication -/

/-- The manifest names a later generation, and the snapshot and the log of that generation are
there.  The sum that gives its number does not overflow. -/
def Advances (g : StockGen) (store : StockStore) (d : Disk) : Prop :=
  (g + 1).toInt = g.toInt + 1 ∧ ∃ g', manifestOf d = (.ok, g') ∧ g < g' ∧
    d.contents (generationName stockSnapshotName g') = some (snapshotText store) ∧
    d.contents (generationName stockAofName g') = some []

/-- The manifest names the generation that another one names, or the one after it. -/
def NamesNext (d d' : Disk) : Prop :=
  manifestOf d' = manifestOf d ∨ manifestOf d' = (.ok, (manifestOf d).2 + 1)

/-- The manifest is read as it is seen. -/
theorem manifestOf_congr (h : d'.contents stockManifestName = d.contents stockManifestName) :
    manifestOf d' = manifestOf d := by
  rw [manifestOf, manifestOf, h]

/-- A published manifest names its generation. -/
theorem manifestOf_manifestText (hgen : 0 < gen)
    (h : d.contents stockManifestName = some (manifestText gen)) : manifestOf d = (.ok, gen) := by
  rw [manifestOf, h]
  dsimp only
  rw [readManifest_manifestText, if_pos hgen]

/-- A manifest names a positive generation. -/
theorem pos_of_manifestOf (h : manifestOf d = (.ok, g)) : 0 < g := by
  obtain ⟨manifest, -, hnames⟩ := contents_of_manifestOf h
  exact GenerationFiles.pos_of_readManifest (fun _ hg => by cases hg) hnames

/-- Below the largest generation the next one is later. -/
theorem lt_next (h : g < Int64.maxValue) : g < g + 1 := by
  rw [Int64.lt_iff_toInt_lt, toInt_add_one h]
  omega

/-- A publication that returns `STOCK_OK` advances below the largest generation. -/
theorem advances_of_ok (hdir : d.Sound) (hmanifest : manifestOf d = (.ok, g))
    (hlt : g < Int64.maxValue) {σ : ℕ → Choice}
    (hok : ((materializeStoreGeneration store).run d σ).1 = .returned .ok) :
    manifestOf ((materializeStoreGeneration store).run d σ).2 = (.ok, g + 1) ∧
      Advances g store ((materializeStoreGeneration store).run d σ).2 := by
  have hpublish := @ensures_materialize_shown d store (g + 1) (fun _ => True) hdir
    (Or.inr ⟨g, hmanifest, rfl⟩)
  have hshown := hpublish.run (σ := σ) (fun _ => trivial) hok
  have hnext := manifestOf_manifestText (pos_add_one (pos_of_manifestOf hmanifest) hlt)
    hshown.manifest
  exact ⟨hnext, toInt_add_one hlt, g + 1, hnext, lt_next hlt, hshown.snapshot, hshown.aof⟩

/-- A publication never advances from the largest generation. -/
theorem lt_of_advances (h : Advances g store d) : g < Int64.maxValue := by
  have hle : (g + 1).toInt ≤ 2 ^ 63 - 1 := Int64.toInt_le (g + 1)
  rw [h.1] at hle
  rw [Int64.lt_iff_toInt_lt]
  show g.toInt < 2 ^ 63 - 1
  omega

/-- What is visible of names that a publication does not write to is left to it as it is. -/
theorem untouched_pinOf {names : List Name} (htmp : ∀ name ∈ names, name ≠ stockManifestTmpName)
    (hartifacts : ∀ base, base = stockSnapshotName ∨ base = stockAofName → ∀ name ∈ names,
      name ≠ generationName base gen) : Untouched (names.map d.pinOf) [] gen := by
  have hnames : ∀ p ∈ names.map d.pinOf ++ [], p.name ∈ names := by
    intro p hp
    obtain ⟨name, hname, rfl⟩ := List.mem_map.mp (by simpa using hp)
    rwa [Disk.pinOf_name]
  exact ⟨fun p hp => htmp _ (hnames p hp),
    fun p hp base hbase => hartifacts base hbase _ (hnames p hp), by simp, by simp⟩

/-- **At every point of a publication** the manifest names the old generation or the next one. -/
theorem ensures_materialize_next (hdir : d.Sound) (hmanifest : manifestOf d = (.ok, g))
    (hlt : g < Int64.maxValue) :
    Ensures ok (NamesNext d) (fun _ d' => NamesNext d d') (materializeStoreGeneration store)
      d.settle := by
  have hpos : 0 < g + 1 := pos_add_one (pos_of_manifestOf hmanifest) hlt
  have hsettled : manifestOf d.settle = (.ok, g) := by
    rw [← hmanifest]
    exact manifestOf_congr ((Disk.alike_settle d).contents _).symm
  have hnames : Untouched ([stockManifestName].map d.pinOf) [] (g + 1) := by
    refine untouched_pinOf (by decide) fun base hbase name hname => ?_
    rw [List.mem_singleton.mp hname]
    exact (generationName_ne (g + 1) hbase _ (by simp)).symm
  have hpublishing : ∀ d', Publishing [d.pinOf stockManifestName] [] (g + 1) store d' →
      NamesNext d d' := by
    intro d' h
    rcases h.manifest with hold | hnew
    · exact Or.inl (manifestOf_congr (Disk.Fixes.contents_pinOf (hold.fixes _ (by simp))))
    · rw [NamesNext, hmanifest]
      exact Or.inr (manifestOf_manifestText hpos hnew)
  refine (ensures_materializeStoreGeneration (by simpa using hdir.holds_settle [stockManifestName])
    (Or.inr ⟨g, hsettled, rfl⟩) hnames hpublishing).mono (fun _ h => h) fun r d' h => ?_
  rcases h with ⟨-, i, j, k, h⟩ | ⟨-, -, h⟩
  · exact hpublishing d' (.switching j k (.after i (h.subset (by simp [publishedPins]))))
  · exact hpublishing d' h

/-- What a publication that is cut off leaves. -/
theorem namesNext_after (hdir : d.Sound) (hmanifest : manifestOf d = (.ok, g))
    (hlt : g < Int64.maxValue) (σ : ℕ → Choice) (n : ℕ) :
    NamesNext d ((materializeStoreGeneration store).after n d σ) := by
  have hafter := (@ensures_materialize_next (fun _ => True) d store g hdir hmanifest hlt).after
    (σ := σ) (fun _ => trivial) n
  have hsame := manifestOf_congr
    ((after_alike n (materializeStoreGeneration store) (Disk.alike_settle d) σ).contents _)
  rwa [NamesNext, hsame]

/-- What a whole publication leaves. -/
theorem namesNext_run (hdir : d.Sound) (hmanifest : manifestOf d = (.ok, g))
    (hlt : g < Int64.maxValue) (σ : ℕ → Choice) :
    NamesNext d ((materializeStoreGeneration store).run d σ).2 := by
  have hrun := (@ensures_materialize_next (fun _ => True) d store g hdir hmanifest hlt).run
    (σ := σ) fun _ => trivial
  have hsame := manifestOf_congr
    ((run_alike (materializeStoreGeneration store) (Disk.alike_settle d) σ).2.contents _)
  rwa [NamesNext, hsame]

/-- A startup that finds a manifest leaves it as it is, wherever it is cut off. -/
theorem manifestOf_startup (hmanifest : manifestOf d = (.ok, g)) (σ : ℕ → Choice) (n : ℕ) :
    manifestOf ((recoverStockStore .nil).after n d σ) = (.ok, g) := by
  have hkeeps := (@ensures_recover_contents (fun _ => True) d .nil g hmanifest).after (σ := σ)
    (fun _ => trivial) n
  rw [← hmanifest]
  exact manifestOf_congr (hkeeps stockManifestName (by decide))

/-! ## Any number of processes -/

/-- What a process does with the data directory. -/
inductive Act where
  /-- A startup, cut off after some calls or not. -/
  | startup (σ : ℕ → Choice) (calls : ℕ)
  /-- A publication that runs to its end. -/
  | publish (store : StockStore) (σ : ℕ → Choice)
  /-- A publication that is cut off. -/
  | cutOff (store : StockStore) (σ : ℕ → Choice) (calls : ℕ)
  /-- The end of the process. -/
  | kill

/-- Processes that use the directory one after another; a publication that returns `STOCK_OK` emits
the number that the manifest names after it. -/
def processes : Machine Disk Act StockGen where
  step d
    | .startup σ calls => ((recoverStockStore .nil).after calls d σ, [])
    | .publish store σ =>
      let r := (materializeStoreGeneration store).run d σ
      (r.2, if r.1 = .returned .ok then [(manifestOf r.2).2] else [])
    | .cutOff store σ calls => ((materializeStoreGeneration store).after calls d σ, [])
    | .kill => (d.kill, [])

/-- A publication is started only when the manifest names a generation below the largest. -/
def BelowMax (d : Disk) : Act → Prop
  | .publish _ _ | .cutOff _ _ _ => (manifestOf d).2 < Int64.maxValue
  | _ => True

/-- The numbers published so far strictly increase, up to the one that the manifest names. -/
structure Increasing (d : Disk) (published : List StockGen) : Prop where
  sound : d.Sound
  manifest : ∃ g, manifestOf d = (.ok, g) ∧ ∀ x ∈ published, x ≤ g
  increasing : published.Pairwise (· < ·)

/-- The manifest names the same generation as before or the next one, and nothing is published. -/
theorem Increasing.of_namesNext {published : List StockGen} (h : Increasing d published)
    (hsound : d'.Sound) (hnext : (manifestOf d).2 < Int64.maxValue ∧ NamesNext d d' ∨
      manifestOf d' = manifestOf d) : Increasing d' published := by
  obtain ⟨g, hmanifest, hle⟩ := h.manifest
  refine ⟨hsound, ?_, h.increasing⟩
  rw [NamesNext, hmanifest] at hnext
  rcases hnext with ⟨hlt, hsame | hnext⟩ | hsame
  · exact ⟨g, hsame, hle⟩
  · exact ⟨g + 1, hnext, fun x hx => Int64.le_trans (hle x hx) (Int64.le_of_lt (lt_next hlt))⟩
  · exact ⟨g, hsame, hle⟩

/-- **A step of the processes** keeps the published numbers increasing. -/
theorem Increasing.step {published : List StockGen} (h : Increasing d published) (act : Act)
    (hbelow : BelowMax d act) :
    Increasing (processes.step d act).1 (published ++ (processes.step d act).2) := by
  obtain ⟨g, hmanifest, hle⟩ := h.manifest
  have hafter : ∀ {α : Type} (p : Prog α) σ n, (p.after n d σ).Sound := fun p σ n =>
    (@ensures_sound _ _ (fun _ => True) p h.sound).after (fun _ => trivial) n
  cases act with
  | startup σ calls =>
    rw [processes, List.append_nil]
    refine h.of_namesNext (hafter _ σ calls) (Or.inr ?_)
    rw [hmanifest]
    exact manifestOf_startup hmanifest σ calls
  | publish store σ =>
    have hlt : g < Int64.maxValue := by simpa [BelowMax, hmanifest] using hbelow
    have hsound : ((materializeStoreGeneration store).run d σ).2.Sound :=
      (@ensures_sound _ _ (fun _ => True) (materializeStoreGeneration store) h.sound).run
        fun _ => trivial
    simp only [processes]
    split_ifs with hok
    · obtain ⟨hnext, -⟩ := advances_of_ok h.sound hmanifest hlt hok
      rw [hnext]
      refine ⟨hsound, ⟨g + 1, hnext, fun x hx => ?_⟩, ?_⟩
      · rcases List.mem_append.mp hx with hx | hx
        · exact Int64.le_trans (hle x hx) (Int64.le_of_lt (lt_next hlt))
        · rw [List.mem_singleton.mp hx]
          exact Int64.le_refl _
      · refine List.pairwise_append.mpr ⟨h.increasing, List.pairwise_singleton _ _, ?_⟩
        intro x hx y hy
        rw [List.mem_singleton.mp hy]
        exact Int64.lt_of_le_of_lt (hle x hx) (lt_next hlt)
    · rw [List.append_nil]
      exact h.of_namesNext hsound (Or.inl ⟨hbelow, namesNext_run h.sound hmanifest hlt σ⟩)
  | cutOff store σ calls =>
    have hlt : g < Int64.maxValue := by simpa [BelowMax, hmanifest] using hbelow
    rw [processes, List.append_nil]
    exact h.of_namesNext (hafter _ σ calls)
      (Or.inl ⟨hbelow, namesNext_after h.sound hmanifest hlt σ calls⟩)
  | kill =>
    rw [processes, List.append_nil]
    exact h.of_namesNext h.sound.kill (Or.inr (manifestOf_congr Disk.contents_kill))

/-- **Generations.**  The manifest names a generation `g`.  A publication that returns `STOCK_OK`,
whatever its calls reported, advances to a later generation if and only if `g` is below the largest
number.  And however many processes use the directory, with startups and publications whose calls
fail or that are cut off anywhere: as long as no publication is started at the largest number, the
numbers published strictly increase, from `g` on, and the manifest names a generation that is none
of the earlier ones. -/
theorem generations_increase (hdir : d.Sound) (hmanifest : manifestOf d = (.ok, g)) :
    (∀ store σ, ((materializeStoreGeneration store).run d σ).1 = .returned .ok →
      (Advances g store ((materializeStoreGeneration store).run d σ).2 ↔ g < Int64.maxValue)) ∧
    ∀ acts, processes.Meets BelowMax d acts →
      (g :: (processes.run d acts).2).Pairwise (· < ·) ∧
        ∃ g', manifestOf (processes.run d acts).1 = (.ok, g') ∧
          ∀ x ∈ g :: (processes.run d acts).2, x ≤ g' := by
  refine ⟨fun store σ hok => ?_, fun acts hacts => ?_⟩
  · exact ⟨lt_of_advances, fun hlt => (advances_of_ok hdir hmanifest hlt hok).2⟩
  · have hstart : Increasing d [g] :=
      ⟨hdir, ⟨g, hmanifest, by simp⟩, List.pairwise_singleton _ _⟩
    have hrun := processes.run_induction_meets (P := fun d tr => Increasing d (g :: tr)) hstart
      (fun d tr act hbelow h => h.step act hbelow) acts hacts
    exact ⟨hrun.increasing, hrun.manifest⟩

/-- Two publications from the first generation, with a startup between them. -/
theorem generations_increase_twice :
    let acts := [Act.publish smallStore fun _ => .fine, .kill, .startup (fun _ => .fine) 100,
      .publish smallStore fun _ => .fine]
    (processes.run firstDirectory acts).2 = [2, 3] ∧
      (1 :: (processes.run firstDirectory acts).2).Pairwise (· < ·) := by
  intro acts
  have hgenerations := @generations_increase firstDirectory 1 firstDirectory_holds.wf.sound
    (by decide +kernel)
  refine ⟨by decide +kernel, (hgenerations.2 acts ?_).1⟩
  refine ⟨?_, trivial, trivial, ?_, trivial⟩
  · show (manifestOf _).2 < Int64.maxValue
    decide +kernel
  · show (manifestOf _).2 < Int64.maxValue
    decide +kernel

/-- A directory whose manifest names the largest generation. -/
def lastDirectory : Disk := Disk.empty.add stockManifestName (ascii "gen 9223372036854775807\n")

/-- **The number overflows** after the largest generation: the publication returns `STOCK_OK`, and
the manifest that it leaves is none that recovery accepts. -/
theorem lastDirectory_not_advances :
    let r := (materializeStoreGeneration smallStore).run lastDirectory fun _ => .fine
    manifestOf lastDirectory = (.ok, 9223372036854775807) ∧ r.1 = .returned .ok ∧
      manifestOf r.2 = (.errInvalid, 0) ∧ ¬ Advances 9223372036854775807 smallStore r.2 := by
  intro r
  refine ⟨by decide +kernel, by decide +kernel, by decide +kernel, fun h => ?_⟩
  exact absurd (lt_of_advances h) (by decide)

end StockServer
