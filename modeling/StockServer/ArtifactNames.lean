import StockServer.Cleanup

set_option relaxedAutoImplicit false
set_option autoImplicit false

/-!
# Which names are files of a generation

Cleanup and the guard of bootstrap tell the files of a generation from all others by their names:
`parse_generation_suffix` reads the number behind the base and the dot with `strtoll`.  But
`strtoll` also reads numbers that no generation file is named with: behind white space, a plus sign
or zeros.  Such a name passes for the file of a generation, so that cleanup unlinks it and the guard
rejects its directory.  All other names are read exactly, and cleanup passes over those that are
none of a generation, unless their path does not fit the buffer.

## Main definitions

* `IsArtifact` — the name that `build_generation_path` makes for a positive generation.
* `Respelled` — the base, a dot, and a positive number that is not spelled as it is printed.
* `Ignored` — the name makes no difference to cleanup and to the guard, wherever it is listed.
* `NamesExact` — the names are read exactly: as the files of their generations, and no others.
* `Outdated` — the name is one that cleanup for a generation is to remove.

## Main results

* `parseGenerationSuffix_iff_padding` — the names that `parse_generation_suffix` accepts.
* `ignored_iff` — the names that cleanup and the guard ignore.
* `NamesExact.ensures_cleanup`, `NamesExact.ensures_guard` — in a directory of names that are read
  exactly, cleanup removes the files of other generations and the guard rejects those of any.
* `namesExact_iff` — **names are read exactly if and only if** none of them is respelled and all
  their paths fit.
-/

namespace StockServer

open Prog

variable {ok : Choice → Prop} {d : Disk} {gen : StockGen} {base name : Name} {names : Set Name}

/-! ## Names of generations -/

/-- The file name that `build_generation_path` produces for a positive generation. -/
def IsArtifact (name : Name) : Prop :=
  ∃ base, (base = stockSnapshotName ∨ base = stockAofName) ∧
    ∃ gen : StockGen, 0 < gen ∧ buildGenerationPath base gen = some name

/-- The base, a dot and a positive number, with white space, a plus sign or zeros before the digits
that are printed. -/
def Respelled (base name : Name) : Prop :=
  ∃ (gen : StockGen) (lead : Bytes), 0 < gen ∧ Padding lead ∧ lead ≠ [] ∧
    name = base ++ 46 :: (lead ++ showInt gen.toInt)

/-- **The names that `parse_generation_suffix` accepts**: the number may be padded. -/
theorem parseGenerationSuffix_iff_padding : parseGenerationSuffix name base = some gen ↔
    0 < gen ∧ ∃ lead, Padding lead ∧ name = base ++ 46 :: (lead ++ showInt gen.toInt) := by
  rw [parseGenerationSuffix_eq_some_iff]
  refine and_congr_right fun hpos => ?_
  have hvalue : 0 < gen.toInt := Int64.lt_iff_toInt_lt.mp hpos
  constructor
  · rintro ⟨genStr, rfl, hnumeral⟩
    obtain ⟨lead, hlead, rfl⟩ := (numeral_iff_of_pos hvalue).mp hnumeral
    exact ⟨lead, hlead, rfl⟩
  · rintro ⟨lead, hlead, rfl⟩
    exact ⟨_, rfl, (numeral_iff_of_pos hvalue).mpr ⟨lead, hlead, rfl⟩⟩

/-- **The decoder inverts the encoder at a name** exactly if the name is not respelled. -/
theorem parseGenerationSuffix_exact_iff (hbase : base = stockSnapshotName ∨ base = stockAofName) :
    (∀ gen : StockGen, parseGenerationSuffix name base = some gen ↔
      0 < gen ∧ buildGenerationPath base gen = some name) ↔ ¬ Respelled base name := by
  constructor
  · rintro hexact ⟨gen, lead, hpos, hlead, hne, rfl⟩
    have hname :=
      ((hexact gen).mp (parseGenerationSuffix_iff_padding.mpr ⟨hpos, lead, hlead, rfl⟩)).2
    rw [buildGenerationPath_eq gen hbase, generationName_eq, Option.some.injEq,
      List.append_cancel_left_eq] at hname
    exact hne (List.self_eq_append_left.mp (List.cons.inj hname).2)
  · intro hspelled gen
    rw [parseGenerationSuffix_iff_padding, buildGenerationPath_eq gen hbase, generationName_eq,
      Option.some.injEq]
    refine and_congr_right fun hpos => ?_
    constructor
    · rintro ⟨lead, hlead, rfl⟩
      have hnil : lead = [] := by
        by_contra hne
        exact hspelled ⟨gen, lead, hpos, hlead, hne, rfl⟩
      rw [hnil, List.nil_append]
    · rintro rfl
      exact ⟨[], padding_nil, rfl⟩

/-- The path of the file of a generation fits. -/
theorem IsArtifact.fits (h : IsArtifact name) : Fits name := by
  obtain ⟨base, -, gen, -, hname⟩ := h
  rw [buildGenerationPath] at hname
  split_ifs at hname with hlong
  obtain rfl := Option.some.inj hname
  exact not_le.mp hlong

/-- A name that is not respelled is an artifact exactly if it is read as one. -/
theorem isArtifact_iff
    (hspelled : ∀ base, base = stockSnapshotName ∨ base = stockAofName → ¬ Respelled base name) :
    IsArtifact name ↔ ∃ gen, artifactGeneration name = some gen := by
  constructor
  · rintro ⟨base, hbase, gen, hpos, hname⟩
    rw [buildGenerationPath_eq gen hbase, Option.some.injEq] at hname
    exact ⟨gen, by rw [← hname, artifactGeneration_generationName gen hbase, if_pos hpos]⟩
  · rintro ⟨gen, hgen⟩
    rcases Option.or_eq_some_iff.mp hgen with hgen | ⟨-, hgen⟩
    · have hbase : stockSnapshotName = stockSnapshotName ∨ stockSnapshotName = stockAofName :=
        Or.inl rfl
      exact ⟨_, hbase, gen,
        ((parseGenerationSuffix_exact_iff hbase).mpr (hspelled _ hbase) gen).mp hgen⟩
    · have hbase : stockAofName = stockSnapshotName ∨ stockAofName = stockAofName := Or.inr rfl
      exact ⟨_, hbase, gen,
        ((parseGenerationSuffix_exact_iff hbase).mpr (hspelled _ hbase) gen).mp hgen⟩

/-! ## Names that make no difference -/

/-- Wherever the name is listed, the loop of cleanup does the same as without it, and so does that
of the guard. -/
def Ignored (name : Name) : Prop :=
  ∀ before after : List Name,
    (∀ gen, cleanupEntries gen (before ++ name :: after) = cleanupEntries gen (before ++ after)) ∧
    (before ++ name :: after).any blocksBootstrap = (before ++ after).any blocksBootstrap

/-- Entries that make no difference at the head of a listing make none behind other entries. -/
theorem cleanupEntries_append_congr {entries entries' : List Name}
    (h : cleanupEntries gen entries = cleanupEntries gen entries') (before : List Name) :
    cleanupEntries gen (before ++ entries) = cleanupEntries gen (before ++ entries') := by
  induction before with
  | nil => exact h
  | cons entry before ih => simp only [List.cons_append, cleanupEntries, ih]

/-- **The names that are ignored** are those that fit, but for the temporary manifest and those that
are read as the file of a generation. -/
theorem ignored_iff : Ignored name ↔
    Fits name ∧ name ≠ stockManifestTmpName ∧ artifactGeneration name = none := by
  rw [← blocksBootstrap_eq_false_iff]
  constructor
  · intro h
    obtain ⟨hcleanup, hguard⟩ := h [] []
    refine ⟨?_, by simpa using hguard⟩
    by_contra hlong
    have hpath : buildDataPath name = none := if_pos (not_lt.mp hlong)
    have hended := hcleanup 0
    rw [List.nil_append, cleanupEntries, hpath] at hended
    cases hended
  · rintro ⟨hfits, hblocks⟩ before after
    obtain ⟨htmp, hnone⟩ := blocksBootstrap_eq_false_iff.mp hblocks
    have hpath : buildDataPath name = some name := if_neg (not_le.mpr hfits)
    refine ⟨fun gen => cleanupEntries_append_congr ?_ before, ?_⟩
    · simp only [cleanupEntries, hpath, htmp, ↓reduceIte, hnone]
    · simp only [List.any_append, List.any_cons, hblocks, Bool.false_or]

/-! ## Directories of such names -/

/-- The names of the set are read exactly: from a name comes a generation exactly if the name is
made for it, so that no two names of one base denote the same one, and a name that is none of a
generation, nor the temporary manifest, makes no difference. -/
structure NamesExact (names : Set Name) : Prop where
  parsed : ∀ name ∈ names, ∀ base, base = stockSnapshotName ∨ base = stockAofName →
    ∀ gen, parseGenerationSuffix name base = some gen ↔
      0 < gen ∧ buildGenerationPath base gen = some name
  distinct : ∀ name ∈ names, ∀ name' ∈ names, ∀ base,
    base = stockSnapshotName ∨ base = stockAofName → ∀ gen,
      parseGenerationSuffix name base = some gen →
      parseGenerationSuffix name' base = some gen → name = name'
  ignored : ∀ name ∈ names, ¬ IsArtifact name → name ≠ stockManifestTmpName → Ignored name

/-- The names of the set that are files of a generation are read as such, and no others. -/
theorem NamesExact.isArtifact_iff (h : NamesExact names) (hname : name ∈ names) :
    IsArtifact name ↔ ∃ gen, artifactGeneration name = some gen :=
  StockServer.isArtifact_iff fun base hbase =>
    (parseGenerationSuffix_exact_iff hbase).mp (h.parsed name hname base hbase)

/-- The paths of the names fit. -/
theorem NamesExact.fits (h : NamesExact names) (hname : name ∈ names) : Fits name := by
  by_cases hartifact : IsArtifact name
  · exact hartifact.fits
  by_cases htmp : name = stockManifestTmpName
  · rw [htmp]
    decide
  · exact (ignored_iff.mp (h.ignored name hname hartifact htmp)).1

/-- Cleanup for a generation is to remove the name: the temporary manifest, or a file of another
generation. -/
def Outdated (gen : StockGen) (name : Name) : Prop :=
  name = stockManifestTmpName ∨ ∃ base, (base = stockSnapshotName ∨ base = stockAofName) ∧
    ∃ g : StockGen, 0 < g ∧ g ≠ gen ∧ buildGenerationPath base g = some name

/-- Cleanup spares the names that it is not to remove. -/
theorem NamesExact.spared_iff (h : NamesExact names) (hname : name ∈ names) :
    Spared gen name ↔ ¬ Outdated gen name := by
  rw [Outdated, not_or]
  refine and_congr_right fun _ => ?_
  constructor
  · rintro hgen ⟨base, hbase, g, hpos, hne, hpath⟩
    rw [buildGenerationPath_eq g hbase, Option.some.injEq] at hpath
    exact hne (hgen g (by rw [← hpath, artifactGeneration_generationName g hbase, if_pos hpos]))
  · intro hnone g hg
    by_contra hne
    rcases Option.or_eq_some_iff.mp hg with hg | ⟨-, hg⟩
    · obtain ⟨hpos, hpath⟩ := (h.parsed name hname _ (Or.inl rfl) g).mp hg
      exact hnone ⟨_, Or.inl rfl, g, hpos, hne, hpath⟩
    · obtain ⟨hpos, hpath⟩ := (h.parsed name hname _ (Or.inr rfl) g).mp hg
      exact hnone ⟨_, Or.inr rfl, g, hpos, hne, hpath⟩

/-- **Cleanup of a directory of such names** removes what it is to remove, and nothing else. -/
theorem NamesExact.ensures_cleanup (h : NamesExact {name | (d.lookup name).isSome = true}) :
    Ensures Choice.Fine (fun _ => True) (fun r d' => r = .returned .ok ∧ d'.files = d.files ∧
      ∀ name, (Outdated gen name → d'.lookup name = none) ∧
        (¬ Outdated gen name → d'.lookup name = d.lookup name))
      (cleanupOldGenerationFiles gen) d := by
  refine (ensures_cleanupOldGenerationFiles_exact d).mono (fun _ h => h) fun r d' hcleaned => ?_
  have hclean : CleansUp gen d.current.keys d (r, d') :=
    (Cleaned.clean_iff (r := (r, d')) hcleaned).mpr fun entry hentry =>
      h.fits (Disk.mem_keys.mp hentry)
  obtain ⟨hr, hfiles, hlookup⟩ := hclean
  refine ⟨hr, hfiles, fun name => ?_⟩
  rw [hlookup name]
  by_cases hname : name ∈ d.current.keys
  · have hspared := @NamesExact.spared_iff gen _ _ h (Disk.mem_keys.mp hname)
    exact ⟨fun hout => if_pos ⟨hname, fun hkept => hspared.mp hkept hout⟩,
      fun hnot => if_neg fun hgone => hgone.2 (hspared.mpr hnot)⟩
  · rw [if_neg fun hmem => hname hmem.1]
    rw [Disk.mem_keys] at hname
    exact ⟨fun _ => Option.not_isSome_iff_eq_none.mp hname, fun _ => rfl⟩

/-- **The guard on a directory of such names** accepts it exactly if it holds neither the temporary
manifest nor a file of a generation. -/
theorem NamesExact.ensures_guard (h : NamesExact {name | (d.lookup name).isSome = true}) :
    Ensures Choice.Fine (fun _ => True) (fun r d' => d' = d ∧
      (r = .returned .ok ∨ r = .returned .errInvalid) ∧
      (r = .returned .ok ↔ ∀ name, (d.lookup name).isSome = true →
        name ≠ stockManifestTmpName ∧ ¬ IsArtifact name)) ensureBootstrapRecoveryState d := by
  have hblocks : ∀ name, (d.lookup name).isSome = true →
      (blocksBootstrap name = false ↔ name ≠ stockManifestTmpName ∧ ¬ IsArtifact name) := by
    intro name hname
    rw [blocksBootstrap_eq_false_iff, h.isArtifact_iff hname, ← Option.isSome_iff_exists,
      Option.not_isSome_iff_eq_none]
  refine (ensures_ensureBootstrapRecoveryState trivial).mono (fun _ h => h) fun r d' hguard => ?_
  obtain ⟨hd, ⟨hr, hclean⟩ | ⟨hr, name, hblocked, hname⟩ | ⟨-, hfault⟩⟩ := hguard
  · refine ⟨hd, Or.inl hr, iff_of_true hr fun name hname => ?_⟩
    exact (hblocks name hname).mp (hclean name hname)
  · refine ⟨hd, Or.inr hr, iff_of_false (by rw [hr]; decide) fun hall => ?_⟩
    rw [(hblocks name hname).mpr (hall name hname)] at hblocked
    cases hblocked
  · exact absurd hfault not_fault

/-- **Names are read exactly if and only if their paths fit and none of them is respelled**, for
every set of names.

**Proof sketch.** `parse_generation_suffix` accepts the padded numbers, and only the canonical one
is what `build_generation_path` prints.  Cleanup and the guard pass over a name that neither base
is read from, unless its path does not fit; a file of a generation and the temporary manifest
fit. -/
theorem namesExact_iff (names : Set Name) : NamesExact names ↔
    ∀ name ∈ names, Fits name ∧
      ∀ base, base = stockSnapshotName ∨ base = stockAofName → ¬ Respelled base name := by
  constructor
  · intro h name hname
    refine ⟨h.fits hname, fun base hbase => ?_⟩
    exact (parseGenerationSuffix_exact_iff hbase).mp (h.parsed name hname base hbase)
  · intro h
    have hparsed : ∀ name ∈ names, ∀ base, base = stockSnapshotName ∨ base = stockAofName →
        ∀ gen, parseGenerationSuffix name base = some gen ↔
          0 < gen ∧ buildGenerationPath base gen = some name := fun name hname base hbase =>
      (parseGenerationSuffix_exact_iff hbase).mpr ((h name hname).2 base hbase)
    refine ⟨hparsed, ?_, ?_⟩
    · intro name hname name' hname' base hbase gen hgen hgen'
      have hpath := ((hparsed name hname base hbase gen).mp hgen).2
      have hpath' := ((hparsed name' hname' base hbase gen).mp hgen').2
      exact Option.some.inj (hpath.symm.trans hpath')
    · intro name hname hartifact htmp
      refine ignored_iff.mpr ⟨(h name hname).1, htmp, ?_⟩
      rw [isArtifact_iff (h name hname).2, ← Option.isSome_iff_exists] at hartifact
      exact Option.not_isSome_iff_eq_none.mp hartifact

/-- An unrelated file: its name is that of a snapshot with a zero before the number. -/
def paddedName : Name := ascii "stock.snapshot.01"

/-- A directory with an init file and the unrelated file. -/
def paddedEntry : Disk := (oneItemDirectory "1 5 100\n").add paddedName []

/-- **An unrelated file passes for the snapshot of generation 1**, just as that snapshot itself:
cleanup for generation 2 unlinks it, and the guard rejects its directory. -/
theorem paddedName_not_namesExact :
    parseGenerationSuffix paddedName stockSnapshotName = some 1 ∧
      parseGenerationSuffix (generationName stockSnapshotName 1) stockSnapshotName = some 1 ∧
      paddedName ≠ generationName stockSnapshotName 1 ∧ ¬ NamesExact {paddedName} ∧
      ((cleanupOldGenerationFiles 2).run paddedEntry fun _ => .fine).2.lookup paddedName = none ∧
      (ensureBootstrapRecoveryState.run paddedEntry fun _ => .fine).1 = .returned .errInvalid := by
  have hparsed : parseGenerationSuffix paddedName stockSnapshotName = some 1 := by decide +kernel
  refine ⟨hparsed, by decide +kernel, by decide +kernel, fun h => ?_, by decide +kernel,
    by decide +kernel⟩
  have hpath := ((h.parsed paddedName rfl _ (Or.inl rfl) 1).mp hparsed).2
  exact absurd hpath (by decide +kernel)

end StockServer
