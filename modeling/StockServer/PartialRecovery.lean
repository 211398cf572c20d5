import StockServer.Bootstrap
import StockServer.Cleanup
import StockServer.Generations
import StockServer.WholeLines

set_option relaxedAutoImplicit false
set_option autoImplicit false

/-!
# Recoveries that fail

Recovery loads the base image record by record into the live store, and nothing takes a record out
again when something fails later: a line of the image, a line of the log, or a step of bootstrap.
So a recovery can leave records in the store and report an error as soon as the base image starts
with a record, and it cannot when the image does not.  The design has it so: there is no second
store to load into, and `main` ends the process when recovery reports an error.

## Main definitions

* `StartsWithRecord` — the first line that is not blank is a record that an empty store accepts.
* `CanBootstrap`, `Bootstraps` — bootstrap may get to the init file, and it does so if no call
  fails.
* `BaseImage` — the contents of the file that recovery loads first.
* `AllAccepted` — all lines of the base image and of the log are accepted.
* `LeavesEmpty` — every recovery that returns an error leaves the store empty.

## Main results

* `startsWithRecord_iff` — an image leaves the store empty exactly if it does not start with a
  record.
* `ensures_recover_empty`, `may_recoverStockStore` — without such an image recovery leaves the store
  empty, and with one it may fail and leave the record in it.
* `leavesEmpty_iff` — **recovery leaves no partial state if and only if** the base image does not
  start with a record.

## Implementation notes

Every listing of the directory is whole here.  Where the source takes an error of `readdir` for the
end of the directory, the guard of bootstrap may overlook leftovers, and recovery gets to an init
file that `CanBootstrap` keeps it from.
-/

namespace StockServer

open Prog SearchTree

variable {ok : Choice → Prop} {d d' : Disk} {ps : List Pin} {store : StockStore} {gen : StockGen}

/-! ## What loading leaves in an empty store -/

/-- The first line that is not blank is a record in range. -/
def StartsWithRecord (lines : List Bytes) : Prop :=
  ∃ line record, lines.find? (fun line => !isBlankLine (cstr line)) = some line ∧
    lineRecord line = some record ∧ record.InRange

/-- A store into which an item has been put is not empty. -/
theorem upsertStockItem_ne_nil (store : StockStore) (id leftStock price : Int32) :
    upsertStockItem store id leftStock price ≠ .nil := by
  cases store with
  | nil => simp [upsertStockItem]
  | node item left right =>
    simp only [upsertStockItem]
    split_ifs <;> simp

/-- A line of a stock file takes nothing out of the store. -/
theorem loadLine_ne_nil (hstore : store ≠ .nil) (line : Bytes) :
    (loadLine store line).2 ≠ .nil := by
  rcases loadLine_cases store line with ⟨-, -, hload⟩ | ⟨record, -, -, -, hload⟩ | ⟨-, hload⟩
  · rwa [hload]
  · rw [hload]
    exact upsertStockItem_ne_nil _ _ _ _
  · rwa [hload]

/-- A line of a log takes nothing out of the store. -/
theorem replayLine_ne_nil (hstore : store ≠ .nil) (line : Bytes) :
    (replayLine store line).2 ≠ .nil := by
  have hadd : ∀ id delta, addLeftStock store id delta ≠ .nil := by
    intro id delta
    cases store with
    | nil => exact absurd rfl hstore
    | node item left right =>
      simp only [addLeftStock]
      split_ifs <;> simp
  rw [replayLine, applyLine]
  cases parseAofRecordLine (cstr line) with
  | skip => exact hstore
  | err => exact hstore
  | ok record =>
    simp only [applyAofRecord, stockStoreApplyDeltaNolock]
    split_ifs
    · exact hstore
    all_goals
      split
      · exact hstore
      · split_ifs
        · exact hstore
        · exact hadd _ _

/-- Lines that take nothing out of the store one by one take nothing out of it together. -/
theorem applyLines_ne_nil {step : StockStore → Bytes → StockStatus × StockStore}
    (hstep : ∀ {store : StockStore}, store ≠ .nil → ∀ line, (step store line).2 ≠ .nil)
    (hstore : store ≠ .nil) (lines : List Bytes) : (applyLines step store lines).2 ≠ .nil := by
  induction lines generalizing store with
  | nil => exact hstore
  | cons line lines ih =>
    simp only [applyLines]
    split_ifs
    · exact hstep hstore line
    · exact ih (hstep hstore line)

/-- **What is loaded into an empty store leaves it empty** exactly if it does not start with a
record. -/
theorem startsWithRecord_iff (lines : List Bytes) :
    StartsWithRecord lines ↔ (applyLines loadLine .nil lines).2 ≠ .nil := by
  induction lines with
  | nil => exact iff_of_false (by rintro ⟨_, _, h, -⟩; cases h) fun h => h rfl
  | cons line lines ih =>
    rw [StartsWithRecord, List.find?_cons]
    cases hparse : parseStockRecordLine (cstr line) with
    | skip =>
      have hblank := parseStockRecordLine_eq_skip.mp hparse
      have hload : loadLine .nil line = (.ok, .nil) := by simp [loadLine, applyLine, hparse]
      rw [applyLines, hload, if_neg (by simp), ← ih, hblank]
      rfl
    | err =>
      have hblank : isBlankLine (cstr line) = false := by
        rw [Bool.eq_false_iff, ne_eq, ← parseStockRecordLine_eq_skip, hparse]
        simp
      have hload : loadLine .nil line = (.errInvalid, .nil) := by simp [loadLine, applyLine, hparse]
      rw [applyLines, hload, if_pos (by simp), hblank]
      refine iff_of_false ?_ fun h => h rfl
      rintro ⟨_, record, hfirst, hrecord, -⟩
      obtain rfl := Option.some.inj hfirst
      rw [lineRecord, hparse] at hrecord
      cases hrecord
    | ok first =>
      have hblank : isBlankLine (cstr line) = false := by
        rw [Bool.eq_false_iff, ne_eq, ← parseStockRecordLine_eq_skip, hparse]
        simp
      have hrecord : lineRecord line = some first := by rw [lineRecord, hparse]
      have hload : loadLine .nil line = if first.InRange then
          (.ok, upsertStockItem .nil first.id first.leftStock first.price)
          else (.errInvalid, .nil) := by
        have hline : loadLine .nil line = applyStockRecord .nil first := by
          simp [loadLine, applyLine, hparse]
        rw [hline, applyStockRecord_eq]
        exact if_congr (and_iff_left rfl) rfl rfl
      rw [applyLines, hload, hblank]
      by_cases hrange : first.InRange
      · rw [if_pos hrange, if_neg (by simp)]
        exact iff_of_true ⟨line, first, rfl, hrecord, hrange⟩
          (applyLines_ne_nil loadLine_ne_nil (upsertStockItem_ne_nil _ _ _ _) lines)
      · rw [if_neg hrange, if_pos (by simp)]
        refine iff_of_false ?_ fun h => h rfl
        rintro ⟨_, record, hfirst, hrecord', hrange'⟩
        obtain rfl := Option.some.inj hfirst
        obtain rfl := Option.some.inj (hrecord.symm.trans hrecord')
        exact hrange hrange'

/-- The first lines start with a record only if all lines do. -/
theorem StartsWithRecord.of_take {lines : List Bytes} {n : ℕ}
    (h : StartsWithRecord (lines.take n)) : StartsWithRecord lines := by
  obtain ⟨line, record, hfirst, hrecord⟩ := h
  refine ⟨line, record, ?_, hrecord⟩
  rw [← List.take_append_drop n lines, List.find?_append, hfirst, Option.some_or]

/-- No record of a log is accepted by an empty store. -/
theorem applyLines_replayLine_nil (lines : List Bytes) :
    (applyLines replayLine .nil lines).2 = .nil := by
  induction lines with
  | nil => rfl
  | cons line lines ih =>
    have hline : (replayLine .nil line).2 = .nil := by
      rw [replayLine, applyLine]
      cases parseAofRecordLine (cstr line) with
      | ok record =>
        simp only [applyAofRecord]
        split_ifs <;> rfl
      | skip => rfl
      | err => rfl
    simp only [applyLines]
    split_ifs
    · exact hline
    · rw [hline]
      exact ih

/-! ## Stores that are returned -/

/-- An error is returned and the store is not empty. -/
def PartialFailure (r : Outcome (StockStatus × StockStore)) : Prop :=
  ∃ recovered, r = .returned recovered ∧ recovered.1 ≠ .ok ∧ recovered.2 ≠ .nil

/-- The store that is returned is empty. -/
def ReturnsEmpty (r : Outcome (StockStatus × StockStore)) : Prop :=
  ∀ status s, r = .returned (status, s) → s = .nil

/-- An empty store with any status. -/
theorem returnsEmpty_nil (status : StockStatus) :
    ReturnsEmpty (.returned (status, .nil)) :=
  fun _ _ h => (congrArg Prod.snd (Outcome.returned.inj h)).symm

/-- A recovery that returns an empty store is no partial failure. -/
theorem ReturnsEmpty.not_partialFailure {r : Outcome (StockStatus × StockStore)}
    (h : ReturnsEmpty r) : ¬ PartialFailure r := by
  rintro ⟨⟨status, s⟩, hr, -, hne⟩
  exact hne (h status s hr)

/-! ## Reading a file into the store -/

/-- What is read into a store is made of some first lines of the file. -/
theorem ensures_readFileInto_store {step : StockStore → Bytes → StockStatus × StockStore}
    {path : Name} {P : StockStore → Prop} (hstart : P store)
    (hlines : ∀ data, d.contents path = some data → ∀ n,
      P (applyLines step store ((fileLines data).take n)).2) :
    Ensures ok (fun _ => True)
      (fun r d' => d' = d ∧ ∃ status s, r = .returned (status, s) ∧ P s)
      (readFileInto step store path) d := by
  rw [readFileInto, ensures_op_bind]
  refine ⟨trivial, fun c hc => ?_⟩
  cases hopen : c.fail with
  | true =>
    simp only [perform, hopen, ↓reduceIte]
    exact ⟨trivial, rfl, .errIo, store, rfl, hstart⟩
  | false =>
    cases hl : d.lookup path with
    | none =>
      simp only [perform, hopen, Bool.false_eq_true, ↓reduceIte, hl]
      exact ⟨trivial, rfl, .errNotFound, store, rfl, hstart⟩
    | some fp =>
      simp only [perform, hopen, Bool.false_eq_true, ↓reduceIte, hl]
      rw [ensures_op_bind]
      refine ⟨trivial, fun c hc => ?_⟩
      have hcontents := Disk.contents_of_lookup hl
      obtain ⟨n, hn⟩ : ∃ n, (perform d (.readLines fp (maxLine - 1)) c).1.1 =
          (fileLines (d.files fp).data).take n := by
        cases hread : c.fail with
        | true => exact ⟨c.count, by simp [perform, hread, fileLines]⟩
        | false =>
          exact ⟨(fileLines (d.files fp).data).length, by simp [perform, hread, fileLines]⟩
      have hstore := hlines _ hcontents n
      rw [← hn] at hstore
      split_ifs
      · exact ⟨trivial, rfl, _, _, rfl, hstore⟩
      · exact ⟨trivial, rfl, _, _, rfl, hstore⟩
      · exact ⟨trivial, rfl, _, _, rfl, hstore⟩

/-- A file that starts with a record may be read up to its end and then fail. -/
theorem may_readFileInto {path : Name} {data : Bytes} (hdata : d.contents path = some data)
    (hstart : StartsWithRecord (fileLines data)) :
    May (fun r _ => ∃ loaded, r = .returned loaded ∧ loaded.1 ≠ .ok ∧ loaded.2 ≠ .nil)
      (loadStockFileIntoStore .nil path) d := by
  obtain ⟨fp, hl, rfl⟩ := Option.map_eq_some_iff.mp hdata
  have hne := (startsWithRecord_iff _).mp hstart
  have hlines : (pieces (maxLine - 1) (d.files fp).data).take
      (fileLines (d.files fp).data).length = fileLines (d.files fp).data := List.take_length
  rw [loadStockFileIntoStore, readFileInto, may_op_bind]
  refine ⟨.fine, ?_⟩
  simp only [perform, Choice.fine, Bool.false_eq_true, ↓reduceIte, hl]
  rw [may_op_bind]
  refine ⟨⟨true, [], (fileLines (d.files fp).data).length, []⟩, ?_⟩
  simp only [perform, ↓reduceIte, hlines]
  split_ifs with hok
  · exact ⟨_, rfl, hok, hne⟩
  · exact ⟨_, rfl, by simp, hne⟩

/-! ## Bootstrap -/

/-- Bootstrap may get to the init file: there are no leftovers, or there is a marker and cleanup can
deal with all entries. -/
def CanBootstrap (d : Disk) : Prop :=
  ¬ Leftover d ∨ (d.lookup stockBootstrapMarkerName).isSome = true ∧
    ∀ entry ∈ d.current.keys, Fits entry

/-- Bootstrap gets to the init file if no call fails: what is done depends on the marker. -/
def Bootstraps (d : Disk) : Prop :=
  if (d.lookup stockBootstrapMarkerName).isSome = true then ∀ entry ∈ d.current.keys, Fits entry
  else ¬ Leftover d

/-- A directory without leftovers is accepted by the guard, and no other one. -/
theorem ensures_guard_leftover : Ensures ok (fun _ => True)
    (fun r d' => d' = d ∧ (r = .returned .ok → ¬ Leftover d)) ensureBootstrapRecoveryState d := by
  refine (ensures_ensureBootstrapRecoveryState trivial).mono (fun _ h => h) fun r d' h => ?_
  refine ⟨h.1, fun hr => ?_⟩
  rcases h.2 with ⟨-, hclean⟩ | ⟨hinvalid, -⟩ | ⟨hio, -⟩
  · rintro ⟨name, hblocks, hname⟩
    rw [hclean name hname] at hblocks
    cases hblocks
  · exact absurd (hinvalid.symm.trans hr) (by decide)
  · exact absurd (hio.symm.trans hr) (by decide)

/-- The preparation of bootstrap keeps the pins that it spares, and succeeds only if bootstrap may
get to the init file. -/
theorem ensures_prepareBootstrap_keeps (hd : d.Holds ps) (hspared : ∀ p ∈ ps, Spared 0 p.name)
    (hmarker : stockBootstrapMarkerName ∉ ps.map Pin.name) :
    Ensures ok (fun _ => True) (fun r d' => d'.Holds ps ∧ (r = .returned .ok → CanBootstrap d))
      prepareBootstrap d := by
  rw [prepareBootstrap, fileExists, ensures_op_bind]
  refine ⟨trivial, fun c _ => ?_⟩
  split_ifs with hexists
  · -- the marker is there: its bootstrap is cleaned up
    have hsome : (d.lookup stockBootstrapMarkerName).isSome = true := by
      simp only [perform, Bool.and_eq_true] at hexists
      exact hexists.2
    have hcleanup := (@ensures_cleanupOldGenerationFiles ok (fun _ => True) d ps 0 hspared
      (fun _ _ => trivial) hd).and (ensures_cleanupOldGenerationFiles_exact d)
    refine (hcleanup.mono (fun _ _ => trivial) fun _ _ h => h).bind (fun status d₁ _ h => ?_)
      fun code d₁ _ h => ?_
    · obtain ⟨⟨-, hheld⟩, hcleaned⟩ := h
      split_ifs with hstatus
      · exact ⟨trivial, hheld, fun hr => absurd (Outcome.returned.inj hr) hstatus⟩
      · rw [not_not.mp hstatus] at hcleaned
        refine (ensures_removeBootstrapMarker hheld hmarker fun _ _ => trivial).mono
          (fun _ h => h) fun r d₂ h => ⟨?_, fun _ => Or.inr ⟨hsome, hcleaned.of_ok.1⟩⟩
        rcases h with ⟨-, hheld⟩ | ⟨-, -, hheld⟩ <;> exact hheld
    · obtain ⟨⟨⟨status, hr⟩, -⟩, -⟩ := h
      cases hr
  · refine ensures_guard_leftover.mono (fun _ h => h) fun r d₁ h => ?_
    rw [h.1]
    exact ⟨hd, fun hr => Or.inl (h.2 hr)⟩

/-- Without a failure the preparation succeeds exactly if bootstrap gets to the init file. -/
theorem ensures_prepareBootstrap_fine (hd : d.Holds ps) (hspared : ∀ p ∈ ps, Spared 0 p.name)
    (hmarker : stockBootstrapMarkerName ∉ ps.map Pin.name) :
    Ensures Choice.Fine (fun _ => True)
      (fun r d' => d'.Holds ps ∧ (r = .returned .ok ↔ Bootstraps d)) prepareBootstrap d := by
  rw [prepareBootstrap, fileExists, ensures_op_bind]
  refine ⟨trivial, fun c hc => ?_⟩
  have hfine : c.fail = false := hc
  simp only [perform, hfine, Bool.not_false, Bool.true_and]
  split_ifs with hsome
  · -- the marker is there
    rw [Bootstraps, if_pos hsome]
    have hcleanup := (@ensures_cleanupOldGenerationFiles Choice.Fine (fun _ => True) d ps 0 hspared
      (fun _ _ => trivial) hd).and (ensures_cleanupOldGenerationFiles_exact d)
    refine (hcleanup.mono (fun _ _ => trivial) fun _ _ h => h).bind (fun status d₁ _ h => ?_)
      fun code d₁ _ h => ?_
    swap
    · obtain ⟨⟨⟨status, hr⟩, -⟩, -⟩ := h
      cases hr
    obtain ⟨⟨-, hheld⟩, hcleaned⟩ := h
    split_ifs with hstatus
    · refine ⟨trivial, hheld, iff_of_false (fun hr => hstatus (Outcome.returned.inj hr)) ?_⟩
      intro hfits
      rcases hcleaned with ⟨hr, -⟩ | ⟨-, entry, hmem, hnot⟩ | ⟨-, hfault⟩
      · exact hstatus (Outcome.returned.inj hr)
      · exact hnot (hfits entry hmem)
      · exact not_fault hfault
    · rw [not_not.mp hstatus] at hcleaned
      have hfits := hcleaned.of_ok.1
      refine (ensures_removeBootstrapMarker hheld hmarker fun _ _ => trivial).mono
        (fun _ h => h) fun r d₂ h => ⟨h.fine.2, iff_of_true h.fine.1 hfits⟩
  · rw [Bootstraps, if_neg hsome]
    by_cases hleft : Leftover d
    · refine ensures_guard_leftover.mono (fun _ h => h) fun r d₁ h => ?_
      rw [h.1]
      exact ⟨hd, iff_of_false (fun hr => h.2 hr hleft) (not_not.mpr hleft)⟩
    · refine (ensures_guard_clean (fun name hname => Bool.eq_false_iff.mpr
        fun hblocks => hleft ⟨name, hblocks, hname⟩) trivial).mono (fun _ h => h) fun r d₁ h => ?_
      rw [h.2]
      exact ⟨hd, iff_of_true h.1 hleft⟩

/-- The preparation succeeds with some choices if bootstrap may get to the init file. -/
theorem may_prepareBootstrap (hd : d.Holds ps) (hspared : ∀ p ∈ ps, Spared 0 p.name)
    (hmarker : stockBootstrapMarkerName ∉ ps.map Pin.name) (hcan : CanBootstrap d) :
    May (fun r d' => ∃ status, r = .returned status ∧ status = .ok ∧ d'.Holds ps)
      prepareBootstrap d := by
  have hfine : Bootstraps d → May (fun r d' => ∃ status, r = .returned status ∧ status = .ok ∧
      d'.Holds ps) prepareBootstrap d := fun hboots =>
    ((ensures_prepareBootstrap_fine hd hspared hmarker).mono (fun _ h => h)
      fun r d' h => ⟨.ok, h.2.mpr hboots, rfl, h.1⟩).may (c := .fine) rfl
  by_cases hsome : (d.lookup stockBootstrapMarkerName).isSome = true
  swap
  · refine hfine ?_
    rw [Bootstraps, if_neg hsome]
    exact hcan.resolve_right fun h => hsome h.1
  rcases hcan with hclean | ⟨-, hfits⟩
  · -- there is a marker, but this is not found out
    rw [prepareBootstrap, fileExists, may_op_bind]
    refine ⟨⟨true, [], 0, []⟩, ?_⟩
    simp only [perform, Bool.not_true, Bool.false_and, Bool.false_eq_true, ↓reduceIte]
    have hguard := @ensures_guard_clean (fun _ => True) d (fun name hname =>
      Bool.eq_false_iff.mpr fun hblocks => hclean ⟨name, hblocks, hname⟩) trivial
    refine (hguard.mono (fun _ h => h) fun r d' h => ⟨.ok, h.1, rfl, ?_⟩).may (c := .fine) rfl
    rw [h.2]
    exact hd
  · refine hfine ?_
    rw [Bootstraps, if_pos hsome]
    exact hfits

/-- Bootstrap from an init file that does not start with a record leaves the store empty. -/
theorem ensures_bootstrapStore_empty (hd : d.Holds ps)
    (hmarker : stockBootstrapMarkerName ∉ ps.map Pin.name)
    (hinit : ∀ d : Disk, d.Holds ps → ∀ data, d.contents stockInitName = some data →
      ¬ StartsWithRecord (fileLines data)) :
    Ensures ok (fun _ => True) (fun r _ => ReturnsEmpty r) (bootstrapStore .nil) d := by
  refine (ensures_createBootstrapMarker hd hmarker fun _ _ => trivial).bind
    (fun created d₁ _ h => ?_) fun code d₁ _ _ status s hs => by cases hs
  have hheld : d₁.Holds ps := by
    rcases h with ⟨-, h⟩ | ⟨-, -, h⟩
    exacts [h.subset (List.subset_cons_self _ _), h]
  split_ifs with hcreated
  · exact ⟨trivial, returnsEmpty_nil created⟩
  refine (ensures_readFileInto_store (P := fun s => s = .nil) rfl fun data hdata n => ?_).bind
    (fun loaded d₂ _ h => ?_) fun code d₂ _ h => ?_
  · by_contra hne
    exact hinit d₁ hheld data hdata ((startsWithRecord_iff _).mpr hne).of_take
  · obtain ⟨-, status, s, hr, rfl⟩ := h
    obtain rfl := Outcome.returned.inj hr
    split_ifs with hloaded
    · exact ⟨trivial, returnsEmpty_nil status⟩
    refine (ensures_true _ _).bind (fun published d₃ _ _ => ?_)
      fun code d₃ _ _ _ _ hs => by cases hs
    split_ifs with hpublished
    · exact ⟨trivial, returnsEmpty_nil published⟩
    · exact (ensures_true _ _).bind (fun removed d₄ _ _ => ⟨trivial, returnsEmpty_nil removed⟩)
        fun code d₄ _ _ _ _ hs => by cases hs
  · obtain ⟨-, status, s, hr, -⟩ := h
    cases hr

/-- Bootstrap from an init file that starts with a record may fail and leave the store not empty. -/
theorem may_bootstrapStore {data : Bytes} (hd : d.Holds ps)
    (hmarker : stockBootstrapMarkerName ∉ ps.map Pin.name)
    (hdata : ∀ d : Disk, d.Holds ps → d.contents stockInitName = some data)
    (hstart : StartsWithRecord (fileLines data)) :
    May (fun r _ => PartialFailure r) (bootstrapStore .nil) d := by
  have hmarked : May (fun r d' => ∃ created, r = .returned created ∧ created = .ok ∧ d'.Holds ps)
      createBootstrapMarker d := by
    refine ((@ensures_createBootstrapMarker Choice.Fine (fun _ => True) d ps hd hmarker
      fun _ _ => trivial).mono (fun _ h => h) fun r d' h => ?_).may (c := .fine) rfl
    exact ⟨.ok, h.fine.1, rfl, h.fine.2.subset (List.subset_cons_self _ _)⟩
  refine hmarked.bind fun created d' h => ?_
  obtain ⟨rfl, hheld⟩ := h
  rw [if_neg (not_not.mpr rfl)]
  refine (may_readFileInto (hdata d' hheld) hstart).bind fun loaded d'' hloaded => ?_
  rw [if_pos hloaded.1]
  exact ⟨loaded, rfl, hloaded⟩

/-! ## Recovery -/

/-- The contents of the file that recovery loads first: the snapshot of the generation that the
manifest names, or without a manifest the init file, if bootstrap gets to it. -/
inductive BaseImage (boots : Prop) (d : Disk) (data : Bytes) : Prop
  | snapshot (gen : StockGen) (hmanifest : manifestOf d = (.ok, gen))
      (hdata : d.contents (generationName stockSnapshotName gen) = some data)
  | init (hmanifest : (manifestOf d).1 = .errNotFound) (hboots : boots)
      (hdata : d.contents stockInitName = some data)

/-- Every recovery from the directory that returns an error leaves the store empty. -/
def LeavesEmpty (d : Disk) : Prop :=
  ∀ σ : ℕ → Choice, ¬ PartialFailure ((recoverStockStore .nil).run d σ).1

/-- The pins under which recovery without a manifest is looked at. -/
def missingPins (d : Disk) : List Pin := [stockManifestName, stockInitName].map d.pinOf

/-- A settled directory without a manifest. -/
theorem missingPins_holds (hdir : d.Sound) : d.settle.Holds (missingPins d) ∧
    (∀ p ∈ missingPins d, Spared 0 p.name) ∧
    stockBootstrapMarkerName ∉ (missingPins d).map Pin.name := by
  refine ⟨hdir.holds_settle _, fun p hp => ?_, ?_⟩
  · obtain ⟨name, hname, rfl⟩ := List.mem_map.mp hp
    rw [Disk.pinOf_name]
    have hother : ∀ name ∈ [stockManifestName, stockInitName],
        name ≠ stockManifestTmpName ∧ artifactGeneration name = none := by decide
    obtain ⟨htmp, hnone⟩ := hother name hname
    refine ⟨htmp, fun g hg => ?_⟩
    rw [hnone] at hg
    cases hg
  · rw [missingPins, List.map_map]
    intro hmem
    obtain ⟨name, hname, heq⟩ := List.mem_map.mp hmem
    have hne : ∀ name ∈ [stockManifestName, stockInitName],
        name ≠ stockBootstrapMarkerName := by decide
    exact hne name hname ((Disk.pinOf_name d name).symm.trans heq)

/-- The init file under the pins. -/
theorem contents_of_missingPins (h : d'.Holds (missingPins d)) :
    d'.contents stockInitName = d.contents stockInitName :=
  Disk.Fixes.contents_pinOf (h.fixes _ (by simp [missingPins]))

/-- Loading a generation whose snapshot does not start with a record leaves the store empty. -/
theorem ensures_loadGeneration_empty
    (hsnapshot : ∀ data, d.contents (generationName stockSnapshotName gen) = some data →
      ¬ StartsWithRecord (fileLines data)) :
    Ensures ok (fun _ => True) (fun r _ => ReturnsEmpty r) (loadGeneration .nil gen) d := by
  rw [loadGeneration, buildGenerationPath_eq gen (Or.inl rfl)]
  simp only [buildGenerationPath_eq gen (Or.inr rfl)]
  refine (ensures_readFileInto_store (P := fun s => s = .nil) rfl fun data hdata n => ?_).bind
    (fun loaded d' _ h => ?_) fun code d' _ h => ?_
  · by_contra hne
    exact hsnapshot data hdata ((startsWithRecord_iff _).mpr hne).of_take
  · obtain ⟨-, status, s, hr, rfl⟩ := h
    obtain rfl := Outcome.returned.inj hr
    split_ifs
    · exact ⟨trivial, returnsEmpty_nil status⟩
    refine (ensures_readFileInto_store (P := fun s => s = .nil) rfl
      fun data _ n => applyLines_replayLine_nil _).mono (fun _ h => h) fun r d'' h => ?_
    obtain ⟨-, status, s, rfl, rfl⟩ := h
    exact returnsEmpty_nil status
  · obtain ⟨-, status, s, hr, -⟩ := h
    cases hr

/-- **Recovery leaves the store empty** if no base image starts with a record. -/
theorem ensures_recover_empty {boots : Prop}
    (hmarker : stockBootstrapMarkerName ∉ ps.map Pin.name)
    (hinit : ∀ d' : Disk, d'.Holds ps → d'.contents stockInitName = d.contents stockInitName)
    (hprepare : Ensures ok (fun _ => True)
      (fun r d' => d'.Holds ps ∧ (r = .returned .ok → boots)) prepareBootstrap d)
    (himage : ∀ data, BaseImage boots d data → ¬ StartsWithRecord (fileLines data)) :
    Ensures ok (fun _ => True) (fun r _ => ReturnsEmpty r) (recoverStockStore .nil) d := by
  refine ensures_recover_cases
    (A := fun d' => d'.Holds ps ∧ (manifestOf d).1 = .errNotFound ∧ boots)
    (fun status _ _ => returnsEmpty_nil status) (fun code _ _ _ hs => by cases hs)
    (fun hmissing => ?_) (fun d₁ hd₁ => ?_) fun gen hmanifest => ?_
  · exact hprepare.mono (fun _ h => h) fun r d₁ h hr => ⟨h.1, hmissing, h.2 hr⟩
  · refine ensures_bootstrapStore_empty hd₁.1 hmarker fun d₂ hd₂ data hdata => ?_
    rw [hinit d₂ hd₂] at hdata
    exact himage data (.init hd₁.2.1 hd₁.2.2 hdata)
  · refine ensures_removeStaleMarker.bind (fun _ d₁ _ h => ?_) fun code d₁ _ h _ _ hs => by cases hs
    refine ensures_loadGeneration_empty fun data hdata => himage data (.snapshot gen hmanifest ?_)
    rwa [← h.1 _ (generationName_ne gen (Or.inl rfl) _ (by simp))]

/-- Without a failure the manifest is read as it is. -/
theorem may_readManifestGeneration :
    May (fun r d' => ∃ read, r = .returned read ∧ read = manifestOf d ∧ d' = d)
      readManifestGeneration d := by
  refine ((@ensures_readManifestGeneration Choice.Fine (fun _ => True) d trivial).mono
    (fun _ h => h) fun r d' h => ?_).may (c := .fine) rfl
  exact ⟨_, h.2.resolve_right fun hbad => not_fault hbad.1, rfl, h.1⟩

/-- **Recovery may fail and leave the store not empty** if a base image starts with a record. -/
theorem may_recoverStockStore {data : Bytes} (hd : d.Holds ps)
    (hspared : ∀ p ∈ ps, Spared 0 p.name) (hmarker : stockBootstrapMarkerName ∉ ps.map Pin.name)
    (hinit : ∀ d' : Disk, d'.Holds ps → d'.contents stockInitName = d.contents stockInitName)
    (himage : BaseImage (CanBootstrap d) d data) (hstart : StartsWithRecord (fileLines data)) :
    May (fun r _ => PartialFailure r) (recoverStockStore .nil) d := by
  rw [recoverStockStore]
  refine may_readManifestGeneration.bind fun read d' h => ?_
  obtain ⟨rfl, rfl⟩ := h
  cases himage with
  | snapshot gen hmanifest hdata =>
    simp only [hmanifest, reduceCtorEq, ↓reduceIte, ne_eq, not_true_eq_false]
    rw [removeStaleMarker, fileExists, bind_assoc, may_op_bind]
    -- whether there is a marker is not found out
    refine ⟨⟨true, [], 0, []⟩, ?_⟩
    simp only [perform, Bool.not_true, Bool.false_and, Bool.false_eq_true, ↓reduceIte]
    rw [loadGeneration, buildGenerationPath_eq gen (Or.inl rfl)]
    simp only [buildGenerationPath_eq gen (Or.inr rfl)]
    refine (may_readFileInto hdata hstart).bind fun loaded d'' hloaded => ?_
    rw [if_pos hloaded.1]
    exact ⟨loaded, rfl, hloaded⟩
  | init hmanifest hboots hdata =>
    dsimp only
    rw [if_pos hmanifest]
    refine (may_prepareBootstrap hd hspared hmarker hboots).bind fun prepared d₁ h => ?_
    obtain ⟨rfl, hheld⟩ := h
    have hdata₁ : d₁.contents stockInitName = some data := (hinit d₁ hheld).trans hdata
    have hexists : (d₁.lookup stockInitName).isSome = true := by
      obtain ⟨i, hi, -⟩ := Option.map_eq_some_iff.mp hdata₁
      rw [hi]
      rfl
    rw [if_neg (not_not.mpr rfl), fileExists, may_op_bind]
    refine ⟨.fine, ?_⟩
    simp only [perform, Choice.fine, hexists, Bool.not_false, Bool.and_self, ↓reduceIte]
    exact may_bootstrapStore hheld hmarker (fun d₂ hd₂ => (hinit d₂ hd₂).trans hdata) hstart

/-! ## Recovery without a failing call -/

/-- Everything that recovery reads is accepted: the lines of the base image, and with a manifest
those of the log. -/
def AllAccepted (d : Disk) (data : Bytes) : Prop :=
  Loadable (fileLines data) ∧ ∀ gen, manifestOf d = (.ok, gen) →
    ∃ aof, d.contents (generationName stockAofName gen) = some aof ∧
      ReplayableInto (applyLines loadLine .nil (fileLines data)).2 (fileLines aof)

/-- There is at most one base image. -/
theorem BaseImage.unique {boots : Prop} {data data' : Bytes} (h : BaseImage boots d data)
    (h' : BaseImage boots d data') : data' = data := by
  cases h with
  | snapshot gen hmanifest hdata =>
    cases h' with
    | snapshot gen' hmanifest' hdata' =>
      obtain rfl : gen' = gen := congrArg Prod.snd (hmanifest'.symm.trans hmanifest)
      exact Option.some.inj (hdata'.symm.trans hdata)
    | init hmissing => rw [hmanifest] at hmissing; cases hmissing
  | init hmissing hboots hdata =>
    cases h' with
    | snapshot gen' hmanifest' => rw [hmanifest'] at hmissing; cases hmissing
    | init _ _ hdata' => exact Option.some.inj (hdata'.symm.trans hdata)

/-- The base image depends on what a process sees. -/
theorem BaseImage.of_alike {boots : Prop} {data : Bytes} (h : BaseImage boots d data)
    (hd : d'.Alike d) : BaseImage boots d' data := by
  have hmanifest : manifestOf d' = manifestOf d := manifestOf_congr (hd.contents _)
  cases h with
  | snapshot gen hgen hdata =>
    exact .snapshot gen (hmanifest.trans hgen) ((hd.contents _).trans hdata)
  | init hmissing hboots hdata =>
    exact .init (hmanifest ▸ hmissing) hboots ((hd.contents _).trans hdata)

/-- A recovery whose store is not empty is no partial failure if it succeeds. -/
theorem not_partialFailure_iff {recovered : StockStatus × StockStore} (hne : recovered.2 ≠ .nil) :
    ¬ PartialFailure (.returned recovered) ↔ recovered.1 = .ok := by
  constructor
  · intro h
    by_contra hfailed
    exact h ⟨recovered, rfl, hfailed, hne⟩
  · rintro hok ⟨recovered', hr, hfailed, -⟩
    obtain rfl := Outcome.returned.inj hr
    exact hfailed hok

/-- The image of a generation whose snapshot starts with a record. -/
theorem generationImage_of_startsWithRecord {data : Bytes} (hmanifest : manifestOf d = (.ok, gen))
    (hdata : d.contents (generationName stockSnapshotName gen) = some data)
    (hstart : StartsWithRecord (fileLines data)) :
    (generationImage .nil d gen).2 ≠ .nil ∧
      ((generationImage .nil d gen).1 = .ok ↔ AllAccepted d data) := by
  have hne := (startsWithRecord_iff _).mp hstart
  have hloadable := applyLines_nil_ok_iff (fileLines data)
  have hgen : ∀ gen', manifestOf d = (.ok, gen') → gen' = gen :=
    fun gen' hgen' => congrArg Prod.snd (hgen'.symm.trans hmanifest)
  have hloaded : imageOf loadLine .nil d (generationName stockSnapshotName gen) =
      applyLines loadLine .nil (fileLines data) := by
    rw [imageOf, hdata]
  simp only [generationImage, hloaded]
  by_cases hok : (applyLines loadLine .nil (fileLines data)).1 = .ok
  swap
  · rw [if_pos hok]
    exact ⟨hne, iff_of_false hok fun haccepted => hok (hloadable.mpr haccepted.1)⟩
  rw [if_neg (not_not.mpr hok), imageOf]
  cases haof : d.contents (generationName stockAofName gen) with
  | none =>
    refine ⟨hne, iff_of_false (by simp) fun haccepted => ?_⟩
    obtain ⟨aof, haof', -⟩ := haccepted.2 gen hmanifest
    rw [haof] at haof'
    cases haof'
  | some aof =>
    refine ⟨applyLines_ne_nil replayLine_ne_nil hne _, ?_⟩
    dsimp only
    rw [applyLines_replayLine_ok_iff]
    constructor
    · refine fun hreplay => ⟨hloadable.mp hok, fun gen' hgen' => ⟨aof, ?_, hreplay⟩⟩
      rw [hgen gen' hgen', haof]
    · intro haccepted
      obtain ⟨aof', haof', hreplay⟩ := haccepted.2 gen hmanifest
      rw [haof] at haof'
      rwa [Option.some.inj haof']

/-- Without a failure bootstrap returns what loading the init file returns. -/
theorem ensures_bootstrapStore_fine {i : Ino} {data : Bytes}
    (hd : d.Holds [.absent stockManifestName, .file stockInitName i data]) :
    Ensures Choice.Fine (fun _ => True)
      (fun r _ => r = .returned (applyLines loadLine .nil (fileLines data)))
      (bootstrapStore .nil) d := by
  have hmarker : stockBootstrapMarkerName ∉
      [Pin.absent stockManifestName, .file stockInitName i data].map Pin.name := by
    simp only [List.map_cons, List.map_nil, Pin.name]
    decide
  have himage : ∀ d : Disk, d.Holds [.file stockInitName i data] →
      imageOf loadLine .nil d stockInitName = applyLines loadLine .nil (fileLines data) := by
    intro d hd
    have hinit : d.Pinned stockInitName i data := hd.fixes (.file _ i _) (by simp)
    rw [imageOf, hinit.contents]
  by_cases hok : (applyLines loadLine .nil (fileLines data)).1 = .ok
  · have hresult : applyLines loadLine .nil (fileLines data) =
        (.ok, (applyLines loadLine .nil (fileLines data)).2) := Prod.ext hok rfl
    refine (ensures_bootstrapStore hd (List.Subset.refl _) hmarker untouched_bootstrap
      (fun d hd => (himage d hd).trans hresult) (fun _ _ => trivial) (fun _ _ => trivial)
      fun _ _ _ _ _ => trivial).mono (fun _ h => h) fun r d' h => ?_
    rw [hresult]
    exact h.fine.1
  · refine (ensures_createBootstrapMarker hd hmarker fun _ _ => trivial).bind
      (fun created d₁ _ h => ?_) fun code d₁ _ h => absurd h.fine.1 (by simp)
    obtain ⟨hcreated, hheld⟩ := h.fine
    obtain rfl : created = .ok := Outcome.returned.inj hcreated
    rw [if_neg (not_not.mpr rfl)]
    refine (ensures_readFileInto trivial).bind (fun loaded d₂ _ h => ?_) fun code d₂ _ h => ?_
    · have hr := h.2.resolve_right fun hbad => not_fault hbad.1
      rw [himage d₁ (hheld.subset (by simp))] at hr
      obtain rfl := Outcome.returned.inj hr
      rw [if_pos hok]
      exact ⟨trivial, rfl⟩
    · obtain ⟨-, hr | ⟨-, status, s, hr, -⟩⟩ := h <;> cases hr

/-- Without a failure recovery returns what loading the base image starts. -/
theorem run_recover_of_startsWithRecord {data : Bytes} (hdir : d.Sound)
    (himage : BaseImage (Bootstraps d) d data) (hstart : StartsWithRecord (fileLines data))
    {σ : ℕ → Choice} (hσ : ∀ n, (σ n).Fine) :
    ∃ recovered, ((recoverStockStore .nil).run d σ).1 = .returned recovered ∧
      recovered.2 ≠ .nil ∧ (recovered.1 = .ok ↔ AllAccepted d data) := by
  cases himage with
  | snapshot gen hmanifest hdata =>
    exact ⟨generationImage .nil d gen, run_recover_fine hmanifest hσ,
      generationImage_of_startsWithRecord hmanifest hdata hstart⟩
  | init hmissing hboots hdata =>
    refine ⟨applyLines loadLine .nil (fileLines data), ?_, (startsWithRecord_iff _).mp hstart, ?_⟩
    · obtain ⟨i, hi, rfl⟩ := Option.map_eq_some_iff.mp hdata
      have hnone := lookup_of_manifestOf hmissing
      have hpins : missingPins d =
          [.absent stockManifestName, .file stockInitName i (d.files i).data] := by
        simp only [missingPins, List.map_cons, List.map_nil, Disk.pinOf, hnone, hi]
      obtain ⟨hheld, hspared, hmarker⟩ := missingPins_holds hdir
      have hread : manifestOf d.settle = (.errNotFound, 0) :=
        manifestOf_of_lookup (((Disk.alike_settle d).lookup _).symm.trans hnone)
      have hrecover : Ensures Choice.Fine (fun _ => True)
          (fun r _ => r = .returned (applyLines loadLine .nil (fileLines (d.files i).data)))
          (recoverStockStore .nil) d.settle := by
        refine ensures_recover_prepared hread trivial
          ((ensures_prepareBootstrap_fine hheld hspared hmarker).mono (fun _ h => h)
            fun r d' h => ⟨h.2.mpr hboots, h.1⟩) (fun d' hd' => ?_) fun d' hd' => ?_
        · rw [hpins] at hd'
          have hinit : d'.Pinned stockInitName i (d.files i).data :=
            hd'.fixes (.file _ i _) (by simp)
          rw [hinit.lookup]
          rfl
        · rw [hpins] at hd'
          exact ensures_bootstrapStore_fine hd'
      rw [(run_alike (recoverStockStore .nil) (Disk.alike_settle d) σ).1]
      exact hrecover.run hσ
    · rw [applyLines_nil_ok_iff]
      refine ⟨fun h => ⟨h, fun gen hgen => ?_⟩, And.left⟩
      rw [hgen] at hmissing
      cases hmissing

/-- **Recovery leaves no partial state if and only if** the base image does not start with a
record.  For every data directory: every recovery into an empty store that returns an error leaves
the store empty, whichever calls fail (but no `readdir` part-way), exactly if the base image, where
there is one, does not start with a record.  And a recovery in which no call fails leaves no partial
state exactly if all that is read after such a record is accepted.

**Proof sketch.** The store is written to by the two loops over lines only, and the first loop puts
in the records one by one: if there is a first record, a failure of the read behind the last line
leaves it there.  The log changes only what is in the store. -/
theorem leavesEmpty_iff (hdir : d.Sound) :
    (LeavesEmpty d ↔
      ∀ data, BaseImage (CanBootstrap d) d data → ¬ StartsWithRecord (fileLines data)) ∧
    ∀ σ : ℕ → Choice, (∀ n, (σ n).Fine) →
      (¬ PartialFailure ((recoverStockStore .nil).run d σ).1 ↔
        ∀ data, BaseImage (Bootstraps d) d data → StartsWithRecord (fileLines data) →
          AllAccepted d data) := by
  obtain ⟨hheld, hspared, hmarker⟩ := missingPins_holds hdir
  have halike := Disk.alike_settle d
  have hinit : ∀ d' : Disk, d'.Holds (missingPins d) →
      d'.contents stockInitName = d.settle.contents stockInitName :=
    fun d' hd' => (contents_of_missingPins hd').trans (halike.contents _)
  have hempty : ∀ {ok : Choice → Prop} {boots : Prop}, Ensures ok (fun _ => True)
      (fun r d' => d'.Holds (missingPins d) ∧ (r = .returned .ok → boots))
        prepareBootstrap d.settle →
      (∀ data, BaseImage boots d data → ¬ StartsWithRecord (fileLines data)) →
      ∀ σ : ℕ → Choice, (∀ n, ok (σ n)) →
        ¬ PartialFailure ((recoverStockStore .nil).run d σ).1 := by
    intro ok boots hprepare himage σ hσ
    rw [(run_alike (recoverStockStore .nil) halike σ).1]
    exact ((ensures_recover_empty hmarker hinit hprepare fun data hdata =>
      himage data (hdata.of_alike halike)).run hσ).not_partialFailure
  refine ⟨⟨fun hleaves data himage hstart => ?_, fun himage σ => ?_⟩, fun σ hσ => ?_⟩
  · obtain ⟨σ, hσ⟩ := may_iff.mp
      (may_recoverStockStore hheld hspared hmarker hinit (himage.of_alike halike.symm) hstart)
    rw [← (run_alike (recoverStockStore .nil) halike σ).1] at hσ
    exact hleaves σ hσ
  · exact @hempty (fun _ => True) _ (ensures_prepareBootstrap_keeps hheld hspared hmarker) himage σ
      fun _ => trivial
  · by_cases himage : ∃ data, BaseImage (Bootstraps d) d data ∧ StartsWithRecord (fileLines data)
    · obtain ⟨data, hdata, hstart⟩ := himage
      obtain ⟨recovered, hr, hne, hok⟩ := run_recover_of_startsWithRecord hdir hdata hstart hσ
      rw [hr, not_partialFailure_iff hne, hok]
      refine ⟨fun haccepted data' hdata' _ => ?_, fun h => h data hdata hstart⟩
      rwa [hdata.unique hdata']
    · have hnone : ∀ data, BaseImage (Bootstraps d) d data → ¬ StartsWithRecord (fileLines data) :=
        fun data hdata hstart => himage ⟨data, hdata, hstart⟩
      refine iff_of_true ?_ fun data hdata hstart => absurd hstart (hnone data hdata)
      exact hempty ((ensures_prepareBootstrap_fine hheld hspared hmarker).mono (fun _ h => h)
        fun r d' h => ⟨h.1, h.2.mp⟩) hnone σ hσ

/-- An init file whose second line is no record. -/
def brokenDirectory : Disk := oneItemDirectory "1 5 100\nx\n"

/-- An init file that is refused from its first line on leaves the store empty. -/
theorem leavesEmpty_iff_refused : LeavesEmpty (oneItemDirectory "x\n") := by
  have hholds : (Disk.empty.add stockInitName (ascii "x\n")).Holds _ :=
    Disk.holds_empty.add (by simp) rfl
  refine (leavesEmpty_iff hholds.wf.sound).1.mpr fun data himage => ?_
  cases himage with
  | snapshot gen hmanifest =>
    have hmissing : (manifestOf (oneItemDirectory "x\n")).1 = .errNotFound := by decide +kernel
    have hok := congrArg Prod.fst hmanifest
    rw [oneItemDirectory] at hmissing
    rw [hmissing] at hok
    cases hok
  | init hmissing hboots hdata =>
    have hcontents : (oneItemDirectory "x\n").contents stockInitName = some (ascii "x\n") := by
      decide +kernel
    obtain rfl : ascii "x\n" = data := Option.some.inj (hcontents.symm.trans hdata)
    rw [startsWithRecord_iff]
    decide

/-- **A failed recovery leaves a record in the store**, though no call fails: the first line of the
init file is loaded before the second is refused. -/
theorem brokenDirectory_not_leavesEmpty :
    let r := ((recoverStockStore .nil).run brokenDirectory fun _ => .fine).1
    r = .returned (.errInvalid, upsertStockItem .nil 1 5 100) ∧ PartialFailure r ∧
      ¬ LeavesEmpty brokenDirectory := by
  intro r
  have hr : r = .returned (.errInvalid, upsertStockItem .nil 1 5 100) := by decide +kernel
  have hpartial : PartialFailure r := ⟨_, hr, by decide, upsertStockItem_ne_nil _ _ _ _⟩
  exact ⟨hr, hpartial, fun hleaves => hleaves _ hpartial⟩

end StockServer
