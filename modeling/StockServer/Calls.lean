import StockServer.Recovery

set_option relaxedAutoImplicit false
set_option autoImplicit false

/-!
# The calls that recovery makes

Which calls the functions of recovery and publication may make, whatever their calls report.  Two
facts follow: recovery gives entries only to names that fit the path buffer, so that cleanup can
build the path of every name it has ever created; and recovery from a manifest writes to nothing
but the marker.

## Main definitions

* `Fits`, `Fitting` — a name whose path fits the path buffer, and a directory of such names.
* `Quiet`, `Creates` — a call that changes nothing, and one that creates only names of one kind.
* `Publishes` — a call of a publication.

## Main results

* `Fitting.of_perform`, `Fitting.crash` — calls that create only fitting names keep all names
  fitting, and so does a crash.
* `calls_materializeStoreGeneration` — the calls of a publication.
* `calls_recoverStockStore` — recovery creates only fitting names.
* `ensures_recover_keeps` — recovery from a manifest keeps all pins on other names than the marker.
* `lookup_of_creates`, `isSome_of_retains` — a name stays without an entry that is not created, and
  an entry stays that is neither unlinked nor renamed.
-/

namespace StockServer

open Prog SearchTree

/-! ## Names that fit -/

/-- A name whose path fits the path buffer. -/
def Fits (name : Name) : Prop := (dataPath name).length < stockPathSize

instance (name : Name) : Decidable (Fits name) := inferInstanceAs (Decidable (_ < _))

/-- A call that changes no entry and writes to no file. -/
def Quiet : Op → Prop
  | .stat _ | .openRead _ | .readLines _ _ | .openDir | .fsyncDir | .closeDir | .listDir => True
  | _ => False

/-- A call that gives an entry to no name, or to one with the property `P`. -/
def Creates (P : Name → Prop) : Op → Prop
  | .openWrite name | .rename _ name => P name
  | _ => True

/-- A file that a publication writes: the temporary manifest, or a file of a generation. -/
def Produced (name : Name) : Prop :=
  name = stockManifestTmpName ∨ ∃ gen base, (base = stockSnapshotName ∨ base = stockAofName) ∧
    name = generationName base gen

/-- A call of a publication: it opens no other files for writing, unlinks these and leftovers, and
renames the temporary manifest. -/
def Publishes : Op → Prop
  | .openWrite name => Produced name
  | .unlink name => Produced name ∨ blocksBootstrap name = true
  | .rename a b => a = stockManifestTmpName ∧ b = stockManifestName
  | _ => True

/-- Every name with an entry fits, whichever pending changes survive. -/
def Fitting (d : Disk) : Prop := ∀ name i, d.Names name i → Fits name

variable {d : Disk} {store : StockStore} {gen : StockGen} {C : Op → Prop} {path : Name}
  {P : Name → Prop}

/-- A call that creates only fitting names keeps all names fitting. -/
theorem Fitting.of_perform (h : Fitting d) {o : Op} (ho : Creates Fits o) (c : Choice) :
    Fitting (perform d o c).2 := by
  have heffect := Disk.perform_effect d o c
  revert heffect
  generalize (perform d o c).2 = d'
  intro heffect
  cases heffect with
  | nothing | print | flush | fsync | close | truncate => exact h
  | @create m =>
    intro name i hname
    have hname : (d.change (.link m d.fresh)).Names name i := hname
    rcases Disk.names_change.mp hname with hname | ⟨rfl, -⟩
    · exact h name i hname
    · exact ho
  | unlink =>
    intro name i hname
    exact h name i ((Disk.names_change.mp hname).resolve_right id)
  | @rename a b =>
    intro name i hname
    rcases Disk.names_change.mp hname with hname | ⟨rfl, -⟩
    · exact h name i hname
    · exact ho
  | syncDir =>
    rintro name i (hname | ⟨c, hc, -⟩)
    · exact h name i (Disk.names_of_lookup hname)
    · cases hc

/-- A crash keeps all names fitting. -/
theorem Fitting.crash (h : Fitting d) (keep : List Bool) (junk : Ino → Bytes) :
    Fitting (d.crash keep junk) := by
  rintro name i (hname | ⟨c, hc, -⟩)
  · exact h name i (Disk.names_of_crash hname)
  · cases hc

/-! ## Reading

The calls that read are all quiet. -/

/-- Reading the manifest makes quiet calls only. -/
theorem calls_readManifestGeneration (hC : ∀ o, Quiet o → C o) :
    Calls C readManifestGeneration := by
  refine Calls.bind (calls_op.mpr (hC (.openRead _) trivial)) fun opened => ?_
  split
  · trivial
  · trivial
  · refine Calls.bind (calls_op.mpr (hC (.readLines _ _) trivial)) fun read => ?_
    split
    · split_ifs
      · trivial
      · split <;> trivial
    · trivial

/-- So does reading a file. -/
theorem calls_readFileInto (hC : ∀ o, Quiet o → C o)
    (step : StockStore → Bytes → StockStatus × StockStore) :
    Calls C (readFileInto step store path) := by
  refine Calls.bind (calls_op.mpr (hC (.openRead _) trivial)) fun opened => ?_
  split
  · trivial
  · trivial
  · refine Calls.bind (calls_op.mpr (hC (.readLines _ _) trivial)) fun read => ?_
    dsimp only
    split_ifs <;> trivial

/-- So does fsyncing the directory. -/
theorem calls_fsyncParentDir (hC : ∀ o, Quiet o → C o) : Calls C (fsyncParentDir path) := by
  have hclose : Calls C closeDir := by
    refine Calls.bind (calls_op.mpr (hC .closeDir trivial)) fun closed => ?_
    split_ifs <;> trivial
  rw [fsyncParentDir]
  split_ifs
  · trivial
  · refine Calls.bind (calls_op.mpr (hC .openDir trivial)) fun opened => ?_
    split_ifs
    · refine Calls.bind (calls_op.mpr (hC .fsyncDir trivial)) fun synced => ?_
      split_ifs
      · exact hclose.bind fun _ => trivial
      · exact hclose.bind fun _ => trivial
    · trivial

/-- Removing the marker unlinks it, and is quiet otherwise. -/
theorem calls_removeBootstrapMarker (hC : ∀ o, Quiet o → C o)
    (hunlink : C (.unlink stockBootstrapMarkerName)) : Calls C removeBootstrapMarker := by
  refine Calls.bind (calls_op.mpr hunlink) fun unlinked => ?_
  split
  · trivial
  · trivial
  · exact calls_fsyncParentDir hC

/-- So is recovery once the manifest has been read. -/
theorem calls_recoverGeneration (hC : ∀ o, Quiet o → C o)
    (hunlink : C (.unlink stockBootstrapMarkerName)) :
    Calls C (removeStaleMarker >>= fun _ => loadGeneration store gen) := by
  refine Calls.bind ?_ fun _ => ?_
  · refine Calls.bind (calls_op.mpr (hC (.stat _) trivial)) fun present => ?_
    split_ifs
    · exact (calls_removeBootstrapMarker hC hunlink).bind fun _ => trivial
    · trivial
  · rw [loadGeneration]
    split
    · trivial
    · split
      · trivial
      · refine (calls_readFileInto hC loadLine).bind fun loaded => ?_
        split_ifs
        · trivial
        · exact calls_readFileInto hC replayLine

/-- **Recovery from a manifest keeps the pins** on all names but that of the marker, whatever
fails. -/
theorem ensures_recover_keeps {ok : Choice → Prop} {ps : List Pin}
    (hmanifest : manifestOf d = (.ok, gen)) (hd : d.Holds ps)
    (hmarker : stockBootstrapMarkerName ∉ ps.map Pin.name) :
    Ensures ok (·.Holds ps) (fun _ d => d.Holds ps) (recoverStockStore store) d := by
  have hspares : ∀ o, Quiet o → Disk.NamesSpared (ps.map Pin.name) o := by
    intro o ho
    cases o <;> trivial
  refine ensures_readManifest_bind hd ?_ fun status _ hok hfound => ?_
  · rw [hmanifest]
    exact (calls_recoverGeneration hspares hmarker).ensures
      (fun d o c ho hd => Disk.Holds.of_spared hd ho c) hd
  · simp only [hfound, ↓reduceIte, hok, ne_eq, not_false_eq_true]
    exact ⟨hd, hd⟩

/-! ## Creating -/

/-- A quiet call creates nothing. -/
theorem creates_of_quiet (o : Op) (h : Quiet o) : Creates P o := by
  cases o <;> trivial

/-- A quiet call is one of a publication. -/
theorem publishes_of_quiet (o : Op) (h : Quiet o) : Publishes o := by
  cases o <;> trivial

/-- A publication writes the files of a generation. -/
theorem produced_generationName (gen : StockGen) {base : Name}
    (hbase : base = stockSnapshotName ∨ base = stockAofName) : Produced (generationName base gen) :=
  Or.inr ⟨gen, base, hbase, rfl⟩

/-- All that a publication writes fits. -/
theorem creates_of_publishes (o : Op) (h : Publishes o) : Creates Fits o := by
  cases o with
  | openWrite name =>
    rcases h with rfl | ⟨gen, base, hbase, rfl⟩
    · exact (by decide : Fits stockManifestTmpName)
    · exact length_generationName gen hbase
  | rename a b =>
    obtain ⟨-, rfl⟩ := h
    exact (by decide : Fits stockManifestName)
  | _ => trivial

/-- The calls of `ifOk` are those of its parts. -/
theorem calls_ifOk {first rest : Prog StockStatus} (h : Calls C first) (h' : Calls C rest) :
    Calls C (ifOk first rest) := by
  refine h.bind fun status => ?_
  split_ifs
  · trivial
  · exact h'

/-- Writing a file opens it, and unlinks no other. -/
theorem calls_writeFile {contents : Ino → Prog StockStatus} (hpath : Produced path)
    (hcontents : ∀ fp, Calls Publishes (contents fp)) :
    Calls Publishes (writeFile path contents) := by
  have habandon : ∀ fp status, Calls Publishes (abandon fp path status) := fun fp status =>
    ⟨trivial, fun _ => ⟨Or.inl hpath, fun _ => trivial⟩⟩
  refine Calls.bind (calls_op.mpr hpath) fun opened => ?_
  split
  · trivial
  · refine (hcontents _).bind fun status => Calls.bind ?_ fun status => ?_
    · rw [flushIfOk]
      split_ifs
      · refine Calls.bind (calls_op.mpr trivial) fun flushed => ?_
        split_ifs <;> trivial
      · trivial
    · split_ifs
      · exact habandon _ _
      · refine Calls.bind (calls_op.mpr trivial) fun synced => ?_
        split_ifs
        · refine Calls.bind (calls_op.mpr trivial) fun closed => ?_
          split_ifs
          · trivial
          · exact ⟨Or.inl hpath, fun _ => trivial⟩
        · exact habandon _ _

/-- Printing prints. -/
theorem calls_printTo {fp : Ino} (hC : ∀ text, C (.print fp text)) (text : Bytes) :
    Calls C (printTo fp text) := by
  refine Calls.bind (calls_op.mpr (hC text)) fun printed => ?_
  split_ifs <;> trivial

/-- So does writing a snapshot. -/
theorem calls_prints {fp : Ino} (hC : ∀ text, C (.print fp text)) (items : List StockItem) :
    Calls C (visitAll (writeSnapshotNode fp) items) := by
  induction items with
  | nil => trivial
  | cons item items ih =>
    rw [visitAll]
    refine (calls_printTo hC (stockLine item)).bind fun status => ?_
    split_ifs
    · trivial
    · exact ih

/-- Cleaning up lists the directory and unlinks leftovers. -/
theorem calls_cleanupOldGenerationFiles (hlist : C .listDir)
    (hunlink : ∀ name, blocksBootstrap name = true → C (.unlink name)) :
    Calls C (cleanupOldGenerationFiles gen) := by
  have hentries : ∀ entries, Calls C (cleanupEntries gen entries) := by
    intro entries
    induction entries with
    | nil => trivial
    | cons entry entries ih =>
      rw [cleanupEntries]
      split
      · trivial
      · rename_i path hpath
        obtain rfl : path = entry := by
          rw [buildDataPath] at hpath
          split_ifs at hpath
          exact (Option.some.inj hpath).symm
        split_ifs with htmp
        · refine Calls.bind (calls_op.mpr (hunlink path (by simp [blocksBootstrap, htmp])))
            fun unlinked => ?_
          split
          · trivial
          · exact ih
        · split
          · exact ih
          · rename_i gen' hgen
            split_ifs
            · exact ih
            · refine Calls.bind (calls_op.mpr (hunlink path (by simp [blocksBootstrap, hgen])))
                fun unlinked => ?_
              split
              · trivial
              · exact ih
  refine Calls.bind (calls_op.mpr hlist) fun listed => ?_
  split
  · trivial
  · exact hentries _

/-- **The calls of a publication.** -/
theorem calls_materializeStoreGeneration :
    Calls Publishes (materializeStoreGeneration store) := by
  refine (calls_readManifestGeneration publishes_of_quiet).bind fun read => ?_
  dsimp only
  split_ifs
  · trivial
  all_goals
    rw [buildGenerationPath_eq _ (Or.inl rfl), buildGenerationPath_eq _ (Or.inr rfl)]
    refine calls_ifOk (calls_ifOk (calls_writeFile (produced_generationName _ (Or.inl rfl))
      fun fp => ?_) (calls_fsyncParentDir publishes_of_quiet)) (calls_ifOk (calls_ifOk
        (calls_writeFile (produced_generationName _ (Or.inr rfl)) fun fp => trivial)
        (calls_fsyncParentDir publishes_of_quiet)) (calls_ifOk (calls_ifOk
          (calls_writeFile (Or.inl rfl) fun fp => calls_printTo (fun _ => trivial) _) ?_) ?_))
    · rw [stockStoreInorderWalk_eq]
      exact calls_prints (fun _ => trivial) _
    · refine Calls.bind (calls_op.mpr ⟨rfl, rfl⟩) fun renamed => ?_
      split_ifs
      · exact calls_fsyncParentDir publishes_of_quiet
      · exact ⟨Or.inl (Or.inl rfl), fun _ => trivial⟩
    · exact (calls_cleanupOldGenerationFiles trivial fun _ => Or.inr).bind fun _ => trivial

/-- Preparing for bootstrap creates nothing. -/
theorem calls_prepareBootstrap : Calls (Creates P) prepareBootstrap := by
  refine Calls.bind (calls_op.mpr trivial) fun present => ?_
  split_ifs
  · exact calls_ifOk (calls_cleanupOldGenerationFiles trivial fun _ _ => trivial)
      (calls_removeBootstrapMarker creates_of_quiet trivial)
  · refine Calls.bind (calls_op.mpr trivial) fun listed => ?_
    split
    · trivial
    · split_ifs <;> trivial

/-- Creating the marker creates only the marker. -/
theorem calls_createBootstrapMarker (hmarker : P stockBootstrapMarkerName) :
    Calls (Creates P) createBootstrapMarker := by
  refine Calls.bind (calls_op.mpr hmarker) fun opened => ?_
  split
  · trivial
  · refine Calls.bind (calls_op.mpr trivial) fun closed => ?_
    split_ifs
    · exact calls_fsyncParentDir creates_of_quiet
    · exact ⟨trivial, fun _ => trivial⟩

/-- **Recovery gives entries only to names that fit.** -/
theorem calls_recoverStockStore : Calls (Creates Fits) (recoverStockStore store) := by
  have hmarker : Fits stockBootstrapMarkerName := by decide
  refine (calls_readManifestGeneration creates_of_quiet).bind fun read => ?_
  dsimp only
  split_ifs
  · refine calls_prepareBootstrap.bind fun prepared => ?_
    split_ifs
    · trivial
    · refine Calls.bind (calls_op.mpr trivial) fun present => ?_
      split_ifs
      · refine (calls_createBootstrapMarker hmarker).bind fun created => ?_
        split_ifs
        · trivial
        · refine (calls_readFileInto creates_of_quiet loadLine).bind fun loaded => ?_
          split_ifs
          · trivial
          · refine (calls_materializeStoreGeneration.mono creates_of_publishes).bind
              fun published => ?_
            split_ifs
            · trivial
            · exact (calls_removeBootstrapMarker creates_of_quiet trivial).bind fun _ => trivial
      · trivial
  · trivial
  · exact calls_recoverGeneration creates_of_quiet trivial

/-- A call that does not create a name leaves it without an entry. -/
theorem lookup_of_creates {name : Name} (hnone : d.lookup name = none) {o : Op}
    (ho : Creates (· ≠ name) o) (c : Choice) : (perform d o c).2.lookup name = none := by
  have heffect := Disk.perform_effect d o c
  revert heffect
  generalize (perform d o c).2 = d'
  intro heffect
  cases heffect with
  | nothing | print | flush | fsync | close | truncate | syncDir => exact hnone
  | create => rw [Disk.lookup_create, if_neg (Ne.symm ho), hnone]
  | @unlink m =>
    cases hl : (d.change (.unlink m)).lookup name with
    | none => rfl
    | some i =>
      rw [Disk.lookup_change] at hl
      rcases Change.names_of_lookup_apply hl with h | h
      · exact h.elim
      · exact absurd (hnone.symm.trans h) (by simp)
  | @rename a b i ha =>
    cases hl : (d.change (.rename a b i)).lookup name with
    | none => rfl
    | some j =>
      rw [Disk.lookup_change] at hl
      rcases Change.names_of_lookup_apply hl with h | h
      · exact absurd h.1 ho
      · exact absurd (hnone.symm.trans h) (by simp)

/-- A call that leaves a name its entry, if it has one. -/
def Retains (name : Name) : Op → Prop
  | .unlink m => m ≠ name
  | .rename a _ => a ≠ name
  | _ => True

/-- A quiet call does. -/
theorem retains_of_quiet {name : Name} (o : Op) (h : Quiet o) : Retains name o := by
  cases o <;> trivial

/-- **An entry stays** that is neither unlinked nor renamed. -/
theorem isSome_of_retains {name : Name} (h : (d.lookup name).isSome = true) {o : Op}
    (ho : Retains name o) (c : Choice) : ((perform d o c).2.lookup name).isSome = true := by
  have heffect := Disk.perform_effect d o c
  revert heffect
  generalize (perform d o c).2 = d'
  intro heffect
  cases heffect with
  | nothing | print | flush | fsync | close | truncate | syncDir => exact h
  | @create m =>
    rw [Disk.lookup_create]
    split_ifs
    · rfl
    · exact h
  | @unlink m =>
    rw [Disk.lookup_change_of_not_touches]
    · exact h
    · exact ho
  | @rename a b i =>
    rw [Disk.lookup_change]
    by_cases hb : name = b
    · rw [hb, Change.apply, AList.lookup_insert]
      rfl
    · rw [Change.lookup_apply_of_not_touches]
      · exact h
      · exact not_or.mpr ⟨ho, Ne.symm hb⟩

/-- The entry stays at every call of a program of such calls. -/
theorem ensures_isSome {α : Type} {ok : Choice → Prop} {p : Prog α} {name : Name}
    (hcalls : Calls (Retains name) p) (h : (d.lookup name).isSome = true) :
    Ensures ok (fun d => (d.lookup name).isSome = true) (fun _ d => (d.lookup name).isSome = true)
      p d :=
  hcalls.ensures (I := fun d => (d.lookup name).isSome = true)
    (fun _ _ c ho hd => isSome_of_retains hd ho c) h

end StockServer
