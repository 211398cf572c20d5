import StockServer.Lib.Alike

set_option relaxedAutoImplicit false
set_option autoImplicit false

/-!
# A rename that hangs

Between a rename and the next fsync of the directory a process sees the new entry, while a crash
may still find the old one.  The process may end there, and others may start, look at the directory
and write other files: the rename hangs until somebody fsyncs the directory.  What comes after that
goes exactly as if it had been fsynced from the start, so nothing has to be proved twice.

## Main definitions

* `Disk.Level` — two disks that differ only in what is already durable.
* `Disk.Hanging` — a rename may be pending: an fsync of the directory gives the one list of pins,
  and a crash finds the one or the other.
* `Disk.Aside`, `Disk.OwnFile` — a name that has nothing to do with the rename, and a file that has
  at most that one name.
* `Prog.Until` — what holds until the directory is fsynced with success.
* `Prog.within` — a run, or its first calls only.

## Main results

* `Disk.Level.perform`, `Disk.Level.syncDir` — calls keep disks level, and an fsync of the directory
  makes them one.
* `Disk.Writing.hanging` — a rename that has not been fsynced hangs.
* `Disk.Hanging.openWrite`, `of_onFile`, `unlink`, `kill` — it goes on hanging when other names are
  written and unlinked, and when the process is killed.
* `Prog.Until.bind`, `Prog.Ensures.until` — the rules of `Until`.
* `Prog.Until.ensures` — until the fsync the one condition holds, and from then on whatever is known
  of the run on the fsynced disk.
* `Prog.Ensures.within` — what is known of all runs holds of those that are cut off.
-/

namespace Disk

variable {d e : Disk} {n m a b : Name} {i j : Ino} {ps old new : List Pin} {data : Bytes}

/-! ## Disks that differ in what is durable -/

/-- Two disks that differ only in which directory changes are already durable. -/
structure Level (d e : Disk) : Prop where
  current : d.current = e.current
  files : d.files = e.files
  fresh : d.fresh = e.fresh

/-- A disk is level with itself after an fsync of the directory. -/
theorem level_syncDir (d : Disk) : d.Level d.syncDir := ⟨rfl, rfl, rfl⟩

/-- Level disks look the same to a process. -/
theorem Level.alike (h : d.Level e) : d.Alike e :=
  ⟨h.current, fun i => by rw [h.files], fun i => by rw [h.files], h.fresh⟩

/-- **An fsync of the directory makes level disks one.** -/
theorem Level.syncDir (h : d.Level e) : d.syncDir = e.syncDir := by
  simp only [Disk.syncDir, h.current, h.files, h.fresh]

/-- A directory change keeps disks level. -/
theorem Level.change (h : d.Level e) (x : Change) : (d.change x).Level (e.change x) :=
  ⟨(h.alike.change x).current, h.files, h.fresh⟩

/-- So does changing a file. -/
theorem Level.modifyFile (h : d.Level e) (f : File → File) :
    (d.modifyFile i f).Level (e.modifyFile i f) :=
  ⟨h.current, by simp only [Disk.modifyFile, h.files], h.fresh⟩

/-- So does creating one. -/
theorem Level.create (h : d.Level e) (n : Name) : (d.create n).Level (e.create n) :=
  ⟨(h.alike.create n).current, by simp only [Disk.create, h.fresh, h.files],
    (h.alike.create n).fresh⟩

/-- **Every call keeps disks level.** -/
theorem Level.of_perform (h : d.Level e) (o : Op) (c : Choice) :
    (perform d o c).2.Level (perform e o c).2 := by
  cases o with
  | stat | readLines | openDir | closeDir => exact h
  | openRead n =>
    simp only [perform, h.alike.lookup]
    split
    · exact h
    · split <;> exact h
  | openWrite n =>
    simp only [perform, h.alike.lookup]
    split
    · exact h
    · split <;> dsimp only
      · exact h.modifyFile _
      · exact h.create n
  | print | flush | close => simp only [perform]; split <;> dsimp only <;> exact h.modifyFile _
  | fsync i =>
    simp only [perform]
    split <;> dsimp only
    · exact h
    · exact h.modifyFile _
  | unlink n =>
    simp only [perform, h.alike.lookup]
    split
    · exact h
    · split <;> dsimp only
      · exact h.change _
      · exact h
  | rename a b =>
    simp only [perform, h.alike.lookup]
    split
    · exact h
    · split <;> dsimp only
      · exact h
      · exact h.change _
  | fsyncDir =>
    simp only [perform]
    split <;> dsimp only
    · exact h
    · rw [h.syncDir]
      exact ⟨rfl, rfl, rfl⟩
  | listDir => simp only [perform]; split <;> exact h

/-! ## Pins and settled directories -/

/-- Killing the process keeps every pin. -/
theorem Holds.kill (h : d.Holds ps) : d.kill.Holds ps := by
  refine ⟨⟨h.wf.lt_fresh, h.wf.injective⟩, fun p hp => ?_⟩
  have hfixes := h.fixes p hp
  cases p with
  | file n i data =>
    have hpin : d.Pinned n i data := hfixes
    exact ⟨⟨hpin.durable, hpin.quiet⟩, hpin.data, hpin.synced⟩
  | entry n =>
    obtain ⟨i, hi⟩ : ∃ i, d.Fixed n (some i) := hfixes
    exact ⟨i, hi.durable, hi.quiet⟩
  | absent n =>
    have ha : d.Fixed n none := hfixes
    exact ⟨ha.durable, ha.quiet⟩

/-- Pins hold of a settled directory that agrees on their entries and their files. -/
theorem Holds.of_agrees (h : d.Holds ps) (hwf : e.WF) (hpending : e.pending = [])
    (hlookup : ∀ p ∈ ps, e.durable.lookup p.name = d.durable.lookup p.name)
    (hfiles : ∀ n i data, .file n i data ∈ ps → e.files i = d.files i) : e.Holds ps := by
  have hfixed : ∀ p ∈ ps, ∀ v, d.Fixed p.name v → e.Fixed p.name v := fun p hp v hv =>
    ⟨(hlookup p hp).trans hv.durable, by simp [hpending]⟩
  refine ⟨hwf, fun p hp => ?_⟩
  cases p with
  | file n i data =>
    have hpin : d.Pinned n i data := h.fixes _ hp
    have hfile := hfiles n i data hp
    exact ⟨hfixed _ hp _ hpin.toFixed, hfile ▸ hpin.data, hfile ▸ hpin.synced⟩
  | entry n => exact Exists.imp (fun i hi => hfixed _ hp _ hi) (h.fixes _ hp)
  | absent n => exact hfixed _ hp _ (h.fixes _ hp)

/-! ## Hanging renames -/

/-- **A rename from `a` to `b` may hang**: the directory is well formed but for the two names of one
file, an fsync of it makes the pins of `new` hold, and after a crash those of `old` hold or those of
`new`. -/
structure Hanging (a b : Name) (old new : List Pin) (d : Disk) : Prop where
  lt_fresh : ∀ n i, d.Names n i → i < d.fresh
  injective : ∀ n m i, d.Names n i → d.Names m i → n = m ∨ (n = a ∨ n = b) ∧ (m = a ∨ m = b)
  settled : d.syncDir.Holds new
  crashed : ∀ keep junk, (d.crash keep junk).Holds old ∨ (d.crash keep junk).Holds new

/-- Fewer pins of the old list. -/
theorem Hanging.subset {old' new' : List Pin} (h : d.Hanging a b old new) (hold : old' ⊆ old)
    (hnew : new' ⊆ new) : d.Hanging a b old' new' :=
  ⟨h.lt_fresh, h.injective, h.settled.subset hnew, fun keep junk =>
    (h.crashed keep junk).imp (·.subset hold) (·.subset hnew)⟩

/-- **A rename that has not been fsynced hangs.** -/
theorem Writing.hanging (h : d.Writing (old ++ ps) a i fun f => f.data = data ∧ f.synced = true)
    (hb : b ∉ ps.map Pin.name) :
    (d.change (.rename a b i)).Hanging a b (old ++ ps) (.file b i data :: ps) where
  lt_fresh n j hn := by
    rcases names_change.mp hn with hn | ⟨-, rfl⟩
    · exact h.holds.wf.lt_fresh n j hn
    · exact h.holds.wf.lt_fresh a _ (names_of_lookup h.entry)
  injective n m j hn hm := by
    have ha : ∀ k, d.Names k i → k = a := fun k hk =>
      h.holds.wf.injective k a i hk (names_of_lookup h.entry)
    rcases names_change.mp hn with hn | ⟨rfl, hj⟩ <;>
      rcases names_change.mp hm with hm | ⟨rfl, hj'⟩
    · exact Or.inl (h.holds.wf.injective n m j hn hm)
    · exact Or.inr ⟨Or.inl (ha n (hj' ▸ hn)), Or.inr rfl⟩
    · exact Or.inr ⟨Or.inr rfl, Or.inl (ha m (hj ▸ hm))⟩
    · exact Or.inl rfl
  settled := h.rename_syncDir hb
  crashed keep junk := h.rename_crash hb keep junk

/-- It goes on hanging when the process is killed. -/
theorem Hanging.kill (h : d.Hanging a b old new) : d.kill.Hanging a b old new :=
  ⟨h.lt_fresh, h.injective, h.settled.kill, h.crashed⟩

/-- A process sees what an fsync of the directory would pin. -/
theorem Hanging.sound (h : d.Hanging a b old new) : d.Sound :=
  h.settled.wf.sound.of_alike (alike_syncDir d)

/-- A name that has nothing to do with a rename from `a` to `b` and the pins around it. -/
structure Aside (a b : Name) (old new : List Pin) (n : Name) : Prop where
  source : n ≠ a
  target : n ≠ b
  old : n ∉ old.map Pin.name
  new : n ∉ new.map Pin.name

/-- An fsync of the directory makes the new pins hold after every call that spares their names. -/
theorem Hanging.settled_perform (h : d.Hanging a b old new) {o : Op}
    (ho : NamesSpared (new.map Pin.name) o) (c : Choice) :
    (perform d o c).2.syncDir.Holds new := by
  rw [((level_syncDir d).of_perform o c).syncDir]
  exact (h.settled.of_spared ho c).syncDir

/-- The file `i` has no other name than `n`, whatever survives a crash. -/
def OwnFile (n : Name) (i : Ino) (d : Disk) : Prop := ∀ m, d.Names m i → m = n

/-- The file under a name aside is its own. -/
theorem Hanging.ownFile (h : d.Hanging a b old new) (hn : Aside a b old new n)
    (hi : d.Names n i) : d.OwnFile n i := by
  intro m hm
  rcases h.injective m n i hm hi with rfl | ⟨-, rfl | rfl⟩
  · rfl
  · exact absurd rfl hn.source
  · exact absurd rfl hn.target

/-- A settled directory keeps its pins when its own file of another name changes. -/
theorem OwnFile.holds (h : d.OwnFile n i) (hps : e.Holds ps) (hn : n ∉ ps.map Pin.name)
    (hnames : ∀ m j, e.durable.lookup m = some j → d.Names m j) {e' : Disk}
    (hdurable : e'.durable = e.durable) (hpending : e'.pending = []) (hfresh : e'.fresh = e.fresh)
    (hfiles : ∀ j, j ≠ i → e'.files j = e.files j) : e'.Holds ps := by
  refine hps.of_agrees (hps.wf.settled hpending hfresh fun m j hm => Or.inl (hdurable ▸ hm))
    hpending (fun p _ => by rw [hdurable]) fun m j data hp => hfiles j ?_
  rintro rfl
  have hpin : e.Pinned m j data := hps.fixes _ hp
  obtain rfl : m = n := h m (hnames m j hpin.durable)
  exact hn (List.mem_map_of_mem hp)

/-- Changing the own file of a name aside. -/
theorem Hanging.modifyFile (h : d.Hanging a b old new) (hn : Aside a b old new n)
    (hi : d.OwnFile n i) (f : File → File) : (d.modifyFile i f).Hanging a b old new := by
  have hfiles : ∀ j, j ≠ i → (d.modifyFile i f).files j = d.files j := fun j hj =>
    files_modifyFile_of_ne f hj
  refine ⟨h.lt_fresh, h.injective, ?_, fun keep junk => ?_⟩
  · exact hi.holds h.settled hn.new (fun _ _ hm => names_of_lookup hm) rfl rfl rfl hfiles
  · have hcrash : ∀ j, j ≠ i →
        ((d.modifyFile i f).crash keep junk).files j = (d.crash keep junk).files j := by
      intro j hj
      simp only [Disk.crash, hfiles j hj]
    exact (h.crashed keep junk).imp
      (fun hold => hi.holds hold hn.old (fun _ _ => names_of_crash) rfl rfl rfl hcrash)
      fun hnew => hi.holds hnew hn.new (fun _ _ => names_of_crash) rfl rfl rfl hcrash

/-- A created file is named by its entry only. -/
theorem names_create : (d.create n).Names m i ↔ d.Names m i ∨ m = n ∧ i = d.fresh := by
  have hcreate : (d.create n).Names m i ↔ (d.change (.link n d.fresh)).Names m i := Iff.rfl
  rw [hcreate, names_change, Change.Names, eq_comm, @eq_comm _ d.fresh]

/-- Creating a file leaves the pins of a settled directory as they are, whether or not its entry
survives a crash. -/
theorem Holds.crash_create {keep : List Bool} {junk : Ino → Bytes}
    (h : (d.crash keep junk).Holds ps) (hn : n ∉ ps.map Pin.name) :
    ((d.create n).crash keep junk).Holds ps := by
  have hentries : ∀ m, ((d.create n).crash keep junk).durable.lookup m =
      (d.crash keep junk).durable.lookup m ∨ m = n ∧
        ((d.create n).crash keep junk).durable.lookup m = some d.fresh := by
    intro m
    rcases crash_change d (.link n d.fresh) keep junk with hc | hc
    · exact Or.inl (congrArg (fun e => AList.lookup m e.durable) hc)
    · have hlookup : ((d.create n).crash keep junk).durable.lookup m =
          ((d.crash keep junk).durable.insert n d.fresh).lookup m :=
        congrArg (fun e => AList.lookup m e.durable) hc
      by_cases hm : m = n
      · exact Or.inr ⟨hm, by rw [hlookup, hm, AList.lookup_insert]⟩
      · exact Or.inl (hlookup.trans (AList.lookup_insert_ne hm))
  refine h.of_agrees ((h.wf.create n).settled rfl rfl fun m j hm => ?_) rfl (fun p hp => ?_)
    fun m j data hp => ?_
  · -- an entry is an old one, or that of the new file
    rw [names_create]
    rcases hentries m with hold | ⟨rfl, hfresh⟩
    · exact Or.inl (Or.inl (hold ▸ hm))
    · rw [hfresh] at hm
      exact Or.inr ⟨rfl, (Option.some.inj hm).symm⟩
  · refine (hentries p.name).resolve_right fun hpn => hn ?_
    exact hpn.1 ▸ List.mem_map_of_mem hp
  · have hpin : (d.crash keep junk).Pinned m j data := h.fixes _ hp
    have hj : j ≠ d.fresh := (h.wf.lt_fresh m j (Or.inl hpin.durable)).ne
    simp only [Disk.crash, Disk.create, Function.update_of_ne hj]

/-- **Opening a name aside for writing**: the rename goes on hanging, and the file opened is its
own. -/
theorem Hanging.openWrite (h : d.Hanging a b old new) (hn : Aside a b old new n) (c : Choice) :
    (perform d (.openWrite n) c).2.Hanging a b old new ∧
      ∀ i, (perform d (.openWrite n) c).1 = some i →
        (perform d (.openWrite n) c).2.OwnFile n i := by
  have hsettled := @Hanging.settled_perform d a b old new h (.openWrite n) hn.new c
  revert hsettled
  simp only [perform]
  split
  · exact fun _ => ⟨h, fun i hi => by cases hi⟩
  split <;> dsimp only
  · rename_i i hi
    refine fun _ => ⟨h.modifyFile hn (h.ownFile hn (names_of_lookup hi)) _, fun j hj => ?_⟩
    obtain rfl := Option.some.inj hj
    exact h.ownFile hn (names_of_lookup hi)
  · intro hsettled
    have hfresh : ∀ m j, d.Names m j → j ≠ d.fresh := fun m j hm => (h.lt_fresh m j hm).ne
    refine ⟨⟨fun m j hm => ?_, fun m k j hm hk => ?_, hsettled, fun keep junk => ?_⟩,
      fun j hj m hm => ?_⟩
    · rcases names_create.mp hm with hm | ⟨-, rfl⟩
      · exact (h.lt_fresh m j hm).trans (Nat.lt_succ_self _)
      · exact Nat.lt_succ_self _
    · rcases names_create.mp hm with hm | ⟨hmn, hj⟩ <;>
        rcases names_create.mp hk with hk | ⟨hkn, hj'⟩
      · exact h.injective m k j hm hk
      · exact absurd hj' (hfresh m j hm)
      · exact absurd hj (hfresh k j hk)
      · exact Or.inl (hmn.trans hkn.symm)
    · exact (h.crashed keep junk).imp (·.crash_create hn.old) (·.crash_create hn.new)
    · obtain rfl := Option.some.inj hj
      exact ((names_create.mp hm).resolve_left fun hm => hfresh m _ hm rfl).1

/-- A settled directory keeps its pins when another name is unlinked, whether or not that survives
a crash. -/
theorem Holds.crash_unlink {keep : List Bool} {junk : Ino → Bytes}
    (h : (d.crash keep junk).Holds ps) (hn : n ∉ ps.map Pin.name) :
    ((d.change (.unlink n)).crash keep junk).Holds ps := by
  rcases crash_change d (.unlink n) keep junk with hc | hc <;> rw [hc]
  · exact h
  · refine h.of_agrees (h.wf.settled rfl rfl fun m j hm => ?_) rfl (fun p hp => ?_)
      fun _ _ _ _ => rfl
    · rcases Change.names_of_lookup_apply hm with hm | hm
      · exact hm.elim
      · exact Or.inl hm
    · refine Change.lookup_apply_of_not_touches (fun hpn => hn ?_) _
      have hpn : n = p.name := hpn
      exact hpn ▸ List.mem_map_of_mem hp

/-- **Unlinking a name aside**: the rename goes on hanging. -/
theorem Hanging.unlink (h : d.Hanging a b old new) (hn : Aside a b old new n) (c : Choice) :
    (perform d (.unlink n) c).2.Hanging a b old new ∧
      ∀ m i, (perform d (.unlink n) c).2.Names m i → d.Names m i := by
  have hsettled := @Hanging.settled_perform d a b old new h (.unlink n) hn.new c
  revert hsettled
  simp only [perform]
  have hnames : ∀ m i, (d.change (.unlink n)).Names m i → d.Names m i := fun m i hm =>
    (names_change.mp hm).resolve_right id
  split_ifs <;> intro hsettled
  · exact ⟨h, fun _ _ => id⟩
  · refine ⟨⟨fun m i hm => h.lt_fresh m i (hnames m i hm), fun m k i hm hk =>
      h.injective m k i (hnames m i hm) (hnames k i hk), hsettled, fun keep junk => ?_⟩, hnames⟩
    exact (h.crashed keep junk).imp (·.crash_unlink hn.old) (·.crash_unlink hn.new)
  · exact ⟨h, fun _ _ => id⟩

/-- A call on the file `i`, or one that unlinks the name `n`. -/
def OnFile (n : Name) (i : Ino) : Op → Prop
  | .print j _ | .flush j | .fsync j | .close j => j = i
  | .unlink m => m = n
  | _ => False

/-- **Writing to the own file of a name aside**, or unlinking it: the rename goes on hanging. -/
theorem Hanging.of_onFile (h : d.Hanging a b old new) (hn : Aside a b old new n)
    (hi : d.OwnFile n i) {o : Op} (ho : OnFile n i o) (c : Choice) :
    (perform d o c).2.Hanging a b old new ∧ (perform d o c).2.OwnFile n i := by
  by_cases hunlink : ∃ m, o = .unlink m
  · obtain ⟨m, rfl⟩ := hunlink
    obtain rfl : m = n := ho
    obtain ⟨hhanging, hnames⟩ := h.unlink hn c
    exact ⟨hhanging, fun m hm => hi m (hnames m i hm)⟩
  · have heffect := perform_effect d o c
    revert heffect
    generalize (perform d o c).2 = d'
    intro heffect
    cases heffect with
    | nothing => exact ⟨h, hi⟩
    | print f | flush f | fsync f | close f =>
      have ho : _ = i := ho
      subst ho
      exact ⟨h.modifyFile hn hi f, hi⟩
    | truncate | create | rename | syncDir => exact ho.elim
    | unlink => exact absurd ⟨_, rfl⟩ hunlink

end Disk

/-! ## Until the fsync of the directory -/

namespace Prog

variable {α β : Type} {ok : Choice → Prop} {crash I : Disk → Prop} {post : Outcome α → Disk → Prop}
  {p : Prog α} {d e : Disk}

/-- **Until the directory is fsynced with success**, whatever the environment does, `I` holds of the
disk before every call and at the end; a run that ends without such an fsync ends with `post`. -/
def Until (I : Disk → Prop) (post : Outcome α → Disk → Prop) : Prog α → Disk → Prop
  | .ret a, d => I d ∧ post (.returned a) d
  | .exit code, d => I d ∧ post (.exited code) d
  | .call o k, d => I d ∧ ∀ c, o = .fsyncDir ∧ c.fail = false ∨
      Until I post (k (perform d o c).1) (perform d o c).2

/-- What always holds does until then. -/
theorem Ensures.until (h : Ensures (fun _ => True) I post p d) : Until I post p d := by
  induction p generalizing d with
  | ret a => exact h
  | exit code => exact h
  | call o k ih => exact ⟨h.1, fun c => Or.inr (ih _ (h.2 c trivial))⟩

/-- **The sequencing rule.** -/
theorem Until.bind {mid : Outcome α → Disk → Prop} {post : Outcome β → Disk → Prop}
    {f : α → Prog β} (h : Until I mid p d)
    (hf : ∀ a d, I d → mid (.returned a) d → Until I post (f a) d)
    (he : ∀ code d, I d → mid (.exited code) d → post (.exited code) d) :
    Until I post (p >>= f) d := by
  induction p generalizing d with
  | ret a => exact hf a d h.1 h.2
  | exit code => exact ⟨h.1, he code d h.1 h.2⟩
  | call o k ih => exact ⟨h.1, fun c => (h.2 c).imp_right (ih _)⟩

/-- A call and what follows it. -/
theorem until_op_bind {o : Op} {f : o.Result → Prog α} :
    Until I post (op o >>= f) d ↔ I d ∧ ∀ c, o = .fsyncDir ∧ c.fail = false ∨
      Until I post (f (perform d o c).1) (perform d o c).2 :=
  Iff.rfl

/-- **A run on a disk level with another one**: until the directory is fsynced the one condition
holds, and from then on what is known of the run on the other disk. -/
theorem Until.ensures {post' : Outcome α → Disk → Prop} (h : Until I post p d)
    (he : Ensures ok crash post' p e) (hlevel : d.Level e) :
    Ensures ok (fun d => I d ∨ crash d) (fun r d => I d ∧ post r d ∨ post' r d) p d := by
  induction p generalizing d e with
  | ret a => exact ⟨Or.inl h.1, Or.inl h⟩
  | exit code => exact ⟨Or.inl h.1, Or.inl h⟩
  | call o k ih =>
    refine ⟨Or.inl h.1, fun c hc => ?_⟩
    have hrest := he.2 c hc
    rcases h.2 c with ⟨rfl, hfine⟩ | hnext
    · -- both disks are the fsynced one
      simp only [perform, hfine, Bool.false_eq_true, ↓reduceIte] at hrest ⊢
      rw [hlevel.syncDir]
      exact hrest.mono (fun _ => Or.inr) fun _ _ => Or.inr
    · rw [← (Disk.alike_perform hlevel.alike o c).1] at hrest
      exact ih _ hnext hrest (hlevel.of_perform o c)

/-! ## Runs that are cut off -/

/-- A run that is cut off after so many calls, or not at all: how it ended, and the disk. -/
def within (calls : Option ℕ) (p : Prog α) (d : Disk) (σ : ℕ → Choice) :
    Option (Outcome α) × Disk :=
  match calls with
  | none => (some (p.run d σ).1, (p.run d σ).2)
  | some n => (none, p.after n d σ)

/-- The crash condition holds at the end of a run. -/
theorem Ensures.finally {σ : ℕ → Choice} (h : Ensures ok crash post p d) (hσ : ∀ n, ok (σ n)) :
    crash (p.run d σ).2 := by
  induction p generalizing d σ with
  | ret a => exact h.1
  | exit code => exact h.1
  | call o k ih => exact ih _ (h.2 (σ 0) (hσ 0)) fun n => hσ (n + 1)

/-- **Soundness for runs that are cut off.** -/
theorem Ensures.within (h : Ensures ok crash post p d) (σ : ℕ → Choice) (hσ : ∀ n, ok (σ n))
    (calls : Option ℕ) : crash (p.within calls d σ).2 ∧
      ∀ r, (p.within calls d σ).1 = some r → post r (p.within calls d σ).2 := by
  cases calls with
  | none =>
    refine ⟨h.finally hσ, fun r hr => ?_⟩
    obtain rfl := Option.some.inj hr
    exact h.run hσ
  | some n => exact ⟨h.after hσ n, fun r hr => by cases hr⟩

end Prog
