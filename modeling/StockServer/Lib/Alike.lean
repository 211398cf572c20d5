import StockServer.Lib.FsProgram

set_option relaxedAutoImplicit false
set_option autoImplicit false

/-!
# What a process cannot see

A process sees the current directory and the contents of its files, not which changes are already
durable.  So a run on a disk goes exactly as on the settled disk that looks the same, on which
every change is durable and every file is fsynced; and what is proved with pins on the settled
disk holds, as far as the process can see, on the other.

## Main definitions

* `Disk.Alike` — two disks that look the same to a process.
* `Disk.settle` — the settled disk that looks the same.
* `Disk.Sound` — what is visible is well formed: no entry leads past the allocated inodes and no
  file has two names.
* `Disk.pinOf` — what is visible under a name, as a pin.

## Main results

* `Disk.alike_perform`, `Prog.after_alike`, `Prog.run_alike` — calls and runs on disks that look the
  same report the same and leave disks that look the same.
* `Disk.Sound.holds_settle` — all that is visible is pinned once the disk is settled.
* `Disk.Sound.of_perform`, `Prog.ensures_sound` — every call, renames included, and every program
  keeps the visible directory well formed.
* `Prog.Ensures.of_alike` — a postcondition about what is visible carries over.
-/

namespace Disk

/-- Two disks look the same to a process. -/
structure Alike (d e : Disk) : Prop where
  current : d.current = e.current
  data : ∀ i, (d.files i).data = (e.files i).data
  buffered : ∀ i, (d.files i).buffered = (e.files i).buffered
  fresh : d.fresh = e.fresh

/-- The settled disk that looks the same. -/
def settle (d : Disk) : Disk :=
  ⟨d.current, [], fun i => { d.files i with synced := true }, d.fresh⟩

variable {d e : Disk} {n : Name} {i : Ino}

theorem Alike.refl (d : Disk) : d.Alike d := ⟨rfl, fun _ => rfl, fun _ => rfl, rfl⟩

theorem Alike.symm (h : d.Alike e) : e.Alike d :=
  ⟨h.current.symm, fun i => (h.data i).symm, fun i => (h.buffered i).symm, h.fresh.symm⟩

/-- A disk looks the same when it is settled. -/
theorem alike_settle (d : Disk) : d.Alike d.settle := ⟨rfl, fun _ => rfl, fun _ => rfl, rfl⟩

/-- Fsyncing the directory changes nothing that is visible. -/
theorem alike_syncDir (d : Disk) : d.syncDir.Alike d := ⟨rfl, fun _ => rfl, fun _ => rfl, rfl⟩

theorem Alike.lookup (h : d.Alike e) (n : Name) : d.lookup n = e.lookup n := by
  rw [Disk.lookup, Disk.lookup, h.current]

/-- Disks that look the same show the same contents. -/
theorem Alike.contents (h : d.Alike e) (n : Name) : d.contents n = e.contents n := by
  have hdata : (fun i => (d.files i).data) = fun i => (e.files i).data := funext h.data
  rw [Disk.contents, Disk.contents, h.lookup, hdata]

/-- A file is changed in the same way on both disks, as far as it is visible. -/
theorem Alike.modifyFile (h : d.Alike e) {f g : File → File}
    (hdata : (f (d.files i)).data = (g (e.files i)).data)
    (hbuffered : (f (d.files i)).buffered = (g (e.files i)).buffered) :
    (d.modifyFile i f).Alike (e.modifyFile i g) := by
  refine ⟨h.current, fun j => ?_, fun j => ?_, h.fresh⟩ <;> by_cases hj : j = i
  · rw [hj, files_modifyFile_self, files_modifyFile_self, hdata]
  · rw [files_modifyFile_of_ne f hj, files_modifyFile_of_ne g hj, h.data]
  · rw [hj, files_modifyFile_self, files_modifyFile_self, hbuffered]
  · rw [files_modifyFile_of_ne f hj, files_modifyFile_of_ne g hj, h.buffered]

/-- The same directory change on both disks. -/
theorem Alike.change (h : d.Alike e) (x : Change) : (d.change x).Alike (e.change x) := by
  refine ⟨?_, h.data, h.buffered, h.fresh⟩
  rw [current_change, current_change, h.current]

/-- The same new file on both disks. -/
theorem Alike.create (h : d.Alike e) (n : Name) : (d.create n).Alike (e.create n) := by
  have hchange := (h.change (.link n d.fresh)).current
  have hfiles : ∀ j, j = d.fresh ∧ (d.create n).files j = ⟨[], [], false⟩ ∧
      (e.create n).files j = ⟨[], [], false⟩ ∨
      (d.create n).files j = d.files j ∧ (e.create n).files j = e.files j := by
    intro j
    by_cases hj : j = d.fresh
    · exact Or.inl ⟨hj, by simp [Disk.create, hj], by simp [Disk.create, hj, h.fresh]⟩
    · exact Or.inr ⟨by simp [Disk.create, hj], by simp [Disk.create, ← h.fresh, hj]⟩
  refine ⟨?_, fun j => ?_, fun j => ?_, by simp [Disk.create, h.fresh]⟩
  · rw [h.fresh] at hchange
    simpa [Disk.create, Disk.change, Disk.current, h.fresh] using hchange
  · rcases hfiles j with ⟨-, hd, he⟩ | ⟨hd, he⟩
    · rw [hd, he]
    · rw [hd, he, h.data]
  · rcases hfiles j with ⟨-, hd, he⟩ | ⟨hd, he⟩
    · rw [hd, he]
    · rw [hd, he, h.buffered]

/-- Writing to a file through its stream goes the same way on both disks. -/
theorem Alike.write (h : d.Alike e) {f : File → File}
    (hf : ∀ a b : File, a.data = b.data → a.buffered = b.buffered →
      (f a).data = (f b).data ∧ (f a).buffered = (f b).buffered) :
    (d.modifyFile i f).Alike (e.modifyFile i f) :=
  h.modifyFile (hf _ _ (h.data i) (h.buffered i)).1 (hf _ _ (h.data i) (h.buffered i)).2

/-- **A call on disks that look the same** reports the same and leaves disks that look the same. -/
theorem alike_perform (h : d.Alike e) (o : Op) (c : Choice) :
    (perform d o c).1 = (perform e o c).1 ∧ (perform d o c).2.Alike (perform e o c).2 := by
  have hwrite : ∀ (a b : File) (count : ℕ), a.data = b.data → a.buffered = b.buffered →
      (a.writeThrough count).data = (b.writeThrough count).data ∧
        (a.writeThrough count).buffered = (b.writeThrough count).buffered := by
    intro a b count hdata hbuffered
    simp only [File.writeThrough, hdata, hbuffered, and_self]
  cases o with
  | stat n =>
    simp only [perform, h.lookup]
    exact ⟨trivial, h⟩
  | openRead n =>
    simp only [perform, h.lookup]
    split
    · exact ⟨rfl, h⟩
    · split <;> exact ⟨rfl, h⟩
  | readLines i max =>
    simp only [perform, h.data]
    exact ⟨trivial, h⟩
  | openWrite n =>
    simp only [perform, h.lookup]
    split
    · exact ⟨rfl, h⟩
    · split <;> dsimp only
      · exact ⟨rfl, h.write fun _ _ _ _ => ⟨rfl, rfl⟩⟩
      · exact ⟨congrArg some h.fresh, h.create n⟩
  | print i text =>
    simp only [perform]
    split <;> dsimp only
    · exact ⟨rfl, h.write fun _ _ _ _ => ⟨rfl, rfl⟩⟩
    · refine ⟨rfl, h.write fun a b hdata hbuffered => hwrite _ _ _ hdata ?_⟩
      simp only [hbuffered]
  | flush i =>
    simp only [perform]
    split <;> dsimp only
    · exact ⟨rfl, h.write fun _ _ _ _ => ⟨rfl, rfl⟩⟩
    · refine ⟨rfl, h.write fun a b hdata hbuffered => ?_⟩
      rw [hbuffered]
      exact hwrite _ _ _ hdata hbuffered
  | fsync i =>
    simp only [perform]
    split <;> dsimp only
    · exact ⟨rfl, h⟩
    · exact ⟨rfl, h.write fun _ _ hdata hbuffered => ⟨hdata, hbuffered⟩⟩
  | close i =>
    simp only [perform]
    split <;> dsimp only
    · refine ⟨rfl, h.write fun a b hdata hbuffered => ?_⟩
      rw [hbuffered]
      split
      · exact ⟨hdata, hbuffered⟩
      · exact ⟨rfl, rfl⟩
    · refine ⟨rfl, h.write fun a b hdata hbuffered => ?_⟩
      rw [hbuffered]
      exact hwrite _ _ _ hdata hbuffered
  | unlink n =>
    simp only [perform, h.lookup]
    split
    · exact ⟨rfl, h⟩
    · split
      · exact ⟨rfl, h.change _⟩
      · exact ⟨rfl, h⟩
  | rename a b =>
    simp only [perform, h.lookup]
    split
    · exact ⟨rfl, h⟩
    · split
      · exact ⟨rfl, h⟩
      · exact ⟨rfl, h.change _⟩
  | openDir => exact ⟨rfl, h⟩
  | fsyncDir =>
    simp only [perform]
    split
    · exact ⟨rfl, h⟩
    · exact ⟨rfl, h.current, h.data, h.buffered, h.fresh⟩
  | closeDir => exact ⟨rfl, h⟩
  | listDir =>
    simp only [perform, h.current]
    split <;> exact ⟨rfl, h⟩

/-! ## Visible well-formedness -/

/-- No visible entry leads past the allocated inodes, and no file has two names. -/
structure Sound (d : Disk) : Prop where
  lt_fresh : ∀ n i, d.lookup n = some i → i < d.fresh
  injective : ∀ n m i, d.lookup n = some i → d.lookup m = some i → n = m

/-- What is visible of a well-formed disk is well formed. -/
theorem WF.sound (h : d.WF) : d.Sound :=
  ⟨fun n i hn => h.lt_fresh n i (names_of_lookup hn),
    fun n m i hn hm => h.injective n m i (names_of_lookup hn) (names_of_lookup hm)⟩

/-- Disks that look the same are visibly well formed together. -/
theorem Sound.of_alike (h : d.Sound) (hd : d.Alike e) : e.Sound := by
  constructor
  · intro n i hn
    rw [← hd.fresh]
    exact h.lt_fresh n i ((hd.lookup n).trans hn)
  · intro n m i hn hm
    exact h.injective n m i ((hd.lookup n).trans hn) ((hd.lookup m).trans hm)

/-- A visibly well-formed disk is well formed when it is settled. -/
theorem Sound.wf_settle (h : d.Sound) : d.settle.WF := by
  have hnames : ∀ n i, d.settle.Names n i → d.lookup n = some i := by
    rintro n i (hn | ⟨c, hc, -⟩)
    · exact hn
    · cases hc
  exact ⟨fun n i hn => h.lt_fresh n i (hnames n i hn),
    fun n m i hn hm => h.injective n m i (hnames n i hn) (hnames m i hm)⟩

/-- **Every call keeps the visible directory well formed.** -/
theorem Sound.of_perform (h : d.Sound) (o : Op) (c : Choice) : (perform d o c).2.Sound := by
  have halike := (alike_perform (alike_settle d) o c).2.symm
  refine Sound.of_alike ?_ halike
  have heffect := perform_effect d.settle o c
  revert heffect
  generalize (perform d.settle o c).2 = d'
  intro heffect
  by_cases hrename : ∃ a b, o = .rename a b
  · obtain ⟨a, b, rfl⟩ := hrename
    cases heffect with
    | nothing => exact h.wf_settle.sound
    | rename ha => exact (h.wf_settle.rename_syncDir ha).sound.of_alike (alike_syncDir _)
  · refine (h.wf_settle.of_effect ?_ heffect).sound
    intro a b ho
    exact hrename ⟨a, b, ho⟩

/-- A process that is killed leaves the visible directory as it is. -/
theorem Sound.kill (h : d.Sound) : d.kill.Sound := ⟨h.lt_fresh, h.injective⟩

/-- What is visible is pinned once the disk is settled. -/
theorem pinned_settle (h : d.lookup n = some i) : d.settle.Pinned n i (d.files i).data :=
  ⟨⟨h, by simp [settle]⟩, rfl, rfl⟩

/-- What is visible under a name, as a pin. -/
def pinOf (d : Disk) (n : Name) : Pin :=
  match d.lookup n with
  | some i => .file n i (d.files i).data
  | none => .absent n

@[simp] theorem pinOf_name (d : Disk) (n : Name) : (d.pinOf n).name = n := by
  rw [pinOf]
  split <;> rfl

/-- **All that is visible is pinned** once the disk is settled. -/
theorem Sound.holds_settle (h : d.Sound) (names : List Name) :
    d.settle.Holds (names.map d.pinOf) := by
  refine ⟨h.wf_settle, fun p hp => ?_⟩
  obtain ⟨n, -, rfl⟩ := List.mem_map.mp hp
  rw [pinOf]
  cases hn : d.lookup n with
  | some i => exact pinned_settle hn
  | none => exact ⟨hn, by simp [settle]⟩

/-- While its pin holds, a name shows what it showed. -/
theorem Fixes.contents_pinOf (h : e.Fixes (d.pinOf n)) : e.contents n = d.contents n := by
  rw [pinOf] at h
  cases hn : d.lookup n with
  | some i =>
    rw [hn] at h
    have hpinned : e.Pinned n i (d.files i).data := h
    rw [hpinned.contents, contents, hn, Option.map_some]
  | none =>
    rw [hn] at h
    have hfixed : e.Fixed n none := h
    rw [contents, contents, hfixed.lookup, hn]
    rfl

end Disk

/-! ## Runs -/

namespace Prog

variable {α : Type} {d e : Disk} {ok : Choice → Prop} {post : Outcome α → Disk → Prop}

/-- **Every part of a run on disks that look the same** leaves disks that look the same. -/
theorem after_alike (n : ℕ) (p : Prog α) (h : d.Alike e) (σ : ℕ → Choice) :
    (p.after n d σ).Alike (p.after n e σ) := by
  induction n generalizing p d e σ with
  | zero => exact h
  | succ n ih =>
    cases p with
    | ret a => exact h
    | exit code => exact h
    | call o k =>
      obtain ⟨hresult, hdisk⟩ := Disk.alike_perform h o (σ 0)
      simp only [after, hresult]
      exact ih _ hdisk _

/-- **Whole runs on disks that look the same** end alike and leave disks that look the same. -/
theorem run_alike (p : Prog α) (h : d.Alike e) (σ : ℕ → Choice) :
    (p.run d σ).1 = (p.run e σ).1 ∧ (p.run d σ).2.Alike (p.run e σ).2 := by
  induction p generalizing d e σ with
  | ret a => exact ⟨rfl, h⟩
  | exit code => exact ⟨rfl, h⟩
  | call o k ih =>
    obtain ⟨hresult, hdisk⟩ := Disk.alike_perform h o (σ 0)
    simp only [run, hresult]
    exact ih _ hdisk _

/-- **Every program keeps the visible directory well formed**, at every call. -/
theorem ensures_sound (p : Prog α) (h : d.Sound) :
    Ensures ok Disk.Sound (fun _ d => d.Sound) p d := by
  induction p generalizing d with
  | ret a => exact ⟨h, h⟩
  | exit code => exact ⟨h, h⟩
  | call o k ih => exact ⟨h, fun c _ => ih _ (h.of_perform o c)⟩

/-- **A postcondition about what is visible** may be proved on a disk that looks the same. -/
theorem Ensures.of_alike {p : Prog α} (h : Ensures ok (fun _ => True) post p d) (hd : d.Alike e)
    (hpost : ∀ r d e, d.Alike e → post r d → post r e) :
    Ensures ok (fun _ => True) post p e := by
  induction p generalizing d e with
  | ret a => exact ⟨trivial, hpost _ _ _ hd h.2⟩
  | exit code => exact ⟨trivial, hpost _ _ _ hd h.2⟩
  | call o k ih =>
    refine ⟨trivial, fun c hc => ?_⟩
    obtain ⟨hresult, hdisk⟩ := Disk.alike_perform hd o c
    rw [← hresult]
    exact ih _ (h.2 c hc) hdisk

end Prog
