import Mathlib.Data.List.AList
import StockServer.Lib.Bytes

set_option relaxedAutoImplicit false
set_option autoImplicit false

/-!
# A directory that can crash

One directory of a file system, as a process sees it and as a power cut leaves it.  Files live
behind inode numbers.  A directory change (a new entry, an unlink, a rename) is visible at once
but only pending on disk until the directory is fsynced; a file's contents are durable once the
file is fsynced.

## Main definitions

* `File`, `Change`, `Disk` — a file with its stdio buffer, a directory change, and the disk: the
  durable directory, the pending changes in order, and the files.
* `Disk.current`, `Disk.contents` — the directory a process sees, and the contents under a name.
* `Disk.crash` — what a power cut leaves: any subset of the pending changes, a rename being one
  change; the contents of every fsynced file; anything at all in the others.
* `Disk.kill`, `Disk.Leaves` — what a killed process leaves: everything but its stdio buffers; and
  what either end leaves.
* `Op`, `Choice`, `perform` — the calls, what the environment decides about one call, and the
  call itself.
* `Disk.WF` — no name leads past the allocated inodes and no file has two names, whatever survives
  a crash.
* `Disk.Effect` — everything a call can do to the disk.
* `Disk.Fixed`, `Disk.Pinned` — a name whose entry no crash can change, and one whose file no crash
  can change either.

## Main results

* `Disk.perform_effect` — the effect of a call, whatever the environment decides.
* `Disk.WF.of_effect`, `Disk.WF.crash` — every call but a rename keeps well-formedness, and so
  does a crash.
* `Disk.Fixed.of_effect`, `Disk.Pinned.of_effect` — a call on other names and other files keeps
  an entry fixed and a file pinned.
* `Disk.Fixed.crash`, `Disk.Pinned.crash` — so does a crash.
* `Disk.crash_change`, `Disk.WF.rename_crash` — a crash after a rename finds the rename made or not
  made, on a well-formed disk.

## Implementation notes

A call that fails leaves the directory as it is; where it writes to a file it may leave anything
in that file.  A failing call never reports `ENOENT`: that is the report of a missing entry.

Reading a directory fails as a whole, when it is opened, and otherwise delivers every entry: there
is no `readdir` that fails part-way.  A program that takes such an error for the end of the
directory works on a shorter listing; the runs in which that happens are not described here.
-/

/-- A directory entry name. -/
abbrev Name := Bytes

/-- An inode number. -/
abbrev Ino := ℕ

/-- A regular file: its contents, the bytes still in the stdio buffer of a stream writing to it,
and whether the contents have been fsynced. -/
structure File where
  data : Bytes
  buffered : Bytes
  synced : Bool
  deriving DecidableEq, Repr

/-- The entries of a directory. -/
abbrev Dir := AList fun _ : Name => Ino

/-- A change of one directory entry; a rename is one change. -/
inductive Change where
  | link (name : Name) (ino : Ino)
  | unlink (name : Name)
  | rename (src dst : Name) (ino : Ino)
  deriving DecidableEq, Repr

namespace Change

/-- The directory after a change. -/
def apply : Change → Dir → Dir
  | .link n i, d => d.insert n i
  | .unlink n, d => d.erase n
  | .rename a b i, d => (d.erase a).insert b i

/-- The change concerns this name. -/
def Touches (n : Name) : Change → Prop
  | .link m _ => m = n
  | .unlink m => m = n
  | .rename a b _ => a = n ∨ b = n

instance (n : Name) (c : Change) : Decidable (c.Touches n) := by
  cases c <;> unfold Touches <;> infer_instance

/-- A change leaves the other names alone. -/
theorem lookup_apply_of_not_touches {c : Change} {n : Name} (h : ¬ c.Touches n) (d : Dir) :
    (c.apply d).lookup n = d.lookup n := by
  cases c with
  | link m i => exact AList.lookup_insert_ne (Ne.symm h)
  | unlink m => exact AList.lookup_erase_ne (Ne.symm h)
  | rename a b i =>
    simp only [Touches, not_or] at h
    rw [apply, AList.lookup_insert_ne (Ne.symm h.2), AList.lookup_erase_ne (Ne.symm h.1)]

/-- The change leads the name `n` to the file `i`. -/
def Names (n : Name) (i : Ino) : Change → Prop
  | .link m j => m = n ∧ j = i
  | .unlink _ => False
  | .rename _ b j => b = n ∧ j = i

/-- A change touches the name it leads to a file. -/
theorem touches_of_names {c : Change} {n : Name} {i : Ino} (h : c.Names n i) : c.Touches n := by
  cases c with
  | link m j => exact h.1
  | unlink m => exact h.elim
  | rename a b j => exact Or.inr h.1

/-- An entry after a change is one that the change names, or was there before. -/
theorem names_of_lookup_apply {c : Change} {d : Dir} {n : Name} {i : Ino}
    (h : (c.apply d).lookup n = some i) : c.Names n i ∨ d.lookup n = some i := by
  by_cases hc : c.Touches n
  · cases c with
    | link m j =>
      obtain rfl : m = n := hc
      rw [apply, AList.lookup_insert] at h
      exact Or.inl ⟨rfl, by simpa using h⟩
    | unlink m =>
      obtain rfl : m = n := hc
      simp [apply] at h
    | rename a b j =>
      rw [apply] at h
      by_cases hb : n = b
      · rw [hb, AList.lookup_insert] at h
        exact Or.inl ⟨hb.symm, by simpa using h⟩
      · obtain rfl : a = n := hc.resolve_right (Ne.symm hb)
        rw [AList.lookup_insert_ne hb] at h
        simp at h
  · exact Or.inr (lookup_apply_of_not_touches hc d ▸ h)

/-- The directory after a list of changes, in order. -/
def applyAll (cs : List Change) (d : Dir) : Dir := cs.foldl (fun d c => c.apply d) d

@[simp] theorem applyAll_nil (d : Dir) : applyAll [] d = d := rfl

@[simp] theorem applyAll_cons (c : Change) (cs : List Change) (d : Dir) :
    applyAll (c :: cs) d = applyAll cs (c.apply d) := rfl

theorem applyAll_append (cs es : List Change) (d : Dir) :
    applyAll (cs ++ es) d = applyAll es (applyAll cs d) := List.foldl_append

/-- A list of changes leaves the names alone that none of them touches. -/
theorem lookup_applyAll {cs : List Change} {n : Name} (h : ∀ c ∈ cs, ¬ c.Touches n) (d : Dir) :
    (applyAll cs d).lookup n = d.lookup n := by
  induction cs generalizing d with
  | nil => rfl
  | cons c cs ih =>
    rw [applyAll_cons, ih (fun e he => h e (by simp [he])),
      lookup_apply_of_not_touches (h c (by simp))]

/-- An entry after a list of changes is one that some change names, or was there before. -/
theorem names_of_lookup_applyAll {cs : List Change} {d : Dir} {n : Name} {i : Ino}
    (h : (applyAll cs d).lookup n = some i) : (∃ c ∈ cs, c.Names n i) ∨ d.lookup n = some i := by
  induction cs generalizing d with
  | nil => exact Or.inr h
  | cons c cs ih =>
    rcases ih h with ⟨e, he, hn⟩ | h
    · exact Or.inl ⟨e, by simp [he], hn⟩
    · exact (names_of_lookup_apply h).imp_left fun hn => ⟨c, by simp, hn⟩

/-- After unlinks only, the names unlinked have no entry and the others keep theirs. -/
theorem lookup_applyAll_unlinks {cs : List Change} (h : ∀ c ∈ cs, ∃ n, c = .unlink n) (d : Dir)
    (n : Name) : (applyAll cs d).lookup n = if .unlink n ∈ cs then none else d.lookup n := by
  induction cs generalizing d with
  | nil => simp
  | cons c cs ih =>
    obtain ⟨m, rfl⟩ := h c (by simp)
    rw [applyAll_cons, ih fun e he => h e (by simp [he])]
    by_cases hn : n = m
    · subst hn
      rw [apply, AList.lookup_erase, ite_self, if_pos (by simp)]
    · simp [hn, apply, AList.lookup_erase_ne hn]

/-- The changes that survive a crash: those marked, in their order. -/
def kept : List Change → List Bool → List Change
  | c :: cs, keep :: ks => if keep then c :: kept cs ks else kept cs ks
  | _, _ => []

theorem kept_sublist : ∀ (cs : List Change) (ks : List Bool), (kept cs ks).Sublist cs
  | [], ks => by cases ks <;> exact List.nil_sublist _
  | _ :: _, [] => List.nil_sublist _
  | c :: cs, k :: ks => by
    cases k
    · exact (kept_sublist cs ks).cons c
    · exact (kept_sublist cs ks).cons_cons c

/-- One more change is kept after the others or lost. -/
theorem kept_concat (cs : List Change) (c : Change) (ks : List Bool) :
    kept (cs ++ [c]) ks = kept cs ks ∨ kept (cs ++ [c]) ks = kept cs ks ++ [c] := by
  induction cs generalizing ks with
  | nil => rcases ks with _ | ⟨_ | _, ks⟩ <;> simp [kept]
  | cons e cs ih =>
    rcases ks with _ | ⟨_ | _, ks⟩
    · simp [kept]
    · simpa [kept] using ih ks
    · simpa [kept] using ih ks

end Change

/-- The disk: the directory as it is on disk, the changes made since in order, the files, and
the next unused inode number. -/
structure Disk where
  durable : Dir
  pending : List Change
  files : Ino → File
  fresh : Ino

namespace Disk

/-- The directory a process sees. -/
def current (d : Disk) : Dir := Change.applyAll d.pending d.durable

/-- The entry of a name. -/
def lookup (d : Disk) (n : Name) : Option Ino := d.current.lookup n

/-- The contents of the file under a name. -/
def contents (d : Disk) (n : Name) : Option Bytes := (d.lookup n).map fun i => (d.files i).data

/-- The contents of a file with an entry. -/
theorem contents_of_lookup {d : Disk} {n : Name} {i : Ino} (h : d.lookup n = some i) :
    d.contents n = some (d.files i).data := by
  rw [contents, h]
  rfl

/-- The disk with one file changed. -/
def modifyFile (d : Disk) (i : Ino) (f : File → File) : Disk :=
  { d with files := Function.update d.files i (f (d.files i)) }

/-- The disk with one more directory change. -/
def change (d : Disk) (c : Change) : Disk := { d with pending := d.pending ++ [c] }

/-- The disk after the directory has been fsynced. -/
def syncDir (d : Disk) : Disk := { d with durable := d.current, pending := [] }

/-- The disk after a new file has been created. -/
def create (d : Disk) (n : Name) : Disk :=
  { d.change (.link n d.fresh) with
    files := Function.update d.files d.fresh ⟨[], [], false⟩
    fresh := d.fresh + 1 }

/-- What a power cut leaves: the marked pending changes, the contents of the fsynced files, and
`junk` in the others. -/
def crash (d : Disk) (keep : List Bool) (junk : Ino → Bytes) : Disk where
  durable := Change.applyAll (Change.kept d.pending keep) d.durable
  pending := []
  files i := ⟨if (d.files i).synced then (d.files i).data else junk i, [], true⟩
  fresh := d.fresh

/-- What a killed process leaves: everything but its stdio buffers. -/
def kill (d : Disk) : Disk := { d with files := fun i => { d.files i with buffered := [] } }

/-- What the next process may find: what a power cut leaves, or what the end of the process
alone leaves. -/
inductive Leaves (d : Disk) : Disk → Prop
  | crash (keep : List Bool) (junk : Ino → Bytes) : Leaves d (d.crash keep junk)
  | kill : Leaves d d.kill

end Disk

/-! ## Calls -/

/-- The calls on the directory and its files. -/
inductive Op where
  /-- `stat` on a name. -/
  | stat (n : Name)
  /-- `fopen` for reading. -/
  | openRead (n : Name)
  /-- The lines that successive `fgets` calls with room for `max` bytes deliver, up to the first
  that returns `NULL`. -/
  | readLines (i : Ino) (max : ℕ)
  /-- `fopen` for writing: create or truncate. -/
  | openWrite (n : Name)
  /-- `fprintf` of a text. -/
  | print (i : Ino) (text : Bytes)
  /-- `fflush`. -/
  | flush (i : Ino)
  /-- `fsync` on the file of a stream. -/
  | fsync (i : Ino)
  /-- `fclose` of a stream open for writing. -/
  | close (i : Ino)
  | unlink (n : Name)
  | rename (a b : Name)
  /-- `open` of the directory itself. -/
  | openDir
  /-- `fsync` of the directory. -/
  | fsyncDir
  /-- `close` of the directory. -/
  | closeDir
  /-- `opendir` and the names `readdir` delivers. -/
  | listDir
  deriving DecidableEq, Repr

/-- Why a call on a name failed: the entry is missing (`ENOENT`), or anything else. -/
inductive SysError where
  | notFound
  | other
  deriving DecidableEq, Repr

/-- What a call reports. -/
abbrev Op.Result : Op → Type
  | .stat _ => Bool
  | .openRead _ => Except SysError Ino
  | .readLines _ _ => List Bytes × Bool
  | .openWrite _ => Option Ino
  | .print _ _ => Bool
  | .flush _ => Bool
  | .fsync _ => Bool
  | .close _ => Bool
  | .unlink _ => Except SysError Unit
  | .rename _ _ => Bool
  | .openDir => Bool
  | .fsyncDir => Bool
  | .closeDir => Bool
  | .listDir => Option (List Name)

/-- What the environment decides about one call: whether it fails, what a failing write leaves in
the file, how many lines a failing read delivers or how many buffered bytes a print writes
through, and the order of a directory listing. -/
structure Choice where
  fail : Bool
  junk : Bytes
  count : ℕ
  listing : List Name
  deriving DecidableEq, Repr

/-- The call succeeds. -/
def Choice.Fine (c : Choice) : Prop := c.fail = false

instance (c : Choice) : Decidable c.Fine := inferInstanceAs (Decidable (_ = _))

/-- A choice for a call that succeeds. -/
def Choice.fine : Choice := ⟨false, [], 0, []⟩

namespace File

/-- The bytes written so far, buffered ones included. -/
def text (f : File) : Bytes := f.data ++ f.buffered

/-- `count` bytes move from the buffer to the file. -/
def writeThrough (f : File) (count : ℕ) : File :=
  ⟨f.data ++ f.buffered.take count, f.buffered.drop count,
    f.synced && (f.buffered.take count).isEmpty⟩

/-- A failed write: some bytes are in the file, the buffer is lost. -/
def spoiled (junk : Bytes) : File := ⟨junk, [], false⟩

end File

/-- One call: its report and the disk after it.  A listing has all entries, in any order. -/
def perform (d : Disk) (o : Op) (c : Choice) : o.Result × Disk :=
  match o with
  | .stat n => (!c.fail && (d.lookup n).isSome, d)
  | .openRead n =>
    if c.fail then (.error .other, d)
    else match d.lookup n with
      | none => (.error .notFound, d)
      | some i => (.ok i, d)
  | .readLines i max =>
    let lines := pieces max (d.files i).data
    (if c.fail then lines.take c.count else lines, c.fail) |> (·, d)
  | .openWrite n =>
    if c.fail then (none, d)
    else match d.lookup n with
      | some i => (some i, d.modifyFile i fun _ => ⟨[], [], false⟩)
      | none => (some d.fresh, d.create n)
  | .print i text =>
    if c.fail then (false, d.modifyFile i fun _ => File.spoiled c.junk)
    else (true, d.modifyFile i fun f =>
      File.writeThrough { f with buffered := f.buffered ++ text } c.count)
  | .flush i =>
    if c.fail then (false, d.modifyFile i fun _ => File.spoiled c.junk)
    else (true, d.modifyFile i fun f => f.writeThrough f.buffered.length)
  | .fsync i =>
    if c.fail then (false, d) else (true, d.modifyFile i fun f => { f with synced := true })
  | .close i =>
    if c.fail then (false, d.modifyFile i fun f =>
      if f.buffered = [] then f else File.spoiled c.junk)
    else (true, d.modifyFile i fun f => f.writeThrough f.buffered.length)
  | .unlink n =>
    if c.fail then (.error .other, d)
    else if (d.lookup n).isSome then (.ok (), d.change (.unlink n))
    else (.error .notFound, d)
  | .rename a b =>
    if c.fail then (false, d)
    else match d.lookup a with
      | none => (false, d)
      | some i => (true, d.change (.rename a b i))
  | .openDir => (!c.fail, d)
  | .fsyncDir => if c.fail then (false, d) else (true, d.syncDir)
  | .closeDir => (!c.fail, d)
  | .listDir =>
    if c.fail then (none, d)
    else (some (if c.listing.isPerm d.current.keys then c.listing else d.current.keys), d)

namespace Disk

variable {d : Disk} {n m : Name} {i j : Ino} {data : Bytes} {c : Choice}

/-! ## The visible directory -/

@[simp] theorem current_modifyFile (f : File → File) : (d.modifyFile i f).current = d.current := rfl

@[simp] theorem lookup_modifyFile (f : File → File) :
    (d.modifyFile i f).lookup n = d.lookup n := rfl

@[simp] theorem files_modifyFile_self (f : File → File) :
    (d.modifyFile i f).files i = f (d.files i) := by simp [modifyFile]

theorem files_modifyFile_of_ne (f : File → File) (h : j ≠ i) :
    (d.modifyFile i f).files j = d.files j := by simp [modifyFile, h]

@[simp] theorem current_change (x : Change) : (d.change x).current = x.apply d.current := by
  simp [current, change, Change.applyAll_append]

theorem lookup_change (x : Change) : (d.change x).lookup n = (x.apply d.current).lookup n := by
  rw [lookup, current_change]

/-- A change leaves the entries of the other names visible as they are. -/
theorem lookup_change_of_not_touches {x : Change} (h : ¬ x.Touches n) :
    (d.change x).lookup n = d.lookup n := by
  rw [lookup_change, Change.lookup_apply_of_not_touches h]; rfl

/-- A change of other names leaves the contents under a name as they are. -/
theorem contents_change {x : Change} (h : ¬ x.Touches n) :
    (d.change x).contents n = d.contents n := by
  rw [contents, lookup_change_of_not_touches h]
  rfl

/-- Fsyncing the directory changes nothing that a process sees. -/
@[simp] theorem contents_syncDir : d.syncDir.contents n = d.contents n := rfl

/-- The next process sees everything that a killed one did. -/
@[simp] theorem contents_kill : d.kill.contents n = d.contents n := rfl

/-- The names with an entry. -/
theorem mem_keys : n ∈ d.current.keys ↔ (d.lookup n).isSome = true := by
  rw [lookup, AList.lookup_isSome, AList.mem_keys]

/-- The listing of a directory names its entries, each once. -/
theorem mem_listing {listing : List Name} :
    n ∈ (if listing.isPerm d.current.keys then listing else d.current.keys) ↔
      (d.lookup n).isSome = true := by
  rw [← mem_keys]
  split_ifs with h
  · exact (List.isPerm_iff.mp h).mem_iff
  · rfl

/-! ## Well-formed disks -/

/-- On disk, or by a pending change, the name `n` leads to the file `i`. -/
def Names (d : Disk) (n : Name) (i : Ino) : Prop :=
  d.durable.lookup n = some i ∨ ∃ c ∈ d.pending, c.Names n i

/-- A visible entry is named on disk or by a pending change. -/
theorem names_of_lookup (h : d.lookup n = some i) : d.Names n i :=
  (Change.names_of_lookup_applyAll h).symm

/-- No name leads past the allocated inodes, and no file has two names, whichever pending changes
survive. -/
structure WF (d : Disk) : Prop where
  lt_fresh : ∀ n i, d.Names n i → i < d.fresh
  injective : ∀ n m i, d.Names n i → d.Names m i → n = m

/-- Changing a file changes no entry. -/
theorem WF.modifyFile (h : d.WF) (f : File → File) : (d.modifyFile i f).WF :=
  ⟨h.lt_fresh, h.injective⟩

/-- A created file is visible under its name, and no other entry changes. -/
theorem lookup_create : (d.create n).lookup m = if m = n then some d.fresh else d.lookup m := by
  change (d.change (.link n d.fresh)).lookup m = _
  rw [lookup_change]
  split_ifs with hm
  · rw [hm]; exact AList.lookup_insert _
  · exact AList.lookup_insert_ne hm

/-- A file that has been opened for writing is visible under its name. -/
theorem lookup_openWrite (hopened : (perform d (.openWrite n) c).1 = some i) :
    (perform d (.openWrite n) c).2.lookup n = some i := by
  revert hopened
  simp only [perform]
  split_ifs
  · exact fun hopened => by cases hopened
  · split
    · rename_i j hj
      exact fun hopened => hj.trans hopened
    · intro hopened
      rw [lookup_create, if_pos rfl]
      exact hopened

/-- One more change names what it names. -/
theorem names_change {x : Change} : (d.change x).Names n i ↔ d.Names n i ∨ x.Names n i := by
  simp only [Names, change, List.mem_append, List.mem_singleton, or_and_right, exists_or,
    exists_eq_left, or_assoc]

/-- A new entry with an unused inode keeps well-formedness. -/
theorem WF.create (h : d.WF) (n : Name) : (d.create n).WF := by
  have hnames : ∀ m i, (d.create n).Names m i → d.Names m i ∨ m = n ∧ i = d.fresh := by
    intro m i hm
    have hm : (d.change (.link n d.fresh)).Names m i := hm
    rw [names_change] at hm
    exact hm.imp_right fun hx => ⟨hx.1.symm, hx.2.symm⟩
  constructor
  · intro m i hm
    rcases hnames m i hm with hm | ⟨-, rfl⟩
    · exact (h.lt_fresh m i hm).trans (Nat.lt_succ_self _)
    · exact Nat.lt_succ_self _
  · intro m k i hm hk
    rcases hnames m i hm with hm | ⟨hmn, hi⟩ <;> rcases hnames k i hk with hk | ⟨hkn, hi'⟩
    · exact h.injective m k i hm hk
    · exact absurd (h.lt_fresh m i hm) (by rw [hi']; exact lt_irrefl _)
    · exact absurd (h.lt_fresh k i hk) (by rw [hi]; exact lt_irrefl _)
    · rw [hmn, hkn]

/-- An unlink keeps well-formedness. -/
theorem WF.unlink (h : d.WF) (n : Name) : (d.change (.unlink n)).WF := by
  have hnames : ∀ m i, (d.change (.unlink n)).Names m i → d.Names m i := fun m i hm =>
    (names_change.mp hm).resolve_right id
  exact ⟨fun m i hm => h.lt_fresh m i (hnames m i hm),
    fun m k i hm hk => h.injective m k i (hnames m i hm) (hnames k i hk)⟩

/-- A settled directory is well formed when all its entries are entries of a well-formed disk. -/
theorem WF.settled (h : d.WF) {d' : Disk} (hpending : d'.pending = [])
    (hfresh : d'.fresh = d.fresh)
    (hentries : ∀ n i, d'.durable.lookup n = some i → d.Names n i) : d'.WF := by
  have hnames : ∀ n i, d'.Names n i → d.Names n i := by
    rintro n i (hn | ⟨c, hc, -⟩)
    · exact hentries n i hn
    · rw [hpending] at hc; cases hc
  exact ⟨fun n i hn => hfresh ▸ h.lt_fresh n i (hnames n i hn),
    fun n m i hn hm => h.injective n m i (hnames n i hn) (hnames m i hm)⟩

/-- Fsyncing the directory keeps well-formedness. -/
theorem WF.syncDir (h : d.WF) : d.syncDir.WF :=
  h.settled rfl rfl fun _ _ hn => names_of_lookup hn

/-- An entry that survives a crash was named before. -/
theorem names_of_crash {keep : List Bool} {junk : Ino → Bytes}
    (h : (d.crash keep junk).durable.lookup n = some i) : d.Names n i := by
  rcases Change.names_of_lookup_applyAll h with ⟨c, hc, hn⟩ | h
  · exact Or.inr ⟨c, (Change.kept_sublist _ _).subset hc, hn⟩
  · exact Or.inl h

/-- **A crash keeps well-formedness.** -/
theorem WF.crash (h : d.WF) (keep : List Bool) (junk : Ino → Bytes) : (d.crash keep junk).WF :=
  h.settled rfl rfl fun _ _ hn => names_of_crash hn

/-! ## What a call can do -/

/-- **Everything a call can do to the disk.**  A call does nothing, changes the one file it
names, truncates or creates the file it opens, makes the directory change it is for, or makes the
pending changes durable. -/
inductive Effect (d : Disk) : Op → Disk → Prop
  | nothing (o : Op) : Effect d o d
  | print {i : Ino} {text : Bytes} (f : File → File) : Effect d (.print i text) (d.modifyFile i f)
  | flush {i : Ino} (f : File → File) : Effect d (.flush i) (d.modifyFile i f)
  | fsync {i : Ino} (f : File → File) : Effect d (.fsync i) (d.modifyFile i f)
  | close {i : Ino} (f : File → File) : Effect d (.close i) (d.modifyFile i f)
  | truncate {n : Name} {i : Ino} (h : d.lookup n = some i) (f : File → File) :
      Effect d (.openWrite n) (d.modifyFile i f)
  | create {n : Name} (h : d.lookup n = none) : Effect d (.openWrite n) (d.create n)
  | unlink {n : Name} : Effect d (.unlink n) (d.change (.unlink n))
  | rename {a b : Name} {i : Ino} (h : d.lookup a = some i) :
      Effect d (.rename a b) (d.change (.rename a b i))
  | syncDir : Effect d .fsyncDir d.syncDir

/-- **The effect of a call**, whatever the environment decides. -/
theorem perform_effect (d : Disk) (o : Op) (c : Choice) : Effect d o (perform d o c).2 := by
  cases o with
  | stat n => exact .nothing _
  | openRead n =>
    simp only [perform]
    split
    · exact .nothing _
    · split <;> exact .nothing _
  | readLines i max => exact .nothing _
  | openWrite n =>
    simp only [perform]
    split
    · exact .nothing _
    · split <;> dsimp only
      · exact .truncate ‹_› _
      · exact .create ‹_›
  | print i text => simp only [perform]; split <;> dsimp only <;> exact .print _
  | flush i => simp only [perform]; split <;> dsimp only <;> exact .flush _
  | fsync i =>
    simp only [perform]
    split <;> dsimp only
    · exact .nothing _
    · exact .fsync _
  | close i => simp only [perform]; split <;> dsimp only <;> exact .close _
  | unlink n =>
    simp only [perform]
    split
    · exact .nothing _
    · split
      · exact .unlink
      · exact .nothing _
  | rename a b =>
    simp only [perform]
    split
    · exact .nothing _
    · split <;> dsimp only
      · exact .nothing _
      · exact .rename ‹_›
  | openDir => exact .nothing _
  | fsyncDir =>
    simp only [perform]
    split
    · exact .nothing _
    · exact .syncDir
  | closeDir => exact .nothing _
  | listDir => simp only [perform]; split <;> exact .nothing _

/-- **Every call but a rename keeps well-formedness.**  Between a rename and the fsync of the
directory the file has its old name on disk and its new one pending. -/
theorem WF.of_effect (h : d.WF) {o : Op} {d' : Disk} (ho : ∀ a b, o ≠ .rename a b)
    (he : Effect d o d') : d'.WF := by
  cases he with
  | nothing => exact h
  | print f | flush f | fsync f | close f => exact h.modifyFile f
  | truncate _ f => exact h.modifyFile f
  | create => exact h.create _
  | unlink => exact h.unlink _
  | rename => exact absurd rfl (ho _ _)
  | syncDir => exact h.syncDir

/-! ## Fixed entries -/

/-- The entry of the name `n` is `v` on disk, and no pending change touches the name: no crash
can change it. -/
structure Fixed (d : Disk) (n : Name) (v : Option Ino) : Prop where
  durable : d.durable.lookup n = v
  quiet : ∀ x ∈ d.pending, ¬ x.Touches n

variable {v : Option Ino}

/-- A fixed entry is what a process sees. -/
theorem Fixed.lookup (h : d.Fixed n v) : d.lookup n = v := by
  rw [Disk.lookup, current, Change.lookup_applyAll h.quiet, h.durable]

/-- A crash leaves a fixed entry as it is. -/
theorem Fixed.crash (h : d.Fixed n v) (keep : List Bool) (junk : Ino → Bytes) :
    (d.crash keep junk).Fixed n v where
  durable := by
    have hq : ∀ x ∈ Change.kept d.pending keep, ¬ x.Touches n := fun x hx =>
      h.quiet x ((Change.kept_sublist _ _).subset hx)
    exact (Change.lookup_applyAll hq _).trans h.durable
  quiet := by simp [Disk.crash]

/-- A change of other names leaves a fixed entry as it is. -/
theorem Fixed.change (h : d.Fixed n v) {x : Change} (hx : ¬ x.Touches n) :
    (d.change x).Fixed n v := by
  refine ⟨h.durable, fun y hy => ?_⟩
  rcases List.mem_append.mp hy with hy | hy
  · exact h.quiet y hy
  · obtain rfl := List.mem_singleton.mp hy
    exact hx

/-- What a process sees is fixed once the directory is fsynced. -/
theorem fixed_syncDir (h : d.lookup n = v) : d.syncDir.Fixed n v :=
  ⟨h, by simp [Disk.syncDir]⟩

/-- A call that does not concern the name `n`. -/
def SparesName (n : Name) : Op → Prop
  | .openWrite m | .unlink m => m ≠ n
  | .rename a b => a ≠ n ∧ b ≠ n
  | _ => True

/-- **A call on other names leaves a fixed entry as it is.** -/
theorem Fixed.of_effect (h : d.Fixed n v) {o : Op} {d' : Disk} (ho : SparesName n o)
    (he : Effect d o d') : d'.Fixed n v := by
  cases he with
  | nothing => exact h
  | print | flush | fsync | close | truncate => exact ⟨h.durable, h.quiet⟩
  | @create m =>
    have hc := @Fixed.change _ _ _ h (.link m d.fresh) ho
    exact ⟨hc.durable, hc.quiet⟩
  | unlink => exact h.change ho
  | rename => exact h.change (not_or.mpr ho)
  | syncDir => exact fixed_syncDir h.lookup

/-! ## Pinned files -/

/-- The entry `n` and the contents of its file are durable: the entry is fixed, and the file is
fsynced. -/
structure Pinned (d : Disk) (n : Name) (i : Ino) (data : Bytes) : Prop
    extends d.Fixed n (some i) where
  data : (d.files i).data = data
  synced : (d.files i).synced = true

/-- A pinned file shows its contents. -/
theorem Pinned.contents (h : d.Pinned n i data) : d.contents n = some data := by
  rw [Disk.contents, h.lookup, Option.map_some, h.data]

/-- **A crash leaves a pinned file** and its entry as they are. -/
theorem Pinned.crash (h : d.Pinned n i data) (keep : List Bool) (junk : Ino → Bytes) :
    (d.crash keep junk).Pinned n i data where
  toFixed := h.toFixed.crash keep junk
  data := by simp [Disk.crash, h.synced, h.data]
  synced := rfl

/-- Changing another file keeps a file pinned. -/
theorem Pinned.modifyFile (h : d.Pinned n i data) (hj : j ≠ i) (f : File → File) :
    (d.modifyFile j f).Pinned n i data where
  toFixed := ⟨h.durable, h.quiet⟩
  data := by rw [files_modifyFile_of_ne f hj.symm]; exact h.data
  synced := by rw [files_modifyFile_of_ne f hj.symm]; exact h.synced

/-- A visible entry of a fsynced file is pinned once the directory is fsynced. -/
theorem pinned_syncDir (hl : d.lookup n = some i) (hd : (d.files i).data = data)
    (hs : (d.files i).synced = true) : d.syncDir.Pinned n i data :=
  ⟨fixed_syncDir hl, hd, hs⟩

/-- A call that does not write to the file `i`. -/
def SparesFile (i : Ino) : Op → Prop
  | .print j _ | .flush j | .fsync j | .close j => j ≠ i
  | _ => True

/-- **A call on other names and other files keeps a file pinned.** -/
theorem Pinned.of_effect (h : d.Pinned n i data) (hwf : d.WF) {o : Op} {d' : Disk}
    (hn : SparesName n o) (hi : SparesFile i o) (he : Effect d o d') : d'.Pinned n i data := by
  have hfixed := h.toFixed.of_effect hn he
  cases he with
  | nothing => exact h
  | print f | flush f | fsync f | close f => exact h.modifyFile hi f
  | truncate hj f =>
    refine h.modifyFile ?_ f
    rintro rfl
    exact hn (hwf.injective _ _ _ (names_of_lookup hj) (names_of_lookup h.lookup))
  | create =>
    have hfresh : i ≠ d.fresh := (hwf.lt_fresh n i (names_of_lookup h.lookup)).ne
    exact ⟨hfixed, by simp [Disk.create, hfresh, h.data], by simp [Disk.create, hfresh, h.synced]⟩
  | unlink | rename | syncDir => exact ⟨hfixed, h.data, h.synced⟩

/-! ## A pending rename -/

/-- **A crash after one more change** finds that change made, on top of what survived of the
others, or not made. -/
theorem crash_change (d : Disk) (x : Change) (keep : List Bool) (junk : Ino → Bytes) :
    (d.change x).crash keep junk = d.crash keep junk ∨
      (d.change x).crash keep junk =
        { d.crash keep junk with durable := x.apply (d.crash keep junk).durable } := by
  rcases Change.kept_concat d.pending x keep with h | h
  · left; rw [crash, change, h]; rfl
  · right; rw [crash, change, h, Change.applyAll_append]; rfl

variable {a b : Name}

/-- A settled directory in which a visible entry of a well-formed disk has been renamed. -/
theorem WF.renamed (h : d.WF) (ha : d.lookup a = some i) {dir : Dir} {d' : Disk}
    (hdir : ∀ n j, dir.lookup n = some j → d.Names n j) (hpending : d'.pending = [])
    (hfresh : d'.fresh = d.fresh) (hdurable : d'.durable = (Change.rename a b i).apply dir) :
    d'.WF := by
  have hnames : ∀ n j, d'.Names n j → n = b ∧ j = i ∨ n ≠ a ∧ d.Names n j := by
    rintro n j (hn | ⟨c, hc, -⟩)
    · rw [hdurable, Change.apply] at hn
      by_cases hnb : n = b
      · rw [hnb, AList.lookup_insert] at hn
        exact Or.inl ⟨hnb, by simpa using hn.symm⟩
      · rw [AList.lookup_insert_ne hnb] at hn
        by_cases hna : n = a
        · rw [hna] at hn; simp at hn
        · rw [AList.lookup_erase_ne hna] at hn
          exact Or.inr ⟨hna, hdir n j hn⟩
    · rw [hpending] at hc; cases hc
  have hi := names_of_lookup ha
  constructor
  · intro n j hn
    rw [hfresh]
    rcases hnames n j hn with ⟨-, rfl⟩ | ⟨-, hn⟩
    · exact h.lt_fresh a _ hi
    · exact h.lt_fresh n j hn
  · intro n m j hn hm
    rcases hnames n j hn with ⟨rfl, rfl⟩ | ⟨hna, hn⟩ <;>
      rcases hnames m _ hm with ⟨rfl, hj⟩ | ⟨hma, hm⟩
    · rfl
    · exact absurd (h.injective m a _ hm hi) hma
    · exact absurd (h.injective n a _ (hj ▸ hn) hi) hna
    · exact h.injective n m j hn hm

/-- A crash while a rename is pending leaves a well-formed disk. -/
theorem WF.rename_crash (h : d.WF) (ha : d.lookup a = some i) (keep : List Bool)
    (junk : Ino → Bytes) : ((d.change (.rename a b i)).crash keep junk).WF := by
  rcases crash_change d (.rename a b i) keep junk with hc | hc <;> rw [hc]
  · exact h.crash keep junk
  · exact h.renamed ha (fun _ _ hn => names_of_crash hn) rfl rfl rfl

/-- So does the fsync of the directory. -/
theorem WF.rename_syncDir (h : d.WF) (ha : d.lookup a = some i) :
    (d.change (.rename a b i)).syncDir.WF :=
  h.renamed ha (fun _ _ hn => names_of_lookup hn) rfl rfl (current_change _)

end Disk
