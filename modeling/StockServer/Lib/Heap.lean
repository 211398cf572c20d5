import Mathlib.Data.Finmap
import Mathlib.Data.Finset.Lattice.Fold
import Mathlib.Order.Lattice.Nat

set_option relaxedAutoImplicit false
set_option autoImplicit false

/-!
# Programs over a heap of cells

A heap is a finite map from addresses to cells, with nothing under the null pointer.  A program
reads and writes allocated cells, allocates and frees them, and recurses on a bounded stack of
frames.  Whatever C leaves undefined is a fault: access through a null or dangling pointer, and a
second release.

The allocator is a parameter.  Its results may depend on a state of its own, so that nothing is
known of the address it returns but that it was free.

`Does` is a Hoare logic for these programs: no fault, no overflow of the stack, an exit only where
one is allowed, and a postcondition on the value and the memory.

## Main definitions

* `Heap`, `Memory`, `Allocator` — the cells, the cells with the allocator's state, and what
  `malloc` may return.
* `HeapProg`, `HeapResult` — programs, and how they end.
* `HeapProg.load`, `update`, `malloc`, `free`, `exit`, `overflow` — the primitive programs.
* `HeapProg.Does` — the triple.

## Main results

* `HeapProg.Does.bind`, `Does.mono` — the sequencing and consequence rules.
* `HeapProg.does_load`, `does_update`, `does_malloc`, `does_free` — the rules of the primitives.
-/

/-- An address; `0` is the null pointer. -/
abbrev Addr := ℕ

/-- The allocated cells. -/
abbrev Heap (Cell : Type*) := Finmap fun _ : Addr => Cell

/-- The heap and the state of the allocator.  There is no cell at the null pointer. -/
@[ext]
structure Memory (Cell σ : Type*) where
  heap : Heap Cell
  null : heap.lookup 0 = none
  allocator : σ

/-- `malloc` as a function of the allocator's state and the heap: it fails, or returns an address
that is not null and not in use. -/
structure Allocator (Cell σ : Type*) where
  malloc : σ → Heap Cell → Option Addr × σ
  ne_zero : ∀ s h a, (malloc s h).1 = some a → a ≠ 0
  free : ∀ s h a, (malloc s h).1 = some a → h.lookup a = none

/-- The allocator refuses some request. -/
def Allocator.CanFail {Cell σ : Type*} (A : Allocator Cell σ) : Prop :=
  ∃ s h, (A.malloc s h).1 = none

/-- The allocator that takes the first address above all those in use. -/
def Allocator.firstAbove (Cell : Type*) : Allocator Cell Unit where
  malloc _ h := (some (h.keys.sup id + 1), ())
  ne_zero _ h a ha := by
    obtain rfl := Option.some.inj ha
    exact Nat.succ_ne_zero _
  free _ h a ha := by
    obtain rfl := Option.some.inj ha
    rw [Finmap.lookup_eq_none, ← Finmap.mem_keys]
    intro hmem
    have hle : h.keys.sup id + 1 ≤ h.keys.sup id := @Finset.le_sup _ _ _ _ h.keys id _ hmem
    exact Nat.not_succ_le_self _ hle

/-- It never fails. -/
theorem Allocator.not_canFail_firstAbove (Cell : Type*) :
    ¬ (Allocator.firstAbove Cell).CanFail := by
  rintro ⟨s, h, hnone⟩
  cases hnone

namespace Memory

variable {Cell σ : Type*} (m : Memory Cell σ)

/-- The memory with a cell at an address that is not null. -/
def write (a : Addr) (c : Cell) (ha : a ≠ 0) : Memory Cell σ where
  heap := m.heap.insert a c
  null := by rw [Finmap.lookup_insert_of_ne _ ha.symm, m.null]
  allocator := m.allocator

/-- The memory with no cell in use. -/
def empty (Cell : Type*) (s : σ) : Memory Cell σ where
  heap := ∅
  null := Finmap.lookup_empty 0
  allocator := s

/-- The memory without the cell at an address. -/
def erase (a : Addr) : Memory Cell σ where
  heap := m.heap.erase a
  null := by
    by_cases ha : (0 : Addr) = a
    · rw [← ha, Finmap.lookup_erase]
    · rw [Finmap.lookup_erase_ne ha, m.null]
  allocator := m.allocator

/-- An address in use is not null. -/
theorem ne_zero {a : Addr} {c : Cell} (h : m.heap.lookup a = some c) : a ≠ 0 := by
  rintro rfl
  rw [m.null] at h
  cases h

@[simp] theorem write_heap {a : Addr} (c : Cell) (ha : a ≠ 0) :
    (m.write a c ha).heap = m.heap.insert a c := rfl

@[simp] theorem erase_heap (a : Addr) : (m.erase a).heap = m.heap.erase a := rfl

end Memory

/-! ## Programs -/

/-- How a program ends. -/
inductive HeapResult (α : Type*) where
  /-- It returns a value. -/
  | done (value : α)
  /-- It ends the process. -/
  | exit
  /-- It does what the language leaves undefined. -/
  | fault
  /-- It calls deeper than the stack is. -/
  | overflow

/-- A program over a heap. -/
def HeapProg (Cell σ α : Type*) := Memory Cell σ → HeapResult (α × Memory Cell σ)

namespace HeapProg

universe u

variable {Cell σ : Type*} {α β : Type u}

/-- Run one program after another; only a value goes on. -/
protected def bind (p : HeapProg Cell σ α) (f : α → HeapProg Cell σ β) : HeapProg Cell σ β :=
  fun m =>
    match p m with
    | .done (a, m') => f a m'
    | .exit => .exit
    | .fault => .fault
    | .overflow => .overflow

instance : Monad (HeapProg Cell σ) where
  pure a := fun m => .done (a, m)
  bind := HeapProg.bind

/-- There is no frame left for a call. -/
def overflow : HeapProg Cell σ α := fun _ => .overflow

/-- End the process. -/
def exit : HeapProg Cell σ α := fun _ => .exit

/-- Read the cell at an address. -/
def load (a : Addr) : HeapProg Cell σ Cell := fun m =>
  match m.heap.lookup a with
  | none => .fault
  | some c => .done (c, m)

/-- Write to the cell at an address. -/
def update (a : Addr) (f : Cell → Cell) : HeapProg Cell σ Unit := fun m =>
  match h : m.heap.lookup a with
  | none => .fault
  | some c => .done ((), m.write a (f c) (m.ne_zero h))

/-- `malloc` of a cell, which the caller then initializes; the process ends where it fails. -/
def malloc (A : Allocator Cell σ) (c : Cell) : HeapProg Cell σ Addr := fun m =>
  match h : A.malloc m.allocator m.heap with
  | (none, _) => .exit
  | (some a, s) =>
    .done (a, { m with allocator := s }.write a c
      (A.ne_zero m.allocator m.heap a (congrArg Prod.fst h)))

/-- `free`: nothing at the null pointer, else the cell must be allocated. -/
def free (a : Addr) : HeapProg Cell σ Unit := fun m =>
  if a = 0 then .done ((), m)
  else
    match m.heap.lookup a with
    | none => .fault
    | some _ => .done ((), m.erase a)

theorem bind_of_done {p : HeapProg Cell σ α} {f : α → HeapProg Cell σ β} {m m' : Memory Cell σ}
    {a : α} (h : p m = .done (a, m')) : (p >>= f) m = f a m' := by
  change HeapProg.bind p f m = f a m'
  rw [HeapProg.bind, h]

theorem bind_of_overflow {p : HeapProg Cell σ α} {f : α → HeapProg Cell σ β}
    {m : Memory Cell σ} (h : p m = .overflow) : (p >>= f) m = .overflow := by
  change HeapProg.bind p f m = .overflow
  rw [HeapProg.bind, h]

/-! ## The logic -/

/-- The program neither faults nor overflows, exits only if it may, and returns in a state that
meets the postcondition. -/
def Does (mayExit : Prop) (p : HeapProg Cell σ α) (m : Memory Cell σ)
    (post : α → Memory Cell σ → Prop) : Prop :=
  match p m with
  | .done (a, m') => post a m'
  | .exit => mayExit
  | .fault => False
  | .overflow => False

variable {mayExit mayExit' : Prop} {p : HeapProg Cell σ α} {m : Memory Cell σ}
  {post post' : α → Memory Cell σ → Prop}

/-- A program that may not exit returns. -/
theorem Does.done (h : Does False p m post) : ∃ a m', p m = .done (a, m') ∧ post a m' := by
  rw [Does] at h
  rcases hp : p m with ⟨a, m'⟩ | _ | _ | _ <;> rw [hp] at h
  · exact ⟨a, m', rfl, h⟩
  all_goals exact h.elim

/-- A program that returns meets what its value and memory meet. -/
theorem does_of_done {a : α} {m' : Memory Cell σ} (h : p m = .done (a, m')) (hpost : post a m') :
    Does mayExit p m post := by
  rw [Does, h]
  exact hpost

/-- Returning a value. -/
theorem does_pure {a : α} (h : post a m) : Does mayExit (pure a) m post := h

/-- **The consequence rule.** -/
theorem Does.mono (h : Does mayExit p m post) (he : mayExit → mayExit')
    (hpost : ∀ a m', post a m' → post' a m') : Does mayExit' p m post' := by
  rw [Does] at h ⊢
  rcases hp : p m with ⟨a, m'⟩ | _ | _ | _ <;> rw [hp] at h
  exacts [hpost a m' h, he h, h, h]

/-- **The sequencing rule.** -/
theorem Does.bind {f : α → HeapProg Cell σ β} {post' : β → Memory Cell σ → Prop}
    (h : Does mayExit p m post) (hf : ∀ a m', post a m' → Does mayExit (f a) m' post') :
    Does mayExit (p >>= f) m post' := by
  have hbind : (p >>= f) m = HeapProg.bind p f m := rfl
  rw [Does] at h
  rw [Does, hbind, HeapProg.bind]
  rcases hp : p m with ⟨a, m'⟩ | _ | _ | _ <;> rw [hp] at h
  exacts [hf a m' h, h, h, h]

/-- A read of an allocated cell succeeds. -/
theorem load_eq {a : Addr} {c : Cell} (h : m.heap.lookup a = some c) :
    load a m = .done (c, m) := by
  rw [load, h]

/-- The rule of a read. -/
theorem does_load {a : Addr} {c : Cell} (h : m.heap.lookup a = some c) :
    Does mayExit (load a) m fun c' m' => c' = c ∧ m' = m :=
  does_of_done (load_eq h) ⟨rfl, rfl⟩

/-- A write to an allocated cell succeeds. -/
theorem update_eq {a : Addr} {c : Cell} (h : m.heap.lookup a = some c) (f : Cell → Cell) :
    update a f m = .done ((), m.write a (f c) (m.ne_zero h)) := by
  unfold update
  split
  next hn => rw [h] at hn; cases hn
  next c' hs =>
    obtain rfl : c' = c := Option.some.inj (hs.symm.trans h)
    rfl

/-- The rule of a write. -/
theorem does_update {a : Addr} {c : Cell} (h : m.heap.lookup a = some c) (f : Cell → Cell) :
    Does mayExit (update a f) m fun _ m' => m'.heap = m.heap.insert a (f c) :=
  does_of_done (update_eq h f) rfl

/-- Allocating a cell. -/
theorem does_malloc (A : Allocator Cell σ) (c : Cell) :
    Does A.CanFail (malloc A c) m fun a m' =>
      a ≠ 0 ∧ m.heap.lookup a = none ∧ m'.heap = m.heap.insert a c := by
  unfold Does malloc
  split
  next a m' hx =>
    split at hx
    next => cases hx
    next s hs =>
      cases hx
      have ha : (A.malloc m.allocator m.heap).1 = some a := congrArg Prod.fst hs
      exact ⟨A.ne_zero _ _ a ha, A.free _ _ a ha, rfl⟩
  next hx =>
    split at hx
    next s hs => exact ⟨m.allocator, m.heap, congrArg Prod.fst hs⟩
    next => cases hx
  next hx => split at hx <;> cases hx
  next hx => split at hx <;> cases hx

/-- Freeing an allocated cell. -/
theorem does_free {a : Addr} {c : Cell} (h : m.heap.lookup a = some c) :
    Does mayExit (free a) m fun _ m' => m'.heap = m.heap.erase a := by
  have hdone : free a m = .done ((), m.erase a) := by rw [free, if_neg (m.ne_zero h), h]
  exact does_of_done hdone rfl

end HeapProg
