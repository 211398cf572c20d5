import Mathlib.Algebra.BigOperators.Group.Finset.Basic
import Mathlib.Algebra.Order.BigOperators.Group.Finset
import Mathlib.Data.Fintype.Basic
import StockServer.Lib.Machine

set_option relaxedAutoImplicit false
set_option autoImplicit false

/-!
# The connection queue

The bounded queue of descriptors between the main thread and the workers: a circular array with
two indexes, a counting semaphore for free slots, one for stored descriptors, and a binary
semaphore around the indexes.  Any finite number of threads call `conn_queue_insert` and
`conn_queue_remove`; one step is one `P`, one array access, one index update or one `V` of one
thread.

## Main definitions

* `ConnQueue`, `QueuePc`, `queueStep` — the queue, where a thread is inside a call, and one action
  of a call.
* `QueueEvent`, `connQueue` — what a step shows, and the machine.
* `storedFds`, `takenFds`, `slotState` — the descriptors stored and taken, and whether a slot holds
  an unread descriptor, as the trace shows it.
* `QueueInv` — the counting invariant.

## Main results

* `QueueInv.step` — every action of every thread keeps the invariant.
* `connQueue_fifo` — descriptors are taken in the order they were stored, at most 64 are
  outstanding, and reads and writes of every slot alternate.

## Implementation notes

`front == rear` is ambiguous between an empty and a full queue.  What tells them apart is the
number of completed insertions and removals, which the semaphores and the threads between their
`P` and `V` account for.
-/

namespace StockServer

/-- `STOCK_QUEUE_SIZE`. -/
def stockQueueSize : ℕ := 64

/-- `conn_queue_t`, with the values of its three semaphores. -/
structure ConnQueue where
  fds : ℕ → Int32
  front : ℕ
  rear : ℕ
  mutex : ℕ
  slots : ℕ
  items : ℕ

/-- `conn_queue_init`: the array is not initialised. -/
def connQueueInit (fds : ℕ → Int32) : ConnQueue := ⟨fds, 0, 0, 1, stockQueueSize, 0⟩

/-- Where a thread is in `conn_queue_insert` and `conn_queue_remove`: before the action named. -/
inductive QueuePc where
  /-- In neither function. -/
  | out
  /-- `P(&queue->slots)`. -/
  | insertSlots (fd : Int32)
  /-- `P(&queue->mutex)`. -/
  | insertMutex (fd : Int32)
  /-- `queue->fds[queue->rear] = connfd`. -/
  | insertStore (fd : Int32)
  /-- `queue->rear = (queue->rear + 1) % STOCK_QUEUE_SIZE`. -/
  | insertAdvance (fd : Int32)
  /-- `V(&queue->mutex)`. -/
  | insertUnlock
  /-- `V(&queue->items)`. -/
  | insertPost
  /-- `P(&queue->items)`. -/
  | removeItems
  /-- `P(&queue->mutex)`. -/
  | removeMutex
  /-- `connfd = queue->fds[queue->front]`. -/
  | removeLoad
  /-- `queue->front = (queue->front + 1) % STOCK_QUEUE_SIZE`. -/
  | removeAdvance (fd : Int32)
  /-- `V(&queue->mutex)`. -/
  | removeUnlock (fd : Int32)
  /-- `V(&queue->slots)`. -/
  | removePost (fd : Int32)
  deriving DecidableEq, Repr

/-- What a step shows of the array and the indexes. -/
inductive QueueEvent where
  /-- A slot has been written. -/
  | wrote (slot : ℕ)
  /-- `rear` has advanced past a descriptor. -/
  | stored (fd : Int32)
  /-- A slot has been read. -/
  | read (slot : ℕ)
  /-- `front` has advanced past a descriptor. -/
  | taken (fd : Int32)
  deriving DecidableEq, Repr

/-- One action of a thread inside a call, or `none` where a `P` blocks. -/
def queueStep (q : ConnQueue) : QueuePc → Option (ConnQueue × QueuePc × List QueueEvent)
  | .out => none
  | .insertSlots fd =>
    if q.slots = 0 then none else some ({ q with slots := q.slots - 1 }, .insertMutex fd, [])
  | .insertMutex fd =>
    if q.mutex = 0 then none else some ({ q with mutex := q.mutex - 1 }, .insertStore fd, [])
  | .insertStore fd =>
    some ({ q with fds := Function.update q.fds q.rear fd }, .insertAdvance fd, [.wrote q.rear])
  | .insertAdvance fd =>
    some ({ q with rear := (q.rear + 1) % stockQueueSize }, .insertUnlock, [.stored fd])
  | .insertUnlock => some ({ q with mutex := q.mutex + 1 }, .insertPost, [])
  | .insertPost => some ({ q with items := q.items + 1 }, .out, [])
  | .removeItems =>
    if q.items = 0 then none else some ({ q with items := q.items - 1 }, .removeMutex, [])
  | .removeMutex =>
    if q.mutex = 0 then none else some ({ q with mutex := q.mutex - 1 }, .removeLoad, [])
  | .removeLoad => some (q, .removeAdvance (q.fds q.front), [.read q.front])
  | .removeAdvance fd =>
    some ({ q with front := (q.front + 1) % stockQueueSize }, .removeUnlock fd, [.taken fd])
  | .removeUnlock fd => some ({ q with mutex := q.mutex + 1 }, .removePost fd, [])
  | .removePost _ => some ({ q with slots := q.slots + 1 }, .out, [])

/-! ## Threads -/

/-- A call that a thread makes next. -/
inductive QueueCall where
  | insert (fd : Int32)
  | remove
  deriving DecidableEq, Repr

/-- The first action of a call. -/
def QueueCall.entry : QueueCall → QueuePc
  | .insert fd => .insertSlots fd
  | .remove => .removeItems

/-- The queue and where every thread is. -/
structure QueueThreads (τ : Type) where
  queue : ConnQueue
  pc : τ → QueuePc

variable {τ : Type} [DecidableEq τ]

/-- One action of a thread; a thread in neither function starts the call given. -/
def threadStep (s : QueueThreads τ) (input : τ × QueueCall) :
    QueueThreads τ × List QueueEvent :=
  if s.pc input.1 = .out then
    ({ s with pc := Function.update s.pc input.1 input.2.entry }, [])
  else match queueStep s.queue (s.pc input.1) with
    | none => (s, [])
    | some (queue, pc, events) => (⟨queue, Function.update s.pc input.1 pc⟩, events)

/-- The threads as a machine: an input names the thread that acts, and the call it makes if it is
in none. -/
def connQueue : Machine (QueueThreads τ) (τ × QueueCall) QueueEvent := ⟨threadStep⟩

/-- An initialised queue with no thread inside. -/
def queueStart (τ : Type) (fds : ℕ → Int32) : QueueThreads τ := ⟨connQueueInit fds, fun _ => .out⟩

/-! ## What a trace shows -/

/-- The descriptors stored, in the order of the advances of `rear`. -/
def storedFds (trace : List QueueEvent) : List Int32 :=
  trace.filterMap fun
    | .stored fd => some fd
    | _ => none

/-- The descriptors taken, in the order of the advances of `front`. -/
def takenFds (trace : List QueueEvent) : List Int32 :=
  trace.filterMap fun
    | .taken fd => some fd
    | _ => none

/-- One event seen from a slot that is full or not: `none` if it overwrites an unread descriptor
or reads a slot that has none. -/
def slotEvent (slot : ℕ) (full : Bool) : QueueEvent → Option Bool
  | .wrote i => if i = slot then (if full then none else some true) else some full
  | .read i => if i = slot then (if full then some false else none) else some full
  | _ => some full

/-- Whether a slot holds an unread descriptor; `none` if it was ever overwritten before it had
been read, or read before it had been written. -/
def slotState (slot : ℕ) (trace : List QueueEvent) : Option Bool :=
  trace.foldlM (slotEvent slot) false

@[simp] theorem storedFds_append (t₁ t₂ : List QueueEvent) :
    storedFds (t₁ ++ t₂) = storedFds t₁ ++ storedFds t₂ := List.filterMap_append

@[simp] theorem takenFds_append (t₁ t₂ : List QueueEvent) :
    takenFds (t₁ ++ t₂) = takenFds t₁ ++ takenFds t₂ := List.filterMap_append

/-- One more event. -/
theorem slotState_concat {slot : ℕ} {trace : List QueueEvent} {full : Bool}
    (h : slotState slot trace = some full) (e : QueueEvent) :
    slotState slot (trace ++ [e]) = slotEvent slot full e := by
  simp only [slotState] at h ⊢
  simp [List.foldlM_append, h]

/-! ## Counting threads -/

/-- The thread has taken a free slot and has not advanced `rear`. -/
def QueuePc.hasSlot : QueuePc → ℕ
  | .insertMutex _ | .insertStore _ | .insertAdvance _ => 1
  | _ => 0

/-- The thread has advanced `rear` and has not posted `items`. -/
def QueuePc.owesItem : QueuePc → ℕ
  | .insertUnlock | .insertPost => 1
  | _ => 0

/-- The thread has taken an item and has not advanced `front`. -/
def QueuePc.hasItem : QueuePc → ℕ
  | .removeMutex | .removeLoad | .removeAdvance _ => 1
  | _ => 0

/-- The thread has advanced `front` and has not posted `slots`. -/
def QueuePc.owesSlot : QueuePc → ℕ
  | .removeUnlock _ | .removePost _ => 1
  | _ => 0

/-- The thread holds the mutex. -/
def QueuePc.locked : QueuePc → ℕ
  | .insertStore _ | .insertAdvance _ | .insertUnlock | .removeLoad | .removeAdvance _
  | .removeUnlock _ => 1
  | .out | .insertSlots _ | .insertMutex _ | .insertPost | .removeItems | .removeMutex
  | .removePost _ => 0

/-- The thread has written its slot and has not advanced `rear`. -/
def QueuePc.wroteSlot : QueuePc → ℕ
  | .insertAdvance _ => 1
  | _ => 0

/-- The thread has read its slot and has not advanced `front`. -/
def QueuePc.readSlot : QueuePc → ℕ
  | .removeAdvance _ => 1
  | _ => 0

/-- A count changes by what one thread adds and takes away. -/
theorem sum_update_add [Fintype τ] {α : Type} (g : α → ℕ) (pc : τ → α) (t : τ) (p : α) :
    (∑ v, g (Function.update pc t p v)) + g (pc t) = (∑ v, g (pc v)) + g p := by
  have hupdate : ∀ v ∈ Finset.univ.erase t, g (Function.update pc t p v) = g (pc v) := by
    intro v hv
    rw [Function.update_of_ne (Finset.ne_of_mem_erase hv)]
  rw [← Finset.add_sum_erase Finset.univ _ (Finset.mem_univ t),
    ← Finset.add_sum_erase Finset.univ (fun v => g (pc v)) (Finset.mem_univ t),
    Finset.sum_congr rfl hupdate, Function.update_self]
  omega

/-- When the counts of all threads are at most one, two threads cannot both count. -/
theorem eq_of_sum_le_one [Fintype τ] {α : Type} {g : α → ℕ} {pc : τ → α}
    (h : ∑ v, g (pc v) ≤ 1) {t v : τ} (ht : 0 < g (pc t)) (hv : 0 < g (pc v)) : v = t := by
  by_contra hne
  have hsplit := Finset.add_sum_erase Finset.univ (fun u => g (pc u)) (Finset.mem_univ t)
  have hle := Finset.single_le_sum (f := fun u => g (pc u)) (fun _ _ => Nat.zero_le _)
    (Finset.mem_erase.mpr ⟨hne, Finset.mem_univ v⟩)
  omega

/-- When the counts of all threads are at most one and `t` counts, a count that only threads that
count there take part in is the count of `t`. -/
theorem sum_eq_of_sum_le_one [Fintype τ] {α : Type} {f g : α → ℕ} {pc : τ → α}
    (h : ∑ v, g (pc v) ≤ 1) {t : τ} (ht : 0 < g (pc t)) (hfg : ∀ p, f p ≠ 0 → 0 < g p) :
    ∑ v, f (pc v) = f (pc t) := by
  refine Finset.sum_eq_single t (fun v _ hv => ?_) (fun ht => absurd (Finset.mem_univ t) ht)
  by_contra hf
  exact hv (eq_of_sum_le_one h ht (hfg _ hf))

/-! ## The invariant -/

/-- Slot `i` holds one of the descriptors from number `a` up to number `b`. -/
def Occupied (a b i : ℕ) : Prop := ∃ k, a ≤ k ∧ k < b ∧ k % stockQueueSize = i

/-- The counts with `S` descriptors stored and `T` taken: the indexes are `S` and `T` modulo the
size; free slots, threads with a slot, outstanding descriptors and threads that owe a slot make up
the size; items, threads with an item and threads that owe one make up the outstanding
descriptors; and one thread at most is between `P` and `V` of the mutex. -/
structure Counts [Fintype τ] (s : QueueThreads τ) (S T : ℕ) : Prop where
  rear : s.queue.rear = S % stockQueueSize
  front : s.queue.front = T % stockQueueSize
  slots : s.queue.slots + (∑ v, (s.pc v).hasSlot) + S + (∑ v, (s.pc v).owesSlot) =
    stockQueueSize + T
  items : s.queue.items + (∑ v, (s.pc v).hasItem) + (∑ v, (s.pc v).owesItem) + T = S
  mutex : s.queue.mutex + ∑ v, (s.pc v).locked = 1

/-- **The invariant**: the counts are right, descriptors are taken in the order they were stored,
and the slots from `T` to `S` hold the outstanding descriptors. -/
structure QueueInv [Fintype τ] (s : QueueThreads τ) (trace : List QueueEvent) : Prop where
  counts : Counts s (storedFds trace).length (takenFds trace).length
  prefix_taken : takenFds trace <+: storedFds trace
  content : ∀ k fd, (takenFds trace).length ≤ k → (storedFds trace)[k]? = some fd →
    s.queue.fds (k % stockQueueSize) = fd
  writing : ∀ v fd, s.pc v = .insertAdvance fd →
    s.queue.fds ((storedFds trace).length % stockQueueSize) = fd
  loading : ∀ v fd, s.pc v = .removeAdvance fd →
    (storedFds trace)[(takenFds trace).length]? = some fd
  occupied : ∀ i, ∃ full, slotState i trace = some full ∧ (full = true ↔
    Occupied ((takenFds trace).length + ∑ v, (s.pc v).readSlot)
      ((storedFds trace).length + ∑ v, (s.pc v).wroteSlot) i)

variable [Fintype τ] {s : QueueThreads τ} {trace e : List QueueEvent} {t : τ}
  {queue : ConnQueue} {p : QueuePc} {S T S' T' : ℕ}

/-- The counts after an action of one thread. -/
theorem Counts.act (h : Counts s S T) (hrear : queue.rear = S' % stockQueueSize)
    (hfront : queue.front = T' % stockQueueSize)
    (hslots : queue.slots + p.hasSlot + S' + p.owesSlot + T =
      s.queue.slots + (s.pc t).hasSlot + S + (s.pc t).owesSlot + T')
    (hitems : queue.items + p.hasItem + p.owesItem + T' + S =
      s.queue.items + (s.pc t).hasItem + (s.pc t).owesItem + T + S')
    (hmutex : queue.mutex + p.locked = s.queue.mutex + (s.pc t).locked) :
    Counts ⟨queue, Function.update s.pc t p⟩ S' T' := by
  have h₁ := sum_update_add QueuePc.hasSlot s.pc t p
  have h₂ := sum_update_add QueuePc.owesSlot s.pc t p
  have h₃ := sum_update_add QueuePc.hasItem s.pc t p
  have h₄ := sum_update_add QueuePc.owesItem s.pc t p
  have h₅ := sum_update_add QueuePc.locked s.pc t p
  have hslots' := h.slots
  have hitems' := h.items
  have hmutex' := h.mutex
  refine ⟨hrear, hfront, ?_, ?_, ?_⟩ <;> dsimp only <;> omega

omit [DecidableEq τ] in
/-- A thread that counts in a sum. -/
theorem le_sum (g : QueuePc → ℕ) (s : QueueThreads τ) (t : τ) : g (s.pc t) ≤ ∑ v, g (s.pc v) :=
  Finset.single_le_sum (fun v _ => Nat.zero_le (g (s.pc v))) (Finset.mem_univ t)

omit [DecidableEq τ] [Fintype τ] in
theorem locked_of_wroteSlot (p : QueuePc) (h : p.wroteSlot ≠ 0) : 0 < p.locked := by
  cases p <;> simp [QueuePc.wroteSlot, QueuePc.locked] at h ⊢

omit [DecidableEq τ] [Fintype τ] in
theorem locked_of_readSlot (p : QueuePc) (h : p.readSlot ≠ 0) : 0 < p.locked := by
  cases p <;> simp [QueuePc.readSlot, QueuePc.locked] at h ⊢

/-- A step that touches neither the array nor the indexes and shows nothing. -/
theorem QueueInv.quiet (h : QueueInv s trace) (hfds : queue.fds = s.queue.fds)
    (hcounts : Counts ⟨queue, Function.update s.pc t p⟩ (storedFds trace).length
      (takenFds trace).length)
    (hwrote : p.wroteSlot = 0 ∧ (s.pc t).wroteSlot = 0)
    (hread : p.readSlot = 0 ∧ (s.pc t).readSlot = 0) :
    QueueInv ⟨queue, Function.update s.pc t p⟩ trace := by
  have hpc : ∀ {v : τ} {fd : Int32}, Function.update s.pc t p v = .insertAdvance fd ∨
      Function.update s.pc t p v = .removeAdvance fd → s.pc v = Function.update s.pc t p v := by
    intro v fd hv
    by_cases hvt : v = t
    · subst hvt
      rw [Function.update_self] at hv
      rcases hv with rfl | rfl
      · simp [QueuePc.wroteSlot] at hwrote
      · simp [QueuePc.readSlot] at hread
    · rw [Function.update_of_ne hvt]
  have hw := sum_update_add QueuePc.wroteSlot s.pc t p
  have hr := sum_update_add QueuePc.readSlot s.pc t p
  rw [hwrote.1, hwrote.2] at hw
  rw [hread.1, hread.2] at hr
  refine ⟨hcounts, h.prefix_taken, ?_, fun v fd hv => ?_, fun v fd hv => ?_, fun i => ?_⟩
  · dsimp only
    rw [hfds]
    exact h.content
  · dsimp only at hv ⊢
    rw [hfds]
    exact h.writing v fd ((hpc (Or.inl hv)).trans hv)
  · exact h.loading v fd ((hpc (Or.inr hv)).trans hv)
  · dsimp only
    rw [Nat.add_right_cancel hw, Nat.add_right_cancel hr]
    exact h.occupied i

/-- A step of the thread that holds the mutex. -/
theorem QueueInv.act (h : QueueInv s trace) (ht : (s.pc t).locked = 1)
    (hcounts : Counts ⟨queue, Function.update s.pc t p⟩ (storedFds (trace ++ e)).length
      (takenFds (trace ++ e)).length)
    (hlocked : p.locked = 1) (htakenPrefix : takenFds (trace ++ e) <+: storedFds (trace ++ e))
    (hcontent : ∀ k fd, (takenFds (trace ++ e)).length ≤ k →
      (storedFds (trace ++ e))[k]? = some fd → queue.fds (k % stockQueueSize) = fd)
    (hwriting : ∀ fd, p = .insertAdvance fd →
      queue.fds ((storedFds (trace ++ e)).length % stockQueueSize) = fd)
    (hloading : ∀ fd, p = .removeAdvance fd →
      (storedFds (trace ++ e))[(takenFds (trace ++ e)).length]? = some fd)
    (hoccupied : ∀ i full, slotState i trace = some full →
      (full = true ↔ Occupied ((takenFds trace).length + (s.pc t).readSlot)
        ((storedFds trace).length + (s.pc t).wroteSlot) i) →
      ∃ full', slotState i (trace ++ e) = some full' ∧ (full' = true ↔
        Occupied ((takenFds (trace ++ e)).length + p.readSlot)
          ((storedFds (trace ++ e)).length + p.wroteSlot) i)) :
    QueueInv ⟨queue, Function.update s.pc t p⟩ (trace ++ e) := by
  have hself : Function.update s.pc t p t = p := Function.update_self ..
  have hbefore : ∑ v, (s.pc v).locked ≤ 1 := by have := h.counts.mutex; omega
  have hafter : ∑ v, (Function.update s.pc t p v).locked ≤ 1 := by
    have := hcounts.mutex
    dsimp only at this
    omega
  have hbeforeT : 0 < (s.pc t).locked := by omega
  have hafterT : 0 < (Function.update s.pc t p t).locked := by rw [hself]; omega
  have honly : ∀ v q, Function.update s.pc t p v = q → 0 < q.locked → v = t := by
    rintro v q rfl hq
    exact eq_of_sum_le_one (g := QueuePc.locked) hafter hafterT hq
  refine ⟨hcounts, htakenPrefix, hcontent, fun v fd hv => ?_, fun v fd hv => ?_, fun i => ?_⟩
  · obtain rfl := honly v _ hv Nat.one_pos
    exact hwriting fd (hself ▸ hv)
  · obtain rfl := honly v _ hv Nat.one_pos
    exact hloading fd (hself ▸ hv)
  · dsimp only
    rw [sum_eq_of_sum_le_one hafter hafterT locked_of_readSlot,
      sum_eq_of_sum_le_one hafter hafterT locked_of_wroteSlot, hself]
    obtain ⟨full, hfull, hiff⟩ := h.occupied i
    rw [sum_eq_of_sum_le_one hbefore hbeforeT locked_of_readSlot,
      sum_eq_of_sum_le_one hbefore hbeforeT locked_of_wroteSlot] at hiff
    exact hoccupied i full hfull hiff

omit [DecidableEq τ] in
/-- What the counts say about the numbers of descriptors. -/
theorem Counts.bounds (h : Counts s S T) (t : τ) :
    T + (s.pc t).hasItem ≤ S ∧ S + (s.pc t).hasSlot ≤ stockQueueSize + T := by
  have h₁ := le_sum QueuePc.hasItem s t
  have h₂ := le_sum QueuePc.hasSlot s t
  have h₃ := h.slots
  have h₄ := h.items
  omega

/-- The store of an insertion goes to a slot that holds no unread descriptor. -/
theorem QueueInv.store (h : QueueInv s trace) {fd : Int32} (ht : s.pc t = .insertStore fd) :
    QueueInv ⟨{ s.queue with fds := Function.update s.queue.fds s.queue.rear fd },
      Function.update s.pc t (.insertAdvance fd)⟩ (trace ++ [.wrote s.queue.rear]) := by
  have hstored : storedFds (trace ++ [.wrote s.queue.rear]) = storedFds trace := by
    simp [storedFds]
  have htaken : takenFds (trace ++ [.wrote s.queue.rear]) = takenFds trace := by simp [takenFds]
  have hbounds := h.counts.bounds t
  rw [ht] at hbounds
  simp only [QueuePc.hasSlot, QueuePc.hasItem, stockQueueSize] at hbounds
  have hfree : ∀ k, (takenFds trace).length ≤ k → k < (storedFds trace).length →
      k % stockQueueSize ≠ (storedFds trace).length % stockQueueSize := by
    intro k h₁ h₂
    unfold stockQueueSize
    omega
  refine h.act (by rw [ht]; rfl) ?_ rfl ?_ ?_ ?_ ?_ ?_
  · rw [hstored, htaken]
    refine h.counts.act h.counts.rear h.counts.front ?_ ?_ ?_ <;> rw [ht] <;> rfl
  · rw [hstored, htaken]; exact h.prefix_taken
  · rw [hstored, htaken]
    intro k fd' hk hget
    have hlt := (List.getElem?_eq_some_iff.mp hget).1
    have hne : k % stockQueueSize ≠ s.queue.rear := by
      rw [h.counts.rear]
      exact hfree k hk hlt
    exact (Function.update_of_ne hne fd s.queue.fds).trans (h.content k fd' hk hget)
  · rintro fd' ⟨⟩
    rw [hstored, ← h.counts.rear]
    exact Function.update_self s.queue.rear fd s.queue.fds
  · rintro fd' ⟨⟩
  · intro i full hfull hiff
    rw [slotState_concat hfull, hstored, htaken, slotEvent]
    rw [ht] at hiff
    simp only [QueuePc.readSlot, QueuePc.wroteSlot, Nat.add_zero] at hiff ⊢
    by_cases hi : s.queue.rear = i
    · have hempty : full = false := by
        rw [← Bool.not_eq_true, hiff]
        rintro ⟨k, h₁, h₂, h₃⟩
        exact hfree k h₁ h₂ (by rw [h₃, ← hi, h.counts.rear])
      refine ⟨true, by simp [hi, hempty], iff_of_true rfl ?_⟩
      exact ⟨(storedFds trace).length, by omega, by omega, by rw [← hi, h.counts.rear]⟩
    · refine ⟨full, by simp [hi], hiff.trans ⟨?_, ?_⟩⟩
      · rintro ⟨k, h₁, h₂, h₃⟩
        exact ⟨k, h₁, by omega, h₃⟩
      · rintro ⟨k, h₁, h₂, h₃⟩
        refine ⟨k, h₁, ?_, h₃⟩
        have hne : k ≠ (storedFds trace).length := by
          rintro rfl
          exact hi (h.counts.rear.trans h₃)
        omega

/-- The advance of `rear` makes the descriptor written the next one stored. -/
theorem QueueInv.advanceRear (h : QueueInv s trace) {fd : Int32}
    (ht : s.pc t = .insertAdvance fd) :
    QueueInv ⟨{ s.queue with rear := (s.queue.rear + 1) % stockQueueSize },
      Function.update s.pc t .insertUnlock⟩ (trace ++ [.stored fd]) := by
  have hstored : storedFds (trace ++ [.stored fd]) = storedFds trace ++ [fd] := by
    simp [storedFds]
  have htaken : takenFds (trace ++ [.stored fd]) = takenFds trace := by simp [takenFds]
  have hlen : (storedFds (trace ++ [.stored fd])).length = (storedFds trace).length + 1 := by
    simp [hstored]
  refine h.act (by rw [ht]; rfl) ?_ rfl ?_ ?_ ?_ ?_ ?_
  · rw [hlen, htaken]
    refine h.counts.act ?_ h.counts.front ?_ ?_ ?_
    · simp only [h.counts.rear, stockQueueSize]; omega
    all_goals simp only [ht, QueuePc.hasSlot, QueuePc.owesSlot, QueuePc.hasItem,
      QueuePc.owesItem, QueuePc.locked]
    all_goals omega
  · rw [hstored, htaken]; exact h.prefix_taken.trans (List.prefix_append _ _)
  · rw [hstored, htaken]
    intro k fd' hk hget
    rcases Nat.lt_or_ge k (storedFds trace).length with hlt | hge
    · rw [List.getElem?_append_left hlt] at hget
      exact h.content k fd' hk hget
    · rw [List.getElem?_append_right hge] at hget
      obtain ⟨hk0, rfl⟩ : k - (storedFds trace).length = 0 ∧ fd = fd' := by
        rcases hd : k - (storedFds trace).length with _ | d <;> rw [hd] at hget <;> simp at hget
        exact ⟨rfl, hget⟩
      obtain rfl : k = (storedFds trace).length := by omega
      exact h.writing t fd ht
  · rintro fd' ⟨⟩
  · rintro fd' ⟨⟩
  · intro i full hfull hiff
    rw [slotState_concat hfull, hlen, htaken]
    rw [ht] at hiff
    exact ⟨full, rfl, hiff⟩

/-- The load of a removal reads the next descriptor to take. -/
theorem QueueInv.load (h : QueueInv s trace) (ht : s.pc t = .removeLoad) :
    QueueInv ⟨s.queue, Function.update s.pc t (.removeAdvance (s.queue.fds s.queue.front))⟩
      (trace ++ [.read s.queue.front]) := by
  have hstored : storedFds (trace ++ [.read s.queue.front]) = storedFds trace := by
    simp [storedFds]
  have htaken : takenFds (trace ++ [.read s.queue.front]) = takenFds trace := by simp [takenFds]
  have hbounds := h.counts.bounds t
  rw [ht] at hbounds
  simp only [QueuePc.hasSlot, QueuePc.hasItem] at hbounds
  refine h.act (by rw [ht]; rfl) ?_ rfl ?_ ?_ ?_ ?_ ?_
  · rw [hstored, htaken]
    refine h.counts.act h.counts.rear h.counts.front ?_ ?_ ?_ <;> rw [ht] <;> rfl
  · rw [hstored, htaken]; exact h.prefix_taken
  · rw [hstored, htaken]; exact h.content
  · rintro fd' ⟨⟩
  · rintro fd' hfd
    obtain rfl : s.queue.fds s.queue.front = fd' := by simpa using hfd
    have hlt : (takenFds trace).length < (storedFds trace).length := by omega
    rw [hstored, htaken, h.counts.front]
    have hget := List.getElem?_eq_getElem hlt
    rw [hget, h.content _ _ le_rfl hget]
  · intro i full hfull hiff
    rw [slotState_concat hfull, hstored, htaken, slotEvent]
    rw [ht] at hiff
    simp only [QueuePc.readSlot, QueuePc.wroteSlot, Nat.add_zero] at hiff ⊢
    by_cases hi : s.queue.front = i
    · have hfull' : full = true :=
        hiff.mpr ⟨(takenFds trace).length, by omega, by omega, by rw [← hi, h.counts.front]⟩
      refine ⟨false, by simp [hi, hfull'], iff_of_false (by simp) ?_⟩
      rintro ⟨k, h₁, h₂, h₃⟩
      rw [← hi, h.counts.front] at h₃
      unfold stockQueueSize at hbounds h₃
      omega
    · refine ⟨full, by simp [hi], hiff.trans ⟨?_, ?_⟩⟩
      · rintro ⟨k, h₁, h₂, h₃⟩
        have hne : k ≠ (takenFds trace).length := by
          rintro rfl
          exact hi (h.counts.front.trans h₃)
        exact ⟨k, by omega, h₂, h₃⟩
      · rintro ⟨k, h₁, h₂, h₃⟩
        exact ⟨k, by omega, h₂, h₃⟩

/-- The advance of `front` makes the descriptor read the next one taken. -/
theorem QueueInv.advanceFront (h : QueueInv s trace) {fd : Int32}
    (ht : s.pc t = .removeAdvance fd) :
    QueueInv ⟨{ s.queue with front := (s.queue.front + 1) % stockQueueSize },
      Function.update s.pc t (.removeUnlock fd)⟩ (trace ++ [.taken fd]) := by
  have hstored : storedFds (trace ++ [.taken fd]) = storedFds trace := by simp [storedFds]
  have htaken : takenFds (trace ++ [.taken fd]) = takenFds trace ++ [fd] := by simp [takenFds]
  have hlen : (takenFds (trace ++ [.taken fd])).length = (takenFds trace).length + 1 := by
    simp [htaken]
  refine h.act (by rw [ht]; rfl) ?_ rfl ?_ ?_ ?_ ?_ ?_
  · rw [hlen, hstored]
    refine h.counts.act h.counts.rear ?_ ?_ ?_ ?_
    · simp only [h.counts.front, stockQueueSize]; omega
    all_goals simp only [ht, QueuePc.hasSlot, QueuePc.owesSlot, QueuePc.hasItem,
      QueuePc.owesItem, QueuePc.locked]
    all_goals omega
  · rw [hstored, htaken, List.prefix_iff_eq_take, List.length_append, List.length_singleton,
      List.take_add_one, h.loading t fd ht, ← List.prefix_iff_eq_take.mp h.prefix_taken]
    rfl
  · rw [hlen, hstored]
    exact fun k fd' hk hget => h.content k fd' (by omega) hget
  · rintro fd' ⟨⟩
  · rintro fd' ⟨⟩
  · intro i full hfull hiff
    rw [slotState_concat hfull, hlen, hstored]
    rw [ht] at hiff
    exact ⟨full, rfl, hiff⟩

/-- A step that only moves counts between the semaphores and one thread. -/
theorem QueueInv.semaphore (h : QueueInv s trace) (hfds : queue.fds = s.queue.fds)
    (hfront : queue.front = s.queue.front) (hrear : queue.rear = s.queue.rear)
    (hslots : queue.slots + p.hasSlot + p.owesSlot =
      s.queue.slots + (s.pc t).hasSlot + (s.pc t).owesSlot)
    (hitems : queue.items + p.hasItem + p.owesItem =
      s.queue.items + (s.pc t).hasItem + (s.pc t).owesItem)
    (hmutex : queue.mutex + p.locked = s.queue.mutex + (s.pc t).locked)
    (hwrote : p.wroteSlot = 0 ∧ (s.pc t).wroteSlot = 0)
    (hread : p.readSlot = 0 ∧ (s.pc t).readSlot = 0) :
    QueueInv ⟨queue, Function.update s.pc t p⟩ (trace ++ []) := by
  rw [List.append_nil]
  refine h.quiet hfds (h.counts.act ?_ ?_ ?_ ?_ hmutex) hwrote hread
  · rw [hrear, h.counts.rear]
  · rw [hfront, h.counts.front]
  · omega
  · omega

/-- **Every action of every thread keeps the invariant.** -/
theorem QueueInv.step (h : QueueInv s trace) (input : τ × QueueCall) :
    QueueInv (threadStep s input).1 (trace ++ (threadStep s input).2) := by
  obtain ⟨t, call⟩ := input
  have hstay : QueueInv s (trace ++ []) := by rwa [List.append_nil]
  unfold threadStep
  cases ht : s.pc t with
  | out =>
    simp only [↓reduceIte]
    refine h.semaphore rfl rfl rfl ?_ ?_ ?_ ?_ ?_ <;> rw [ht] <;> cases call <;>
      simp [QueueCall.entry, QueuePc.hasSlot, QueuePc.owesSlot, QueuePc.hasItem,
        QueuePc.owesItem, QueuePc.locked, QueuePc.wroteSlot, QueuePc.readSlot]
  | insertStore fd =>
    simp only [reduceCtorEq, ↓reduceIte, queueStep]
    exact h.store ht
  | insertAdvance fd =>
    simp only [reduceCtorEq, ↓reduceIte, queueStep]
    exact h.advanceRear ht
  | removeLoad =>
    simp only [reduceCtorEq, ↓reduceIte, queueStep]
    exact h.load ht
  | removeAdvance fd =>
    simp only [reduceCtorEq, ↓reduceIte, queueStep]
    exact h.advanceFront ht
  | insertSlots fd | insertMutex fd | removeItems | removeMutex =>
    -- a `P`: it blocks, or takes one
    simp only [reduceCtorEq, ↓reduceIte, queueStep]
    split_ifs with hzero
    · exact hstay
    · refine h.semaphore rfl rfl rfl ?_ ?_ ?_ ⟨rfl, by rw [ht]; rfl⟩ ⟨rfl, by rw [ht]; rfl⟩
      all_goals simp only [ht, QueuePc.hasSlot, QueuePc.owesSlot, QueuePc.hasItem,
        QueuePc.owesItem, QueuePc.locked]
      all_goals omega
  | insertUnlock | insertPost | removeUnlock fd | removePost fd =>
    -- a `V`
    simp only [reduceCtorEq, ↓reduceIte, queueStep]
    refine h.semaphore rfl rfl rfl ?_ ?_ ?_ ?_ ?_ <;>
      simp [ht, QueuePc.hasSlot, QueuePc.owesSlot, QueuePc.hasItem, QueuePc.owesItem,
        QueuePc.locked, QueuePc.wroteSlot, QueuePc.readSlot]

omit [DecidableEq τ] in
/-- The invariant holds of an initialised queue. -/
theorem QueueInv.start (fds : ℕ → Int32) : QueueInv (queueStart τ fds) [] where
  counts := by
    constructor <;> simp [queueStart, connQueueInit, storedFds, takenFds, QueuePc.hasSlot,
      QueuePc.owesSlot, QueuePc.hasItem, QueuePc.owesItem, QueuePc.locked]
  prefix_taken := List.prefix_rfl
  content := by simp [storedFds]
  writing := by simp [queueStart]
  loading := by simp [queueStart]
  occupied i := by
    refine ⟨false, rfl, iff_of_false (by simp) ?_⟩
    rintro ⟨k, -, hk, -⟩
    simp [storedFds, queueStart, QueuePc.wroteSlot] at hk

/-- **The queue is first in, first out and never loses a slot.**  For any number of threads that
insert and remove any number of times, in any interleaving of their actions: the descriptors taken
are a prefix of those stored, at most 64 are outstanding, and no slot is overwritten before it has
been read or read before it has been written. -/
theorem connQueue_fifo (fds : ℕ → Int32) (inputs : List (τ × QueueCall)) :
    let trace := (connQueue.run (queueStart τ fds) inputs).2
    takenFds trace <+: storedFds trace ∧
      (storedFds trace).length ≤ (takenFds trace).length + stockQueueSize ∧
      ∀ slot, (slotState slot trace).isSome := by
  intro trace
  have h : QueueInv (connQueue.run (queueStart τ fds) inputs).1 trace :=
    connQueue.run_induction (P := QueueInv) (QueueInv.start fds)
      (fun _ _ input hs => hs.step input) inputs
  refine ⟨h.prefix_taken, ?_, fun slot => ?_⟩
  · have := h.counts.slots
    omega
  · obtain ⟨full, hfull, -⟩ := h.occupied slot
    rw [hfull]
    rfl

end StockServer
