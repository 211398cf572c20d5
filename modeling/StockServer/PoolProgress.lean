import StockServer.Lib.Progress
import StockServer.QueueProgress
import StockServer.StopWorkers

set_option relaxedAutoImplicit false
set_option autoImplicit false

/-!
# The shutdown of the pool completes

Once the accept loop has been left, the main thread pushes its pills and joins the workers.  A full
queue can hold it up, and a worker with nothing to take, but never both for ever: whatever the
interleaving, as long as every thread goes on getting turns and `handle_client` returns at last,
all workers are joined.

## Main definitions

* `PoolMain.Stopping` — `stop_workers` has been called.
* `PoolTurn` — a turn of a thread, at which `handle_client` returns.
* `WorkerPool.left`, `WorkerPool.workersLeft` — bounds on the actions that are left, of all threads
  and of the workers.

## Main results

* `PoolInv.lowers` — every action lowers the bound.
* `PoolInv.acts` — some thread can act until all workers have been joined.
* `shutdown_completes` — **shutdown completes**, with every connection served.
-/

namespace StockServer

/-! ## What is left to do -/

/-- `stop_workers` has been called. -/
def PoolMain.Stopping : PoolMain → Prop
  | .stopping _ | .pushing _ | .joining _ | .joined => True
  | .creating | .accepting | .inserting _ => False

/-- The actions that are left of an insertion. -/
def QueuePc.insertLeft : QueuePc → ℕ
  | .out => 7
  | .insertSlots _ => 6
  | .insertMutex _ => 5
  | .insertStore _ => 4
  | .insertAdvance _ => 3
  | .insertUnlock => 2
  | .insertPost => 1
  | .removeItems | .removeMutex | .removeLoad | .removeAdvance _ | .removeUnlock _
  | .removePost _ => 0

/-- The actions that are left of a removal, a call of `handle_client` and the entry to the next
removal. -/
def QueuePc.removeLeft : QueuePc → ℕ
  | .out => 1
  | .removeMutex => 7
  | .removeLoad => 6
  | .removeAdvance _ => 5
  | .removeUnlock _ => 4
  | .removePost _ => 3
  | .removeItems | .insertSlots _ | .insertMutex _ | .insertStore _ | .insertAdvance _
  | .insertUnlock | .insertPost => 0

/-- The actions that are left of a worker until it waits for an item. -/
def PoolWorker.left (pc : QueuePc) : PoolWorker → ℕ
  | .removing => pc.removeLeft
  | .handling _ => 2
  | .returned => 0

@[simp] theorem PoolWorker.left_removing (pc : QueuePc) :
    PoolWorker.left pc .removing = pc.removeLeft := rfl

@[simp] theorem PoolWorker.left_handling (pc : QueuePc) (fd : Int32) :
    PoolWorker.left pc (.handling fd) = 2 := rfl

@[simp] theorem PoolWorker.left_returned (pc : QueuePc) : PoolWorker.left pc .returned = 0 := rfl

/-- The actions that are left of `stop_workers`. -/
def PoolMain.left (created : ℕ) (pc : QueuePc) : PoolMain → ℕ
  | .stopping i => 8 * (created - i) + (created + 2)
  | .pushing i => 8 * (created - (i + 1)) + (created + 2) + pc.insertLeft
  | .joining i => created - i + 1
  | .joined | .creating | .accepting | .inserting _ => 0

/-- The pills that have not been posted. -/
def PoolMain.unposted (created : ℕ) : PoolMain → ℕ
  | .stopping i => created - i
  | .pushing i => created - (i + 1) + 1
  | .joining _ | .joined | .creating | .accepting | .inserting _ => 0

variable {n : ℕ}

/-- A bound on the actions that are left of the workers while nothing is posted: those up to the
next wait of each, and eight for every item of the queue. -/
def WorkerPool.workersLeft (s : WorkerPool n) : ℕ :=
  (∑ w, (s.worker w).left (s.threads.pc (some w))) + 8 * s.threads.queue.items

/-- A bound on the actions that are left: those of the main thread, those of the workers, and
eight for every pill that has not been posted. -/
def WorkerPool.left (s : WorkerPool n) : ℕ :=
  s.main.left s.created (s.threads.pc none) + s.workersLeft + 8 * s.main.unposted s.created

/-- A turn of a thread; a worker in `handle_client` returns from it. -/
def PoolTurn : Option (Fin n) → PoolInput n → Prop
  | none, .main _ _ => True
  | some w, .worker v returns => v = w ∧ returns = true
  | _, _ => False

/-! ## One action in a call of the queue -/

section Calls

variable {τ : Type} [DecidableEq τ] {s : QueueThreads τ} {t : τ}

/-- A thread in a call that cannot act stays. -/
theorem threadStep_blocked (hpc : s.pc t ≠ .out) (hblocked : queueStep s.queue (s.pc t) = none)
    (call : QueueCall) : threadStep s (t, call) = (s, []) := by
  rw [threadStep, if_neg hpc, hblocked]

/-- **An action of an insertion** is one less to do; the last posts an item. -/
theorem insert_progress {fd : Int32} (h : (s.pc t).Inserts fd) :
    let next := (threadStep s (t, .insert fd)).1
    (s.pc t ≠ .out ∧ queueStep s.queue (s.pc t) = none) ∨
      (s.pc t ≠ .out ∧ next.pc t = .out ∧ (s.pc t).insertLeft = 1 ∧
        next.queue.items = s.queue.items + 1) ∨
      (next.pc t ≠ .out ∧ (next.pc t).insertLeft + 1 = (s.pc t).insertLeft ∧
        next.queue.items = s.queue.items) := by
  unfold threadStep
  cases hpc : s.pc t <;> rw [hpc] at h
  case out => simp [QueueCall.entry, QueuePc.insertLeft]
  case insertSlots | insertMutex =>
    simp only [reduceCtorEq, ↓reduceIte, queueStep]
    split_ifs <;> simp [hpc, QueuePc.insertLeft]
  case insertStore | insertAdvance | insertUnlock | insertPost =>
    simp [queueStep, QueuePc.insertLeft]
  all_goals exact h.elim

/-- An insertion that does not move at its turn is blocked. -/
theorem insert_stuck {fd : Int32} (h : (s.pc t).Inserts fd)
    (hstuck : (threadStep s (t, .insert fd)).1 = s) :
    s.pc t ≠ .out ∧ queueStep s.queue (s.pc t) = none := by
  rcases insert_progress h with hblocked | ⟨-, -, -, hitems⟩ | ⟨-, hleft, -⟩
  · exact hblocked
  · rw [hstuck] at hitems
    omega
  · rw [hstuck] at hleft
    omega

/-- **An action of a removal** is one less to do, or takes an item. -/
theorem remove_progress (h : (s.pc t).Removes) :
    let next := (threadStep s (t, .remove)).1
    (s.pc t ≠ .out ∧ queueStep s.queue (s.pc t) = none ∧ ∀ fd, s.pc t ≠ .removePost fd) ∨
      (s.pc t = .removeItems ∧ next.pc t = .removeMutex ∧
        next.queue.items + 1 = s.queue.items) ∨
      (next.queue.items = s.queue.items ∧ ((∃ fd, s.pc t = .removePost fd) ∨
        (∀ fd, s.pc t ≠ .removePost fd) ∧ next.pc t ≠ s.pc t ∧
          (next.pc t).removeLeft < (s.pc t).removeLeft)) := by
  unfold threadStep
  cases hpc : s.pc t <;> rw [hpc] at h
  case out => simp [QueueCall.entry, QueuePc.removeLeft]
  case removeItems =>
    simp only [reduceCtorEq, ↓reduceIte, queueStep]
    split_ifs with hitems
    · simp
    · simp only [Function.update_self]
      refine .inr (.inl ⟨trivial, trivial, by omega⟩)
  case removeMutex =>
    simp only [reduceCtorEq, ↓reduceIte, queueStep]
    split_ifs <;> simp [QueuePc.removeLeft]
  case removeLoad | removeAdvance | removeUnlock | removePost =>
    simp [queueStep, QueuePc.removeLeft]
  all_goals exact h.elim

end Calls

/-! ## Every action lowers the bound -/

variable {s : WorkerPool n} {trace : List (PoolEvent n)}

/-- A thread of the pool that cannot act stays. -/
theorem WorkerPool.act_blocked {thread : Option (Fin n)} (hpc : s.threads.pc thread ≠ .out)
    (hblocked : queueStep s.threads.queue (s.threads.pc thread) = none) (call : QueueCall) :
    s.act thread call = (s, []) := by
  rw [WorkerPool.act, threadStep_blocked hpc hblocked]
  rfl

/-- An action of the main thread, once `stop_workers` has been called. -/
theorem PoolInv.main_lowers (h : PoolInv s trace) (hstop : s.main.Stopping) (loop : AcceptLoop)
    (createFails : Bool) : poolMainStep s loop createFails = (s, []) ∨
      (poolMainStep s loop createFails).1.left < s.left := by
  have hcalling := h.main.calling
  have hpills := h.main.pills_le
  rw [PoolMain.Calling] at hcalling
  cases hmain : s.main with
  | creating | accepting | inserting fd => rw [hmain] at hstop; exact hstop.elim
  | joined => exact .inl (by simp only [poolMainStep, hmain])
  | stopping i =>
    rw [hmain] at hcalling
    have hout : s.threads.pc none = .out := hcalling
    simp only [poolMainStep, hmain, WorkerPool.left, WorkerPool.workersLeft, hout]
    refine .inr ?_
    split_ifs with hi <;> simp only [PoolMain.left, PoolMain.unposted, QueuePc.insertLeft] <;> omega
  | joining i =>
    simp only [poolMainStep, hmain, WorkerPool.left, WorkerPool.workersLeft]
    split_ifs with h₁ h₂ h₃
    · refine .inr ?_
      simp only [PoolMain.left, PoolMain.unposted]
      omega
    · exact .inl rfl
    · refine .inr ?_
      simp only [PoolMain.left, PoolMain.unposted]
      omega
    · refine .inr ?_
      simp only [PoolMain.left, PoolMain.unposted]
      omega
  | pushing i =>
    rw [hmain] at hcalling hpills
    have hinserts : (s.threads.pc none).Inserts stockQueueStop := hcalling
    have hle : i + 1 ≤ s.created := hpills
    have hothers : ∀ w : Fin n, (threadStep s.threads (none, .insert stockQueueStop)).1.pc
        (some w) = s.threads.pc (some w) := fun w => pc_threadStep (by simp) _
    rcases insert_progress hinserts with ⟨hpc, hblocked⟩ | ⟨hpc, hout, hleft, hitems⟩ |
      ⟨hpc, hleft, hitems⟩
    · refine .inl ?_
      simp only [poolMainStep, hmain, s.act_blocked hpc hblocked, hpc, ↓reduceIte]
    · refine .inr ?_
      simp only [poolMainStep, hmain, WorkerPool.act, hout, ↓reduceIte, WorkerPool.left,
        WorkerPool.workersLeft, hothers,
        PoolMain.left, PoolMain.unposted, hitems, hleft]
      omega
    · refine .inr ?_
      simp only [poolMainStep, hmain, WorkerPool.act, hpc, ↓reduceIte, WorkerPool.left,
        WorkerPool.workersLeft, hothers,
        PoolMain.left, PoolMain.unposted, hitems]
      omega

/-- An action of a worker. -/
theorem PoolInv.worker_lowers (h : PoolInv s trace) (w : Fin n) (returns : Bool) :
    poolWorkerStep s w returns = (s, []) ∨
      (poolWorkerStep s w returns).1.workersLeft < s.workersLeft := by
  unfold poolWorkerStep
  by_cases hcreated : w.val < s.created
  swap
  · rw [if_neg hcreated]
    exact .inl rfl
  rw [if_pos hcreated]
  cases hworker : s.worker w with
  | returned => exact .inl rfl
  | handling fd =>
    cases returns with
    | false => exact .inl rfl
    | true =>
      have hout := (h.worker w).outside (by simp [hworker])
      refine .inr ?_
      have hsum := sum_add_of_eq_off
        (f := fun v => (Function.update s.worker w .removing v).left (s.threads.pc (some v)))
        (g := fun v => (s.worker v).left (s.threads.pc (some v))) w
        fun v hv => by rw [Function.update_of_ne hv]
      simp only [Function.update_self, hworker, hout, PoolWorker.left_removing,
        PoolWorker.left_handling, QueuePc.removeLeft] at hsum
      simp only [WorkerPool.workersLeft, ↓reduceIte]
      omega
  | removing =>
    have hremoves := (h.worker w).removing hworker
    have hpcs : ∀ v : Fin n, v ≠ w → (threadStep s.threads (some w, .remove)).1.pc (some v) =
        s.threads.pc (some v) := fun v hv => pc_threadStep (by simpa using hv) _
    -- what an action of the removal does to the sum, with the worker where it is after it
    have hsum : ∀ after : PoolWorker, (∑ v, (Function.update s.worker w after v).left
          ((threadStep s.threads (some w, .remove)).1.pc (some v))) +
            (s.threads.pc (some w)).removeLeft =
        (∑ v, (s.worker v).left (s.threads.pc (some v))) +
          after.left ((threadStep s.threads (some w, .remove)).1.pc (some w)) := by
      intro after
      have hsum := sum_add_of_eq_off
        (f := fun v => (Function.update s.worker w after v).left
          ((threadStep s.threads (some w, .remove)).1.pc (some v)))
        (g := fun v => (s.worker v).left (s.threads.pc (some v))) w
        fun v hv => by rw [Function.update_of_ne hv, hpcs v hv]
      simpa only [Function.update_self, hworker, PoolWorker.left_removing] using hsum
    have hkeep : Function.update s.worker w .removing = s.worker := by
      rw [← hworker, Function.update_eq_self]
    have hremoving := hsum .removing
    rw [hkeep] at hremoving
    rw [PoolWorker.left_removing] at hremoving
    rcases remove_progress hremoves with ⟨hpc, hblocked, hpost⟩ | ⟨hpc, hnext, hitems⟩ |
      ⟨hitems, ⟨fd, hpc⟩ | ⟨hpost, -, hleft⟩⟩
    · -- it is blocked
      refine .inl ?_
      dsimp only
      split
      · exact absurd ‹_› (hpost _)
      · exact s.act_blocked hpc hblocked .remove
    · -- it takes an item
      rw [hnext, hpc] at hremoving
      simp only [QueuePc.removeLeft] at hremoving
      refine .inr ?_
      simp only [hpc, WorkerPool.act, WorkerPool.workersLeft]
      omega
    · -- it returns from the queue
      simp only [hpc]
      refine .inr ?_
      have hstopped := hsum .returned
      have hhandling := hsum (.handling fd)
      simp only [hpc, PoolWorker.left_returned, PoolWorker.left_handling, QueuePc.removeLeft]
        at hstopped hhandling
      split_ifs with hstop
      · simp only [WorkerPool.act, WorkerPool.workersLeft, hitems]
        omega
      · simp only [WorkerPool.act, WorkerPool.workersLeft, hitems]
        omega
    · -- it goes on
      refine .inr ?_
      dsimp only
      split
      · exact absurd ‹_› (hpost _)
      · simp only [WorkerPool.act, WorkerPool.workersLeft, hitems]
        omega

/-- A worker leaves the main thread alone. -/
theorem poolWorkerStep_frame (s : WorkerPool n) (w : Fin n) (returns : Bool) :
    (poolWorkerStep s w returns).1.main = s.main ∧
      (poolWorkerStep s w returns).1.created = s.created ∧
      (poolWorkerStep s w returns).1.threads.pc none = s.threads.pc none := by
  have hnone : (threadStep s.threads (some w, .remove)).1.pc none = s.threads.pc none :=
    pc_threadStep (by simp) _
  unfold poolWorkerStep
  by_cases hcreated : w.val < s.created
  · rw [if_pos hcreated]
    cases s.worker w with
    | removing =>
      dsimp only
      split
      · split_ifs <;> exact ⟨rfl, rfl, hnone⟩
      · exact ⟨rfl, rfl, hnone⟩
    | handling fd => cases returns <;> exact ⟨rfl, rfl, rfl⟩
    | returned => exact ⟨rfl, rfl, rfl⟩
  · rw [if_neg hcreated]
    exact ⟨rfl, rfl, rfl⟩

/-- **Every action lowers the bound**, once `stop_workers` has been called. -/
theorem PoolInv.lowers (h : PoolInv s trace) (hstop : s.main.Stopping) (input : PoolInput n) :
    poolStep s input = (s, []) ∨ (poolStep s input).1.left < s.left := by
  cases input with
  | main loop createFails => exact h.main_lowers hstop loop createFails
  | worker w returns =>
    obtain ⟨hmain, hcreated, hpc⟩ := poolWorkerStep_frame s w returns
    refine (h.worker_lowers w returns).imp_right fun hlt => ?_
    change (poolWorkerStep s w returns).1.left < s.left
    rw [WorkerPool.left, WorkerPool.left, hmain, hcreated, hpc]
    omega

/-! ## Some thread can act -/

/-- A worker that does not move at its turn has returned, or is blocked in a removal. -/
theorem PoolInv.worker_stuck (h : PoolInv s trace) {w : Fin n} (hw : w.val < s.created)
    (hstuck : (poolWorkerStep s w true).1 = s) :
    s.worker w = .returned ∨ s.worker w = .removing ∧ s.threads.pc (some w) ≠ .out ∧
      queueStep s.threads.queue (s.threads.pc (some w)) = none := by
  rw [poolWorkerStep, if_pos hw] at hstuck
  cases hworker : s.worker w with
  | returned => exact .inl rfl
  | handling fd =>
    rw [hworker] at hstuck
    have hmoved : Function.update s.worker w .removing w = s.worker w :=
      congrFun (congrArg WorkerPool.worker hstuck) w
    rw [Function.update_self, hworker] at hmoved
    cases hmoved
  | removing =>
    simp only [hworker] at hstuck
    have hremoves := (h.worker w).removing hworker
    have hthreads : (threadStep s.threads (some w, .remove)).1 = s.threads := by
      revert hstuck
      split
      · intro hstuck
        split_ifs at hstuck <;> exact congrArg WorkerPool.threads hstuck
      · exact fun hstuck => congrArg WorkerPool.threads hstuck
    rcases remove_progress hremoves with ⟨hpc, hblocked, -⟩ | ⟨-, -, hitems⟩ |
      ⟨-, ⟨fd, hpc⟩ | ⟨-, hpc, -⟩⟩
    · exact .inr ⟨rfl, hpc, hblocked⟩
    · rw [hthreads] at hitems
      omega
    · have hout := ((remove_cases hremoves).2.2.1 ⟨fd, hpc⟩).1
      rw [hthreads, hpc] at hout
      cases hout
    · rw [hthreads] at hpc
      exact absurd rfl hpc

/-- A main thread that does not move at its turn has joined all workers, is blocked in the
insertion of a pill, or waits for a worker. -/
theorem PoolInv.main_stuck (h : PoolInv s trace) (hstop : s.main.Stopping) {loop : AcceptLoop}
    {createFails : Bool} (hstuck : (poolMainStep s loop createFails).1 = s) :
    s.main = .joined ∨
      (∃ i, s.main = .pushing i ∧ s.threads.pc none ≠ .out ∧
        queueStep s.threads.queue (s.threads.pc none) = none) ∨
      ∃ i, ∃ hi : i < n, s.main = .joining i ∧ i < s.created ∧ s.worker ⟨i, hi⟩ ≠ .returned := by
  have hcalling := h.main.calling
  rw [PoolMain.Calling] at hcalling
  unfold poolMainStep at hstuck
  cases hmain : s.main with
  | creating | accepting | inserting fd => rw [hmain] at hstop; exact hstop.elim
  | joined => exact .inl rfl
  | stopping i =>
    simp only [hmain] at hstuck
    have hmoved := congrArg WorkerPool.main hstuck
    rw [hmain] at hmoved
    dsimp only at hmoved
    split_ifs at hmoved
  | joining i =>
    refine .inr (.inr ?_)
    simp only [hmain] at hstuck
    have hmoved := congrArg WorkerPool.main hstuck
    split_ifs at hmoved with hi hcreated hreturned <;> simp only [hmain, reduceCtorEq] at hmoved
    · rw [PoolMain.joining.injEq] at hmoved
      omega
    · exact ⟨i, hi, rfl, hcreated, hreturned⟩
  | pushing i =>
    refine .inr (.inl ⟨i, rfl, ?_⟩)
    rw [hmain] at hcalling
    have hinserts : (s.threads.pc none).Inserts stockQueueStop := hcalling
    simp only [hmain] at hstuck
    refine insert_stuck hinserts ?_
    split_ifs at hstuck <;> exact congrArg WorkerPool.threads hstuck

/-- The pills taken are as many as the workers that have returned, while no worker is on its way
out of the queue. -/
theorem PoolInv.count_returned (h : PoolInv s trace)
    (hstuck : ∀ w, queueStep s.threads.queue (s.threads.pc (some w)) = none) :
    (takenFds (queueTrace trace)).count stockQueueStop =
      (Finset.univ.filter fun w => s.worker w = .returned).card := by
  have hcount : ∀ w, (ofWorker w (takes trace)).count stockQueueStop =
      if s.worker w = .returned then 1 else 0 := by
    intro w
    have hw := h.worker w
    rw [hw.taken, List.count_append, List.count_eq_zero.mpr hw.proper, Nat.zero_add]
    cases hworker : s.worker w with
    | returned => rfl
    | handling fd => rfl
    | removing =>
      rw [PoolWorker.pending]
      rcases blocked_cases (hstuck w) with hpc | ⟨fd, hpc, -⟩ | ⟨hpc, -⟩ | ⟨hpc, -⟩
      · rw [hpc]; rfl
      · rw [hpc]; rfl
      · rw [hpc]; rfl
      · have hstuck' := hstuck w
        cases hpc' : s.threads.pc (some w) <;> simp_all [QueuePc.locked, QueuePc.taking, queueStep]
  rw [← h.taken, ← sum_count_ofWorker, Finset.sum_congr rfl fun w _ => hcount w,
    ← Finset.card_filter]

/-- **Some thread can act** until all workers have been joined.

**Proof sketch.** Threads none of which can act are at a standstill in the queue.  If it is full,
the main thread waits to post a pill, so all workers have returned; but then they have taken as
many pills as there are workers, more than have been posted.  If it is empty, the main thread waits
for a worker that has not returned, so fewer pills have been taken than there are workers; but all
that were posted have been taken. -/
theorem PoolInv.acts (h : PoolInv s trace) (hstop : s.main.Stopping) (hmain : s.main ≠ .joined) :
    ∃ thread, ∀ input, PoolTurn thread input → (poolStep s input).1 ≠ s := by
  by_contra hnone
  push Not at hnone
  have hworker : ∀ w : Fin n, w.val < s.created → s.worker w = .returned ∨
      s.worker w = .removing ∧ s.threads.pc (some w) ≠ .out ∧
        queueStep s.threads.queue (s.threads.pc (some w)) = none := by
    intro w hw
    obtain ⟨input, hturn, hstuck⟩ := hnone (some w)
    cases input with
    | main => exact hturn.elim
    | worker v returns =>
      obtain ⟨rfl, rfl⟩ := hturn
      exact h.worker_stuck hw hstuck
  have hmains : (∃ i, s.main = .pushing i ∧ s.threads.pc none ≠ .out ∧
      queueStep s.threads.queue (s.threads.pc none) = none) ∨
      ∃ i, ∃ hi : i < n, s.main = .joining i ∧ i < s.created ∧ s.worker ⟨i, hi⟩ ≠ .returned := by
    obtain ⟨input, hturn, hstuck⟩ := hnone none
    cases input with
    | worker => exact hturn.elim
    | main loop createFails => exact (h.main_stuck hstop hstuck).resolve_left hmain
  have hblocked : ∀ w : Fin n, queueStep s.threads.queue (s.threads.pc (some w)) = none := by
    intro w
    by_cases hw : w.val < s.created
    · rcases hworker w hw with hreturned | ⟨-, -, hblocked⟩
      · rw [(h.worker w).outside (by simp [hreturned])]
        rfl
      · exact hblocked
    · rw [((h.worker w).fresh (Nat.le_of_not_lt hw)).2.1]
      rfl
  have hstuck : ∀ thread, queueStep s.threads.queue (s.threads.pc thread) = none := by
    intro thread
    cases thread with
    | some w => exact hblocked w
    | none =>
      rcases hmains with ⟨i, -, -, hblocked⟩ | ⟨i, -, hjoining, -⟩
      · exact hblocked
      · have hcalling := h.main.calling
        rw [PoolMain.Calling, hjoining] at hcalling
        have hout : s.threads.pc none = .out := hcalling
        rw [hout]
        rfl
  have hcount := h.count_returned hblocked
  have hstop := List.count_eq_zero.mpr (stop_notMem h.main.nonneg)
  have hstored := h.main.stored
  have hcreated : (Finset.univ.filter fun w : Fin n => w.val < s.created).card = s.created := by
    rw [Fin.card_filter_val_lt, min_eq_right h.main.created_le]
  rcases hmains with ⟨i, hpushing, hpc, -⟩ | ⟨i, hi, hjoining, hlt, hwaiting⟩
  · -- the main thread waits to post a pill
    have hcalling := h.main.calling
    have hpills := h.main.pills_le
    rw [PoolMain.Calling, hpushing] at hcalling
    rw [hpushing] at hstored hpills
    have hinserts : (s.threads.pc none).Inserts stockQueueStop := hcalling
    have hall : ∀ w : Fin n, w.val < s.created → s.worker w = .returned := by
      intro w hw
      rcases hworker w hw with hreturned | ⟨hremoving, hpcw, -⟩
      · exact hreturned
      exfalso
      rcases h.queue.counts.standstill hstuck with hout | ⟨hin, -⟩ | ⟨hin, -⟩
      · exact hpcw (hout _)
      · have hremoves := (h.worker w).removing hremoving
        rcases hin (some w) with hout | ⟨fd, hfd⟩
        · exact hpcw hout
        · rw [hfd] at hremoves
          exact hremoves
      · rcases hin none with hout | hremove
        · exact hpc hout
        · rw [hremove] at hinserts
          exact hinserts
    have hwaits : ∃ fd, s.threads.pc none = .insertSlots fd := by
      rcases h.queue.counts.standstill hstuck with hout | ⟨hin, -⟩ | ⟨hin, -⟩
      · exact absurd (hout none) hpc
      · exact (hin none).resolve_left hpc
      · rw [(hin none).resolve_left hpc] at hinserts
        exact hinserts.elim
    obtain ⟨fd, hfd⟩ := hwaits
    have hposted : (storedFds (queueTrace trace)).count stockQueueStop = i := by
      have htotal := congrArg (List.count stockQueueStop) hstored
      rw [hfd] at htotal
      simp only [PoolMain.toStore, PoolMain.call, QueuePc.toStore, QueuePc.owesItem,
        Option.elim_some, ↓reduceIte, PoolMain.pills, List.count_append, hstop,
        List.count_replicate_self, List.count_singleton_self] at htotal
      omega
    have htaken := (h.queue.prefix_taken.sublist).count_le stockQueueStop
    have hsubset : (Finset.univ.filter fun w : Fin n => w.val < s.created).card ≤
        (Finset.univ.filter fun w => s.worker w = .returned).card :=
      Finset.card_le_card (Finset.monotone_filter_right _ fun w _ hw => hall w hw)
    have hle : i + 1 ≤ s.created := hpills
    omega
  · -- the main thread waits for a worker
    have hcalling := h.main.calling
    rw [PoolMain.Calling, hjoining] at hcalling
    have hout : s.threads.pc none = .out := hcalling
    obtain ⟨hremoving, hpcw, -⟩ := (hworker ⟨i, hi⟩ hlt).resolve_left hwaiting
    have hremoves := (h.worker ⟨i, hi⟩).removing hremoving
    have hlength : (storedFds (queueTrace trace)).length =
        (takenFds (queueTrace trace)).length := by
      rcases h.queue.counts.standstill hstuck with hall | ⟨hin, -⟩ | ⟨-, heq⟩
      · exact absurd (hall _) hpcw
      · rcases hin (some ⟨i, hi⟩) with hout | ⟨fd, hfd⟩
        · exact absurd hout hpcw
        · rw [hfd] at hremoves
          exact hremoves.elim
      · exact heq
    have hall := h.queue.prefix_taken.eq_of_length hlength.symm
    rw [hjoining] at hstored
    have htotal := congrArg (List.count stockQueueStop) hstored
    simp only [PoolMain.toStore, PoolMain.call, Option.elim_none, List.append_nil,
      PoolMain.pills, List.count_append, hstop, List.count_replicate_self] at htotal
    rw [← hall, hcount] at htotal
    have hfewer : (Finset.univ.filter fun w => s.worker w = .returned).card <
        (Finset.univ.filter fun w : Fin n => w.val < s.created).card := by
      refine Finset.card_lt_card ⟨?_, fun hsub => ?_⟩
      · intro w hw
        have hreturned : s.worker w = .returned := by simpa using hw
        rw [Finset.mem_filter]
        refine ⟨Finset.mem_univ w, ?_⟩
        by_contra hfresh
        rw [((h.worker w).fresh (Nat.le_of_not_lt hfresh)).1] at hreturned
        cases hreturned
      · have hmem := hsub (Finset.mem_filter.mpr ⟨Finset.mem_univ (⟨i, hi⟩ : Fin n), hlt⟩)
        exact hwaiting (Finset.mem_filter.mp hmem).2
    omega

/-! ## Shutdown completes -/

/-- `stop_workers` does not return to the accept loop. -/
theorem PoolMain.Stopping.step (hstop : s.main.Stopping) (input : PoolInput n) :
    (poolStep s input).1.main.Stopping := by
  cases input with
  | worker w returns =>
    exact (poolWorkerStep_frame s w returns).1.symm ▸ hstop
  | main loop createFails =>
    change (poolMainStep s loop createFails).1.main.Stopping
    unfold poolMainStep
    cases hmain : s.main with
    | creating | accepting | inserting fd => rw [hmain] at hstop; exact hstop.elim
    | stopping i => dsimp only; split_ifs <;> trivial
    | joined => dsimp only; rw [hmain]; trivial
    | pushing i =>
      dsimp only
      split_ifs
      · trivial
      · exact hmain ▸ hstop
    | joining i =>
      dsimp only
      split_ifs
      · trivial
      · exact hmain ▸ hstop
      · trivial
      · trivial

/-- The pool makes progress from `stop_workers` on. -/
theorem workerPool_progress (n : ℕ) : (workerPool n).Progress
    (fun s => (∃ trace, PoolInv s trace) ∧ s.main.Stopping) (fun s => s.main = .joined)
    WorkerPool.left PoolTurn where
  keeps := by
    rintro s input ⟨⟨trace, h⟩, hstop⟩
    exact ⟨⟨_, h.step input⟩, hstop.step input⟩
  lowers := by
    rintro s input ⟨⟨trace, h⟩, hstop⟩
    exact (h.lowers hstop input).imp_left (congrArg Prod.fst)
  acts := by
    rintro s ⟨⟨trace, h⟩, hstop⟩ hmain
    exact h.acts hstop hmain
  stays := by
    rintro s input ⟨⟨trace, h⟩, hstop⟩ hmain
    cases input with
    | main loop createFails =>
      change (poolMainStep s loop createFails).1.main = .joined
      simp only [poolMainStep, hmain]
    | worker w returns => exact (poolWorkerStep_frame s w returns).1.trans hmain

/-- The bound is a small number. -/
theorem PoolInv.left_le (h : PoolInv s trace) (hstop : s.main.Stopping) :
    s.left ≤ 24 * n + 514 := by
  have hworkers : ∑ w, (s.worker w).left (s.threads.pc (some w)) ≤ n * 7 := by
    have hone : ∀ w ∈ Finset.univ, (s.worker w).left (s.threads.pc (some w)) ≤ 7 := by
      intro w _
      cases s.worker w with
      | removing =>
        rw [PoolWorker.left_removing]
        cases s.threads.pc (some w) <;> simp [QueuePc.removeLeft]
      | handling fd => simp
      | returned => simp
    have hsum := Finset.sum_le_card_nsmul Finset.univ _ 7 hone
    rwa [Finset.card_univ, Fintype.card_fin] at hsum
  have hslots := h.queue.counts.slots
  have hitems := h.queue.counts.items
  have hsize : stockQueueSize = 64 := rfl
  have hcreated := h.main.created_le
  have hpills := h.main.pills_le
  have hmain : s.main.left s.created (s.threads.pc none) + 8 * s.main.unposted s.created ≤
      17 * s.created + 2 := by
    cases hmain : s.main with
    | creating | accepting | inserting fd => rw [hmain] at hstop; exact hstop.elim
    | stopping i => simp only [PoolMain.left, PoolMain.unposted]; omega
    | joining i => simp only [PoolMain.left, PoolMain.unposted]; omega
    | joined => simp only [PoolMain.left, PoolMain.unposted]; omega
    | pushing i =>
      rw [hmain, PoolMain.pills] at hpills
      have hleft : (s.threads.pc none).insertLeft ≤ 7 := by
        cases s.threads.pc none <;> simp [QueuePc.insertLeft]
      simp only [PoolMain.left, PoolMain.unposted]
      omega
  rw [WorkerPool.left, WorkerPool.workersLeft]
  omega

open Classical in
/-- **Shutdown completes.**  For any number of workers, in every run in which the accept loop has
been left, whatever has been accepted and wherever every thread is: under every schedule at most
`24 n + 514` actions are left, a call of `handle_client` counting as one, and under every schedule
that gives each thread turns again and again, at which `handle_client` returns, all workers are
joined, with every connection served.

**Proof sketch.** Every action lowers a count of the actions left, and some thread can act until
all workers have been joined. -/
theorem shutdown_completes {n : ℕ} (hn : 0 < n) (fds : ℕ → Int32) (inputs : List (PoolInput n))
    (hstop : ((workerPool n).run (poolStart n fds) inputs).1.main.Stopping) :
    let s := ((workerPool n).run (poolStart n fds) inputs).1
    (∀ (σ : ℕ → PoolInput n) (m : ℕ), Nat.count (fun k =>
      (workerPool n).after s σ (k + 1) ≠ (workerPool n).after s σ k) m ≤ 24 * n + 514) ∧
    ∀ σ : ℕ → PoolInput n, Machine.Fair PoolTurn σ → ∃ k, ∀ m, k ≤ m →
      let run := (workerPool n).run (poolStart n fds) (inputs ++ (List.range m).map σ)
      run.1.main = .joined ∧ Drained run.1 run.2 := by
  intro s
  have hinv : ∀ inputs, PoolInv ((workerPool n).run (poolStart n fds) inputs).1
      ((workerPool n).run (poolStart n fds) inputs).2 := fun inputs =>
    (workerPool n).run_induction (.start fds) (fun _ _ input hs => hs.step input) inputs
  have hs : (∃ trace, PoolInv s trace) ∧ s.main.Stopping := ⟨⟨_, hinv inputs⟩, hstop⟩
  refine ⟨fun σ m => ?_, fun σ hfair => ?_⟩
  · have hcount := (workerPool_progress n).count_actions_le hs σ m
    have hle := (hinv inputs).left_le hstop
    exact le_trans (Nat.le_of_add_right_le hcount) hle
  · obtain ⟨k, hk⟩ := (workerPool_progress n).reaches hs hfair
    refine ⟨k, fun m hm => ?_⟩
    have hmain : ((workerPool n).run (poolStart n fds)
        (inputs ++ (List.range m).map σ)).1.main = .joined := by
      rw [Machine.run_append]
      dsimp only
      rw [← Machine.after_eq_run]
      exact hk m hm
    exact ⟨hmain, (hinv _).drained hn hmain⟩

/-- A main thread and two workers that take turns in rotation. -/
def rotation (loop : AcceptLoop) (k : ℕ) : PoolInput 2 :=
  if k % 3 = 0 then .main loop false else .worker (if k % 3 = 1 then 0 else 1) true

/-- Turns in rotation are fair. -/
theorem fair_rotation (loop : AcceptLoop) : Machine.Fair PoolTurn (rotation loop) := by
  intro thread k
  cases thread with
  | none => exact ⟨3 * k, by omega, by simp [rotation, PoolTurn]⟩
  | some w =>
    rcases (by omega : w = 0 ∨ w = 1) with rfl | rfl
    · exact ⟨3 * k + 1, by omega, by simp [rotation, PoolTurn]⟩
    · exact ⟨3 * k + 2, by omega, by simp [rotation, PoolTurn]⟩

/-- Two workers that are asked to stop at once, with turns in rotation. -/
theorem shutdown_completes_two :
    ∃ k, ∀ m, k ≤ m →
      let run := (workerPool 2).run (poolStart 2 fun _ => 0)
        (List.replicate 4 (.main .requested false) ++ (List.range m).map (rotation .requested))
      run.1.main = .joined ∧ Drained run.1 run.2 := by
  have hstop : ((workerPool 2).run (poolStart 2 fun _ => 0)
      (List.replicate 4 (.main .requested false))).1.main = .stopping 0 := by decide +kernel
  exact (shutdown_completes (by decide) (fun _ => 0) _ (by rw [hstop]; trivial)).2 _
    (fair_rotation _)

end StockServer
