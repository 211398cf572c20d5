import StockServer.ConnQueue

set_option relaxedAutoImplicit false
set_option autoImplicit false

/-!
# Blocking in the connection queue

A thread in `conn_queue_insert` or `conn_queue_remove` can wait at four places.  The two waits for
the mutex are never the last: the thread that holds it can always go on.  So the calls come to a
standstill only where they should, at a full queue with nobody removing or at an empty queue with
nobody inserting.

## Main definitions

* `Standstill` — no call of the queue can go on, and why.

## Main results

* `Counts.standstill` — threads none of which can act are at a standstill.
* `connQueue_progress` — **some call goes on, or the queue is at a standstill**.
-/

namespace StockServer

variable {τ : Type} {s : QueueThreads τ} {S T : ℕ}

/-- No call of the queue can go on with `S` descriptors stored and `T` taken: there is none, or all
are insertions into a full queue, or all are removals from an empty one. -/
inductive Standstill (s : QueueThreads τ) (S T : ℕ) : Prop where
  | idle (out : ∀ t, s.pc t = .out)
  | full (inserting : ∀ t, s.pc t = .out ∨ ∃ fd, s.pc t = .insertSlots fd)
      (outstanding : S = stockQueueSize + T)
  | empty (removing : ∀ t, s.pc t = .out ∨ s.pc t = .removeItems) (outstanding : S = T)

/-- Where a thread that cannot act is. -/
theorem blocked_cases {q : ConnQueue} {pc : QueuePc} (h : queueStep q pc = none) :
    pc = .out ∨ (∃ fd, pc = .insertSlots fd ∧ q.slots = 0) ∨ (pc = .removeItems ∧ q.items = 0) ∨
      (pc.locked = 0 ∧ q.mutex = 0) := by
  cases pc <;> simp_all [queueStep, QueuePc.locked]

/-- **Threads none of which can act are at a standstill.**

**Proof sketch.** No thread holds the mutex, for it could act; so nobody waits for it.  What is
left are waits for a slot and waits for an item, and the counts allow only one of the two. -/
theorem Counts.standstill [Fintype τ] (h : Counts s S T)
    (hstuck : ∀ t, queueStep s.queue (s.pc t) = none) : Standstill s S T := by
  have hlocked : ∀ t, (s.pc t).locked = 0 := by
    intro t
    rcases blocked_cases (hstuck t) with hpc | ⟨fd, hpc, -⟩ | ⟨hpc, -⟩ | ⟨hpc, -⟩
    · rw [hpc]; rfl
    · rw [hpc]; rfl
    · rw [hpc]; rfl
    · exact hpc
  have hmutex : s.queue.mutex = 1 := by
    have hsum := h.mutex
    rwa [Finset.sum_eq_zero fun t _ => hlocked t] at hsum
  have hpc : ∀ t, s.pc t = .out ∨ (∃ fd, s.pc t = .insertSlots fd ∧ s.queue.slots = 0) ∨
      (s.pc t = .removeItems ∧ s.queue.items = 0) := by
    intro t
    rcases blocked_cases (hstuck t) with hpc | hpc | hpc | ⟨-, hzero⟩
    · exact .inl hpc
    · exact .inr (.inl hpc)
    · exact .inr (.inr hpc)
    · omega
  have hzero : ∀ g : QueuePc → ℕ, g .out = 0 → (∀ fd, g (.insertSlots fd) = 0) →
      g .removeItems = 0 → ∑ t, g (s.pc t) = 0 := by
    intro g hout hinsert hremove
    refine Finset.sum_eq_zero fun t _ => ?_
    rcases hpc t with ht | ⟨fd, ht, -⟩ | ⟨ht, -⟩ <;> rw [ht]
    exacts [hout, hinsert fd, hremove]
  have hslots := h.slots
  have hitems := h.items
  rw [hzero QueuePc.hasSlot rfl (fun _ => rfl) rfl, hzero QueuePc.owesSlot rfl (fun _ => rfl) rfl]
    at hslots
  rw [hzero QueuePc.hasItem rfl (fun _ => rfl) rfl, hzero QueuePc.owesItem rfl (fun _ => rfl) rfl]
    at hitems
  by_cases hfull : ∃ t fd, s.pc t = .insertSlots fd
  · -- a thread waits for a slot, so there are items
    obtain ⟨t, fd, ht⟩ := hfull
    have hnone : s.queue.slots = 0 := by
      rcases hpc t with ht' | ⟨_, -, hnone⟩ | ⟨ht', -⟩
      · rw [ht] at ht'; cases ht'
      · exact hnone
      · rw [ht] at ht'; cases ht'
    have hsome : s.queue.items ≠ 0 := by
      have hsize : stockQueueSize = 64 := rfl
      omega
    refine .full (fun v => ?_) (by omega)
    rcases hpc v with hv | ⟨fd, hv, -⟩ | ⟨-, hv⟩
    · exact .inl hv
    · exact .inr ⟨fd, hv⟩
    · exact absurd hv hsome
  by_cases hempty : ∃ t, s.pc t = .removeItems
  · -- a thread waits for an item
    obtain ⟨t, ht⟩ := hempty
    have hnone : s.queue.items = 0 := by
      rcases hpc t with ht' | ⟨_, ht', -⟩ | ⟨-, hnone⟩
      · rw [ht] at ht'; cases ht'
      · rw [ht] at ht'; cases ht'
      · exact hnone
    refine .empty (fun v => ?_) (by omega)
    rcases hpc v with hv | ⟨fd, hv, -⟩ | ⟨hv, -⟩
    · exact .inl hv
    · exact absurd ⟨v, fd, hv⟩ hfull
    · exact .inr hv
  · refine .idle fun v => ?_
    rcases hpc v with hv | ⟨fd, hv, -⟩ | ⟨hv, -⟩
    · exact hv
    · exact absurd ⟨v, fd, hv⟩ hfull
    · exact absurd ⟨v, hv⟩ hempty

/-- **Some call goes on, or the queue is at a standstill.**  For any finite number of threads and
every interleaving of their calls of `conn_queue_insert` and `conn_queue_remove`: when no call can
go on, there is none, or all are insertions that wait for a slot while 64 descriptors are
outstanding, or all are removals that wait for an item while none is. -/
theorem connQueue_progress [DecidableEq τ] [Fintype τ] (fds : ℕ → Int32)
    (inputs : List (τ × QueueCall)) :
    let run := connQueue.run (queueStart τ fds) inputs
    (∃ t, queueStep run.1.queue (run.1.pc t) ≠ none) ∨
      Standstill run.1 (storedFds run.2).length (takenFds run.2).length := by
  intro run
  have h : QueueInv run.1 run.2 :=
    connQueue.run_induction (.start fds) (fun _ _ input hs => hs.step input) inputs
  by_cases hstuck : ∀ t, queueStep run.1.queue (run.1.pc t) = none
  · exact .inr (h.counts.standstill hstuck)
  · exact .inl (not_forall.mp hstuck)

end StockServer
