import Mathlib.Algebra.BigOperators.Ring.Finset
import Mathlib.Algebra.Order.BigOperators.Group.Finset
import StockServer.Lib.Progress
import StockServer.Linearizability

set_option relaxedAutoImplicit false
set_option autoImplicit false

/-!
# Every connection is served

The workers never block each other for ever: the holder of the store's mutex can always go on, and
a critical section is finite.  So the connections that are queued are served to their ends, in a
number of actions that is linear in what the clients send, or an error of the network ends the
process.

## Main definitions

* `Rio.weight` — what a reader has yet to deliver, with one more for each call of `read`.
* `Conn.Works`, `Pool.Works` — connections none of whose calls fails.
* `Critical.left`, `Phase.left`, `Pool.left` — bounds on the actions that are left: of a critical
  section, of a request, and of the pool.
* `Blocked`, `Pool.Done` — a worker that cannot act, and a pool whose work is done.

## Main results

* `Inside.lowers` — a critical section is finite.
* `Linear.lowers` — a worker is blocked, or its action lowers the bound.
* `workers_complete` — **every connection is served**.
-/

namespace StockServer

open SearchTree

/-! ## What a reader has yet to deliver -/

/-- The weight of the results of further calls of `read`. -/
def readsWeight : List ReadResult → ℕ
  | [] => 0
  | .bytes bs :: reads => bs.length + 1 + readsWeight reads
  | .eintr :: reads => 1 + readsWeight reads
  | .error :: reads => 1 + readsWeight reads

/-- The bytes that a reader has yet to deliver, with one more for each call of `read`. -/
def Rio.weight (rp : Rio) : ℕ := rp.unread.length + readsWeight rp.reads

/-- A refill uses up what it delivers. -/
theorem refill_weight {reads rest : List ReadResult} {bs : Bytes}
    (h : refill reads = (some bs, rest)) : bs.length + readsWeight rest ≤ readsWeight reads := by
  induction reads with
  | nil =>
    obtain ⟨rfl, rfl⟩ : [] = bs ∧ [] = rest := by simpa [refill] using h
    exact Nat.le_refl _
  | cons r reads ih =>
    cases r with
    | bytes cs =>
      obtain ⟨rfl, rfl⟩ : cs = bs ∧ reads = rest := by simpa [refill] using h
      simp only [readsWeight]
      omega
    | eintr =>
      have hrest := ih h
      simp only [readsWeight]
      omega
    | error => simp [refill] at h

/-- So does a read. -/
theorem rioRead_weight {rp rp' : Rio} {n : ℕ} {bs : Bytes} (h : rioRead rp n = (some bs, rp')) :
    bs.length + rp'.weight ≤ rp.weight := by
  unfold rioRead at h
  by_cases hempty : rp.unread = []
  · rw [if_pos hempty] at h
    rcases hrefill : refill rp.reads with ⟨_ | cs, reads⟩ <;> rw [hrefill] at h
    · simp at h
    · obtain ⟨rfl, rfl⟩ : cs.take n = bs ∧ (⟨cs.drop n, reads⟩ : Rio) = rp' := by simpa using h
      have hweight := refill_weight hrefill
      simp only [Rio.weight, hempty, List.length_nil, List.length_take, List.length_drop]
      omega
  · rw [if_neg hempty] at h
    obtain ⟨rfl, rfl⟩ : rp.unread.take n = bs ∧ (⟨rp.unread.drop n, rp.reads⟩ : Rio) = rp' := by
      simpa using h
    simp only [Rio.weight, List.length_take, List.length_drop]
    omega

/-- **A line that is read is used up.** -/
theorem rioReadlineb_weight {room : ℕ} {rp rp' : Rio} {line : Bytes}
    (h : rioReadlineb room rp = (some line, rp')) : line.length + rp'.weight ≤ rp.weight := by
  induction room generalizing rp line with
  | zero =>
    obtain ⟨rfl, rfl⟩ : [] = line ∧ rp = rp' := by simpa [rioReadlineb] using h
    simp
  | succ room ih =>
    unfold rioReadlineb at h
    rcases hread : rioRead rp 1 with ⟨_ | _ | ⟨c, _ | ⟨c', cs⟩⟩, rp₁⟩ <;> rw [hread] at h
    · simp at h
    · obtain ⟨rfl, rfl⟩ : [] = line ∧ rp₁ = rp' := by simpa using h
      exact rioRead_weight hread
    · have hweight := rioRead_weight hread
      by_cases hc : c = newline
      · obtain ⟨rfl, rfl⟩ : [c] = line ∧ rp₁ = rp' := by simpa [hc] using h
        exact hweight
      · simp only [hc, ↓reduceIte] at h
        rcases hrest : rioReadlineb room rp₁ with ⟨_ | rest, rp₂⟩ <;> rw [hrest] at h
        · simp at h
        · obtain ⟨rfl, rfl⟩ : c :: rest = line ∧ rp₂ = rp' := by simpa using h
          have htail := ih hrest
          simp only [List.length_cons, List.length_nil] at hweight ⊢
          omega
    · obtain ⟨rfl, rfl⟩ : [] = line ∧ rp₁ = rp' := by simpa using h
      have hweight := rioRead_weight hread
      simp only [List.length_cons, List.length_nil] at hweight ⊢
      omega

/-! ## Connections without errors -/

/-- No call of `read` or `write` on the connection fails, other than by an interrupt. -/
def Conn.Works (conn : Conn) : Prop := .error ∉ conn.rio.reads ∧ .error ∉ conn.writes

/-- A refill without errors delivers something or end of file. -/
theorem refill_works {reads : List ReadResult} (h : .error ∉ reads) :
    ∃ bs rest, refill reads = (some bs, rest) ∧ .error ∉ rest := by
  induction reads with
  | nil => exact ⟨[], [], rfl, h⟩
  | cons r reads ih =>
    obtain ⟨hr, hreads⟩ := not_or.mp (mt List.mem_cons.mpr h)
    cases r with
    | bytes bs => exact ⟨bs, reads, rfl, hreads⟩
    | eintr => exact ih hreads
    | error => exact absurd rfl hr

/-- So does a read. -/
theorem rioRead_works {rp : Rio} (h : .error ∉ rp.reads) (n : ℕ) :
    ∃ bs rp', rioRead rp n = (some bs, rp') ∧ .error ∉ rp'.reads := by
  unfold rioRead
  split_ifs with hempty
  · obtain ⟨bs, rest, hrefill, hrest⟩ := refill_works h
    rw [hrefill]
    exact ⟨_, _, rfl, hrest⟩
  · exact ⟨_, _, rfl, h⟩

/-- **A line is read without an error** where no read fails. -/
theorem rioReadlineb_works {rp : Rio} (h : .error ∉ rp.reads) (room : ℕ) :
    ∃ line rp', rioReadlineb room rp = (some line, rp') ∧ .error ∉ rp'.reads := by
  induction room generalizing rp with
  | zero => exact ⟨[], rp, rfl, h⟩
  | succ room ih =>
    obtain ⟨bs, rp₁, hread, hrp₁⟩ := rioRead_works h 1
    unfold rioReadlineb
    rw [hread]
    rcases bs with _ | ⟨c, _ | ⟨c', cs⟩⟩
    · exact ⟨[], rp₁, rfl, hrp₁⟩
    · by_cases hc : c = newline
      · exact ⟨[c], rp₁, by simp [hc], hrp₁⟩
      · obtain ⟨rest, rp₂, hrest, hrp₂⟩ := ih hrp₁
        exact ⟨c :: rest, rp₂, by simp [hc, hrest], hrp₂⟩
    · exact ⟨[], rp₁, rfl, hrp₁⟩

/-- **Everything is written** where no write fails. -/
theorem rioWriten_works {writes : List WriteResult} (h : .error ∉ writes) (bs : Bytes) :
    (rioWriten writes bs).ok = true ∧ .error ∉ (rioWriten writes bs).writes := by
  induction writes generalizing bs with
  | nil => cases bs <;> exact ⟨rfl, h⟩
  | cons r writes ih =>
    obtain ⟨hr, hwrites⟩ := not_or.mp (mt List.mem_cons.mpr h)
    cases bs with
    | nil => exact ⟨rfl, h⟩
    | cons b bs =>
      cases r with
      | wrote count => exact ih hwrites _
      | eintr => exact ih hwrites _
      | error => exact absurd rfl hr

/-- The process is running, and no connection fails. -/
structure Pool.Works {ι : Type} (s : Pool ι) : Prop where
  running : s.exited = false
  worker : ∀ w, (s.worker w).conn.Works
  queue : ∀ conn ∈ s.queue, conn.Works

/-- A worker moves with a connection that works. -/
theorem Pool.Works.move {ι : Type} [DecidableEq ι] {s s' : Pool ι} (h : s.Works) {w : ι}
    {worker : Worker} (hworker : s'.worker = Function.update s.worker w worker)
    (hrunning : s'.exited = s.exited) (hqueue : ∀ conn ∈ s'.queue, conn.Works)
    (hconn : worker.conn.Works) : s'.Works := by
  refine ⟨hrunning.trans h.running, fun v => ?_, hqueue⟩
  rw [hworker]
  by_cases hv : v = w
  · subst hv
    rw [Function.update_self]
    exact hconn
  · rw [Function.update_of_ne hv]
    exact h.worker v

/-- **No step ends the process** where no connection fails. -/
theorem Pool.Works.step {ι : Type} [DecidableEq ι] {s : Pool ι} (h : s.Works) (w : ι) :
    (workerStep s w).1.Works := by
  have hgoto : ∀ phase, (s.goto w phase).Works := fun phase =>
    h.move rfl rfl h.queue (h.worker w)
  unfold workerStep
  rw [if_neg (by simp [h.running])]
  cases (s.worker w).phase with
  | idle =>
    cases hqueue : s.queue with
    | nil => exact h
    | cons next queue =>
      have hmem := h.queue
      rw [hqueue] at hmem
      exact h.move rfl rfl (fun conn hconn => hmem conn (List.mem_cons_of_mem _ hconn))
        (hmem next List.mem_cons_self)
  | reading =>
    obtain ⟨line, rio, hread, hrio⟩ := rioReadlineb_works (h.worker w).1 (maxLine - 1)
    simp only [hread]
    cases line with
    | nil => exact hgoto _
    | cons b bs => exact h.move rfl rfl h.queue ⟨hrio, (h.worker w).2⟩
  | parsing line => exact hgoto _
  | validating request => dsimp only; split_ifs <;> exact hgoto _
  | locking request =>
    cases s.holder with
    | some v => exact h
    | none => exact h.move rfl rfl h.queue (h.worker w)
  | holding request critical => cases critical <;> exact h.move rfl rfl h.queue (h.worker w)
  | formatting request status response => exact hgoto _
  | sending request status response =>
    obtain ⟨hok, hwrites⟩ := rioWriten_works (h.worker w).2 response.text
    simp only [hok, ↓reduceIte]
    exact h.move rfl rfl h.queue ⟨(h.worker w).1, hwrites⟩

/-! ## A critical section -/

/-- The steps that are left of a frame of a walk. -/
def Frame.left (store : StockStore) : Frame → ℕ
  | .tree p => 3 * (subtreeAt p store).numNodes + 1
  | .node _ => 1

/-- The steps that are left of a critical section, up to the release of the lock. -/
def Critical.left (store : StockStore) : Critical → ℕ
  | .searching p => (subtreeAt p store).numNodes + 5
  | .checking _ => 4
  | .loading _ => 3
  | .storing _ _ => 2
  | .rendering _ => 2
  | .walking frames _ => (frames.map (Frame.left store)).sum + 2
  | .unlocking _ _ => 1

/-- A critical section takes a number of steps linear in the size of the store. -/
theorem left_criticalStart (request : StockRequest) (store : StockStore) :
    (criticalStart request).left store ≤ 3 * store.numNodes + 5 := by
  unfold criticalStart
  split_ifs
  · simp [Critical.left, Frame.left, subtreeAt]
  · simp only [Critical.left, subtreeAt]
    omega

/-- **A critical section is finite**: every step before the release of the lock leaves fewer. -/
theorem Inside.lowers {base store : StockStore} {request : StockRequest} {critical : Critical}
    (h : Inside base request critical store)
    (hlocked : ∀ status response, critical ≠ .unlocking status response) :
    (criticalStep request store critical).2.left (criticalStep request store critical).1 <
      critical.left store := by
  cases critical with
  | searching p =>
    cases hs : subtreeAt p store with
    | nil => simp [criticalStep, hs, Critical.left]
    | node item left right =>
      have hleft : subtreeAt (p ++ [false]) store = left := by
        rw [subtreeAt_concat, hs]
        rfl
      have hright : subtreeAt (p ++ [true]) store = right := by
        rw [subtreeAt_concat, hs]
        rfl
      simp only [criticalStep, hs]
      split_ifs <;> simp only [Critical.left, hs, hleft, hright, BinaryTree.numNodes] <;> omega
  | checking p =>
    obtain ⟨rfl, -, item, hfound⟩ := h
    simp only [criticalStep, hfound.record]
    split_ifs <;> simp [Critical.left]
  | loading p =>
    obtain ⟨rfl, -, item, hfound, -⟩ := h
    simp [criticalStep, hfound.record, Critical.left]
  | storing p loaded => simp [criticalStep, Critical.left]
  | rendering p =>
    obtain ⟨rfl, -, -, item, hfound⟩ := h
    simp [criticalStep, hfound.record, Critical.left]
  | unlocking status response => exact absurd rfl (hlocked status response)
  | walking frames response =>
    rcases frames with _ | ⟨p | p, frames⟩
    · simp [criticalStep, Critical.left]
    · cases hs : subtreeAt p store with
      | nil => simp [criticalStep, hs, Critical.left, Frame.left]
      | node item left right =>
        have hleft : subtreeAt (p ++ [false]) store = left := by
          rw [subtreeAt_concat, hs]
          rfl
        have hright : subtreeAt (p ++ [true]) store = right := by
          rw [subtreeAt_concat, hs]
          rfl
        simp only [criticalStep, hs, Critical.left, Frame.left, List.map_cons, List.sum_cons, hleft,
          hright, BinaryTree.numNodes]
        omega
    · cases hr : recordAt p store with
      | none => simp [criticalStep, hr, Critical.left, Frame.left]
      | some item =>
        simp only [criticalStep, hr]
        split_ifs <;> simp only [Critical.left, Frame.left, List.map_cons, List.sum_cons] <;> omega

/-- Writing through a pointer moves no node. -/
theorem numNodes_modifyAt {α : Type} (f : α → α) (p : List Bool) (t : BinaryTree α) :
    (modifyAt f p t).numNodes = t.numNodes := by
  induction t generalizing p with
  | nil => cases p <;> rfl
  | node a l r hl hr =>
    rcases p with _ | ⟨_ | _, p⟩ <;> simp [modifyAt, hl, hr]

/-- No step of a critical section changes the number of nodes. -/
theorem numNodes_criticalStep (request : StockRequest) (store : StockStore)
    (critical : Critical) :
    (criticalStep request store critical).1.numNodes = store.numNodes := by
  cases critical with
  | searching p =>
    simp only [criticalStep]
    split
    · rfl
    · split_ifs <;> rfl
  | checking p =>
    simp only [criticalStep]
    split
    · rfl
    · split_ifs <;> rfl
  | loading p =>
    simp only [criticalStep]
    split <;> rfl
  | storing p loaded => exact numNodes_modifyAt _ p store
  | rendering p =>
    simp only [criticalStep]
    split <;> rfl
  | unlocking status response => rfl
  | walking frames response =>
    rcases frames with _ | ⟨p | p, frames⟩
    · rfl
    · simp only [criticalStep]
      split <;> rfl
    · simp only [criticalStep]
      split
      · rfl
      · split_ifs <;> rfl

/-! ## A request and the pool -/

/-- What a line that has been read costs at most. -/
def lineCost (store : StockStore) : ℕ := 3 * store.numNodes + 11

/-- The actions that are left of a request, with one for the end of a connection. -/
def Phase.left (store : StockStore) : Phase → ℕ
  | .idle => 0
  | .reading => 1
  | .sending _ _ _ => 2
  | .formatting _ _ _ => 3
  | .holding _ critical => critical.left store + 3
  | .locking _ => 3 * store.numNodes + 9
  | .validating _ => 3 * store.numNodes + 10
  | .parsing _ => 3 * store.numNodes + 11

/-- The actions that are left of a worker with its connection. -/
def Worker.left (store : StockStore) (worker : Worker) : ℕ :=
  worker.phase.left store + lineCost store * worker.conn.rio.weight

/-- A bound on the actions that are left of a pool. -/
def Pool.left {ι : Type} [Fintype ι] (s : Pool ι) : ℕ :=
  (if s.exited then 0 else 1) + (∑ w, (s.worker w).left s.store) +
    lineCost s.store * (s.queue.map fun conn => conn.rio.weight + 1).sum

/-- Outside the lock only the number of nodes matters. -/
theorem Phase.left_congr {phase : Phase} (h : ¬ phase.Holds) {store store' : StockStore}
    (hsame : store'.numNodes = store.numNodes) : phase.left store' = phase.left store := by
  cases phase with
  | holding request critical => exact absurd ⟨request, critical, rfl⟩ h
  | _ => simp [Phase.left, hsame]

/-- A worker that cannot act. -/
def Blocked {ι : Type} (s : Pool ι) (w : ι) : Prop :=
  s.exited = true ∨ ((s.worker w).phase = .idle ∧ s.queue = []) ∨
    ∃ request v, (s.worker w).phase = .locking request ∧ s.holder = some v

variable {ι : Type} [DecidableEq ι] [Fintype ι] {start base : StockStore} {s : Pool ι}
  {trace : List (Event ι)}

/-- The bound after one worker has moved, with the store changed by the holder of the lock at
most. -/
theorem left_move {s' : Pool ι} {w : ι} {worker : Worker}
    (hworker : s'.worker = Function.update s.worker w worker) (hexited : s'.exited = s.exited)
    (hqueue : s'.queue = s.queue) (hnodes : s'.store.numNodes = s.store.numNodes)
    (hstore : s'.store = s.store ∨ ∀ v, v ≠ w → ¬ (s.worker v).phase.Holds)
    (hlower : worker.left s'.store < (s.worker w).left s.store) : s'.left < s.left := by
  have hcost : lineCost s'.store = lineCost s.store := by rw [lineCost, hnodes, lineCost]
  have hothers : ∀ v, v ≠ w → (s'.worker v).left s'.store = (s.worker v).left s.store := by
    intro v hv
    have hphase : (s.worker v).phase.left s'.store = (s.worker v).phase.left s.store := by
      rcases hstore with hsame | hnone
      · rw [hsame]
      · exact Phase.left_congr (hnone v hv) hnodes
    rw [hworker, Function.update_of_ne hv, Worker.left, hphase, hcost, Worker.left]
  have hsum := sum_add_of_eq_off w hothers
  rw [hworker, Function.update_self] at hsum
  rw [Pool.left, Pool.left, hexited, hqueue, hcost, hworker]
  omega

/-- **A worker is blocked, or its action lowers the bound.** -/
theorem Linear.lowers (h : Linear start s trace base) (w : ι) :
    (Blocked s w ∧ (workerStep s w).1 = s) ∨ (workerStep s w).1.left < s.left := by
  unfold workerStep
  by_cases hx : s.exited
  · rw [if_pos hx]
    exact .inl ⟨.inl hx, rfl⟩
  rw [if_neg hx]
  have hexit : ({ s with exited := true } : Pool ι).left < s.left := by
    simp [Pool.left, hx]
  -- a worker outside the lock that goes on
  have hgoto : ∀ worker : Worker, worker.left s.store < (s.worker w).left s.store →
      (s.move w worker).left < s.left := fun worker hlower =>
    left_move rfl rfl rfl rfl (.inl rfl) hlower
  have hphases : ∀ phase : Phase, phase.left s.store < (s.worker w).phase.left s.store →
      (s.goto w phase).left < s.left := by
    intro phase hlower
    refine hgoto _ ?_
    simp only [Worker.left]
    omega
  cases hphase : (s.worker w).phase with
  | idle =>
    cases hqueue : s.queue with
    | nil => exact .inl ⟨.inr (.inl ⟨hphase, hqueue⟩), rfl⟩
    | cons next queue =>
      refine .inr ?_
      have hsum := @sum_add_of_eq_off ι _ _
        (fun v => (Function.update s.worker w ⟨next, .reading⟩ v).left s.store)
        (fun v => (s.worker v).left s.store) w fun v hv => by rw [Function.update_of_ne hv]
      have hbefore : (s.worker w).left s.store =
          lineCost s.store * (s.worker w).conn.rio.weight := by
        rw [Worker.left, hphase, Phase.left, Nat.zero_add]
      have hafter : Worker.left s.store ⟨next, .reading⟩ = 1 + lineCost s.store * next.rio.weight :=
        rfl
      have hcost : 11 ≤ lineCost s.store := Nat.le_add_left _ _
      have hmoved : ({ s with queue := queue }.move w ⟨next, .reading⟩).left =
          (if s.exited then 0 else 1) +
            (∑ v, (Function.update s.worker w ⟨next, .reading⟩ v).left s.store) +
            lineCost s.store * (queue.map fun conn => conn.rio.weight + 1).sum := rfl
      simp only [Function.update_self, hbefore, hafter] at hsum
      rw [hmoved, Pool.left, if_neg hx, hqueue, List.map_cons, List.sum_cons, Nat.mul_add,
        Nat.mul_add, Nat.mul_one]
      omega
  | reading =>
    rcases hread : rioReadlineb (maxLine - 1) (s.worker w).conn.rio with ⟨_ | _ | ⟨b, bs⟩, rio⟩
    · simp only [hread]
      exact .inr hexit
    · simp only [hread]
      exact .inr (hphases _ (by simp [hphase, Phase.left]))
    · simp only [hread]
      refine .inr (hgoto _ ?_)
      have hweight := rioReadlineb_weight hread
      rw [List.length_cons] at hweight
      have hmul := Nat.mul_le_mul_left (lineCost s.store)
        (by omega : rio.weight + 1 ≤ (s.worker w).conn.rio.weight)
      rw [Nat.mul_add, Nat.mul_one] at hmul
      simp only [Worker.left, hphase, Phase.left, lineCost] at hmul ⊢
      omega
  | parsing line => exact .inr (hphases _ (by simp [hphase, Phase.left]))
  | validating request =>
    by_cases hlocks : Locks request
    · simp only [hlocks, ↓reduceIte]
      exact .inr (hphases _ (by simp [hphase, Phase.left]))
    · simp only [hlocks, ↓reduceIte]
      exact .inr (hphases _ (by simp only [hphase, Phase.left]; omega))
  | locking request =>
    cases hholder : s.holder with
    | some v => exact .inl ⟨.inr (.inr ⟨request, v, hphase, hholder⟩), rfl⟩
    | none =>
      have hstart := left_criticalStart request s.store
      refine .inr (@left_move ι _ _ s _ w _ rfl rfl rfl rfl (.inl rfl) ?_)
      simp only [Worker.left, hphase, Phase.left, Pool.goto, Pool.move]
      omega
  | holding request critical =>
    obtain ⟨-, hinside, -⟩ := h.inside w request critical hphase
    have hothers : ∀ v, v ≠ w → ¬ (s.worker v).phase.Holds := fun v hv hholds =>
      hv (h.holds_unique hholds ⟨_, _, hphase⟩)
    have hnodes := numNodes_criticalStep request s.store critical
    have hwork : (∀ status response, critical ≠ .unlocking status response) →
        ({ s with store := (criticalStep request s.store critical).1 }.goto w
          (.holding request (criticalStep request s.store critical).2)).left < s.left := by
      intro hlocked
      have hlower := hinside.lowers hlocked
      refine @left_move ι _ _ s _ w _ rfl rfl rfl hnodes (.inr hothers) ?_
      have hcost : lineCost (criticalStep request s.store critical).1 = lineCost s.store := by
        rw [lineCost, hnodes, lineCost]
      simp only [Worker.left, hphase, Phase.left, Pool.goto, Pool.move, hcost]
      omega
    cases critical with
    | unlocking status response =>
      refine .inr (@left_move ι _ _ s _ w _ rfl rfl rfl rfl (.inl rfl) ?_)
      simp only [Worker.left, hphase, Phase.left, Critical.left, Pool.goto, Pool.move]
      omega
    | _ => exact .inr (hwork nofun)
  | formatting request status response => exact .inr (hphases _ (by simp [hphase, Phase.left]))
  | sending request status response =>
    by_cases hok : (rioWriten (s.worker w).conn.writes response.text).ok
    · simp only [hok, ↓reduceIte]
      refine .inr (hgoto _ ?_)
      simp only [Worker.left, hphase]
      split_ifs <;> simp only [Phase.left] <;> omega
    · simp only [hok, Bool.false_eq_true, ↓reduceIte]
      exact .inr hexit

/-! ## Every connection is served -/

/-- The work of a pool is done: the process has ended, or all workers wait for a connection and
none is queued. -/
def Pool.Done {ι : Type} (s : Pool ι) : Prop :=
  s.exited = true ∨ (s.queue = [] ∧ ∀ w, (s.worker w).phase = .idle)

/-- **Some worker is not blocked** until the work is done: the holder of the lock, if a worker waits
for it. -/
theorem Linear.exists_not_blocked [Nonempty ι] (h : Linear start s trace base)
    (hdone : ¬ s.Done) : ∃ w, ¬ Blocked s w := by
  obtain ⟨hx, hwork⟩ := not_or.mp hdone
  by_cases hidle : ∀ w, (s.worker w).phase = .idle
  · have hqueue : s.queue ≠ [] := fun hqueue => hwork ⟨hqueue, hidle⟩
    obtain ⟨w⟩ := ‹Nonempty ι›
    refine ⟨w, ?_⟩
    rintro (hexited | ⟨-, hempty⟩ | ⟨request, v, hlocking, -⟩)
    · exact hx hexited
    · exact hqueue hempty
    · rw [hidle w] at hlocking
      cases hlocking
  · obtain ⟨w, hw⟩ := not_forall.mp hidle
    by_cases hwaits : ∃ request v, (s.worker w).phase = .locking request ∧ s.holder = some v
    · obtain ⟨request, v, -, hholder⟩ := hwaits
      obtain ⟨request', critical, hholds⟩ := (h.holder v).mp hholder
      refine ⟨v, ?_⟩
      rintro (hexited | ⟨hidle', -⟩ | ⟨request, u, hlocking, -⟩)
      · exact hx hexited
      · rw [hholds] at hidle'
        cases hidle'
      · rw [hholds] at hlocking
        cases hlocking
    · refine ⟨w, ?_⟩
      rintro (hexited | ⟨hidle', -⟩ | hlocking)
      · exact hx hexited
      · exact hw hidle'
      · exact hwaits hlocking

/-- The workers make progress. -/
theorem workers_progress [Nonempty ι] (start : StockStore) :
    (workers (ι := ι)).Progress (fun s => ∃ trace base, Linear start s trace base) Pool.Done
      Pool.left fun w input => input = w where
  keeps := by
    rintro s w ⟨trace, base, h⟩
    obtain ⟨base', h'⟩ := h.step w
    exact ⟨_, base', h'⟩
  lowers := by
    rintro s w ⟨trace, base, h⟩
    exact (h.lowers w).imp_left And.right
  acts := by
    rintro s ⟨trace, base, h⟩ hdone
    obtain ⟨w, hw⟩ := h.exists_not_blocked hdone
    refine ⟨w, fun input hinput hsame => ?_⟩
    have hlower := (h.lowers w).resolve_left fun hblocked => hw hblocked.1
    rw [hinput] at hsame
    exact (congrArg Pool.left hsame).not_lt hlower
  stays := by
    rintro s w ⟨trace, base, h⟩ hdone
    have hblocked : (workerStep s w).1 = s := by
      rcases hdone with hx | ⟨hqueue, hidle⟩
      · rw [workerStep, if_pos hx]
      · rw [workerStep]
        split_ifs
        · rfl
        · simp only [hidle w, hqueue]
    exact (congrArg Pool.Done hblocked).mpr hdone

omit [DecidableEq ι] in
/-- The bound at startup. -/
theorem Pool.Initial.left_le (h : s.Initial) :
    s.left ≤ 1 + Fintype.card ι + lineCost s.store *
      ((∑ w, (s.worker w).conn.rio.weight) +
        (s.queue.map fun conn => conn.rio.weight + 1).sum) := by
  have hworkers : ∑ w, (s.worker w).left s.store ≤
      Fintype.card ι + lineCost s.store * ∑ w, (s.worker w).conn.rio.weight := by
    have hone : ∀ w ∈ Finset.univ, (s.worker w).left s.store ≤
        1 + lineCost s.store * (s.worker w).conn.rio.weight := by
      intro w _
      rw [Worker.left]
      rcases h.phase w with hphase | hphase <;> rw [hphase] <;> simp [Phase.left]
    refine (Finset.sum_le_sum hone).trans ?_
    rw [Finset.sum_add_distrib, ← Finset.mul_sum, Finset.sum_const, Finset.card_univ]
    simp
  have hflag : (if s.exited then 0 else 1) ≤ 1 := by split_ifs <;> omega
  rw [Pool.left, Nat.mul_add]
  omega

open Classical in
/-- **Every connection is served.**  For any finite number of workers and any connections, under
every schedule the workers act a number of times that is linear in what the clients send, and under
every schedule that gives each worker turns again and again they come to an end: a connection that
does not work has ended the process, or no connection is queued, all workers wait for one, every
line that was read has been answered, with the response of a sequential execution, and the store is
the one that execution leaves.

**Proof sketch.** Every action lowers a count of the actions left.  A worker can wait for a
connection, or for the lock; its holder does not wait. -/
theorem workers_complete [Nonempty ι] (start : Pool ι) (h : start.Initial) :
    (∀ (σ : ℕ → ι) (m : ℕ), Nat.count (fun k =>
      workers.after start σ (k + 1) ≠ workers.after start σ k) m ≤
        1 + Fintype.card ι + lineCost start.store *
          ((∑ w, (start.worker w).conn.rio.weight) +
            (start.queue.map fun conn => conn.rio.weight + 1).sum)) ∧
    ∀ σ : ℕ → ι, Machine.Fair (fun w input => input = w) σ → ∃ k, ∀ m, k ≤ m →
      let run := workers.run start ((List.range m).map σ)
      (run.1.exited = true ∧ ¬ start.Works) ∨
        (run.1.queue = [] ∧ (∀ w, (run.1.worker w).phase = .idle) ∧
        ∃ order : List (ι × StockRequest),
          (∀ w, requestsOf w order = (received w run.2).map parseRequest ∧
            answered w run.2 = responsesOf w start.store order) ∧
          run.1.store = (sequential start.store order).2) := by
  have hs : ∃ trace base, Linear start.store start trace base := ⟨[], start.store, .initial h⟩
  refine ⟨fun σ m => ?_, fun σ hfair => ?_⟩
  · have hcount := (workers_progress start.store).count_actions_le hs σ m
    exact le_trans (Nat.le_of_add_right_le hcount) h.left_le
  · obtain ⟨k, hk⟩ := (workers_progress start.store).reaches hs hfair
    refine ⟨k, fun m hm => ?_⟩
    have hdone := hk m hm
    rw [Machine.after_eq_run] at hdone
    refine hdone.imp (fun hx => ⟨hx, fun hworks => ?_⟩) fun hidle => ⟨hidle.1, hidle.2, ?_⟩
    · have hrun : (workers.run start ((List.range m).map σ)).1.Works :=
        @Machine.run_induction _ _ _ workers (fun s' _ => s'.Works) _ hworks
          (fun _ _ w hs' => hs'.step w) _
      rw [hrun.running] at hx
      cases hx
    obtain ⟨base, hlinear⟩ := Linear.run h ((List.range m).map σ)
    refine ⟨entries (workers.run start ((List.range m).map σ)).2, fun w => ?_, hlinear.free ?_⟩
    · have hrequests := hlinear.requests w
      have hresponses := hlinear.responses w
      rw [hidle.2 w] at hrequests hresponses
      simp only [pending, owed, List.append_nil] at hrequests hresponses
      exact ⟨hrequests, hresponses.symm⟩
    · cases hholder : (workers.run start ((List.range m).map σ)).1.holder with
      | none => rfl
      | some w =>
        obtain ⟨request, critical, hholds⟩ := (hlinear.holder w).mp hholder
        rw [hidle.2 w] at hholds
        cases hholds

/-- Two workers on one item that take turns. -/
theorem workers_complete_pair :
    ∃ k, ∀ m, k ≤ m →
      let run := workers.run pairPool ((List.range m).map fun k => decide (k % 2 = 0))
      run.1.queue = [] ∧ ∀ w, (run.1.worker w).phase = .idle := by
  have hinitial : pairPool.Initial := ⟨fun _ => Or.inr rfl, rfl⟩
  have hworks : pairPool.Works := ⟨rfl, fun w => by cases w <;> exact ⟨by simp [pairPool,
    rioReadinitb], by simp [pairPool]⟩, by simp [pairPool]⟩
  have hfair : Machine.Fair (fun w input : Bool => input = w) fun k => decide (k % 2 = 0) := by
    intro w k
    cases w with
    | true => exact ⟨2 * k, by omega, by simp⟩
    | false => exact ⟨2 * k + 1, by omega, by simp⟩
  obtain ⟨k, hk⟩ := (workers_complete pairPool hinitial).2 _ hfair
  refine ⟨k, fun m hm => ?_⟩
  rcases hk m hm with ⟨-, hfails⟩ | ⟨hqueue, hidle, -⟩
  · exact absurd hworks hfails
  · exact ⟨hqueue, hidle⟩

end StockServer
