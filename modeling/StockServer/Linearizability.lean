import StockServer.Workers

set_option relaxedAutoImplicit false
set_option autoImplicit false

/-!
# Concurrent requests take effect one at a time

Every run of the worker pool answers its requests as if they had been executed one after another,
in the order in which they took the lock (or were settled without it).  That order extends the
order of each worker and the real-time order, and the store it ends with is the store of the pool
whenever nobody holds the lock.

## Main definitions

* `received`, `answered`, `entries` — what a trace shows of one worker, and the order in which
  requests entered.
* `sentBy`, `onWire` — the bytes an action and a run put on the connections of a worker.
* `requestsOf`, `responsesOf`, `sequential` — the requests of one worker in an order, the
  responses it gets when the order is executed one request at a time, and that execution.
* `Linear` — the simulation: every request is somewhere on its way from the line it came in to the
  response of its sequential execution.

## Main results

* `Linear.step` — every action of every worker keeps the simulation.
* `onWire_spec` — what is on the wire are the answers, and possibly first bytes of one more.
* `workers_linearizable` — every run is equivalent to a sequential one.

## Implementation notes

A request that was answered before another was read is counted among the first
`requestsOf w o₁` of its worker at a point `o₁` of the order, and the other is not: so the real-time
order is stated by counting, at every point of the trace.  `answered` counts whole responses; a
response of which a failing write has sent first bytes only is on the wire, and the process ends.
-/

namespace StockServer

variable {ι : Type} [DecidableEq ι]

/-! ## What a trace shows -/

omit [DecidableEq ι] in
/-- The worker an event is about. -/
def Event.actor : Event ι → ι
  | .received w _ => w
  | .entered w _ => w
  | .answered w _ => w

/-- The lines a worker has read. -/
def received (w : ι) (trace : List (Event ι)) : List Bytes :=
  trace.filterMap fun
    | .received v line => if v = w then some line else none
    | _ => none

/-- The responses a worker has sent. -/
def answered (w : ι) (trace : List (Event ι)) : List Bytes :=
  trace.filterMap fun
    | .answered v response => if v = w then some response else none
    | _ => none

omit [DecidableEq ι] in
/-- The requests that have entered, in that order, each with its worker. -/
def entries (trace : List (Event ι)) : List (ι × StockRequest) :=
  trace.filterMap fun
    | .entered w request => some (w, request)
    | _ => none

/-- The bytes an action of the worker puts on its connection: the response, or as much of it as
`write` takes before it fails. -/
def sentBy (s : Pool ι) (w : ι) : Bytes :=
  if s.exited then []
  else
    match (s.worker w).phase with
    | .sending _ _ response => (rioWriten (s.worker w).conn.writes response.text).sent
    | _ => []

/-- The bytes a worker has put on its connections in a run. -/
def onWire (w : ι) (s : Pool ι) : List ι → Bytes
  | [] => []
  | v :: schedule => (if v = w then sentBy s w else []) ++ onWire w (workerStep s v).1 schedule

@[simp] theorem received_append (w : ι) (t₁ t₂ : List (Event ι)) :
    received w (t₁ ++ t₂) = received w t₁ ++ received w t₂ := List.filterMap_append

@[simp] theorem answered_append (w : ι) (t₁ t₂ : List (Event ι)) :
    answered w (t₁ ++ t₂) = answered w t₁ ++ answered w t₂ := List.filterMap_append

omit [DecidableEq ι] in
@[simp] theorem entries_append (t₁ t₂ : List (Event ι)) :
    entries (t₁ ++ t₂) = entries t₁ ++ entries t₂ := List.filterMap_append

/-! ## Sequential executions -/

/-- The requests of one worker in an order. -/
def requestsOf (w : ι) (order : List (ι × StockRequest)) : List StockRequest :=
  order.filterMap fun entry => if entry.1 = w then some entry.2 else none

omit [DecidableEq ι] in
/-- An order executed one request at a time. -/
def sequential (store : StockStore) (order : List (ι × StockRequest)) :
    List Served × StockStore :=
  serveRequests store (order.map Prod.snd)

/-- The responses one worker gets when an order is executed one request at a time. -/
def responsesOf (w : ι) (store : StockStore) (order : List (ι × StockRequest)) : List Bytes :=
  (order.zip (sequential store order).1).filterMap fun entry =>
    if entry.1.1 = w then some entry.2.response else none

@[simp] theorem requestsOf_append (w : ι) (o₁ o₂ : List (ι × StockRequest)) :
    requestsOf w (o₁ ++ o₂) = requestsOf w o₁ ++ requestsOf w o₂ := List.filterMap_append

omit [DecidableEq ι] in
/-- One more request is executed on the store the others left. -/
theorem sequential_concat (store : StockStore) (order : List (ι × StockRequest)) (w : ι)
    (request : StockRequest) : sequential store (order ++ [(w, request)]) =
      ((sequential store order).1 ++ [serveRequest (sequential store order).2 request],
        (serveRequest (sequential store order).2 request).store) := by
  simp [sequential, serveRequests_concat]

/-- One more request gives one more response to its own worker. -/
theorem responsesOf_concat (v w : ι) (store : StockStore) (order : List (ι × StockRequest))
    (request : StockRequest) : responsesOf v store (order ++ [(w, request)]) =
      responsesOf v store order ++
        if w = v then [(serveRequest (sequential store order).2 request).response] else [] := by
  have hlen : order.length = (sequential store order).1.length := by
    simp [sequential, length_serveRequests]
  rw [responsesOf, sequential_concat, List.zip_append hlen, List.filterMap_append]
  by_cases h : w = v <;> simp [responsesOf, h]

/-- A worker gets one response for each of its requests. -/
theorem length_responsesOf (w : ι) (store : StockStore) (order : List (ι × StockRequest)) :
    (responsesOf w store order).length = (requestsOf w order).length := by
  induction order using List.reverseRecOn with
  | nil => rfl
  | append_singleton order entry ih =>
    obtain ⟨v, request⟩ := entry
    rw [responsesOf_concat, requestsOf_append, List.length_append, List.length_append, ih]
    by_cases h : v = w <;> simp [requestsOf, h]

/-! ## The simulation -/

/-- The request a worker has read but that has not entered. -/
def pending : Phase → List StockRequest
  | .parsing line => [parseRequest line]
  | .validating request => [request]
  | .locking request => [request]
  | _ => []

/-- The response a worker has yet to send to a request that has entered; inside the lock it is
the response of the sequential execution from the store `base`. -/
def owed (base : StockStore) : Phase → List Bytes
  | .holding request _ => [(serveRequest base request).response]
  | .formatting request status response => [(answerOf request status response).2]
  | .sending _ _ response => [response.text]
  | _ => []

/-- The worker holds the lock. -/
def Phase.Holds (phase : Phase) : Prop := ∃ request critical, phase = .holding request critical

/-- Outside the lock the response owed does not depend on a store. -/
theorem owed_of_not_holds {phase : Phase} (h : ¬ phase.Holds) (base base' : StockStore) :
    owed base phase = owed base' phase := by
  cases phase with
  | holding request critical => exact absurd ⟨request, critical, rfl⟩ h
  | _ => rfl

/-- **The simulation** of a pool by the sequential execution of the requests that have entered:
`base` is the store on which the current holder of the lock entered. -/
structure Linear (start : StockStore) (s : Pool ι) (trace : List (Event ι)) (base : StockStore) :
    Prop where
  locks : ∀ w request, (s.worker w).phase = .locking request → Locks request
  holder : ∀ w, s.holder = some w ↔ (s.worker w).phase.Holds
  free : s.holder = none → s.store = (sequential start (entries trace)).2
  inside : ∀ w request critical, (s.worker w).phase = .holding request critical →
    Locks request ∧ Inside base request critical s.store ∧
      (sequential start (entries trace)).2 = (serveRequest base request).store
  requests : ∀ w, requestsOf w (entries trace) ++ pending (s.worker w).phase =
    (received w trace).map parseRequest
  responses : ∀ w, responsesOf w start (entries trace) =
    answered w trace ++ owed base (s.worker w).phase

variable {start base base' : StockStore} {s s' : Pool ι} {trace e : List (Event ι)} {v w : ι}
  {worker : Worker}

/-- At most one worker holds the lock. -/
theorem Linear.holds_unique (h : Linear start s trace base)
    (hv : (s.worker v).phase.Holds) (hw : (s.worker w).phase.Holds) : v = w := by
  have h₁ := (h.holder v).mpr hv
  rw [(h.holder w).mpr hw] at h₁
  exact (Option.some.inj h₁).symm

/-- An event is no news of another worker. -/
theorem trace_other {ev : Event ι} (h : ev.actor ≠ v) (start : StockStore)
    (trace : List (Event ι)) : received v (trace ++ [ev]) = received v trace ∧
      answered v (trace ++ [ev]) = answered v trace ∧
      requestsOf v (entries (trace ++ [ev])) = requestsOf v (entries trace) ∧
      responsesOf v start (entries (trace ++ [ev])) = responsesOf v start (entries trace) := by
  cases ev with
  | received w line | answered w line =>
    simp only [Event.actor] at h
    simp [received, answered, entries, h]
  | entered w request =>
    simp only [Event.actor] at h
    have hentry : entries [Event.entered w request] = [(w, request)] := rfl
    rw [entries_append, hentry, responsesOf_concat, requestsOf_append]
    simp [received, answered, requestsOf, h]

/-- **A step of one worker**, whose events are all its own: the simulation goes on if the lock and
the store stay in order and the worker's own requests and responses do. -/
theorem Linear.advance (h : Linear start s trace base)
    (hworker : s'.worker = Function.update s.worker w worker)
    (hevents : e = [] ∨ ∃ ev : Event ι, e = [ev] ∧ ev.actor = w)
    (hbase : ∀ v, v ≠ w → owed base' (s.worker v).phase = owed base (s.worker v).phase)
    (hlocks : ∀ request, worker.phase = .locking request → Locks request)
    (hholder : ∀ v, s'.holder = some v ↔ (s'.worker v).phase.Holds)
    (hfree : s'.holder = none → s'.store = (sequential start (entries (trace ++ e))).2)
    (hinside : ∀ v request critical, (s'.worker v).phase = .holding request critical →
      Locks request ∧ Inside base' request critical s'.store ∧
        (sequential start (entries (trace ++ e))).2 = (serveRequest base' request).store)
    (hrequests : requestsOf w (entries (trace ++ e)) ++ pending worker.phase =
      (received w (trace ++ e)).map parseRequest)
    (hresponses : responsesOf w start (entries (trace ++ e)) =
      answered w (trace ++ e) ++ owed base' worker.phase) :
    Linear start s' (trace ++ e) base' := by
  have hself : s'.worker w = worker := by rw [hworker, Function.update_self]
  have hne : ∀ v, v ≠ w → s'.worker v = s.worker v := fun v hv => by
    rw [hworker, Function.update_of_ne hv]
  have hother : ∀ v, v ≠ w → received v (trace ++ e) = received v trace ∧
      answered v (trace ++ e) = answered v trace ∧
      requestsOf v (entries (trace ++ e)) = requestsOf v (entries trace) ∧
      responsesOf v start (entries (trace ++ e)) = responsesOf v start (entries trace) := by
    intro v hv
    rcases hevents with rfl | ⟨ev, rfl, rfl⟩
    · simp
    · exact trace_other (Ne.symm hv) start trace
  refine ⟨fun v request hp => ?_, hholder, hfree, hinside, fun v => ?_, fun v => ?_⟩
  · by_cases hv : v = w
    · subst hv; exact hlocks request (hself ▸ hp)
    · exact h.locks v request (hne v hv ▸ hp)
  · by_cases hv : v = w
    · subst hv; rw [hself]; exact hrequests
    · obtain ⟨hrec, -, hreq, -⟩ := hother v hv
      rw [hne v hv, hrec, hreq, h.requests]
  · by_cases hv : v = w
    · subst hv; rw [hself]; exact hresponses
    · obtain ⟨-, hans, -, hresp⟩ := hother v hv
      rw [hne v hv, hans, hresp, hbase v hv, h.responses]

/-- A step outside the lock that leaves the store of the sequential execution as it is. -/
theorem Linear.outside (h : Linear start s trace base)
    (hworker : s'.worker = Function.update s.worker w worker) (hholder : s'.holder = s.holder)
    (hstore : s'.store = s.store) (hold : ¬ (s.worker w).phase.Holds)
    (hnew : ¬ worker.phase.Holds)
    (hevents : e = [] ∨ ∃ ev : Event ι, e = [ev] ∧ ev.actor = w)
    (hsequential : (sequential start (entries (trace ++ e))).2 =
      (sequential start (entries trace)).2)
    (hlocks : ∀ request, worker.phase = .locking request → Locks request)
    (hrequests : requestsOf w (entries (trace ++ e)) ++ pending worker.phase =
      (received w (trace ++ e)).map parseRequest)
    (hresponses : responsesOf w start (entries (trace ++ e)) =
      answered w (trace ++ e) ++ owed base worker.phase) :
    Linear start s' (trace ++ e) base := by
  have hself : s'.worker w = worker := by rw [hworker, Function.update_self]
  have hne : ∀ v, v ≠ w → s'.worker v = s.worker v := fun v hv => by
    rw [hworker, Function.update_of_ne hv]
  refine h.advance hworker hevents (fun _ _ => rfl) hlocks (fun v => ?_) (fun hfree => ?_)
    (fun v request critical hp => ?_) hrequests hresponses
  · rw [hholder, h.holder v]
    by_cases hv : v = w
    · subst hv; rw [hself]; exact iff_of_false hold hnew
    · rw [hne v hv]
  · rw [hstore, hsequential]
    exact h.free (hholder ▸ hfree)
  · rw [hstore, hsequential]
    by_cases hv : v = w
    · subst hv; exact absurd ⟨request, critical, hself ▸ hp⟩ hnew
    · exact h.inside v request critical (hne v hv ▸ hp)

/-! ## What each step does to the simulation -/

/-- The news of a line that was read. -/
theorem trace_received (w : ι) (line : Bytes) (trace : List (Event ι)) :
    received w (trace ++ [.received w line]) = received w trace ++ [line] ∧
      answered w (trace ++ [.received w line]) = answered w trace ∧
      entries (trace ++ [.received w line]) = entries trace := by
  simp [received, answered, entries]

/-- The news of a response that was sent. -/
theorem trace_answered (w : ι) (response : Bytes) (trace : List (Event ι)) :
    received w (trace ++ [.answered w response]) = received w trace ∧
      answered w (trace ++ [.answered w response]) = answered w trace ++ [response] ∧
      entries (trace ++ [.answered w response]) = entries trace := by
  simp [received, answered, entries]

/-- The news of a request that has entered. -/
theorem trace_entered (w : ι) (request : StockRequest) (trace : List (Event ι)) :
    received w (trace ++ [.entered w request]) = received w trace ∧
      answered w (trace ++ [.entered w request]) = answered w trace ∧
      entries (trace ++ [.entered w request]) = entries trace ++ [(w, request)] := by
  simp [received, answered, entries]

/-- A request that enters is the next of its worker and is executed on the store of the sequential
execution. -/
theorem Linear.enter (h : Linear start s trace base) {request : StockRequest}
    (hpending : pending (s.worker w).phase = [request])
    (howed : owed base (s.worker w).phase = []) :
    requestsOf w (entries (trace ++ [.entered w request])) =
        (received w (trace ++ [.entered w request])).map parseRequest ∧
      responsesOf w start (entries (trace ++ [.entered w request])) =
        answered w (trace ++ [.entered w request]) ++
          [(serveRequest (sequential start (entries trace)).2 request).response] ∧
      (sequential start (entries (trace ++ [.entered w request]))).2 =
        (serveRequest (sequential start (entries trace)).2 request).store := by
  obtain ⟨hrec, hans, hent⟩ := trace_entered w request trace
  have hreq := h.requests w
  have hresp := h.responses w
  rw [hpending] at hreq
  rw [howed, List.append_nil] at hresp
  rw [hrec, hans, hent, ← hreq, responsesOf_concat, sequential_concat, hresp]
  simp [requestsOf]

/-- A request that is settled without the lock. -/
theorem Linear.settle (h : Linear start s trace base) {request : StockRequest}
    (hphase : (s.worker w).phase = .validating request) (hlocks : ¬ Locks request) :
    Linear start (s.goto w (.formatting request (validateRequest request) responseInit))
      (trace ++ [.entered w request]) base := by
  obtain ⟨hreq, hresp, hstore⟩ := @Linear.enter _ _ _ _ _ _ w h request
    (by rw [hphase]; rfl) (by rw [hphase]; rfl)
  rw [serveRequest_of_not_locks hlocks] at hresp hstore
  refine h.outside rfl rfl rfl ?_ ?_ (Or.inr ⟨_, rfl, rfl⟩) hstore ?_ ?_ hresp
  · rw [hphase]; rintro ⟨_, _, ⟨⟩⟩
  · rintro ⟨_, _, ⟨⟩⟩
  · rintro _ ⟨⟩
  · rw [hreq]; exact List.append_nil _

/-- A request that takes the lock. -/
theorem Linear.lock (h : Linear start s trace base) {request : StockRequest}
    (hphase : (s.worker w).phase = .locking request) (hfree : s.holder = none) :
    Linear start
      ({ s with holder := some w }.goto w (.holding request (criticalStart request)))
      (trace ++ [.entered w request]) s.store := by
  obtain ⟨hreq, hresp, hstore⟩ := @Linear.enter _ _ _ _ _ _ w h request
    (by rw [hphase]; rfl) (by rw [hphase]; rfl)
  have hnobody : ∀ v, ¬ (s.worker v).phase.Holds := fun v hv => by
    have := (h.holder v).mpr hv
    rw [hfree] at this
    cases this
  have hself : ({ s with holder := some w }.goto w
      (.holding request (criticalStart request))).worker w =
        ⟨(s.worker w).conn, .holding request (criticalStart request)⟩ := Function.update_self ..
  have hne : ∀ v, v ≠ w → ({ s with holder := some w }.goto w
      (.holding request (criticalStart request))).worker v = s.worker v := fun v hv =>
    Function.update_of_ne hv _ _
  rw [← h.free hfree] at hresp hstore
  refine h.advance rfl (Or.inr ⟨_, rfl, rfl⟩) (fun v _ => owed_of_not_holds (hnobody v) _ _) ?_
    (fun v => ?_) ?_ (fun v r critical hp => ?_) ?_ hresp
  · rintro _ ⟨⟩
  · by_cases hv : v = w
    · subst hv; exact iff_of_true rfl ⟨_, _, congrArg Worker.phase hself⟩
    · rw [hne v hv]
      exact iff_of_false (fun hvw => hv (Option.some.inj hvw).symm) (hnobody v)
  · rintro ⟨⟩
  · by_cases hv : v = w
    · subst hv
      rw [hself] at hp
      obtain ⟨rfl, rfl⟩ : request = r ∧ criticalStart request = critical := by simpa using hp
      exact ⟨h.locks v request hphase, Inside.start request s.store, hstore⟩
    · exact absurd ⟨r, critical, hne v hv ▸ hp⟩ (hnobody v)
  · rw [hreq]; exact List.append_nil _

/-- One action inside the lock. -/
theorem Linear.work (h : Linear start s trace base) {request : StockRequest}
    {critical : Critical} (hphase : (s.worker w).phase = .holding request critical) :
    let next := criticalStep request s.store critical
    Linear start ({ s with store := next.1 }.goto w (.holding request next.2)) trace base := by
  intro next
  obtain ⟨hlocks, hinside, hstore⟩ := h.inside w request critical hphase
  have hw : s.holder = some w := (h.holder w).mpr ⟨_, _, hphase⟩
  have hself : ({ s with store := next.1 }.goto w (.holding request next.2)).worker w =
      ⟨(s.worker w).conn, .holding request next.2⟩ := Function.update_self ..
  have hne : ∀ v, v ≠ w → ({ s with store := next.1 }.goto w (.holding request next.2)).worker v =
      s.worker v := fun v hv => Function.update_of_ne hv _ _
  have hreq := h.requests w
  have hresp := h.responses w
  rw [hphase] at hreq hresp
  rw [← List.append_nil trace] at hreq hresp hstore ⊢
  refine h.advance rfl (Or.inl rfl) (fun _ _ => rfl) ?_ (fun v => ?_) (fun hfree => ?_)
    (fun v r c hp => ?_) hreq hresp
  · rintro _ ⟨⟩
  · by_cases hv : v = w
    · subst hv; exact iff_of_true hw ⟨_, _, congrArg Worker.phase hself⟩
    · rw [hne v hv]; exact h.holder v
  · exact absurd (hw.symm.trans hfree) (Option.some_ne_none w)
  · obtain rfl : v = w := by
      by_contra hv
      exact hv (h.holds_unique ⟨r, c, hne v hv ▸ hp⟩ ⟨_, _, hphase⟩)
    rw [hself] at hp
    obtain ⟨rfl, rfl⟩ : request = r ∧ next.2 = c := by simpa using hp
    exact ⟨hlocks, hinside.step, hstore⟩

/-- A worker that releases the lock. -/
theorem Linear.unlock (h : Linear start s trace base) {request : StockRequest}
    {status : StockStatus} {response : ResponseBuilder}
    (hphase : (s.worker w).phase = .holding request (.unlocking status response)) :
    Linear start ({ s with holder := none }.goto w (.formatting request status response)) trace
      base := by
  obtain ⟨hlocks, hinside, hstore⟩ := h.inside w request _ hphase
  have hresult : handlerResult base request = (status, response, s.store) := hinside
  have hserved := @serveRequest_of_locks base _ hlocks
  rw [hresult] at hserved
  have hself : ({ s with holder := none }.goto w (.formatting request status response)).worker w =
      ⟨(s.worker w).conn, .formatting request status response⟩ := Function.update_self ..
  have hne : ∀ v, v ≠ w → ({ s with holder := none }.goto w
      (.formatting request status response)).worker v = s.worker v := fun v hv =>
    Function.update_of_ne hv _ _
  have hnobody : ∀ v, ¬ (({ s with holder := none }.goto w
      (.formatting request status response)).worker v).phase.Holds := by
    rintro v ⟨r, c, hp⟩
    by_cases hv : v = w
    · subst hv; rw [hself] at hp; cases hp
    · exact hv (h.holds_unique ⟨r, c, hne v hv ▸ hp⟩ ⟨_, _, hphase⟩)
  have hreq := h.requests w
  have hresp := h.responses w
  rw [hphase] at hreq hresp
  rw [owed, hserved] at hresp
  rw [hserved] at hstore
  rw [← List.append_nil trace] at hreq hresp hstore ⊢
  refine h.advance rfl (Or.inl rfl) (fun _ _ => rfl) ?_ (fun v => ?_) (fun _ => hstore.symm)
    (fun v r c hp => absurd ⟨r, c, hp⟩ (hnobody v)) hreq hresp
  · rintro _ ⟨⟩
  · exact iff_of_false (by rintro ⟨⟩) (hnobody v)

/-- A step that neither reads a line, nor lets a request enter, nor sends a response, outside the
lock. -/
theorem Linear.silent (h : Linear start s trace base)
    (hworker : s'.worker = Function.update s.worker w worker) (hholder : s'.holder = s.holder)
    (hstore : s'.store = s.store) (hold : ¬ (s.worker w).phase.Holds)
    (hnew : ¬ worker.phase.Holds)
    (hlocks : ∀ request, worker.phase = .locking request → Locks request)
    (hpending : pending worker.phase = pending (s.worker w).phase)
    (howed : owed base worker.phase = owed base (s.worker w).phase) :
    Linear start s' trace base := by
  have hreq := h.requests w
  have hresp := h.responses w
  rw [← hpending] at hreq
  rw [← howed] at hresp
  rw [← List.append_nil trace] at hreq hresp ⊢
  exact h.outside hworker hholder hstore hold hnew (Or.inl rfl) (by simp) hlocks hreq hresp

/-- A worker that has read a line. -/
theorem Linear.receive (h : Linear start s trace base) {line : Bytes}
    (hphase : (s.worker w).phase = .reading) (conn : Conn) :
    Linear start (s.move w ⟨conn, .parsing line⟩) (trace ++ [.received w line]) base := by
  obtain ⟨hrec, hans, hent⟩ := trace_received w line trace
  have hreq := h.requests w
  have hresp := h.responses w
  rw [hphase] at hreq hresp
  refine h.outside rfl rfl rfl ?_ ?_ (Or.inr ⟨_, rfl, rfl⟩) (by rw [hent]) ?_ ?_ ?_
  · rw [hphase]; rintro ⟨_, _, ⟨⟩⟩
  · rintro ⟨_, _, ⟨⟩⟩
  · rintro _ ⟨⟩
  · rw [hent, hrec, List.map_append, ← hreq]; simp [pending]
  · rw [hent, hans, hresp]; rfl

/-- A worker that has sent a response. -/
theorem Linear.answer (h : Linear start s trace base) {request : StockRequest}
    {status : StockStatus} {response : ResponseBuilder}
    (hphase : (s.worker w).phase = .sending request status response) (conn : Conn)
    {next : Phase} (hnext : next = .idle ∨ next = .reading) :
    Linear start (s.move w ⟨conn, next⟩) (trace ++ [.answered w response.text]) base := by
  obtain ⟨hrec, hans, hent⟩ := trace_answered w response.text trace
  have hreq := h.requests w
  have hresp := h.responses w
  rw [hphase] at hreq hresp
  refine h.outside rfl rfl rfl ?_ ?_ (Or.inr ⟨_, rfl, rfl⟩) (by rw [hent]) ?_ ?_ ?_
  · rw [hphase]; rintro ⟨_, _, ⟨⟩⟩
  · rcases hnext with rfl | rfl <;> rintro ⟨_, _, ⟨⟩⟩
  · rcases hnext with rfl | rfl <;> rintro _ ⟨⟩
  · rw [hent, hrec, ← hreq]; rcases hnext with rfl | rfl <;> rfl
  · rw [hent, hans, hresp]; rcases hnext with rfl | rfl <;> simp [owed]

/-- The end of the process. -/
theorem Linear.exit (h : Linear start s trace base) :
    Linear start { s with exited := true } trace base :=
  ⟨h.locks, h.holder, h.free, h.inside, h.requests, h.responses⟩

/-- A worker outside the lock that turns to another connection. -/
theorem Linear.take (h : Linear start s trace base) (hphase : (s.worker w).phase = .idle)
    (conn : Conn) : Linear start (s.move w ⟨conn, .reading⟩) trace base := by
  refine h.silent rfl rfl rfl ?_ ?_ ?_ ?_ ?_ <;> simp [hphase, Phase.Holds, pending, owed]

/-- **Every action of every worker keeps the simulation.** -/
theorem Linear.step (h : Linear start s trace base) (w : ι) : ∃ base',
    Linear start (workerStep s w).1 (trace ++ (workerStep s w).2) base' := by
  have hstay : ∃ base', Linear start s (trace ++ []) base' := ⟨base, by simpa using h⟩
  have hexit : ∃ base', Linear start { s with exited := true } (trace ++ []) base' :=
    ⟨base, by simpa using h.exit⟩
  have hsilent : ∀ {s' : Pool ι}, Linear start s' trace base →
      ∃ base', Linear start s' (trace ++ []) base' := fun h' => ⟨base, by simpa using h'⟩
  unfold workerStep
  by_cases hx : s.exited
  · rw [if_pos hx]; exact hstay
  rw [if_neg hx]
  cases hphase : (s.worker w).phase with
  | idle =>
    cases hqueue : s.queue with
    | nil => exact hstay
    | cons next queue =>
      refine hsilent (h.silent rfl rfl rfl ?_ ?_ ?_ ?_ ?_) <;>
        simp [hphase, Phase.Holds, pending, owed]
  | reading =>
    rcases hread : rioReadlineb (maxLine - 1) (s.worker w).conn.rio with ⟨_ | _ | ⟨b, bs⟩, rio⟩
    · simp only [hread]; exact hexit
    · simp only [hread]
      refine hsilent (h.silent rfl rfl rfl ?_ ?_ ?_ ?_ ?_) <;>
        simp [hphase, Phase.Holds, pending, owed]
    · simp only [hread]
      exact ⟨base, h.receive hphase _⟩
  | parsing line =>
    refine hsilent (h.silent rfl rfl rfl ?_ ?_ ?_ ?_ ?_) <;>
      simp [hphase, Phase.Holds, pending, owed]
  | validating request =>
    by_cases hlocks : Locks request
    · simp only [hlocks, ↓reduceIte]
      refine hsilent (h.silent rfl rfl rfl ?_ ?_ ?_ ?_ ?_) <;>
        simp [hphase, Phase.Holds, pending, owed, hlocks]
    · simp only [hlocks, ↓reduceIte]
      exact ⟨base, h.settle hphase hlocks⟩
  | locking request =>
    cases hholder : s.holder with
    | none => exact ⟨s.store, h.lock hphase hholder⟩
    | some v => exact hstay
  | holding request critical =>
    cases critical with
    | unlocking status response => exact hsilent (h.unlock hphase)
    | _ => exact hsilent (h.work hphase)
  | formatting request status response =>
    refine hsilent (h.silent rfl rfl rfl ?_ ?_ ?_ ?_ ?_) <;>
      simp [hphase, Phase.Holds, pending, owed, answerOf]
  | sending request status response =>
    by_cases hok : (rioWriten (s.worker w).conn.writes response.text).ok
    · simp only [hok, ↓reduceIte]
      refine ⟨base, h.answer hphase _ ?_⟩
      split_ifs
      · exact Or.inl rfl
      · exact Or.inr rfl
    · simp only [hok, Bool.false_eq_true, ↓reduceIte]
      exact hexit

/-! ## Runs -/

/-- A pool at startup: no worker is serving a request and nobody holds the lock. -/
structure Pool.Initial (s : Pool ι) : Prop where
  phase : ∀ w, (s.worker w).phase = .idle ∨ (s.worker w).phase = .reading
  holder : s.holder = none

/-- The simulation holds at startup. -/
theorem Linear.initial (h : s.Initial) : Linear s.store s [] s.store := by
  refine ⟨fun w r hp => ?_, fun w => ?_, fun _ => rfl, fun w r c hp => ?_, fun w => ?_, fun w => ?_⟩
  · rcases h.phase w with hw | hw <;> rw [hw] at hp <;> cases hp
  · rw [h.holder]
    refine iff_of_false (by rintro ⟨⟩) ?_
    rcases h.phase w with hw | hw <;> rw [hw] <;> rintro ⟨_, _, ⟨⟩⟩
  · rcases h.phase w with hw | hw <;> rw [hw] at hp <;> cases hp
  · rcases h.phase w with hw | hw <;> rw [hw] <;> rfl
  · rcases h.phase w with hw | hw <;> rw [hw] <;> rfl

/-- The simulation holds after every run. -/
theorem Linear.run (h : s.Initial) (schedule : List ι) : ∃ base,
    Linear s.store (workers.run s schedule).1 (workers.run s schedule).2 base :=
  workers.run_induction (P := fun s' trace => ∃ base, Linear s.store s' trace base)
    ⟨s.store, .initial h⟩ (fun _ _ w ⟨_, hs⟩ => hs.step w) schedule

/-- A step shows at most one event. -/
theorem length_workerStep_le (s : Pool ι) (w : ι) : (workerStep s w).2.length ≤ 1 := by
  unfold workerStep
  split_ifs
  · simp
  · simp only
    split
    · split <;> simp
    · split <;> simp
    · simp
    · split_ifs <;> simp
    · split <;> simp
    · simp
    · simp
    · simp
    · split_ifs <;> simp

/-! ## What is on the wire -/

/-- The bytes a worker has on the wire behind its last answer: none, or, once the process has ended,
first bytes of the response it was sending. -/
def CutShort (s : Pool ι) (w : ι) (cut : Bytes) : Prop :=
  cut = [] ∨ s.exited ∧ ∃ request status response,
    (s.worker w).phase = .sending request status response ∧ cut <+: response.text

/-- One more action puts its bytes behind those that are there. -/
theorem onWire_concat (w v : ι) (s : Pool ι) (schedule : List ι) :
    onWire w s (schedule ++ [v]) =
      onWire w s schedule ++ if v = w then sentBy (workers.run s schedule).1 w else [] := by
  induction schedule generalizing s with
  | nil => simp [onWire]
  | cons u schedule ih =>
    rw [List.cons_append, onWire, onWire, ih, List.append_assoc]
    rfl

/-- An action of one worker answers no other. -/
theorem answered_workerStep_other {s : Pool ι} (h : v ≠ w) :
    answered w (workerStep s v).2 = [] := by
  unfold workerStep
  split_ifs
  · rfl
  cases hphase : (s.worker v).phase with
  | sending request status response =>
    dsimp only
    split_ifs <;> simp [answered, h]
  | holding request critical => cases critical <;> rfl
  | parsing line => rfl
  | formatting request status response => rfl
  | _ => dsimp only; split <;> rfl

/-- **What an action puts on the wire** is the response it has answered with, or, if it ends the
process, first bytes of the response the worker is sending. -/
theorem sentBy_spec {s : Pool ι} (hrunning : ¬ s.exited) (w : ι) : ∃ cut,
    sentBy s w = (answered w (workerStep s w).2).flatten ++ cut ∧
      CutShort (workerStep s w).1 w cut := by
  unfold sentBy workerStep
  rw [if_neg hrunning, if_neg hrunning]
  cases hphase : (s.worker w).phase with
  | sending request status response =>
    obtain ⟨hfirst, hall⟩ := rioWriten_sent (s.worker w).conn.writes response.text
    by_cases hok : (rioWriten (s.worker w).conn.writes response.text).ok
    · refine ⟨[], ?_, Or.inl rfl⟩
      simp [hok, hall hok, answered]
    · refine ⟨_, ?_, Or.inr ⟨?_, request, status, response, ?_, hfirst⟩⟩ <;>
        simp [hok, hphase, answered]
  | holding request critical => exact ⟨[], by cases critical <;> rfl, Or.inl rfl⟩
  | parsing line => exact ⟨[], rfl, Or.inl rfl⟩
  | formatting request status response => exact ⟨[], rfl, Or.inl rfl⟩
  | _ => exact ⟨[], by dsimp only; split <;> rfl, Or.inl rfl⟩

/-- **What a run has put on the wire** for a worker are the responses it has been answered with and,
once the process has ended, possibly first bytes of one it was sending. -/
theorem onWire_spec (start : Pool ι) (schedule : List ι) (w : ι) : ∃ cut,
    onWire w start schedule = (answered w (workers.run start schedule).2).flatten ++ cut ∧
      CutShort (workers.run start schedule).1 w cut := by
  induction schedule using List.reverseRecOn with
  | nil => exact ⟨[], rfl, Or.inl rfl⟩
  | append_singleton schedule v ih =>
    obtain ⟨cut, hwire, hcut⟩ := ih
    rw [onWire_concat, workers.run_snoc, hwire]
    generalize (workers.run start schedule).1 = s at hcut ⊢
    generalize (workers.run start schedule).2 = trace
    change ∃ cut', _ = (answered w (trace ++ (workerStep s v).2)).flatten ++ cut' ∧
      CutShort (workerStep s v).1 w cut'
    rw [answered_append, List.flatten_append]
    by_cases hrunning : s.exited
    · -- the process has ended: nothing moves any more
      have hstay : workerStep s v = (s, []) := by simp [workerStep, hrunning]
      rw [hstay]
      exact ⟨cut, by simp [sentBy, hrunning, answered], hcut⟩
    · obtain rfl : cut = [] := hcut.resolve_right fun hexited => hrunning hexited.1
      by_cases hv : v = w
      · subst hv
        obtain ⟨cut, hsent, hcut⟩ := sentBy_spec hrunning v
        exact ⟨cut, by simp [hsent], hcut⟩
      · exact ⟨[], by simp [hv, answered_workerStep_other hv], Or.inl rfl⟩

/-- What is on the wire for a worker are first bytes of the responses of the simulation. -/
theorem onWire_prefix {start : Pool ι} (h : start.Initial) (schedule : List ι) (w : ι) :
    onWire w start schedule <+:
      (responsesOf w start.store (entries (workers.run start schedule).2)).flatten := by
  obtain ⟨base, hlin⟩ := Linear.run h schedule
  obtain ⟨cut, hwire, hcut⟩ := onWire_spec start schedule w
  rw [hwire, hlin.responses w, List.flatten_append, List.prefix_append_right_inj]
  rcases hcut with rfl | ⟨-, request, status, response, hphase, hfirst⟩
  · exact List.nil_prefix
  · simpa [hphase, owed] using hfirst

/-- **Concurrent requests take effect one at a time.**  For every run of any number of workers
there is an order of the requests executed that keeps the order of each worker and the real-time
order, such that every response sent, and every byte on the wire of one that was cut short, is that
of executing the requests one at a time in that order, and so is the store whenever nobody holds
the lock.

**Proof sketch.** The order is that of the `entered` events.  The simulation holds at every point
of the trace; at such a point, the requests that have entered are at least those answered and at
most those received.  A response is cut short only by a failing write, in which its worker stays
when the process ends. -/
theorem workers_linearizable (start : Pool ι) (h : start.Initial) (schedule : List ι) :
    let s := (workers.run start schedule).1
    let trace := (workers.run start schedule).2
    ∃ order : List (ι × StockRequest),
      (∀ w, requestsOf w order <+: (received w trace).map parseRequest) ∧
      (∀ w, answered w trace <+: responsesOf w start.store order) ∧
      (∀ w, onWire w start schedule <+: (responsesOf w start.store order).flatten) ∧
      (s.holder = none → s.store = (sequential start.store order).2) ∧
      ∀ t₁ t₂, trace = t₁ ++ t₂ → ∃ o₁ o₂, order = o₁ ++ o₂ ∧ ∀ w,
        (answered w t₁).length ≤ (requestsOf w o₁).length ∧
          (requestsOf w o₁).length ≤ (received w t₁).length := by
  intro s trace
  obtain ⟨base, hlin⟩ := Linear.run h schedule
  refine ⟨entries trace, fun w => ⟨_, hlin.requests w⟩, fun w => ⟨_, (hlin.responses w).symm⟩,
    onWire_prefix h schedule, hlin.free,
    fun t₁ t₂ ht => ⟨entries t₁, entries t₂, by rw [ht, entries_append], fun w => ?_⟩⟩
  obtain ⟨schedule₁, schedule₂, -, rfl⟩ := workers.exists_run_of_trace length_workerStep_le ht
  obtain ⟨base₁, hlin₁⟩ := Linear.run h schedule₁
  have hreq := congrArg List.length (hlin₁.requests w)
  have hresp := congrArg List.length (hlin₁.responses w)
  rw [length_responsesOf, List.length_append] at hresp
  rw [List.length_append, List.length_map] at hreq
  omega

/-- Two workers on one item: a buy on the first connection, a listing on the second. -/
def pairPool : Pool Bool where
  worker w := ⟨⟨rioReadinitb [.bytes (ascii (if w then "show\n" else "buy 1 2\n"))], []⟩, .reading⟩
  holder := none
  store := .node ⟨1, 5, 10⟩ .nil .nil
  queue := []
  exited := false

/-- The workers of `pairPool` take turns until the buy is answered, and the listing goes on to its
end. -/
def pairSchedule : List Bool :=
  (List.replicate 11 [false, true]).flatten ++ List.replicate 8 true

/-- Only the buy before the listing explains what the clients of `pairPool` are answered. -/
theorem pairPool_order {order : List (Bool × StockRequest)}
    (hrequests : ∀ w, requestsOf w order <+:
      [parseRequest (ascii (if w then "show\n" else "buy 1 2\n"))])
    (hbuy : [ascii "success\n"] <+: responsesOf false pairPool.store order)
    (hshow : [ascii "1 3 10\n"] <+: responsesOf true pairPool.store order) :
    order = [(false, parseRequest (ascii "buy 1 2\n")), (true, parseRequest (ascii "show\n"))] := by
  have hbuys := hrequests false
  have hshows := hrequests true
  simp only [Bool.false_eq_true, ↓reduceIte] at hbuys hshows
  rcases order with _ | ⟨⟨_ | _, r⟩, _ | ⟨⟨_ | _, r'⟩, _ | ⟨⟨_ | _, r''⟩, rest⟩⟩⟩ <;>
    simp [requestsOf, responsesOf, sequential, serveRequests] at hbuys hshows hbuy hshow
  · rw [hbuys, hshows]
  · -- a listing that comes first shows what the buy has not taken yet
    rw [hshows] at hshow
    exact absurd hshow (by decide +kernel)

/-- The buy and the listing run side by side and are both answered, the listing with what the buy
has left; so the order that explains the run is the buy before the listing. -/
theorem workers_linearizable_pair :
    let run := workers.run pairPool pairSchedule
    answered false run.2 = [ascii "success\n"] ∧ answered true run.2 = [ascii "1 3 10\n"] ∧
      onWire false pairPool pairSchedule = ascii "success\n" ∧
      onWire true pairPool pairSchedule = ascii "1 3 10\n" ∧
      run.1.holder = none ∧ run.1.store = .node ⟨1, 3, 10⟩ .nil .nil ∧
      ∃ order : List (Bool × StockRequest),
        order = [(false, parseRequest (ascii "buy 1 2\n")),
          (true, parseRequest (ascii "show\n"))] ∧
        (∀ w, answered w run.2 <+: responsesOf w pairPool.store order) ∧
        run.1.store = (sequential pairPool.store order).2 := by
  have hinitial : pairPool.Initial := ⟨fun _ => Or.inr rfl, rfl⟩
  have hbuy : answered false (workers.run pairPool pairSchedule).2 = [ascii "success\n"] := by
    decide +kernel
  have hshow : answered true (workers.run pairPool pairSchedule).2 = [ascii "1 3 10\n"] := by
    decide +kernel
  have hfree : (workers.run pairPool pairSchedule).1.holder = none := by decide +kernel
  obtain ⟨order, hrequests, hanswers, -, hstore, -⟩ :=
    workers_linearizable pairPool hinitial pairSchedule
  have horder := @pairPool_order order (fun w => ?_) (hbuy ▸ hanswers false) (hshow ▸ hanswers true)
  · exact ⟨hbuy, hshow, by decide +kernel, by decide +kernel, hfree, by decide +kernel, order,
      horder, hanswers, hstore hfree⟩
  · have hreceived : received w (workers.run pairPool pairSchedule).2 =
        [ascii (if w then "show\n" else "buy 1 2\n")] := by
      cases w <;> decide +kernel
    simpa [hreceived] using hrequests w

end StockServer
