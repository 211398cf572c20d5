import StockServer.Lib.Bytes
import StockServer.Lib.Machine

set_option relaxedAutoImplicit false
set_option autoImplicit false

/-!
# Requests and responses over two byte streams

A client and a server that talk over a connection without framing.  The client writes one request
after another and after each reads until it has what it takes for a response; the server reads until
it has what it takes for a request, and writes its response.  Neither end knows where the other ends
a message.

## Main definitions

* `Conversation` — the server's answers, and where each end takes a message to be complete.
* `Dialogue`, `Conversation.machine` — the state of both ends with the bytes in flight, and the
  machine of their steps.
* `Exact`, `Delivered` — a message that is complete with its last byte and not before, and a
  response that reaches the client as it is.
* `Conversation.expected` — the responses that the client should read, request by request.
* `Dialogue.Stuck` — both ends wait for the other.
* `Conversation.Position` — where both ends are when they are in step.
* `Conversation.InStep` — whatever the schedule, the client reads what it should and the ends do not
  get stuck.

## Main results

* `Conversation.Position.step` — every step keeps both ends where they should be.
* `Conversation.inStep_iff` — **client and server stay in step, whatever the schedule, if and only
  if every response is delivered**.

## Implementation notes

A stream holds the bytes in the kernel's buffers and those that the reading end has buffered
itself; a read takes one byte at a time, so that it does not matter how the bytes arrive.  A write
puts some first bytes of the rest into the stream.  Once the server has closed, a client that writes
may be reset.
-/

/-- The server's side of a conversation, and the ends of messages as either side sees them. -/
structure Conversation (σ : Type) where
  /-- The response to a request, whether the server closes after it, and the state after it. -/
  answer : σ → Bytes → Bytes × Bool × σ
  /-- The server has read a whole request. -/
  requestDone : Bytes → Bool
  /-- The client has read a whole response. -/
  responseDone : Bytes → Bool

namespace Dialogue

/-- Where the client is. -/
inductive Client where
  /-- Writing a request, of which this is the rest. -/
  | sending (rest : Bytes)
  /-- Reading a response, of which it has read this. -/
  | reading (got : Bytes)
  /-- The connection is closed on its side. -/
  | done
  deriving DecidableEq, Repr

/-- Where the server is. -/
inductive Server where
  /-- Reading a request, of which it has read this. -/
  | reading (got : Bytes)
  /-- Writing a response, of which this is the rest; after the last it closes. -/
  | sending (rest : Bytes) (last : Bool)
  /-- The connection is closed on its side. -/
  | closed
  deriving DecidableEq, Repr

end Dialogue

/-- Both ends of the connection, the requests that the client has still to send, and the bytes in
flight. -/
structure Dialogue (σ : Type) where
  state : σ
  client : Dialogue.Client
  later : List Bytes
  server : Dialogue.Server
  toServer : Bytes
  toClient : Bytes

/-- One step of one end; a write puts at most `count + 1` bytes into the stream. -/
inductive Turn where
  | client (count : ℕ) (reset : Bool)
  | server (count : ℕ)
  deriving DecidableEq, Repr

namespace Conversation

variable {σ : Type} (C : Conversation σ)

/-- The client has read its response, and goes on to the next request. -/
def next (s : Dialogue σ) : Dialogue σ :=
  match s.later with
  | [] => { s with client := .done }
  | request :: later => { s with client := .sending request, later := later }

/-- One step of the client; what it shows is a response it has read. -/
def clientStep (s : Dialogue σ) (count : ℕ) (reset : Bool) : Dialogue σ × List Bytes :=
  if reset = true ∧ s.server = .closed ∧ s.toServer ≠ [] then ({ s with client := .done }, [])
  else match s.client with
    | .sending rest =>
      ({ s with
          toServer := s.toServer ++ rest.take (count + 1)
          client := if rest.drop (count + 1) = [] then .reading []
            else .sending (rest.drop (count + 1)) }, [])
    | .reading got =>
      match s.toClient with
      | b :: toClient =>
        let s' := { s with toClient := toClient, client := .reading (got ++ [b]) }
        if C.responseDone (got ++ [b]) then (next s', [got ++ [b]]) else (s', [])
      | [] => if s.server = .closed then (next s, [got]) else (s, [])
    | .done => (s, [])

/-- The server has read a request, and answers it; there is nothing to write of an empty
response. -/
def respond (s : Dialogue σ) (request : Bytes) : Dialogue σ :=
  let answer := C.answer s.state request
  { s with
    state := answer.2.2
    server := if answer.1 = [] then (if answer.2.1 then .closed else .reading [])
      else .sending answer.1 answer.2.1 }

/-- One step of the server. -/
def serverStep (s : Dialogue σ) (count : ℕ) : Dialogue σ :=
  match s.server with
  | .reading got =>
    match s.toServer with
    | b :: toServer =>
      let s' := { s with toServer := toServer, server := .reading (got ++ [b]) }
      if C.requestDone (got ++ [b]) then C.respond s' (got ++ [b]) else s'
    | [] =>
      if s.client = .done then
        (if got = [] then { s with server := .closed } else C.respond s got)
      else s
  | .sending rest last =>
    { s with
      toClient := s.toClient ++ rest.take (count + 1)
      server := if rest.drop (count + 1) = [] then (if last then .closed else .reading [])
        else .sending (rest.drop (count + 1)) last }
  | .closed => s

/-- The conversation as a machine; it shows the responses that the client has read. -/
def machine : Machine (Dialogue σ) Turn Bytes where
  step s
    | .client count reset => C.clientStep s count reset
    | .server count => (C.serverStep s count, [])

/-- The client has connected, and is to send these requests. -/
def start (state : σ) (requests : List Bytes) : Dialogue σ :=
  next ⟨state, .reading [], requests, .reading [], [], []⟩

/-- The responses to the requests, one for each; after the server has closed there is none. -/
def expected : σ → List Bytes → List Bytes
  | _, [] => []
  | state, request :: requests =>
    let answer := C.answer state request
    answer.1 :: if answer.2.1 then requests.map fun _ => [] else expected answer.2.2 requests

end Conversation

/-- The client waits for a response that the server has sent completely, and the server waits for
the next request. -/
def Dialogue.Stuck {σ : Type} (s : Dialogue σ) : Prop :=
  (∃ got, s.client = .reading got) ∧ s.toClient = [] ∧ s.server = .reading [] ∧ s.toServer = []

/-- No front of the message is taken for a message. -/
def Unbroken (complete : Bytes → Bool) (message : Bytes) : Prop :=
  ∀ front, front <+: message → front ≠ [] → front ≠ message → complete front = false

/-- A message that is complete with its last byte and not before. -/
structure Exact (complete : Bytes → Bool) (message : Bytes) : Prop where
  ne_nil : message ≠ []
  whole : complete message = true
  front : Unbroken complete message

/-- A response that reaches the client as it is: no front of it is taken for a response, and unless
the server closes after it, all of it is. -/
structure Delivered (complete : Bytes → Bool) (response : Bytes) (last : Bool) : Prop where
  front : Unbroken complete response
  whole : last = false → response ≠ [] ∧ complete response = true

/-- An exact message is delivered, whether the server closes after it or not. -/
theorem Exact.delivered {complete : Bytes → Bool} {message : Bytes} (h : Exact complete message)
    (last : Bool) : Delivered complete message last :=
  ⟨h.front, fun _ => ⟨h.ne_nil, h.whole⟩⟩

/-- While bytes of an unbroken message are missing, it is not complete. -/
theorem Unbroken.append {complete : Bytes → Bool} {got rest : Bytes} {b : UInt8}
    (h : Unbroken complete (got ++ b :: rest)) (hrest : rest ≠ []) :
    complete (got ++ [b]) = false := by
  apply h
  · exact ⟨rest, by simp⟩
  · simp
  · simpa using hrest.symm

/-- A read that completes an unbroken message has read all of it. -/
theorem Unbroken.eq_nil {complete : Bytes → Bool} {got rest : Bytes} {b : UInt8}
    (h : Unbroken complete (got ++ b :: rest)) (hdone : complete (got ++ [b]) = true) :
    rest = [] := by
  by_contra hrest
  rw [h.append hrest] at hdone
  cases hdone

namespace Conversation

variable {σ : Type} (C : Conversation σ)

/-- Every response is delivered, up to the one after which the server closes. -/
def AllDelivered : σ → List Bytes → Prop
  | _, [] => True
  | state, request :: requests =>
    let answer := C.answer state request
    Delivered C.responseDone answer.1 answer.2.1 ∧
      (answer.2.1 = false → AllDelivered answer.2.2 requests)

/-! ## Where both ends should be -/

/-- **Where both ends are when they are in step**, with the responses that the client has still to
read: the request is on its way, it has been asked and not answered, it is being answered, it has
been answered; or the server has closed, or the client has. -/
inductive Position (C : Conversation σ) : Dialogue σ → List Bytes → Prop
  | asking {state : σ} {later : List Bytes} {rest got toServer request : Bytes}
      (hrequest : Exact C.requestDone request) (hsplit : got ++ (toServer ++ rest) = request)
      (hrest : rest ≠ []) (hlater : ∀ r ∈ later, Exact C.requestDone r)
      (hall : C.AllDelivered state (request :: later)) :
      Position C ⟨state, .sending rest, later, .reading got, toServer, []⟩
        (C.expected state (request :: later))
  | asked {state : σ} {later : List Bytes} {got toServer request : Bytes}
      (hrequest : Exact C.requestDone request) (hsplit : got ++ toServer = request)
      (hunread : toServer ≠ []) (hlater : ∀ r ∈ later, Exact C.requestDone r)
      (hall : C.AllDelivered state (request :: later)) :
      Position C ⟨state, .reading [], later, .reading got, toServer, []⟩
        (C.expected state (request :: later))
  | answering {state : σ} {later : List Bytes} {rest got toClient response : Bytes} {last : Bool}
      (hdelivered : Delivered C.responseDone response last)
      (hsplit : got ++ (toClient ++ rest) = response) (hrest : rest ≠ [])
      (hlater : last = false → (∀ r ∈ later, Exact C.requestDone r) ∧ C.AllDelivered state later) :
      Position C ⟨state, .reading got, later, .sending rest last, [], toClient⟩
        (response :: if last then later.map fun _ => [] else C.expected state later)
  | answered {state : σ} {later : List Bytes} {got toClient response : Bytes}
      (hdelivered : Delivered C.responseDone response false)
      (hsplit : got ++ toClient = response) (hunread : toClient ≠ [])
      (hlater : (∀ r ∈ later, Exact C.requestDone r) ∧ C.AllDelivered state later) :
      Position C ⟨state, .reading got, later, .reading [], [], toClient⟩
        (response :: C.expected state later)
  | closing {state : σ} {later : List Bytes} {got toClient response : Bytes}
      (hdelivered : Delivered C.responseDone response true)
      (hsplit : got ++ toClient = response) :
      Position C ⟨state, .reading got, later, .closed, [], toClient⟩
        (response :: later.map fun _ => [])
  | unheard {state : σ} {later : List Bytes} {rest toServer : Bytes} :
      Position C ⟨state, .sending rest, later, .closed, toServer, []⟩
        ([] :: later.map fun _ => [])
  | unanswered {state : σ} {later : List Bytes} {toServer : Bytes} :
      Position C ⟨state, .reading [], later, .closed, toServer, []⟩
        ([] :: later.map fun _ => [])
  | left {state : σ} {later : List Bytes} : Position C ⟨state, .done, later, .reading [], [], []⟩ []
  | finished {state : σ} {later remaining : List Bytes} {toServer toClient : Bytes} :
      Position C ⟨state, .done, later, .closed, toServer, toClient⟩ remaining

variable {C} {s : Dialogue σ} {state : σ} {later remaining : List Bytes} {request : Bytes}

/-- In step, the ends do not wait for each other. -/
theorem Position.not_stuck (h : Position C s remaining) : ¬ s.Stuck := by
  rintro ⟨⟨got, hclient⟩, htoClient, hserver, htoServer⟩
  cases h with
  | asking => cases hclient
  | asked hrequest hsplit hunread => exact hunread htoServer
  | answering => cases hserver
  | answered hdelivered hsplit hunread => exact hunread htoClient
  | closing => cases hserver
  | unheard => cases hclient
  | unanswered => cases hserver
  | left => cases hclient
  | finished => cases hclient

/-- The client goes on to the next request. -/
theorem Position.next (hlater : (∀ r ∈ later, Exact C.requestDone r) ∧ C.AllDelivered state later)
    (got : Bytes) : Position C (next ⟨state, .reading got, later, .reading [], [], []⟩)
      (C.expected state later) := by
  obtain ⟨hlater, hall⟩ := hlater
  cases later with
  | nil => exact .left
  | cons request later =>
    have hrequest := hlater request (by simp)
    exact .asking hrequest rfl hrequest.ne_nil (fun r hr => hlater r (by simp [hr])) hall

/-- So it does when the server has closed. -/
theorem Position.next_closed (got toServer : Bytes) :
    Position C (Conversation.next ⟨state, .reading got, later, .closed, toServer, []⟩)
      (later.map fun _ => []) := by
  cases later with
  | nil => exact .finished
  | cons request later => exact .unheard

/-- The server answers the request. -/
theorem Position.respond (hlater : ∀ r ∈ later, Exact C.requestDone r)
    (hall : C.AllDelivered state (request :: later)) (server : Dialogue.Server) :
    Position C (C.respond ⟨state, .reading [], later, server, [], []⟩ request)
      (C.expected state (request :: later)) := by
  obtain ⟨hdelivered, hrest⟩ := hall
  unfold Conversation.respond
  rw [expected]
  rcases hanswer : C.answer state request with ⟨response, last, state'⟩
  rw [hanswer] at hdelivered hrest
  dsimp only at hdelivered hrest ⊢
  by_cases hempty : response = []
  · subst hempty
    rw [if_pos rfl]
    cases last with
    | false => exact absurd rfl (hdelivered.whole rfl).1
    | true => exact .closing hdelivered rfl
  · rw [if_neg hempty]
    exact .answering hdelivered rfl hempty fun hlast => ⟨hlater, hrest hlast⟩

/-- **A step of the client** keeps both ends where they should be. -/
theorem Position.clientStep (h : Position C s remaining) (count : ℕ) (reset : Bool) :
    ∃ rest, Position C (C.clientStep s count reset).1 rest ∧
      remaining = (C.clientStep s count reset).2 ++ rest := by
  unfold Conversation.clientStep
  cases h with
  | @asking state later rest got toServer request hrequest hsplit hrest hlater hall =>
    simp only [reduceCtorEq, false_and, and_false, ↓reduceIte]
    have htake := List.take_append_drop (count + 1) rest
    by_cases hdrop : rest.drop (count + 1) = []
    · rw [hdrop, List.append_nil] at htake
      rw [if_pos hdrop, htake]
      exact ⟨_, .asked hrequest hsplit (by simp [hrest]) hlater hall, rfl⟩
    · rw [if_neg hdrop]
      refine ⟨_, .asking hrequest ?_ hdrop hlater hall, rfl⟩
      rw [List.append_assoc, htake, hsplit]
  | asked hrequest hsplit hunread hlater hall =>
    simp only [reduceCtorEq, false_and, and_false, ↓reduceIte]
    exact ⟨_, .asked hrequest hsplit hunread hlater hall, rfl⟩
  | @answering state later rest got toClient response last hdelivered hsplit hrest hlater =>
    simp only [reduceCtorEq, false_and, and_false, ↓reduceIte]
    cases toClient with
    | nil => exact ⟨_, .answering hdelivered hsplit hrest hlater, rfl⟩
    | cons b toClient =>
      have hfront := hdelivered.front
      rw [← hsplit] at hfront
      have hmore := hfront.append (by simp [hrest] : toClient ++ rest ≠ [])
      dsimp only
      rw [if_neg (by simp [hmore])]
      exact ⟨_, .answering hdelivered (by simpa using hsplit) hrest hlater, rfl⟩
  | @answered state later got toClient response hdelivered hsplit hunread hlater =>
    simp only [reduceCtorEq, false_and, and_false, ↓reduceIte]
    cases toClient with
    | nil => exact absurd rfl hunread
    | cons b toClient =>
      have hfront := hdelivered.front
      rw [← hsplit] at hfront
      dsimp only
      by_cases hdone : C.responseDone (got ++ [b]) = true
      · obtain rfl := hfront.eq_nil hdone
        rw [if_pos hdone]
        exact ⟨_, .next hlater _, by simp [← hsplit]⟩
      · rw [if_neg hdone]
        refine ⟨_, .answered hdelivered (by simpa using hsplit) ?_ hlater, rfl⟩
        rintro rfl
        exact hdone (by rw [hsplit]; exact (hdelivered.whole rfl).2)
  | @closing state later got toClient response hdelivered hsplit =>
    simp only [ne_eq, not_true_eq_false, and_false, ↓reduceIte]
    cases toClient with
    | nil =>
      rw [List.append_nil] at hsplit
      exact ⟨_, .next_closed _ _, by simp [hsplit]⟩
    | cons b toClient =>
      have hfront := hdelivered.front
      rw [← hsplit] at hfront
      dsimp only
      by_cases hdone : C.responseDone (got ++ [b]) = true
      · obtain rfl := hfront.eq_nil hdone
        rw [if_pos hdone]
        exact ⟨_, .next_closed _ _, by simp [← hsplit]⟩
      · rw [if_neg hdone]
        exact ⟨_, .closing hdelivered (by simpa using hsplit), rfl⟩
  | unheard =>
    dsimp only
    split_ifs
    · exact ⟨_, .finished, rfl⟩
    · exact ⟨_, .unanswered, rfl⟩
    · exact ⟨_, .unheard, rfl⟩
  | unanswered =>
    dsimp only
    rw [if_pos rfl]
    split_ifs
    · exact ⟨_, .finished, rfl⟩
    · exact ⟨_, .next_closed _ _, rfl⟩
  | left =>
    simp only [reduceCtorEq, false_and, and_false, ↓reduceIte]
    exact ⟨_, .left, rfl⟩
  | finished =>
    dsimp only
    split_ifs
    · exact ⟨_, .finished, rfl⟩
    · exact ⟨_, .finished, rfl⟩

/-- **So does a step of the server.** -/
theorem Position.serverStep (h : Position C s remaining) (count : ℕ) :
    Position C (C.serverStep s count) remaining := by
  unfold Conversation.serverStep
  cases h with
  | @asking state later rest got toServer request hrequest hsplit hrest hlater hall =>
    cases toServer with
    | nil => exact .asking hrequest hsplit hrest hlater hall
    | cons b toServer =>
      have hfront := hrequest.front
      rw [← hsplit] at hfront
      have hmore := hfront.append (by simp [hrest] : toServer ++ rest ≠ [])
      dsimp only
      rw [if_neg (by simp [hmore])]
      exact .asking hrequest (by simpa using hsplit) hrest hlater hall
  | @asked state later got toServer request hrequest hsplit hunread hlater hall =>
    cases toServer with
    | nil => exact absurd rfl hunread
    | cons b toServer =>
      have hfront := hrequest.front
      rw [← hsplit] at hfront
      dsimp only
      by_cases hdone : C.requestDone (got ++ [b]) = true
      · obtain rfl := hfront.eq_nil hdone
        rw [if_pos hdone, hsplit]
        exact .respond hlater hall _
      · rw [if_neg hdone]
        refine .asked hrequest (by simpa using hsplit) ?_ hlater hall
        rintro rfl
        exact hdone (by rw [hsplit]; exact hrequest.whole)
  | @answering state later rest got toClient response last hdelivered hsplit hrest hlater =>
    have htake := List.take_append_drop (count + 1) rest
    dsimp only
    by_cases hdrop : rest.drop (count + 1) = []
    · rw [hdrop, List.append_nil] at htake
      rw [if_pos hdrop, htake]
      cases last with
      | true => exact .closing hdelivered hsplit
      | false => exact .answered hdelivered hsplit (by simp [hrest]) (hlater rfl)
    · rw [if_neg hdrop]
      refine .answering hdelivered ?_ hdrop hlater
      rw [List.append_assoc, htake, hsplit]
  | answered hdelivered hsplit hunread hlater =>
    exact .answered hdelivered hsplit hunread hlater
  | closing hdelivered hsplit => exact .closing hdelivered hsplit
  | unheard => exact .unheard
  | unanswered => exact .unanswered
  | left => exact .finished
  | finished => exact .finished

/-- **Every step keeps both ends where they should be**, and shows the next of the responses that
the client has still to read. -/
theorem Position.step (h : Position C s remaining) (turn : Turn) :
    ∃ rest, Position C (C.machine.step s turn).1 rest ∧
      remaining = (C.machine.step s turn).2 ++ rest := by
  cases turn with
  | client count reset => exact h.clientStep count reset
  | server count => exact ⟨remaining, h.serverStep count, rfl⟩

/-- So does every run. -/
theorem Position.run (h : Position C s remaining) (turns : List Turn) :
    ∃ rest, Position C (C.machine.run s turns).1 rest ∧
      remaining = (C.machine.run s turns).2 ++ rest := by
  induction turns generalizing s remaining with
  | nil => exact ⟨remaining, h, rfl⟩
  | cons turn turns ih =>
    obtain ⟨rest, hstep, htrace⟩ := h.step turn
    obtain ⟨rest', hrun, htrace'⟩ := ih hstep
    exact ⟨rest', hrun, by rw [htrace, htrace', Machine.run_cons, List.append_assoc]⟩

/-- At the start both ends are where they should be. -/
theorem Position.start (hrequests : ∀ r ∈ later, Exact C.requestDone r)
    (hall : C.AllDelivered state later) :
    Position C (Conversation.start state later) (C.expected state later) :=
  .next ⟨hrequests, hall⟩ []

/-! ## Where a schedule can lead -/

/-- Some schedule leads from one state to another, and this is what the client reads on the way. -/
def Leads (C : Conversation σ) (s s' : Dialogue σ) (trace : List Bytes) : Prop :=
  ∃ turns, C.machine.run s turns = (s', trace)

/-- No turn leads nowhere. -/
theorem Leads.refl (C : Conversation σ) (s : Dialogue σ) : C.Leads s s [] := ⟨[], rfl⟩

/-- One turn is a schedule. -/
theorem Leads.turn {s' : Dialogue σ} {trace : List Bytes} (turn : Turn)
    (h : C.machine.step s turn = (s', trace)) : C.Leads s s' trace :=
  ⟨[turn], by simp [h]⟩

/-- Two schedules are one. -/
theorem Leads.trans {s₁ s₂ s₃ : Dialogue σ} {t₁ t₂ : List Bytes} (h₁ : C.Leads s₁ s₂ t₁)
    (h₂ : C.Leads s₂ s₃ t₂) : C.Leads s₁ s₃ (t₁ ++ t₂) := by
  obtain ⟨turns₁, hrun₁⟩ := h₁
  obtain ⟨turns₂, hrun₂⟩ := h₂
  exact ⟨turns₁ ++ turns₂, by rw [Machine.run_append, hrun₁, hrun₂]⟩

/-- A schedule on which the client reads nothing comes before another. -/
theorem Leads.quiet {s₁ s₂ s₃ : Dialogue σ} {trace : List Bytes} (h₁ : C.Leads s₁ s₂ [])
    (h₂ : C.Leads s₂ s₃ trace) : C.Leads s₁ s₃ trace := h₁.trans h₂

/-- The server can read the request that is under way, and nothing else. -/
theorem leads_respond {client : Dialogue.Client} {got toServer toClient : Bytes}
    (hrequest : Exact C.requestDone request) (hsplit : got ++ toServer = request)
    (hunread : toServer ≠ []) :
    C.Leads ⟨state, client, later, .reading got, toServer, toClient⟩
      (C.respond ⟨state, client, later, .reading request, [], toClient⟩ request) [] := by
  induction toServer generalizing got with
  | nil => exact absurd rfl hunread
  | cons b toServer ih =>
    have hfront := hrequest.front
    rw [← hsplit] at hfront
    by_cases hempty : toServer = []
    · subst hempty
      apply Leads.turn (.server 0)
      simp only [machine, Conversation.serverStep]
      rw [hsplit, if_pos hrequest.whole]
    · have hmore := hfront.append hempty
      have hrest := @ih (got ++ [b]) (by simpa using hsplit) hempty
      refine Leads.quiet (.turn (.server 0) ?_) hrest
      simp only [machine, Conversation.serverStep]
      rw [if_neg (by simp [hmore])]

/-- The state in which a request has been answered and the answer is under way. -/
def answeredState (C : Conversation σ) (state : σ) (later : List Bytes) (request : Bytes) :
    Dialogue σ :=
  let answer := C.answer state request
  ⟨answer.2.2, .reading [], later, if answer.2.1 then .closed else .reading [], [], answer.1⟩

/-- **A request can be sent, read and answered** before the client reads. -/
theorem leads_answeredState (hrequest : Exact C.requestDone request) :
    C.Leads (start state (request :: later)) (C.answeredState state later request) [] := by
  have hsent : C.Leads (start state (request :: later))
      ⟨state, .reading [], later, .reading [], request, []⟩ [] := by
    apply Leads.turn (.client request.length false)
    have hdrop : request.drop (request.length + 1) = [] := List.drop_of_length_le (by omega)
    have htake : request.take (request.length + 1) = request := List.take_of_length_le (by omega)
    simp only [machine, Conversation.clientStep, start, Conversation.next, reduceCtorEq, false_and,
      ↓reduceIte, hdrop, htake, List.nil_append]
  refine hsent.quiet ((leads_respond hrequest rfl hrequest.ne_nil).quiet ?_)
  unfold Conversation.respond answeredState
  rcases C.answer state request with ⟨response, last, state'⟩
  dsimp only
  by_cases hempty : response = []
  · rw [if_pos hempty, hempty]
    exact .refl C _
  · apply Leads.turn (.server response.length)
    have hdrop : response.drop (response.length + 1) = [] := List.drop_of_length_le (by omega)
    have htake : response.take (response.length + 1) = response :=
      List.take_of_length_le (by omega)
    simp only [machine, Conversation.serverStep, hempty, ↓reduceIte, hdrop, htake,
      List.nil_append]

/-- **The client can read on** while it does not take what it has read for a response. -/
theorem leads_reading {server : Dialogue.Server} {got toClient : Bytes} (rest : Bytes)
    (h : ∀ part, part <+: toClient → part ≠ [] → C.responseDone (got ++ part) = false) :
    C.Leads ⟨state, .reading got, later, server, [], toClient ++ rest⟩
      ⟨state, .reading (got ++ toClient), later, server, [], rest⟩ [] := by
  induction toClient generalizing got with
  | nil =>
    rw [List.append_nil]
    exact .refl C _
  | cons b toClient ih =>
    have hfirst : C.responseDone (got ++ [b]) = false := h [b] ⟨toClient, rfl⟩ (by simp)
    have hrest := @ih (got ++ [b]) (by
      intro part hpart hne
      rw [List.append_assoc]
      exact h (b :: part) ((List.prefix_cons_inj b).mpr hpart) (by simp))
    rw [List.append_cons]
    refine Leads.quiet (.turn (.client 0 false) ?_) hrest
    simp [machine, Conversation.clientStep, hfirst]

/-- **The client can read up to the first place** where it takes what it has read for a response. -/
theorem leads_next {server : Dialogue.Server} {front : Bytes} (rest : Bytes)
    (hfront : Exact C.responseDone front) :
    C.Leads ⟨state, .reading [], later, server, [], front ++ rest⟩
      (Conversation.next ⟨state, .reading front, later, server, [], rest⟩) [front] := by
  obtain ⟨before, b, rfl⟩ := (List.eq_nil_or_concat' front).resolve_left hfront.ne_nil
  have hbefore := @leads_reading σ C state later server [] before ([b] ++ rest) (by
    intro part hpart hne
    rw [List.nil_append]
    apply hfront.front part (hpart.trans (List.prefix_append before [b])) hne
    rintro rfl
    simpa using hpart.length_le)
  rw [List.append_assoc]
  refine hbefore.quiet (.turn (.client 0 false) ?_)
  simp [machine, Conversation.clientStep, hfront.whole]

/-- What is under way has a first place where it is taken for a message, or none. -/
theorem exists_exact_or_none (complete : Bytes → Bool) (stream : Bytes) :
    (∃ front rest, stream = front ++ rest ∧ Exact complete front) ∨
      ∀ part, part <+: stream → part ≠ [] → complete part = false := by
  induction stream using List.reverseRecOn with
  | nil =>
    right
    intro part hpart hne
    exact absurd (List.prefix_nil.mp hpart) hne
  | append_singleton stream b ih =>
    rcases ih with ⟨front, rest, rfl, hfront⟩ | hnone
    · left
      exact ⟨front, rest ++ [b], List.append_assoc _ _ _, hfront⟩
    · have hshorter (part : Bytes) (hpart : part <+: stream ++ [b]) (hne : part ≠ [])
          (hwhole : part ≠ stream ++ [b]) : complete part = false := by
        rcases List.prefix_concat_iff.mp hpart with hpart | hpart
        · exact absurd hpart hwhole
        · exact hnone part hpart hne
      by_cases hdone : complete (stream ++ [b]) = true
      · left
        exact ⟨stream ++ [b], [], by simp, ⟨by simp, hdone, hshorter⟩⟩
      · right
        intro part hpart hne
        by_cases hwhole : part = stream ++ [b]
        · rw [hwhole]
          simpa using hdone
        · exact hshorter part hpart hne hwhole

/-! ## In step -/

/-- **Client and server stay in step**: whatever the schedule, what the client has read are the
first of the responses it should read, and the ends do not wait for each other. -/
def InStep (C : Conversation σ) (s : Dialogue σ) (remaining : List Bytes) : Prop :=
  ∀ turns, (C.machine.run s turns).2 <+: remaining ∧ ¬ (C.machine.run s turns).1.Stuck

/-- Ends that stay in step stay so after any schedule, and the client has read what it should. -/
theorem InStep.leads {s' : Dialogue σ} {trace : List Bytes} (h : C.InStep s remaining)
    (hleads : C.Leads s s' trace) :
    ∃ rest, remaining = trace ++ rest ∧ ¬ s'.Stuck ∧ C.InStep s' rest := by
  obtain ⟨turns, hrun⟩ := hleads
  obtain ⟨⟨rest, hrest⟩, hstuck⟩ := h turns
  rw [hrun] at hrest hstuck
  refine ⟨rest, hrest.symm, hstuck, fun turns' => ?_⟩
  have happend := h (turns ++ turns')
  rw [Machine.run_append, hrun, ← hrest] at happend
  exact ⟨(List.prefix_append_right_inj trace).mp happend.1, happend.2⟩

/-- The client that has read a response goes on with the rest of the requests. -/
theorem next_eq_start (got : Bytes) :
    Conversation.next ⟨state, .reading got, later, .reading [], [], []⟩ = start state later := by
  cases later <;> rfl

/-- **Ends that stay in step deliver every response.**

**Proof sketch.** Induction on the requests.  The first request can be answered before the client
reads.  If there is a place in the response where the client takes what it has read for a response,
it stops there, so that this is the whole response; if there is none the client reads all of it and
waits for more, so that the server must have closed. -/
theorem InStep.allDelivered (hrequests : ∀ r ∈ later, Exact C.requestDone r)
    (h : C.InStep (start state later) (C.expected state later)) : C.AllDelivered state later := by
  induction later generalizing state with
  | nil => trivial
  | cons request later ih =>
    have hlater : ∀ r ∈ later, Exact C.requestDone r := fun r hr => hrequests r (by simp [hr])
    obtain ⟨rest, hrest, -, hanswered⟩ :=
      h.leads (leads_answeredState (hrequests request (by simp)))
    rw [List.nil_append] at hrest
    subst hrest
    unfold answeredState at hanswered
    rw [expected] at hanswered
    rw [AllDelivered]
    rcases hanswer : C.answer state request with ⟨response, last, state'⟩
    rw [hanswer] at hanswered
    dsimp only at hanswered ⊢
    rcases exists_exact_or_none C.responseDone response with ⟨front, rest, rfl, hfront⟩ | hnone
    · obtain ⟨remaining, hremaining, -, hgoOn⟩ := hanswered.leads (leads_next rest hfront)
      obtain ⟨hwhole, rfl⟩ := List.cons_eq_cons.mp hremaining
      obtain rfl : rest = [] := by simpa using hwhole
      rw [List.append_nil]
      refine ⟨hfront.delivered last, fun hlast => ?_⟩
      subst hlast
      apply ih hlater
      rw [if_neg (by simp), if_neg (by simp), next_eq_start] at hgoOn
      exact hgoOn
    · have hread := @leads_reading σ C state' later (if last then .closed else .reading []) []
        response [] hnone
      rw [List.append_nil] at hread
      obtain ⟨-, -, hstuck, -⟩ := hanswered.leads hread
      have hlast : last = true := by
        by_contra hlast
        exact hstuck ⟨⟨response, rfl⟩, rfl, by simp [hlast], rfl⟩
      refine ⟨⟨fun part hpart hne _ => hnone part hpart hne, fun h => ?_⟩, fun h => ?_⟩
      · rw [hlast] at h
        cases h
      · rw [hlast] at h
        cases h

/-- **Client and server stay in step if and only if every response is delivered.** -/
theorem inStep_iff (hrequests : ∀ r ∈ later, Exact C.requestDone r) :
    C.InStep (start state later) (C.expected state later) ↔ C.AllDelivered state later := by
  constructor
  · exact InStep.allDelivered hrequests
  · intro hall turns
    obtain ⟨rest, hposition, htrace⟩ := (Position.start hrequests hall).run turns
    exact ⟨⟨rest, htrace.symm⟩, hposition.not_stuck⟩

end Conversation
