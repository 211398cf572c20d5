import StockServer.Answers
import StockServer.HandleClient
import StockServer.Lib.Dialogue

set_option relaxedAutoImplicit false
set_option autoImplicit false

/-!
# The clients of the repository

`stockclient` and `multiclient` send a request line, read what they take for the response and send
the next.  `stockclient` reads one line with `Rio_readlineb`, `multiclient` reads `MAXLINE` bytes
with `Rio_readnb`; `handle_client` sends exactly the text of the response, which is one line except
for a listing.  Here each client and `handle_client` are the two ends of a dialogue, with the bytes
in flight.

## Main definitions

* `RequestLine` — a line that `fgets` or `strcpy` leaves in the client's line buffer.
* `ClientProgram`, `ClientProgram.read`, `ClientProgram.responseDone` — the clients, how they read
  a response, and where that read returns.
* `ClientProgram.conversation` — the client and `handle_client`.
* `ClientProgram.Fits` — the requests whose response the client reads as it is.

## Main results

* `read_of_exact`, `read_of_none` — a read returns where `responseDone` says.
* `expected_conversation` — the responses that the client should read are those that
  `handle_client` sends.
* `clients_inStep_iff` — **client and server stay in step exactly when every request fits**.
* `clients_out_of_step` — three sessions in which they do not.
-/

namespace StockServer

open Conversation

/-! ## The two ends -/

/-- A request line in the line buffer of a client: text, a newline and room for the NUL. -/
structure RequestLine where
  text : Bytes
  nul_notMem : 0 ∉ text
  newline_notMem : newline ∉ text
  short : text.length + 1 < maxLine

/-- `Rio_writen(clientfd, buf, strlen(buf))`. -/
def RequestLine.sent (line : RequestLine) : Bytes := cstr (line.text ++ [newline])

/-- The two client programs. -/
inductive ClientProgram where
  | stockclient
  | multiclient
  deriving DecidableEq, Repr

/-- `rio_readlineb` with this room for a line returns after these bytes. -/
def lineDone (room : ℕ) (got : Bytes) : Bool := got.getLast? = some newline ∨ got.length = room

namespace ClientProgram

/-- How a client reads a response: `Rio_readlineb(&rio, buf, MAXLINE)` or
`Rio_readnb(&rio, buf, MAXLINE)`. -/
def read : ClientProgram → Rio → Option Bytes × Rio
  | stockclient, rp => rioReadlineb (maxLine - 1) rp
  | multiclient, rp => rioReadnb maxLine rp

/-- The read returns after these bytes. -/
def responseDone : ClientProgram → Bytes → Bool
  | stockclient, got => lineDone (maxLine - 1) got
  | multiclient, got => got.length = maxLine

/-- The client and `handle_client` on one connection. -/
def conversation (client : ClientProgram) : Conversation StockStore where
  answer store line :=
    let served := serveLine store line
    (served.response, served.leaves, served.store)
  requestDone := lineDone (maxLine - 1)
  responseDone := client.responseDone

end ClientProgram

/-! ## Where the reads return -/

/-- Bytes that are read without returning are part of one line that fits. -/
theorem part_of_line {room : ℕ} (hroom : 0 < room) {line : Bytes}
    (h : ∀ part, part <+: line → part ≠ [] → lineDone room part = false) :
    (∀ b ∈ line, b ≠ newline) ∧ line.length < room := by
  simp only [lineDone, decide_eq_false_iff_not, not_or] at h
  constructor
  · rintro b hb rfl
    obtain ⟨before, after, rfl⟩ := List.append_of_mem hb
    exact (h (before ++ [newline]) ⟨after, by simp⟩ (by simp)).1 (by simp)
  · by_contra hlen
    have hfull : (line.take room).length = room := List.length_take_of_le (Nat.not_lt.mp hlen)
    refine (h (line.take room) (List.take_prefix room line) ?_).2 hfull
    rw [← List.length_pos_iff]
    omega

/-- A line ends where `rio_readlineb` returns. -/
theorem takeLine_of_exact {room : ℕ} (hroom : 0 < room) {front : Bytes}
    (h : Exact (lineDone room) front) (rest : Bytes) :
    takeLine room (front ++ rest) = (front, rest) := by
  obtain ⟨line, b, rfl⟩ := (List.eq_nil_or_concat' front).resolve_left h.ne_nil
  obtain ⟨hline, hlen⟩ := @part_of_line room hroom line (by
    intro part hpart hne
    apply h.front part (hpart.trans (List.prefix_append line [b])) hne
    rintro rfl
    simpa using hpart.length_le)
  by_cases hb : b = newline
  · subst hb
    rw [List.append_assoc]
    exact takeLine_line hline hlen rest
  · have hwhole : (line ++ [b]).length = room := by simpa [lineDone, hb] using h.whole
    apply takeLine_full _ hwhole
    intro c hc
    rcases List.mem_append.mp hc with hc | hc
    · exact hline c hc
    · rwa [List.mem_singleton.mp hc]

/-- A message that a read of `MAXLINE` bytes takes has that length. -/
theorem length_of_exact {front : Bytes}
    (h : Exact ClientProgram.multiclient.responseDone front) : front.length = maxLine := by
  simpa [ClientProgram.responseDone] using h.whole

/-- While a read of `MAXLINE` bytes does not return there are fewer. -/
theorem length_of_none {stream : Bytes} (h : ∀ part, part <+: stream → part ≠ [] →
    ClientProgram.multiclient.responseDone part = false) : stream.length < maxLine := by
  by_contra hlen
  have hfull : (stream.take maxLine).length = maxLine :=
    List.length_take_of_le (Nat.not_lt.mp hlen)
  have hdone := h (stream.take maxLine) (List.take_prefix maxLine stream) (by
    rw [← List.length_pos_iff, hfull]
    decide)
  simp [ClientProgram.responseDone, hfull] at hdone

/-- **A client's read returns where `responseDone` says**, however `read` cuts the stream. -/
theorem read_of_exact (client : ClientProgram) {rp : Rio} (hclean : Clean rp.reads)
    {front rest : Bytes} (hcontent : rp.content = front ++ rest)
    (h : Exact client.responseDone front) : ∃ rp', Clean rp'.reads ∧
      client.read rp = (some front, rp') ∧ rp'.content = rest := by
  cases client with
  | stockclient =>
    obtain ⟨rp', hclean', hread, hleft⟩ := rioReadlineb_spec (maxLine - 1) hclean
    rw [hcontent, takeLine_of_exact (by decide) h] at hread hleft
    exact ⟨rp', hclean', hread, hleft⟩
  | multiclient =>
    obtain ⟨rp', hclean', hread, hleft⟩ := rioReadnb_spec maxLine hclean
    have hlen := length_of_exact h
    rw [hcontent] at hread hleft
    rw [List.take_left' hlen] at hread
    rw [List.drop_left' hlen] at hleft
    exact ⟨rp', hclean', hread, hleft⟩

/-- **If there is no such place, the read waits for the end of the stream.** -/
theorem read_of_none (client : ClientProgram) {rp : Rio} (hclean : Clean rp.reads)
    (h : ∀ part, part <+: rp.content → part ≠ [] → client.responseDone part = false) :
    ∃ rp', Clean rp'.reads ∧ client.read rp = (some rp.content, rp') ∧ rp'.content = [] := by
  cases client with
  | stockclient =>
    obtain ⟨rp', hclean', hread, hleft⟩ := rioReadlineb_spec (maxLine - 1) hclean
    obtain ⟨hline, hlen⟩ := part_of_line (by decide) h
    rw [takeLine_tail hline hlen.le] at hread hleft
    exact ⟨rp', hclean', hread, hleft⟩
  | multiclient =>
    obtain ⟨rp', hclean', hread, hleft⟩ := rioReadnb_spec maxLine hclean
    have hlen := length_of_none h
    rw [List.take_of_length_le hlen.le] at hread
    rw [List.drop_of_length_le hlen.le] at hleft
    exact ⟨rp', hclean', hread, hleft⟩

/-! ## Request lines -/

/-- A request line is sent whole. -/
theorem RequestLine.sent_eq (line : RequestLine) : line.sent = line.text ++ [newline] := by
  apply cstr_eq_self
  intro b hb
  rcases List.mem_append.mp hb with hb | hb
  · exact ne_of_mem_of_not_mem hb line.nul_notMem
  · obtain rfl := List.mem_singleton.mp hb
    decide

/-- A text with one newline, at its end, that fits the line buffer is one line. -/
theorem exact_line {room : ℕ} {text : Bytes} (hline : ∀ b ∈ text, b ≠ newline)
    (hlen : text.length < room) : Exact (lineDone room) (text ++ [newline]) where
  ne_nil := by simp
  whole := by simp [lineDone]
  front := by
    intro part hpart hne hwhole
    have hpart' : part <+: text := (List.prefix_concat_iff.mp hpart).resolve_left hwhole
    have hlen' := hpart'.length_le
    have hlast : part.getLast? ≠ some newline := by
      intro hlast
      have hmem := hpart'.subset (List.mem_of_getLast? hlast)
      exact hline newline hmem rfl
    have hroom : part.length ≠ room := by omega
    simp [lineDone, hlast, hroom]

/-- A request line is what `handle_client` reads as one line. -/
theorem exact_sent (line : RequestLine) : Exact (lineDone (maxLine - 1)) line.sent := by
  rw [line.sent_eq]
  have hshort := line.short
  exact exact_line (fun b hb => ne_of_mem_of_not_mem hb line.newline_notMem) (by omega)

/-! ## Which responses are read as they are -/

/-- A valid `show` of all items. -/
def ListsAll (request : StockRequest) : Prop :=
  validateRequest request = .ok ∧ request.command = .requestShow ∧ request.argc = 1

/-- A valid `exit`. -/
def IsExit (request : StockRequest) : Prop :=
  validateRequest request = .ok ∧ request.command = .requestExit

instance (request : StockRequest) : Decidable (ListsAll request) :=
  inferInstanceAs (Decidable (_ ∧ _))

instance (request : StockRequest) : Decidable (IsExit request) :=
  inferInstanceAs (Decidable (_ ∧ _))

/-- The lines of all items, in order. -/
def listing (store : StockStore) : Bytes := (SearchTree.inorder store).flatMap stockLine

/-- **The requests whose response a client reads as it is.**  A line is read by `stockclient`, so
that only a listing of one line fits it, and a listing that is too long to be sent.  `multiclient`
reads `MAXLINE` bytes, or fewer once `handle_client` has closed the connection. -/
def ClientProgram.Fits : ClientProgram → StockStore → StockRequest → Prop
  | stockclient, store, request => ListsAll request →
      (SearchTree.inorder store).length = 1 ∨ sizeMax ≤ (listing store).length
  | multiclient, store, request =>
      IsExit request ∨ ListsAll request ∧ (listing store).length = maxLine

instance ClientProgram.decidableFits (client : ClientProgram) (store : StockStore)
    (request : StockRequest) : Decidable (client.Fits store request) :=
  match client with
  | .stockclient => inferInstanceAs (Decidable (_ → _))
  | .multiclient => inferInstanceAs (Decidable (_ ∨ _))

/-- `handle_client` leaves its loop after a valid `exit` only. -/
theorem leaves_iff_isExit (store : StockStore) (request : StockRequest) :
    (serveRequest store request).leaves ↔ IsExit request := by
  constructor
  · rintro ⟨hc, hok⟩
    refine ⟨?_, hc⟩
    by_contra hinvalid
    rw [serveRequest_of_invalid hinvalid] at hok
    exact hinvalid hok
  · rintro ⟨hvalid, hc⟩
    rw [serveRequest_of_exit hvalid hc]
    exact ⟨hc, rfl⟩

/-- A response of one line, shorter than the buffers of the clients. -/
structure OneLine (response : Bytes) : Prop where
  exact : Exact (lineDone (maxLine - 1)) response
  short : response.length < maxLine

/-- A short text with one newline, at its end. -/
theorem oneLine_concat {text : Bytes} (hline : newline ∉ text) (hlen : text.length + 1 < maxLine) :
    OneLine (text ++ [newline]) where
  exact := exact_line (fun b hb => ne_of_mem_of_not_mem hb hline) (by omega)
  short := by simpa using hlen

/-- Every error text is one line. -/
theorem oneLine_statusResponse (status : StockStatus) : OneLine (statusResponse status) := by
  cases status with
  | errInvalid => exact @oneLine_concat (ascii "invalid command") (by decide) (by decide)
  | errNotFound => exact @oneLine_concat (ascii "stock not found") (by decide) (by decide)
  | errInsufficient => exact @oneLine_concat (ascii "not enough left stock") (by decide) (by decide)
  | ok => exact @oneLine_concat (ascii "internal error") (by decide) (by decide)
  | errInternal => exact @oneLine_concat (ascii "internal error") (by decide) (by decide)
  | errIo => exact @oneLine_concat (ascii "internal error") (by decide) (by decide)

/-- So is the text of a success. -/
theorem oneLine_successText : OneLine successText :=
  @oneLine_concat (ascii "success") (by decide) (by decide)

/-- So is the line of an item. -/
theorem oneLine_stockLine (item : StockItem) : OneLine (stockLine item) := by
  have hlen := length_stockLine_le item
  rw [stockLine_concat] at hlen ⊢
  refine oneLine_concat (fun hmem => (mem_stockLine hmem).2 rfl) ?_
  rw [List.length_append, List.length_singleton] at hlen
  unfold maxLine
  omega

/-- **A response is a listing or one line.** -/
theorem serveRequest_response_cases (store : StockStore) (request : StockRequest) :
    (ListsAll request ∧ (listing store).length < sizeMax ∧
      (serveRequest store request).response = listing store) ∨
    (ListsAll request → sizeMax ≤ (listing store).length) ∧
      OneLine (serveRequest store request).response := by
  by_cases hall : ListsAll request
  · obtain ⟨hvalid, hc, hargc⟩ := hall
    have hfits := @serveRequest_of_showAll_ok_iff store request hvalid hc hargc
    rcases (@serveRequest_of_showAll store request hvalid hc hargc).1 with hlisting | herror
    · left
      rw [hlisting] at hfits ⊢
      exact ⟨⟨hvalid, hc, hargc⟩, hfits.mp rfl, rfl⟩
    · right
      rw [herror] at hfits ⊢
      refine ⟨fun _ => ?_, oneLine_statusResponse .errInternal⟩
      by_contra hlen
      have hok := hfits.mpr (Nat.not_le.mp hlen)
      cases hok
  · right
    refine ⟨fun h => absurd h hall, ?_⟩
    by_cases hvalid : validateRequest request = .ok
    · cases hc : request.command with
      | requestShow =>
        have hone : request.argc = 2 := (argc_of_show hvalid hc).resolve_left fun hargc =>
          hall ⟨hvalid, hc, hargc⟩
        rw [serveRequest_of_showOne hvalid hc hone]
        cases findStockItem store request.id with
        | none => exact oneLine_statusResponse .errNotFound
        | some item => exact oneLine_stockLine item
      | requestBuy | requestSell =>
        rw [serveRequest_of_isTrade ⟨hvalid, by simp [hc]⟩]
        dsimp only
        split_ifs
        · exact oneLine_successText
        · exact oneLine_statusResponse _
      | requestExit =>
        rw [serveRequest_of_exit hvalid hc]
        exact oneLine_successText
      | requestUnknown => exact absurd hc (command_of_validate hvalid)
    · rw [serveRequest_of_invalid hvalid]
      exact oneLine_statusResponse _

/-- A listing is one line when there is one item. -/
theorem delivered_listing_iff (items : List StockItem) :
    Delivered (lineDone (maxLine - 1)) (items.flatMap stockLine) false ↔ items.length = 1 := by
  rcases items with _ | ⟨item, _ | ⟨item', items⟩⟩
  · simp only [List.flatMap_nil, List.length_nil, Nat.zero_ne_one, iff_false]
    intro h
    exact (h.whole rfl).1 rfl
  · simp only [List.flatMap_cons, List.flatMap_nil, List.append_nil, List.length_singleton,
      iff_true]
    exact (oneLine_stockLine item).exact.delivered false
  · simp only [List.length_cons, Nat.add_eq_right, Nat.add_eq_zero_iff, one_ne_zero, and_false,
      iff_false]
    intro h
    have hfirst := (oneLine_stockLine item).exact
    have hsecond := (oneLine_stockLine item').exact.ne_nil
    have hdone := h.front (stockLine item) (by simp) hfirst.ne_nil (by simp [hsecond])
    rw [hfirst.whole] at hdone
    cases hdone

/-- `MAXLINE` bytes are read, or fewer before the connection is closed. -/
theorem delivered_multiclient_iff {response : Bytes} {last : Bool} :
    Delivered ClientProgram.multiclient.responseDone response last ↔
      response.length = maxLine ∨ last = true ∧ response.length < maxLine := by
  have hdone (part : Bytes) : ClientProgram.multiclient.responseDone part = true ↔
      part.length = maxLine := by simp [ClientProgram.responseDone]
  constructor
  · intro h
    by_cases hwhole : response.length = maxLine
    · exact Or.inl hwhole
    · right
      constructor
      · by_contra hlast
        exact hwhole ((hdone response).mp (h.whole (by simpa using hlast)).2)
      · by_contra hlen
        have hfull : (response.take maxLine).length = maxLine :=
          List.length_take_of_le (Nat.not_lt.mp hlen)
        have hfront := h.front (response.take maxLine) (List.take_prefix maxLine response)
          (by rw [← List.length_pos_iff, hfull]; decide)
          (fun heq => hwhole (by rw [← heq, hfull]))
        rw [(hdone _).mpr hfull] at hfront
        cases hfront
  · intro h
    constructor
    · intro part hpart hne hproper
      have hlt : part.length < response.length :=
        lt_of_le_of_ne hpart.length_le fun heq => hproper (hpart.eq_of_length heq)
      rw [Bool.eq_false_iff, ne_eq, hdone]
      omega
    · rintro rfl
      have hlen : response.length = maxLine := h.resolve_right (by simp)
      refine ⟨?_, (hdone response).mpr hlen⟩
      rw [← List.length_pos_iff, hlen]
      decide

/-- **A response is delivered exactly when its request fits.** -/
theorem delivered_iff_fits (client : ClientProgram) (store : StockStore)
    (request : StockRequest) :
    Delivered client.responseDone (serveRequest store request).response
      (decide (serveRequest store request).leaves) ↔ client.Fits store request := by
  have hleaves := leaves_iff_isExit store request
  rcases serveRequest_response_cases store request with ⟨hall, hlen, hresponse⟩ | ⟨hall, hone⟩
  · have hstays : ¬ IsExit request := fun h => absurd (hall.2.1.symm.trans h.2) (by decide)
    rw [hresponse]
    simp only [hleaves, hstays, decide_false]
    cases client with
    | stockclient =>
      refine (delivered_listing_iff _).trans ⟨fun h _ => Or.inl h, fun h => ?_⟩
      exact (h hall).resolve_right (by omega)
    | multiclient =>
      rw [delivered_multiclient_iff]
      simp [ClientProgram.Fits, hstays, hall]
  · cases client with
    | stockclient =>
      exact iff_of_true (hone.exact.delivered _) fun h => Or.inr (hall h)
    | multiclient =>
      have hshort := hone.short
      rw [delivered_multiclient_iff, decide_eq_true_iff, hleaves]
      constructor
      · rintro (hlen | ⟨hexit, -⟩)
        · omega
        · exact Or.inl hexit
      · rintro (hexit | ⟨hlists, hlen⟩)
        · exact Or.inr ⟨hexit, hshort⟩
        · have hbig := hall hlists
          rw [hlen] at hbig
          exact absurd hbig (by decide)

/-! ## Sessions -/

/-- Every response of a session is delivered when every request up to the first valid `exit` fits
the store it finds. -/
theorem allDelivered_iff (client : ClientProgram) (store : StockStore) (lines : List Bytes) :
    client.conversation.AllDelivered store lines ↔
      ∀ before line after, lines = before ++ line :: after →
        (∀ l ∈ before, ¬ IsExit (parseRequest l)) →
        client.Fits (serveLines store before).2 (parseRequest line) := by
  induction lines generalizing store with
  | nil =>
    refine iff_of_true trivial fun before line after h => ?_
    exact absurd h (by simp)
  | cons first lines ih =>
    have hfirst := delivered_iff_fits client store (parseRequest first)
    have hleaves := leaves_iff_isExit store (parseRequest first)
    have hstays : decide (serveLine store first).leaves = false ↔
        ¬ IsExit (parseRequest first) := by
      rw [decide_eq_false_iff_not]
      exact not_congr hleaves
    have hcons : client.conversation.AllDelivered store (first :: lines) ↔
        client.Fits store (parseRequest first) ∧ (¬ IsExit (parseRequest first) →
          client.conversation.AllDelivered (serveLine store first).store lines) :=
      and_congr hfirst (imp_congr_left hstays)
    rw [hcons, ih]
    constructor
    · rintro ⟨hfits, hrest⟩ before line after hsplit hbefore
      cases before with
      | nil =>
        obtain ⟨rfl, -⟩ := List.cons_eq_cons.mp hsplit
        exact hfits
      | cons b before =>
        obtain ⟨rfl, hlines⟩ := List.cons_eq_cons.mp hsplit
        exact hrest (hbefore first (by simp)) before line after hlines
          fun l hl => hbefore l (by simp [hl])
    · intro h
      refine ⟨h [] first lines rfl (by simp), fun hexit before line after hsplit hbefore => ?_⟩
      refine h (first :: before) line after (by rw [hsplit]; rfl) ?_
      rintro l hl
      rcases List.mem_cons.mp hl with rfl | hl
      · exact hexit
      · exact hbefore l hl

/-- **The client should read what `handle_client` sends**: the responses of the requests served, in
order, and nothing for a request after the first valid `exit`. -/
theorem expected_conversation (client : ClientProgram) (store : StockStore)
    (lines : List Bytes) : client.conversation.expected store lines =
      let served := (serveUntilExit store lines).1
      served.map Served.response ++ List.replicate (lines.length - served.length) [] := by
  induction lines generalizing store with
  | nil => rfl
  | cons line lines ih =>
    rw [expected, serveUntilExit]
    by_cases hleaves : (serveLine store line).leaves
    · simp [ClientProgram.conversation, hleaves]
    · have hrest := ih (serveLine store line).store
      simp only [ClientProgram.conversation] at hrest
      simp [ClientProgram.conversation, hleaves, hrest]

/-- **Client and server stay in step exactly when every request fits**, up to the first valid
`exit`: for `stockclient`, when none of them lists a store that has not exactly one item; for
`multiclient`, when each of them lists a store whose listing has `MAXLINE` bytes. -/
theorem clients_inStep_iff (client : ClientProgram) (store : StockStore)
    (lines : List RequestLine) :
    let requests := lines.map RequestLine.sent
    client.conversation.InStep (start store requests)
        (client.conversation.expected store requests) ↔
      ∀ before line after, requests = before ++ line :: after →
        (∀ l ∈ before, ¬ IsExit (parseRequest l)) →
        client.Fits (serveLines store before).2 (parseRequest line) := by
  intro requests
  rw [← allDelivered_iff]
  apply inStep_iff
  intro request hrequest
  obtain ⟨line, -, rfl⟩ := List.mem_map.mp hrequest
  exact exact_sent line

/-- One request that does not fit is enough to lose step. -/
theorem not_inStep_of_not_fits {client : ClientProgram} {store : StockStore} {line : RequestLine}
    (h : ¬ client.Fits store (parseRequest line.sent)) :
    ¬ client.conversation.InStep (start store [line.sent])
      (client.conversation.expected store [line.sent]) := by
  intro hstep
  have hrequests : ∀ r ∈ [line.sent], Exact client.conversation.requestDone r := by
    intro r hr
    rw [List.mem_singleton.mp hr]
    exact exact_sent line
  have hall := (allDelivered_iff client store [line.sent]).mp (hstep.allDelivered hrequests)
  exact h (hall [] line.sent [] rfl (by simp))

/-- **Three sessions out of step**: `multiclient` after an order, and `stockclient` after a `show`
of a store with no item, where the read waits, or of one with two items, where it returns early. -/
theorem clients_out_of_step :
    let buyLine : RequestLine := ⟨ascii "buy 1 2", by decide, by decide, by decide⟩
    let showLine : RequestLine := ⟨ascii "show", by decide, by decide, by decide⟩
    let two := upsertStockItem (upsertStockItem .nil 1 10 100) 2 20 200
    ¬ ClientProgram.multiclient.conversation.InStep (start .nil [buyLine.sent])
        (ClientProgram.multiclient.conversation.expected .nil [buyLine.sent]) ∧
      ¬ ClientProgram.stockclient.conversation.InStep (start .nil [showLine.sent])
        (ClientProgram.stockclient.conversation.expected .nil [showLine.sent]) ∧
      ¬ ClientProgram.stockclient.conversation.InStep (start two [showLine.sent])
        (ClientProgram.stockclient.conversation.expected two [showLine.sent]) := by
  intro buyLine showLine two
  refine ⟨not_inStep_of_not_fits ?_, not_inStep_of_not_fits ?_, not_inStep_of_not_fits ?_⟩
  · decide
  · decide
  · decide

end StockServer
