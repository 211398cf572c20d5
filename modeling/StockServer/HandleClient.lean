import StockServer.Execute
import StockServer.Rio

set_option relaxedAutoImplicit false
set_option autoImplicit false

/-!
# One connection from its first byte to its last

`handle_client` as a function of what `read` and `write` report, when no other worker touches the
store.  The request boundary is the one of `rio_readlineb`: a newline, the end of the stream, or
the `MAXLINE - 1` bytes that fit the line buffer.

## Main definitions

* `ClientRun`, `handleClient` — what serving a connection does, and the loop.
* `serveUntilExit` — requests served in order up to and including the first valid `exit`.

## Main results

* `handleClient_eq` — without errors, a connection is served as the pieces of its byte stream.
* `handleClient_requests` — the same for a fresh connection; where every line fits the buffer,
  the pieces are the lines.
* `handleClient_long_line` — a line of `MAXLINE` bytes is served as two requests.
-/

namespace StockServer

/-- How `handle_client` ends: it closes the connection, or a wrapper function ended the whole
process. -/
inductive ClientEnd where
  | closed
  | exited (code : ℕ)
  deriving DecidableEq, Repr

/-- What serving a connection did: the requests executed, the bytes sent, the store left and how
it ended. -/
structure ClientRun where
  served : List Served
  sent : Bytes
  store : StockStore
  ending : ClientEnd

/-- `handle_client`.  A read or write error ends the process in `unix_error`, with code `0`. -/
def handleClient (store : StockStore) (rp : Rio) (writes : List WriteResult) : ClientRun :=
  match _hread : rioReadlineb (maxLine - 1) rp with
  | (none, _) => ⟨[], [], store, .exited 0⟩
  | (some [], _) => ⟨[], [], store, .closed⟩
  | (some (b :: bs), rp') =>
    let served := serveLine store (b :: bs)
    let written := rioWriten writes served.response
    if written.ok then
      if served.leaves then ⟨[served], written.sent, served.store, .closed⟩
      else
        let rest := handleClient served.store rp' written.writes
        ⟨served :: rest.served, written.sent ++ rest.sent, rest.store, rest.ending⟩
    else ⟨[served], written.sent, served.store, .exited 0⟩
termination_by rp.content.length
decreasing_by
  have hlen := length_rioReadlineb (maxLine - 1) rp
  rw [_hread] at hlen
  simp at hlen
  omega

/-- At the end of the stream the connection is closed. -/
theorem handleClient_eof {rp rp' : Rio} (h : rioReadlineb (maxLine - 1) rp = (some [], rp'))
    (store : StockStore) (writes : List WriteResult) :
    handleClient store rp writes = ⟨[], [], store, .closed⟩ := by
  rw [handleClient]
  split <;> simp_all

/-- A line is served, answered, and followed by the rest unless it is a valid `exit`. -/
theorem handleClient_line {rp rp' : Rio} {line : Bytes} (hne : line ≠ [])
    (h : rioReadlineb (maxLine - 1) rp = (some line, rp')) (store : StockStore)
    (writes : List WriteResult) : handleClient store rp writes =
      let served := serveLine store line
      let written := rioWriten writes served.response
      if written.ok then
        if served.leaves then ⟨[served], written.sent, served.store, .closed⟩
        else
          let rest := handleClient served.store rp' written.writes
          ⟨served :: rest.served, written.sent ++ rest.sent, rest.store, rest.ending⟩
      else ⟨[served], written.sent, served.store, .exited 0⟩ := by
  rw [handleClient]
  split
  · simp_all
  · simp_all
  · rename_i b bs rp'' hread
    obtain ⟨rfl, rfl⟩ : b :: bs = line ∧ rp'' = rp' := by simpa [h, eq_comm] using hread
    rfl

/-! ## Serving the pieces of a stream -/

/-- Serve lines in order up to and including the first valid `exit`. -/
def serveUntilExit : StockStore → List Bytes → List Served × StockStore
  | store, [] => ([], store)
  | store, line :: lines =>
    let served := serveLine store line
    if served.leaves then ([served], served.store)
    else (served :: (serveUntilExit served.store lines).1, (serveUntilExit served.store lines).2)

/-- The responses of a list of requests, one after another. -/
def responses (served : List Served) : Bytes := (served.map Served.response).flatten

/-- **Without errors, a connection is served as the pieces of its byte stream.**

**Proof sketch.** Induction on the number of bytes left.  One call of `rio_readlineb` takes one
piece off the content, whatever `read` delivers when; one call of `rio_writen` sends one whole
response. -/
theorem handleClient_eq (store : StockStore) {rp : Rio} (hreads : Clean rp.reads)
    {writes : List WriteResult} (hwrites : WriteResult.error ∉ writes) :
    handleClient store rp writes =
      let done := serveUntilExit store (pieces (maxLine - 1) rp.content)
      ⟨done.1, responses done.1, done.2, .closed⟩ := by
  have hroom : 0 < maxLine - 1 := by decide
  induction hn : rp.content.length using Nat.strong_induction_on generalizing store rp writes with
  | _ n ih =>
    obtain ⟨rp', hclean, hread, hcontent⟩ := rioReadlineb_spec (maxLine - 1) hreads
    by_cases hnil : rp.content = []
    · have hline : (takeLine (maxLine - 1) rp.content).1 = [] := by rw [hnil]; rfl
      rw [hline] at hread
      rw [handleClient_eof hread, hnil]
      rfl
    · have hne := takeLine_ne_nil hroom hnil
      have hlt := length_takeLine_snd_lt hroom hnil
      rw [handleClient_line hne hread, pieces_eq hroom, if_neg hnil, serveUntilExit]
      set served := serveLine store (takeLine (maxLine - 1) rp.content).1
      obtain ⟨rest, hwritten, hrest⟩ := rioWriten_spec hwrites served.response
      simp only [hwritten, ↓reduceIte]
      by_cases hleaves : served.leaves
      · simp [hleaves, responses]
      · rw [ih _ (by rw [hcontent]; omega) _ hclean hrest rfl, hcontent]
        simp [hleaves, responses]

/-- **A connection executes one request for each piece of its stream**, in order, up to and
including the first valid `exit`, and sends exactly their responses; how `read` and `write` cut
the bytes does not matter.  A piece ends with a newline, with the stream or after `MAXLINE - 1`
bytes, so where every line fits the buffer the pieces are the lines. -/
theorem handleClient_requests (store : StockStore) (reads : List ReadResult)
    (writes : List WriteResult) (hreads : Clean reads) (hwrites : WriteResult.error ∉ writes) :
    let run := handleClient store (rioReadinitb reads) writes
    let done := serveUntilExit store (pieces (maxLine - 1) (delivered reads))
    run.served = done.1 ∧ run.sent = responses done.1 ∧ run.store = done.2 ∧
      run.ending = .closed ∧
      ((∀ line ∈ splitLines (delivered reads), line.length ≤ maxLine - 1) →
        pieces (maxLine - 1) (delivered reads) = splitLines (delivered reads)) := by
  intro run done
  have hrun : run = ⟨done.1, responses done.1, done.2, .closed⟩ :=
    @handleClient_eq store (rioReadinitb reads) hreads writes hwrites
  rw [hrun]
  exact ⟨rfl, rfl, rfl, rfl, pieces_eq_splitLines⟩

/-- A session that `read` cuts in the middle of a word, with an interrupted call, and whose first
`write` takes one byte: a listing and an exit are served, and their responses sent whole. -/
theorem handleClient_requests_split :
    let store : StockStore := .node ⟨1, 5, 100⟩ .nil .nil
    let reads : List ReadResult := [.bytes (ascii "sh"), .eintr, .bytes (ascii "ow\nexit\n")]
    let run := handleClient store (rioReadinitb reads) [.wrote 0]
    run.served.map (·.request.command) = [.requestShow, .requestExit] ∧
      run.served.map (·.response) = [ascii "1 5 100\n", ascii "success\n"] ∧
      run.sent = ascii "1 5 100\nsuccess\n" ∧ run.store = store ∧ run.ending = .closed := by
  intro store reads run
  obtain ⟨hserved, hsent, hstore, hending, -⟩ :=
    handleClient_requests store reads [.wrote 0] (by decide) (by decide)
  exact ⟨by rw [hserved]; decide +kernel, by rw [hserved]; decide +kernel,
    by rw [hsent]; decide +kernel, hstore.trans (by decide +kernel), hending⟩

/-- A line of blanks is no request. -/
theorem parseRequest_blanks (n : ℕ) : (parseRequest (List.replicate n 32)).command =
    .requestUnknown := by
  have hcopy : ∀ b ∈ (cstr (List.replicate n 32)).take (maxLine - 1), isDelimiter b = true := by
    intro b hb
    have hmem := (List.takeWhile_sublist _).subset (List.mem_of_mem_take hb)
    rw [(List.mem_replicate.mp hmem).2]
    decide
  have hnone : strtokR isDelimiter ((cstr (List.replicate n 32)).take (maxLine - 1)) = none := by
    rw [strtokR]
    simpa using hcopy
  simp [parseRequest, tokenize, hnone, requestOfTokens]

/-- Blanks and the rest of their line are two requests. -/
theorem serveUntilExit_blanks (n : ℕ) (rest : Bytes) :
    (serveUntilExit .nil [List.replicate n 32, rest]).1.length = 2 := by
  have hstay : ¬ (serveLine .nil (List.replicate n 32)).leaves := by
    rintro ⟨hc, -⟩
    exact absurd ((parseRequest_blanks n).symm.trans hc) (by decide)
  rw [serveUntilExit]
  simp only [hstay, ↓reduceIte, serveUntilExit]
  split_ifs <;> rfl

/-- One line is one request. -/
theorem serveUntilExit_singleton (store : StockStore) (line : Bytes) :
    (serveUntilExit store [line]).1.length = 1 := by
  simp only [serveUntilExit]
  split_ifs <;> rfl

/-- A line of blanks that fills the line buffer is served before the newline that ends it. -/
theorem handleClient_blanks {n : ℕ} (hn : n = maxLine - 1) :
    (handleClient .nil (rioReadinitb [.bytes (List.replicate n 32 ++ [newline])])
      []).served.length = 2 := by
  set line := List.replicate n (32 : UInt8) with hline
  have hblank : ∀ b ∈ line, b ≠ newline := by
    intro b hb
    rw [(List.mem_replicate.mp hb).2]
    decide
  have hclean : Clean [.bytes (line ++ [newline])] := by simp [Clean]
  have hrun := @handleClient_eq .nil (rioReadinitb [.bytes (line ++ [newline])]) hclean [] (by simp)
  have hcontent : (rioReadinitb [.bytes (line ++ [newline])]).content = line ++ [newline] := by
    simp [Rio.content, rioReadinitb, delivered]
  have hpieces : pieces (maxLine - 1) (line ++ [newline]) = [line, [newline]] := by
    rw [pieces_eq (by decide), if_neg (by simp),
      takeLine_full hblank (List.length_replicate.trans hn)]
    rfl
  rw [hrun, hcontent, hpieces]
  exact serveUntilExit_blanks n [newline]

/-- **A line of `MAXLINE` bytes is served as two requests**: the first `MAXLINE - 1` bytes and the
newline they left in the stream. -/
theorem handleClient_long_line :
    let stream := List.replicate (maxLine - 1) 32 ++ [newline]
    (handleClient .nil (rioReadinitb [.bytes stream]) []).served.length = 2 ∧
      (serveUntilExit .nil (splitLines stream)).1.length = 1 := by
  intro stream
  refine ⟨handleClient_blanks rfl, ?_⟩
  have hblank : ∀ b ∈ List.replicate (maxLine - 1) (32 : UInt8), b ≠ newline := by
    intro b hb
    rw [(List.mem_replicate.mp hb).2]
    decide
  rw [splitLines_append_line hblank []]
  exact serveUntilExit_singleton .nil stream

end StockServer
