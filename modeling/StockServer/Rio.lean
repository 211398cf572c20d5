import StockServer.Lib.Bytes

set_option relaxedAutoImplicit false
set_option autoImplicit false

/-!
# Robust I/O on a connection

The buffered reader and the writer of `csapp.c`.  What the kernel will report for a connection is
a list of results, one for each further call of `read` or `write`.  When the list of reads is
used up the peer has closed; when the list of writes is used up, a write takes everything.

## Main definitions

* `ReadResult`, `WriteResult` — what one `read` or `write` reports.
* `Rio`, `rioRead`, `rioReadlineb`, `rioReadnb` — the buffered reader, under the names of the
  source.
* `Written`, `rioWriten` — the writer.
* `Rio.content` — the bytes a reader without errors has yet to deliver.

## Main results

* `rioReadlineb_spec` — one line is read as `takeLine` takes it from the content, however `read`
  cuts the content.
* `rioReadnb_spec` — so are `n` bytes, or as many as there are.
* `length_rioReadlineb` — a line that is read is used up.
* `rioWriten_sent` — what is sent are first bytes of the text.
* `rioWriten_spec` — without errors, everything is sent.

## Implementation notes

Where the real wrapper functions call `unix_error`, which ends the process, the functions here
report `none` or `ok = false`; their callers end the process.
-/

namespace StockServer

/-- What one call of `read` reports; an empty `bytes` is end of file. -/
inductive ReadResult where
  | bytes (bs : Bytes)
  | eintr
  | error
  deriving DecidableEq, Repr

/-- What one call of `write` reports; `wrote count` takes `count + 1` bytes, or all there are. -/
inductive WriteResult where
  | wrote (count : ℕ)
  | eintr
  | error
  deriving DecidableEq, Repr

/-- `rio_t`: the unread part of the internal buffer, and what further calls of `read` report. -/
structure Rio where
  unread : Bytes
  reads : List ReadResult
  deriving DecidableEq, Repr

/-- `rio_readinitb` on a connection. -/
def rioReadinitb (reads : List ReadResult) : Rio := ⟨[], reads⟩

/-- The refill loop of `rio_read`: retry after `EINTR`; `none` on any other error, no bytes at end
of file. -/
def refill : List ReadResult → Option Bytes × List ReadResult
  | [] => (some [], [])
  | .bytes bs :: reads => (some bs, reads)
  | .eintr :: reads => refill reads
  | .error :: reads => (none, reads)

/-- `rio_read`. -/
def rioRead (rp : Rio) (n : ℕ) : Option Bytes × Rio :=
  if rp.unread = [] then
    match refill rp.reads with
    | (none, reads) => (none, ⟨[], reads⟩)
    | (some bs, reads) => (some (bs.take n), ⟨bs.drop n, reads⟩)
  else (some (rp.unread.take n), ⟨rp.unread.drop n, rp.reads⟩)

/-- `rio_readlineb` with room for `room` bytes before the NUL: the line, empty at end of file, or
`none` on an error. -/
def rioReadlineb : ℕ → Rio → Option Bytes × Rio
  | 0, rp => (some [], rp)
  | room + 1, rp =>
    match rioRead rp 1 with
    | (some [c], rp) =>
      if c = newline then (some [c], rp)
      else
        let rest := rioReadlineb room rp
        (rest.1.map (c :: ·), rest.2)
    | (some _, rp) => (some [], rp)
    | (none, rp) => (none, rp)

/-- `rio_readnb`: `n` bytes, or fewer at end of file, or `none` on an error. -/
def rioReadnb (n : ℕ) (rp : Rio) : Option Bytes × Rio :=
  if n = 0 then (some [], rp)
  else match rioRead rp n with
    | (some (c :: cs), rp) =>
      let rest := rioReadnb (n - (c :: cs).length) rp
      (rest.1.map (c :: cs ++ ·), rest.2)
    | (some [], rp) => (some [], rp)
    | (none, rp) => (none, rp)
termination_by n
decreasing_by
  simp only [List.length_cons]
  omega

/-- What a `rio_writen` did: whether it wrote everything, the bytes it sent, and what further
calls of `write` report. -/
structure Written where
  ok : Bool
  sent : Bytes
  writes : List WriteResult
  deriving DecidableEq, Repr

/-- `rio_writen`. -/
def rioWriten : List WriteResult → Bytes → Written
  | writes, [] => ⟨true, [], writes⟩
  | [], bs => ⟨true, bs, []⟩
  | .wrote count :: writes, bs =>
    let rest := rioWriten writes (bs.drop (count + 1))
    { rest with sent := bs.take (count + 1) ++ rest.sent }
  | .eintr :: writes, bs => rioWriten writes bs
  | .error :: writes, _ => ⟨false, [], writes⟩

/-! ## Reading without errors -/

/-- No result is an error, and end of file comes only at the end. -/
def Clean (reads : List ReadResult) : Prop := ∀ r ∈ reads, r ≠ .error ∧ r ≠ .bytes []

instance (reads : List ReadResult) : Decidable (Clean reads) :=
  inferInstanceAs (Decidable (∀ r ∈ reads, _))

/-- The bytes that a list of results delivers. -/
def delivered : List ReadResult → Bytes
  | [] => []
  | .bytes bs :: reads => bs ++ delivered reads
  | .eintr :: reads => delivered reads
  | .error :: reads => delivered reads

/-- The bytes a reader has yet to deliver. -/
def Rio.content (rp : Rio) : Bytes := rp.unread ++ delivered rp.reads

/-- A refill takes the first bytes that are delivered. -/
theorem refill_spec {reads : List ReadResult} (h : Clean reads) :
    ∃ bs rest, refill reads = (some bs, rest) ∧ bs ++ delivered rest = delivered reads ∧
      Clean rest ∧ (bs = [] → delivered reads = []) := by
  induction reads with
  | nil => exact ⟨[], [], rfl, rfl, h, fun _ => rfl⟩
  | cons r reads ih =>
    have hrest : Clean reads := fun x hx => h x (by simp [hx])
    cases r with
    | bytes bs =>
      refine ⟨bs, reads, rfl, rfl, hrest, fun hbs => ?_⟩
      exact absurd (hbs ▸ rfl) (h (.bytes bs) (by simp)).2
    | eintr => exact ih hrest
    | error => exact absurd rfl (h .error (by simp)).1

/-- `rio_read` takes some first bytes of the content, and none only at its end. -/
theorem rioRead_spec {rp : Rio} (h : Clean rp.reads) {n : ℕ} (hn : 0 < n) :
    ∃ bs rp', Clean rp'.reads ∧ rioRead rp n = (some bs, rp') ∧
      bs ++ rp'.content = rp.content ∧ bs.length ≤ n ∧ (bs = [] → rp.content = []) := by
  rcases rp with ⟨unread, reads⟩
  by_cases hempty : unread = []
  · subst hempty
    obtain ⟨bs, rest, hfill, hbs, hclean, hnil⟩ := refill_spec h
    refine ⟨bs.take n, ⟨bs.drop n, rest⟩, hclean, ?_, ?_, List.length_take_le n bs, ?_⟩
    · simp [rioRead, hfill]
    · simp [Rio.content, ← hbs, ← List.append_assoc]
    · intro htake
      rw [Rio.content, List.nil_append]
      exact hnil ((List.take_eq_nil_iff.mp htake).resolve_left hn.ne')
  · refine ⟨unread.take n, ⟨unread.drop n, reads⟩, h, ?_, ?_, List.length_take_le n unread, ?_⟩
    · simp [rioRead, hempty]
    · simp [Rio.content, ← List.append_assoc]
    · intro htake
      exact absurd ((List.take_eq_nil_iff.mp htake).resolve_left hn.ne') hempty

/-- `rio_read` of one byte takes the first byte of the content, if there is one. -/
theorem rioRead_one {rp : Rio} (h : Clean rp.reads) : ∃ rp', Clean rp'.reads ∧
    rioRead rp 1 = (some (rp.content.take 1), rp') ∧ rp'.content = rp.content.drop 1 := by
  obtain ⟨bs, rp', hclean, hread, hcontent, hlen, hnil⟩ := rioRead_spec h Nat.one_pos
  refine ⟨rp', hclean, ?_, ?_⟩
  · rw [hread, ← hcontent]
    rcases bs with _ | ⟨b, _ | ⟨b', bs⟩⟩
    · rw [hcontent, hnil rfl]
      rfl
    · rfl
    · simp at hlen
  · rw [← hcontent]
    rcases bs with _ | ⟨b, _ | ⟨b', bs⟩⟩
    · rw [hnil rfl] at hcontent
      rw [hcontent]
      exact List.append_eq_nil_iff.mp hcontent |>.2
    · rfl
    · simp at hlen

/-- **One line is read as it stands in the content**, however `read` cuts the content. -/
theorem rioReadlineb_spec (room : ℕ) {rp : Rio} (h : Clean rp.reads) : ∃ rp', Clean rp'.reads ∧
    rioReadlineb room rp = (some (takeLine room rp.content).1, rp') ∧
      rp'.content = (takeLine room rp.content).2 := by
  induction room generalizing rp with
  | zero => exact ⟨rp, h, rfl, rfl⟩
  | succ room ih =>
    obtain ⟨rp₁, h₁, hread, hcontent⟩ := rioRead_one h
    cases hc : rp.content with
    | nil =>
      rw [hc] at hread hcontent
      exact ⟨rp₁, h₁, by simp [rioReadlineb, hread, takeLine], by simp [hcontent, takeLine]⟩
    | cons c s =>
      rw [hc] at hread hcontent
      simp only [List.take_succ_cons, List.take_zero, List.drop_succ_cons, List.drop_zero]
        at hread hcontent
      by_cases hnl : c = newline
      · exact ⟨rp₁, h₁, by simp [rioReadlineb, hread, takeLine, hnl],
          by simp [hcontent, takeLine, hnl]⟩
      · obtain ⟨rp₂, h₂, hline, hrest⟩ := ih h₁
        rw [hcontent] at hline hrest
        exact ⟨rp₂, h₂, by simp [rioReadlineb, hread, takeLine, hnl, hline],
          by simp [hrest, takeLine, hnl]⟩

/-- **As many bytes are read as are asked for**, or all there are. -/
theorem rioReadnb_spec (n : ℕ) {rp : Rio} (h : Clean rp.reads) : ∃ rp', Clean rp'.reads ∧
    rioReadnb n rp = (some (rp.content.take n), rp') ∧ rp'.content = rp.content.drop n := by
  induction n using Nat.strong_induction_on generalizing rp with
  | _ n ih =>
    rw [rioReadnb]
    by_cases hn : n = 0
    · subst hn
      exact ⟨rp, h, by simp, by simp⟩
    · obtain ⟨bs, rp₁, h₁, hread, hcontent, hlen, hnil⟩ := rioRead_spec h (Nat.pos_of_ne_zero hn)
      rw [if_neg hn, hread]
      cases bs with
      | nil =>
        have hempty : rp₁.content = [] := by simpa using hcontent.trans (hnil rfl)
        exact ⟨rp₁, h₁, by simp [hnil rfl], by simp [hnil rfl, hempty]⟩
      | cons c cs =>
        obtain ⟨rp₂, h₂, hrest, hleft⟩ := ih (n - (c :: cs).length) (by simp; omega) h₁
        refine ⟨rp₂, h₂, ?_, ?_⟩
        · simp only [hrest, Option.map_some, ← hcontent]
          rw [List.take_append, List.take_of_length_le hlen]
        · rw [hleft, ← hcontent, List.drop_append, List.drop_of_length_le hlen, List.nil_append]

/-! ## Progress -/

/-- A refill delivers no more than there is. -/
theorem length_refill (reads : List ReadResult) :
    ((refill reads).1.getD []).length + (delivered (refill reads).2).length ≤
      (delivered reads).length := by
  induction reads with
  | nil => simp [refill]
  | cons r reads ih => cases r <;> simp [refill, delivered, ih]

/-- Reading a byte uses it up. -/
theorem length_rioRead (rp : Rio) :
    ((rioRead rp 1).1.getD []).length + (rioRead rp 1).2.content.length ≤ rp.content.length := by
  rcases rp with ⟨_ | ⟨b, unread⟩, reads⟩
  · have hfill := length_refill reads
    rcases hr : refill reads with ⟨_ | bs, rest⟩ <;> rw [hr] at hfill <;>
      simp only [rioRead, ↓reduceIte, hr, Rio.content, List.nil_append, List.length_append,
        Option.getD_none, Option.getD_some, List.length_nil, List.length_take,
        List.length_drop] at hfill ⊢ <;> omega
  · simp [rioRead, Rio.content]; omega

/-- **A line that is read is used up**, so reading non-empty lines comes to an end. -/
theorem length_rioReadlineb (room : ℕ) (rp : Rio) :
    ((rioReadlineb room rp).1.getD []).length + (rioReadlineb room rp).2.content.length ≤
      rp.content.length := by
  induction room generalizing rp with
  | zero => simp [rioReadlineb]
  | succ room ih =>
    have hread := length_rioRead rp
    rcases hr : rioRead rp 1 with ⟨_ | _ | ⟨c, _ | ⟨c', cs⟩⟩, rp₁⟩ <;> rw [hr] at hread <;>
      simp only [Option.getD_none, Option.getD_some, List.length_nil, List.length_cons] at hread
    · simp only [rioReadlineb, hr, Option.getD_none, List.length_nil]; omega
    · simp only [rioReadlineb, hr, Option.getD_some, List.length_nil]; omega
    · have hrest := ih rp₁
      by_cases hnl : c = newline
      · simp only [rioReadlineb, hr, hnl, ↓reduceIte, Option.getD_some, List.length_cons,
          List.length_nil]
        omega
      · simp only [rioReadlineb, hr, hnl, ↓reduceIte]
        rcases hl : rioReadlineb room rp₁ with ⟨_ | line, rp₂⟩ <;> rw [hl] at hrest <;>
          simp only [Option.map_none, Option.map_some, Option.getD_none, Option.getD_some,
            List.length_nil, List.length_cons] at hrest ⊢ <;> omega
    · simp only [rioReadlineb, hr, Option.getD_some, List.length_nil]; omega

/-! ## Writing -/

/-- **What is sent are first bytes of the text**, and all of them when every call succeeds. -/
theorem rioWriten_sent (writes : List WriteResult) (bs : Bytes) :
    (rioWriten writes bs).sent <+: bs ∧
      ((rioWriten writes bs).ok → (rioWriten writes bs).sent = bs) := by
  induction writes generalizing bs with
  | nil => cases bs <;> simp [rioWriten]
  | cons w writes ih =>
    cases bs with
    | nil => simp [rioWriten]
    | cons b bs =>
      cases w with
      | wrote count =>
        obtain ⟨hfirst, hall⟩ := ih ((b :: bs).drop (count + 1))
        have hcut := List.take_append_drop (count + 1) (b :: bs)
        rw [rioWriten]
        · refine ⟨?_, fun hok => by simp only [hall hok, hcut]⟩
          have hsent := (List.prefix_append_right_inj ((b :: bs).take (count + 1))).mpr hfirst
          rwa [hcut] at hsent
        · exact List.cons_ne_nil b bs
      | eintr => simpa [rioWriten] using ih (b :: bs)
      | error => simp [rioWriten]


/-- Without errors everything is sent. -/
theorem rioWriten_spec {writes : List WriteResult} (h : WriteResult.error ∉ writes) (bs : Bytes) :
    ∃ rest, rioWriten writes bs = ⟨true, bs, rest⟩ ∧ WriteResult.error ∉ rest := by
  induction writes generalizing bs with
  | nil => cases bs <;> exact ⟨[], rfl, by simp⟩
  | cons w writes ih =>
    simp only [List.mem_cons, not_or] at h
    cases bs with
    | nil => exact ⟨w :: writes, by rw [rioWriten], by simp [h.1, h.2]⟩
    | cons b bs =>
      cases w with
      | wrote count =>
        obtain ⟨rest, hrest, hclean⟩ := ih h.2 ((b :: bs).drop (count + 1))
        refine ⟨rest, ?_, hclean⟩
        rw [rioWriten, hrest]
        · exact congrArg (Written.mk true · rest) (List.take_append_drop (count + 1) (b :: bs))
        · exact List.cons_ne_nil b bs
      | eintr =>
        obtain ⟨rest, hrest, hclean⟩ := ih h.2 (b :: bs)
        exact ⟨rest, by simp [rioWriten, hrest], hclean⟩
      | error => exact absurd rfl h.1

end StockServer
