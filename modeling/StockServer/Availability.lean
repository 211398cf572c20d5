import StockServer.Sessions

set_option relaxedAutoImplicit false
set_option autoImplicit false

/-!
# When a directory can be started from

A directory that holds a generation can be started from after any history of processes: no kill, no
power cut and no failing call of theirs leaves it unusable.  One thing does.  A sell that takes a
quantity past `INT_MAX` makes it negative, the publication writes the negative number, and
`load_stock_file_into_store` refuses it from then on.

## Main definitions

* `Session.Undisturbed` — a process of which no call of the startup fails.

## Main results

* `newFiles_describes_iff` — a published generation can be loaded iff all its items are storable.
* `storable_accounts_iff` — all that requests can spoil is the sign of a quantity.
* `sessions_recover_iff` — **the next startup succeeds iff no quantity is negative** after the
  sessions that survive.
-/

namespace StockServer

open Prog SearchTree

variable {base store : StockStore} {log : List Report} {d : Disk} {g : GenerationFiles}
  {first gen : StockGen}

/-! ## What can be loaded -/

/-- **A snapshot can be loaded** iff all its items are storable. -/
theorem loads_snapshotText_iff (hord : Ordered store) :
    (∃ s, applyLines loadLine .nil (fileLines (snapshotText store)) = (.ok, s)) ↔
      ∀ item ∈ inorder store, Storable item := by
  constructor
  · rintro ⟨s, hload⟩
    have hsame := sameMap_of_snapshotText hord hload
    rw [← inorder_eq_of_sameMap hord (ordered_of_load hload) hsame]
    exact storable_of_load hload
  · intro hstorable
    obtain ⟨s, hload, -⟩ := applyLines_snapshotText hord hstorable
    exact ⟨s, hload⟩

/-- **A published generation can be loaded** iff all its items are storable. -/
theorem newFiles_describes_iff (hgen : 0 < gen) (hord : Ordered store) :
    (∃ s, (newFiles gen store).Describes s) ↔ ∀ item ∈ inorder store, Storable item := by
  rw [← loads_snapshotText_iff hord]
  constructor
  · rintro ⟨s, hs⟩
    obtain ⟨s', hload, -⟩ := hs.loads
    exact ⟨s', hload⟩
  · rintro ⟨s, hload⟩
    exact ⟨s, (readManifest_manifestText gen).trans (if_pos hgen), s, hload, rfl⟩

/-! ## What requests and records leave alone -/

/-- What requests and records of trades leave alone: the shape of the tree, the ids and the
prices. -/
abbrev frame (store : StockStore) : BinaryTree (Int32 × Int32) :=
  store.map fun item => (item.id, item.price)

/-- A request leaves the frame alone. -/
theorem frame_serveRequest (store : StockStore) (request : StockRequest) :
    frame (serveRequest store request).store = frame store := by
  rcases serveRequest_cases store request with ⟨item, -, -, -, -, hstore⟩ | ⟨hstore, -⟩
  · rw [hstore, frame, frame_addLeftStock]
  · rw [hstore]

/-- So do the requests of any sessions. -/
theorem frame_accounts (base : StockStore) (kept : List Report) :
    frame (accounts base kept) = frame base := by
  rw [accounts]
  induction kept.flatMap fun r => entries r.trace using List.reverseRecOn with
  | nil => rfl
  | append_singleton order entry ih =>
    obtain ⟨w, request⟩ := entry
    rw [sequential_concat]
    exact (frame_serveRequest _ request).trans ih

/-- A record of a log leaves the frame alone. -/
theorem frame_applyAofRecord (store : StockStore) (record : StockLogRecord) :
    frame (applyAofRecord store record).2 = frame store := by
  simp only [applyAofRecord]
  split_ifs with hbad hbuy
  · rfl
  all_goals
    rw [stockStoreApplyDeltaNolock]
    split
    · rfl
    · split_ifs
      · rfl
      · exact frame_addLeftStock _ _ _

/-- So does a log. -/
theorem frame_replay (store : StockStore) (lines : List Bytes) :
    frame (applyLines replayLine store lines).2 = frame store := by
  have hline : ∀ store line, frame (replayLine store line).2 = frame store := by
    intro store line
    simp only [replayLine, applyLine]
    split
    · rfl
    · rfl
    · exact frame_applyAofRecord _ _
  induction lines generalizing store with
  | nil => rfl
  | cons line lines ih =>
    simp only [applyLines]
    split_ifs
    · exact hline store line
    · exact (ih _).trans (hline store line)

/-- Ids and prices are storable when they were before. -/
theorem storable_iff_of_frame {store' : StockStore} (hframe : frame store' = frame store)
    (h : ∀ item ∈ inorder store, 0 < item.id ∧ 0 ≤ item.price) :
    (∀ item ∈ inorder store', Storable item) ↔ ∀ item ∈ inorder store', 0 ≤ item.leftStock := by
  refine ⟨fun hstorable item hitem => (hstorable item hitem).leftStock_nonneg,
    fun hnonneg item hitem => ?_⟩
  have hmem : (item.id, item.price) ∈ (inorder store).map fun item => (item.id, item.price) := by
    have hitems := congrArg inorder hframe
    rw [inorder_map, inorder_map] at hitems
    rw [← hitems]
    exact List.mem_map_of_mem hitem
  obtain ⟨item₀, hitem₀, heq⟩ := List.mem_map.mp hmem
  obtain ⟨hid, hprice⟩ := h item₀ hitem₀
  rw [Prod.mk.injEq] at heq
  exact ⟨heq.1 ▸ hid, hnonneg item hitem, heq.2 ▸ hprice⟩

/-- All that a log can spoil is the sign of a quantity. -/
theorem GenerationFiles.Describes.storable_iff (hg : g.Describes base) :
    (∀ item ∈ inorder base, Storable item) ↔ ∀ item ∈ inorder base, 0 ≤ item.leftStock := by
  obtain ⟨loaded, hload, hreplay⟩ := hg.loads
  have hframe : frame base = frame loaded := by
    have := frame_replay loaded (fileLines g.aof)
    rwa [hreplay] at this
  exact storable_iff_of_frame hframe fun item hitem =>
    have h := storable_of_load hload item hitem
    ⟨h.id_pos, h.price_nonneg⟩

/-- **All that requests can spoil is the sign of a quantity.** -/
theorem storable_accounts_iff (hbase : ∀ item ∈ inorder base, Storable item) (kept : List Report) :
    (∀ item ∈ inorder (accounts base kept), Storable item) ↔
      ∀ item ∈ inorder (accounts base kept), 0 ≤ item.leftStock :=
  storable_iff_of_frame (frame_accounts base kept) fun item hitem =>
    ⟨(hbase item hitem).id_pos, (hbase item hitem).price_nonneg⟩

/-! ## Numbers of generations -/

/-- Generations are counted without overflow while there are numbers left. -/
theorem toInt_add_ofNat (n : ℕ) (hroom : first.toInt + n ≤ Int64.maxValue.toInt) :
    (first + .ofNat n).toInt = first.toInt + n := by
  induction n with
  | zero => exact (congrArg Int64.toInt (Int64.add_zero first)).trans (Int.add_zero _).symm
  | succ n ih =>
    have hn : (first + .ofNat n).toInt = first.toInt + n := ih (by omega)
    have hlt : first + .ofNat n < Int64.maxValue := by
      rw [Int64.lt_iff_toInt_lt, hn]
      omega
    have hsucc : first + .ofNat (n + 1) = first + .ofNat n + 1 := by
      rw [Int64.ofNat_add, ← Int64.add_assoc]
      rfl
    rw [hsucc, toInt_add_one hlt, hn]
    omega

/-! ## Any number of sessions -/

/-- Every session gives one report. -/
theorem length_sessions (d : Disk) (history : List Session) :
    (sessions.run d history).2.length = history.length := by
  induction history using List.reverseRecOn with
  | nil => rfl
  | append_singleton history s ih =>
    have hone : (sessions.step (sessions.run d history).1 s).2.length = 1 := rfl
    rw [sessions.run_snoc, List.length_append, List.length_append, ih, hone, List.length_singleton]

/-- No call of the startup fails, and nothing cuts it off. -/
structure Session.Undisturbed (s : Session) : Prop where
  fine : ∀ n, (s.startup n).Fine
  whole : s.startupCalls = none

/-- An undisturbed startup returns what the files that it sees describe, if they describe
anything. -/
theorem Session.Undisturbed.started_iff {s : Session} (hs : s.Undisturbed) (hshown : g.Shown d)
    (hself : g.NamesSelf) (hdir : d.Sound) :
    (s.started d).1 = some (.returned (.ok, store)) ↔ g.Describes store := by
  rw [Session.started, hs.whole, within]
  dsimp only
  rw [Option.some.injEq]
  constructor
  · intro hreturned
    have hbacked := (@ensures_recover_backed Choice.Fine d hdir).run hs.fine store hreturned
    rcases hbacked.2 with hnone | ⟨gen, hgen, himage⟩
    · exact absurd (by rw [manifestOf_of_lookup hnone]) hshown.found
    · obtain ⟨g', -, hshown', hdescribes⟩ := exists_shown hgen himage
      exact hshown.unique hself hshown' hdescribes ▸ hdescribes
  · exact fun hdescribes => GenerationFiles.recover_of_shown hshown hdescribes hs.fine

/-- What the directory shows after some sessions names the generation that counts those that
survive, and it can be recovered iff no quantity is negative after them. -/
theorem Stored.recovers (hord : Ordered base) (hfirst : 0 < first)
    (hbase : ∀ item ∈ inorder base, Storable item)
    (hroom : first.toInt + log.length ≤ Int64.maxValue.toInt) {shown : GenerationFiles}
    (h : Stored first base log shown) :
    ∃ kept, Surviving base log kept ∧
      readManifest none (fileLines shown.manifest) = (.ok, some shown.gen) ∧
      shown.gen.toInt = first.toInt + kept.length ∧
      ((∃ s, shown.Describes s) ↔ ∀ item ∈ inorder (accounts base kept), 0 ≤ item.leftStock) ∧
      ∀ s, shown.Describes s → SameMap s (accounts base kept) := by
  cases h with
  | first _ hshown hgen hnone =>
    refine ⟨[], hnone, hshown.names, by simp [hgen], ⟨fun _ item hitem =>
      (hbase item hitem).leftStock_nonneg, fun _ => ⟨base, hshown⟩⟩, fun s hs => ?_⟩
    rw [hshown.unique hs]
    exact SameMap.refl _
  | @published kept store hkept hstore hsame =>
    have hlength := hkept.sublist.length_le
    have hgen : (first + .ofNat kept.length).toInt = first.toInt + kept.length :=
      toInt_add_ofNat kept.length (by omega)
    have hpos : 0 < first + .ofNat kept.length := by
      have hfirst : 0 < first.toInt := Int64.lt_iff_toInt_lt.mp hfirst
      rw [Int64.lt_iff_toInt_lt, hgen]
      exact hfirst.trans_le (by omega)
    have hitems : inorder store = inorder (accounts base kept) :=
      inorder_eq_of_sameMap (ordered_sequential hord _) hstore hsame
    refine ⟨kept, hkept, (readManifest_manifestText _).trans (if_pos hpos), hgen, ?_,
      fun s hs => (sameMap_of_newFiles hstore hs).trans hsame⟩
    rw [newFiles_describes_iff hpos hstore, hitems, storable_accounts_iff hbase]

/-- **When a directory can be started from.**  A directory holds a generation that loads as a store
without negative quantities.  Any number of processes use it one after another, each with any
clients in any interleaving, with file-system calls failing anywhere, and cut off anywhere by a kill
or by a power cut; no join of a worker fails, and the generation numbers do not run out.  Then the
manifest names the generation that counts the sessions that survive, and an undisturbed startup
succeeds if and only if no quantity is negative after them. -/
theorem sessions_recover_iff {i j k : Ino} (h : d.Holds (g.pins i j k)) (hg : g.Describes base)
    (hbase : ∀ item ∈ inorder base, 0 ≤ item.leftStock) (history : List Session)
    (hroom : g.gen.toInt + history.length ≤ Int64.maxValue.toInt)
    (hjoins : sessions.Meets JoinsSucceed d history) (s : Session) (hs : s.Undisturbed) :
    ∃ kept gen, Surviving base (sessions.run d history).2 kept ∧
      manifestOf (sessions.run d history).1 = (.ok, gen) ∧
      gen.toInt = g.gen.toInt + kept.length ∧
      ((∃ store, (s.started (sessions.run d history).1).1 = some (.returned (.ok, store))) ↔
        ∀ item ∈ inorder (accounts base kept), 0 ≤ item.leftStock) ∧
      ∀ store, (s.started (sessions.run d history).1).1 = some (.returned (.ok, store)) →
        SameMap store (accounts base kept) := by
  have hord : Ordered base := (Installed.generation g i j k h hg).ordered
  have hstanding := @sessions_standing base d g.gen False hord (fun h => h.elim)
    (.settled (.generation g i j k hg.namesSelf (.first g hg rfl .none)) h) history hjoins
  obtain ⟨shown, hstored, hself, hshown⟩ :=
    hstanding.shows.resolve_left fun ⟨_, _, _, hinit, _⟩ => hinit.initFile
  rw [← length_sessions d history] at hroom
  obtain ⟨kept, hkept, hnames, hgen, hiff, hvalue⟩ :=
    hstored.recovers hord hg.pos (hg.storable_iff.mpr hbase) hroom
  have hstarted := fun store => @Session.Undisturbed.started_iff store _ shown s hs hshown hself
    hstanding.sound
  have hmanifest : manifestOf (sessions.run d history).1 = (.ok, shown.gen) := by
    rw [manifestOf, hshown.manifest]
    simp only [hnames]
  simp only [hstarted]
  exact ⟨kept, shown.gen, hkept, hmanifest, hgen, hiff, hvalue⟩

/-- A session in which a client sells so many of item 1 that the quantity wraps around; the worker
acts as in `boughtSession`. -/
def oversoldSession : Session :=
  { boughtSession none with
    inputs := List.replicate 8
        (.main ⟨5, false, ⟨rioReadinitb [.bytes (ascii "sell 1 2147483647\n")], []⟩⟩ false) ++
      (boughtSession none).inputs.drop 8 }

/-- Its publication succeeds, and from then on the server does not start: the one session that
survives leaves a negative quantity. -/
theorem sessions_recover_iff_oversold :
    let base : StockStore := .node ⟨1, 5, 100⟩ .nil .nil
    let after := sessions.run firstDirectory [oversoldSession]
    ((boughtSession none).started after.1).1 = some (.returned (.errInvalid, .nil)) ∧
      ∃ kept, Surviving base after.2 kept ∧
        ¬ ∀ item ∈ inorder (accounts base kept), 0 ≤ item.leftStock := by
  intro base after
  have hdescribes : firstFiles.Describes base :=
    ⟨by decide +kernel, base, by decide +kernel, by decide +kernel⟩
  have hstarted : ((boughtSession none).started after.1).1 =
      some (.returned (.errInvalid, .nil)) := by decide +kernel
  have hjoins : sessions.Meets JoinsSucceed firstDirectory [oversoldSession] :=
    ⟨@joinsSucceed_of_started base _ _ (by decide +kernel) (by decide +kernel), trivial⟩
  obtain ⟨kept, -, hkept, -, -, hiff, -⟩ := sessions_recover_iff firstDirectory_holds hdescribes
    (by decide +kernel) [oversoldSession] (by decide +kernel) hjoins (boughtSession none)
    ⟨fun _ => rfl, rfl⟩
  refine ⟨hstarted, kept, hkept, fun hnonneg => ?_⟩
  obtain ⟨store, hstore⟩ := hiff.mpr hnonneg
  rw [hstarted] at hstore
  cases hstore

end StockServer
