import StockServer.Durability
import StockServer.Listing
import StockServer.OpenFiles

set_option relaxedAutoImplicit false
set_option autoImplicit false

/-!
# Sessions are transactions

The server is started again and again on one data directory.  Every process recovers its store,
serves its clients, and publishes the final store; it may be cut off anywhere, by a kill or by a
power cut, and any of its file-system calls may fail.  From the first startup on, with only an init
file in the directory, each session counts as a whole or not at all: whatever a later process
recovers, and every answer that it gives, is that of executing the requests of some of the earlier
sessions one at a time, among them all whose publication returned `STOCK_OK`.

## Main definitions

* `Session`, `Report` — one process, with what the environment decides; what it showed and how far
  it got.
* `Session.run`, `sessions` — `main`, and the machine of processes on one directory.
* `Report.Serial` — the answers of a session are those of a sequential execution from a store.
* `Surviving` — which of the earlier sessions a directory stands for.
* `Stored`, `Unpublished` — what it may hold after them.
* `Installed` — the directory holds an init file and no manifest, or a generation.

## Main results

* `SameMap.serveRequest` — answers depend only on the map that the tree holds.
* `Session.keeps` — every session keeps the directory standing, on what it found or on what it
  publishes.
* `sessions_standing` — so does any number of them: the directory stands on what those that survive
  have made of the first store.
* `sessions_atomic` — **sessions are transactions**.
-/

namespace StockServer

open Prog SearchTree

/-! ## Answers do not show the shape of the tree -/

section SameMap

variable {s s' : StockStore}

/-- A listing does not show the shape of the tree. -/
theorem SameMap.handleShowRequest (h : SameMap s s') (hs : Ordered s) (hs' : Ordered s')
    (request : StockRequest) (response : ResponseBuilder) :
    handleShowRequest s request response = StockServer.handleShowRequest s' request response := by
  simp only [StockServer.handleShowRequest, stockStoreInorderWalk_eq,
    inorder_eq_of_sameMap hs' hs h, stockStoreFindNolock, h request.id]

/-- A delta reports the same and leaves the same map. -/
theorem SameMap.applyDelta (h : SameMap s s') (id delta : Int32) :
    (stockStoreApplyDeltaNolock s id delta).1 = (stockStoreApplyDeltaNolock s' id delta).1 ∧
      SameMap (stockStoreApplyDeltaNolock s id delta).2
        (stockStoreApplyDeltaNolock s' id delta).2 := by
  have hadded : SameMap (addLeftStock s id delta) (addLeftStock s' id delta) := fun k => by
    rw [findStockItem_addLeftStock, findStockItem_addLeftStock, h k]
  cases hf : findStockItem s id with
  | none =>
    rw [applyDelta_none hf, applyDelta_none ((h id).symm.trans hf)]
    exact ⟨rfl, h⟩
  | some item =>
    have hf' := (h id).symm.trans hf
    by_cases ha : Applies item delta
    · rw [applyDelta_applies hf ha, applyDelta_applies hf' ha]
      exact ⟨rfl, hadded⟩
    · rw [applyDelta_refused hf ha, applyDelta_refused hf' ha]
      exact ⟨rfl, h⟩

/-- **Answers depend only on the map that the tree holds**, and so does the map after them. -/
theorem SameMap.serveRequest (h : SameMap s s') (hs : Ordered s) (hs' : Ordered s')
    (request : StockRequest) :
    (serveRequest s request).response = (StockServer.serveRequest s' request).response ∧
      SameMap (StockServer.serveRequest s request).store
        (StockServer.serveRequest s' request).store := by
  by_cases htrade : IsTrade request
  · obtain ⟨hstatus, hmap⟩ := h.applyDelta request.id (requestDelta request)
    rw [serveRequest_of_isTrade htrade, serveRequest_of_isTrade htrade]
    simp only [handleBuySellRequest, hstatus]
    exact ⟨rfl, hmap⟩
  · rw [serveRequest_store_of_not_isTrade htrade, serveRequest_store_of_not_isTrade htrade]
    refine ⟨?_, h⟩
    by_cases hvalid : validateRequest request = .ok
    swap
    · rw [serveRequest_of_invalid hvalid, serveRequest_of_invalid hvalid]
    simp only [StockServer.serveRequest, hvalid, ↓reduceIte]
    cases hcommand : request.command with
    | requestShow => simp only [executeRequest, hcommand, h.handleShowRequest hs hs']
    | requestBuy => exact absurd ⟨hvalid, Or.inl hcommand⟩ htrade
    | requestSell => exact absurd ⟨hvalid, Or.inr hcommand⟩ htrade
    | requestExit | requestUnknown => simp only [executeRequest, hcommand]

variable {ι : Type}

/-- A sequential execution leads from one map to one map. -/
theorem SameMap.sequential (h : SameMap s s') (hs : Ordered s) (hs' : Ordered s')
    (order : List (ι × StockRequest)) :
    SameMap (sequential s order).2 (StockServer.sequential s' order).2 := by
  induction order using List.reverseRecOn with
  | nil => exact h
  | append_singleton order entry ih =>
    obtain ⟨w, request⟩ := entry
    simp only [sequential_concat]
    exact (ih.serveRequest (ordered_sequential hs _) (ordered_sequential hs' _) request).2

/-- Every worker gets the same responses. -/
theorem SameMap.responsesOf [DecidableEq ι] (h : SameMap s s') (hs : Ordered s) (hs' : Ordered s')
    (w : ι) (order : List (ι × StockRequest)) :
    responsesOf w s order = StockServer.responsesOf w s' order := by
  induction order using List.reverseRecOn with
  | nil => rfl
  | append_singleton order entry ih =>
    obtain ⟨v, request⟩ := entry
    have hmap := h.sequential hs hs' order
    rw [responsesOf_concat, responsesOf_concat, ih,
      (hmap.serveRequest (ordered_sequential hs _) (ordered_sequential hs' _) request).1]

end SameMap

/-! ## Processes -/

/-- How a process ends that does not end by itself, and what is left of it: it is killed, or the
power is cut. -/
inductive Ending where
  | kill
  | powerCut (keep : List Bool) (junk : Ino → Bytes)

/-- The disk that the next process finds. -/
def Ending.leave : Ending → Disk → Disk
  | .kill, d => d.kill
  | .powerCut keep junk, d => d.crash keep junk

/-- What the environment decides about one process: the reports of the calls of its startup, and
after how many of them it is cut off, if at all; how its workers are started and the steps it takes
with them; the reports of the calls of its publication and where that is cut off; and how it ends.
A process that returns from `main` or calls `exit` has no text in a buffer (`Tidy`), so it leaves
what a killed one does. -/
structure Session where
  startup : ℕ → Choice
  startupCalls : Option ℕ
  fds : ℕ → Int32
  conns : Int32 → Conn
  requested : Bool
  inputs : List ServerInput
  publication : ℕ → Choice
  publicationCalls : Option ℕ
  ending : Ending

/-- What a process showed and how far it got: the store it recovered, what its clients sent and were
answered, whether it came to its publication, and whether that returned `STOCK_OK`. -/
structure Report where
  recovered : Option StockStore
  trace : List (Event WorkerId)
  handedOver : Bool
  published : Bool

namespace Session

/-- How far the startup of the process gets. -/
def started (s : Session) (d : Disk) : Option (Outcome (StockStatus × StockStore)) × Disk :=
  (recoverStockStore .nil).within s.startupCalls d s.startup

/-- How far `run_server_stub` gets with the store. -/
def served (s : Session) (store : StockStore) : Server × List (Event WorkerId) :=
  server.run (serverStart store s.fds s.conns s.requested) s.inputs

/-- How far the publication gets. -/
def publishes (s : Session) (final : StockStore) (d : Disk) :
    Option (Outcome StockStatus) × Disk :=
  (materializeStoreGeneration final).within s.publicationCalls d s.publication

/-- `main`: recover the store, run the server, and publish the store when the server has returned
`STOCK_OK`. -/
def run (s : Session) (d : Disk) : Report × Disk :=
  match s.started d with
  | (some (.returned (.ok, store)), d₁) =>
    let served := s.served store
    match served.1.materialized with
    | none => (⟨some store, served.2, false, false⟩, s.ending.leave d₁)
    | some final =>
      let published := s.publishes final d₁
      (⟨some store, served.2, true, published.1 = some (.returned .ok)⟩,
        s.ending.leave published.2)
  | (_, d₁) => (⟨none, [], false, false⟩, s.ending.leave d₁)

end Session

/-- Processes on one data directory, one after another, with their reports. -/
def sessions : Machine Disk Session Report := ⟨fun d s => ((s.run d).2, [(s.run d).1])⟩

/-- `pthread_join` does not fail in the process. -/
def JoinsSucceed (d : Disk) (s : Session) : Prop :=
  ∀ store, (s.started d).1 = some (.returned (.ok, store)) →
    server.Meets JoinSucceeds (serverStart store s.fds s.conns s.requested) s.inputs

/-! ## Which sessions survive -/

/-- **The answers of a session are those of a sequential execution** from a store: it recovered a
store with this map, it executed requests that its clients sent, in their order, and answered them
as if they had been executed one at a time. -/
structure Report.Serial (r : Report) (start : StockStore) : Prop where
  recovered : ∃ store, r.recovered = some store ∧ SameMap store start
  requests : ∀ w, requestsOf w (entries r.trace) <+: (received w r.trace).map parseRequest
  answers : ∀ w, answered w r.trace <+: responsesOf w start (entries r.trace)

/-- The store after some sessions, all requests of which are executed one at a time. -/
def accounts (base : StockStore) (kept : List Report) : StockStore :=
  (sequential base (kept.flatMap fun r => entries r.trace)).2

/-- **Which of the sessions survive**: each survives as a whole or not at all.  One that survives
has come to its publication, and its answers are those of a sequential execution from the store
after the sessions before it that survive.  One that does not has not been told that its publication
succeeded. -/
inductive Surviving (base : StockStore) : List Report → List Report → Prop
  | none : Surviving base [] []
  | keep {log kept : List Report} {r : Report} (h : Surviving base log kept)
      (hover : r.handedOver = true) (hserial : r.Serial (accounts base kept)) :
      Surviving base (log ++ [r]) (kept ++ [r])
  | lose {log kept : List Report} {r : Report} (h : Surviving base log kept)
      (hlost : r.published = false) : Surviving base (log ++ [r]) kept

variable {base store : StockStore} {log kept : List Report} {d : Disk}

/-- The surviving sessions are some of all, in their order. -/
theorem Surviving.sublist (h : Surviving base log kept) : kept.Sublist log := by
  induction h with
  | none => exact List.Sublist.refl _
  | keep h _ _ ih => exact ih.append (List.Sublist.refl _)
  | lose h _ ih => exact ih.trans (List.sublist_append_left _ _)

/-- A session that was told that its publication succeeded survives. -/
theorem Surviving.mem (h : Surviving base log kept) : ∀ r ∈ log, r.published = true → r ∈ kept := by
  induction h with
  | none => exact fun r hr => by cases hr
  | keep h _ _ ih =>
    intro r hr hpublished
    rcases List.mem_append.mp hr with hr | hr
    · exact List.mem_append_left _ (ih r hr hpublished)
    · exact List.mem_append_right _ hr
  | lose h hlost ih =>
    intro r hr hpublished
    rcases List.mem_append.mp hr with hr | hr
    · exact ih r hr hpublished
    · rw [List.mem_singleton.mp hr, hlost] at hpublished
      cases hpublished

/-- The store after one more session. -/
theorem accounts_concat (base : StockStore) (kept : List Report) (r : Report) :
    accounts base (kept ++ [r]) = (sequential (accounts base kept) (entries r.trace)).2 := by
  simp [accounts, sequential, serveRequests_append]

/-- **What the directory may hold after some sessions**: the first generation, when none of them
survives, or one that was written with the store after those that survive.  Its number counts
them. -/
inductive Stored (first : StockGen) (base : StockStore) (log : List Report) :
    GenerationFiles → Prop
  | first (g : GenerationFiles) (hg : g.Describes base) (hgen : g.gen = first)
      (hnone : Surviving base log []) : Stored first base log g
  | published {kept : List Report} {store : StockStore} (hkept : Surviving base log kept)
      (hord : Ordered store) (hsame : SameMap store (accounts base kept)) :
      Stored first base log (newFiles (first + .ofNat kept.length) store)

/-- An init file, if there is one, counts while none of the sessions survives. -/
structure Unpublished (initFile : Prop) (base : StockStore) (log : List Report)
    (store : StockStore) : Prop where
  initFile : initFile
  eq : store = base
  none : Surviving base log []

variable {first : StockGen} {initFile : Prop} {g : GenerationFiles} {r : Report}

/-- A session that has not been told that its publication succeeded may be lost. -/
theorem Stored.lose (h : Stored first base log g) (hlost : r.published = false) :
    Stored first base (log ++ [r]) g := by
  cases h with
  | first g hg hgen hnone => exact .first g hg hgen (hnone.lose hlost)
  | published hkept hord hsame => exact .published (hkept.lose hlost) hord hsame

/-- The same while there is no manifest. -/
theorem Unpublished.lose (h : Unpublished initFile base log store) (hlost : r.published = false) :
    Unpublished initFile base (log ++ [r]) store :=
  ⟨h.initFile, h.eq, h.none.lose hlost⟩

/-- A generation describes one store. -/
theorem GenerationFiles.Describes.unique {s : StockStore} (h : g.Describes base)
    (hs : g.Describes s) : s = base := by
  obtain ⟨s₁, hload₁, hreplay₁⟩ := h.loads
  obtain ⟨s₂, hload₂, hreplay₂⟩ := hs.loads
  obtain rfl : s₁ = s₂ := congrArg Prod.snd (hload₁.symm.trans hload₂)
  exact congrArg Prod.snd (hreplay₂.symm.trans hreplay₁)

/-- It names itself. -/
theorem GenerationFiles.Describes.namesSelf (h : g.Describes base) : g.NamesSelf := fun _ hgen =>
  Option.some.inj (congrArg Prod.snd (hgen.symm.trans h.names))

/-- The files of a published generation describe no other map than the one published. -/
theorem sameMap_of_newFiles {s : StockStore} {gen : StockGen} (hord : Ordered store)
    (h : (newFiles gen store).Describes s) : SameMap s store := by
  obtain ⟨base, hbase, hreplay⟩ := h.loads
  obtain rfl : base = s := congrArg Prod.snd hreplay
  exact sameMap_of_snapshotText hord hbase

/-- What the directory may hold describes the store after the sessions that survive. -/
theorem Stored.describes (h : Stored first base log g) (hstore : g.Describes store) :
    ∃ kept, Surviving base log kept ∧ SameMap store (accounts base kept) ∧
      g.gen = first + .ofNat kept.length := by
  cases h with
  | first g hg hgen hnone =>
    obtain rfl := hg.unique hstore
    exact ⟨[], hnone, SameMap.refl _, hgen.trans (Int64.add_zero first).symm⟩
  | published hkept hord hsame =>
    exact ⟨_, hkept, (sameMap_of_newFiles hord hstore).trans hsame, rfl⟩

/-- The first startup writes the first generation. -/
theorem stored_of_unpublished (hfirst : initFile → first = 1) :
    ∀ store, Ordered store → Unpublished initFile base log store →
      Stored first base log (newFiles 1 store) := by
  rintro _ hstore ⟨hinit, rfl, hnone⟩
  have hgen : (1 : StockGen) = first + .ofNat ([] : List Report).length :=
    (hfirst hinit).symm.trans (Int64.add_zero first).symm
  rw [hgen]
  exact .published hnone hstore (SameMap.refl _)

/-! ## One session -/

/-- Cutting a process off leaves what the next one may find. -/
theorem Ending.leaves (e : Ending) (d : Disk) : d.Leaves (e.leave d) := by
  cases e with
  | kill => exact .kill
  | powerCut keep junk => exact .crash keep junk

/-- **The answers of a session that has recovered a store** are those of a sequential execution from
every store with the same map. -/
theorem Session.serial (s : Session) {start : StockStore} (hsame : SameMap store start)
    (hord : Ordered store) (hord' : Ordered start) {handed published : Bool} :
    Report.Serial ⟨some store, (s.served store).2, handed, published⟩ start := by
  obtain ⟨_, hlinear⟩ := Linear.serverRun store s.fds s.conns s.requested s.inputs
  refine ⟨⟨store, rfl, hsame⟩, fun w => ⟨_, hlinear.requests w⟩, fun w => ?_⟩
  rw [← hsame.responsesOf hord hord']
  exact ⟨_, (hlinear.responses w).symm⟩

/-- What the process hands over is the store of all its requests. -/
theorem Session.final (s : Session) {final : StockStore}
    (hjoins : server.Meets JoinSucceeds (serverStart store s.fds s.conns s.requested) s.inputs)
    (hfinal : (s.served store).1.materialized = some final) :
    final = (sequential store (entries (s.served store).2)).2 := by
  obtain ⟨_, hlinear⟩ := Linear.serverRun store s.fds s.conns s.requested s.inputs
  have hhandOver : HandOver (s.served store).1 :=
    @Machine.run_induction_meets _ _ _ server JoinSucceeds (fun s _ => HandOver s) _
      (.start store s.fds s.conns s.requested) (fun _ _ _ hok hs => hs.step hok) s.inputs hjoins
  exact hhandOver.final hlinear hfinal

/-- What a process reports and leaves: it has recovered no store, or it has served its clients and
has published nothing, or it has come to its publication. -/
theorem Session.run_cases (s : Session) (d : Disk) :
    (∀ store, (s.started d).1 ≠ some (.returned (.ok, store))) ∧
      s.run d = (⟨none, [], false, false⟩, s.ending.leave (s.started d).2) ∨
    ∃ store, (s.started d).1 = some (.returned (.ok, store)) ∧
      (s.run d = (⟨some store, (s.served store).2, false, false⟩,
          s.ending.leave (s.started d).2) ∨
        ∃ final, (s.served store).1.materialized = some final ∧
          s.run d = (⟨some store, (s.served store).2, true,
              (s.publishes final (s.started d).2).1 = some (.returned .ok)⟩,
            s.ending.leave (s.publishes final (s.started d).2).2)) := by
  unfold run
  split
  · rename_i store d₁ hstarted
    right
    rw [hstarted]
    refine ⟨store, rfl, ?_⟩
    dsimp only
    split
    · exact Or.inl rfl
    · rename_i final hfinal
      exact Or.inr ⟨final, hfinal, rfl⟩
  · rename_i outcome d₁ hnot hstarted
    left
    rw [hstarted]
    exact ⟨fun store hstore => hnot store hstore, rfl⟩

variable {I I' : StockStore → Prop} {F F' : GenerationFiles → Prop}

/-- **What a startup leaves and recovers**: the directory goes on standing, and shows what was
recovered. -/
theorem Session.starts (h : Standing I F d)
    (hboot : ∀ base, Ordered base → I base → F (newFiles 1 base)) (s : Session) :
    Standing I F (s.started d).2 ∧ ∀ store, (s.started d).1 = some (.returned (.ok, store)) →
      Ordered store ∧ ∃ g image, F g ∧ g.Shown (s.started d).2 ∧ g.Describes image ∧
        SameMap image store := by
  have hrecover := ((@Standing.ensures_recover (fun _ => True) d I F h hboot).and
    (@ensures_recover_ordered (fun _ => True) d .nil (ordered_nil _))).and
    (@ensures_recover_backed (fun _ => True) d h.sound)
  obtain ⟨⟨⟨hleft, -⟩, -⟩, hreturned⟩ :=
    hrecover.within s.startup (fun _ => trivial) s.startupCalls
  refine ⟨hleft, fun store hstore => ?_⟩
  obtain ⟨⟨-, hord⟩, hbacked⟩ := hreturned _ hstore
  obtain ⟨⟨g, image, hshown, hdescribes, hsame⟩, -⟩ := hbacked store rfl
  exact ⟨hord store rfl, g, image, hleft.of_shown hshown hdescribes, hshown, hdescribes, hsame⟩

/-- **Every session keeps the directory standing**, whatever fails and wherever it is cut off.

**Proof sketch.** The startup keeps what can be recovered from the directory.  The publication
leaves that too, or what it publishes, until it has returned `STOCK_OK`; then only the latter is
there. -/
theorem Session.keeps (h : Standing I F d) (s : Session)
    (hboot : ∀ base, Ordered base → I base → F (newFiles 1 base))
    (hlost : (s.run d).1.published = false → (∀ base, I base → I' base) ∧ ∀ g, F g → F' g)
    (hkept : ∀ store final published g image,
      (s.started d).1 = some (.returned (.ok, store)) → Ordered store →
      (s.served store).1.materialized = some final →
      (s.run d).1 = ⟨some store, (s.served store).2, true, published⟩ →
      F g → g.Describes image → SameMap image store → F' (newFiles (g.gen + 1) final)) :
    Standing I' F' (s.run d).2 := by
  obtain ⟨hstanding, hrecovered⟩ := s.starts h hboot
  rcases s.run_cases d with ⟨-, hrun⟩ | ⟨store, hstore, hrun | ⟨final, hfinal, hrun⟩⟩ <;>
    rw [hrun] at hlost ⊢
  · exact (hstanding.leaves (s.ending.leaves _)).mono (hlost rfl).1 (hlost rfl).2
  · exact (hstanding.leaves (s.ending.leaves _)).mono (hlost rfl).1 (hlost rfl).2
  obtain ⟨hord, g, image, hg, hshown, hdescribes, hsame⟩ := hrecovered store hstore
  have hnew : ∀ gen, NextOf (s.started d).2 gen → F' (newFiles gen final) := by
    intro gen hnext
    have hmanifest := hshown.manifestOf hdescribes
    rcases hnext with ⟨hmissing, -⟩ | ⟨seen, hseen, rfl⟩
    · exact absurd (congrArg Prod.fst hmissing) hshown.found
    · obtain rfl : g.gen = seen := congrArg Prod.snd (hmanifest.symm.trans hseen)
      exact hkept store final _ g image hstore hord hfinal (congrArg Prod.fst hrun) hg hdescribes
        hsame
  have hpublish := @Standing.ensures_materialize (fun _ => True) (s.started d).2 I
    (fun g => F g ∨ F' g) final (hstanding.mono (fun _ h => h) fun _ => Or.inl)
    fun gen hnext => Or.inr (hnew gen hnext)
  obtain ⟨hcut, hpublished⟩ :=
    hpublish.within s.publication (fun _ => trivial) s.publicationCalls
  refine Standing.leaves ?_ (s.ending.leaves _)
  by_cases hok : (s.publishes final (s.started d).2).1 = some (.returned .ok)
  · obtain ⟨gen, i, j, k, hnext, hd⟩ := hpublished _ hok rfl
    exact .settled (.generation _ i j k newFiles_namesSelf (hnew gen hnext)) hd
  · obtain ⟨hI, hF⟩ := hlost (decide_eq_false hok)
    exact hcut.mono hI fun g hg => hg.elim (hF g) id

/-- **What a session publishes** holds the store after the sessions that survive and itself. -/
theorem Session.publishes_stored (hord : Ordered base) (s : Session) {final : StockStore}
    (hmeets : server.Meets JoinSucceeds (serverStart store s.fds s.conns s.requested) s.inputs)
    (hstoreOrd : Ordered store) (hkept : Surviving base log kept)
    (hsame : SameMap store (accounts base kept))
    (hfinal : (s.served store).1.materialized = some final) (published : Bool) :
    Stored first base (log ++ [⟨some store, (s.served store).2, true, published⟩])
      (newFiles (first + .ofNat kept.length + 1) final) := by
  have hsequential := s.final hmeets hfinal
  have hserial :=
    @Session.serial store s _ hsame hstoreOrd (ordered_sequential hord _) true published
  have hgen : first + .ofNat kept.length + 1 = first + .ofNat (kept ++
      [(⟨some store, (s.served store).2, true, published⟩ : Report)]).length := by
    rw [List.length_append, Int64.ofNat_add, Int64.add_assoc]
    rfl
  rw [hgen]
  refine .published (.keep hkept rfl hserial) ?_ ?_
  · rw [hsequential]
    exact ordered_sequential hstoreOrd _
  · rw [accounts_concat, hsequential]
    exact hsame.sequential hstoreOrd (ordered_sequential hord _) _

/-- **What a session recovers and answers** is explained by the sessions that survive. -/
theorem Session.serves (hord : Ordered base) (hfirst : initFile → first = 1) (s : Session)
    (h : Standing (Unpublished initFile base log) (Stored first base log) d)
    (hstarted : (s.started d).1 = some (.returned (.ok, store))) :
    ∃ kept, Surviving base log kept ∧ SameMap store (accounts base kept) ∧
      (s.run d).1.Serial (accounts base kept) := by
  obtain ⟨hstoreOrd, g, image, hg, -, hdescribes, himage⟩ :=
    (s.starts h (stored_of_unpublished hfirst)).2 store hstarted
  obtain ⟨kept, hkept, hkeptSame, -⟩ := hg.describes hdescribes
  have hsame : SameMap store (accounts base kept) := himage.symm.trans hkeptSame
  refine ⟨kept, hkept, hsame, ?_⟩
  rcases s.run_cases d with ⟨hnot, -⟩ | ⟨store', hstore', hrun | ⟨final, -, hrun⟩⟩
  · exact absurd hstarted (hnot store)
  all_goals
    obtain rfl : store = store' := by simpa [hstarted] using hstore'
    rw [hrun]
    exact s.serial hsame hstoreOrd (ordered_sequential hord _)

/-- A session leads from what some sessions may have left to what these and it may leave. -/
theorem Session.keeps_stored (hord : Ordered base) (hfirst : initFile → first = 1) (s : Session)
    (h : Standing (Unpublished initFile base log) (Stored first base log) d)
    (hjoins : JoinsSucceed d s) :
    Standing (Unpublished initFile base (log ++ [(s.run d).1]))
      (Stored first base (log ++ [(s.run d).1])) (s.run d).2 := by
  refine s.keeps h (stored_of_unpublished hfirst)
    (fun hlost => ⟨fun _ h => h.lose hlost, fun _ h => h.lose hlost⟩)
    fun store final published g image hstarted hstoreOrd hfinal hreport hg hdescribes himage => ?_
  obtain ⟨kept, hkept, hsame, hgen⟩ := hg.describes hdescribes
  rw [hreport, hgen]
  exact s.publishes_stored hord (hjoins store hstarted) hstoreOrd hkept (himage.symm.trans hsame)
    hfinal published

/-! ## Any number of sessions -/

/-- The directory holds a loadable init file and no manifest, whatever else is in it, or it holds
the files of a generation; what it holds loads as the store `base`. -/
inductive Installed (base : StockStore) (d : Disk) : Prop
  | initFile (i : Ino) (data : Bytes) (h : d.Holds (initPins i data))
      (hload : applyLines loadLine .nil (fileLines data) = (.ok, base))
  | generation (g : GenerationFiles) (i j k : Ino) (h : d.Holds (g.pins i j k))
      (hg : g.Describes base)

/-- What is installed is a search tree. -/
theorem Installed.ordered (h : Installed base d) : Ordered base := by
  cases h with
  | initFile i data h hload => exact ordered_of_load hload
  | generation g i j k h hg =>
    obtain ⟨s, hs, hreplay⟩ := hg.loads
    have hord := Ordered.applyLines (fun _ line hs => hs.replayLine line) (ordered_of_load hs)
      (fileLines g.aof)
    rwa [hreplay] at hord

/-- **Any number of sessions** leave the directory standing on what those that survive have made of
what was installed. -/
theorem sessions_standing (hord : Ordered base) (hfirst : initFile → first = 1)
    (h : Standing (Unpublished initFile base []) (Stored first base []) d)
    (history : List Session) (hjoins : sessions.Meets JoinsSucceed d history) :
    Standing (Unpublished initFile base (sessions.run d history).2)
      (Stored first base (sessions.run d history).2) (sessions.run d history).1 :=
  sessions.run_induction_meets
    (P := fun d log => Standing (Unpublished initFile base log) (Stored first base log) d) h
    (fun _ _ s hjoin hd => s.keeps_stored hord hfirst hd hjoin) history hjoins

/-- What is installed can be recovered. -/
theorem Installed.standing (h : Installed base d) :
    ∃ (initFile : Prop) (first : StockGen), (initFile → first = 1) ∧
      Standing (Unpublished initFile base []) (Stored first base []) d := by
  cases h with
  | initFile i data h hload =>
    exact ⟨True, 1, fun _ => rfl, .settled (.initFile i data base hload ⟨trivial, rfl, .none⟩) h⟩
  | generation g i j k h hg =>
    exact ⟨False, g.gen, fun h => h.elim,
      .settled (.generation g i j k hg.namesSelf (.first g hg rfl .none)) h⟩

/-- **Sessions are transactions.**  A directory holds an init file and no manifest yet, or a
generation.  Any number of processes use it one after another, each with any clients in any
interleaving, with file-system calls failing anywhere, and cut off anywhere by a kill or by a power
cut; no join of a worker fails.  Then whatever the next process recovers and answers is explained by
a selection of the earlier sessions: each counts as a whole or not at all, all those that were told
that their publication succeeded count, and the store recovered and every answer given are those of
executing all requests of these sessions, and then those of this one, one at a time. -/
theorem sessions_atomic (h : Installed base d) (history : List Session)
    (hjoins : sessions.Meets JoinsSucceed d history) (s : Session)
    (hstarted : (s.started (sessions.run d history).1).1 = some (.returned (.ok, store))) :
    ∃ kept, Surviving base (sessions.run d history).2 kept ∧
      kept.Sublist (sessions.run d history).2 ∧
      (∀ r ∈ (sessions.run d history).2, r.published = true → r ∈ kept) ∧
      SameMap store (accounts base kept) ∧
      (s.run (sessions.run d history).1).1.Serial (accounts base kept) := by
  obtain ⟨_, _, hfirst, hinstalled⟩ := h.standing
  have hstanding := sessions_standing h.ordered hfirst hinstalled history hjoins
  obtain ⟨kept, hkept, hsame, hserial⟩ := s.serves h.ordered hfirst hstanding hstarted
  exact ⟨kept, hkept, hkept.sublist, hkept.mem, hsame, hserial⟩

/-- The joins of a session whose startup returns this store. -/
theorem joinsSucceed_of_started {s : Session}
    (hstarted : (s.started d).1 = some (.returned (.ok, store)))
    (hmeets : server.Meets JoinSucceeds (serverStart store s.fds s.conns s.requested) s.inputs) :
    JoinsSucceed d s := by
  intro store' hstore'
  obtain rfl : store = store' := by simpa [hstarted] using hstore'
  exact hmeets

/-- A session in which a client buys one of item 1, and which is then shut down; its publication is
cut off or not, and then it is killed. -/
def boughtSession (calls : Option ℕ) : Session where
  startup _ := .fine
  startupCalls := none
  fds _ := 0
  conns _ := ⟨rioReadinitb [], []⟩
  requested := false
  inputs := boughtLifetime.inputs ++ .signal none :: cleanShutdown
  publication _ := .fine
  publicationCalls := calls
  ending := .kill

/-- A process that is not even started when the power is cut, and none of the pending directory
changes survives. -/
def lostPower : Session :=
  { boughtSession none with startupCalls := some 0, ending := .powerCut [] fun _ => [] }

/-- Two sessions buy one item each.  The second is killed when it has renamed its manifest, and the
power is cut before the directory is fsynced: the next session finds the store of the first. -/
theorem sessions_atomic_bought :
    let history := [boughtSession none, boughtSession (some 23), lostPower]
    let d := (sessions.run firstDirectory history).1
    ((boughtSession none).started d).1 = some (.returned (.ok, .node ⟨1, 4, 100⟩ .nil .nil)) ∧
      ∃ kept, Surviving (.node ⟨1, 5, 100⟩ .nil .nil) (sessions.run firstDirectory history).2 kept ∧
        SameMap (.node ⟨1, 4, 100⟩ .nil .nil) (accounts (.node ⟨1, 5, 100⟩ .nil .nil) kept) := by
  intro history d
  have hdescribes : firstFiles.Describes (.node ⟨1, 5, 100⟩ .nil .nil) :=
    ⟨by decide +kernel, .node ⟨1, 5, 100⟩ .nil .nil, by decide +kernel, by decide +kernel⟩
  have hstarted : ((boughtSession none).started d).1 =
      some (.returned (.ok, .node ⟨1, 4, 100⟩ .nil .nil)) := by decide +kernel
  have hjoins : sessions.Meets JoinsSucceed firstDirectory history := by
    refine ⟨?_, ?_, fun store h => (by cases h), trivial⟩
    · exact @joinsSucceed_of_started (.node ⟨1, 5, 100⟩ .nil .nil) _ _ (by decide +kernel)
        (by decide +kernel)
    · exact @joinsSucceed_of_started (.node ⟨1, 4, 100⟩ .nil .nil) _ _ (by decide +kernel)
        (by decide +kernel)
  obtain ⟨kept, hkept, -, -, hsame, -⟩ := sessions_atomic
    (.generation firstFiles 0 1 2 firstDirectory_holds hdescribes) history hjoins
    (boughtSession none) hstarted
  exact ⟨hstarted, kept, hkept, hsame⟩

end StockServer
