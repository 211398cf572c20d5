import StockServer.Accounting
import StockServer.Linearizability
import StockServer.Restart
import StockServer.Shutdown

set_option relaxedAutoImplicit false
set_option autoImplicit false

/-!
# What a success response is worth after a restart

A process recovers its store, serves requests and is killed, and the next one recovers its store.
A success response is to mean that the change is durable.  But nothing of a request reaches the
disk while workers run: the log of the generation is replayed at startup and never written to.  The
disk changes once, when the final store is published after the last worker has been joined.  So a
restart before that goes back to the store that the process started with, and the changes that were
answered `success` are lost unless they cancel out.

## Main definitions

* `Lifetime` — one process from its startup to its end, with what the environment decides.
* `Lifetime.started`, `Lifetime.served`, `Lifetime.killed` — what the startup returned, how far the
  process got, and the disk that the next one finds.
* `Confirmed`, `Durable` — a buy or sell that was answered `success`, and that every one of them is
  in the order of requests that the next process has recovered.
* `NetZero` — the successful buys and sells of an order cancel out.

## Main results

* `Linear.serverStep` — every step of the process keeps the simulation by the sequential execution.
* `findStockItem_sequential` — what a sequential execution does to each item.
* `durable_iff` — success responses are durable if and only if the final store has been published
  or every one of them has been cancelled out.
-/

namespace StockServer

open Prog SearchTree

/-! ## The process serves its requests one at a time -/

section Serving

variable {start base : StockStore} {s : Server} {trace : List (Event WorkerId)}

/-- The main thread leaves the workers alone; it may end the process. -/
theorem pool_mainStep (s : Server) (accepted : Accepted) (fails : Bool) :
    (mainStep s accepted fails).pool = s.pool ∨
      (mainStep s accepted fails).pool = { s.pool with exited := true } := by
  unfold mainStep
  cases s.main <;> dsimp only
  case closing status => split_ifs <;> simp [Server.exit]
  case stopped status => split_ifs <;> simp [Server.exit]
  case published => exact Or.inr rfl
  case looping => exact Or.inl rfl
  case accepting => split_ifs <;> exact Or.inl rfl
  case inserting pc => split <;> exact Or.inl rfl
  case stopping status i pc => split <;> exact Or.inl rfl
  case joining status i => split_ifs <;> exact Or.inl rfl

/-- The idle phase. -/
theorem eq_idle_of_isIdle {phase : Phase} (h : phase.isIdle = true) : phase = .idle := by
  cases phase <;> first | rfl | cases h

/-- A worker of the process keeps the simulation. -/
theorem Linear.serveStep (h : Linear start s.pool trace base) (w : WorkerId) (closeFails : Bool) :
    ∃ base', Linear start (serveStep s w closeFails).1.pool
      (trace ++ (serveStep s w closeFails).2) base' := by
  have hstay : ∃ base', Linear start s.pool (trace ++ []) base' := ⟨base, by simpa using h⟩
  unfold StockServer.serveStep
  split_ifs with hreturned hidle hout
  · exact hstay
  · exact hstay
  · split
    · exact hstay
    · dsimp only
      split
      · split_ifs
        · exact hstay
        · exact ⟨base, by simpa using h.take (eq_idle_of_isIdle hidle) _⟩
      · exact hstay
  · obtain ⟨base', hstep⟩ := h.step w
    dsimp only
    split_ifs
    · exact ⟨base', hstep.exit⟩
    · exact ⟨base', hstep⟩

/-- **Every step of the process keeps the simulation.** -/
theorem Linear.serverStep (h : Linear start s.pool trace base) (input : ServerInput) :
    ∃ base', Linear start (serverStep s input).1.pool (trace ++ (serverStep s input).2) base' := by
  have hstay : ∃ base', Linear start s.pool (trace ++ []) base' := ⟨base, by simpa using h⟩
  have hexit : ∃ base', Linear start { s.pool with exited := true } (trace ++ []) base' :=
    ⟨base, by simpa using h.exit⟩
  unfold StockServer.serverStep
  split_ifs with hexited
  · exact hstay
  cases input with
  | main accepted fails =>
    dsimp only
    rcases pool_mainStep s accepted fails with hpool | hpool <;> rw [hpool]
    · exact hstay
    · exact hexit
  | worker w closeFails => exact h.serveStep w closeFails
  | signal thread =>
    dsimp only [signalStep]
    split_ifs
    · exact hexit
    · exact hstay

/-- **The simulation holds after every run** of the process. -/
theorem Linear.serverRun (store : StockStore) (fds : ℕ → Int32) (conns : Int32 → Conn)
    (requested : Bool) (inputs : List ServerInput) : ∃ base,
      Linear store (server.run (serverStart store fds conns requested) inputs).1.pool
        (server.run (serverStart store fds conns requested) inputs).2 base :=
  have hinitial : (serverStart store fds conns requested).pool.Initial :=
    ⟨fun _ => Or.inl rfl, rfl⟩
  server.run_induction (P := fun s trace => ∃ base, Linear store s.pool trace base)
    ⟨store, .initial hinitial⟩ (fun _ _ input ⟨_, hs⟩ => hs.serverStep input) inputs

end Serving

/-! ## What a sequential execution does to each item -/

section Net

variable {ι : Type} {start : StockStore}

/-- What the successful sells and buys of an order add to the quantity under an id. -/
def netTotal (start : StockStore) (order : List (ι × StockRequest)) (id : Int32) : ℤ :=
  soldTotal id (sequential start order).1 - boughtTotal id (sequential start order).1

/-- The net total after one more request. -/
theorem netTotal_concat (start : StockStore) (order : List (ι × StockRequest)) (w : ι)
    (request : StockRequest) (id : Int32) : netTotal start (order ++ [(w, request)]) id =
      netTotal start order id + netDelta (sequential start order).2 request id := by
  simp only [netTotal, sequential_concat]
  exact net_concat id _ _ _

/-- **What a sequential execution does to each item**: it adds the net total. -/
theorem findStockItem_sequential (start : StockStore) (order : List (ι × StockRequest))
    (id : Int32) : findStockItem (sequential start order).2 id =
      (findStockItem start id).map fun item =>
        item.withLeftStock (item.leftStock + Int32.ofInt (netTotal start order id)) := by
  induction order using List.reverseRecOn with
  | nil =>
    have hzero : netTotal start ([] : List (ι × StockRequest)) id = 0 := rfl
    have hsame : ∀ item : StockItem, item.withLeftStock (item.leftStock + Int32.ofInt 0) = item :=
      fun item => congrArg item.withLeftStock (Int32.add_zero _)
    simp only [hzero, hsame, Option.map_id']
    rfl
  | append_singleton order entry ih =>
    obtain ⟨w, request⟩ := entry
    rw [netTotal_concat]
    simp only [sequential_concat]
    rcases serveRequest_cases (sequential start order).2 request with
      ⟨item, htrade, hfind, happ, hresp, hstore⟩ | ⟨hstore, hno⟩
    · rw [hstore, findStockItem_addLeftStock, netDelta_of_success htrade hresp, ih]
      by_cases hid : id = request.id
      · rw [if_pos hid, if_pos hid.symm, Int32.ofInt_add, Int32.ofInt_toInt, Option.map_map]
        refine congrArg (Option.map · _) (funext fun item => ?_)
        simp only [Function.comp_apply, StockItem.withLeftStock, Int32.add_assoc]
      · rw [if_neg hid, if_neg (Ne.symm hid), add_zero]
    · rw [hstore, netDelta_of_not_success fun ht => (hno ht).1, add_zero, ih]

/-- Nothing is added to an id that no item has. -/
theorem netTotal_of_none {id : Int32} (h : findStockItem start id = none)
    (order : List (ι × StockRequest)) : netTotal start order id = 0 := by
  induction order using List.reverseRecOn with
  | nil => rfl
  | append_singleton order entry ih =>
    obtain ⟨w, request⟩ := entry
    rw [netTotal_concat, ih, zero_add]
    rcases serveRequest_cases (sequential start order).2 request with
      ⟨item, htrade, hfind, happ, hresp, hstore⟩ | ⟨hstore, hno⟩
    · rw [netDelta_of_success htrade hresp, if_neg]
      rintro rfl
      rw [findStockItem_sequential, h] at hfind
      cases hfind
    · exact netDelta_of_not_success (fun ht => (hno ht).1) id

/-- A sequential execution keeps the search order. -/
theorem ordered_sequential (h : Ordered start) (order : List (ι × StockRequest)) :
    Ordered (sequential start order).2 := by
  induction order using List.reverseRecOn with
  | nil => exact h
  | append_singleton order entry ih =>
    obtain ⟨w, request⟩ := entry
    simp only [sequential_concat]
    rcases serveRequest_cases (sequential start order).2 request with
      ⟨item, htrade, hfind, happ, hresp, hstore⟩ | ⟨hstore, hno⟩
    · rw [hstore]
      exact ih.addLeftStock _ _
    · rwa [hstore]

/-- The successful buys and sells of an order cancel out on every id, as `int`s. -/
def NetZero (start : StockStore) (order : List (ι × StockRequest)) : Prop :=
  ∀ id, Int32.ofInt (netTotal start order id) = 0

/-- An order leads back to the map it started with exactly when it cancels out. -/
theorem sameMap_sequential_iff (start : StockStore) (order : List (ι × StockRequest)) :
    SameMap start (sequential start order).2 ↔ NetZero start order := by
  refine forall_congr' fun id => ?_
  rw [findStockItem_sequential]
  cases hitem : findStockItem start id with
  | none => simp [netTotal_of_none hitem order]
  | some item =>
    rw [Option.map_some, Option.some.injEq, eq_comm, StockItem.withLeftStock]
    constructor
    · intro h
      exact Int32.add_eq_left.mp (congrArg StockItem.leftStock h)
    · intro h
      rw [h, Int32.add_zero]

end Net

/-! ## One process and the next -/

/-- One process from its startup to its end: the disk it finds, what the environment decides about
the calls of its startup, how its workers are started, the steps it takes, and what the environment
decides about the calls of its publication, of which it makes no more than `calls` before it is
killed. -/
structure Lifetime where
  disk : Disk
  startup : ℕ → Choice
  fds : ℕ → Int32
  conns : Int32 → Conn
  requested : Bool
  inputs : List ServerInput
  publication : ℕ → Choice
  calls : ℕ

namespace Lifetime

/-- What `recover_stock_store` returns to the process, and the disk after it. -/
def started (l : Lifetime) : Outcome (StockStatus × StockStore) × Disk :=
  (recoverStockStore .nil).run l.disk l.startup

/-- How far the process gets with the store it has recovered, and what it shows. -/
def served (l : Lifetime) (store : StockStore) : Server × List (Event WorkerId) :=
  server.run (serverStart store l.fds l.conns l.requested) l.inputs

/-- The disk that the next process finds. -/
def killed (l : Lifetime) (store : StockStore) : Disk :=
  match (l.served store).1.materialized with
  | none => l.started.2.kill
  | some final => ((materializeStoreGeneration final).after l.calls l.started.2 l.publication).kill

/-- When the process was killed, its publication had replaced the manifest. -/
def Published (l : Lifetime) (store : StockStore) : Prop :=
  (l.killed store).contents stockManifestName ≠ l.started.2.contents stockManifestName

end Lifetime

/-- Line number `k` of a worker is a buy or a sell, and its answer is `success`. -/
structure Confirmed (trace : List (Event WorkerId)) (w : WorkerId) (k : ℕ) : Prop where
  trade : ∃ line, (received w trace)[k]? = some line ∧
    ((parseRequest line).command = .requestBuy ∨ (parseRequest line).command = .requestSell)
  success : (answered w trace)[k]? = some successText

/-- Every confirmed buy and sell is in an initial part of the order of critical sections that
cancels out. -/
def Undone (start : StockStore) (trace : List (Event WorkerId)) : Prop :=
  ∀ w k, Confirmed trace w k → ∃ order, order <+: entries trace ∧
    k < (requestsOf w order).length ∧ NetZero start order

/-- Every confirmed buy and sell is in an initial part of the order of critical sections whose
sequential execution gives the recovered store. -/
def Durable (start : StockStore) (trace : List (Event WorkerId)) (recovered : StockStore) : Prop :=
  ∀ w k, Confirmed trace w k → ∃ order, order <+: entries trace ∧
    k < (requestsOf w order).length ∧ SameMap recovered (sequential start order).2

/-- A confirmed request has entered. -/
theorem Confirmed.entered {start base : StockStore} {s : Pool WorkerId}
    {trace : List (Event WorkerId)} {w : WorkerId} {k : ℕ} (h : Confirmed trace w k)
    (hlinear : Linear start s trace base) : k < (requestsOf w (entries trace)).length := by
  have hlen := congrArg List.length (hlinear.responses w)
  rw [length_responsesOf, List.length_append] at hlen
  obtain ⟨hk, -⟩ := List.getElem?_eq_some_iff.mp h.success
  omega

/-- The store that has been handed over is the one of all requests executed one at a time. -/
theorem HandOver.final {s : Server} {trace : List (Event WorkerId)} {start base final : StockStore}
    (h : HandOver s) (hlinear : Linear start s.pool trace base)
    (hfinal : s.materialized = some final) : final = (sequential start (entries trace)).2 := by
  have hmaterialized := h.materialized
  have hpassed := h.passed
  rw [hfinal] at hmaterialized
  split_ifs at hmaterialized with hmain
  rw [hmain] at hpassed
  -- all workers have been joined, so nobody holds the lock
  have hfree : s.pool.holder = none := by
    cases hholder : s.pool.holder with
    | none => rfl
    | some w =>
      obtain ⟨request, critical, hphase⟩ := (hlinear.holder w).mp hholder
      have hidle := h.idle w (h.returned w (hpassed w))
      rw [hphase] at hidle
      cases hidle
  rw [← hlinear.free hfree]
  exact Option.some.inj hmaterialized

/-- The next process sees the files of the store that this one recovered, or those of the final
store that it has published. -/
theorem Lifetime.shown_killed (l : Lifetime) {store base : StockStore} {g : GenerationFiles}
    (hdir : l.started.2.Sound) (hshown : g.Shown l.started.2) (hg : g.Describes base) :
    g.Shown (l.killed store) ∨ ∃ final, (l.served store).1.materialized = some final ∧
      (newFiles (g.gen + 1) final).Shown (l.killed store) := by
  unfold killed
  cases hfinal : (l.served store).1.materialized with
  | none => exact Or.inl (hshown.congr fun _ => Disk.contents_kill)
  | some final =>
    exact (hshown.killed hg hdir l.calls l.publication).imp_right fun hnew => ⟨final, rfl, hnew⟩

/-- What is visible stays well formed through the whole lifetime. -/
theorem Lifetime.sound_killed (l : Lifetime) (store : StockStore) (hdisk : l.disk.Sound) :
    l.started.2.Sound ∧ (l.killed store).Sound := by
  have hstarted : l.started.2.Sound :=
    (@ensures_sound _ _ (fun _ => True) (recoverStockStore .nil) hdisk).run fun _ => trivial
  refine ⟨hstarted, ?_⟩
  unfold killed
  split
  · exact hstarted.kill
  · rename_i final _
    have hsound := @ensures_sound _ _ (fun _ => True) (materializeStoreGeneration final) hstarted
    exact (hsound.after (σ := l.publication) (fun _ => trivial) l.calls).kill

/-- **What a success response is worth after a restart.**  A process has recovered its store and has
served requests, no join of a worker having failed, and it has been killed; the next startup has
returned `STOCK_OK`.  Then every buy and sell that was answered `success` is in an initial part of
the order of critical sections whose execution gives the recovered map if and only if the final
store had been published, or every one of them is in an initial part that cancels out.

**Proof sketch.** The files that the startup left describe the store it returned.  Nothing but the
publication changes them, so the next startup finds them or those of the final store.  In the first
case it returns the map that the process started with; in the second, the map of all requests. -/
theorem durable_iff (l : Lifetime) {store recovered : StockStore} {σ : ℕ → Choice}
    (hdisk : l.disk.Sound) (hstarted : l.started.1 = .returned (.ok, store))
    (hjoins : server.Meets JoinSucceeds (serverStart store l.fds l.conns l.requested) l.inputs)
    (hrecovered : ((recoverStockStore .nil).run (l.killed store) σ).1 =
      .returned (.ok, recovered)) :
    Durable store (l.served store).2 recovered ↔
      l.Published store ∨ Undone store (l.served store).2 := by
  obtain ⟨hdir, hkilled⟩ := l.sound_killed store hdisk
  have hbacked : Backed l.started.2 store :=
    ((@ensures_recover_backed (fun _ => True) l.disk hdisk).run (fun _ => trivial) store
      hstarted).1
  obtain ⟨g, base, hshown, hg, hsame⟩ := hbacked
  obtain ⟨_, hlinear⟩ := Linear.serverRun store l.fds l.conns l.requested l.inputs
  rcases l.shown_killed hdir hshown hg with hold | ⟨final, hfinal, hnew⟩
  · -- the next process finds what this one had found
    obtain rfl : recovered = base := hold.recovered hg hkilled hrecovered
    have hnot : ¬ l.Published store := by
      intro hpublished
      exact hpublished (hold.manifest.trans hshown.manifest.symm)
    rw [or_iff_right hnot]
    refine forall_congr' fun w => forall_congr' fun k => forall_congr' fun hconfirmed => ?_
    refine exists_congr fun order => and_congr_right fun _ => and_congr_right fun _ => ?_
    rw [← sameMap_sequential_iff]
    exact ⟨hsame.symm.trans, hsame.trans⟩
  · -- it finds the final store, to which every request has contributed
    have hhandOver : HandOver (l.served store).1 :=
      @Machine.run_induction_meets _ _ _ server JoinSucceeds (fun s _ => HandOver s) _
        (.start store l.fds l.conns l.requested) (fun _ _ _ hok hs => hs.step hok) l.inputs hjoins
    have hsequential := hhandOver.final hlinear hfinal
    have hordered : Ordered store := (@ensures_recover_ordered (fun _ => True) l.disk .nil
      (ordered_nil _)).run (fun _ => trivial) store hstarted
    have hmap : SameMap recovered final := by
      refine recovered_newFiles hnew ?_ hkilled hrecovered
      rw [hsequential]
      exact ordered_sequential hordered _
    have hpublished : l.Published store := by
      intro hunchanged
      have hnext : NextOf l.started.2 (g.gen + 1) := Or.inr ⟨g.gen, hshown.manifestOf hg, rfl⟩
      exact hnext.manifestText_ne (hunchanged.symm.trans hnew.manifest)
    refine iff_of_true (fun w k hconfirmed => ?_) (Or.inl hpublished)
    exact ⟨_, List.prefix_rfl, hconfirmed.entered hlinear, hsequential ▸ hmap⟩

/-- A process that recovers five of item 1, accepts a client that buys one of them, answers
`success`, and is killed. -/
def boughtLifetime : Lifetime where
  disk := firstDirectory
  startup _ := .fine
  fds _ := 0
  conns _ := ⟨rioReadinitb [], []⟩
  requested := false
  inputs :=
    List.replicate 8
      (.main ⟨5, false, ⟨rioReadinitb [.bytes (ascii "buy 1 1\n")], []⟩⟩ false) ++
      List.replicate 21 (.worker 0 false)
  publication _ := .fine
  calls := 0

/-- The next startup returns five of item 1 again. -/
theorem durable_iff_boughtLifetime :
    let store : StockStore := .node ⟨1, 5, 100⟩ .nil .nil
    Durable store (boughtLifetime.served store).2 store ↔
      boughtLifetime.Published store ∨ Undone store (boughtLifetime.served store).2 :=
  @durable_iff boughtLifetime _ _ (fun _ => .fine)
    (firstDirectory_holds.wf.sound) (by decide +kernel) (by decide +kernel) (by decide +kernel)

/-- The change that was answered `success` is lost. -/
theorem boughtLifetime_not_durable :
    let store : StockStore := .node ⟨1, 5, 100⟩ .nil .nil
    boughtLifetime.started.1 = .returned (.ok, store) ∧
      Confirmed (boughtLifetime.served store).2 0 0 ∧
      ((recoverStockStore .nil).run (boughtLifetime.killed store) fun _ => .fine).1 =
        .returned (.ok, store) ∧
      ¬ Durable store (boughtLifetime.served store).2 store := by
  intro store
  have hconfirmed : Confirmed (boughtLifetime.served store).2 0 0 :=
    ⟨⟨ascii "buy 1 1\n", by decide +kernel, Or.inl (by decide +kernel)⟩, by decide +kernel⟩
  refine ⟨by decide +kernel, hconfirmed, by decide +kernel, fun hdurable => ?_⟩
  obtain ⟨order, hprefix, hlen, hsame⟩ := hdurable 0 0 hconfirmed
  have hentries : entries (boughtLifetime.served store).2 =
      [(0, parseRequest (ascii "buy 1 1\n"))] := by decide +kernel
  rw [hentries] at hprefix
  rcases List.prefix_cons_iff.mp hprefix with rfl | ⟨rest, rfl, hrest⟩
  · -- the empty order does not contain the buy
    cases hlen
  · -- the buy leaves four of item 1
    obtain rfl := List.prefix_nil.mp hrest
    exact absurd (hsame 1) (by decide +kernel)

end StockServer
