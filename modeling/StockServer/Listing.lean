import Mathlib.Data.Int.Interval
import StockServer.Publish
import StockServer.Execute
import StockServer.Lib.Alike

set_option relaxedAutoImplicit false
set_option autoImplicit false

/-!
# Listings: the inorder walk and its two renderings

Snapshots, the answer to a plain `show` and the count of items are all one walk of the tree with a
visitor.  Whatever the visitor does, the walk is a left fold over the sorted items that stops at
the first error.  With the visitors of `show` and of `save_snapshot_file` it renders the map that
the tree holds, in the same bytes for both.

## Main definitions

* `recorded` — a visitor that keeps a record of the calls it gets.
* `foldUntilError` — the left fold that stops at the first error.
* `IsShowAll` — a plain `show`.

## Main results

* `visitAll_recorded` — the calls of a visit of a list.
* `inorderWalk_calls` — **the calls of a walk**: the items in ascending order, up to the first
  error.
* `serveRequest_eq_snapshotText`, `savedBytes` — what a plain `show` is answered, and what
  `save_snapshot_file` writes.
* `show_eq_snapshot` — **a plain `show` and a snapshot are the same canonical bytes**.
-/

namespace StockServer

open SearchTree

/-! ## Walks -/

section Walks

variable {σ : Type} (visit : StockItem → StateM σ StockStatus)

/-- The visitor with a record of its calls: the items it is called with, and the statuses it
returns. -/
def recorded (item : StockItem) : StateM (σ × List (StockItem × StockStatus)) StockStatus :=
  fun s =>
    let visited := (visit item).run s.1
    (visited.1, visited.2, s.2 ++ [(item, visited.1)])

/-- The left fold over a list of items that stops at the first error. -/
def foldUntilError (items : List StockItem) (s : σ) : StockStatus × σ :=
  items.foldl (fun walked item => if walked.1 = .ok then (visit item).run walked.2 else walked)
    (.ok, s)

/-- After an error the fold goes nowhere. -/
theorem foldl_of_error {walked : StockStatus × σ} (h : walked.1 ≠ .ok) (items : List StockItem) :
    items.foldl (fun walked item => if walked.1 = .ok then (visit item).run walked.2 else walked)
      walked = walked := by
  induction items with
  | nil => rfl
  | cons item items ih => rw [List.foldl_cons, if_neg h, ih]

/-- A visit of a list is the fold that stops at the first error. -/
theorem visitAll_eq_foldUntilError (items : List StockItem) (s : σ) :
    (visitAll visit items).run s = foldUntilError visit items s := by
  induction items generalizing s with
  | nil => rfl
  | cons item items ih =>
    rw [run_visitAll, foldUntilError, List.foldl_cons, if_pos rfl]
    split_ifs with hok
    · have hvisited : (visit item).run s = (.ok, ((visit item).run s).2) := Prod.ext hok rfl
      rw [ih, foldUntilError, ← hvisited]
    · exact (foldl_of_error visit hok items).symm

/-- **The calls of a visit of a list**: every item, each with `STOCK_OK`; or the items up to the
first that is not visited with `STOCK_OK`, whose status is returned.  Recording the calls changes
neither the status nor the state of the visitor. -/
theorem visitAll_recorded (items : List StockItem) (s : σ) (log : List (StockItem × StockStatus)) :
    let visited := (visitAll visit items).run s
    ∃ calls, (visitAll (recorded visit) items).run (s, log) =
        (visited.1, visited.2, log ++ calls) ∧
      (visited.1 = .ok ∧ calls = items.map (fun item => (item, .ok)) ∨
        visited.1 ≠ .ok ∧ ∃ before item after, items = before ++ item :: after ∧
          calls = before.map (fun item => (item, .ok)) ++ [(item, visited.1)]) := by
  induction items generalizing s log with
  | nil => exact ⟨[], by rw [List.append_nil]; rfl, Or.inl ⟨rfl, rfl⟩⟩
  | cons item items ih =>
    intro visited
    have hrecorded : (recorded visit item).run (s, log) =
        (((visit item).run s).1, ((visit item).run s).2,
          log ++ [(item, ((visit item).run s).1)]) := rfl
    simp only [visited, run_visitAll, hrecorded]
    split_ifs with hok
    · obtain ⟨calls, hrun, hcalls⟩ := ih ((visit item).run s).2 (log ++ [(item, .ok)])
      refine ⟨(item, .ok) :: calls, ?_, ?_⟩
      · rw [hok, hrun, List.append_assoc, List.singleton_append]
      · rcases hcalls with ⟨hall, hcalls⟩ | ⟨herror, before, last, after, hitems, hcalls⟩
        · exact Or.inl ⟨hall, by rw [hcalls, List.map_cons]⟩
        · refine Or.inr ⟨herror, item :: before, last, after, ?_, ?_⟩
          · rw [hitems, List.cons_append]
          · rw [hcalls, List.map_cons, List.cons_append]
    · exact ⟨[(item, ((visit item).run s).1)], rfl, Or.inr ⟨hok, [], item, items, rfl, rfl⟩⟩

/-- The items of a search tree stand in strictly ascending order of their ids. -/
theorem pairwise_id {store : StockStore} (h : Ordered store) :
    (inorder store).Pairwise (·.id < ·.id) :=
  List.Pairwise.imp (fun hlt => Int32.lt_iff_toInt_lt.mpr hlt) h

/-- **The calls of a walk.**  On a search tree, with any visitor in any state: the walk is the left
fold over the sorted items that stops at the first error.  Its calls are a prefix of these items, in
strictly ascending order of their ids and so each at most once.  It ends with `STOCK_OK` exactly if
no call stops it, and then every item was visited; otherwise the last call is the first that did not
return `STOCK_OK`, and its status is returned. -/
theorem inorderWalk_calls {store : StockStore} (hord : Ordered store) (s : σ) :
    let walk : StockStatus × σ := (stockStoreInorderWalk visit store).run s
    let walked : StockStatus × σ × List (StockItem × StockStatus) :=
      (stockStoreInorderWalk (recorded visit) store).run (s, [])
    let calls := walked.2.2
    walk = foldUntilError visit (inorder store) s ∧ walk = (walked.1, walked.2.1) ∧
      calls.map Prod.fst <+: inorder store ∧ (calls.map Prod.fst).Pairwise (·.id < ·.id) ∧
      (walk.1 = .ok ↔ calls = (inorder store).map fun item => (item, .ok)) ∧
      (walk.1 ≠ .ok → ∃ before item after, inorder store = before ++ item :: after ∧
        calls = before.map (fun item => (item, .ok)) ++ [(item, walk.1)]) := by
  intro walk walked calls
  obtain ⟨made, hrun, hmade⟩ := visitAll_recorded visit (inorder store) s []
  have hwalk : walk = (visitAll visit (inorder store)).run s := by
    simp only [walk, stockStoreInorderWalk_eq]
  have hwalked : walked = (walk.1, walk.2, made) := by
    simp only [walked, stockStoreInorderWalk_eq, hrun, ← hwalk, List.nil_append]
  have hcalls : calls = made := by simp only [calls, hwalked]
  rw [← hwalk] at hmade
  have hfst : ∀ items : List StockItem,
      (items.map fun item => (item, StockStatus.ok)).map Prod.fst = items := by
    intro items
    rw [List.map_map]
    exact List.map_id items
  have hprefix : made.map Prod.fst <+: inorder store := by
    rcases hmade with ⟨-, hmade⟩ | ⟨-, before, item, after, hitems, hmade⟩
    · rw [hmade, hfst]
    · rw [hmade, hitems, List.map_append, hfst]
      simp
  refine ⟨hwalk.trans (visitAll_eq_foldUntilError visit _ s), by simp only [hwalked],
    hcalls ▸ hprefix, hcalls ▸ (pairwise_id hord).sublist hprefix.sublist, ?_, fun herror => ?_⟩
  · rw [hcalls]
    constructor
    · intro hok
      exact (hmade.resolve_right fun h => h.1 hok).2
    · intro hall
      rcases hmade with ⟨hok, -⟩ | ⟨herror, before, item, after, hitems, rfl⟩
      · exact hok
      · -- the last call would have returned `STOCK_OK`
        have hmem : (item, walk.1) ∈ (inorder store).map fun item => (item, StockStatus.ok) := by
          rw [← hall]
          simp
        obtain ⟨other, -, heq⟩ := List.mem_map.mp hmem
        exact (congrArg Prod.snd heq).symm
  · rw [hcalls]
    exact (hmade.resolve_left fun h => herror h.1).2

/-- A visitor that adds up quantities and stops at the first item that is sold out. -/
theorem inorderWalk_calls_sum :
    let store : StockStore :=
      .node ⟨2, 0, 5⟩ (.node ⟨1, 7, 5⟩ .nil .nil) (.node ⟨3, 9, 5⟩ .nil .nil)
    let visit : StockItem → StateM ℕ StockStatus := fun item sum =>
      (if item.leftStock = 0 then .errInsufficient else .ok, sum + item.leftStock.toInt.toNat)
    let walk : StockStatus × ℕ := (stockStoreInorderWalk visit store).run 0
    let calls := ((stockStoreInorderWalk (recorded visit) store).run (0, [])).2.2
    Ordered store ∧ walk = (.errInsufficient, 7) ∧
      calls = [(⟨1, 7, 5⟩, .ok), (⟨2, 0, 5⟩, .errInsufficient)] ∧
      walk = foldUntilError visit (inorder store) 0 := by
  intro store visit walk calls
  have hord : Ordered store := by
    simp only [store, Ordered, SearchTree.Ordered, inorder]
    decide
  exact ⟨hord, rfl, by decide, (inorderWalk_calls visit hord 0).1⟩

end Walks

/-! ## The two renderings -/

/-- A valid `show` of all items. -/
structure IsShowAll (request : StockRequest) : Prop where
  valid : validateRequest request = .ok
  command : request.command = .requestShow
  argc : request.argc = 1

/-- The items of a search tree are fewer than the values of an `int`. -/
theorem length_inorder_le {store : StockStore} (h : Ordered store) :
    (inorder store).length ≤ 2 ^ 32 := by
  have hnodup : ((inorder store).map StockItem.key).Nodup :=
    List.pairwise_map.mpr (List.Pairwise.imp (fun hlt => ne_of_lt hlt) h)
  have hrange : ((inorder store).map StockItem.key).toFinset ⊆ Finset.Ico (-2 ^ 31) (2 ^ 31) := by
    intro z hz
    obtain ⟨item, -, rfl⟩ := List.mem_map.mp (List.mem_toFinset.mp hz)
    exact Finset.mem_Ico.mpr ⟨item.id.le_toInt, item.id.toInt_lt⟩
  have hcard := Finset.card_le_card hrange
  rw [List.toFinset_card_of_nodup hnodup, List.length_map, Int.card_Ico] at hcard
  exact hcard

/-- So its listing fits a `size_t` by far. -/
theorem length_snapshotText_lt {store : StockStore} (h : Ordered store) :
    (snapshotText store).length < sizeMax := by
  have hlines : ∀ items : List StockItem,
      (items.flatMap stockLine).length ≤ 36 * items.length := by
    intro items
    induction items with
    | nil => simp
    | cons item items ih =>
      have hline := length_stockLine_le item
      rw [List.flatMap_cons, List.length_append, List.length_cons]
      omega
  have hitems := length_inorder_le h
  have htext := hlines (inorder store)
  unfold snapshotText sizeMax
  omega

/-- **A plain `show` of a search tree is answered by the text of its snapshot.** -/
theorem serveRequest_eq_snapshotText {store : StockStore} (hord : Ordered store)
    {request : StockRequest} (h : IsShowAll request) :
    serveRequest store request = ⟨request, .ok, snapshotText store, store⟩ := by
  obtain ⟨hcases, hfits⟩ := @serveRequest_of_showAll store request h.valid h.command h.argc
  have hok := hfits (length_snapshotText_lt hord)
  refine hcases.resolve_right fun herror => ?_
  rw [herror] at hok
  cases hok

/-- **What `save_snapshot_file` writes** is the text of the snapshot, to every file and whatever
was on disk, when no call fails. -/
theorem savedBytes {d : Disk} (hd : d.Sound) {path : Name}
    (hpath : (dataPath path).length < stockPathSize) (store : StockStore) {σ : ℕ → Choice}
    (hσ : ∀ n, (σ n).Fine) :
    ((saveSnapshotFile store path).run d σ).1 = .returned .ok ∧
      ((saveSnapshotFile store path).run d σ).2.contents path = some (snapshotText store) := by
  have hpins : d.settle.Holds [] := ⟨hd.wf_settle, fun p hp => by cases hp⟩
  have hsettled := @ensures_saveSnapshotFile Choice.Fine (fun _ => True) d.settle [] path store
    hpins (by simp) hpath fun _ _ => trivial
  have hwritten : Prog.Ensures Choice.Fine (fun _ => True) (fun r d =>
      r = .returned .ok ∧ d.contents path = some (snapshotText store))
      (saveSnapshotFile store path) d.settle := by
    refine hsettled.mono (fun _ h => h) fun r d' h => ?_
    obtain ⟨hr, i, hholds⟩ := h.fine
    exact ⟨hr, Disk.Pinned.contents (hholds.fixes (.file path i _) (by simp))⟩
  refine (hwritten.of_alike (Disk.alike_settle d).symm fun r d e halike h => ?_).run hσ
  exact ⟨h.1, (halike.contents path).symm.trans h.2⟩

/-- The items in order depend only on the map that the tree holds. -/
theorem inorder_eq_of_sameMap {store store' : StockStore} (hord : Ordered store)
    (hord' : Ordered store') (h : SameMap store' store) : inorder store' = inorder store := by
  have hsearch : ∀ k, search StockItem.key k store' = search StockItem.key k store := by
    intro k
    by_cases hk : ∃ id : Int32, id.toInt = k
    · obtain ⟨id, rfl⟩ := hk
      rw [← findStockItem_eq, ← findStockItem_eq]
      exact h id
    · -- no item has this key
      have hnone : ∀ {t : StockStore}, search StockItem.key k t = none := by
        intro t
        cases ht : search StockItem.key k t with
        | none => rfl
        | some item => exact absurd ⟨item.id, (search_some _ ht).2⟩ hk
      rw [hnone, hnone]
  exact inorder_eq_of_search_eq StockItem.key hord' hord hsearch

/-- So does the text of a snapshot. -/
theorem snapshotText_eq_of_sameMap {store store' : StockStore} (hord : Ordered store)
    (hord' : Ordered store') (h : SameMap store' store) :
    snapshotText store' = snapshotText store := by
  rw [snapshotText, snapshotText, inorder_eq_of_sameMap hord hord' h]

/-- **A plain `show` and a snapshot are the same canonical bytes.**  For every search tree, with
no failing call: the answer to a plain `show` is what `save_snapshot_file` writes.  It has one line
for each id, in strictly ascending order of the ids, and is the same for every search tree that
holds the same map.  When every record passes the checks of `apply_stock_record`, the snapshot is
loaded, and saving the loaded store writes the same bytes again. -/
theorem show_eq_snapshot {store : StockStore} (hord : Ordered store) {request : StockRequest}
    (hrequest : IsShowAll request) {d : Disk} (hd : d.Sound) {path : Name}
    (hpath : (dataPath path).length < stockPathSize) {σ : ℕ → Choice} (hσ : ∀ n, (σ n).Fine) :
    let served := serveRequest store request
    let saved := (saveSnapshotFile store path).run d σ
    (served.status = .ok ∧ saved.1 = .returned .ok ∧
      saved.2.contents path = some served.response) ∧
    (∃ items : List StockItem, served.response = items.flatMap stockLine ∧
      items.Pairwise (·.id < ·.id) ∧
        ∀ item, item ∈ items ↔ findStockItem store item.id = some item) ∧
    (∀ store', Ordered store' → SameMap store' store →
      (serveRequest store' request).response = served.response ∧
      ((saveSnapshotFile store' path).run d σ).2.contents path = some served.response) ∧
    ((∀ item ∈ inorder store, Storable item) →
      ∀ σ' σ'', (∀ n, Choice.Fine (σ' n)) → (∀ n, Choice.Fine (σ'' n)) →
        let loaded := (loadStockFileIntoStore .nil path).run saved.2 σ'
        ∃ store', loaded.1 = .returned (.ok, store') ∧
          ∀ path', (dataPath path').length < stockPathSize →
            ((saveSnapshotFile store' path').run loaded.2 σ'').1 = .returned .ok ∧
            ((saveSnapshotFile store' path').run loaded.2 σ'').2.contents path' =
              some served.response) := by
  intro served saved
  have hserved : served = ⟨request, .ok, snapshotText store, store⟩ :=
    serveRequest_eq_snapshotText hord hrequest
  obtain ⟨hok, hbytes⟩ := savedBytes hd hpath store hσ
  have hsaved : saved.2.Sound :=
    (@Prog.ensures_sound _ d Choice.Fine (saveSnapshotFile store path) hd).run hσ
  rw [hserved]
  refine ⟨⟨rfl, hok, hbytes⟩, ⟨inorder store, rfl, pairwise_id hord, fun item => ?_⟩,
    fun store' hord' hsame => ?_, fun hstorable σ' σ'' hσ' hσ'' => ?_⟩
  · rw [findStockItem_eq_some_iff hord, and_iff_left rfl]
  · have htext := snapshotText_eq_of_sameMap hord hord' hsame
    rw [serveRequest_eq_snapshotText hord' hrequest, ← htext]
    exact ⟨rfl, (savedBytes hd hpath store' hσ).2⟩
  · intro loaded
    have hloaded : loaded = (.returned (applyLines loadLine .nil (fileLines (snapshotText store))),
        saved.2) := run_readFileInto_fine hbytes hσ'
    obtain ⟨store', hload, hsame⟩ := applyLines_snapshotText hord hstorable
    have hord' : Ordered store' := by
      have hlines := Ordered.applyLines (fun _ line hs => hs.loadLine line) (ordered_nil _)
        (fileLines (snapshotText store))
      rwa [hload] at hlines
    rw [hloaded, hload]
    refine ⟨store', rfl, fun path' hpath' => ?_⟩
    have htext := snapshotText_eq_of_sameMap hord hord' hsame
    rw [← htext]
    exact savedBytes hsaved hpath' store' hσ''

/-- Two trees of the same three items, of different shapes. -/
theorem show_eq_snapshot_rotated :
    let request := parseRequest (ascii "show\n")
    let store : StockStore :=
      .node ⟨2, 0, 5⟩ (.node ⟨1, 7, 5⟩ .nil .nil) (.node ⟨3, 9, 5⟩ .nil .nil)
    let rotated : StockStore :=
      .node ⟨1, 7, 5⟩ .nil (.node ⟨2, 0, 5⟩ .nil (.node ⟨3, 9, 5⟩ .nil .nil))
    (serveRequest store request).response = ascii "1 7 5\n2 0 5\n3 9 5\n" ∧
      ((saveSnapshotFile rotated stockSnapshotName).run Disk.empty fun _ => .fine).2.contents
        stockSnapshotName = some (serveRequest store request).response := by
  intro request store rotated
  have hord : Ordered store ∧ Ordered rotated := by
    simp only [store, rotated, Ordered, SearchTree.Ordered, inorder]
    decide
  have hsame : SameMap rotated store := by
    intro id
    ext item
    rw [findStockItem_eq_some_iff hord.2, findStockItem_eq_some_iff hord.1]
    rfl
  have hshow := @show_eq_snapshot store hord.1 request ⟨by decide, by decide, by decide⟩ Disk.empty
    Disk.holds_empty.wf.sound stockSnapshotName (by decide) (fun _ => .fine) fun _ => rfl
  refine ⟨?_, (hshow.2.2.1 rotated hord.2 hsame).2⟩
  rw [serveRequest_eq_snapshotText hord.1 ⟨by decide, by decide, by decide⟩]
  decide

end StockServer
