import StockServer.Restart
import StockServer.StoreLifetime

set_option relaxedAutoImplicit false
set_option autoImplicit false

/-!
# The shape of a recovered tree

A snapshot lists the items in ascending order, and loading it inserts them in this order into a
tree that nobody balances.  Whatever the shape of the tree that was published, the tree of the next
process leans to the right, and the recursions over it go as deep as there are items.

## Main results

* `applyLines_stockLines` — loading snapshot lines is inserting their items.
* `recovered_chain` — **a recovered tree is a chain**.
-/

namespace StockServer

open Prog SearchTree

variable {d : Disk} {store s : StockStore} {gen : StockGen}

/-- A snapshot line that is accepted inserts its item. -/
theorem loadLine_stockLine {item : StockItem} (h : (loadLine store (stockLine item)).1 = .ok) :
    loadLine store (stockLine item) =
      (.ok, upsertStockItem store item.id item.leftStock item.price) := by
  have hrecord : lineRecord (stockLine item) = some item.record := by
    rw [lineRecord, parseStockRecordLine_cstr]
  rcases loadLine_cases store (stockLine item) with
    ⟨hnone, -⟩ | ⟨record, hsome, -, -, hload⟩ | ⟨-, hload⟩
  · rw [hrecord] at hnone
    cases hnone
  · obtain rfl : item.record = record := Option.some.inj (hrecord.symm.trans hsome)
    exact hload
  · rw [hload] at h
    cases h

/-- **Loading snapshot lines that are all accepted makes a chain longer**, if their keys ascend. -/
theorem applyLines_stockLines {l items : List StockItem}
    (hord : (l ++ items).Pairwise fun a b => a.key < b.key)
    (h : applyLines loadLine (chain l) (items.map stockLine) = (.ok, s)) :
    s = chain (l ++ items) := by
  induction items generalizing l with
  | nil =>
    rw [List.append_nil]
    exact (congrArg Prod.snd h).symm
  | cons item items ih =>
    rw [List.map_cons, applyLines] at h
    by_cases hok : (loadLine (chain l) (stockLine item)).1 = .ok
    · have hbelow : ∀ a ∈ l, a.key < item.key := fun a ha =>
        (List.pairwise_append.mp hord).2.2 a ha item List.mem_cons_self
      have hchain : upsertStockItem (chain l) item.id item.leftStock item.price =
          chain (l ++ [item]) := by
        rw [upsertStockItem_eq]
        exact upsert_chain _ _ hbelow
      simp only [loadLine_stockLine hok, hchain, ne_eq, not_true_eq_false, ↓reduceIte] at h
      rw [List.append_cons] at hord ⊢
      exact ih hord h
    · simp only [ne_eq, hok, not_false_eq_true, ↓reduceIte] at h
      exact absurd (congrArg Prod.fst h) hok

/-- A startup that sees the files of a published generation and returns `STOCK_OK` returns the
chain of its items. -/
theorem recovered_newFiles_chain {σ : ℕ → Choice} (h : (newFiles gen store).Shown d)
    (hord : Ordered store) (hdir : d.Sound)
    (hok : ((recoverStockStore .nil).run d σ).1 = .returned (.ok, s)) :
    s = chain (inorder store) := by
  have hload := applyLines_of_recovered h hdir hok
  rw [snapshotText, fileLines_stockLines] at hload
  exact @applyLines_stockLines s [] (inorder store) hord hload

/-! ## The theorem -/

/-- **A recovered tree is a chain.**  Whatever the shape of the tree that was published with
success, and whatever the calls of either process reported, the tree that the next startup builds
is the chain of its items in ascending order.  Its snapshot is the same text, and where it stands
in the heap, freeing it and walking it each need a frame more than there are items.

**Proof sketch.** The startup loads the published snapshot.  Its lines ascend, and an insertion
after all keys goes to the right end.  The depth of the recursions is that of the tree. -/
theorem recovered_chain (hord : Ordered store) (hdir : d.Sound) (hcan : CanPublish d)
    (σ σ' : ℕ → Choice) (hok : ((materializeStoreGeneration store).run d σ).1 = .returned .ok)
    (hrecovered : ((recoverStockStore .nil).run
      ((materializeStoreGeneration store).run d σ).2 σ').1 = .returned (.ok, s)) :
    s = chain (inorder store) ∧ snapshotText s = snapshotText store ∧
      ∀ (τ : Type) (m : Memory (TreeCell StockItem) τ) (t : BinaryTree (Addr × StockItem)),
        HeapTree.Occupies m.heap t → StoreHeap.contents t = s → ∀ frames,
          ((∃ m', StoreHeap.freeStockTree frames (HeapTree.rootAddr t) m = .done ((), m')) ↔
            (inorder store).length < frames) ∧
          ((∃ r, StoreHeap.stockStoreInorderWalk countStockItem frames (HeapTree.rootAddr t) 0 m =
            .done r) ↔ (inorder store).length < frames) := by
  obtain ⟨gen, hgen, hnext⟩ := hcan.next
  have hpublish := @ensures_materialize_shown d store gen (fun _ => True) hdir hnext
  have hshown := hpublish.run (σ := σ) (fun _ => trivial) hok
  have hsound : ((materializeStoreGeneration store).run d σ).2.Sound :=
    (@ensures_sound _ d (fun _ => True) (materializeStoreGeneration store) hdir).run fun _ =>
      trivial
  have hchain : s = chain (inorder store) :=
    recovered_newFiles_chain hshown hord hsound hrecovered
  refine ⟨hchain, ?_, fun τ m t ht hcontents frames => ?_⟩
  · rw [snapshotText, hchain, inorder_chain, snapshotText]
  · have hheight : t.height = (inorder store).length := by
      rw [← StoreHeap.height_contents, hcontents, hchain, height_chain]
    rw [← hheight]
    exact StoreHeap.storeFrames_exact (fun _ _ => rfl) ht frames 0

/-- A store of two records is recovered with its smaller key at the root. -/
theorem recovered_chain_smallStore :
    ∃ s, ((recoverStockStore .nil).run ((materializeStoreGeneration smallStore).run Disk.empty
        fun _ => .fine).2 fun _ => .fine).1 = .returned (.ok, s) ∧
      s = chain [⟨1, 0, 7⟩, ⟨2, 5, 100⟩] ∧ s ≠ smallStore := by
  obtain ⟨s, hs⟩ : ∃ s, ((recoverStockStore .nil).run ((materializeStoreGeneration smallStore).run
      Disk.empty fun _ => .fine).2 fun _ => .fine).1 = .returned (.ok, s) :=
    ⟨chain [⟨1, 0, 7⟩, ⟨2, 5, 100⟩], by decide +kernel⟩
  have hchain := (recovered_chain smallStore_ordered Disk.holds_empty.wf.sound
    (Or.inl (by decide +kernel)) (fun _ => .fine) _ (by decide +kernel) hs).1
  exact ⟨s, hs, hchain, by rw [hchain]; decide⟩

end StockServer
