import Mathlib.Data.Tree.Basic
import Mathlib.Order.Defs.LinearOrder
import Mathlib.Data.List.Sort

set_option relaxedAutoImplicit false
set_option autoImplicit false

/-!
# Binary search trees with records at the nodes

Search trees over Mathlib's `BinaryTree`, for records of a type `α` compared by a key
`key : α → κ` in a linear order.  Nothing is balanced: the shape of a tree is the history of its
insertions, and no operation here moves an existing node.

## Main definitions

* `SearchTree.inorder`, `SearchTree.Ordered` — the records from left to right, and the search
  order: the keys of that list are strictly increasing.
* `SearchTree.search`, `SearchTree.upsert`, `SearchTree.adjust` — lookup, insertion or update in
  place, and update of an existing record.
* `SearchTree.chain` — the tree that leans to the right.
* `SearchTree.subtreeAt`, `SearchTree.recordAt`, `SearchTree.modifyAt`, `SearchTree.Leads` —
  pointers into a tree, reading and writing through one, and the pointers on the way of a search.

## Main results

* `SearchTree.search_eq_some_iff` — on an ordered tree, search finds exactly the records present.
* `SearchTree.search_upsert`, `SearchTree.search_adjust` — both updates act on one key only.
* `SearchTree.Ordered.upsert`, `SearchTree.Ordered.adjust` — both keep the order.
* `SearchTree.search_map`, `SearchTree.upsert_map`, `SearchTree.adjust_view` — the operations in a
  view of the records.
* `SearchTree.upsert_chain` — insertion in ascending order makes a chain.
* `SearchTree.Leads.search`, `SearchTree.Leads.modifyAt` — a search may go on from wherever it has
  got to, and writing through the pointer it found adjusts the record.
* `SearchTree.recordAt_adjust`, `SearchTree.recordAt_upsert` — no update moves an existing record.
* `SearchTree.inorder_eq_of_search_eq` — the record list of an ordered tree depends only on the
  map it stores.
-/

namespace SearchTree

variable {α κ : Type*}

/-! ## Order -/

/-- The records of a tree from left to right. -/
def inorder : BinaryTree α → List α
  | .nil => []
  | .node a l r => inorder l ++ a :: inorder r

@[simp] theorem inorder_nil : inorder (.nil : BinaryTree α) = [] := rfl

@[simp] theorem inorder_node (a : α) (l r : BinaryTree α) :
    inorder (.node a l r) = inorder l ++ a :: inorder r := rfl

/-- Mapping the records of a tree maps its record list. -/
theorem inorder_map {β : Type*} (f : α → β) (t : BinaryTree α) :
    inorder (t.map f) = (inorder t).map f := by
  induction t with
  | nil => rfl
  | node a l r hl hr => simp [BinaryTree.map, hl, hr]

variable [LinearOrder κ] (key : α → κ)

/-- The search order: keys strictly increase from left to right. -/
def Ordered (t : BinaryTree α) : Prop :=
  (inorder t).Pairwise fun a b => key a < key b

@[simp] theorem ordered_nil : Ordered key (.nil : BinaryTree α) := List.Pairwise.nil

/-- A node is ordered when its subtrees are and its key separates them. -/
theorem ordered_node {a : α} {l r : BinaryTree α} :
    Ordered key (.node a l r) ↔ Ordered key l ∧ Ordered key r ∧
      (∀ x ∈ inorder l, key x < key a) ∧ ∀ x ∈ inorder r, key a < key x := by
  simp only [Ordered, inorder_node, List.pairwise_append, List.pairwise_cons, List.mem_cons]
  constructor
  · rintro ⟨hl, ⟨ha, hr⟩, hlr⟩
    exact ⟨hl, hr, fun x hx => hlr x hx a (Or.inl rfl), ha⟩
  · rintro ⟨hl, hr, hla, har⟩
    refine ⟨hl, ⟨har, hr⟩, fun x hx y hy => ?_⟩
    rcases hy with rfl | hy
    · exact hla x hx
    · exact (hla x hx).trans (har y hy)

/-! ## Search -/

/-- Follow the comparisons from the root to the record with key `k`. -/
def search (k : κ) : BinaryTree α → Option α
  | .nil => none
  | .node a l r => if k < key a then search k l else if key a < k then search k r else some a

/-- What search returns has the key searched for and is in the tree, ordered or not. -/
theorem search_some {k : κ} {t : BinaryTree α} {a : α} (h : search key k t = some a) :
    a ∈ inorder t ∧ key a = k := by
  induction t with
  | nil => simp [search] at h
  | node b l r hl hr =>
    simp only [search] at h
    split_ifs at h with h1 h2
    · exact ⟨by simp [(hl h).1], (hl h).2⟩
    · exact ⟨by simp [(hr h).1], (hr h).2⟩
    · obtain rfl : b = a := by simpa using h
      exact ⟨by simp, le_antisymm (not_lt.mp h1) (not_lt.mp h2)⟩

/-- Search finds a record of an ordered tree under its own key.

**Proof sketch.** Induction on the tree: a record in the left subtree has a smaller key than the
root, so the comparison goes left; a record on the right goes right. -/
theorem search_of_mem {t : BinaryTree α} (ht : Ordered key t) {a : α} (ha : a ∈ inorder t) :
    search key (key a) t = some a := by
  induction t with
  | nil => simp at ha
  | node b l r hl hr =>
    obtain ⟨hol, hor, hlb, hbr⟩ := (ordered_node key).mp ht
    simp only [inorder_node, List.mem_append, List.mem_cons] at ha
    rcases ha with ha | rfl | ha
    · simp [search, hlb a ha, hl hol ha]
    · simp [search]
    · simp [search, hbr a ha, (hbr a ha).not_gt, hr hor ha]

/-- **Search is membership** on an ordered tree. -/
theorem search_eq_some_iff {t : BinaryTree α} (ht : Ordered key t) {k : κ} {a : α} :
    search key k t = some a ↔ a ∈ inorder t ∧ key a = k := by
  refine ⟨search_some key, ?_⟩
  rintro ⟨ha, rfl⟩
  exact search_of_mem key ht ha

/-- Search fails on an ordered tree exactly when no record has the key. -/
theorem search_eq_none_iff {t : BinaryTree α} (ht : Ordered key t) {k : κ} :
    search key k t = none ↔ ∀ a ∈ inorder t, key a ≠ k := by
  constructor
  · rintro h a ha rfl
    rw [search_of_mem key ht ha] at h
    cases h
  · intro h
    cases hs : search key k t with
    | none => rfl
    | some a => exact absurd (search_some key hs).2 (h a (search_some key hs).1)

/-! ## Insertion or update in place -/

/-- Insert `a`, or turn the record already stored under its key into `g b`. -/
def upsert (a : α) (g : α → α) : BinaryTree α → BinaryTree α
  | .nil => .node a .nil .nil
  | .node b l r =>
    if key a < key b then .node b (upsert a g l) r
    else if key b < key a then .node b l (upsert a g r)
    else .node (g b) l r

/-- Search after `upsert`: the key of `a` gives `a` or the updated record, every other key what
it gave before. -/
theorem search_upsert {a : α} {g : α → α} (hg : ∀ b, key (g b) = key b) (k : κ)
    (t : BinaryTree α) : search key k (upsert key a g t) =
      if k = key a then some ((search key k t).elim a g) else search key k t := by
  induction t with
  | nil =>
    rcases lt_trichotomy k (key a) with h | rfl | h
    · simp [upsert, search, h, h.ne]
    · simp [upsert, search]
    · simp [upsert, search, h, h.not_gt, h.ne']
  | node b l r hl hr =>
    rcases lt_trichotomy (key a) (key b) with h | h | h
    · by_cases hk : k = key a
      · subst hk; simp [upsert, search, h, hl]
      · simp [upsert, search, h, hl, hk]
    · by_cases hk : k = key a
      · subst hk; simp [upsert, search, hg, h]
      · have hkb : k < key b ∨ key b < k := lt_or_gt_of_ne (h ▸ hk)
        rw [if_neg hk]
        rcases hkb with hkb | hkb <;> simp [upsert, search, hg, h, hkb, hkb.not_gt]
    · by_cases hk : k = key a
      · subst hk; simp [upsert, search, h, h.not_gt, hr]
      · simp [upsert, search, h, h.not_gt, hr, hk]

/-- The keys after `upsert` are those before it and the key of `a`. -/
theorem key_mem_upsert {a : α} {g : α → α} (hg : ∀ b, key (g b) = key b) {t : BinaryTree α}
    {x : α} (hx : x ∈ inorder (upsert key a g t)) :
    key x = key a ∨ ∃ y ∈ inorder t, key y = key x := by
  induction t with
  | nil => simp [upsert] at hx; simp [hx]
  | node b l r hl hr =>
    simp only [upsert] at hx
    split_ifs at hx <;> simp only [inorder_node, List.mem_append, List.mem_cons] at hx ⊢
    · rcases hx with hx | rfl | hx
      · rcases hl hx with h | ⟨y, hy, h⟩
        exacts [Or.inl h, Or.inr ⟨y, Or.inl hy, h⟩]
      · exact Or.inr ⟨x, Or.inr (Or.inl rfl), rfl⟩
      · exact Or.inr ⟨x, Or.inr (Or.inr hx), rfl⟩
    · rcases hx with hx | rfl | hx
      · exact Or.inr ⟨x, Or.inl hx, rfl⟩
      · exact Or.inr ⟨x, Or.inr (Or.inl rfl), rfl⟩
      · rcases hr hx with h | ⟨y, hy, h⟩
        exacts [Or.inl h, Or.inr ⟨y, Or.inr (Or.inr hy), h⟩]
    · rcases hx with hx | rfl | hx
      · exact Or.inr ⟨x, Or.inl hx, rfl⟩
      · exact Or.inr ⟨b, Or.inr (Or.inl rfl), (hg b).symm⟩
      · exact Or.inr ⟨x, Or.inr (Or.inr hx), rfl⟩

/-- `upsert` keeps the search order. -/
theorem Ordered.upsert {a : α} {g : α → α} (hg : ∀ b, key (g b) = key b) {t : BinaryTree α}
    (ht : Ordered key t) : Ordered key (upsert key a g t) := by
  induction t with
  | nil => simp [SearchTree.upsert, ordered_node]
  | node b l r hl hr =>
    obtain ⟨hol, hor, hlb, hbr⟩ := (ordered_node key).mp ht
    simp only [SearchTree.upsert]
    split_ifs with h1 h2 <;> rw [ordered_node]
    · refine ⟨hl hol, hor, fun x hx => ?_, hbr⟩
      rcases key_mem_upsert key hg hx with h | ⟨y, hy, h⟩
      exacts [h ▸ h1, h ▸ hlb y hy]
    · refine ⟨hol, hr hor, hlb, fun x hx => ?_⟩
      rcases key_mem_upsert key hg hx with h | ⟨y, hy, h⟩
      exacts [h ▸ h2, h ▸ hbr y hy]
    · simp only [hg]; exact ⟨hol, hor, hlb, hbr⟩

/-! ## Update of an existing record -/

/-- Apply `f` to the record that search finds under `k`, if any. -/
def adjust (k : κ) (f : α → α) : BinaryTree α → BinaryTree α
  | .nil => .nil
  | .node a l r =>
    if k < key a then .node a (adjust k f l) r
    else if key a < k then .node a l (adjust k f r)
    else .node (f a) l r

/-- Search after `adjust`: only the adjusted key sees `f`. -/
theorem search_adjust {f : α → α} (hf : ∀ a, key (f a) = key a) (k j : κ) (t : BinaryTree α) :
    search key j (adjust key k f t) =
      if j = k then (search key j t).map f else search key j t := by
  induction t with
  | nil => simp [adjust, search]
  | node a l r hl hr =>
    rcases lt_trichotomy k (key a) with h | h | h
    · by_cases hj : j = k
      · subst hj; simp [adjust, search, h, hl]
      · simp [adjust, search, h, hl, hj]
    · by_cases hj : j = k
      · subst hj; simp [adjust, search, hf, h]
      · have hja : j < key a ∨ key a < j := lt_or_gt_of_ne (h ▸ hj)
        rw [if_neg hj]
        rcases hja with hja | hja <;> simp [adjust, search, hf, h, hja, hja.not_gt]
    · by_cases hj : j = k
      · subst hj; simp [adjust, search, h, h.not_gt, hr]
      · simp [adjust, search, h, h.not_gt, hr, hj]

/-- Adjusting two different keys, in either order. -/
theorem adjust_comm {f g : α → α} (hf : ∀ a, key (f a) = key a) (hg : ∀ a, key (g a) = key a)
    {j k : κ} (hne : j ≠ k) (t : BinaryTree α) :
    adjust key j f (adjust key k g t) = adjust key k g (adjust key j f t) := by
  induction t with
  | nil => rfl
  | node a l r hl hr =>
    rcases lt_trichotomy j (key a) with hj | hj | hj <;>
      rcases lt_trichotomy k (key a) with hk | hk | hk
    · simp [adjust, hj, hk, hl]
    · simp [adjust, hj, hk, hg]
    · simp [adjust, hj, hk, hk.not_gt]
    · simp [adjust, hj, hk, hf]
    · exact absurd (hj.trans hk.symm) hne
    · simp [adjust, hj, hk, hk.not_gt, hf]
    · simp [adjust, hj, hj.not_gt, hk]
    · simp [adjust, hj, hj.not_gt, hk, hg]
    · simp [adjust, hj, hj.not_gt, hk, hk.not_gt, hr]

/-- `adjust` maps the record list: `f` where the key is `k`, nothing elsewhere. -/
theorem inorder_adjust {f : α → α} {t : BinaryTree α} (ht : Ordered key t) (k : κ) :
    inorder (adjust key k f t) = (inorder t).map fun a => if key a = k then f a else a := by
  have map_id : ∀ u : BinaryTree α, (∀ x ∈ inorder u, key x ≠ k) →
      inorder u = (inorder u).map fun a => if key a = k then f a else a := by
    intro u hu
    conv_lhs => rw [← List.map_id (inorder u)]
    exact List.map_congr_left fun x hx => (if_neg (hu x hx)).symm
  induction t with
  | nil => rfl
  | node a l r hl hr =>
    obtain ⟨hol, hor, hla, har⟩ := (ordered_node key).mp ht
    simp only [adjust]
    split_ifs with h1 h2
    · have hr' := map_id r fun x hx => (h1.trans (har x hx)).ne'
      simp [hl hol, h1.ne', ← hr']
    · have hl' := map_id l fun x hx => ((hla x hx).trans h2).ne
      simp [hr hor, h2.ne, ← hl']
    · obtain rfl : k = key a := le_antisymm (not_lt.mp h2) (not_lt.mp h1)
      have hl' := map_id l fun x hx => (hla x hx).ne
      have hr' := map_id r fun x hx => (har x hx).ne'
      simp [← hl', ← hr']

/-- `adjust` does not move a node: a view of the records that `f` does not change is the same
at every node of the tree. -/
theorem map_adjust {β : Type*} {f : α → α} (view : α → β) (hf : ∀ a, view (f a) = view a)
    (k : κ) (t : BinaryTree α) : (adjust key k f t).map view = t.map view := by
  induction t with
  | nil => rfl
  | node a l r hl hr =>
    simp only [adjust]
    split_ifs <;> simp [BinaryTree.map, hl, hr, hf]

/-- Trees with the same shape and keys are ordered together. -/
theorem ordered_map_iff {β : Type*} {view : α → β} {keyView : β → κ}
    (hv : ∀ a, keyView (view a) = key a) (t : BinaryTree α) :
    Ordered keyView (t.map view) ↔ Ordered key t := by
  simp [Ordered, inorder_map, List.pairwise_map, hv]

/-- `adjust` keeps the search order. -/
theorem Ordered.adjust {f : α → α} (hf : ∀ a, key (f a) = key a) {t : BinaryTree α}
    (ht : Ordered key t) (k : κ) : Ordered key (adjust key k f t) := by
  have h : ∀ u : BinaryTree α, Ordered (id : κ → κ) (u.map key) ↔ Ordered key u :=
    ordered_map_iff key fun _ => rfl
  rw [← h, map_adjust key key hf, h]
  exact ht

/-! ## Views of the records -/

section View

variable {β : Type*} {view : α → β} {keyView : β → κ}

/-- Search in a view of the records. -/
theorem search_map (hv : ∀ a, keyView (view a) = key a) (k : κ) (t : BinaryTree α) :
    search keyView k (t.map view) = (search key k t).map view := by
  induction t with
  | nil => rfl
  | node a l r hl hr =>
    simp only [BinaryTree.map, search, hv, hl, hr]
    split_ifs <;> rfl

/-- An upsert in a view of the records. -/
theorem upsert_map (hv : ∀ a, keyView (view a) = key a) {a : α} {g : α → α} {g' : β → β}
    (hg : ∀ b, view (g b) = g' (view b)) (t : BinaryTree α) :
    (upsert key a g t).map view = upsert keyView (view a) g' (t.map view) := by
  induction t with
  | nil => rfl
  | node b l r hl hr =>
    simp only [BinaryTree.map, upsert, hv]
    split_ifs <;> simp only [BinaryTree.map, hl, hr, hg]

/-- An adjustment in a view of the records. -/
theorem adjust_view (hv : ∀ a, keyView (view a) = key a) {f : α → α} {f' : β → β}
    (hf : ∀ b, view (f b) = f' (view b)) (k : κ) (t : BinaryTree α) :
    (adjust key k f t).map view = adjust keyView k f' (t.map view) := by
  induction t with
  | nil => rfl
  | node b l r hl hr =>
    simp only [BinaryTree.map, adjust, hv]
    split_ifs <;> simp only [BinaryTree.map, hl, hr, hf]

end View

/-! ## Heights -/

/-- An upsert makes the tree higher by one at most. -/
theorem height_upsert_le (a : α) (g : α → α) (t : BinaryTree α) :
    (upsert key a g t).height ≤ t.height + 1 := by
  induction t with
  | nil => simp [upsert]
  | node c l r hl hr =>
    simp only [upsert]
    split_ifs <;> simp only [BinaryTree.height] <;> omega

omit [LinearOrder κ] in
/-- A view of the records has the same height. -/
theorem height_map {β : Type*} (view : α → β) (t : BinaryTree α) :
    (t.map view).height = t.height := by
  induction t with
  | nil => rfl
  | node a l r hl hr => simp [BinaryTree.map, hl, hr]

/-- An adjustment keeps the height. -/
theorem height_adjust (k : κ) (f : α → α) (t : BinaryTree α) :
    (adjust key k f t).height = t.height := by
  induction t with
  | nil => rfl
  | node a l r hl hr =>
    simp only [adjust]
    split_ifs <;> simp [hl, hr]

/-! ## Chains -/

/-- The tree that leans to the right. -/
def chain : List α → BinaryTree α
  | [] => .nil
  | a :: l => .node a .nil (chain l)

omit [LinearOrder κ] in
@[simp] theorem inorder_chain (l : List α) : inorder (chain l) = l := by
  induction l with
  | nil => rfl
  | cons a l ih => simp [chain, ih]

omit [LinearOrder κ] in
/-- A chain is as high as it is long. -/
@[simp] theorem height_chain (l : List α) : (chain l).height = l.length := by
  induction l with
  | nil => rfl
  | cons a l ih => simp [chain, ih]

/-- **A largest key makes a chain longer.** -/
theorem upsert_chain {a : α} (g : α → α) {l : List α} (h : ∀ b ∈ l, key b < key a) :
    upsert key a g (chain l) = chain (l ++ [a]) := by
  induction l with
  | nil => rfl
  | cons b l ih =>
    have hb : key b < key a := h b List.mem_cons_self
    have hl := ih fun c hc => h c (List.mem_cons_of_mem b hc)
    rw [chain, upsert, if_neg hb.not_gt, if_pos hb, hl]
    rfl

/-! ## Pointers -/

/-- The subtree that a pointer leads to: a pointer is the list of turns from the root, `true` to
the right. -/
def subtreeAt : List Bool → BinaryTree α → BinaryTree α
  | [], t => t
  | _ :: _, .nil => .nil
  | false :: p, .node _ l _ => subtreeAt p l
  | true :: p, .node _ _ r => subtreeAt p r

/-- The record that a pointer leads to. -/
def recordAt (p : List Bool) (t : BinaryTree α) : Option α :=
  match subtreeAt p t with
  | .nil => none
  | .node a _ _ => some a

/-- Write the record that a pointer leads to. -/
def modifyAt (f : α → α) : List Bool → BinaryTree α → BinaryTree α
  | _, .nil => .nil
  | [], .node a l r => .node (f a) l r
  | false :: p, .node a l r => .node a (modifyAt f p l) r
  | true :: p, .node a l r => .node a l (modifyAt f p r)

/-- The turns that a search for `k` takes at the nodes of a pointer are those of the pointer. -/
def Leads (k : κ) : List Bool → BinaryTree α → Prop
  | [], _ => True
  | _ :: _, .nil => False
  | false :: p, .node a l _ => k < key a ∧ Leads k p l
  | true :: p, .node a _ r => key a < k ∧ Leads k p r

/-- One turn more. -/
theorem subtreeAt_concat (p : List Bool) (turn : Bool) (t : BinaryTree α) :
    subtreeAt (p ++ [turn]) t = subtreeAt [turn] (subtreeAt p t) := by
  induction p generalizing t with
  | nil => rfl
  | cons b p ih => cases b <;> cases t <;> simp [subtreeAt, ih]

/-- A search goes on to the left of a node with a larger key. -/
theorem Leads.left {k : κ} {p : List Bool} {t l r : BinaryTree α} {a : α}
    (h : Leads key k p t) (hs : subtreeAt p t = .node a l r) (hk : k < key a) :
    Leads key k (p ++ [false]) t := by
  induction p generalizing t with
  | nil => obtain rfl : t = .node a l r := hs; exact ⟨hk, trivial⟩
  | cons b p ih =>
    cases t with
    | nil => cases b <;> cases hs
    | node c l' r' => cases b <;> exact ⟨h.1, ih h.2 hs⟩

/-- A search goes on to the right of a node with a smaller key. -/
theorem Leads.right {k : κ} {p : List Bool} {t l r : BinaryTree α} {a : α}
    (h : Leads key k p t) (hs : subtreeAt p t = .node a l r) (hk : key a < k) :
    Leads key k (p ++ [true]) t := by
  induction p generalizing t with
  | nil => obtain rfl : t = .node a l r := hs; exact ⟨hk, trivial⟩
  | cons b p ih =>
    cases t with
    | nil => cases b <;> cases hs
    | node c l' r' => cases b <;> exact ⟨h.1, ih h.2 hs⟩

/-- **A search may go on from wherever it has got to.** -/
theorem Leads.search {k : κ} {p : List Bool} {t : BinaryTree α} (h : Leads key k p t) :
    search key k (subtreeAt p t) = SearchTree.search key k t := by
  induction p generalizing t with
  | nil => rfl
  | cons b p ih =>
    cases t with
    | nil => cases b <;> exact h.elim
    | node a l r =>
      cases b
      · simp [subtreeAt, SearchTree.search, h.1, ih h.2]
      · simp [subtreeAt, SearchTree.search, h.1, h.1.not_gt, ih h.2]

/-- A search that finds a record has followed a pointer to it. -/
theorem exists_leads {k : κ} {t : BinaryTree α} {a : α} (h : SearchTree.search key k t = some a) :
    ∃ p l r, Leads key k p t ∧ subtreeAt p t = .node a l r := by
  induction t with
  | nil => cases h
  | node b l r hl hr =>
    simp only [SearchTree.search] at h
    split_ifs at h with h1 h2
    · obtain ⟨p, l', r', hlead, hsub⟩ := hl h
      exact ⟨false :: p, l', r', ⟨h1, hlead⟩, hsub⟩
    · obtain ⟨p, l', r', hlead, hsub⟩ := hr h
      exact ⟨true :: p, l', r', ⟨h2, hlead⟩, hsub⟩
    · obtain rfl := Option.some.inj h
      exact ⟨[], l, r, trivial, rfl⟩

/-- **Writing through the pointer that a search found** is adjusting the record under its key. -/
theorem Leads.modifyAt {f g : α → α} {k : κ} {p : List Bool} {t l r : BinaryTree α} {a : α}
    (h : Leads key k p t) (hs : subtreeAt p t = .node a l r) (hk : key a = k) (hfg : f a = g a) :
    modifyAt f p t = adjust key k g t := by
  induction p generalizing t with
  | nil => obtain rfl : t = .node a l r := hs; simp [SearchTree.modifyAt, adjust, hk, hfg]
  | cons b p ih =>
    cases t with
    | nil => cases b <;> exact h.elim
    | node c l' r' =>
      cases b
      · simp [SearchTree.modifyAt, adjust, h.1, ih h.2 hs]
      · simp [SearchTree.modifyAt, adjust, h.1, h.1.not_gt, ih h.2 hs]

/-! ## Positions -/

@[simp] theorem recordAt_nil (p : List Bool) : recordAt p (.nil : BinaryTree α) = none := by
  cases p <;> rfl

@[simp] theorem recordAt_root (a : α) (l r : BinaryTree α) :
    recordAt [] (.node a l r) = some a := rfl

@[simp] theorem recordAt_left (p : List Bool) (a : α) (l r : BinaryTree α) :
    recordAt (false :: p) (.node a l r) = recordAt p l := rfl

@[simp] theorem recordAt_right (p : List Bool) (a : α) (l r : BinaryTree α) :
    recordAt (true :: p) (.node a l r) = recordAt p r := rfl

omit [LinearOrder κ] in
/-- A record at a position is in the tree. -/
theorem mem_of_recordAt {p : List Bool} {t : BinaryTree α} {a : α} (h : recordAt p t = some a) :
    a ∈ inorder t := by
  induction p generalizing t with
  | nil =>
    cases t with
    | nil => simp at h
    | node b l r => simp at h; simp [h]
  | cons turn p ih =>
    cases t with
    | nil => simp at h
    | node b l r =>
      cases turn
      · simp [ih ((recordAt_left p b l r).symm.trans h)]
      · simp [ih ((recordAt_right p b l r).symm.trans h)]

/-- **`adjust` changes the record under its key where it is**, and no other position. -/
theorem recordAt_adjust {f : α → α} {t : BinaryTree α} (ht : Ordered key t) (k : κ)
    (p : List Bool) : recordAt p (adjust key k f t) =
      (recordAt p t).map fun a => if key a = k then f a else a := by
  induction t generalizing p with
  | nil => simp [adjust]
  | node a l r hl hr =>
    obtain ⟨hol, hor, hla, har⟩ := (ordered_node key).mp ht
    have hother : ∀ (u : BinaryTree α) (q : List Bool), (∀ x ∈ inorder u, key x ≠ k) →
        recordAt q u = (recordAt q u).map fun x => if key x = k then f x else x := by
      intro u q hu
      cases hq : recordAt q u with
      | none => rfl
      | some x => simp [hu x (mem_of_recordAt hq)]
    simp only [adjust]
    split_ifs with h1 h2
    · -- the record is on the left
      rcases p with _ | ⟨_ | _, p⟩
      · simp [h1.ne']
      · simpa using hl hol p
      · exact hother r p fun x hx => (h1.trans (har x hx)).ne'
    · -- the record is on the right
      rcases p with _ | ⟨_ | _, p⟩
      · simp [h2.ne]
      · exact hother l p fun x hx => ((hla x hx).trans h2).ne
      · simpa using hr hor p
    · obtain rfl : k = key a := le_antisymm (not_lt.mp h2) (not_lt.mp h1)
      rcases p with _ | ⟨_ | _, p⟩
      · simp
      · exact hother l p fun x hx => (hla x hx).ne
      · exact hother r p fun x hx => (har x hx).ne'

/-- **`upsert` leaves every record at its position**, the one under its key with `g` applied. -/
theorem recordAt_upsert {a b : α} {g : α → α} {t : BinaryTree α} (ht : Ordered key t)
    {p : List Bool} (h : recordAt p t = some b) :
    recordAt p (upsert key a g t) = some (if key b = key a then g b else b) := by
  induction t generalizing p with
  | nil => simp at h
  | node c l r hl hr =>
    obtain ⟨hol, hor, hlc, hcr⟩ := (ordered_node key).mp ht
    rcases lt_trichotomy (key a) (key c) with hac | hac | hac
    · -- the key of `a` belongs to the left
      rw [upsert, if_pos hac]
      rcases p with _ | ⟨_ | _, p⟩
      · obtain rfl : c = b := by simpa using h
        simp [hac.ne']
      · exact hl hol h
      · have hbc := hac.trans (hcr b (mem_of_recordAt h))
        rw [if_neg hbc.ne']
        exact h
    · -- the key of `a` is the one at the root
      rw [upsert, if_neg hac.not_lt, if_neg hac.not_gt]
      rcases p with _ | ⟨_ | _, p⟩
      · obtain rfl : c = b := by simpa using h
        simp [hac]
      · have hbc := hlc b (mem_of_recordAt h)
        rw [if_neg (hac ▸ hbc.ne)]
        exact h
      · have hbc := hcr b (mem_of_recordAt h)
        rw [if_neg (hac ▸ hbc.ne')]
        exact h
    · -- the key of `a` belongs to the right
      rw [upsert, if_neg hac.not_gt, if_pos hac]
      rcases p with _ | ⟨_ | _, p⟩
      · obtain rfl : c = b := by simpa using h
        simp [hac.ne]
      · have hbc := (hlc b (mem_of_recordAt h)).trans hac
        rw [if_neg hbc.ne]
        exact h
      · exact hr hor h

/-- A record with another key was there before `upsert`. -/
theorem recordAt_of_upsert {a b : α} {g : α → α} (hg : ∀ c, key (g c) = key c)
    {t : BinaryTree α} {p : List Bool} (h : recordAt p (upsert key a g t) = some b)
    (hb : key b ≠ key a) : recordAt p t = some b := by
  induction t generalizing p with
  | nil =>
    rcases p with _ | ⟨_ | _, p⟩ <;> simp [upsert] at h
    exact absurd (congrArg key h.symm) hb
  | node c l r hl hr =>
    simp only [upsert] at h
    split_ifs at h with h1 h2
    · rcases p with _ | ⟨_ | _, p⟩
      · exact h
      · exact hl h
      · exact h
    · rcases p with _ | ⟨_ | _, p⟩
      · exact h
      · exact h
      · exact hr h
    · rcases p with _ | ⟨_ | _, p⟩
      · have hkey : key b = key a := by
          obtain rfl : g c = b := by simpa using h
          rw [hg]
          exact le_antisymm (not_lt.mp h1) (not_lt.mp h2)
        exact absurd hkey hb
      · exact h
      · exact h

/-! ## Canonicity -/

/-- **The record list is canonical**: two ordered trees that store the same map have the same
record list, whatever their shapes.

**Proof sketch.** Both lists are strictly increasing in the key and, search being membership,
have the same members. -/
theorem inorder_eq_of_search_eq {t u : BinaryTree α} (ht : Ordered key t) (hu : Ordered key u)
    (h : ∀ k, search key k t = search key k u) : inorder t = inorder u := by
  have hmem : ∀ a, a ∈ inorder t ↔ a ∈ inorder u := by
    intro a
    have ht' := search_eq_some_iff key ht (k := key a) (a := a)
    have hu' := search_eq_some_iff key hu (k := key a) (a := a)
    rw [h] at ht'
    simp only [and_true] at ht' hu'
    exact ht'.symm.trans hu'
  have hnodup : ∀ {v : BinaryTree α}, Ordered key v → (inorder v).Nodup := fun hv =>
    List.Pairwise.imp (fun hab hba => hab.ne (congrArg key hba)) hv
  have hperm : (inorder t).Perm (inorder u) :=
    (List.perm_ext_iff_of_nodup (hnodup ht) (hnodup hu)).mpr hmem
  exact hperm.eq_of_pairwise (fun a b _ _ hab hba => absurd hab hba.not_gt) ht hu

end SearchTree
