import StockServer.Lib.Heap
import StockServer.Lib.SearchTree

set_option relaxedAutoImplicit false
set_option autoImplicit false

/-!
# Binary trees in a heap

A node of a linked tree is a cell with a value and two links.  A tree whose nodes carry their
addresses says which cells of a heap are its nodes.

## Main definitions

* `TreeCell` — a node of a linked tree.
* `HeapTree.rootAddr`, `HeapTree.addresses`, `HeapTree.onValue` — where a tree with addresses
  starts, what it uses, and a change of a node's value.
* `HeapTree.Placed`, `HeapTree.Occupies` — the cells of a heap are the nodes of a tree, and no
  cell is used twice.
* `HeapTree.Becomes` — a tree in the heap has become another, and nothing else has changed.

## Main results

* `HeapTree.Placed.congr` — a tree is there as long as its own cells are not touched.
* `HeapTree.Becomes.other`, `HeapTree.Becomes.trans` — the frame rule, and changes compose.
* `HeapTree.becomes_new`, `HeapTree.Becomes.node`, `HeapTree.Becomes.free`,
  `HeapTree.becomes_adjust` — a new node, a node over changing subtrees, a node given up, and a
  write to the record that search finds.
-/

/-- A node of a linked tree. -/
structure TreeCell (α : Type*) where
  value : α
  left : Addr
  right : Addr
  deriving DecidableEq, Repr

namespace HeapTree

open SearchTree

variable {α κ : Type*}

/-! ## Trees with addresses -/

/-- The pointer to a tree: null, or the address of its root. -/
def rootAddr : BinaryTree (Addr × α) → Addr
  | .nil => 0
  | .node x _ _ => x.1

/-- The addresses of the nodes from left to right. -/
def addresses (t : BinaryTree (Addr × α)) : List Addr := (inorder t).map Prod.fst

/-- A change of the value of a node. -/
def onValue (f : α → α) : Addr × α → Addr × α := Prod.map id f

@[simp] theorem rootAddr_nil : rootAddr (.nil : BinaryTree (Addr × α)) = 0 := rfl

@[simp] theorem rootAddr_node (x : Addr × α) (l r : BinaryTree (Addr × α)) :
    rootAddr (.node x l r) = x.1 := rfl

@[simp] theorem addresses_nil : addresses (.nil : BinaryTree (Addr × α)) = [] := rfl

@[simp] theorem addresses_node (x : Addr × α) (l r : BinaryTree (Addr × α)) :
    addresses (.node x l r) = addresses l ++ x.1 :: addresses r := by
  simp [addresses]

/-- An update that keeps addresses keeps the root. -/
theorem rootAddr_adjust [LinearOrder κ] (key : Addr × α → κ) (k : κ) (f : α → α)
    (t : BinaryTree (Addr × α)) : rootAddr (adjust key k (onValue f) t) = rootAddr t := by
  cases t with
  | nil => rfl
  | node x l r =>
    simp only [SearchTree.adjust]
    split_ifs <;> rfl

/-- The address of what search finds is one of the tree's. -/
theorem mem_addresses_of_search [LinearOrder κ] {key : Addr × α → κ} {k : κ}
    {t : BinaryTree (Addr × α)} {x : Addr × α} (h : search key k t = some x) :
    x.1 ∈ addresses t :=
  List.mem_map_of_mem (search_some key h).1

/-! ## Trees in a heap -/

/-- The cells of the heap at the addresses of the tree are its nodes. -/
def Placed (h : Heap (TreeCell α)) : BinaryTree (Addr × α) → Prop
  | .nil => True
  | .node x l r =>
    h.lookup x.1 = some ⟨x.2, rootAddr l, rootAddr r⟩ ∧ Placed h l ∧ Placed h r

/-- The tree is in the heap, and its nodes are different cells. -/
structure Occupies (h : Heap (TreeCell α)) (t : BinaryTree (Addr × α)) : Prop where
  placed : Placed h t
  nodup : (addresses t).Nodup

variable {h h' : Heap (TreeCell α)} {t l r : BinaryTree (Addr × α)} {x : Addr × α}

theorem occupies_nil : Occupies h .nil := ⟨trivial, List.nodup_nil⟩

/-- A tree is in the heap with its subtrees, and the three parts are apart. -/
theorem occupies_node : Occupies h (.node x l r) ↔
    h.lookup x.1 = some ⟨x.2, rootAddr l, rootAddr r⟩ ∧ Occupies h l ∧ Occupies h r ∧
      x.1 ∉ addresses l ∧ x.1 ∉ addresses r ∧ (addresses l).Disjoint (addresses r) := by
  constructor
  · rintro ⟨⟨hx, hl, hr⟩, hnodup⟩
    rw [addresses_node, List.nodup_middle, List.nodup_cons, List.mem_append, not_or,
      List.nodup_append'] at hnodup
    obtain ⟨⟨hxl, hxr⟩, hln, hrn, hd⟩ := hnodup
    exact ⟨hx, ⟨hl, hln⟩, ⟨hr, hrn⟩, hxl, hxr, hd⟩
  · rintro ⟨hx, hl, hr, hxl, hxr, hd⟩
    refine ⟨⟨hx, hl.placed, hr.placed⟩, ?_⟩
    rw [addresses_node, List.nodup_middle, List.nodup_cons, List.mem_append, not_or,
      List.nodup_append']
    exact ⟨⟨hxl, hxr⟩, hl.nodup, hr.nodup, hd⟩

/-- The addresses of a tree in the heap are in use. -/
theorem Placed.lookup (ht : Placed h t) {a : Addr} (ha : a ∈ addresses t) :
    ∃ c, h.lookup a = some c := by
  induction t with
  | nil => cases ha
  | node x l r hl hr =>
    rw [addresses_node, List.mem_append, List.mem_cons] at ha
    rcases ha with ha | rfl | ha
    exacts [hl ht.2.1 ha, ⟨_, ht.1⟩, hr ht.2.2 ha]

/-- **A tree stays in the heap** while its own cells are not touched. -/
theorem Placed.congr (ht : Placed h t) (hsame : ∀ a ∈ addresses t, h'.lookup a = h.lookup a) :
    Placed h' t := by
  induction t with
  | nil => trivial
  | node x l r hl hr =>
    have hin : ∀ a, a ∈ addresses l ∨ a = x.1 ∨ a ∈ addresses r → h'.lookup a = h.lookup a := by
      intro a ha
      exact hsame a (by rwa [addresses_node, List.mem_append, List.mem_cons])
    exact ⟨(hin x.1 (.inr (.inl rfl))).trans ht.1, hl ht.2.1 fun a ha => hin a (.inl ha),
      hr ht.2.2 fun a ha => hin a (.inr (.inr ha))⟩

theorem Occupies.congr (ht : Occupies h t)
    (hsame : ∀ a ∈ addresses t, h'.lookup a = h.lookup a) : Occupies h' t :=
  ⟨ht.placed.congr hsame, ht.nodup⟩

/-! ## Local change -/

/-- One tree in the heap has become another: the new nodes were free cells, the nodes given up are
free cells, and all other cells are as before. -/
structure Becomes (h : Heap (TreeCell α)) (t : BinaryTree (Addr × α)) (h' : Heap (TreeCell α))
    (t' : BinaryTree (Addr × α)) : Prop where
  occupies : Occupies h' t'
  fresh : ∀ a ∈ addresses t', a ∈ addresses t ∨ h.lookup a = none
  freed : ∀ a ∈ addresses t, a ∈ addresses t' ∨ h'.lookup a = none
  frame : ∀ a, a ∉ addresses t → a ∉ addresses t' → h'.lookup a = h.lookup a

variable {h₁ h₂ h₃ : Heap (TreeCell α)} {t' t'' l' r' : BinaryTree (Addr × α)}

theorem Becomes.refl (ht : Occupies h t) : Becomes h t h t :=
  ⟨ht, fun _ ha => .inl ha, fun _ ha => .inl ha, fun _ _ _ => rfl⟩

/-- A cell in use outside of the tree is not touched, and does not become a part of it. -/
theorem Becomes.keeps (ht : Becomes h t h₁ t') {a : Addr} {c : TreeCell α}
    (hc : h.lookup a = some c) (ha : a ∉ addresses t) :
    h₁.lookup a = some c ∧ a ∉ addresses t' := by
  have ha' : a ∉ addresses t' := by
    intro hin
    rcases ht.fresh a hin with hold | hnone
    · exact ha hold
    · rw [hc] at hnone; cases hnone
  exact ⟨(ht.frame a ha ha').trans hc, ha'⟩

/-- **The frame rule**: a tree apart from the one that changes stays, and stays apart. -/
theorem Becomes.other (ht : Becomes h t h₁ t') (hr : Occupies h r)
    (hd : (addresses t).Disjoint (addresses r)) :
    Occupies h₁ r ∧ (addresses t').Disjoint (addresses r) := by
  have hkeeps : ∀ a ∈ addresses r, h₁.lookup a = h.lookup a ∧ a ∉ addresses t' := by
    intro a ha
    obtain ⟨c, hc⟩ := hr.placed.lookup ha
    obtain ⟨hc', ha'⟩ := ht.keeps hc fun hin => hd hin ha
    exact ⟨hc'.trans hc.symm, ha'⟩
  exact ⟨hr.congr fun a ha => (hkeeps a ha).1, fun a ha har => (hkeeps a har).2 ha⟩

/-- **Changes compose.** -/
theorem Becomes.trans (h₁₂ : Becomes h₁ t h₂ t') (h₂₃ : Becomes h₂ t' h₃ t'') :
    Becomes h₁ t h₃ t'' := by
  have hused : ∀ a ∈ addresses t', h₂.lookup a ≠ none := by
    intro a ha
    obtain ⟨c, hc⟩ := h₁₂.occupies.placed.lookup ha
    rw [hc]
    exact nofun
  refine ⟨h₂₃.occupies, fun a ha => ?_, fun a ha => ?_, fun a ha ha'' => ?_⟩
  · rcases h₂₃.fresh a ha with ha' | hnone
    · exact h₁₂.fresh a ha'
    by_cases hold : a ∈ addresses t
    · exact .inl hold
    · rw [h₁₂.frame a hold fun hin => hused a hin hnone] at hnone
      exact .inr hnone
  · by_cases ha'' : a ∈ addresses t''
    · exact .inl ha''
    by_cases ha' : a ∈ addresses t'
    · exact .inr ((h₂₃.freed a ha').resolve_left ha'')
    · rw [h₂₃.frame a ha' ha'']
      exact .inr ((h₁₂.freed a ha).resolve_left ha')
  · by_cases ha' : a ∈ addresses t'
    · rw [(h₂₃.freed a ha').resolve_left ha'', (h₁₂.fresh a ha').resolve_left ha]
    · rw [h₂₃.frame a ha' ha'', h₁₂.frame a ha ha']

/-- **A new node.** -/
theorem becomes_new {a : Addr} (ha : h.lookup a = none) (v : α) :
    Becomes h .nil (h.insert a ⟨v, 0, 0⟩) (.node (a, v) .nil .nil) := by
  refine ⟨occupies_node.mpr ⟨Finmap.lookup_insert _, occupies_nil, occupies_nil, ?_⟩, ?_, ?_, ?_⟩
  · simp
  · intro b hb
    obtain rfl : b = a := by simpa using hb
    exact .inr ha
  · simp
  · intro b _ hb
    have hba : b ≠ a := by simpa using hb
    exact Finmap.lookup_insert_of_ne _ hba

/-- **A node whose subtrees change**, one after the other, and which is written last. -/
theorem Becomes.node {v : α} (ht : Occupies h (.node x l r)) (hl : Becomes h l h₁ l')
    (hr : Becomes h₁ r h₂ r') (hx : h₃.lookup x.1 = some ⟨v, rootAddr l', rootAddr r'⟩)
    (hsame : ∀ a, a ≠ x.1 → h₃.lookup a = h₂.lookup a) :
    Becomes h (.node x l r) h₃ (.node (x.1, v) l' r') := by
  obtain ⟨hc, -, hor, hxl, hxr, hd⟩ := occupies_node.mp ht
  obtain ⟨hc₁, hxl'⟩ := hl.keeps hc hxl
  obtain ⟨-, hxr'⟩ := hr.keeps hc₁ hxr
  obtain ⟨-, hd₁⟩ := hl.other hor hd
  obtain ⟨hol₂, hd₂⟩ := hr.other hl.occupies hd₁.symm
  have hne : ∀ {u : BinaryTree (Addr × α)}, x.1 ∉ addresses u → ∀ a ∈ addresses u,
      h₃.lookup a = h₂.lookup a := fun hu a ha => hsame a fun heq => hu (heq ▸ ha)
  have htrans : ∀ a, a ≠ x.1 → a ∉ addresses l → a ∉ addresses r → a ∉ addresses l' →
      a ∉ addresses r' → h₃.lookup a = h.lookup a := by
    intro a hax hal har hal' har'
    rw [hsame a hax, hr.frame a har har', hl.frame a hal hal']
  refine ⟨occupies_node.mpr ⟨hx, hol₂.congr (hne hxl'), hr.occupies.congr (hne hxr'), hxl', hxr',
    hd₂.symm⟩, fun a ha => ?_, fun a ha => ?_, fun a ha ha' => ?_⟩
  · simp only [addresses_node, List.mem_append, List.mem_cons] at ha ⊢
    rcases ha with ha | rfl | ha
    · exact (hl.fresh a ha).imp_left .inl
    · exact .inl (.inr (.inl rfl))
    · rcases hr.fresh a ha with har | hnone
      · exact .inl (.inr (.inr har))
      by_cases hal : a ∈ addresses l
      · exact .inl (.inl hal)
      have hal' : a ∉ addresses l' := by
        intro hin
        obtain ⟨c, hc'⟩ := hl.occupies.placed.lookup hin
        rw [hnone] at hc'
        cases hc'
      exact .inr ((hl.frame a hal hal').symm.trans hnone)
  · simp only [addresses_node, List.mem_append, List.mem_cons] at ha ⊢
    have hax : a ∈ addresses l ∨ a ∈ addresses r → a ≠ x.1 := by
      rintro hin rfl
      exact hin.elim hxl hxr
    rcases ha with ha | rfl | ha
    · by_cases hal' : a ∈ addresses l'
      · exact .inl (.inl hal')
      by_cases har' : a ∈ addresses r'
      · exact .inl (.inr (.inr har'))
      have hfreed := (hl.freed a ha).resolve_left hal'
      rw [hsame a (hax (.inl ha)), hr.frame a (fun har => hd ha har) har']
      exact .inr hfreed
    · exact .inl (.inr (.inl rfl))
    · rcases hr.freed a ha with har' | hnone
      · exact .inl (.inr (.inr har'))
      · exact .inr ((hsame a (hax (.inr ha))).trans hnone)
  · simp only [addresses_node, List.mem_append, List.mem_cons, not_or] at ha ha'
    exact htrans a ha.2.1 ha.1 ha.2.2 ha'.1 ha'.2.2

/-- **A node given up** after its subtrees. -/
theorem Becomes.free (ht : Occupies h (.node x l r)) (hl : Becomes h l h₁ .nil)
    (hr : Becomes h₁ r h₂ .nil) : Becomes h (.node x l r) (h₂.erase x.1) .nil := by
  obtain ⟨hc, -, -, hxl, hxr, hd⟩ := occupies_node.mp ht
  refine ⟨occupies_nil, nofun, fun a ha => .inr ?_, fun a ha _ => ?_⟩
  · by_cases hax : a = x.1
    · rw [hax, Finmap.lookup_erase]
    rw [Finmap.lookup_erase_ne hax]
    rw [addresses_node, List.mem_append, List.mem_cons] at ha
    rcases ha with ha | rfl | ha
    · rw [hr.frame a (fun har => hd ha har) nofun]
      exact (hl.freed a ha).resolve_left nofun
    · exact absurd rfl hax
    · exact (hr.freed a ha).resolve_left nofun
  · simp only [addresses_node, List.mem_append, List.mem_cons, not_or] at ha
    rw [Finmap.lookup_erase_ne ha.2.1, hr.frame a ha.2.2 nofun, hl.frame a ha.1 nofun]

/-- **Writing to the record that search finds** adjusts it. -/
theorem becomes_adjust [LinearOrder κ] {key : Addr × α → κ} {k : κ} {v : α} {a : Addr}
    (ht : Occupies h t) (hs : search key k t = some (a, v)) (f : α → α) :
    ∃ p q, h.lookup a = some ⟨v, p, q⟩ ∧
      Becomes h t (h.insert a ⟨f v, p, q⟩) (adjust key k (onValue f) t) := by
  induction t with
  | nil => cases hs
  | node x l r hl hr =>
    obtain ⟨hx, hol, hor, hxl, hxr, hd⟩ := occupies_node.mp ht
    simp only [search] at hs
    simp only [SearchTree.adjust]
    split_ifs at hs ⊢ with h1 h2
    · -- the record is on the left
      obtain ⟨p, q, hlookup, hbecomes⟩ := hl hol hs
      have hor' := (hbecomes.other hor hd).1
      refine ⟨p, q, hlookup, hbecomes.node ht (.refl hor') ?_ fun b _ => rfl⟩
      rw [(hbecomes.keeps hx hxl).1, rootAddr_adjust]
    · -- the record is on the right
      obtain ⟨p, q, hlookup, hbecomes⟩ := hr hor hs
      refine ⟨p, q, hlookup, (Becomes.refl hol).node ht hbecomes ?_ fun b _ => rfl⟩
      rw [(hbecomes.keeps hx hxr).1, rootAddr_adjust]
    · obtain rfl : x = (a, v) := Option.some.inj hs
      exact ⟨_, _, hx, (Becomes.refl hol).node ht (.refl hor) (Finmap.lookup_insert _)
        fun b hb => Finmap.lookup_insert_of_ne _ hb⟩

end HeapTree
