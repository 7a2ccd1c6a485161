import TreeRepair.Tree.Traversal

namespace TreeRepair.Tree

theorem preorderPending_append (l k : List Tree) :
    preorderPending (l ++ k) = preorderPending l ++ preorderPending k := by
  fun_induction preorderPending l with
  | case1 => simp
  | case2 t pending ih =>
    rw [List.cons_append, preorderPending, ← List.append_assoc, ih, List.cons_append]

theorem preorderPending_eq_flatMap (l : List Tree) : preorderPending l = l.flatMap preorder := by
  induction l with
  | nil => simp [preorderPending]
  | cons t l ih => rw [List.flatMap_cons, ← ih, preorder, ← preorderPending_append]; rfl

/-- A tree comes first, then all that is below its children, child by child. -/
theorem preorder_eq (t : Tree) : t.preorder = t :: t.children.flatMap preorder := by
  rw [preorder, preorderPending, List.append_nil, preorderPending_eq_flatMap]

theorem mem_preorder {t n : Tree} :
    n ∈ t.preorder ↔ n = t ∨ ∃ c ∈ t.children, n ∈ c.preorder := by
  rw [preorder_eq, List.mem_cons, List.mem_flatMap]

theorem self_mem_preorder (t : Tree) : t ∈ t.preorder := mem_preorder.mpr (.inl rfl)

theorem mem_preorder_of_mem_children {t c n : Tree} (hc : c ∈ t.children)
    (hn : n ∈ c.preorder) : n ∈ t.preorder := mem_preorder.mpr (.inr ⟨c, hc, hn⟩)

theorem mem_children_induct {motive : Tree → Prop}
    (node : ∀ i s, (∀ c ∈ s.children, motive c) → motive ⟨i, s⟩) (t : Tree) : motive t := by
  induction t using induct with
  | node i s ih => exact node i s fun c hc => ih c (List.mem_append_left _ hc)

theorem mem_preorder_trans {t m n : Tree} (hm : m ∈ t.preorder) (hn : n ∈ m.preorder) :
    n ∈ t.preorder := by
  induction t using mem_children_induct with
  | node i s ih =>
    rcases mem_preorder.mp hm with rfl | ⟨c, hc, hm⟩
    · exact hn
    · exact mem_preorder_of_mem_children hc (ih c hc hm)

/-- What is done to a node and to each of its children is done to every node. -/
theorem preorder_of_children {f : Tree → Tree}
    (children : ∀ t, (f t).children = t.children.map f) (t : Tree) :
    (f t).preorder = t.preorder.map f := by
  induction t using mem_children_induct with
  | node i s ih =>
    have below : s.children.map (fun c => (f c).preorder) =
        s.children.map fun c => c.preorder.map f := List.map_congr_left ih
    rw [preorder_eq, preorder_eq ⟨i, s⟩, children, List.map_cons, List.flatMap_map,
      List.map_flatMap, List.flatMap_def, List.flatMap_def]
    exact congrArg (fun nodes => f ⟨i, s⟩ :: nodes.flatten) below

/-- What holds at every node of a tree holds at its root and at every node of its children. -/
theorem forall_mem_preorder {t : Tree} {p : Tree → Prop} :
    (∀ n ∈ t.preorder, p n) ↔ p t ∧ ∀ c ∈ t.children, ∀ n ∈ c.preorder, p n := by
  constructor
  · intro h
    exact ⟨h t t.self_mem_preorder, fun c hc n hn => h n (mem_preorder_of_mem_children hc hn)⟩
  · rintro ⟨root, below⟩ n hn
    rcases mem_preorder.mp hn with rfl | ⟨c, hc, hn⟩
    · exact root
    · exact below c hc n hn

/-- The node to which a way leads from the root, child by child. -/
def at? : Tree → List Nat → Option Tree
  | t, [] => some t
  | t, k :: p => t.children[k]?.bind fun c => c.at? p

theorem at?_append (t : Tree) (p q : List Nat) :
    t.at? (p ++ q) = (t.at? p).bind fun n => n.at? q := by
  induction p generalizing t with
  | nil => rfl
  | cons k p ih =>
    rw [List.cons_append, at?, at?]
    cases t.children[k]? with
    | none => rfl
    | some c => exact ih c

theorem mem_preorder_of_at? {t n : Tree} {p : List Nat} (h : t.at? p = some n) :
    n ∈ t.preorder := by
  induction p generalizing t with
  | nil => exact Option.some.inj h ▸ t.self_mem_preorder
  | cons k p ih =>
    obtain ⟨c, hc, found⟩ := Option.bind_eq_some_iff.mp h
    exact mem_preorder_of_mem_children (List.mem_of_getElem? hc) (ih found)

end TreeRepair.Tree
