import TreeRepair.Tree.Basic

namespace TreeRepair

namespace Tree

theorem length_nodes_children_lt (t : Tree) : (t.children.flatMap nodes).length < t.size := by
  obtain ⟨i, s⟩ := t
  rw [size_mk]
  simp only [Tree.children, Shape.subtrees, List.flatMap_append, List.length_append]
  split <;> omega

/-- Takes the first pending tree, then its children, then what was pending behind it. -/
def preorderPending : List Tree → List Tree
  | [] => []
  | t :: pending => t :: preorderPending (t.children ++ pending)
termination_by pending => (pending.flatMap nodes).length
decreasing_by
  have := length_nodes_children_lt t
  simp only [List.flatMap_append, List.flatMap_cons, List.length_append]
  exact Nat.add_lt_add_right this _

/-- A tree and all trees below it, parents first, from left to right; written forms of resolved
types are passed over. -/
def preorder (t : Tree) : List Tree := preorderPending [t]

theorem size_le_of_mem_preorderPending {pending : List Tree} {n : Tree}
    (h : n ∈ preorderPending pending) : ∃ t ∈ pending, n.size ≤ t.size := by
  fun_induction preorderPending pending with
  | case1 => simp at h
  | case2 t pending ih =>
    rcases List.mem_cons.mp h with rfl | h
    · exact ⟨n, by simp, Nat.le_refl _⟩
    · obtain ⟨c, hc, hle⟩ := ih h
      rcases List.mem_append.mp hc with hc | hc
      · exact ⟨t, by simp, by have := size_lt_of_mem_children hc; omega⟩
      · exact ⟨c, by simp [hc], hle⟩

theorem size_le_of_mem_preorder {t n : Tree} (h : n ∈ t.preorder) : n.size ≤ t.size := by
  obtain ⟨u, hu, hle⟩ := size_le_of_mem_preorderPending h
  simp at hu
  exact hu ▸ hle

end Tree

/-- A walk that keeps the trees still to come on a stack, the next one last. -/
structure Walk where
  stack : List Tree
  yielded : List Tree

namespace Walk

/-- Takes a tree off the stack and puts its children there, the first one last. -/
def step? (w : Walk) : Option Walk :=
  w.stack.getLast?.map fun t => ⟨w.stack.dropLast ++ t.children.reverse, w.yielded ++ [t]⟩

def after : Nat → Walk → Option Walk
  | 0, w => some w
  | n + 1, w => w.step?.bind (after n)

end Walk

/-- The node with its own name changed, if it refers to the one name. -/
def Shape.renameHead {α : Type} (a b : Name) : Shape α → Shape α
  | .ident n => .ident (if n = a then b else n)
  | .select q n => .select q (if n = a then b else n)
  | s => s

/-- Every reference to the one name, plain or selected, becomes a reference to the other. -/
def Tree.rename (a b : Name) : Tree → Tree
  | ⟨i, s⟩ => ⟨i, (s.pmapChildren fun c _ => c.rename a b).renameHead a b⟩
termination_by t => t.size
decreasing_by exact size_lt_of_mem_children ‹_›

end TreeRepair
