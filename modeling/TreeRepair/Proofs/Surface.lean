import TreeRepair.CaseClass.Clean
import TreeRepair.Proofs.Same

namespace TreeRepair

namespace Shape

variable {α β : Type}

/-- The modifiers of a declaration. -/
def modifiers? : Shape α → Option (Modifiers α)
  | .valDef mods _ _ _ | .defDef mods _ _ _ _ _ | .typeDef mods _ _ _ | .classDef mods _ _ _
  | .moduleDef mods _ _ => some mods
  | _ => none

/-- The children of a node that are not among its statements. -/
def others : Shape α → List α
  | .template parents self _ => parents ++ [self]
  | .packageDef pid _ => [pid]
  | .block _ _ => []
  | s => s.children

theorem others_eq_take (s : Shape α) :
    s.others = s.children.take (s.children.length - s.statements.length) := by
  cases s with
  | template parents self body =>
    have split : parents ++ self :: body = (parents ++ [self]) ++ body := by simp
    rw [others, children, statements, split, List.length_append, Nat.add_sub_cancel,
      List.take_left]
  | packageDef pid stats => simp [others, children, statements]
  | block stats expr => simp [others, children, statements]
  | _ => exact List.take_length.symm

theorem length_statements_outline (s : Shape α) :
    s.outline.statements.length = s.statements.length := by
  cases s <;> simp [outline, statements]

theorem caseName?_outline (s : Shape α) : s.outline.caseName? = s.caseName? := by
  cases s <;> rfl

theorem flags_outline (s : Shape α) :
    s.outline.modifiers?.map Modifiers.flags = s.modifiers?.map Modifiers.flags := by
  cases s <;> rfl

end Shape

/-- Nothing but a position is attached. -/
structure Info.Bare (i : Info) : Prop where
  symbol : i.symbol = none
  type : i.type = none
  marks : i.marks = {}

namespace Tree

/-- The mark that stands in place of a type where a method is taken as a value. -/
def isEtaMark : Tree → Bool
  | ⟨_, .function [] ⟨_, .empty⟩⟩ => true
  | _ => false

/-- A node as it can be written: nothing is resolved or generated at it, no case class stands
where its companion cannot be seen, and an ascription has a type that does not repeat its
expression with an annotation. -/
@[mk_iff]
structure SurfaceNode (n : Tree) : Prop where
  bare : n.info.Bare
  notResolved : n.shape.written = none
  notExtracted : ∀ fn args, n.shape ≠ .unapply fn args
  notGenerated : ∀ mods, n.shape.modifiers? = some mods →
    mods.has .synthetic = false ∧ mods.has .defaultParam = false
  casesPlaced : ∀ c ∈ n.shape.others, c.shape.caseName? = none
  ascription : ∀ expr tpt, n.shape = .typed expr tpt → tpt.isEtaMark = true ∨
    tpt.isType = true ∧ ∀ i annot arg, tpt = ⟨i, .annotated annot arg⟩ → arg.same expr = false

/-- A tree as it can be written, before any checker has seen it. -/
def Surface (t : Tree) : Prop := ∀ n ∈ t.preorder, n.SurfaceNode

theorem surface_mk {i : Info} {s : Shape Tree} :
    (⟨i, s⟩ : Tree).Surface ↔ (⟨i, s⟩ : Tree).SurfaceNode ∧ ∀ c ∈ s.children, c.Surface :=
  forall_mem_preorder

theorem caseName?_eq_of_same {t u : Tree} (h : t.same u = true) :
    t.shape.caseName? = u.shape.caseName? := by
  obtain ⟨i, s⟩ := t
  obtain ⟨j, v⟩ := u
  simp only
  rw [← s.caseName?_outline, (same_mk.mp h).1, v.caseName?_outline]

theorem forall₂_others_of_same {t u : Tree} (h : t.same u = true) :
    List.Forall₂ (fun c d => c.same d = true) t.shape.others u.shape.others := by
  obtain ⟨i, s⟩ := t
  obtain ⟨j, v⟩ := u
  have outline := (same_mk.mp h).1
  have statements : s.statements.length = v.statements.length := by
    rw [← s.length_statements_outline, outline, v.length_statements_outline]
  have children := Shape.length_children_eq outline
  simp only [Shape.others_eq_take]
  rw [children, statements]
  exact List.forall₂_take _ (forall₂_children_of_same h)

theorem exists_typed_of_same {t : Tree} {j : Info} {expr tpt : Tree}
    (h : t.same ⟨j, .typed expr tpt⟩ = true) :
    ∃ expr' tpt', t.shape = .typed expr' tpt' ∧ expr'.same expr = true ∧ tpt'.same tpt = true := by
  obtain ⟨i, s⟩ := t
  obtain ⟨outline, below⟩ := same_mk.mp h
  cases s <;> simp [Shape.outline] at outline
  next expr' tpt' => exact ⟨expr', tpt', rfl, by simpa [Shape.subtrees, Shape.children, Shape.written] using below⟩

theorem exists_annotated_of_same {t : Tree} {j : Info} {annot arg : Tree}
    (h : t.same ⟨j, .annotated annot arg⟩ = true) :
    ∃ annot' arg', t.shape = .annotated annot' arg' ∧ arg'.same arg = true := by
  obtain ⟨i, s⟩ := t
  obtain ⟨outline, below⟩ := same_mk.mp h
  cases s <;> simp [Shape.outline] at outline
  next annot' arg' =>
    simp [Shape.subtrees, Shape.children] at below
    exact ⟨annot', arg', rfl, below.2.1⟩

theorem isEtaMark_of_same {t u : Tree} (h : t.same u = true) (mark : t.isEtaMark = true) :
    u.isEtaMark = true := by
  unfold isEtaMark at mark
  split at mark
  next i j =>
    obtain ⟨k, v⟩ := u
    obtain ⟨outline, below⟩ := same_mk.mp h
    cases v <;> simp [Shape.outline] at outline
    next params body =>
      subst outline
      simp [Shape.subtrees, Shape.children] at below
      have empty : body.isEmpty = true := (isEmpty_eq_of_same below.1).symm
      obtain ⟨l, b⟩ := body
      cases b <;> simp [isEmpty] at empty
      rfl
  next => simp at mark

theorem SurfaceNode.of_same {n m : Tree} (h : n.SurfaceNode) (same : n.same m = true)
    (bare : m.info.Bare) : m.SurfaceNode where
  bare := bare
  notResolved := by
    have := Shape.isSome_written_eq (outline_eq_of_same same)
    simpa [h.notResolved] using this.symm
  notExtracted := by
    intro fn args hm
    have outline := outline_eq_of_same same
    rw [hm] at outline
    cases hn : n.shape <;> simp [hn, Shape.outline] at outline
    exact h.notExtracted _ _ hn
  notGenerated := by
    intro mods hm
    have flags : n.shape.modifiers?.map Modifiers.flags = some mods.flags := by
      rw [← Shape.flags_outline, outline_eq_of_same same, Shape.flags_outline, hm]
      rfl
    obtain ⟨mods', hn, hflags⟩ := Option.map_eq_some_iff.mp flags
    simpa only [Modifiers.has, hflags] using h.notGenerated mods' hn
  casesPlaced := by
    intro d hd
    have others := forall₂_others_of_same same
    obtain ⟨k, hk, rfl⟩ := List.mem_iff_getElem.mp hd
    have hk' : k < n.shape.others.length := others.length_eq ▸ hk
    have pair := (List.forall₂_iff_get.mp others).2 k hk' hk
    exact (caseName?_eq_of_same pair).symm.trans (h.casesPlaced _ (List.getElem_mem hk'))
  ascription := by
    intro expr tpt hm
    obtain ⟨j, v⟩ := m
    cases hm
    obtain ⟨expr', tpt', hn, hexpr, htpt⟩ := exists_typed_of_same same
    rcases h.ascription expr' tpt' hn with mark | ⟨type, plain⟩
    · exact .inl (isEtaMark_of_same htpt mark)
    · refine .inr ⟨isType_eq_of_same htpt ▸ type, fun i annot arg ht => ?_⟩
      subst ht
      obtain ⟨annot', arg', hshape, harg⟩ := exists_annotated_of_same htpt
      obtain ⟨k, w⟩ := tpt'
      cases hshape
      have differ := plain k annot' arg' rfl
      by_contra again
      have again : arg.same expr = true := by simpa using again
      have := same_trans harg (same_trans again (same_symm hexpr))
      simp [this] at differ

/-- A tree is written if it is the same as a written one and nothing is attached to its nodes. -/
theorem Surface.of_same {t u : Tree} (h : t.Surface) (same : t.same u = true)
    (bare : ∀ n ∈ u.preorder, n.info.Bare) : u.Surface := by
  intro n hn
  obtain ⟨m, hm, hmn⟩ := exists_same_mem_preorder same hn
  exact (h m hm).of_same hmn (bare n hn)

end Tree

end TreeRepair
