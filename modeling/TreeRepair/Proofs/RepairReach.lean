import TreeRepair.Proofs.RepairEnds

namespace TreeRepair

open Relation

/-- A tree and everything below it, in written forms of resolved types too. -/
def Tree.Contains : Tree → Tree → Prop := ReflTransGen fun t c => c ∈ t.subtrees

namespace Repair

variable (R : Repair)

/-- The trees whose repair becomes part of the repaired tree: parts of what is reached already, and
the declarations that accessors stand for. -/
inductive Reaches (t : Tree) : Tree → Prop
  | refl : Reaches t t
  | part {x p : Tree} (above : Reaches t x) (mem : p ∈ R.parts x) : Reaches t p
  | field {x y : Tree} {s : SymbolId} (above : Reaches t x) (used : .declared s ∈ R.sources x)
      (mem : y ∈ R.drawn (.declared s)) : Reaches t y

variable {R} in
theorem Reaches.ends {t x : Tree} (h : R.Reaches t x) (ends : R.descent.Ends t) : R.descent.Ends x := by
  induction h with
  | refl => exact ends
  | part above mem ih => exact ih.of_visits (.single mem)
  | field above used mem ih => exact ih.of_drawn used mem

theorem mem_lazyParts {s : SymbolId} {tpt rhs p : Tree} (h : p ∈ R.lazyParts s tpt rhs) :
    p = rhs.initializer ∨ p = tpt ∧ R.fieldOf? s = none := by
  cases field : R.fieldOf? s <;> simp_all [lazyParts]
  exact h.symm

theorem inner_mem_lazyValue (deeper inner : Tree → Tree) {s : SymbolId} (i : Info)
    (mods : Modifiers Tree) (name : Name) {tpt rhs p : Tree} (h : p ∈ R.lazyParts s tpt rhs) :
    inner p ∈ (R.lazyValue deeper s i mods name
      (match R.fieldOf? s with
       | some f => deeper f.tpt
       | none => inner tpt) (inner rhs.initializer)).subtrees := by
  rcases R.mem_lazyParts h with rfl | ⟨rfl, field⟩
  · simp [lazyValue, Tree.subtrees, Shape.subtrees, Shape.children]
  · simp [lazyValue, Tree.subtrees, Shape.subtrees, Shape.children, field]

/-- What a node is made up of is found below it once it is repaired. -/
theorem inner_mem_node (deeper inner : Tree → Tree) {t p : Tree} (h : p ∈ R.parts t) :
    inner p ∈ (R.node deeper inner t).subtrees := by
  obtain ⟨i, s⟩ := t
  have mapped {i : Info} {s : Shape Tree} (h : p ∈ s.children) :
      inner p ∈ (⟨i, s.mapChildren inner⟩ : Tree).subtrees := by
    simp only [Tree.subtrees, Shape.subtrees, Shape.children_mapChildren]
    exact List.mem_append_left _ (List.mem_map_of_mem h)
  cases s with
  | typeTree w =>
    cases w with
    | none => exact mapped h
    | some w => simp_all [parts, node, Tree.subtrees, Shape.subtrees, Shape.written]
  | ident name => simp [parts, Setting.settleShape, Shape.children] at h
  | select q name =>
    simp_all [parts, node, Setting.settleShape, Tree.subtrees, Shape.subtrees, Shape.children]
  | unapply fn args =>
    cases extractor : R.extractor? fn <;>
      simp_all [parts, node, Tree.subtrees, Shape.subtrees, Shape.children] <;> grind
  | valDef mods name tpt rhs =>
    simp only [parts] at h
    simp only [node]
    split
    next storage => simp [storage] at h
    next storage =>
      rw [if_neg storage] at h
      split
      next s lazyGetter =>
        simp only [lazyGetter] at h
        exact R.inner_mem_lazyValue deeper inner i mods name h
      next lazyGetter =>
        simp only [lazyGetter] at h
        exact mapped h
  | defDef mods name tparams vparamss tpt rhs =>
    simp only [parts] at h
    simp only [node]
    split
    next role => simp [role] at h
    next role => simp [role] at h
    next s role =>
      simp only [role] at h
      exact R.inner_mem_lazyValue deeper inner i mods name h
    next s role =>
      simp only [role] at h
      have below : inner p ∈
          ((Shape.defDef {} name tparams vparamss tpt rhs).mapChildren inner).children := by
        rw [Shape.children_mapChildren]
        exact List.mem_map_of_mem (by simpa [Shape.children] using h)
      refine List.mem_append_left _ ?_
      simp only [Shape.mapChildren, Shape.children, List.map_nil, List.nil_append,
        List.append_assoc] at below ⊢
      exact List.mem_append_right _ below
    next role =>
      simp only [role] at h
      exact mapped h
  | _ => exact mapped h

theorem declared_mem_accessorSources {s g : SymbolId} {f : Option Field} :
    .declared s ∈ accessorSources g f ↔ s = g := by
  simp [accessorSources]

theorem deeper_mem_lazyValue (deeper : Tree → Tree) (inner : Tree) {s : SymbolId} (i : Info)
    (mods : Modifiers Tree) (name : Name) (rhs : Tree) {y : Tree} (isLazy : (R.get s).isLazy = true)
    (h : y ∈ R.drawn (.declared s)) :
    deeper y ∈ (R.lazyValue deeper s i mods name
      (match R.fieldOf? s with
       | some f => deeper f.tpt
       | none => inner) rhs).subtrees := by
  cases field : R.fieldOf? s with
  | none => simp [drawn, field] at h
  | some f =>
    have : y = f.tpt := by simpa [drawn, field, isLazy] using h
    simp [lazyValue, Tree.subtrees, Shape.subtrees, Shape.children, this]

/-- The declaration that an accessor stands for is found below it once it is repaired. -/
theorem deeper_mem_node (deeper inner : Tree → Tree) {t y : Tree} {s : SymbolId}
    (used : .declared s ∈ R.sources t) (h : y ∈ R.drawn (.declared s)) :
    deeper y ∈ (R.node deeper inner t).subtrees := by
  obtain ⟨i, shape⟩ := t
  cases shape with
  | valDef mods name tpt rhs =>
    simp only [sources] at used
    simp only [node]
    split
    next storage => simp [storage] at used
    next storage =>
      rw [if_neg storage] at used
      split
      next g lazyGetter =>
        simp only [lazyGetter] at used
        obtain rfl := declared_mem_accessorSources.mp used
        have isLazy := (R.lazyGetter?_eq_some.mp lazyGetter).2.2.1
        exact R.deeper_mem_lazyValue deeper _ i mods name _ isLazy h
      next lazyGetter => simp [lazyGetter] at used
  | defDef mods name tparams vparamss tpt rhs =>
    simp only [sources] at used
    simp only [node]
    split
    next role => simp [role] at used
    next g f role =>
      simp only [role] at used
      obtain rfl := declared_mem_accessorSources.mp used
      obtain ⟨-, -, -, eager, -, field⟩ := R.role_eq_getter.mp role
      have : y = f.tpt ∨ y = f.rhs := by simpa [drawn, field, eager] using h
      rcases this with rfl | rfl <;>
        simp [accessedField, Tree.subtrees, Shape.subtrees, Shape.children]
    next g role =>
      simp only [role] at used
      obtain rfl := declared_mem_accessorSources.mp used
      have isLazy := (R.role_eq_lazyValue.mp role).2.2.2.1
      exact R.deeper_mem_lazyValue deeper _ i mods name _ isLazy h
    next g role => simp [role] at used
    next role => simp [role] at used
  | _ => simp [sources] at used

theorem Reaches.contains {R : Repair} {t x : Tree} (h : R.Reaches t x) (ends : R.descent.Ends t) :
    (R.tree t).Contains (R.tree x) := by
  induction h with
  | refl => exact .refl
  | part above mem ih =>
    refine ih.tail ?_
    rw [R.tree_eq_node (above.ends ends)]
    exact R.inner_mem_node R.tree R.tree mem
  | field above used mem ih =>
    refine ih.tail ?_
    rw [R.tree_eq_node (above.ends ends)]
    exact R.deeper_mem_node R.tree R.tree used mem

end Repair

end TreeRepair
