import TreeRepair.Proofs.AddedAnnotations
import TreeRepair.Proofs.RepairReach

namespace TreeRepair

open Relation

/-- A method declaration. -/
structure Method where
  info : Info
  mods : Modifiers Tree
  name : Name
  tparams : List Tree
  vparamss : List (List Tree)
  tpt : Tree
  rhs : Tree

def Method.toTree (m : Method) : Tree :=
  ⟨m.info, .defDef m.mods m.name m.tparams m.vparamss m.tpt m.rhs⟩

/-- Whether a tree declares a value or a method under a symbol. -/
def Tree.declares (s : SymbolId) : Tree → Bool
  | ⟨i, .valDef _ _ _ _⟩ | ⟨i, .defDef _ _ _ _ _ _⟩ => i.symbol = some s
  | _ => false

/-- A tree in which nothing is declared. -/
def Tree.Undeclaring (t : Tree) : Prop := ∀ n, t.Contains n → ∀ s, n.declares s = false

namespace Repair

variable (R : Repair)

theorem declares_lazyValue {deeper : Tree → Tree} {s g : SymbolId} {i : Info}
    {mods : Modifiers Tree} {name : Name} {tpt rhs : Tree} :
    (R.lazyValue deeper g i mods name tpt rhs).declares s = true ↔ g = s := by
  simp [lazyValue, Tree.declares]

theorem not_declares_path {W : Setting} {n : Nat} {v : SymbolId} {t : Tree}
    (h : t.shape = (W.pathWithin n v).shape) (s : SymbolId) : t.declares s = false := by
  obtain ⟨i, shape⟩ := t
  subst h
  cases n with
  | zero => rfl
  | succ n =>
    simp only [Setting.pathWithin]
    split
    · rfl
    · split <;> rfl

theorem not_declares_identifier (i : Info) (name : Name) (s : SymbolId) :
    (R.identifier i name).declares s = false := by
  unfold identifier
  split
  next v _ =>
    split
    · have path : ((R.setting.path v).takeInfo ⟨i, .ident name⟩).shape =
          (R.setting.pathWithin R.setting.symbols.bound v).shape := rfl
      exact not_declares_path path s
    · rfl
  next => rfl

/-- A repair makes no declaration of what is not declared. -/
theorem declares_of_node {deeper inner : Tree → Tree} {t : Tree} {s : SymbolId}
    (h : (R.node deeper inner t).declares s = true) : t.declares s = true := by
  obtain ⟨i, shape⟩ := t
  cases shape with
  | typeTree w => cases w <;> simp [node, Tree.declares, Setting.settleShape, Shape.mapChildren] at h
  | ident name =>
    rw [node, R.not_declares_identifier] at h
    contradiction
  | unapply fn args => cases extractor : R.extractor? fn <;> simp [node, extractor, Tree.declares] at h
  | valDef mods name tpt rhs =>
    simp only [node] at h
    split at h
    next => contradiction
    next =>
      split at h
      next g lazyGetter =>
        have carried := (R.lazyGetter?_eq_some.mp lazyGetter).1
        simpa [Tree.declares, carried] using R.declares_lazyValue.mp h
      next => exact h
  | defDef mods name tparams vparamss tpt rhs =>
    simp only [node] at h
    split at h
    next => contradiction
    next g f role =>
      have carried := (R.role_eq_getter.mp role).1
      simpa [Tree.declares, accessedField, carried] using h
    next g role =>
      have carried := (R.role_eq_lazyValue.mp role).1
      simpa [Tree.declares, carried] using R.declares_lazyValue.mp h
    next g role =>
      have carried := (R.role_eq_method.mp role).1
      simp only [Tree.declares, methodParts, carried] at h ⊢
      split at h
      · simp at h
      · exact h
    next => exact h
  | block stats expr =>
    simp only [node, Setting.settleShape] at h
    split at h <;> simp [Shape.mapChildren, Tree.declares] at h
  | _ => simp [node, Tree.declares, Setting.settleShape, Shape.mapChildren] at h

theorem declares_of_tree {t : Tree} {s : SymbolId} (ends : R.descent.Ends t)
    (h : (R.tree t).declares s = true) : t.declares s = true := by
  rw [R.tree_eq_node ends] at h
  exact R.declares_of_node h

theorem mem_annotations {deeper : Tree → Tree} {mods : Modifiers Tree} {symbols : List SymbolId}
    {a : Tree} (h : a ∈ R.annotations deeper mods symbols) : a ∈ mods.annotations ∨
      ∃ k ∈ symbols.map Source.recorded, ∃ y ∈ R.drawn k, a = deeper y := by
  rcases mem_addAnnotations h with declared | ⟨l, hl, ha⟩
  · exact .inl declared
  · obtain ⟨s, hs, rfl⟩ := List.mem_map.mp hl
    obtain ⟨y, hy, rfl⟩ := List.mem_map.mp ha
    exact .inr ⟨.recorded s, List.mem_map_of_mem hs, y, hy, rfl⟩

theorem mem_subtrees_lazyValue {deeper inner : Tree → Tree} {s : SymbolId} {i : Info}
    {mods : Modifiers Tree} {name : Name} {tpt rhs c : Tree}
    (h : c ∈ (R.lazyValue deeper s i mods name
      (match R.fieldOf? s with
       | some f => deeper f.tpt
       | none => inner tpt) (inner rhs.initializer)).subtrees) :
    (∃ p ∈ R.lazyParts s tpt rhs, c = inner p) ∨
      (∃ k ∈ accessorSources s (R.fieldOf? s), ∃ y ∈ R.drawn k, c = deeper y) ∨
      c ∈ mods.annotations := by
  have declared (f : Field) (field : R.fieldOf? s = some f) :
      ∃ k ∈ accessorSources s (some f), ∃ y ∈ R.drawn k, deeper f.tpt = deeper y :=
    ⟨.declared s, declared_mem_accessorSources.mpr rfl, _, R.tpt_mem_drawn field, rfl⟩
  simp only [lazyValue, Tree.subtrees, Shape.subtrees, Shape.children, Shape.written,
    Option.toList_none, List.append_nil, List.mem_append, List.mem_cons, List.not_mem_nil,
    or_false] at h
  rcases h with annotation | rfl | rfl
  · rcases R.mem_annotations annotation with raw | ⟨k, hk, drawn⟩
    · exact .inr (.inr raw)
    · exact .inr (.inl ⟨k, List.mem_cons_of_mem _ hk, drawn⟩)
  · cases field : R.fieldOf? s with
    | none => exact .inl ⟨tpt, by simp [lazyParts, field], rfl⟩
    | some f => exact .inr (.inl (declared f field))
  · exact .inl ⟨_, R.initializer_mem_lazyParts s tpt rhs, rfl⟩

theorem mem_subtrees_path {W : Setting} {n : Nat} {v : SymbolId} {c : Tree}
    (h : c ∈ (W.pathWithin n v).shape.subtrees) : ∃ m o, n = m + 1 ∧ c = W.pathWithin m o := by
  cases n with
  | zero => simp [Setting.pathWithin, Tree.bare, Shape.subtrees, Shape.children, Shape.written] at h
  | succ n =>
    simp only [Setting.pathWithin] at h
    split at h
    · simp [Tree.bare, Shape.subtrees, Shape.children, Shape.written] at h
    · split at h
      · simp [Tree.bare, Shape.subtrees, Shape.children, Shape.written] at h
      next o _ =>
        refine ⟨n, o, rfl, ?_⟩
        simpa [Tree.bare, Shape.subtrees, Shape.children, Shape.written] using h

/-- Everything in a path is a path. -/
theorem contains_path {W : Setting} {n : Nat} {v : SymbolId} {c : Tree}
    (h : (W.pathWithin n v).Contains c) : ∃ m o, c = W.pathWithin m o := by
  induction h with
  | refl => exact ⟨n, v, rfl⟩
  | tail _ hc ih =>
    obtain ⟨m, o, rfl⟩ := ih
    obtain ⟨k, p, -, rfl⟩ := mem_subtrees_path hc
    exact ⟨k, p, rfl⟩

theorem undeclaring_path {W : Setting} {n : Nat} {v : SymbolId} :
    (W.pathWithin n v).Undeclaring := by
  intro c hc s
  obtain ⟨m, o, rfl⟩ := contains_path hc
  exact not_declares_path rfl s

/-- The annotations of a declaration that its repair leaves unrepaired. -/
def rawAnnotations : Tree → List Tree
  | ⟨i, .valDef mods _ _ _⟩ => if (R.lazyGetter? i.symbol).isSome then mods.annotations else []
  | ⟨i, .defDef mods _ _ _ _ _⟩ =>
    match R.role i.symbol with
    | .setter | .unresolved => []
    | _ => mods.annotations
  | _ => []

theorem mem_children_of_mem_rawAnnotations {x c : Tree} (h : c ∈ R.rawAnnotations x) :
    c ∈ x.children := by
  obtain ⟨i, s⟩ := x
  cases s with
  | valDef mods name tpt rhs =>
    simp only [rawAnnotations] at h
    split at h
    · simp [Tree.children, Shape.children, h]
    · simp at h
  | defDef mods name tparams vparamss tpt rhs =>
    simp only [rawAnnotations] at h
    split at h
    · simp at h
    · simp at h
    · simp [Tree.children, Shape.children, h]
  | _ => simp [rawAnnotations] at h

/-- What stands below a repaired node: repaired parts, what it draws on, annotations as they were,
or the path of a name. -/
theorem mem_subtrees_node {deeper inner : Tree → Tree} {x c : Tree}
    (h : c ∈ (R.node deeper inner x).subtrees) :
    (∃ p ∈ R.parts x, c = inner p) ∨ (∃ k ∈ R.sources x, ∃ y ∈ R.drawn k, c = deeper y) ∨
      c ∈ R.rawAnnotations x ∨ ∃ n v, c = R.setting.pathWithin n v := by
  obtain ⟨i, s⟩ := x
  have mapped {i : Info} {s : Shape Tree} (notResolved : s.written = none)
      (h : c ∈ (⟨i, s.mapChildren inner⟩ : Tree).subtrees) : ∃ p ∈ s.children, c = inner p := by
    simp only [Tree.subtrees, Shape.subtrees, Shape.children_mapChildren, Shape.written_mapChildren,
      notResolved, Option.toList_none, List.append_nil, List.mem_map] at h
    obtain ⟨p, hp, rfl⟩ := h
    exact ⟨p, hp, rfl⟩
  cases s with
  | typeTree w =>
    cases w with
    | none => exact .inl (mapped rfl h)
    | some w => simp_all [node, parts, Tree.subtrees, Shape.subtrees, Shape.children, Shape.written]
  | ident name =>
    simp only [node, identifier] at h
    split at h
    · split at h
      · obtain ⟨m, o, -, rfl⟩ := mem_subtrees_path h
        exact .inr (.inr (.inr ⟨m, o, rfl⟩))
      · simp [Tree.subtrees, Shape.subtrees, Shape.children, Shape.written] at h
    · simp [Tree.subtrees, Shape.subtrees, Shape.children, Shape.written] at h
  | select q name =>
    exact .inl (by simpa [node, parts, Setting.settleShape, Tree.subtrees, Shape.subtrees,
      Shape.children, Shape.written] using h)
  | unapply fn args =>
    left
    cases extractor : R.extractor? fn <;>
      simpa [node, parts, extractor, Tree.subtrees, Shape.subtrees, Shape.children,
        Shape.written, eq_comm] using h
  | valDef mods name tpt rhs =>
    simp only [node] at h
    simp only [parts, sources]
    split at h
    next => simp [Tree.subtrees, Shape.subtrees, Tree.empty, Tree.bare, Shape.children,
        Shape.written] at h
    next storage =>
      simp only [if_neg storage]
      cases lazyGetter : R.lazyGetter? i.symbol with
      | some g =>
        simp only [lazyGetter] at h ⊢
        rcases R.mem_subtrees_lazyValue h with part | drawn | raw
        · exact .inl part
        · exact .inr (.inl drawn)
        · exact .inr (.inr (.inl (by simp [rawAnnotations, lazyGetter, raw])))
      | none =>
        simp only [lazyGetter] at h ⊢
        exact .inl (mapped rfl h)
  | defDef mods name tparams vparamss tpt rhs =>
    simp only [node] at h
    simp only [parts, sources]
    split at h
    next => simp [Tree.subtrees, Shape.subtrees, Tree.empty, Tree.bare, Shape.children,
        Shape.written] at h
    next g f role =>
      simp only [role]
      obtain ⟨-, -, -, eager, -, field⟩ := R.role_eq_getter.mp role
      simp only [accessedField, Tree.subtrees, Shape.subtrees, Shape.children, Shape.written,
        Option.toList_none, List.append_nil, List.mem_append, List.mem_cons, List.not_mem_nil,
        or_false] at h
      have declared : .declared g ∈ accessorSources g (some f) :=
        declared_mem_accessorSources.mpr rfl
      rcases h with annotation | rfl | rfl
      · rcases R.mem_annotations annotation with ha | ⟨k, hk, drawn⟩
        · exact .inr (.inr (.inl (by simp [rawAnnotations, role, ha])))
        · exact .inr (.inl ⟨k, List.mem_cons_of_mem _ hk, drawn⟩)
      · exact .inr (.inl ⟨_, declared, f.tpt, R.tpt_mem_drawn field, rfl⟩)
      · exact .inr (.inl ⟨_, declared, f.rhs, by simp [drawn, field, eager], rfl⟩)
    next g role =>
      simp only [role]
      rcases R.mem_subtrees_lazyValue h with part | drawn | ha
      · exact .inl part
      · exact .inr (.inl drawn)
      · exact .inr (.inr (.inl (by simp [rawAnnotations, role, ha])))
    next g role =>
      simp only [role]
      have h := (List.mem_append.mp h).resolve_right (by simp [Shape.written])
      simp only [methodParts, Shape.children, List.append_assoc] at h
      rcases List.mem_append.mp h with annotation | below
      · rcases R.mem_annotations annotation with ha | drawn
        · exact .inr (.inr (.inl (by simp [rawAnnotations, role, ha])))
        · exact .inr (.inl drawn)
      · left
        have : c ∈ ((Shape.defDef {} name tparams vparamss tpt rhs).mapChildren inner).children := by
          simpa [Shape.mapChildren, Shape.children] using below
        rw [Shape.children_mapChildren] at this
        obtain ⟨p, hp, rfl⟩ := List.mem_map.mp this
        exact ⟨p, by simpa [Shape.children] using hp, rfl⟩
    next role =>
      simp only [role]
      exact .inl (mapped rfl h)
  | block stats expr =>
    left
    simp only [node, parts] at h ⊢
    refine mapped ?_ h
    simp only [Setting.settleShape]
    split <;> rfl
  | _ => exact .inl (mapped rfl h)

end Repair

end TreeRepair
