import Mathlib.Data.Finset.Card
import Mathlib.Data.Fintype.Basic
import Mathlib.Logic.Relation
import TreeRepair.Checked.Recursion

namespace TreeRepair.Repair

variable (R : Repair)

/-- A repaired node, given how its parts and what it draws on are repaired. -/
def node (deeper inner : Tree → Tree) : Tree → Tree
  | ⟨i, .typeTree (some w)⟩ => ⟨i, .typeTree (some (inner w))⟩
  | ⟨i, .ident name⟩ => R.identifier i name
  | ⟨i, .select q name⟩ => ⟨(R.selection i name).1, .select (inner q) (R.selection i name).2⟩
  | ⟨i, .unapply fn args⟩ =>
    match R.extractor? fn with
    | some e => ⟨{ e.info with marks := {} }, .apply (inner e) (args.map inner)⟩
    | none => ⟨i, .unapply (inner fn) (args.map inner)⟩
  | ⟨i, .valDef mods name tpt rhs⟩ =>
    if R.isStorage i tpt rhs then .empty
    else
      match R.lazyGetter? i.symbol with
      | some s =>
        R.lazyValue deeper s i mods name
          (match R.fieldOf? s with
           | some f => deeper f.tpt
           | none => inner tpt)
          (inner rhs.initializer)
      | none => ⟨i, (Shape.valDef mods name tpt rhs).mapChildren inner⟩
  | ⟨i, .defDef mods name tparams vparamss tpt rhs⟩ =>
    match R.role i.symbol with
    | .setter => .empty
    | .getter s f => R.accessedField deeper s f mods name
    | .lazyValue s =>
      R.lazyValue deeper s i mods name
        (match R.fieldOf? s with
         | some f => deeper f.tpt
         | none => inner tpt)
        (inner rhs.initializer)
    | .method s =>
      ⟨(R.methodParts deeper s i mods name).1,
        .defDef (R.methodParts deeper s i mods name).2 name (tparams.map inner)
          (vparamss.map fun vs => vs.map inner) (inner tpt) (inner rhs)⟩
    | .unresolved => ⟨i, (Shape.defDef mods name tparams vparamss tpt rhs).mapChildren inner⟩
  | ⟨i, s⟩ => ⟨i, (R.setting.settleShape R.usedHelpers s).mapChildren inner⟩

theorem treeWith_eq_node (deeper : Tree → Tree) (t : Tree) :
    R.treeWith deeper t = R.node deeper (R.treeWith deeper) t := by
  obtain ⟨i, s⟩ := t
  cases s with
  | typeTree w => cases w <;> simp [treeWith, node]
  | unapply fn args =>
    simp only [treeWith, node]
    split <;> simp [*]
  | valDef mods name tpt rhs =>
    simp only [treeWith, node]
    rfl
  | defDef mods name tparams vparamss tpt rhs =>
    simp only [treeWith, node]
    rfl
  | _ => simp [treeWith, node]

theorem annotations_congr {deeper deeper' : Tree → Tree} (mods : Modifiers Tree)
    (symbols : List SymbolId)
    (h : ∀ k ∈ symbols.map Source.recorded, ∀ x ∈ R.drawn k, deeper x = deeper' x) :
    R.annotations deeper mods symbols = R.annotations deeper' mods symbols := by
  unfold annotations
  congr 1
  refine List.map_congr_left fun s hs => List.map_congr_left fun a ha => ?_
  exact h (.recorded s) (List.mem_map_of_mem hs) a ha

theorem lazyValue_congr {deeper deeper' : Tree → Tree} {s : SymbolId} (i : Info)
    (mods : Modifiers Tree) (name : Name) (tpt rhs : Tree)
    (h : ∀ k ∈ accessorSources s (R.fieldOf? s), ∀ x ∈ R.drawn k, deeper x = deeper' x) :
    R.lazyValue deeper s i mods name tpt rhs = R.lazyValue deeper' s i mods name tpt rhs := by
  simp only [lazyValue]
  rw [R.annotations_congr mods _ fun k hk => h k (List.mem_cons_of_mem _ hk)]

theorem tpt_mem_drawn {s : SymbolId} {f : Field} (h : R.fieldOf? s = some f) :
    f.tpt ∈ R.drawn (.declared s) := by
  simp only [drawn, h]
  split <;> simp

theorem role_eq_setter {symbol : Option SymbolId} :
    R.role symbol = .setter ↔ ∃ s, symbol = some s ∧ (R.get s).isSetter = true := by
  cases symbol with
  | none => simp [role]
  | some g =>
    simp only [role, lazyGetter?]
    grind

theorem role_eq_getter {symbol : Option SymbolId} {s : SymbolId} {f : Field} :
    R.role symbol = .getter s f ↔ symbol = some s ∧ (R.get s).isSetter = false ∧
      (R.get s).isTerm = true ∧ (R.get s).isLazy = false ∧ (R.get s).isGetter = true ∧
      R.fieldOf? s = some f := by
  cases symbol with
  | none => simp [role]
  | some g =>
    simp only [role, lazyGetter?]
    grind

theorem lazyGetter?_eq_some {symbol : Option SymbolId} {s : SymbolId} :
    R.lazyGetter? symbol = some s ↔ symbol = some s ∧ (R.get s).isTerm = true ∧
      (R.get s).isLazy = true ∧ (R.get s).isGetter = true := by
  simp only [lazyGetter?, Option.filter_eq_some_iff, Bool.and_eq_true, and_assoc]

theorem role_eq_lazyValue {symbol : Option SymbolId} {s : SymbolId} :
    R.role symbol = .lazyValue s ↔ symbol = some s ∧ (R.get s).isSetter = false ∧
      (R.get s).isTerm = true ∧ (R.get s).isLazy = true ∧ (R.get s).isGetter = true := by
  cases symbol with
  | none => simp [role]
  | some g =>
    simp only [role, lazyGetter?]
    grind

theorem role_eq_method {symbol : Option SymbolId} {s : SymbolId} :
    R.role symbol = .method s ↔ symbol = some s ∧ (R.get s).isSetter = false ∧
      (R.get s).isTerm = true ∧
      ((R.get s).isGetter = true → (R.get s).isLazy = false ∧ R.fieldOf? s = none) := by
  cases symbol with
  | none => simp [role]
  | some g =>
    simp only [role, lazyGetter?]
    grind

theorem role_eq_unresolved {symbol : Option SymbolId} :
    R.role symbol = .unresolved ↔ ∀ s, symbol = some s →
      (R.get s).isSetter = false ∧ (R.get s).isTerm = false := by
  cases symbol with
  | none => simp [role]
  | some g =>
    simp only [role, lazyGetter?]
    grind

theorem accessedField_congr {deeper deeper' : Tree → Tree} {s : SymbolId} {f : Field}
    (mods : Modifiers Tree) (name : Name) (field : R.fieldOf? s = some f)
    (eager : (R.get s).isLazy = false)
    (h : ∀ k ∈ accessorSources s (some f), ∀ x ∈ R.drawn k, deeper x = deeper' x) :
    R.accessedField deeper s f mods name = R.accessedField deeper' s f mods name := by
  have declared : ∀ x ∈ R.drawn (.declared s), deeper x = deeper' x :=
    h _ (List.mem_cons_self ..)
  have rhs : f.rhs ∈ R.drawn (.declared s) := by simp [drawn, field, eager]
  simp only [accessedField]
  rw [declared _ (R.tpt_mem_drawn field), declared _ rhs,
    R.annotations_congr mods (s :: f.info.symbol.toList)
      fun k hk => h k (List.mem_cons_of_mem _ hk)]

/-- The type of a lazy value comes from its other declaration, or else from its own. -/
theorem lazyType_congr {deeper deeper' inner inner' : Tree → Tree} {s : SymbolId} {tpt rhs : Tree}
    (h : ∀ k ∈ accessorSources s (R.fieldOf? s), ∀ x ∈ R.drawn k, deeper x = deeper' x)
    (parts : ∀ p ∈ R.lazyParts s tpt rhs, inner p = inner' p) :
    (match R.fieldOf? s with
     | some f => deeper f.tpt
     | none => inner tpt) =
    match R.fieldOf? s with
     | some f => deeper' f.tpt
     | none => inner' tpt := by
  cases field : R.fieldOf? s with
  | none => exact parts _ (by simp [lazyParts, field])
  | some f => exact h (.declared s) (by simp [accessorSources]) _ (R.tpt_mem_drawn field)

theorem initializer_mem_lazyParts (s : SymbolId) (tpt rhs : Tree) :
    rhs.initializer ∈ R.lazyParts s tpt rhs := by
  unfold lazyParts
  split <;> simp

theorem node_congr {deeper deeper' inner inner' : Tree → Tree} {t : Tree}
    (sources : ∀ k ∈ R.sources t, ∀ x ∈ R.drawn k, deeper x = deeper' x)
    (parts : ∀ p ∈ R.parts t, inner p = inner' p) :
    R.node deeper inner t = R.node deeper' inner' t := by
  obtain ⟨i, s⟩ := t
  cases s with
  | typeTree w =>
    cases w with
    | none => rfl
    | some w => simp only [node, parts w (by simp [Repair.parts])]
  | ident name => rfl
  | select q name =>
    simp only [node, parts q (by simp [Repair.parts, Setting.settleShape, Shape.children])]
  | unapply fn args =>
    have arguments : args.map inner = args.map inner' :=
      List.map_congr_left fun a ha => parts a (List.mem_cons_of_mem _ ha)
    have first := parts _ (List.mem_cons_self ..)
    cases extractor : R.extractor? fn <;> simp_all [node]
  | valDef mods name tpt rhs =>
    simp only [Repair.sources, Repair.parts] at sources parts
    simp only [node]
    split
    next => rfl
    next storage =>
      rw [if_neg storage] at sources parts
      split
      next s lazyGetter =>
        simp only [lazyGetter] at sources parts
        rw [R.lazyType_congr sources parts, parts _ (R.initializer_mem_lazyParts s tpt rhs),
          R.lazyValue_congr _ _ _ _ _ sources]
      next lazyGetter =>
        simp only [lazyGetter] at parts
        rw [Shape.mapChildren_congr parts]
  | defDef mods name tparams vparamss tpt rhs =>
    simp only [Repair.sources, Repair.parts] at sources parts
    simp only [node]
    split
    next => rfl
    next s f role =>
      simp only [role] at sources
      obtain ⟨-, -, -, eager, -, field⟩ := R.role_eq_getter.mp role
      exact R.accessedField_congr mods name field eager sources
    next s role =>
      simp only [role] at sources parts
      rw [R.lazyType_congr sources parts, parts _ (R.initializer_mem_lazyParts s tpt rhs),
        R.lazyValue_congr _ _ _ _ _ sources]
    next s role =>
      simp only [role] at sources parts
      have types : tparams.map inner = tparams.map inner' :=
        List.map_congr_left fun p hp => parts p (by simp [hp])
      have values : (vparamss.map fun vs => vs.map inner) = vparamss.map fun vs => vs.map inner' :=
        List.map_congr_left fun vs hvs => List.map_congr_left fun p hp =>
          parts p (by simp only [List.mem_append, List.mem_flatten]; exact .inl (.inr ⟨vs, hvs, hp⟩))
      simp only [methodParts]
      rw [types, values, parts tpt (by simp), parts rhs (by simp),
        R.annotations_congr mods [s] sources]
    next role =>
      simp only [role] at parts
      rw [Shape.mapChildren_congr parts]
  | _ =>
    exact congrArg (Tree.mk i)
      (Shape.mapChildren_congr (s := R.setting.settleShape R.usedHelpers _) parts)

end TreeRepair.Repair
