import TreeRepair.Setting

namespace TreeRepair

namespace Setting

variable (W : Setting)

/-- Whether a module is generated, declares nothing but perhaps a constructor without parameters,
and inherits nothing. -/
def isEmptyModule (mods : Modifiers Tree) (impl : Tree) : Bool :=
  match impl.shape with
  | .template parents self body =>
    mods.has .synthetic && self.isEmpty &&
      (match body with
       | [] => true
       | [⟨_, .defDef _ name [] [[]] _ _⟩] => name = .term W.conventions.constructorName
       | _ => false) &&
      (match parents with
       | [] => true
       | [p] => p.info.type.any fun t => t.same W.builtins.anyRefType
       | _ => false)
  | _ => false

/-- What an ascription stands for, if it is not an ascription as written: the annotated form of its
expression, or the expression itself. The mark of a method taken as a value stays. -/
def ascribed? (expr tpt : Tree) : Option Tree :=
  match tpt with
  | ⟨_, .function [] ⟨_, .empty⟩⟩ => none
  | ⟨i, .annotated annot arg⟩ =>
    if arg.same expr then some ⟨i, .annotated annot arg⟩
    else if tpt.isType then none
    else some expr
  | ⟨_, .typeTree (some ⟨i, .annotated annot arg⟩)⟩ => some ⟨i, .annotated annot arg⟩
  | t => if t.isType then none else some expr

theorem size_lt_of_ascribed? {i : Info} {expr tpt u : Tree} (h : ascribed? expr tpt = some u) :
    u.size < (⟨i, .typed expr tpt⟩ : Tree).size := by
  have hexpr : expr.size < (⟨i, .typed expr tpt⟩ : Tree).size :=
    Tree.size_lt_of_mem_children (by simp [Tree.children, Shape.children])
  have htpt : tpt.size < (⟨i, .typed expr tpt⟩ : Tree).size :=
    Tree.size_lt_of_mem_children (by simp [Tree.children, Shape.children])
  unfold ascribed? at h
  split at h
  · simp at h
  · split at h
    · cases h
      exact htpt
    · split at h
      · simp at h
      · cases h
        exact hexpr
  next j k annot arg =>
    cases h
    refine Nat.lt_trans (Tree.size_lt_of_mem_subtrees ?_) htpt
    simp [Tree.subtrees, Shape.subtrees, Shape.children, Shape.written]
  · split at h
    · simp at h
    · cases h
      exact hexpr

/-- Whether a reference to this symbol is resolved anew: it names a lazy value. -/
def isLazyTerm (s : Option SymbolId) : Bool :=
  s.any fun s => (W.symbols.get s).isTerm && (W.symbols.get s).isLazy

/-- A function that is a module loses its symbol, since its application calls a method. -/
def releaseModule (fn : Tree) : Tree :=
  if fn.symbol.any fun s => (W.symbols.get s).isModule then fn.detached else fn

theorem size_releaseModule (fn : Tree) : (W.releaseModule fn).size = fn.size := by
  unfold releaseModule
  split
  · obtain ⟨i, s⟩ := fn
    simp [Tree.detached, Tree.size_mk]
  · rfl

/-- Removes from a tree whose symbols and types were reset what the reset leaves of the checker's
work. -/
def cleanReset : Tree → Tree
  | ⟨i, .typeTree (some w)⟩ => ⟨i, .typeTree (some (cleanReset w))⟩
  | ⟨i, .apply fn args⟩ =>
    ⟨i, .apply (cleanReset (W.releaseModule fn)) (args.map cleanReset)⟩
  | ⟨i, .typed expr tpt⟩ =>
    match _h : ascribed? expr tpt with
    | some u => ⟨u.info, u.shape.pmapChildren fun c _ => cleanReset c⟩
    | none => ⟨i, .typed (cleanReset expr) (cleanReset tpt)⟩
  | ⟨i, .ident name⟩ => ⟨if W.isLazyTerm i.symbol then i.detached else i, .ident name⟩
  | ⟨i, .defDef mods name tparams vparamss tpt rhs⟩ =>
    if (mods.has .synthetic || mods.has .defaultParam) &&
        Text.contains name.text W.conventions.defaultMarker then .empty
    else
      ⟨i, (Shape.defDef mods name tparams vparamss tpt rhs).pmapChildren fun c _ => cleanReset c⟩
  | ⟨i, .moduleDef mods name impl⟩ =>
    let impl' := cleanReset impl
    if W.isEmptyModule mods impl' then .empty
    else
      ⟨i, .moduleDef { mods with annotations := mods.annotations.map cleanReset } name impl'⟩
  | ⟨i, s⟩ => ⟨i, s.pmapChildren fun c _ => cleanReset c⟩
termination_by t => t.size
decreasing_by
  all_goals first
    | exact Tree.size_lt_of_mem_children ‹_›
    | refine Nat.lt_trans (Tree.size_lt_of_mem_children ‹_›) (size_lt_of_ascribed? _h)
    | refine Nat.lt_of_le_of_lt (Nat.le_of_eq (W.size_releaseModule fn))
        (Tree.size_lt_of_mem_children ?_)
      simp [Tree.children, Shape.children]
    | refine Tree.size_lt_of_mem_subtrees ?_
      simp [Tree.subtrees, Shape.subtrees, Shape.children, Shape.written, *]

end Setting

end TreeRepair
