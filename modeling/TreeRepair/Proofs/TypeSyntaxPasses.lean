import TreeRepair.Proofs.SurfacePasses
import TreeRepair.Proofs.TypeSyntax

namespace TreeRepair

variable {W : Setting} {P : Ty → Prop}

theorem TypeSyntaxNode.symbol {n : Tree} (h : TypeSyntaxNode P n) : n.info.symbol = none := by
  rcases h.attached with bare | ⟨u, rfl, -⟩
  · rw [bare]
  · rfl

theorem TypeSyntaxNode.pos {n : Tree} (h : TypeSyntaxNode P n) : n.info.pos = {} := by
  rcases h.attached with bare | ⟨u, rfl, -⟩
  · rw [bare]
  · rfl

theorem TypeSyntaxNode.marks {n : Tree} (h : TypeSyntaxNode P n) : n.info.marks = {} := by
  rcases h.attached with bare | ⟨u, rfl, -⟩
  · rw [bare]
  · rfl

/-- Only a type that is carried along has a type attached to it. -/
theorem TypeSyntaxNode.type {i : Info} {s : Shape Tree} (h : TypeSyntaxNode P ⟨i, s⟩) {u : Ty}
    (type : i.type = some u) : (⟨i, s⟩ : Tree) = .resolved u ∧ P u := by
  rcases h.attached with bare | ⟨v, same, unwritten⟩
  · obtain rfl : i = {} := bare
    simp at type
  · cases same
    cases type
    exact ⟨rfl, unwritten⟩

theorem TypeSyntaxNode.untyped {i : Info} {s : Shape Tree} (h : TypeSyntaxNode P ⟨i, s⟩)
    (syntactic : s ≠ .typeTree none) : i.type = none := by
  cases type : i.type with
  | none => rfl
  | some u =>
    have shape := congrArg Tree.shape (h.type type).1
    exact absurd shape syntactic

theorem TypeSyntax.symbol {t : Tree} (h : TypeSyntax P t) : t.symbol = none :=
  (h t t.self_mem_preorder).symbol

/-- No checker has found out anything about type syntax, so a repair has nothing to do. -/
theorem TypeSyntax.treeWith {t : Tree} (h : TypeSyntax P t) (R : Repair) (deeper : Tree → Tree) :
    R.treeWith deeper t = t := by
  induction t using Tree.mem_children_induct with
  | node i s ih =>
    obtain ⟨node, below⟩ := typeSyntax_mk.mp h
    have kind : s.isTypeSyntax = true := node.kind
    have resolved : s.written = none := by
      cases s with
      | typeTree w => cases w <;> simp_all [Shape.isTypeSyntax, Shape.written]
      | _ => rfl
    have extracted (fn : Tree) (args : List Tree) : s ≠ .unapply fn args := by
      rintro rfl
      simp [Shape.isTypeSyntax] at kind
    have noHelper (c : Tree) (hc : c ∈ s.children) : R.setting.isDefaultHelper c = false :=
      R.setting.isDefaultHelper_of_unresolved (below c hc).symbol
    rw [R.treeWith_unresolved deeper node.symbol resolved extracted noHelper,
      Shape.mapChildren_eq_self fun c hc => ih c hc (below c hc)]

theorem TypeSyntax.repairChecked {t : Tree} (h : TypeSyntax P t) (owner : Option SymbolId) :
    W.repairChecked owner t = t := by
  let R := Repair.ofTree W owner t
  change R.treeWithin (R.fields.length + (R.setting.symbols.entries.length + 2)) t = t
  exact h.treeWith R _

/-- Neither classes nor modules are type syntax. -/
theorem TypeSyntax.cleanStatement {t : Tree} (h : TypeSyntax P t) (C : Conventions)
    (names : List Name) : C.cleanStatement names t = t := by
  have kind := (h t t.self_mem_preorder).kind
  obtain ⟨i, s⟩ := t
  cases s <;> first | rfl | simp [Shape.isTypeSyntax] at kind

theorem TypeSyntax.cleanShape {i : Info} {s : Shape Tree} (h : TypeSyntax P ⟨i, s⟩)
    (C : Conventions) : C.cleanShape s = s := by
  obtain ⟨-, below⟩ := typeSyntax_mk.mp h
  have kept := C.mapChildren_cleanShape (g := id) (fun c _ => rfl) fun names c hc =>
    (below c hc).cleanStatement C names
  have same := Shape.mapChildren_eq_self (s := C.cleanShape s) (f := id) fun _ _ => rfl
  exact same.symm.trans kept

theorem TypeSyntax.cleanTree {t : Tree} (h : TypeSyntax P t) (C : Conventions) :
    C.cleanTree t = t := by
  induction t using Tree.mem_children_induct with
  | node i s ih =>
    obtain ⟨-, below⟩ := typeSyntax_mk.mp h
    rw [Conventions.cleanTree_mk, h.cleanShape C,
      Shape.mapChildren_eq_self fun c hc => ih c hc (below c hc)]

theorem TypeSyntax.misplaced {t : Tree} (h : TypeSyntax P t) (C : Conventions) :
    C.misplaced t = [] := by
  induction t using Tree.mem_children_induct with
  | node i s ih =>
    obtain ⟨node, below⟩ := typeSyntax_mk.mp h
    have plain : s.caseName? = none := by
      have kind : s.isTypeSyntax = true := node.kind
      cases s <;> first | rfl | simp [Shape.isTypeSyntax] at kind
    rw [Conventions.misplaced_mk, plain, h.cleanShape C,
      List.flatMap_eq_nil_iff.mpr fun c hc => ih c hc (below c hc)]
    simp

/-- Of type syntax, only types without a written form can refer to a symbol, and these are written
out as they are. -/
theorem TypeSyntax.detach {t : Tree} (h : TypeSyntax W.Unwritten t) (symbols : List SymbolId) :
    W.detach symbols t = t := by
  induction t using Tree.mem_children_induct with
  | node i s ih =>
    obtain ⟨node, below⟩ := typeSyntax_mk.mp h
    have marks : i.marks.cleaned = false := by rw [show i.marks = {} from node.marks]
    have symbol : i.symbol = none := node.symbol
    rw [Setting.detach, if_neg (by simp [marks])]
    split
    next u outdated =>
      obtain ⟨w, hw, type⟩ : ∃ w, s = .typeTree w ∧ i.type = some u := by
        unfold Setting.outdatedType? at outdated
        split at outdated
        next w v type =>
          split at outdated
          · exact ⟨w, rfl, outdated ▸ type⟩
          · simp at outdated
        next => simp at outdated
      obtain ⟨same, unwritten⟩ := node.type type
      rw [same]
      exact unwritten
    next =>
      simp only [symbol, Setting.refersTo, Option.any_none, Bool.false_eq_true, if_false,
        Shape.pmapChildren_eq]
      rw [Shape.mapChildren_eq_self fun c hc => ih c hc (below c hc)]

theorem TypeSyntax.restoreCaseClasses {t : Tree} (h : TypeSyntax W.Unwritten t) :
    W.restoreCaseClasses t = .ok (t, []) := by
  simp only [Setting.restoreCaseClasses, h.cleanStatement, h.misplaced, h.cleanTree, h.detach]
  cases W.conventions.strict <;> rfl

/-- Declared types stay, since no value stands beside them from which they could be inferred. -/
theorem TypeSyntax.cleanTypes {t : Tree} (h : TypeSyntax W.Unwritten t) (defined : List SymbolId) :
    W.cleanTypes defined t = t := by
  induction t using Tree.mem_children_induct with
  | node i s ih =>
    obtain ⟨node, below⟩ := typeSyntax_mk.mp h
    have kind : s.isTypeSyntax = true := node.kind
    have fixed (c : Tree) (hc : c ∈ s.children) : W.cleanTypes defined c = c := ih c hc (below c hc)
    have rebuilt := Shape.mapChildren_eq_self fixed
    have released (syntactic : s ≠ .typeTree none) : W.releaseTyped defined i = i := by
      simp [Setting.releaseTyped, node.untyped syntactic]
    cases s with
    | typeTree w =>
      cases w with
      | some w => simp [Shape.isTypeSyntax] at kind
      | none =>
        rw [Setting.cleanTypes, Setting.inferredType]
        split
        next u type =>
          obtain ⟨same, unwritten⟩ := node.type type
          rw [show W.writtenType u = .resolved u from unwritten, same, ite_self]
        next => rfl
    | defDef mods name tparams vparamss tpt rhs =>
      have type : W.cleanTypes defined tpt = tpt := fixed tpt (by simp [Shape.children])
      simp only [Shape.mapChildren, type] at rebuilt
      rw [Setting.cleanTypes, type, ite_self, rebuilt]
    | valDef mods name tpt rhs =>
      have empty : rhs.isEmpty = true := by
        simp only [Shape.isTypeSyntax, Bool.and_eq_true] at kind
        exact kind.2
      have type : W.cleanTypes defined tpt = tpt := fixed tpt (by simp [Shape.children])
      simp only [Shape.mapChildren, type] at rebuilt
      rw [Setting.cleanTypes]
      cases treatment : Setting.typeTreatment mods tpt rhs with
      | kept => exact congrArg _ rebuilt
      | cleaned => exact congrArg _ (by rw [type, rebuilt])
      | dropped =>
        have missing := Setting.typeTreatment_dropped treatment
        simp only [Setting.typeTreatment, missing, empty, if_true, ite_self] at treatment
        split at treatment <;> simp at treatment
    | select q name =>
      simpa [Setting.cleanTypes, released, Shape.mapChildren] using rebuilt
    | ident name => simp [Setting.cleanTypes, released]
    | this name => simp [Setting.cleanTypes, released]
    | typeApply fn args => simp [Shape.isTypeSyntax] at kind
    | _ => simp [Setting.cleanTypes, rebuilt]

/-- Nothing in type syntax is generated, ascribed or applied. -/
theorem TypeSyntax.cleanReset {t : Tree} (h : TypeSyntax P t) : W.cleanReset t = t := by
  induction t using Tree.mem_children_induct with
  | node i s ih =>
    obtain ⟨node, below⟩ := typeSyntax_mk.mp h
    have kind : s.isTypeSyntax = true := node.kind
    have rebuilt := Shape.mapChildren_eq_self fun c hc => ih c hc (below c hc)
    cases s with
    | typeTree w =>
      cases w with
      | some w => simp [Shape.isTypeSyntax] at kind
      | none => simp [Setting.cleanReset, rebuilt]
    | ident name =>
      have symbol : i.symbol = none := node.symbol
      simp [Setting.cleanReset, Setting.isLazyTerm, symbol]
    | defDef mods name tparams vparamss tpt rhs =>
      simp only [Shape.isTypeSyntax, Bool.and_eq_true, beq_iff_eq] at kind
      have flags : (Flags.single .deferred).has .synthetic = false ∧
          (Flags.single .deferred).has .defaultParam = false := by decide
      have written : mods.has .synthetic = false ∧ mods.has .defaultParam = false := by
        simpa only [Modifiers.has, kind.1] using flags
      simp [Setting.cleanReset, written.1, written.2, rebuilt]
    | apply fn args => simp [Shape.isTypeSyntax] at kind
    | typed expr tpt => simp [Shape.isTypeSyntax] at kind
    | moduleDef mods name impl => simp [Shape.isTypeSyntax] at kind
    | _ => simp [Setting.cleanReset, rebuilt]

/-- No pass changes anything about the written form of a type, be it a repair, the removal of what
is generated for case classes, or what is done before or after a reset. -/
theorem written_type_settled (W : Setting) (acyclic : W.symbols.Acyclic) (owner : Option SymbolId)
    (t : Ty) :
    W.repairChecked owner (W.writtenType t) = W.writtenType t ∧
      W.restoreCaseClasses (W.writtenType t) = .ok (W.writtenType t, []) ∧
      W.cleanInferredTypes (W.writtenType t) = W.writtenType t ∧
      W.cleanReset (W.writtenType t) = W.writtenType t := by
  have written : TypeSyntax W.Unwritten (W.writtenType t) :=
    (Setting.typeSyntax_writtenType (W.rendering_ends (acyclic.ends t))).imp fun _ h => h.2
  exact ⟨written.repairChecked owner, written.restoreCaseClasses, written.cleanTypes _,
    written.cleanReset⟩

/-- An anonymous class, and a method whose type is that of the class's own values. -/
def anonymousSetting : Setting where
  symbols :=
    { entries :=
        [(⟨"c"⟩, { name := .type "$anon", kind := .plainClass }),
         (⟨"m"⟩, { name := .term "m", kind := .method, info := some (.nullary (.this ⟨"c"⟩)) })] }
  builtins :=
    { rootClass := ⟨"root"⟩
      nothingType := .unspecified
      anyType := .unspecified
      anyRefType := .unspecified }

theorem anonymousSetting_acyclic : anonymousSetting.symbols.Acyclic := by
  have infos := SymbolTable.forall_get (T := anonymousSetting.symbols)
    (P := fun symbol => symbol.isAlias = false ∧
      (symbol.info = none ∨ symbol.info = some (.nullary (.this ⟨"c"⟩))))
    ⟨rfl, .inl rfl⟩ (by simp [anonymousSetting, Symbol.isAlias])
  refine SymbolTable.acyclic_of_leaves fun k u hu => ?_
  cases k with
  | expanded s => simp [SymbolTable.found, SymbolTable.expansion?, (infos s).1] at hu
  | quantified s =>
    rcases (infos s).2 with info | info <;> simp [SymbolTable.found, info] at hu
  | declared s =>
    rcases (infos s).2 with info | info <;> simp [SymbolTable.found, info] at hu
    subst hu
    exact ⟨rfl, rfl⟩

/-- A refinement by the method, whose parent has no written form and mentions the class. -/
theorem anonymous_refinement_settled :
    let t : Ty := .refined [.nullary (.this ⟨"c"⟩)] [⟨"m"⟩]
    let written : Tree := .bare (.compoundType (.bare (.template
      [.resolved (.nullary (.this ⟨"c"⟩))] .empty
      [.bare (.defDef Setting.deferred (.term "m") [] [] (.bare (.this (.type "$anon"))) .empty)])))
    anonymousSetting.symbols.Acyclic ∧ anonymousSetting.writtenType t = written ∧
      anonymousSetting.mentions [] (.nullary (.this ⟨"c"⟩)) = true ∧
      anonymousSetting.repairChecked (some ⟨"c"⟩) written = written ∧
      anonymousSetting.restoreCaseClasses written = .ok (written, []) ∧
      anonymousSetting.cleanInferredTypes written = written ∧
      anonymousSetting.cleanReset written = written :=
  ⟨anonymousSetting_acyclic, rfl, by decide,
    written_type_settled anonymousSetting anonymousSetting_acyclic (some ⟨"c"⟩)
      (.refined [.nullary (.this ⟨"c"⟩)] [⟨"m"⟩])⟩

/-- A node about which no checker knows anything. If it carries a type along, it is all that can be
written for that type. -/
structure Setting.Unattached (W : Setting) (n : Tree) : Prop where
  symbol : n.info.symbol = none
  pos : n.info.pos = {}
  marks : n.info.marks = {}
  typed : ∀ u, n.info.type = some u → ∃ w, n.shape = .typeTree w
  unwritten : ∀ w, n.shape = .typeTree w → w = none
  carried : ∀ u, n.info.type = some u → n = W.writtenType u

/-- Nothing that a checker found out is attached to the written form of a type, at any depth. The
types that it carries along have no other written form. -/
theorem written_type_unattached (W : Setting) (acyclic : W.symbols.Acyclic) (t : Ty) :
    ∀ n ∈ (W.writtenType t).preorder, W.Unattached n := by
  intro n hn
  have written : TypeSyntax W.Unwritten (W.writtenType t) :=
    (Setting.typeSyntax_writtenType (W.rendering_ends (acyclic.ends t))).imp fun _ h => h.2
  have node := written n hn
  obtain ⟨i, s⟩ := n
  have carries (u : Ty) (type : i.type = some u) :
      (⟨i, s⟩ : Tree) = .resolved u ∧ W.Unwritten u := node.type type
  refine ⟨node.symbol, node.pos, node.marks, fun u type => ?_, fun w shape => ?_, fun u type => ?_⟩
  · have resolved := (carries u type).1
    exact ⟨none, congrArg Tree.shape resolved⟩
  · have kind : s.isTypeSyntax = true := node.kind
    obtain rfl : s = .typeTree w := shape
    cases w with
    | none => rfl
    | some w => cases kind
  · obtain ⟨resolved, unwritten⟩ := carries u type
    rw [resolved]
    exact unwritten.symm

/-- The parent of the refinement is carried along, and the method and its type are written out. -/
theorem anonymous_refinement_unattached :
    let t : Ty := .refined [.nullary (.this ⟨"c"⟩)] [⟨"m"⟩]
    anonymousSetting.symbols.Acyclic ∧
      .resolved (.nullary (.this ⟨"c"⟩)) ∈ (anonymousSetting.writtenType t).preorder ∧
      .bare (.this (.type "$anon")) ∈ (anonymousSetting.writtenType t).preorder ∧
      ∀ n ∈ (anonymousSetting.writtenType t).preorder, anonymousSetting.Unattached n :=
  ⟨anonymousSetting_acyclic, Tree.mem_preorder_of_at? (p := [0, 0]) rfl,
    Tree.mem_preorder_of_at? (p := [0, 2, 0]) rfl,
    written_type_unattached anonymousSetting anonymousSetting_acyclic
      (.refined [.nullary (.this ⟨"c"⟩)] [⟨"m"⟩])⟩

end TreeRepair
