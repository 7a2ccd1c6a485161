import TreeRepair.Proofs.SettledStatements
import TreeRepair.Proofs.Surface
import TreeRepair.Session.Basic

namespace TreeRepair

namespace Setting

variable (W : Setting)

theorem isDefaultHelper_of_unresolved {t : Tree} (h : t.info.symbol = none) :
    W.isDefaultHelper t = false := by
  unfold isDefaultHelper
  split
  next hsymbol => simp [Tree.symbol, h] at hsymbol
  next => rfl

end Setting

namespace Repair

variable (R : Repair)

/-- At a node about which nothing was found out, a repair goes on below. -/
theorem treeWith_unresolved (deeper : Tree → Tree) {i : Info} {s : Shape Tree}
    (symbol : i.symbol = none) (notResolved : s.written = none)
    (notExtracted : ∀ fn args, s ≠ .unapply fn args)
    (noHelper : ∀ c ∈ s.children, R.setting.isDefaultHelper c = false) :
    R.treeWith deeper ⟨i, s⟩ = ⟨i, s.mapChildren (R.treeWith deeper)⟩ := by
  have settled := R.setting.settleShape_of_no_helper R.usedHelpers noHelper
  cases s with
  | ident name => simp [treeWith, identifier, symbol, Shape.mapChildren]
  | select q name => simp [treeWith, selection, symbol, Shape.mapChildren]
  | unapply fn args => exact absurd rfl (notExtracted fn args)
  | valDef mods name tpt rhs =>
    simp [treeWith, isStorage, lazyGetter?, symbol, Shape.mapChildren]
  | defDef mods name tparams vparamss tpt rhs =>
    simp [treeWith, role, symbol, Shape.mapChildren]
  | typeTree w =>
    obtain rfl : w = none := notResolved
    simp [treeWith, settled]
  | _ => simp [treeWith, settled]

/-- What is written needs no repair. -/
theorem treeWith_surface (deeper : Tree → Tree) {t : Tree} (h : t.Surface) :
    R.treeWith deeper t = t := by
  induction t using Tree.mem_children_induct with
  | node i s ih =>
    obtain ⟨node, below⟩ := Tree.surface_mk.mp h
    have noHelper (c : Tree) (hc : c ∈ s.children) : R.setting.isDefaultHelper c = false :=
      R.setting.isDefaultHelper_of_unresolved ((below c hc) c c.self_mem_preorder).bare.symbol
    rw [R.treeWith_unresolved deeper node.bare.symbol node.notResolved node.notExtracted noHelper,
      Shape.mapChildren_eq_self fun c hc => ih c hc (below c hc)]

theorem tree_surface {t : Tree} (h : t.Surface) : R.tree t = t := by
  change R.treeWithin (R.fields.length + (R.setting.symbols.entries.length + 2)) t = t
  exact R.treeWith_surface _ h

end Repair

theorem Setting.repairChecked_surface (W : Setting) (owner : Option SymbolId) {t : Tree}
    (h : t.Surface) : W.repairChecked owner t = t := Repair.tree_surface _ h

/-- The same node, marked as a cleaned declaration. -/
def Tree.markedCleaned (t : Tree) : Tree := ⟨t.info.mark .cleaned, t.shape⟩

namespace Conventions

variable (C : Conventions)

theorem withoutGenerated_of_not_generated {t : Tree} (h : ∀ c ∈ t.children, ∀ mods,
    c.shape.modifiers? = some mods → mods.has .synthetic = false) : C.withoutGenerated t = t := by
  unfold withoutGenerated
  split
  next i parents self body =>
    have kept : (body.filter fun t => !C.isGeneratedMember t) = body := by
      refine List.filter_eq_self.mpr fun t ht => ?_
      have member := h t (by simp [Tree.children, Shape.children, ht])
      unfold isGeneratedMember
      split
      next mods name tparams vparamss tpt rhs hs =>
        simp [member mods (by simp [hs, Shape.modifiers?])]
      next => rfl
    rw [kept]
  next => rfl

theorem withoutGenerated_surface {t : Tree} (h : t.Surface) : C.withoutGenerated t = t :=
  C.withoutGenerated_of_not_generated fun c hc mods hm =>
    ((h c (Tree.mem_preorder_of_mem_children hc c.self_mem_preorder)).notGenerated mods hm).1

/-- Cleaning a statement does no more than mark it where nothing was generated. -/
theorem cleanStatement_of_not_generated (names : List Name) {t : Tree}
    (notGenerated : ∀ mods, t.shape.modifiers? = some mods → mods.has .synthetic = false)
    (below : ∀ c ∈ t.children, C.withoutGenerated c = c) :
    C.cleanStatement names t = t ∧ t.shape.caseName? = none ∨
      C.cleanStatement names t = t.markedCleaned := by
  obtain ⟨i, s⟩ := t
  unfold cleanStatement
  split
  next j mods name impl heq =>
    cases heq
    have generated := notGenerated mods rfl
    have impl := below impl (by simp [Tree.children, Shape.children])
    by_cases named : names.contains name = true
    · simp_all [Tree.markedCleaned]
    · by_cases flagged : mods.has .caseDecl = true
      · simp_all [Tree.markedCleaned]
      · simp_all [Shape.caseName?]
  next j mods name tparams impl heq =>
    cases heq
    have impl := below impl (by simp [Tree.children, Shape.children])
    by_cases flagged : mods.has .caseDecl = true
    · simp_all [Tree.markedCleaned]
    · simp_all [Shape.caseName?]
  next module plainClass =>
    refine .inl ⟨rfl, ?_⟩
    cases s with
    | classDef mods name tparams impl => exact absurd rfl (plainClass i mods name tparams impl)
    | moduleDef mods name impl => exact absurd rfl (module i mods name impl)
    | _ => rfl

theorem cleanStatement_surface (names : List Name) {t : Tree} (h : t.Surface) :
    C.cleanStatement names t = t ∧ t.shape.caseName? = none ∨
      C.cleanStatement names t = t.markedCleaned :=
  C.cleanStatement_of_not_generated names
    (fun mods hm => ((h t t.self_mem_preorder).notGenerated mods hm).1)
    fun _ hc => C.withoutGenerated_surface fun n hn => h n (Tree.mem_preorder_of_mem_children hc hn)

/-- A function that takes back what cleaning does to statements restores the node above them. -/
theorem mapChildren_cleanShape {g : Tree → Tree} {s : Shape Tree}
    (children : ∀ c ∈ s.children, g c = c)
    (statements : ∀ names, ∀ c ∈ s.children, g (C.cleanStatement names c) = c) :
    (C.cleanShape s).mapChildren g = s := by
  have mapped {l : List Tree} (names : List Name) (hl : ∀ c ∈ l, c ∈ s.children) :
      (l.map (C.cleanStatement names)).map g = l := by
    rw [List.map_map]
    exact (List.map_congr_left fun c hc => statements names c (hl c hc)).trans (List.map_id _)
  have kept {l : List Tree} (hl : ∀ c ∈ l, c ∈ s.children) : l.map g = l :=
    (List.map_congr_left fun c hc => children c (hl c hc)).trans (List.map_id _)
  cases s with
  | template parents self body =>
    rw [cleanShape, Shape.mapChildren, cleanStatements, kept (by simp [Shape.children]; grind),
      mapped _ (by simp [Shape.children]; grind), children self (by simp [Shape.children])]
  | packageDef pid stats =>
    rw [cleanShape, Shape.mapChildren, cleanStatements, mapped _ (by simp [Shape.children]; grind),
      children pid (by simp [Shape.children])]
  | block stats expr =>
    rw [cleanShape, Shape.mapChildren, mapped _ (by simp [Shape.children]; grind),
      statements _ expr (by simp [Shape.children])]
  | _ => exact Shape.mapChildren_eq_self children

theorem cleanShape_alike (u : Shape Tree) : (C.cleanShape u).Alike u := by
  cases u <;> simp [cleanShape, cleanStatements, Shape.Alike, Shape.mapChildren, Function.comp_def]

theorem cleanTree_mk (i : Info) (s : Shape Tree) :
    C.cleanTree ⟨i, s⟩ = ⟨i, (C.cleanShape s).mapChildren C.cleanTree⟩ := by
  rw [cleanTree, Shape.pmapChildren_eq]

theorem sweep_mk (i : Info) (s : Shape Tree) :
    (⟨i, s⟩ : Tree).sweep = ⟨i.unmark .cleaned, s.mapChildren Tree.sweep⟩ := by
  rw [Tree.sweep, Shape.pmapChildren_eq]

theorem sweep_cleanTree_surface {t : Tree} (h : t.Surface) :
    (C.cleanTree t).sweep = t ∧ (C.cleanTree t.markedCleaned).sweep = t := by
  induction t using Tree.mem_children_induct with
  | node i s ih =>
    obtain ⟨node, below⟩ := Tree.surface_mk.mp h
    have restored : (C.cleanShape s).mapChildren (fun c => (C.cleanTree c).sweep) = s := by
      refine C.mapChildren_cleanShape (fun c hc => (ih c hc (below c hc)).1) fun names c hc => ?_
      rcases C.cleanStatement_surface names (below c hc) with ⟨same, _⟩ | marked
      · rw [same, (ih c hc (below c hc)).1]
      · rw [marked, (ih c hc (below c hc)).2]
    have marks : i.marks = {} := node.bare.marks
    have unmarked : i.unmark .cleaned = i := by
      obtain ⟨symbol, type, pos, m⟩ := i
      cases marks
      rfl
    have remarked : (i.mark .cleaned).unmark .cleaned = i := by
      obtain ⟨symbol, type, pos, m⟩ := i
      cases marks
      rfl
    simp only [Tree.markedCleaned, cleanTree_mk, sweep_mk, Shape.mapChildren_mapChildren, restored,
      unmarked, remarked, and_self]

theorem misplaced_mk (i : Info) (s : Shape Tree) :
    C.misplaced ⟨i, s⟩ =
      (if i.marks.cleaned then [] else (s.caseName?.map fun name => ⟨i.pos, name⟩).toList) ++
        (C.cleanShape s).children.flatMap C.misplaced := by
  rw [misplaced, List.flatMap_subtype, List.unattach_attach]
  exact fun _ _ => rfl

/-- A child after cleaning was not a statement, or was cleaned as one. -/
theorem mem_children_cleanShape {s : Shape Tree} {c : Tree} (h : c ∈ (C.cleanShape s).children) :
    c ∈ s.children ∧ c ∈ s.others ∨ ∃ names, ∃ d ∈ s.children, c = C.cleanStatement names d := by
  cases s with
  | template parents self body =>
    simp only [cleanShape, cleanStatements, Shape.children, Shape.others, List.mem_append,
      List.mem_cons, List.mem_map] at h ⊢
    grind
  | packageDef pid stats =>
    simp only [cleanShape, cleanStatements, Shape.children, Shape.others, List.mem_cons,
      List.mem_map] at h ⊢
    grind
  | block stats expr =>
    simp only [cleanShape, Shape.children, Shape.others, List.mem_append, List.mem_cons,
      List.mem_map] at h ⊢
    grind
  | _ => exact .inl ⟨h, h⟩

theorem misplaced_surface {t : Tree} (h : t.Surface) :
    (t.shape.caseName? = none → C.misplaced t = []) ∧ C.misplaced t.markedCleaned = [] := by
  induction t using Tree.mem_children_induct with
  | node i s ih =>
    obtain ⟨node, below⟩ := Tree.surface_mk.mp h
    have none : (C.cleanShape s).children.flatMap C.misplaced = [] := by
      refine List.flatMap_eq_nil_iff.mpr fun c hc => ?_
      rcases C.mem_children_cleanShape hc with ⟨hc, other⟩ | ⟨names, d, hd, rfl⟩
      · exact (ih c hc (below c hc)).1 (node.casesPlaced c other)
      · rcases C.cleanStatement_surface names (below d hd) with ⟨same, plain⟩ | marked
        · rw [same, (ih d hd (below d hd)).1 plain]
        · rw [marked, (ih d hd (below d hd)).2]
    refine ⟨fun plain => ?_, ?_⟩
    · rw [misplaced_mk, none, show s.caseName? = Option.none from plain]
      simp
    · rw [Tree.markedCleaned, misplaced_mk, none]
      rfl

end Conventions

namespace Setting

variable (W : Setting)

theorem detach_cleanTree_surface (symbols : List SymbolId) {t : Tree} (h : t.Surface) :
    W.detach symbols (W.conventions.cleanTree t) = t ∧
      W.detach symbols (W.conventions.cleanTree t.markedCleaned) = t := by
  have swept {t : Tree} (h : t.Surface) :
      W.detach symbols (W.conventions.cleanTree t.markedCleaned) = t := by
    obtain ⟨i, s⟩ := t
    have cleaned := (W.conventions.sweep_cleanTree_surface h).2
    rw [Tree.markedCleaned, Conventions.cleanTree_mk] at cleaned ⊢
    rw [detach, if_pos (by rfl), cleaned]
  refine ⟨?_, swept h⟩
  induction t using Tree.mem_children_induct with
  | node i s ih =>
    obtain ⟨node, below⟩ := Tree.surface_mk.mp h
    have restored : (W.conventions.cleanShape s).mapChildren
        (fun c => W.detach symbols (W.conventions.cleanTree c)) = s := by
      refine W.conventions.mapChildren_cleanShape (fun c hc => ih c hc (below c hc)) ?_
      intro names c hc
      rcases W.conventions.cleanStatement_surface names (below c hc) with ⟨same, _⟩ | marked
      · rw [same, ih c hc (below c hc)]
      · rw [marked, swept (below c hc)]
    have marks : i.marks.cleaned = false := by rw [show i.marks = {} from node.bare.marks]
    have type : i.type = none := node.bare.type
    have symbol : i.symbol = none := node.bare.symbol
    have current (u : Shape Tree) : W.outdatedType? symbols i u = none := by
      simp [outdatedType?, type]
    rw [Conventions.cleanTree_mk, detach]
    simp [marks, current, symbol, refersTo, Shape.mapChildren_mapChildren, restored]

/-- Written case classes have no generated members, and none of them is misplaced. -/
theorem restoreCaseClasses_surface {t : Tree} (h : t.Surface) :
    W.restoreCaseClasses t = .ok (t, []) := by
  have cleaned : W.conventions.misplaced
        (W.conventions.cleanStatement (caseClassNames [t]) t) = [] ∧
      ∀ symbols, W.detach symbols (W.conventions.cleanTree
        (W.conventions.cleanStatement (caseClassNames [t]) t)) = t := by
    rcases W.conventions.cleanStatement_surface (caseClassNames [t]) h with ⟨same, plain⟩ | marked
    · rw [same]
      exact ⟨(W.conventions.misplaced_surface h).1 plain,
        fun symbols => (W.detach_cleanTree_surface symbols h).1⟩
    · rw [marked]
      exact ⟨(W.conventions.misplaced_surface h).2,
        fun symbols => (W.detach_cleanTree_surface symbols h).2⟩
  unfold restoreCaseClasses
  simp only [cleaned.1, cleaned.2]
  cases W.conventions.strict <;> rfl

end Setting

theorem Tree.dropInserted_surface {t : Tree} (h : t.Surface) : t.dropInserted = t := by
  induction t using Tree.mem_children_induct with
  | node i s ih =>
    obtain ⟨node, below⟩ := Tree.surface_mk.mp h
    have rebuilt := Shape.mapChildren_eq_self fun c hc => ih c hc (below c hc)
    have marks : i.marks.inserted = false := by rw [show i.marks = {} from node.bare.marks]
    cases s with
    | apply fn args => simpa [dropInserted, marks, Shape.mapChildren] using rebuilt
    | _ => simp [dropInserted, rebuilt]

theorem Shape.mapChildren_ne_apply {α : Type} {s : Shape α} (f : α → α)
    (other : ∀ fn args, s ≠ .apply fn args) (fn : α) (args : List α) :
    s.mapChildren f ≠ .apply fn args := by
  cases s with
  | apply fn args => exact absurd rfl (other fn args)
  | _ => simp [mapChildren]

theorem Tree.markWritten_other {i : Info} {s : Shape Tree} (other : ∀ fn args, s ≠ .apply fn args) :
    (⟨i, s⟩ : Tree).markWritten =
      ⟨(i.unmark .inserted).unmark .written, s.mapChildren markWritten⟩ := by
  rw [markWritten, Shape.pmapChildren_eq]
  exact other

theorem SymbolTable.markInserted_other (T : SymbolTable) {i : Info} {s : Shape Tree}
    (other : ∀ fn args, s ≠ .apply fn args) (considered : Bool) :
    T.markInserted considered ⟨i, s⟩ = ⟨i, s.mapChildren (T.markInserted false)⟩ := by
  rw [markInserted, Shape.pmapChildren_eq]
  exact other

/-- Marking what is written and then what was inserted leaves no mark where nothing was. -/
theorem SymbolTable.markInserted_markWritten_surface (T : SymbolTable) {t : Tree} (h : t.Surface)
    (considered : Bool) : T.markInserted considered t.markWritten = t := by
  induction t using Tree.mem_children_induct generalizing considered with
  | node i s ih =>
    obtain ⟨node, below⟩ := Tree.surface_mk.mp h
    have rebuilt := Shape.mapChildren_eq_self fun c hc => ih c hc (below c hc) false
    have marks : i.marks = {} := node.bare.marks
    have symbol : i.symbol = none := node.bare.symbol
    obtain ⟨_, type, pos, _⟩ := i
    cases marks
    cases symbol
    by_cases happly : ∃ fn args, s = .apply fn args
    · obtain ⟨fn, args, rfl⟩ := happly
      have head := ih fn (by simp [Shape.children]) (below fn (by simp [Shape.children])) considered
      have tail : args.map (fun c => T.markInserted false c.markWritten) = args := by
        simp only [Shape.mapChildren, Shape.apply.injEq] at rebuilt
        exact rebuilt.2
      simp [Tree.markWritten, markInserted, Info.mark, Info.unmark, Marks.add, Marks.remove,
        Marks.set, hasImplicitList, Function.comp_def, head, tail]
    · have other : ∀ fn args, s ≠ .apply fn args := fun fn args hs => happly ⟨fn, args, hs⟩
      rw [Tree.markWritten_other other, markInserted_other T (Shape.mapChildren_ne_apply _ other),
        Shape.mapChildren_mapChildren, rebuilt]
      rfl

/-- A tree written as another one, with nothing but positions attached. -/
def Tree.Rewrites (u t : Tree) : Prop :=
  u.same t = true ∧ ∀ n ∈ u.preorder, n.info.Bare

theorem Tree.Surface.rewrites_self {t : Tree} (h : t.Surface) : t.Rewrites t :=
  ⟨t.same_refl, fun n hn => (h n hn).bare⟩

theorem Tree.Surface.of_rewrites {t u : Tree} (h : t.Surface) (r : u.Rewrites t) : u.Surface :=
  h.of_same (same_symm r.1) r.2

theorem Tree.rewrites_mk {i j : Info} {s v : Shape Tree} (bare : i.Bare)
    (outline : s.outline = v.outline) (resolved : v.written = none)
    (below : List.Forall₂ Tree.Rewrites s.children v.children) :
    (⟨i, s⟩ : Tree).Rewrites ⟨j, v⟩ := by
  have written : s.written = none := by simpa [resolved] using Shape.isSome_written_eq outline
  refine ⟨same_mk.mpr ⟨outline, ?_⟩, forall_mem_preorder.mpr ⟨bare, fun c hc => ?_⟩⟩
  · rw [Shape.subtrees, Shape.subtrees, written, resolved]
    simpa using below.imp fun c d hcd => hcd.1
  · obtain ⟨k, hk, rfl⟩ := List.mem_iff_getElem.mp hc
    have pairs := List.forall₂_iff_get.mp below
    exact (pairs.2 k hk (pairs.1 ▸ hk)).2

theorem Tree.rewrites_mapChildren {i : Info} {s : Shape Tree} {f : Tree → Tree} (bare : i.Bare)
    (resolved : s.written = none) (below : ∀ c ∈ s.children, (f c).Rewrites c) :
    (⟨i, s.mapChildren f⟩ : Tree).Rewrites ⟨i, s⟩ := by
  refine rewrites_mk bare (s.outline_mapChildren f) resolved ?_
  rw [s.children_mapChildren]
  exact List.forall₂_map_left_iff.mpr (List.forall₂_same.mpr below)

namespace Setting

variable (W : Setting)

theorem typeTreatment_dropped {mods : Modifiers Tree} {tpt rhs : Tree}
    (h : typeTreatment mods tpt rhs = .dropped) : tpt.shape = .typeTree none := by
  unfold typeTreatment at h
  split at h
  next => simp at h
  next =>
    split at h
    next => simp at h
    next =>
      split at h
      next hs => exact hs
      next => simp at h

/-- Types that were written stay as they are, and a missing one stays missing. -/
theorem cleanTypes_surface (defined : List SymbolId) {t : Tree} (h : t.Surface) :
    (W.cleanTypes defined t).Rewrites t := by
  induction t using Tree.mem_children_induct with
  | node i s ih =>
    obtain ⟨node, below⟩ := Tree.surface_mk.mp h
    have children (c : Tree) (hc : c ∈ s.children) : (W.cleanTypes defined c).Rewrites c :=
      ih c hc (below c hc)
    have rebuilt := Tree.rewrites_mapChildren node.bare node.notResolved children
    have lists {l : List Tree} (hl : ∀ c ∈ l, c ∈ s.children) :
        List.Forall₂ Tree.Rewrites (l.map (W.cleanTypes defined)) l :=
      List.forall₂_map_left_iff.mpr (List.forall₂_same.mpr fun c hc => children c (hl c hc))
    have type : i.type = none := node.bare.type
    have released : W.releaseTyped defined i = i := by simp [releaseTyped, type]
    cases s with
    | typeTree w =>
      obtain rfl : w = none := node.notResolved
      simpa [cleanTypes, inferredType, type] using h.rewrites_self
    | defDef mods name tparams vparamss tpt rhs =>
      have head : (if name = .term W.conventions.constructorName then tpt
          else W.cleanTypes defined tpt).Rewrites tpt := by
        split
        · exact (below tpt (by simp [Shape.children])).rewrites_self
        · exact children tpt (by simp [Shape.children])
      have last := children rhs (by simp [Shape.children])
      rw [cleanTypes]
      refine Tree.rewrites_mk node.bare (by simp [Shape.outline, Function.comp_def]) rfl ?_
      simp only [Shape.children, ← List.map_flatten]
      refine List.rel_append (List.rel_append (List.rel_append (lists ?_) (lists ?_)) (lists ?_))
        (.cons head (.cons last .nil)) <;> simp [Shape.children] <;> grind
    | valDef mods name tpt rhs =>
      have last := children rhs (by simp [Shape.children])
      rw [cleanTypes]
      refine Tree.rewrites_mk node.bare (by simp [Shape.outline, Function.comp_def]) rfl ?_
      refine List.rel_append (lists ?_) (.cons ?_ (.cons last .nil))
      · intro c hc
        simp only [Shape.children, List.mem_append]
        exact .inl hc
      · cases treatment : typeTreatment mods tpt rhs with
        | kept => exact (below tpt (by simp [Shape.children])).rewrites_self
        | dropped =>
          have missing := typeTreatment_dropped treatment
          obtain ⟨j, v⟩ := tpt
          cases missing
          exact Tree.rewrites_mk ⟨rfl, rfl, rfl⟩ rfl rfl .nil
        | cleaned => exact children tpt (by simp [Shape.children])
    | typeApply fn args =>
      have untyped : (args.any fun a => a.info.type.any W.mentionsSingleton) = false := by
        refine List.any_eq_false.mpr fun a ha => ?_
        have bare := (below a (by simp [Shape.children, ha]) a a.self_mem_preorder).bare
        simp [bare.type]
      simpa [cleanTypes, untyped, Shape.mapChildren] using rebuilt
    | select q name => simpa [cleanTypes, released, Shape.mapChildren] using rebuilt
    | ident name => simpa [cleanTypes, released, Shape.mapChildren] using rebuilt
    | this name => simpa [cleanTypes, released, Shape.mapChildren] using rebuilt
    | _ => simpa [cleanTypes] using rebuilt

theorem ascribed?_surface {i : Info} {expr tpt : Tree}
    (h : (⟨i, .typed expr tpt⟩ : Tree).Surface) : ascribed? expr tpt = none := by
  obtain ⟨node, below⟩ := Tree.surface_mk.mp h
  have resolved := (below tpt (by simp [Shape.children]) tpt tpt.self_mem_preorder).notResolved
  rcases node.ascription expr tpt rfl with mark | ⟨type, plain⟩
  · unfold Tree.isEtaMark at mark
    split at mark
    next => rfl
    next => simp at mark
  · unfold ascribed?
    split
    next => rfl
    next j annot arg => simp [plain j annot arg rfl, type]
    next => simp [Shape.written] at resolved
    next => simp [type]

/-- Nothing in a written tree is left over from a checker. -/
theorem cleanReset_surface {t : Tree} (h : t.Surface) : W.cleanReset t = t := by
  induction t using Tree.mem_children_induct with
  | node i s ih =>
    obtain ⟨node, below⟩ := Tree.surface_mk.mp h
    have rebuilt := Shape.mapChildren_eq_self fun c hc => ih c hc (below c hc)
    cases s with
    | typeTree w =>
      obtain rfl : w = none := node.notResolved
      simp [cleanReset, rebuilt]
    | apply fn args =>
      have symbol := (below fn (by simp [Shape.children]) fn fn.self_mem_preorder).bare.symbol
      have released : W.releaseModule fn = fn := by simp [releaseModule, Tree.symbol, symbol]
      simpa [cleanReset, released, Shape.mapChildren] using rebuilt
    | typed expr tpt =>
      have kept := ascribed?_surface h
      rw [cleanReset]
      split
      next u hu => simp [kept] at hu
      next => simpa [Shape.mapChildren] using rebuilt
    | ident name =>
      have symbol : i.symbol = none := node.bare.symbol
      simp [cleanReset, isLazyTerm, symbol]
    | defDef mods name tparams vparamss tpt rhs =>
      have written := node.notGenerated mods rfl
      simp [cleanReset, written.1, written.2, rebuilt]
    | moduleDef mods name impl =>
      have written := (node.notGenerated mods rfl).1
      have nonempty (impl : Tree) : W.isEmptyModule mods impl = false := by
        unfold isEmptyModule
        split <;> simp [written]
      simpa [cleanReset, nonempty, Shape.mapChildren] using rebuilt
    | _ => simp [cleanReset, rebuilt]

end Setting

end TreeRepair
