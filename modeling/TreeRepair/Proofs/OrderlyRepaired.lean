import TreeRepair.Proofs.OrderlyTrees

namespace TreeRepair

theorem Repair.exists_same_mem_annotations (R : Repair) (deeper : Tree → Tree) (mods : Modifiers Tree)
    {symbols : List SymbolId} {s : SymbolId} {a : Tree} (hs : s ∈ symbols)
    (ha : a ∈ (R.get s).annotations) :
    ∃ b ∈ R.annotations deeper mods symbols, b.same (deeper a) = true := by
  rw [annotations_eq_foldl]
  exact exists_same_foldl_addIfNew
    (List.mem_flatMap.mpr ⟨s, hs, List.mem_map_of_mem ha⟩)

namespace Setting

variable (W : Setting)

theorem helperNames_map_sublist {f : Tree → Tree} {stats : List Tree}
    (h : ∀ x ∈ stats, W.isDefaultHelper (f x) = true →
      W.isDefaultHelper x = true ∧ (f x).declaredText = x.declaredText) :
    (W.helperNames (stats.map f)).Sublist (W.helperNames stats) := by
  induction stats with
  | nil => exact .slnil
  | cons x stats ih =>
    have rest := ih fun y hy => h y (List.mem_cons_of_mem _ hy)
    simp only [helperNames, List.map_cons, List.filter_cons] at rest ⊢
    cases helper : W.isDefaultHelper (f x) with
    | true =>
      obtain ⟨before, name⟩ := h x List.mem_cons_self helper
      simp only [before, if_true, List.map_cons, name]
      exact rest.cons_cons _
    | false =>
      simp only [Bool.false_eq_true, if_false]
      split
      · exact rest.cons _
      · exact rest

theorem name_of_path {n : Nat} {s : SymbolId} {q : Tree} {name : Name}
    (h : (W.pathWithin n s).shape = .select q name) : name = (W.nameOf s).toTerm := by
  cases n with
  | zero => simp [pathWithin, Tree.bare] at h
  | succ n =>
    simp only [pathWithin] at h
    split at h
    · simp [Tree.bare] at h
    · split at h
      · simp [Tree.bare] at h
      · simp only [Tree.bare, Shape.select.injEq] at h
        exact h.2.symm

end Setting

theorem Repair.settledNode_of_method {R : Repair} {i : Info} {mods : Modifiers Tree} {name : Name}
    {tparams : List Tree} {vparamss : List (List Tree)} {tpt rhs : Tree} {s : SymbolId}
    (role : R.role i.symbol = .method s) (settled : R.ModsSettled s mods [s]) :
    R.SettledNode ⟨i, .defDef mods name tparams vparamss tpt rhs⟩ := by
  simpa only [SettledNode, role] using settled

theorem Repair.settledNode_of_unresolved {R : Repair} {i : Info} {mods : Modifiers Tree}
    {name : Name} {tparams : List Tree} {vparamss : List (List Tree)} {tpt rhs : Tree}
    (role : R.role i.symbol = .unresolved) :
    R.SettledNode ⟨i, .defDef mods name tparams vparamss tpt rhs⟩ := by
  simp only [SettledNode, role]

namespace Repair

variable {R : Repair} {x : Tree}

theorem isDefaultHelper_tree_movedCopy (helper : R.setting.isDefaultHelper x = true)
    (ends : R.descent.Ends (R.setting.movedCopy x)) :
    R.setting.isDefaultHelper (R.tree (R.setting.movedCopy x)) = false := by
  by_contra still
  obtain ⟨still, -⟩ := isDefaultHelper_of_tree ends (by simpa using still)
  obtain ⟨m, -, rfl, -⟩ := R.setting.method_of_isDefaultHelper helper
  simp [Setting.movedCopy, Method.toTree, Setting.isDefaultHelper, Tree.symbol] at still

/-- A helper that is left among repaired statements stands under its plain name. -/
theorem isDefaultHelper_of_keptInPlace (ends : R.descent.Ends (R.setting.keptInPlace x))
    (h : R.setting.isDefaultHelper (R.tree (R.setting.keptInPlace x)) = true) :
    R.setting.isMovedHelper x = false ∧ R.setting.isDefaultHelper x = true ∧
      (R.tree (R.setting.keptInPlace x)).declaredText = x.declaredText := by
  obtain ⟨before, -, name⟩ := isDefaultHelper_of_tree ends h
  cases moved : R.setting.isMovedHelper x with
  | true =>
    simp [Setting.keptInPlace, moved, Setting.isDefaultHelper, Tree.empty, Tree.bare] at before
  | false =>
    simp only [Setting.keptInPlace, moved, Bool.false_eq_true, if_false] at before name ⊢
    exact ⟨trivial, before, name⟩

end Repair

namespace Orderly

variable {W : Setting} {owner : Option SymbolId} {t : Tree}

theorem usedHelpers_subset (orderly : Orderly W owner t)
    (ends : (Repair.ofTree W owner t).descent.Ends t) :
    ∀ s ∈ (W.secondRepair owner t).usedHelpers, s ∈ W.definedHelpers t :=
  fun _ hs => orderly.mem_definedHelpers_of_repaired ends (mem_definedHelpers hs)

/-- The modifiers of a repaired declaration need no further repair. -/
theorem modsSettled (orderly : Orderly W owner t) (ends : (Repair.ofTree W owner t).descent.Ends t)
    {s : SymbolId} {symbols : List SymbolId} (hs : s ∈ symbols) (mods : Modifiers Tree) :
    (W.secondRepair owner t).ModsSettled s
      ⟨(Repair.ofTree W owner t).keptFlags mods, (Repair.ofTree W owner t).within s mods,
        (Repair.ofTree W owner t).annotations (Repair.ofTree W owner t).tree mods symbols⟩ [s] where
  flags := Flags.inter_inter_self _ _
  within := by
    simp only [Repair.within, Repair.get_ofTree]
    split <;> rfl
  annotations := by
    intro r hr a ha
    obtain rfl := List.mem_singleton.mp hr
    obtain ⟨b, hb, same⟩ := (Repair.ofTree W owner t).exists_same_mem_annotations
      (Repair.ofTree W owner t).tree mods hs ha
    have inert := orderly.recorded r a ha
    have first := inert.same_tree fun _ => mem_definedHelpers
    have second : ((W.secondRepair owner t).tree a).same a = true :=
      Repair.Inert.same_tree (orderly.usedHelpers_subset ends) inert
    exact ⟨b, hb, Tree.same_trans (Tree.same_trans same first) (Tree.same_symm second)⟩

/-- A value under the symbol of its getter stores nothing. -/
theorem isStorage_of_isGetter (orderly : Orderly W owner t) {u tpt rhs : Tree} {i : Info}
    {s : SymbolId} (symbol : i.symbol = some s) (isGetter : (W.symbols.get s).isGetter = true) :
    (Repair.ofTree W owner u).isStorage i tpt rhs = false := by
  have noGetter := (orderly.getters s isGetter).1
  have computed := orderly.computed s isGetter
  simp only [Repair.isStorage, symbol, Repair.get_ofTree]
  split
  next v w resolved type =>
    obtain rfl := Option.some.inj resolved
    simp only [noGetter, Option.any_none, Bool.and_false, Bool.or_false]
    grind
  next => rfl

/-- A lazy value that a repair has made has nothing to repair but how it is computed. -/
theorem settledNode_lazyValue (orderly : Orderly W owner t)
    (ends : (Repair.ofTree W owner t).descent.Ends t) {s : SymbolId}
    (isLazy : (W.symbols.get s).isLazy = true) (isGetter : (W.symbols.get s).isGetter = true)
    (i : Info) (mods : Modifiers Tree) (name : Name) (tpt rhs : Tree) :
    (W.secondRepair owner t).SettledNode
      ((Repair.ofTree W owner t).lazyValue (Repair.ofTree W owner t).tree s i mods name tpt rhs) := by
  have unrecorded : (W.secondRepair owner t).fieldOf? s = none := by
    refine Option.eq_none_iff_forall_ne_some.mpr fun v hv => ?_
    have := (orderly.fieldOf?_of_repaired ends hv).2
    rw [isLazy] at this
    contradiction
  refine ⟨orderly.isStorage_of_isGetter rfl isGetter, fun g hg => ?_⟩
  obtain rfl := Option.some.inj (Repair.lazyGetter?_eq_some _ |>.mp hg).1
  rw [unrecorded]
  refine ⟨orderly.modsSettled ends (by simp) mods, fun f hf => by simp at hf⟩

/-- Reconciled and repaired statements need no further reconciling. -/
theorem settleShape_repaired (orderly : Orderly W owner t)
    (ends : (Repair.ofTree W owner t).descent.Ends t) {i : Info} {s : Shape Tree}
    (here : t.Contains ⟨i, s⟩)
    (below : ∀ c ∈ (W.settleShape (W.usedHelpers t) s).children,
      (Repair.ofTree W owner t).descent.Ends c) :
    W.settleShape (W.usedHelpers (W.repairChecked owner t))
      ((W.settleShape (W.usedHelpers t) s).mapChildren (Repair.ofTree W owner t).tree) =
      (W.settleShape (W.usedHelpers t) s).mapChildren (Repair.ofTree W owner t).tree := by
  rw [orderly.usedHelpers_of_repaired ends]
  obtain ⟨copies, settled, made⟩ := W.settleStatements_eq (W.usedHelpers t) s.statements
  have statements : ((W.settleShape (W.usedHelpers t) s).mapChildren
      (Repair.ofTree W owner t).tree).statements =
        s.statements.map ((Repair.ofTree W owner t).tree ∘ W.keptInPlace) ++
          copies.map (Repair.ofTree W owner t).tree := by
    rw [Shape.statements_mapChildren, W.statements_settleShape, settled, List.map_append,
      List.map_map]
  replace below : ∀ c ∈ s.statements.map W.keptInPlace ++ copies,
      (Repair.ofTree W owner t).descent.Ends c := by
    rw [← settled, ← W.statements_settleShape]
    exact fun c hc => below c (Shape.mem_children_of_mem_statements hc)
  have copied : ∀ c ∈ copies,
      W.isDefaultHelper ((Repair.ofTree W owner t).tree c) = false := by
    intro c hc
    obtain ⟨x, -, helper, rfl⟩ := made c hc
    exact Repair.isDefaultHelper_tree_movedCopy (R := Repair.ofTree W owner t) helper
      (below _ (List.mem_append_right _ hc))
  have kept : ∀ x ∈ s.statements,
      W.isDefaultHelper ((Repair.ofTree W owner t).tree (W.keptInPlace x)) = true →
        W.isMovedHelper x = false ∧ W.isDefaultHelper x = true ∧
          ((Repair.ofTree W owner t).tree (W.keptInPlace x)).declaredText = x.declaredText :=
    fun x hx => Repair.isDefaultHelper_of_keptInPlace (R := Repair.ofTree W owner t)
      (below _ (List.mem_append_left _ (List.mem_map_of_mem hx)))
  refine W.settleShape_of_distinct ?_ ?_
  · rw [statements]
    intro y hy
    rcases List.mem_append.mp hy with inPlace | copy
    · obtain ⟨x, hx, rfl⟩ := List.mem_map.mp inPlace
      by_contra moved
      obtain ⟨helper, ending⟩ : _ ∧ _ := by simpa [Setting.isMovedHelper] using moved
      obtain ⟨notMoved, before, name⟩ := kept x hx helper
      rw [name] at ending
      simp [Setting.isMovedHelper, before, ending] at notMoved
    · obtain ⟨c, hc, rfl⟩ := List.mem_map.mp copy
      simp [Setting.isMovedHelper, copied c hc]
  · have none : (copies.map (Repair.ofTree W owner t).tree).filter W.isDefaultHelper = [] := by
      simpa using copied
    rw [statements, Setting.helperNames, List.filter_append, none, List.append_nil]
    exact (W.helperNames_map_sublist fun x hx helper => (kept x hx helper).2).nodup
      (orderly.distinct _ here)

theorem settledNode_path (orderly : Orderly W owner t) (ends : (Repair.ofTree W owner t).descent.Ends t)
    {i : Info} {s : SymbolId} {shape : Shape Tree} (path : (W.path s).shape = shape)
    (symbol : i.symbol = some s) (named : (W.nameOf s).toTerm = W.nameOf s) :
    (W.secondRepair owner t).SettledNode ⟨i, shape⟩ := by
  subst path
  have kinds := kind_path W W.symbols.bound s
  cases shape : (W.path s).shape <;> simp only [Tree.kind, Setting.path] at kinds shape <;>
    simp only [shape, reduceCtorEq, or_self] at kinds
  case ident name =>
    simp only [Repair.SettledNode, Repair.identifier, symbol]
    split
    · exact shape
    · rfl
  case select q name =>
    have unused : s ∉ (W.secondRepair owner t).usedHelpers := by
      simp [Repair.ofTree, orderly.usedHelpers_of_repaired ends]
    rw [Repair.SettledNode, Repair.selection_of_unused symbol unused, W.name_of_path shape]
    exact named.symm

/-- A plain value stays one: what the second repair knows of accessors, the first knew. -/
theorem isStorage_repaired (orderly : Orderly W owner t)
    (ends : (Repair.ofTree W owner t).descent.Ends t) {v : Field} (here : t.Contains v.toTree)
    (type : (Repair.ofTree W owner t).descent.Ends v.tpt) (initial : (Repair.ofTree W owner t).descent.Ends v.rhs)
    (kept : (Repair.ofTree W owner t).isStorage v.info v.tpt v.rhs = false) :
    (W.secondRepair owner t).isStorage v.info
      ((Repair.ofTree W owner t).tree v.tpt) ((Repair.ofTree W owner t).tree v.rhs) = false := by
  cases symbol : v.info.symbol with
  | none => simp [Repair.isStorage, symbol]
  | some s =>
    cases shape : ((Repair.ofTree W owner t).tree v.tpt).shape <;>
      simp only [Repair.isStorage, symbol, shape]
    case typeTree w =>
      have typed : v.tpt.kind = .type := by
        have kinds := Repair.kind_tree type
        simp only [Tree.kind, shape, reduceCtorEq, and_false, or_self, or_false] at kinds
        exact kinds.symm
      have opened : ∃ w, v.tpt.shape = .typeTree w := by
        cases original : v.tpt.shape <;> simp [Tree.kind, original] at typed
        exact ⟨_, rfl⟩
      obtain ⟨w, original⟩ := opened
      by_contra storage
      simp only [Bool.not_eq_false, Bool.and_eq_true, Bool.or_eq_true] at storage
      obtain ⟨isTerm, ⟨⟨isLazy, isArtifact⟩, empty⟩ | ⟨isPrivate, recorded⟩⟩ := storage
      -- a gap for the initial value was one before, as only declarations are replaced by gaps
      · have filled : v.rhs.kind = .gap := by
          obtain ⟨noValue, noMethod⟩ := orderly.storage v here s symbol isLazy isArtifact
          have kinds := Repair.kind_tree initial
          rw [Tree.isEmpty_iff_kind.mp empty] at kinds
          simpa [noValue, noMethod, eq_comm] using kinds
        have dropped : (Repair.ofTree W owner t).isStorage v.info v.tpt v.rhs = true := by
          simp only [Repair.isStorage, symbol, original, Tree.isEmpty_iff_kind.mpr filled]
          simp_all [Repair.get_ofTree]
        cases kept.symm.trans dropped
      · have dropped : (Repair.ofTree W owner t).isStorage v.info v.tpt v.rhs = true := by
          cases getter : (W.symbols.get s).getter with
          | none => simp [Repair.get_ofTree, getter] at recorded
          | some g =>
            obtain ⟨f, known⟩ : ∃ f, (W.secondRepair owner t).fieldOf? g = some f := by
              simpa [Repair.get_ofTree, getter, Option.isSome_iff_exists] using recorded
            obtain ⟨f', knownBefore⟩ := (orderly.fieldOf?_of_repaired ends known).1
            simp only [Repair.isStorage, symbol, original]
            simp_all [Repair.get_ofTree]
        cases kept.symm.trans dropped

/-- A method stays one. -/
theorem role_repaired (orderly : Orderly W owner t) (ends : (Repair.ofTree W owner t).descent.Ends t)
    {symbol : Option SymbolId} {s : SymbolId}
    (role : (Repair.ofTree W owner t).role symbol = .method s) :
    (W.secondRepair owner t).role (some s) = .method s := by
  obtain ⟨-, notSetter, isTerm, noField⟩ := (Repair.role_eq_method _).mp role
  refine (Repair.role_eq_method _).mpr ⟨rfl, notSetter, isTerm, fun isGetter => ?_⟩
  obtain ⟨eager, unrecorded⟩ := noField isGetter
  refine ⟨eager, Option.eq_none_iff_forall_ne_some.mpr fun v hv => ?_⟩
  obtain ⟨w, recorded⟩ := (orderly.fieldOf?_of_repaired ends hv).1
  cases unrecorded.symm.trans recorded

/-- A repaired node of the tree has nothing to repair but how lazy values are computed: one case
for each kind of node, in which the first repair leaves nothing that the second would take up. -/
theorem settledNode_tree (orderly : Orderly W owner t) (ends : (Repair.ofTree W owner t).descent.Ends t)
    {x : Tree} (here : t.Contains x) (endsHere : (Repair.ofTree W owner t).descent.Ends x) :
    (W.secondRepair owner t).SettledNode
      ((Repair.ofTree W owner t).tree x) := by
  have part {p : Tree} (hp : p ∈ (Repair.ofTree W owner t).parts x) :
      (Repair.ofTree W owner t).descent.Ends p := endsHere.of_visits (.single hp)
  rw [Repair.tree_eq_node _ endsHere]
  obtain ⟨i, shape⟩ := x
  cases shape with
  | typeTree w => cases w <;> rfl
  | ident name =>
    by_cases stays : (Repair.ofTree W owner t).identifier i name = ⟨i, .ident name⟩
    · rw [Repair.node, stays]
      exact congrArg Tree.shape stays
    · obtain ⟨s, symbol, path⟩ := Repair.identifier_path stays
      rw [Repair.node, path]
      refine orderly.settledNode_path ends rfl ?_ (orderly.paths i name s here symbol stays).1
      simp [Info.takeFrom, symbol]
  | select q name =>
    cases resolved : i.symbol with
    | none => simp [Repair.node, Repair.SettledNode, Repair.selection, resolved]
    | some s =>
      by_cases used : s ∈ (Repair.ofTree W owner t).usedHelpers
      · simp [Repair.node, Repair.SettledNode, Repair.selection, resolved, used]
      · have unused : s ∉ (W.secondRepair owner t).usedHelpers := by
          simp [Repair.ofTree, orderly.usedHelpers_of_repaired ends]
        simp only [Repair.node, Repair.selection_of_unused resolved used, Repair.SettledNode]
        exact congrArg Prod.snd
          (Repair.selection_of_unused (i := { i with marks := {} }) resolved unused)
  | unapply fn args =>
    have recognised := orderly.patterns i fn args here
    cases extractor : (Repair.ofTree W owner t).extractor? fn with
    | none => simp [extractor] at recognised
    | some e =>
      simp only [Repair.node, extractor]
      rfl
  | valDef mods name tpt rhs =>
    simp only [Repair.node]
    split
    next => rfl
    next kept =>
      split
      next s lazyGetter =>
        obtain ⟨-, -, isLazy, isGetter⟩ := (Repair.lazyGetter?_eq_some _).mp lazyGetter
        exact orderly.settledNode_lazyValue ends isLazy isGetter i mods name _ _
      next lazyGetter =>
        have parts : (Repair.ofTree W owner t).parts ⟨i, .valDef mods name tpt rhs⟩ =
            mods.annotations ++ [tpt, rhs] := by
          simp [Repair.parts, kept, lazyGetter]
        refine ⟨orderly.isStorage_repaired ends (v := ⟨i, mods, name, tpt, rhs⟩) here
          (part (by simp [parts])) (part (by simp [parts])) (by simpa using kept), fun s hs => ?_⟩
        cases lazyGetter.symm.trans hs
  | defDef mods name tparams vparamss tpt rhs =>
    simp only [Repair.node]
    split
    next => rfl
    next s f role =>
      obtain ⟨-, -, -, eager, isGetter, -⟩ := (Repair.role_eq_getter _).mp role
      refine ⟨orderly.isStorage_of_isGetter rfl isGetter, fun g hg => ?_⟩
      obtain ⟨same, -, isLazy, -⟩ := (Repair.lazyGetter?_eq_some _).mp hg
      obtain rfl := Option.some.inj same
      cases eager.symm.trans isLazy
    next s role =>
      obtain ⟨-, -, -, isLazy, isGetter⟩ := (Repair.role_eq_lazyValue _).mp role
      exact orderly.settledNode_lazyValue ends isLazy isGetter i mods name _ _
    next s role =>
      have again := orderly.role_repaired ends role
      by_cases initializer : name.text = W.conventions.traitInitializer
      · have symbol : ((Repair.ofTree W owner t).methodParts (Repair.ofTree W owner t).tree s i mods
            name).1.symbol = none := if_pos initializer
        exact Repair.settledNode_of_unresolved (symbol ▸ rfl)
      · have symbol : ((Repair.ofTree W owner t).methodParts (Repair.ofTree W owner t).tree s i mods
            name).1.symbol = some s := if_neg initializer
        exact Repair.settledNode_of_method (symbol ▸ again)
          (orderly.modsSettled ends List.mem_cons_self mods)
    next role =>
      have again : (W.secondRepair owner t).role i.symbol = .unresolved :=
        (Repair.role_eq_unresolved _).mpr
          ((Repair.role_eq_unresolved (Repair.ofTree W owner t)).mp role)
      exact Repair.settledNode_of_unresolved again
  | template parents self body => exact orderly.settleShape_repaired ends here fun c hc => part hc
  | packageDef pid stats => exact orderly.settleShape_repaired ends here fun c hc => part hc
  | block stats expr =>
    have settled := orderly.settleShape_repaired ends here fun c hc => part hc
    obtain ⟨stats', expr', block⟩ : ∃ stats' expr',
        W.settleShape (W.usedHelpers t) (.block stats expr) = .block stats' expr' := by
      simp only [Setting.settleShape]
      split <;> exact ⟨_, _, rfl⟩
    rw [block] at settled
    have repaired : (Repair.ofTree W owner t).node (Repair.ofTree W owner t).tree
        (Repair.ofTree W owner t).tree ⟨i, .block stats expr⟩ =
          ⟨i, (Shape.block stats' expr').mapChildren (Repair.ofTree W owner t).tree⟩ := by
      rw [← block]
      rfl
    rw [repaired]
    exact settled
  | _ => rfl

/-- Nothing in a repaired orderly tree is left to repair, apart from how lazy values are
computed. -/
theorem settledNode (orderly : Orderly W owner t) (ends : (Repair.ofTree W owner t).descent.Ends t)
    {c : Tree} (hc : (W.repairChecked owner t).Contains c) :
    (W.secondRepair owner t).SettledNode c := by
  rcases orderly.arises_contains ends hc with ⟨x, endsHere, stems, rfl⟩ | inert
  · rcases stems.cases with here | rfl | ⟨m, rfl, unresolved⟩
    · exact orderly.settledNode_tree ends here endsHere
    · rw [Repair.tree_empty]
      rfl
    · have role : (Repair.ofTree W owner t).role m.info.symbol = .unresolved := by
        rw [unresolved]
        rfl
      rw [Repair.tree_eq_node _ endsHere]
      simp only [Method.toTree, Repair.node, role]
      refine Repair.settledNode_of_unresolved ?_
      rw [unresolved]
      rfl
  · have used : ∀ s ∈ W.usedHelpers (W.repairChecked owner t), s ∈ W.definedHelpers t :=
      fun s hs => orderly.mem_definedHelpers_of_repaired ends (mem_definedHelpers hs)
    exact (Repair.Inert.settledNode (R := Repair.ofTree W owner (W.repairChecked owner t)) used
      inert).1

end Orderly

end TreeRepair
