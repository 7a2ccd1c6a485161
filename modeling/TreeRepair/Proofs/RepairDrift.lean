import TreeRepair.Proofs.OrderlyRepaired
import TreeRepair.Proofs.RepairSize
import TreeRepair.Proofs.SurfacePasses

namespace TreeRepair

open Relation

namespace Repair

variable {R : Repair}

theorem Keeps.visits {t x : Tree} (settled : ∀ y, t.Contains y → R.SettledNode y)
    (h : R.Keeps t x) : R.descent.Visits t x := by
  induction h with
  | refl => exact .refl
  | tail above hp ih =>
    have here := settled _ (Keeps.contains above)
    exact ih.tail (R.mem_parts_of_mem_keptParts here hp)

/-- The assigned value of a lazy value is never the whole of it. -/
theorem not_settledInitial {x : Tree} (ends : R.descent.Ends x)
    (settled : ∀ y, x.Contains y → R.SettledNode y) (assigned : R.isAssignedLazily x = true) :
    ¬ R.SettledInitial x := by
  have here := settled x .refl
  obtain ⟨i, shape⟩ := x
  cases shape <;> simp only [isAssignedLazily, Bool.false_eq_true, Bool.and_eq_true] at assigned
  case valDef mods name tpt rhs =>
    obtain ⟨getter, assigns⟩ := assigned
    obtain ⟨s, lazyGetter⟩ := Option.isSome_iff_exists.mp getter
    have value : (⟨i, .valDef mods name tpt rhs⟩ : Tree).Contains rhs.initializer :=
      (Tree.contains_of_mem_children (by simp [Tree.children, Shape.children])).trans
        (Tree.contains_of_mem_preorder rhs.initializer_mem_preorder)
    have part : rhs.initializer ∈ R.parts ⟨i, .valDef mods name tpt rhs⟩ := by
      simp only [parts, here.1, lazyGetter, Bool.false_eq_true, if_false]
      exact R.initializer_mem_lazyParts s tpt rhs
    -- the assigned value is smaller than the whole, and its repair adds nothing to it
    have bound := size_tree_le (ends.of_visits (.single part)) fun y hy => settled y (value.trans hy)
    have smaller := Tree.size_initializer_lt assigns
    intro initial
    have same := initial (by simp [isAssignedLazily, getter, assigns])
    have := Tree.size_le_of_same (Tree.same_symm same)
    omega

/-- If there is nothing to repair but how lazy values are computed, a repair changes a tree
exactly if it comes to a lazy value that is computed by way of an assignment. -/
theorem same_tree_iff_not_assigned {t : Tree} (ends : R.descent.Ends t)
    (settled : ∀ y, t.Contains y → R.SettledNode y) :
    (R.tree t).same t = true ↔ ∀ x, R.Keeps t x → R.isAssignedLazily x = false := by
  rw [R.same_tree_iff_settled ends]
  constructor
  · intro all x kept
    by_contra assigned
    refine not_settledInitial (ends.of_visits (kept.visits settled)) ?_ (by simpa using assigned)
      (all x kept).2
    exact fun y hy => settled y (kept.contains.trans hy)
  · intro none x kept
    refine ⟨settled x kept.contains, ?_⟩
    have notAssigned := none x kept
    obtain ⟨i, shape⟩ := x
    cases shape with
    | valDef mods name tpt rhs =>
      intro assigned
      cases notAssigned.symm.trans assigned
    | _ => trivial

theorem rawAnnotations_of_unresolved {x : Tree} (h : x.info.symbol = none) :
    R.rawAnnotations x = [] := by
  obtain ⟨i, shape⟩ := x
  have unresolved : i.symbol = none := h
  cases shape <;> simp [rawAnnotations, lazyGetter?, role, unresolved]

theorem isAssignedLazily_of_unresolved {x : Tree} (h : x.info.symbol = none) :
    R.isAssignedLazily x = false := by
  obtain ⟨i, shape⟩ := x
  have unresolved : i.symbol = none := h
  cases shape <;> simp [isAssignedLazily, lazyGetter?, unresolved]

theorem acc_of_undeclaring {k : Source} (h : ∀ y ∈ R.drawn k, y.Undeclaring) :
    Acc R.descent.LeadsTo k := by
  refine ⟨k, fun j => ?_⟩
  rintro ⟨y, hy, x, visited, hj⟩
  exact ends_of_undeclaring (h y hy) x visited j hj

theorem isLazy_of_declared {x : Tree} {s : SymbolId} (settled : R.SettledNode x)
    (h : .declared s ∈ R.sources x) : (R.get s).isLazy = true := by
  obtain ⟨i, shape⟩ := x
  cases shape with
  | valDef mods name tpt rhs =>
    simp only [sources, settled.1, Bool.false_eq_true, if_false] at h
    split at h
    next g lazyGetter =>
      obtain rfl := declared_mem_accessorSources.mp h
      exact ((R.lazyGetter?_eq_some).mp lazyGetter).2.2.1
    next => simp at h
  | defDef mods name tparams vparamss tpt rhs =>
    simp only [SettledNode] at settled
    simp only [sources] at h
    split at settled
    next role => simp [role] at h
    next role => simp [role] at h
    next => exact settled.elim
  | _ => simp [sources] at h

end Repair

namespace Orderly

variable {W : Setting} {owner : Option SymbolId} {t : Tree}

/-- The second repair ends: it draws on nothing but inert annotations. -/
theorem ends_repaired (orderly : Orderly W owner t) (ends : (Repair.ofTree W owner t).descent.Ends t) :
    (W.secondRepair owner t).descent.Ends (W.repairChecked owner t) := by
  intro x visited k hk
  refine Repair.acc_of_undeclaring fun y hy => ?_
  cases k with
  | recorded s => exact (orderly.recorded s y hy).undeclaring
  | declared s =>
    have isLazy : (W.symbols.get s).isLazy = true := by
      have stems := Repair.Stems.of_visits visited
      rcases stems.cases with here | gap | ⟨m, copy, unresolved⟩
      · have settled := orderly.settledNode ends here
        have isLazy := Repair.isLazy_of_declared settled hk
        rwa [Repair.get_ofTree] at isLazy
      · rw [gap] at hk
        simp [Repair.sources, Tree.empty, Tree.bare] at hk
      · rw [copy] at hk
        simp [Repair.sources, Method.toTree, Repair.role, unresolved] at hk
    cases field : (W.secondRepair owner t).fieldOf? s with
    | none => simp [Repair.drawn, field] at hy
    | some v => cases isLazy.symm.trans (orderly.fieldOf?_of_repaired ends field).2

end Orderly

/-- A second repair changes nothing exactly if it finds nothing to repair at any node it comes to.
In an orderly tree, all it can find is a lazy value whose initial value still contains an
assignment. -/
theorem repair_twice_same_iff {W : Setting} {owner : Option SymbolId} {t : Tree}
    (ends : (Repair.ofTree W owner t).descent.Ends t) :
    ((W.secondRepair owner t).descent.Ends (W.repairChecked owner t) →
      ((W.repairChecked owner (W.repairChecked owner t)).same (W.repairChecked owner t) = true ↔
        ∀ x, (W.secondRepair owner t).Keeps (W.repairChecked owner t) x →
          (W.secondRepair owner t).SettledNode x ∧
            (W.secondRepair owner t).SettledInitial x)) ∧
    (Orderly W owner t →
      (W.secondRepair owner t).descent.Ends (W.repairChecked owner t) ∧
        ((W.repairChecked owner (W.repairChecked owner t)).same (W.repairChecked owner t) = true ↔
          ∀ x, (W.secondRepair owner t).Keeps (W.repairChecked owner t) x →
            (W.secondRepair owner t).isAssignedLazily x = false)) := by
  refine ⟨fun endsAgain => Repair.same_tree_iff_settled _ endsAgain, fun orderly => ?_⟩
  have endsAgain := orderly.ends_repaired ends
  exact ⟨endsAgain, Repair.same_tree_iff_not_assigned endsAgain fun y hy => orderly.settledNode ends hy⟩

/-- The method of a lazy value that is assigned once. -/
def lazyMethod (e : Tree) : Method :=
  { lazyGetter with
    rhs := .bare (.block [.bare (.assign (.bare (.ident (.term "y"))) e)]
      (.bare (.ident (.term "y")))) }

def lazyField (e : Tree) : Field :=
  ⟨{ symbol := some ⟨"h"⟩ }, { flags := .single .lazy }, .term "y", .bare (.typeTree none), e⟩

section LazyMethod

variable {e : Tree} (written : e.Surface) (noClass : e.shape.caseName? = none)

include written noClass in
theorem lazyMethod_surface : (lazyMethod e).rhs.Surface := by
  have bare : ({} : Info).Bare := ⟨rfl, rfl, rfl⟩
  simpa [lazyMethod, Tree.bare, Tree.surface_mk, Tree.surfaceNode_iff, Shape.children,
    Shape.others, Shape.written, Shape.modifiers?, Shape.caseName?, bare, written] using noClass

theorem type_surface : (Tree.bare (.typeTree none)).Surface := by
  have bare : ({} : Info).Bare := ⟨rfl, rfl, rfl⟩
  simp [Tree.bare, Tree.surface_mk, Tree.surfaceNode_iff, Shape.children,
    Shape.others, Shape.written, Shape.modifiers?, bare]

/-- Below a node over written trees, everything is written. -/
theorem Tree.eq_or_surfaceNode {i : Info} {s : Shape Tree} (unresolved : s.written = none)
    (below : ∀ c ∈ s.children, c.Surface) {n : Tree} (h : (⟨i, s⟩ : Tree).Contains n) :
    n = ⟨i, s⟩ ∨ n.SurfaceNode := by
  have nodes : ∀ m ∈ (⟨i, s⟩ : Tree).preorder, m = ⟨i, s⟩ ∨ m.SurfaceNode := by
    intro m hm
    rcases mem_preorder.mp hm with rfl | ⟨c, hc, hm⟩
    · exact .inl rfl
    · exact .inr (below c hc m hm)
  refine nodes n (mem_preorder_of_contains (fun m hm => ?_) h)
  rcases nodes m hm with rfl | node
  · exact unresolved
  · exact node.notResolved

include written noClass in
theorem lazyMethod_nodes {n : Tree} (h : (lazyMethod e).toTree.Contains n) :
    n = (lazyMethod e).toTree ∨ n.SurfaceNode := by
  refine Tree.eq_or_surfaceNode rfl ?_ h
  have rhs := lazyMethod_surface written noClass
  simpa [lazyMethod, lazyGetter, Shape.children, type_surface] using rhs

include written in
theorem lazyField_nodes {n : Tree} (h : (lazyField e).toTree.Contains n) :
    n = (lazyField e).toTree ∨ n.SurfaceNode := by
  refine Tree.eq_or_surfaceNode rfl ?_ h
  simpa [lazyField, Shape.children, type_surface] using written

include written noClass in
theorem lazyMethod_lone (n : Tree) (h : (lazyMethod e).toTree.Contains n) :
    n.symbol = some ⟨"h"⟩ ∨ n.SurfaceNode := by
  rcases lazyMethod_nodes written noClass h with rfl | node
  · exact .inl rfl
  · exact .inr node

include written in
theorem lazyField_lone (n : Tree) (h : (lazyField e).toTree.Contains n) :
    n.symbol = some ⟨"h"⟩ ∨ n.SurfaceNode := by
  rcases lazyField_nodes written h with rfl | node
  · exact .inl rfl
  · exact .inr node

/-- No accessors are recorded for a tree in which only the top has a symbol, if that is the
getter. -/
theorem fieldOf?_of_lone_getter {t : Tree}
    (nodes : ∀ n, t.Contains n → n.symbol = some ⟨"h"⟩ ∨ n.SurfaceNode) (s : SymbolId) :
    (Repair.ofTree counterSetting none t).fieldOf? s = none := by
  refine Option.eq_none_iff_forall_ne_some.mpr fun v hv => ?_
  obtain ⟨hn, f, symbol, -, accessor⟩ :=
    Repair.mem_fields_ofTree.mp (Repair.mem_fields_of_fieldOf? hv)
  rcases nodes _ (Tree.contains_of_mem_preorder hn) with getter | node
  · obtain rfl := Option.some.inj (symbol.symm.trans getter)
    exact absurd accessor (by
      have : (counterSetting.symbols.get ⟨"h"⟩).getter = none ∧
        (counterSetting.symbols.get ⟨"h"⟩).setter = none := by decide
      simp [this])
  · cases node.bare.symbol.symm.trans symbol

theorem lone_getter_ends {t : Tree}
    (nodes : ∀ n, t.Contains n → n.symbol = some ⟨"h"⟩ ∨ n.SurfaceNode) :
    (Repair.ofTree counterSetting none t).descent.Ends t :=
  Repair.ends_of_unaccessed counterSetting_annotations (fieldOf?_of_lone_getter nodes)

theorem lone_lazyValue {t : Tree} (rhs : Tree)
    (nodes : ∀ n, t.Contains n → n.symbol = some ⟨"h"⟩ ∨ n.SurfaceNode) :
    (Repair.ofTree counterSetting none t).lazyValue (Repair.ofTree counterSetting none t).tree ⟨"h"⟩
      { symbol := some ⟨"h"⟩ } { flags := .single .lazy } (.term "y") (.bare (.typeTree none)) rhs =
      (lazyField rhs).toTree := by
  have flags : (Repair.ofTree counterSetting none t).keptFlags { flags := .single .lazy } =
      .single .lazy := by
    have : (Flags.single .lazy).inter counterSetting.conventions.keptFlags = .single .lazy := by
      decide
    exact this
  have within : (Repair.ofTree counterSetting none t).within ⟨"h"⟩ { flags := .single .lazy } =
      ({ flags := .single .lazy } : Modifiers Tree).within := rfl
  simp [Repair.lazyValue, lazyField, Field.toTree, fieldOf?_of_lone_getter nodes, flags, within,
    Repair.annotations, addAnnotations, Repair.get_ofTree, counterSetting_annotations]

theorem lazyGetter_flags : (counterSetting.symbols.get ⟨"h"⟩).isSetter = false ∧
    (counterSetting.symbols.get ⟨"h"⟩).isTerm = true ∧
    (counterSetting.symbols.get ⟨"h"⟩).isLazy = true ∧
    (counterSetting.symbols.get ⟨"h"⟩).isGetter = true := by decide

include written noClass in
/-- The repair takes the assigned value out of the method. -/
theorem repairChecked_lazyMethod :
    counterSetting.repairChecked none (lazyMethod e).toTree = (lazyField e).toTree := by
  have nodes := lazyMethod_lone written noClass
  have role : (Repair.ofTree counterSetting none (lazyMethod e).toTree).role
      (lazyMethod e).info.symbol = .lazyValue ⟨"h"⟩ :=
    (Repair.role_eq_lazyValue _).mpr ⟨rfl, lazyGetter_flags⟩
  have value : (lazyMethod e).rhs.initializer = e := by
    simp [lazyMethod, Tree.initializer, Tree.bare, Tree.preorder_eq, Tree.children, Shape.children]
  have repaired := lone_lazyValue e nodes
  have unrecorded := fieldOf?_of_lone_getter nodes ⟨"h"⟩
  rw [Setting.repairChecked, Repair.tree_eq_node _ (lone_getter_ends nodes)]
  generalize Repair.ofTree counterSetting none (lazyMethod e).toTree = R at *
  simp only [Method.toTree, Repair.node, role, unrecorded, value, R.tree_surface written]
  rw [← repaired]
  exact congrArg (fun tpt => R.lazyValue R.tree _ _ _ _ tpt e) (R.tree_surface type_surface)

include written in
/-- A second repair does the same to the value. -/
theorem repairChecked_lazyField :
    counterSetting.repairChecked none (lazyField e).toTree = (lazyField e.initializer).toTree := by
  have nodes := lazyField_lone written
  have storage : (Repair.ofTree counterSetting none (lazyField e).toTree).isStorage
      (lazyField e).info (lazyField e).tpt (lazyField e).rhs = false := by
    have computed : (counterSetting.symbols.get ⟨"h"⟩).isArtifact = false ∧
        (counterSetting.symbols.get ⟨"h"⟩).isPrivateThis = false := by decide
    simp [Repair.isStorage, lazyField, Tree.bare, Repair.get_ofTree, computed]
  have lazyGetter : (Repair.ofTree counterSetting none (lazyField e).toTree).lazyGetter?
      (lazyField e).info.symbol = some ⟨"h"⟩ :=
    (Repair.lazyGetter?_eq_some _).mpr ⟨rfl, lazyGetter_flags.2⟩
  have initial : e.initializer.Surface := fun n hn =>
    written n (Tree.mem_preorder_trans e.initializer_mem_preorder hn)
  have repaired := lone_lazyValue e.initializer nodes
  have unrecorded := fieldOf?_of_lone_getter nodes ⟨"h"⟩
  rw [Setting.repairChecked, Repair.tree_eq_node _ (lone_getter_ends nodes)]
  generalize Repair.ofTree counterSetting none (lazyField e).toTree = R at *
  simp only [Field.toTree, Repair.node, storage, lazyGetter, unrecorded, Bool.false_eq_true,
    if_false]
  have value : R.tree (lazyField e).rhs.initializer = e.initializer := R.tree_surface initial
  have type : R.tree (lazyField e).tpt = .bare (.typeTree none) := R.tree_surface type_surface
  rw [value, type]
  exact repaired

include written noClass in
theorem lazyMethod_unresolved {n : Tree} (h : (lazyMethod e).toTree.Contains n)
    (other : n.kind ≠ .method) : n.symbol = none := by
  rcases lazyMethod_nodes written noClass h with rfl | node
  · exact absurd rfl other
  · exact node.bare.symbol

include written noClass in
theorem lazyMethod_orderly : Orderly counterSetting none (lazyMethod e).toTree where
  getters := SymbolTable.forall_get (P := fun s => s.isGetter = true →
    s.getter = none ∧ s.setter = none) (by decide) (by decide)
  computed := SymbolTable.forall_get (P := fun s => s.isGetter = true → s.isLazy = true →
    s.isArtifact = false) (by decide) (by decide)
  recorded s a ha := by simp [counterSetting_annotations] at ha
  unrepaired x hx a ha := by
    rcases lazyMethod_nodes written noClass hx with rfl | node
    · simp only [Repair.rawAnnotations, Method.toTree, lazyMethod, lazyGetter] at ha
      split at ha <;> simp at ha
    · rw [Repair.rawAnnotations_of_unresolved node.bare.symbol] at ha
      simp at ha
  patterns i fn args hx := by
    rcases lazyMethod_nodes written noClass hx with root | node
    · cases root
    · exact absurd rfl (node.notExtracted fn args)
  paths i name s hx symbol := by
    have unresolved := lazyMethod_unresolved written noClass hx (by simp [Tree.kind])
    cases unresolved.symm.trans symbol
  stored v hx s g symbol := by
    have unresolved := lazyMethod_unresolved written noClass hx (by simp [Tree.kind, Field.toTree])
    cases unresolved.symm.trans symbol
  storage v hx s symbol := by
    have unresolved := lazyMethod_unresolved written noClass hx (by simp [Tree.kind, Field.toTree])
    cases unresolved.symm.trans symbol
  distinct x hx := by
    have none : x.shape.statements.filter counterSetting.isDefaultHelper = [] := by
      refine List.filter_eq_nil_iff.mpr fun c hc => ?_
      have inTree := hx.trans
        (Tree.contains_of_mem_children (Shape.mem_children_of_mem_statements hc))
      rcases lazyMethod_nodes written noClass inTree with rfl | node
      · have unowned : (counterSetting.symbols.get ⟨"h"⟩).owner = none := rfl
        simp [Setting.isDefaultHelper, Method.toTree, lazyMethod, lazyGetter, Tree.symbol, unowned]
      · rw [counterSetting.isDefaultHelper_of_unresolved node.bare.symbol]
        exact Bool.false_ne_true
    simp [Setting.helperNames, none]

end LazyMethod

def plainValue : Tree := .bare (.literal (.int 2))

/-- A value that is computed by way of an assignment of its own. -/
def nestedValue : Tree :=
  .bare (.block [.bare (.assign (.bare (.ident (.term "z"))) (.bare (.literal (.int 1))))]
    (.bare (.ident (.term "z"))))

theorem plainValue_surface : plainValue.Surface := by
  have bare : ({} : Info).Bare := ⟨rfl, rfl, rfl⟩
  simp [plainValue, Tree.bare, Tree.surface_mk, Tree.surfaceNode_iff, Shape.children, Shape.others,
    Shape.written, Shape.modifiers?, bare]

theorem nestedValue_surface : nestedValue.Surface := by
  have bare : ({} : Info).Bare := ⟨rfl, rfl, rfl⟩
  simp [nestedValue, Tree.bare, Tree.surface_mk, Tree.surfaceNode_iff, Shape.children,
    Shape.others, Shape.written, Shape.modifiers?, Shape.caseName?, bare]

theorem lazyMethod_repaired_twice :
    (Repair.ofTree counterSetting none (lazyMethod plainValue).toTree).descent.Ends
        (lazyMethod plainValue).toTree ∧
      Orderly counterSetting none (lazyMethod plainValue).toTree ∧
      (counterSetting.repairChecked none
        (counterSetting.repairChecked none (lazyMethod plainValue).toTree)).same
          (counterSetting.repairChecked none (lazyMethod plainValue).toTree) = true := by
  have ends := lone_getter_ends (lazyMethod_lone plainValue_surface rfl)
  have orderly := lazyMethod_orderly plainValue_surface rfl
  refine ⟨ends, orderly, ((repair_twice_same_iff ends).2 orderly).2.mpr fun x kept => ?_⟩
  have inField := kept.contains
  rw [repairChecked_lazyMethod plainValue_surface rfl] at inField
  rcases lazyField_nodes plainValue_surface inField with rfl | node
  · simp [Repair.isAssignedLazily, lazyField, Field.toTree, plainValue, Tree.assigns, Tree.bare,
      Tree.preorder_eq, Tree.children, Shape.children]
  · exact Repair.isAssignedLazily_of_unresolved node.bare.symbol

/-- If the initial value of a lazy value assigns something itself, the second repair takes that
for the initial value. -/
theorem nested_assignment_drifts :
    Orderly counterSetting none (lazyMethod nestedValue).toTree ∧
      (counterSetting.repairChecked none
        (counterSetting.repairChecked none (lazyMethod nestedValue).toTree)).same
          (counterSetting.repairChecked none (lazyMethod nestedValue).toTree) = false := by
  refine ⟨lazyMethod_orderly nestedValue_surface rfl, ?_⟩
  have value : nestedValue.initializer = .bare (.literal (.int 1)) := by
    simp [nestedValue, Tree.initializer, Tree.bare, Tree.preorder_eq, Tree.children, Shape.children]
  rw [repairChecked_lazyMethod nestedValue_surface rfl, repairChecked_lazyField nestedValue_surface,
    value]
  by_contra same
  simp only [Bool.not_eq_false, lazyField, Field.toTree] at same
  obtain ⟨-, -, -, -, initial⟩ := Tree.same_valDef_iff.mp same
  have outline := Tree.outline_eq_of_same initial
  simp [nestedValue, Tree.bare, Shape.outline] at outline

end TreeRepair
