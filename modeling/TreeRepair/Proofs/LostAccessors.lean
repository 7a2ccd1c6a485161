import TreeRepair.Proofs.AccessorFamilies

namespace TreeRepair

open Relation

namespace Repair

variable (R : Repair)

/-- A declaration that the repair leaves out: a private value with a getter, or a setter. -/
structure Dropped (x : Tree) : Prop where
  gone : R.tree x = .empty
  accessor : (∃ (v : Field) (f : SymbolId), x = v.toTree ∧ v.info.symbol = some f ∧
      (R.get f).isTerm = true ∧ (R.get f).isPrivateThis = true ∧
      (R.get f).getter.isSome = true) ∨
    ∃ (m : Method) (s : SymbolId), x = m.toTree ∧ m.info.symbol = some s ∧
      (R.get s).isSetter = true

/-- A recorded value with this getter, of which a declaration is another one or the setter. -/
structure Owned (x : Tree) (v : Field) (g : SymbolId) : Prop where
  recorded : ∃ a, R.fieldOf? a = some v
  owner : ∃ f, v.info.symbol = some f ∧ (R.get f).getter = some g ∧
    ((∃ w : Field, x = w.toTree ∧ w.info.symbol = some f) ∨
      ∃ (m : Method) (s : SymbolId), x = m.toTree ∧ m.info.symbol = some s ∧
        (R.get f).setter = some s)

/-- Whatever is left out comes back in a value under the getter's symbol. -/
def KeepsAccessors (t : Tree) : Prop :=
  ∀ x, R.Reaches t x → R.Dropped x → ∃ v g, R.Owned x v g ∧
    ∃ w : Field, (R.tree t).Contains w.toTree ∧ w.info.symbol = some g ∧ w.rhs = R.tree v.rhs

/-- The initial value with which the method of a getter comes back as a value, if it does. -/
def initial? (g : SymbolId) (m : Method) : Option Tree :=
  if (R.get g).isSetter || !(R.get g).isGetter then none
  else if (R.get g).isLazy then some (R.tree m.rhs.initializer)
  else (R.fieldOf? g).map fun f => R.tree f.rhs

/-- For whatever is left out, the repair also comes to the method of a getter. -/
def MeetsGetters (t : Tree) : Prop :=
  ∀ x, R.Reaches t x → R.Dropped x → ∃ v g, R.Owned x v g ∧
    ∃ m : Method, R.Reaches t m.toTree ∧ m.info.symbol = some g ∧
      R.initial? g m = some (R.tree v.rhs)

variable {R}

theorem exists_field_of_initial? {m : Method} {g : SymbolId} {e : Tree} (ends : R.descent.Ends m.toTree)
    (symbol : m.info.symbol = some g) (initial : R.initial? g m = some e) :
    ∃ w : Field, R.tree m.toTree = w.toTree ∧ w.info.symbol = some g ∧ w.rhs = e := by
  rw [R.tree_eq_node ends]
  unfold initial? at initial
  split at initial
  next => simp at initial
  next isGetter =>
    simp only [Bool.or_eq_true, Bool.not_eq_true', not_or, Bool.not_eq_true, Bool.not_eq_false]
      at isGetter
    obtain ⟨notSetter, isGetter⟩ := isGetter
    have isTerm := Symbol.isTerm_of_isGetter isGetter
    split at initial
    next isLazy =>
      cases initial
      have role : R.role m.info.symbol = .lazyValue g :=
        R.role_eq_lazyValue.mpr ⟨symbol, notSetter, isTerm, isLazy, isGetter⟩
      simp only [Method.toTree, node, role]
      exact ⟨⟨_, _, _, _, _⟩, rfl, rfl, rfl⟩
    next eager =>
      obtain ⟨f, field, rfl⟩ := Option.map_eq_some_iff.mp initial
      have role : R.role m.info.symbol = .getter g f :=
        R.role_eq_getter.mpr ⟨symbol, notSetter, isTerm, by simpa using eager, isGetter, field⟩
      simp only [Method.toTree, node, role]
      exact ⟨⟨_, _, _, _, _⟩, rfl, rfl, rfl⟩

theorem keepsAccessors_of_meetsGetters {t : Tree} (ends : R.descent.Ends t) (h : R.MeetsGetters t) :
    R.KeepsAccessors t := by
  intro x reached dropped
  obtain ⟨v, g, owned, m, met, symbol, initial⟩ := h x reached dropped
  obtain ⟨w, repaired, carried, rhs⟩ := exists_field_of_initial? (met.ends ends) symbol initial
  exact ⟨v, g, owned, w, repaired ▸ met.contains ends, carried, rhs⟩

/-- A repaired node is a value under some symbol only if the node was a value or a getter. -/
theorem origin_of_field {x : Tree} {w : Field} {g : SymbolId} (ends : R.descent.Ends x)
    (repaired : R.tree x = w.toTree) (symbol : w.info.symbol = some g) :
    (∃ v : Field, x = v.toTree ∧ v.info.symbol = some g) ∨
      ∃ m : Method, x = m.toTree ∧ m.info.symbol = some g ∧ R.initial? g m = some w.rhs := by
  have declares : x.declares g = true := by
    refine R.declares_of_tree ends ?_
    simp [repaired, Field.toTree, Tree.declares, symbol]
  rw [R.tree_eq_node ends] at repaired
  obtain ⟨i, s⟩ := x
  cases s <;> simp only [Tree.declares, Bool.false_eq_true, decide_eq_true_eq] at declares
  case valDef mods name tpt rhs => exact .inl ⟨⟨i, mods, name, tpt, rhs⟩, rfl, declares⟩
  case defDef mods name tparams vparamss tpt rhs =>
    refine .inr ⟨⟨i, mods, name, tparams, vparamss, tpt, rhs⟩, rfl, declares, ?_⟩
    simp only [node] at repaired
    split at repaired
    next => simp [Tree.empty, Tree.bare, Field.toTree] at repaired
    next s f role =>
      obtain ⟨carried, notSetter, -, eager, isGetter, field⟩ := R.role_eq_getter.mp role
      obtain rfl := Option.some.inj (carried.symm.trans declares)
      obtain ⟨-, -, -, -, rhs⟩ : _ ∧ _ := by simpa [accessedField, Field.toTree] using repaired
      simp [initial?, notSetter, isGetter, eager, field, rhs]
    next s role =>
      obtain ⟨carried, notSetter, -, isLazy, isGetter⟩ := R.role_eq_lazyValue.mp role
      obtain rfl := Option.some.inj (carried.symm.trans declares)
      obtain ⟨-, -, -, -, rhs⟩ : _ ∧ _ := by simpa [lazyValue, Field.toTree] using repaired
      simp [initial?, notSetter, isGetter, isLazy, rhs]
    next => simp [Field.toTree] at repaired
    next => simp [Field.toTree, Shape.mapChildren] at repaired

theorem Stems.contains_field {t : Tree} {v : Field} (h : R.Stems t.Contains v.toTree) :
    t.Contains v.toTree := by
  generalize value : v.toTree = x at h
  cases h with
  | part contains => exact contains
  | gap => simp [Field.toTree, Tree.empty, Tree.bare] at value
  | @copy y contains helper =>
    obtain ⟨i, shape⟩ := y
    cases shape <;> simp [Setting.isDefaultHelper] at helper
    simp [Field.toTree, Setting.movedCopy] at value

/-- If symbols carry no declarations in their annotations and no value of the tree stands under a
getter, every value under the getter comes from a method. -/
theorem exists_method_of_field {W : Setting} {owner : Option SymbolId} {t : Tree}
    (repair : R = .ofTree W owner t)
    (annotations : ∀ s, ∀ a ∈ (W.symbols.get s).annotations, a.Undeclaring) {g : SymbolId}
    (methods : ∀ v : Field, t.Contains v.toTree → v.info.symbol ≠ some g) {x : Tree}
    (ends : R.descent.Ends x) (reached : R.Reaches t x) (stems : R.Stems t.Contains x) {w : Field}
    (contains : (R.tree x).Contains w.toTree) (symbol : w.info.symbol = some g) :
    ∃ m : Method, R.Reaches t m.toTree ∧ m.info.symbol = some g ∧
      R.initial? g m = some w.rhs := by
  have declares : w.toTree.declares g = true := by simp [Field.toTree, Tree.declares, symbol]
  refine Descent.Ends.induct (motive := fun x => R.Reaches t x → R.Stems t.Contains x →
    (R.tree x).Contains w.toTree → ∃ m : Method, R.Reaches t m.toTree ∧ m.info.symbol = some g ∧
      R.initial? g m = some w.rhs) (fun x ends parts sources reached stems contains => ?_)
    ends reached stems contains
  rcases contains.cases_head with repaired | ⟨c, hc, below⟩
  · rcases origin_of_field ends repaired symbol with ⟨v, rfl, carried⟩ | ⟨m, rfl, found⟩
    · exact absurd carried (methods v stems.contains_field)
    · exact ⟨m, reached, found⟩
  · rw [R.tree_eq_node ends] at hc
    rcases R.mem_subtrees_node hc with ⟨p, hp, rfl⟩ | ⟨k, hk, y, hy, rfl⟩ | raw | ⟨n, v, rfl⟩
    · exact parts p hp (reached.part hp) (stems.part_contains hp) below
    · cases k with
      | declared s =>
        have drawn : R.Stems t.Contains y := by
          subst repair
          exact .part (Tree.contains_of_mem_preorder (mem_preorder_of_drawn hy))
        exact sources _ hk y hy (reached.field hk hy) drawn below
      | recorded s =>
        have recorded : y ∈ (W.symbols.get s).annotations := by
          subst repair
          exact hy
        rw [undeclaring_tree (annotations s y recorded) _ below g] at declares
        contradiction
    · have inTree := (stems.child Tree.contains_down
        (R.mem_children_of_mem_rawAnnotations raw)).trans below
      exact absurd symbol (methods w inTree)
    · rw [undeclaring_path _ below g] at declares
      contradiction

end Repair

/-- No declaration of a field is lost exactly when the repair comes to the method of its getter;
the method is all that is needed, and where getters are declared by methods only nothing else
helps. -/
theorem keepsAccessors_iff_meetsGetters {W : Setting} {owner : Option SymbolId} {t : Tree}
    {R : Repair} (repair : R = .ofTree W owner t) (ends : R.descent.Ends t) :
    (R.MeetsGetters t → R.KeepsAccessors t) ∧
      ((∀ s, ∀ a ∈ (W.symbols.get s).annotations, a.Undeclaring) →
        (∀ a v f g, R.fieldOf? a = some v → v.info.symbol = some f →
          (R.get f).getter = some g → ∀ w : Field, t.Contains w.toTree →
            w.info.symbol ≠ some g) →
        (R.KeepsAccessors t ↔ R.MeetsGetters t)) := by
  refine ⟨Repair.keepsAccessors_of_meetsGetters ends, fun annotations methods =>
    ⟨fun keeps x reached dropped => ?_, Repair.keepsAccessors_of_meetsGetters ends⟩⟩
  obtain ⟨v, g, owned, w, contains, symbol, rhs⟩ := keeps x reached dropped
  obtain ⟨a, recorded⟩ := owned.recorded
  obtain ⟨f, carried, getter, -⟩ := owned.owner
  obtain ⟨m, met⟩ := Repair.exists_method_of_field repair annotations
    (methods a v f g recorded carried getter) ends .refl (.part .refl) contains symbol
  exact ⟨v, g, owned, m, rhs ▸ met⟩

theorem Repair.Reaches.stems {W : Setting} {owner : Option SymbolId} {t x : Tree}
    (h : (Repair.ofTree W owner t).Reaches t x) : (Repair.ofTree W owner t).Stems t.Contains x := by
  induction h with
  | refl => exact .part .refl
  | part _ mem ih => exact ih.part_contains mem
  | field _ _ mem _ => exact .part (Tree.contains_of_mem_preorder (Repair.mem_preorder_of_drawn mem))

theorem Repair.Stems.contains_method {R : Repair} {t : Tree} {m : Method} {s : SymbolId}
    (h : R.Stems t.Contains m.toTree) (symbol : m.info.symbol = some s) : t.Contains m.toTree := by
  generalize method : m.toTree = x at h
  cases h with
  | part contains => exact contains
  | gap => simp [Method.toTree, Tree.empty, Tree.bare] at method
  | @copy y contains helper =>
    obtain ⟨i, shape⟩ := y
    cases shape <;> simp [Setting.isDefaultHelper] at helper
    simp [Method.toTree, Setting.movedCopy] at method
    simp [method.1] at symbol

theorem counterTree_contains {n : Tree} (h : counterTree.Contains n) : n ∈ counterTree.preorder :=
  Tree.mem_preorder_of_contains counterTree_unresolved h

theorem counterTree_setter {m : Method} {s : SymbolId} (h : m.toTree ∈ counterTree.preorder)
    (symbol : m.info.symbol = some s) (isSetter : (counterSetting.symbols.get s).isSetter = true) :
    s = ⟨"s"⟩ := by
  obtain ⟨i, mods, name, tparams, vparamss, tpt, rhs⟩ := m
  have symbols : i.symbol = some ⟨"h"⟩ ∨ i.symbol = some ⟨"s"⟩ ∨ i.symbol = some ⟨"g"⟩ := by
    rw [counterTree_preorder] at h
    simp [counterTree, Tree.bare, Tree.empty, Method.toTree, Field.toTree,
      lazyGetter, counterSetter, counterField, lazyStorage, counterGetter] at h
    grind
  rcases symbols with carried | carried | carried
  · cases carried.symm.trans symbol
    exact absurd isSetter (by decide)
  · exact Option.some.inj (symbol.symm.trans carried)
  · cases carried.symm.trans symbol
    exact absurd isSetter (by decide)

theorem counterTree_fieldOf? : counterRepair.fieldOf? ⟨"g"⟩ = some counterField :=
  counterFamily.fieldOf? none fun x hx => Tree.mem_preorder_of_mem_children
    (by simpa [counterTree, Tree.bare, Tree.children, Shape.children] using .inr hx)
    x.self_mem_preorder

theorem counterTree_meetsGetters : counterRepair.MeetsGetters counterTree := by
  intro x reached dropped
  have stems := Repair.Reaches.stems reached
  refine ⟨counterField, ⟨"g"⟩, ⟨⟨⟨"g"⟩, counterTree_fieldOf?⟩, ⟨"f"⟩, rfl, by decide, ?_⟩,
    counterGetter, ?_, rfl, ?_⟩
  · rcases dropped.accessor with ⟨v, f, rfl, symbol, -, privateThis, -⟩ |
      ⟨m, s, rfl, symbol, isSetter⟩
    · rcases counterTree_fields (counterTree_contains stems.contains_field) with rfl | rfl
      · exact .inl ⟨_, rfl, rfl⟩
      · cases symbol
        exact absurd privateThis (by decide)
    · have contains := counterTree_contains (stems.contains_method symbol)
      obtain rfl := counterTree_setter contains symbol isSetter
      exact .inr ⟨m, _, rfl, symbol, by decide⟩
  · exact .part .refl (Repair.mem_parts_of_statement (by simp [counterBody]) counterFamily.notHelper)
  · have getter : (counterRepair.get ⟨"g"⟩).isSetter = false ∧
        (counterRepair.get ⟨"g"⟩).isGetter = true ∧ (counterRepair.get ⟨"g"⟩).isLazy = false := by
      decide
    simp [Repair.initial?, getter, counterTree_fieldOf?]

theorem counterTree_keepsAccessors :
    counterRepair.descent.Ends counterTree ∧ counterRepair.KeepsAccessors counterTree := by
  refine ⟨counterTree_ends, ?_⟩
  have exactly := (keepsAccessors_iff_meetsGetters (R := counterRepair) rfl counterTree_ends).2
  refine (exactly (fun s a ha => ?_) fun a v f g field carried getter w contains => ?_).mpr
    counterTree_meetsGetters
  · simp [counterSetting_annotations] at ha
  · have declared := (Repair.mem_fields_ofTree.mp (Repair.mem_fields_of_fieldOf? field)).1
    rcases counterTree_fields declared with rfl | rfl <;> cases carried <;>
      rcases counterTree_fields (counterTree_contains contains) with rfl | rfl <;>
      intro symbol <;> cases symbol <;> exact absurd getter (by decide)

/-- A variable whose getter is not among the statements. -/
def strayBody : List Tree := [counterField.toTree, counterSetter.toTree]

def strayTree : Tree := .bare (.template [] .empty strayBody)

def strayRepair : Repair := .ofTree counterSetting none strayTree

theorem strayTree_preorder : strayTree.preorder = [strayTree, .empty, counterField.toTree,
    counterField.tpt, counterField.rhs, counterSetter.toTree, counterSetter.tpt, .empty] := by
  simp only [strayTree, strayBody, Tree.bare, Tree.empty, Tree.preorder_eq, Tree.children,
    Shape.children, counterSetter, counterField, Method.toTree, Field.toTree, List.flatMap_cons,
    List.flatMap_nil, List.append_nil, List.nil_append, List.flatten_nil, List.flatten_cons,
    List.cons_append]

theorem strayTree_ends : strayRepair.descent.Ends strayTree := by
  refine Repair.ends_of_plain_fields counterSetting_annotations fun v hv y hy => ?_
  have field := List.mem_filterMap.mpr ⟨_, hv, Tree.field?_eq_some.mpr rfl⟩
  rw [strayTree_preorder] at field
  have : v ∈ [counterField] := field
  obtain rfl : v = counterField := by simpa using this
  rcases hy with rfl | rfl <;> exact ⟨rfl, rfl⟩

theorem strayTree_reaches {x : Tree} (h : x ∈ strayBody) : strayRepair.Reaches strayTree x := by
  refine .part .refl (Repair.mem_parts_of_statement h ?_)
  simp only [strayBody, List.mem_cons, List.not_mem_nil, or_false] at h
  rcases h with rfl | rfl
  · rfl
  · decide

theorem strayTree_field : strayRepair.tree counterField.toTree = .empty := by
  have field : strayRepair.fieldOf? ⟨"g"⟩ = some counterField := by
    simp only [strayRepair, Repair.fieldOf?, Repair.ofTree, strayTree_preorder]
    rfl
  have storage :
      strayRepair.isStorage counterField.info counterField.tpt counterField.rhs = true := by
    have getter : (strayRepair.get ⟨"f"⟩).getter = some ⟨"g"⟩ := by decide
    have flags : (strayRepair.get ⟨"f"⟩).isTerm = true ∧
        (strayRepair.get ⟨"f"⟩).isPrivateThis = true := by decide
    simp [Repair.isStorage, counterField, Tree.bare, getter, flags, field]
  rw [strayRepair.tree_eq_node ((strayTree_reaches (by simp [strayBody])).ends strayTree_ends)]
  simp only [Field.toTree, Repair.node, storage, if_true]

theorem strayTree_repaired :
    strayRepair.tree strayTree = .bare (.template [] .empty [.empty, .empty]) := by
  obtain ⟨copies, template, made, -⟩ := Repair.tree_template strayTree_ends
  have noHelper (x : Tree) (hx : x ∈ strayBody) :
      strayRepair.setting.isDefaultHelper x = false := by
    simp only [strayBody, List.mem_cons, List.not_mem_nil, or_false] at hx
    rcases hx with rfl | rfl
    · rfl
    · decide
  have noCopies : copies = [] := by
    refine List.eq_nil_iff_forall_not_mem.mpr fun c hc => ?_
    obtain ⟨x, hx, helper, -⟩ := made c hc
    rw [noHelper x hx] at helper
    contradiction
  have kept : strayBody.map strayRepair.setting.keptInPlace = strayBody := by
    conv_rhs => rw [← List.map_id strayBody]
    refine List.map_congr_left fun x hx => ?_
    exact strayRepair.setting.keptInPlace_of_not_helper (noHelper x hx)
  have setter : strayRepair.tree counterSetter.toTree = .empty :=
    Repair.tree_setter ((strayTree_reaches (by simp [strayBody])).ends strayTree_ends)
      (s := ⟨"s"⟩) rfl (by decide)
  rw [strayTree, Tree.bare, template, noCopies, kept]
  simp [strayBody, strayTree_field, setter, Repair.tree_empty, Tree.bare]

/-- Without the method of the getter nothing is left of a variable. -/
theorem strayTree_loses_variable :
    counterSetting.repairChecked none strayTree = .bare (.template [] .empty [.empty, .empty]) ∧
      ¬ strayRepair.KeepsAccessors strayTree := by
  refine ⟨strayTree_repaired, fun keeps => ?_⟩
  have dropped : strayRepair.Dropped counterField.toTree :=
    ⟨strayTree_field, .inl ⟨_, ⟨"f"⟩, rfl, rfl, by decide, by decide, by decide⟩⟩
  obtain ⟨v, g, -, w, contains, -⟩ :=
    keeps _ (strayTree_reaches (by simp [strayBody])) dropped
  rw [strayTree_repaired] at contains
  have inTree := Tree.mem_preorder_of_contains (by
    simp [Tree.bare, Tree.empty, Tree.preorder_eq, Tree.children, Shape.children, Shape.written])
    contains
  simp [Tree.bare, Tree.empty, Tree.preorder_eq, Tree.children, Shape.children,
    Field.toTree] at inTree

end TreeRepair
