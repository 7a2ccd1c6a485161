import TreeRepair.Proofs.RepairOrigin

namespace TreeRepair

/-- The first assignment of a tree, from left to right and parents first, has this right side. -/
def Tree.FirstAssigned (t e : Tree) : Prop :=
  ∃ before i lhs after, t.preorder = before ++ ⟨i, .assign lhs e⟩ :: after ∧
    ∀ n ∈ before, ∀ l r, n.shape ≠ .assign l r

theorem Tree.FirstAssigned.initializer_eq {t e : Tree} (h : t.FirstAssigned e) :
    t.initializer = e := by
  obtain ⟨before, i, lhs, after, walk, first⟩ := h
  unfold initializer
  rw [walk, List.findSome?_append, List.findSome?_eq_none_iff.mpr]
  · rfl
  · intro n hn
    have := first n hn
    split
    next l r hs => exact absurd hs (this l r)
    next => rfl

theorem Symbol.isTerm_of_isGetter {s : Symbol} (h : s.isGetter = true) : s.isTerm = true := by
  simp only [isGetter, isMethod, Bool.and_eq_true, beq_iff_eq] at h
  simp [isTerm, h.1]

/-- A field that is declared twice among statements: by a value that nothing else refers to the
getter of, and by its getter. -/
structure Family (W : Setting) (t : Tree) (body : List Tree) where
  f : SymbolId
  g : SymbolId
  field : Field
  getter : Method
  fieldAt : Nat
  getterAt : Nat
  field_mem : body[fieldAt]? = some field.toTree
  getter_mem : body[getterAt]? = some getter.toTree
  field_symbol : field.info.symbol = some f
  getter_symbol : getter.info.symbol = some g
  resolvedType : ∃ w, field.tpt.shape = .typeTree w
  isTerm : (W.symbols.get f).kind = .term
  getter_of : (W.symbols.get f).getter = some g
  isGetter : (W.symbols.get g).isGetter = true
  notSetter : (W.symbols.get g).isSetter = false
  notHelper : W.isDefaultHelper getter.toTree = false
  sole : ∀ v : Field, v.toTree ∈ t.preorder → ∀ s, v.info.symbol = some s →
    (W.symbols.get s).isTerm = true →
    (W.symbols.get s).getter = some g ∨ (W.symbols.get s).setter = some g → v = field

/-- A value or variable, whose getter reads a private field. -/
structure ValueFamily (W : Setting) (t : Tree) (body : List Tree) extends Family W t body where
  privateThis : (W.symbols.get f).isPrivateThis = true
  eager : (W.symbols.get g).isLazy = false

/-- A lazy value, whose getter assigns the initial value to its storage first of all. -/
structure LazyFamily (W : Setting) (t : Tree) (body : List Tree) extends Family W t body where
  initial : Tree
  isLazy : (W.symbols.get f).isLazy = true
  isArtifact : (W.symbols.get f).isArtifact = true
  noValue : field.rhs.isEmpty = true
  lazyGetter : (W.symbols.get g).isLazy = true
  assigns : getter.rhs.FirstAssigned initial

/-- The one declaration that is left of a field. -/
structure Family.Rejoined {W : Setting} {t : Tree} {body : List Tree} (F : Family W t body)
    (R : Repair) (isVariable : Bool) (rhs d : Tree) : Prop where
  info : d.info = { symbol := some F.g, type := F.field.info.type, pos := F.field.info.pos }
  shape : ∃ mods, d.shape = .valDef mods F.getter.name (R.tree F.field.tpt) (R.tree rhs) ∧
    (∀ flag, mods.has flag = (F.getter.mods.has flag && W.conventions.keptFlags.has flag ||
      flag == .mutable && isVariable)) ∧
    mods.within = R.within F.g F.getter.mods ∧
    mods.annotations = R.annotations R.tree F.getter.mods [F.g, F.f]

namespace Family

variable {W : Setting} {t : Tree} {body : List Tree} (F : Family W t body)

theorem fieldOf? (owner : Option SymbolId) (inTree : ∀ x ∈ body, x ∈ t.preorder) :
    (Repair.ofTree W owner t).fieldOf? F.g = some F.field := by
  have present : (F.g, F.field) ∈ (Repair.ofTree W owner t).fields := by
    refine Repair.mem_fields_ofTree.mpr ⟨?_, F.f, F.field_symbol, ?_, .inl F.getter_of⟩
    · exact inTree _ (List.mem_of_getElem? F.field_mem)
    · simp [Symbol.isTerm, F.isTerm]
  obtain ⟨v, found⟩ := Repair.isSome_fieldOf? present
  obtain ⟨hv, s, symbol, isTerm, accessor⟩ :=
    Repair.mem_fields_ofTree.mp (Repair.mem_fields_of_fieldOf? found)
  rw [found, F.sole v hv s symbol isTerm accessor]

variable {R : Repair}

theorem tree_field_of_isStorage (ends : R.descent.Ends F.field.toTree)
    (storage : R.isStorage F.field.info F.field.tpt F.field.rhs = true) :
    R.tree F.field.toTree = .empty := by
  rw [R.tree_eq_node ends]
  simp only [Field.toTree, Repair.node, storage, if_true]

end Family

namespace ValueFamily

variable {W : Setting} {t : Tree} {body : List Tree} (F : ValueFamily W t body)
  {owner : Option SymbolId}

theorem isStorage (inTree : ∀ x ∈ body, x ∈ t.preorder) :
    (Repair.ofTree W owner t).isStorage F.field.info F.field.tpt F.field.rhs = true := by
  obtain ⟨w, resolved⟩ := F.resolvedType
  simp only [Repair.isStorage, F.field_symbol, resolved, Repair.get_ofTree, F.getter_of,
    F.privateThis, Option.any_some, F.fieldOf? owner inTree, Symbol.isTerm, F.isTerm]
  simp

theorem role (inTree : ∀ x ∈ body, x ∈ t.preorder) :
    (Repair.ofTree W owner t).role F.getter.info.symbol = .getter F.g F.field :=
  (Repair.role_eq_getter _).mpr ⟨F.getter_symbol, F.notSetter, Symbol.isTerm_of_isGetter F.isGetter, F.eager,
    F.isGetter, F.fieldOf? owner inTree⟩

/-- The getter of a value takes the value's place. -/
theorem rejoined (inTree : ∀ x ∈ body, x ∈ t.preorder)
    (ends : (Repair.ofTree W owner t).descent.Ends F.getter.toTree) :
    F.Rejoined (Repair.ofTree W owner t) (W.symbols.get F.f).isVariable F.field.rhs
      ((Repair.ofTree W owner t).tree F.getter.toTree) := by
  have joined : (Repair.ofTree W owner t).tree F.getter.toTree =
      (Repair.ofTree W owner t).accessedField (Repair.ofTree W owner t).tree F.g F.field
        F.getter.mods F.getter.name := by
    rw [Repair.tree_eq_node _ ends]
    simp only [Method.toTree, Repair.node, F.role inTree]
  rw [joined]
  refine ⟨rfl, _, rfl, fun flag => ?_, rfl, ?_⟩
  · simp only [F.field_symbol, Option.any_some, Repair.get_ofTree]
    split <;> simp [Modifiers.has, Repair.keptFlags, Modifiers.restrict, Repair.ofTree, *]
  · simp only [F.field_symbol, Option.toList_some]

end ValueFamily

namespace LazyFamily

variable {W : Setting} {t : Tree} {body : List Tree} (F : LazyFamily W t body)
  {owner : Option SymbolId}

theorem isStorage :
    (Repair.ofTree W owner t).isStorage F.field.info F.field.tpt F.field.rhs = true := by
  obtain ⟨w, resolved⟩ := F.resolvedType
  simp only [Repair.isStorage, F.field_symbol, resolved, Repair.get_ofTree, F.isLazy,
    F.isArtifact, F.noValue, Symbol.isTerm, F.isTerm]
  simp

theorem role :
    (Repair.ofTree W owner t).role F.getter.info.symbol = .lazyValue F.g :=
  (Repair.role_eq_lazyValue _).mpr ⟨F.getter_symbol, F.notSetter,
    Symbol.isTerm_of_isGetter F.isGetter, F.lazyGetter, F.isGetter⟩

/-- The getter of a lazy value becomes the value, with what it assigns first as initial value. -/
theorem rejoined (inTree : ∀ x ∈ body, x ∈ t.preorder)
    (ends : (Repair.ofTree W owner t).descent.Ends F.getter.toTree) :
    F.Rejoined (Repair.ofTree W owner t) false F.initial
      ((Repair.ofTree W owner t).tree F.getter.toTree) := by
  have field := F.fieldOf? owner inTree
  have joined : (Repair.ofTree W owner t).tree F.getter.toTree =
      (Repair.ofTree W owner t).lazyValue (Repair.ofTree W owner t).tree F.g F.getter.info
        F.getter.mods F.getter.name ((Repair.ofTree W owner t).tree F.field.tpt)
        ((Repair.ofTree W owner t).tree F.initial) := by
    rw [Repair.tree_eq_node _ ends]
    simp only [Method.toTree, Repair.node, F.role, field, F.assigns.initializer_eq]
  rw [joined]
  simp only [Repair.lazyValue, field]
  refine ⟨rfl, _, rfl, fun flag => ?_, rfl, ?_⟩
  · simp [Modifiers.has, Repair.keptFlags, Modifiers.restrict, Repair.ofTree]
  · simp only [F.field_symbol, Option.bind_some, Option.toList_some]

end LazyFamily

namespace Repair

variable {R : Repair}

theorem tree_empty : R.tree .empty = .empty := by
  rw [R.tree_eq_node (Descent.ends_of_leaf rfl rfl)]
  rfl

theorem tree_setter {m : Method} {s : SymbolId} (ends : R.descent.Ends m.toTree)
    (symbol : m.info.symbol = some s) (isSetter : (R.get s).isSetter = true) :
    R.tree m.toTree = .empty := by
  have role : R.role m.info.symbol = .setter := by simp [Repair.role, symbol, isSetter]
  rw [R.tree_eq_node ends]
  simp only [Method.toTree, node, role]

theorem tree_template {i : Info} {parents : List Tree} {self : Tree} {body : List Tree}
    (ends : R.descent.Ends ⟨i, .template parents self body⟩) :
    ∃ copies, R.tree ⟨i, .template parents self body⟩ = ⟨i, .template (parents.map R.tree)
        (R.tree self) ((body.map R.setting.keptInPlace ++ copies).map R.tree)⟩ ∧
      (∀ c ∈ copies, ∃ x ∈ body, R.setting.isDefaultHelper x = true ∧
        c = R.setting.movedCopy x) ∧
      ∀ x ∈ body.map R.setting.keptInPlace ++ copies,
        x ∈ R.parts ⟨i, .template parents self body⟩ := by
  obtain ⟨copies, settled, made⟩ := R.setting.settleStatements_eq R.usedHelpers body
  refine ⟨copies, ?_, made, fun x hx => ?_⟩
  · rw [R.tree_eq_node ends]
    simp only [node, Setting.settleShape, settled, Shape.mapChildren]
  · simp only [parts, Setting.settleShape, settled, Shape.children]
    exact List.mem_append_right _ (List.mem_cons_of_mem _ hx)

end Repair

theorem countP_eq_one_of_getElem? {l : List Tree} {p : Tree → Bool} {k : Nat} {x : Tree}
    (at_k : l[k]? = some x) (holds : p x = true)
    (only : ∀ j y, l[j]? = some y → p y = true → j = k) : l.countP p = 1 := by
  induction l generalizing k with
  | nil => simp at at_k
  | cons y ys ih =>
    cases k with
    | zero =>
      have : y = x := by simpa using at_k
      subst y
      have rest : ys.countP p = 0 := by
        rw [List.countP_eq_zero]
        intro z hz hp
        obtain ⟨j, hj⟩ := List.mem_iff_getElem?.mp hz
        have := only (j + 1) z (by simpa using hj) hp
        omega
      simp [holds, rest]
    | succ k =>
      have first : p y = false := by
        by_contra hp
        have := only 0 y (by simp) (by simpa using hp)
        omega
      have rest := ih (k := k) (by simpa using at_k) fun j z hj hp => by
        have := only (j + 1) z (by simpa using hj) hp
        omega
      simp [first, rest]

theorem Repair.mem_parts_of_statement {R : Repair} {i : Info} {parents : List Tree} {self : Tree}
    {body : List Tree} {x : Tree} (hx : x ∈ body) (plain : R.setting.isDefaultHelper x = false) :
    x ∈ R.parts ⟨i, .template parents self body⟩ := by
  obtain ⟨copies, settled, -⟩ := R.setting.settleStatements_eq R.usedHelpers body
  have kept : x ∈ body.map R.setting.keptInPlace :=
    List.mem_map.mpr ⟨x, hx, by simp [Setting.keptInPlace, Setting.isMovedHelper, plain]⟩
  simp only [parts, Setting.settleShape, settled, Shape.children]
  exact List.mem_append_right _ (List.mem_cons_of_mem _ (List.mem_append_left _ kept))

/-- What becomes of a family among the statements that the repair leaves. -/
structure Family.Joined {W : Setting} {t : Tree} {body : List Tree} (F : Family W t body)
    (R : Repair) (isVariable : Bool) (rhs : Tree) (after : List Tree) : Prop where
  field_gone : after[F.fieldAt]? = some .empty
  getter_joined : ∃ d, after[F.getterAt]? = some d ∧ F.Rejoined R isVariable rhs d
  one_declaration : (∀ k x, body[k]? = some x → x.declares F.g = true → k = F.getterAt) →
    after.countP (·.declares F.g) = 1

theorem Setting.keptInPlace_of_not_helper (W : Setting) {x : Tree}
    (h : W.isDefaultHelper x = false) : W.keptInPlace x = x := by
  simp [keptInPlace, isMovedHelper, h]

theorem Setting.isDefaultHelper_field (W : Setting) (v : Field) :
    W.isDefaultHelper v.toTree = false := rfl

theorem Setting.not_declares_movedCopy (W : Setting) {x : Tree} (h : W.isDefaultHelper x = true)
    (s : SymbolId) : (W.movedCopy x).declares s = false := by
  obtain ⟨i, shape⟩ := x
  cases shape <;> simp [isDefaultHelper] at h
  simp [movedCopy, Tree.declares]

namespace Family

variable {W : Setting} {t : Tree} {body : List Tree} {F : Family W t body} {R : Repair}

theorem Rejoined.declares {isVariable : Bool} {rhs d : Tree} (h : F.Rejoined R isVariable rhs d) :
    d.declares F.g = true := by
  obtain ⟨info, mods, shape, -⟩ := h
  obtain ⟨i, s⟩ := d
  subst info shape
  simp [Tree.declares]

theorem joined_of_rejoined {copies : List Tree}
    (ends : ∀ x ∈ body.map W.keptInPlace ++ copies, R.descent.Ends x)
    (made : ∀ c ∈ copies, ∃ x ∈ body, W.isDefaultHelper x = true ∧ c = W.movedCopy x)
    {isVariable : Bool} {rhs : Tree}
    (storage : R.isStorage F.field.info F.field.tpt F.field.rhs = true)
    (rejoined : R.descent.Ends F.getter.toTree → F.Rejoined R isVariable rhs (R.tree F.getter.toTree)) :
    F.Joined R isVariable rhs ((body.map W.keptInPlace ++ copies).map R.tree) := by
  have field := W.getElem?_settled copies F.field_mem
  rw [W.keptInPlace_of_not_helper (W.isDefaultHelper_field F.field)] at field
  have getter := W.getElem?_settled copies F.getter_mem
  rw [W.keptInPlace_of_not_helper F.notHelper] at getter
  have joined := rejoined (ends _ (List.mem_of_getElem? getter))
  refine ⟨?_, ⟨_, by rw [List.getElem?_map, getter]; rfl, joined⟩, fun sole => ?_⟩
  · rw [List.getElem?_map, field, Option.map_some,
      F.tree_field_of_isStorage (ends _ (List.mem_of_getElem? field)) storage]
  · refine countP_eq_one_of_getElem? (k := F.getterAt) (x := R.tree F.getter.toTree)
      (by rw [List.getElem?_map, getter]; rfl) joined.declares fun k y hy declares => ?_
    rw [List.getElem?_map] at hy
    obtain ⟨x, hx, rfl⟩ := Option.map_eq_some_iff.mp hy
    have declared := R.declares_of_tree (ends x (List.mem_of_getElem? hx)) declares
    -- behind the statements stand only copies of helpers, which carry no symbol
    rcases Nat.lt_or_ge k body.length with before | behind
    · have at_k : body[k]? = some body[k] := List.getElem?_eq_getElem before
      have kept := W.getElem?_settled copies at_k
      rw [hx] at kept
      obtain rfl := Option.some.inj kept
      refine sole k body[k] at_k ?_
      unfold Setting.keptInPlace at declared
      split at declared
      · simp [Tree.declares, Tree.empty, Tree.bare] at declared
      · exact declared
    · rw [List.getElem?_append_right (by simpa using behind)] at hx
      obtain ⟨c, -, helper, rfl⟩ := made x (List.mem_of_getElem? hx)
      rw [W.not_declares_movedCopy helper] at declared
      contradiction

end Family

def variableFlags : Flags := .ofList [.privateMember, .objectLocal, .mutable]

/-- A variable with both accessors and a lazy value. -/
def counterSetting : Setting where
  symbols.entries :=
    [(⟨"f"⟩, { name := .term "x ", kind := .term, flags := variableFlags, getter := some ⟨"g"⟩
               setter := some ⟨"s"⟩ }),
     (⟨"g"⟩, { name := .term "x", kind := .method, flags := .single .getter }),
     (⟨"s"⟩, { name := .term "x_=", kind := .method, flags := .single .setter }),
     (⟨"k"⟩, { name := .term "y", kind := .term, flags := .ofList [.lazy, .artifact]
               getter := some ⟨"h"⟩ }),
     (⟨"h"⟩, { name := .term "y", kind := .method, flags := .ofList [.lazy, .getter] })]
  builtins.rootClass := ⟨"root"⟩
  builtins.nothingType := .unspecified
  builtins.anyType := .unspecified
  builtins.anyRefType := .unspecified

def counterField : Field :=
  ⟨{ symbol := some ⟨"f"⟩ }, {}, .term "x ", .bare (.typeTree none), .bare (.literal (.int 1))⟩

def counterGetter : Method :=
  ⟨{ symbol := some ⟨"g"⟩ }, {}, .term "x", [], [], .bare (.typeTree none), .bare (.ident (.term "x "))⟩

def counterSetter : Method :=
  ⟨{ symbol := some ⟨"s"⟩ }, {}, .term "x_=", [], [[]], .bare (.typeTree none), .empty⟩

def lazyStorage : Field :=
  ⟨{ symbol := some ⟨"k"⟩ }, {}, .term "y", .bare (.typeTree none), .empty⟩

def lazyGetter : Method :=
  ⟨{ symbol := some ⟨"h"⟩ }, { flags := .single .lazy }, .term "y", [], [], .bare (.typeTree none),
    .bare (.assign (.bare (.ident (.term "y"))) (.bare (.literal (.int 2))))⟩

def counterBody : List Tree :=
  [lazyGetter.toTree, counterSetter.toTree, counterField.toTree, lazyStorage.toTree,
    counterGetter.toTree]

def counterTree : Tree := .bare (.template [] .empty counterBody)

theorem counterTree_preorder : counterTree.preorder =
    [counterTree, .empty, lazyGetter.toTree, lazyGetter.tpt, lazyGetter.rhs,
      .bare (.ident (.term "y")), .bare (.literal (.int 2)), counterSetter.toTree,
      counterSetter.tpt, .empty, counterField.toTree, counterField.tpt, counterField.rhs,
      lazyStorage.toTree, lazyStorage.tpt, .empty, counterGetter.toTree, counterGetter.tpt,
      counterGetter.rhs] := by
  simp only [counterTree, counterBody, Tree.bare, Tree.empty, Tree.preorder_eq, Tree.children,
    Shape.children, lazyGetter, counterSetter, counterField, lazyStorage, counterGetter,
    Method.toTree, Field.toTree, List.flatMap_cons, List.flatMap_nil, List.append_nil,
    List.nil_append, List.flatten_nil, List.flatten_cons, List.cons_append]

theorem counterTree_unresolved : ∀ n ∈ counterTree.preorder, n.shape.written = none := by
  rw [counterTree_preorder]
  simp only [List.forall_mem_cons]
  repeat' constructor
  simp

theorem counterTree_fields {v : Field} (h : v.toTree ∈ counterTree.preorder) :
    v = counterField ∨ v = lazyStorage := by
  have field := List.mem_filterMap.mpr ⟨_, h, Tree.field?_eq_some.mpr rfl⟩
  rw [counterTree_preorder] at field
  have : v ∈ [counterField, lazyStorage] := field
  simpa using this

theorem counterSetting_annotations (s : SymbolId) :
    (counterSetting.symbols.get s).annotations = [] :=
  SymbolTable.forall_get (P := fun symbol => symbol.annotations = []) rfl
    (by simp [counterSetting]) s

theorem counterTree_ends : (Repair.ofTree counterSetting none counterTree).descent.Ends counterTree := by
  refine Repair.ends_of_plain_fields counterSetting_annotations fun v hv y hy => ?_
  rcases counterTree_fields hv with rfl | rfl <;> rcases hy with rfl | rfl <;> exact ⟨rfl, rfl⟩

def counterFamily : ValueFamily counterSetting counterTree counterBody where
  f := ⟨"f"⟩
  g := ⟨"g"⟩
  field := counterField
  getter := counterGetter
  fieldAt := 2
  getterAt := 4
  field_mem := rfl
  getter_mem := rfl
  field_symbol := rfl
  getter_symbol := rfl
  resolvedType := ⟨none, rfl⟩
  isTerm := by decide
  getter_of := by decide
  isGetter := by decide
  notSetter := by decide
  notHelper := by decide
  sole := by
    intro v hv s symbol isTerm accessor
    rcases counterTree_fields hv with rfl | rfl
    · rfl
    · cases symbol
      exact absurd accessor (by decide)
  privateThis := by decide
  eager := by decide

def lazyFamily : LazyFamily counterSetting counterTree counterBody where
  f := ⟨"k"⟩
  g := ⟨"h"⟩
  field := lazyStorage
  getter := lazyGetter
  fieldAt := 3
  getterAt := 0
  field_mem := rfl
  getter_mem := rfl
  field_symbol := rfl
  getter_symbol := rfl
  resolvedType := ⟨none, rfl⟩
  isTerm := by decide
  getter_of := by decide
  isGetter := by decide
  notSetter := by decide
  notHelper := by decide
  sole := by
    intro v hv s symbol isTerm accessor
    rcases counterTree_fields hv with rfl | rfl
    · cases symbol
      exact absurd accessor (by decide)
    · rfl
  initial := .bare (.literal (.int 2))
  isLazy := by decide
  isArtifact := by decide
  noValue := rfl
  lazyGetter := by decide
  assigns := by
    refine ⟨[], {}, .bare (.ident (.term "y")), [.bare (.ident (.term "y")),
      .bare (.literal (.int 2))], ?_, by simp⟩
    simp [lazyGetter, Tree.bare, Tree.preorder_eq, Tree.children, Shape.children]

def counterRepair : Repair := .ofTree counterSetting none counterTree

/-- A method with the template as an annotation that is written on it. -/
def annotatedMethod : Method :=
  ⟨{ symbol := some ⟨"m"⟩ }, { annotations := [counterTree] }, .term "m", [], [],
    .bare (.typeTree none), .empty⟩

def annotatedSetting : Setting :=
  { counterSetting with
    symbols.entries :=
      (⟨"m"⟩, { name := .term "m", kind := .method }) :: counterSetting.symbols.entries }

theorem annotatedMethod_preorder : annotatedMethod.toTree.preorder =
    annotatedMethod.toTree :: (counterTree.preorder ++ [.bare (.typeTree none), .empty]) := by
  rw [Tree.preorder_eq]
  simp [annotatedMethod, Method.toTree, Tree.children, Shape.children, Tree.bare, Tree.empty,
    Tree.preorder_eq ⟨{}, .typeTree none⟩, Tree.preorder_eq ⟨{}, .empty⟩]

theorem annotatedMethod_fields {v : Field} (h : v.toTree ∈ annotatedMethod.toTree.preorder) :
    v = counterField ∨ v = lazyStorage := by
  rw [annotatedMethod_preorder] at h
  have inside : v.toTree ∈ counterTree.preorder := by
    simpa [annotatedMethod, Method.toTree, Field.toTree, Tree.bare, Tree.empty] using h
  exact counterTree_fields inside

def annotatedFamily : ValueFamily annotatedSetting annotatedMethod.toTree counterBody where
  f := ⟨"f"⟩
  g := ⟨"g"⟩
  field := counterField
  getter := counterGetter
  fieldAt := 2
  getterAt := 4
  field_mem := rfl
  getter_mem := rfl
  field_symbol := rfl
  getter_symbol := rfl
  resolvedType := ⟨none, rfl⟩
  isTerm := by decide
  getter_of := by decide
  isGetter := by decide
  notSetter := by decide
  notHelper := by decide
  sole := by
    intro v hv s symbol isTerm accessor
    rcases annotatedMethod_fields hv with rfl | rfl
    · rfl
    · cases symbol
      exact absurd accessor (by decide)
  privateThis := by decide
  eager := by decide

theorem annotatedMethod_ends :
    (Repair.ofTree annotatedSetting none annotatedMethod.toTree).descent.Ends
      annotatedMethod.toTree := by
  refine Repair.ends_of_plain_fields (SymbolTable.forall_get
    (P := fun symbol => symbol.annotations = []) rfl (by simp [annotatedSetting, counterSetting]))
    fun v hv y hy => ?_
  rcases annotatedMethod_fields hv with rfl | rfl <;> rcases hy with rfl | rfl <;> exact ⟨rfl, rfl⟩

theorem annotatedMethod_repaired :
    annotatedSetting.repairChecked none annotatedMethod.toTree = annotatedMethod.toTree := by
  have role : (Repair.ofTree annotatedSetting none annotatedMethod.toTree).role (some ⟨"m"⟩) =
      .method ⟨"m"⟩ :=
    (Repair.role_eq_method _).mpr ⟨rfl, by decide, by decide, by decide⟩
  have type : (Repair.ofTree annotatedSetting none annotatedMethod.toTree).tree
      (.bare (.typeTree none)) = .bare (.typeTree none) :=
    Repair.tree_eq_node _ (Descent.ends_of_leaf rfl rfl)
  rw [Setting.repairChecked, Repair.tree_eq_node _ annotatedMethod_ends]
  simp only [annotatedMethod, Method.toTree, Repair.node]
  simp only [annotatedMethod, Method.toTree] at role type
  rw [role]
  simp only [type, Repair.tree_empty]
  rfl

/-- The field of the template holds its own getter as its value. -/
def loopField : Field :=
  ⟨{ symbol := some ⟨"f"⟩ }, {}, .term "x ", .bare (.typeTree none), counterGetter.toTree⟩

def loopBody : List Tree := [loopField.toTree, counterGetter.toTree]

def loopTree : Tree := .bare (.template [] .empty loopBody)

theorem loopTree_preorder : loopTree.preorder =
    [loopTree, .empty, loopField.toTree, loopField.tpt, counterGetter.toTree, counterGetter.tpt,
      counterGetter.rhs, counterGetter.toTree, counterGetter.tpt, counterGetter.rhs] := by
  simp only [loopTree, loopBody, Tree.bare, Tree.empty, Tree.preorder_eq, Tree.children,
    Shape.children, loopField, counterGetter, Method.toTree, Field.toTree, List.flatMap_cons,
    List.flatMap_nil, List.append_nil, List.nil_append, List.flatten_nil, List.cons_append]

theorem loopTree_fields {v : Field} (h : v.toTree ∈ loopTree.preorder) : v = loopField := by
  have field := List.mem_filterMap.mpr ⟨_, h, Tree.field?_eq_some.mpr rfl⟩
  rw [loopTree_preorder] at field
  have : v ∈ [loopField] := field
  simpa using this

def loopFamily : ValueFamily counterSetting loopTree loopBody where
  f := ⟨"f"⟩
  g := ⟨"g"⟩
  field := loopField
  getter := counterGetter
  fieldAt := 0
  getterAt := 1
  field_mem := rfl
  getter_mem := rfl
  field_symbol := rfl
  getter_symbol := rfl
  resolvedType := ⟨none, rfl⟩
  isTerm := by decide
  getter_of := by decide
  isGetter := by decide
  notSetter := by decide
  notHelper := by decide
  sole := fun v hv _ _ _ _ => loopTree_fields hv
  privateThis := by decide
  eager := by decide

/-- The repair of the getter goes on in the value of the field, which is the getter again. -/
theorem loopTree_endless (owner : Option SymbolId) :
    ¬ (Repair.ofTree counterSetting owner loopTree).descent.Ends loopTree := by
  intro ends
  have field : (Repair.ofTree counterSetting owner loopTree).fieldOf? ⟨"g"⟩ = some loopField :=
    loopFamily.fieldOf? owner fun x hx => Tree.mem_preorder_of_mem_children
      (by simpa [loopTree, Tree.bare, Tree.children, Shape.children] using .inr hx)
      x.self_mem_preorder
  have role : (Repair.ofTree counterSetting owner loopTree).role (some ⟨"g"⟩) =
      .getter ⟨"g"⟩ loopField :=
    (Repair.role_eq_getter _).mpr ⟨rfl, loopFamily.notSetter,
      Symbol.isTerm_of_isGetter loopFamily.isGetter, loopFamily.eager, loopFamily.isGetter, field⟩
  have used : .declared ⟨"g"⟩ ∈
      (Repair.ofTree counterSetting owner loopTree).sources counterGetter.toTree := by
    simp [Repair.sources, counterGetter, Method.toTree, role, Repair.accessorSources]
  have again : counterGetter.toTree ∈
      (Repair.ofTree counterSetting owner loopTree).drawn (.declared ⟨"g"⟩) := by
    have eager : ((Repair.ofTree counterSetting owner loopTree).get ⟨"g"⟩).isLazy = false :=
      loopFamily.eager
    simp [Repair.drawn, field, eager, loopField]
  have met : counterGetter.toTree ∈ (Repair.ofTree counterSetting owner loopTree).parts loopTree :=
    Repair.mem_parts_of_statement (by simp [loopBody]) loopFamily.notHelper
  exact Descent.not_ends_of_loop used ⟨_, again, _, .refl, used⟩ (ends.of_visits (.single met))

end TreeRepair
