import TreeRepair.Proofs.OrderlyRepaired

namespace TreeRepair

open Relation

/-- The children of a node that are not among the annotations of its modifiers. -/
def Shape.inner {α : Type} : Shape α → List α
  | .valDef _ _ tpt rhs => [tpt, rhs]
  | .defDef _ _ tparams vparamss tpt rhs => tparams ++ vparamss.flatten ++ [tpt, rhs]
  | .typeDef _ _ tparams a | .classDef _ _ tparams a => tparams ++ [a]
  | .moduleDef _ _ impl => [impl]
  | s => s.children

theorem Shape.inner_mapChildren {α : Type} (f : α → α) (s : Shape α) :
    (s.mapChildren f).inner = s.inner.map f := by
  cases s <;> simp [mapChildren, inner, children, List.map_flatten]

theorem Shape.mem_children_of_mem_inner {α : Type} {s : Shape α} {c : α} (h : c ∈ s.inner) :
    c ∈ s.children := by
  cases s <;> simp only [inner, children, List.append_assoc, List.mem_append] at h ⊢ <;>
    first | exact h | exact .inr h

theorem Tree.eq_mk {t : Tree} {s : Shape Tree} (h : t.shape = s) : t = ⟨t.info, s⟩ := by
  obtain ⟨i, u⟩ := t
  exact congrArg (Tree.mk i) h

/-- A walk from the first tree comes to the second without entering annotations of modifiers. -/
def Tree.WalksTo : Tree → Tree → Prop := ReflTransGen fun t c => c ∈ t.shape.inner

theorem Tree.WalksTo.mem_preorder {t n : Tree} (h : t.WalksTo n) : n ∈ t.preorder := by
  induction h with
  | refl => exact t.self_mem_preorder
  | tail _ hc ih => exact preorder_down _ _ ih (Shape.mem_children_of_mem_inner hc)

/-- A node under the symbol `s` as the repair of the tree `t` leaves it. -/
structure NormalUnder (W : Setting) (owner : Option SymbolId) (t : Tree) (s : SymbolId) (n : Tree) :
    Prop where
  noSetter : ∀ m : Method, n = m.toTree → (W.symbols.get s).isSetter = false
  noLazyGetter : ∀ m : Method, n = m.toTree → (W.symbols.get s).isGetter = true →
    (W.symbols.get s).isLazy = false
  noAccessor : ∀ m : Method, n = m.toTree → (W.symbols.get s).isGetter = true →
    ∀ v : Field, v.toTree ∈ t.preorder → ∀ f, v.info.symbol = some f →
      (W.symbols.get f).isTerm = true →
        (W.symbols.get f).getter ≠ some s ∧ (W.symbols.get f).setter ≠ some s
  acceptedFlags : ∀ m : Method, n = m.toTree → (W.symbols.get s).isTerm = true →
    ∀ flag, m.mods.has flag = true → W.conventions.keptFlags.has flag = true
  qualified : ∀ name, n.shape = .ident name → (W.symbols.get s).isTerm = true →
    W.isInjected (some s) = true → W.isInjected owner = true
  spelled : ∀ q name, n.shape = .select q name → name.text = (W.nameOf s).text ∧
    (name = W.nameOf s ∨ name = (W.nameOf s).toTerm)
  noStorage : ∀ v : Field, n = v.toTree → (∃ w, v.tpt.shape = .typeTree w) →
    (W.symbols.get s).isTerm = true → (W.symbols.get s).isMethod = false →
      (W.symbols.get s).isPrivateThis = true → (W.symbols.get s).getter = none

def NormalNode (W : Setting) (owner : Option SymbolId) (t n : Tree) : Prop :=
  ∀ s, n.symbol = some s → NormalUnder W owner t s n

theorem Setting.exists_owner_of_isInjected (W : Setting) {s : SymbolId}
    (h : W.isInjected (some s) = true) :
    s ≠ W.builtins.rootClass ∧ ∃ o, (W.symbols.get s).owner = some o := by
  simp only [isInjected, SymbolTable.owners, SymbolTable.bound, SymbolTable.ownersWithin,
    injectedAmong] at h
  split at h
  next => simp at h
  next notRoot =>
    refine ⟨notRoot, ?_⟩
    cases owner : (W.symbols.get s).owner with
    | none => simp [owner, injectedAmong] at h
    | some o => exact ⟨o, rfl⟩

/-- What needs no import does not stand at the root, so that its path is a selection. -/
theorem Setting.path_of_isInjected (W : Setting) {s : SymbolId} (h : W.isInjected (some s) = true) :
    ∃ q, (W.path s).shape = .select q (W.nameOf s).toTerm := by
  obtain ⟨notRoot, o, owner⟩ := W.exists_owner_of_isInjected h
  refine ⟨W.pathWithin (W.symbols.entries.length + 1) o, ?_⟩
  simp only [path, SymbolTable.bound, pathWithin, if_neg notRoot, owner, Tree.bare]

theorem Setting.symbol_path (W : Setting) (n : Nat) (s : SymbolId) :
    (W.pathWithin n s).symbol = none := by
  cases n with
  | zero => rfl
  | succ n =>
    simp only [pathWithin]
    split
    · rfl
    · split <;> rfl

namespace Repair

variable {R : Repair}

/-- A method that is left under a symbol keeps accepted flags only, unless nothing is known of
the symbol as a term. -/
theorem role_of_tree {x : Tree} {m : Method} {s : SymbolId} (ends : R.descent.Ends x)
    (h : R.tree x = m.toTree) (symbol : m.info.symbol = some s) :
    (R.role (some s) = .method s ∧ ∃ mods, m.mods.flags = R.keptFlags mods) ∨
      R.role (some s) = .unresolved := by
  obtain ⟨w, rfl, -, -, carried⟩ := method_of_tree ends h
  have known := carried s symbol
  rw [R.tree_eq_node ends] at h
  simp only [Method.toTree, node] at h
  split at h
  next => simp [Tree.empty, Tree.bare] at h
  next => simp [accessedField] at h
  next => simp [lazyValue] at h
  next g role =>
    left
    have same := (R.role_eq_method.mp role).1
    obtain rfl := Option.some.inj (same.symm.trans known)
    obtain ⟨-, mods, -⟩ : _ ∧ _ ∧ _ := by simpa using h
    refine ⟨known ▸ role, w.mods, ?_⟩
    rw [← mods]
    rfl
  next role => exact .inr (known ▸ role)

/-- An identifier that is left under a symbol needs no path. -/
theorem injected_of_tree {x : Tree} {j : Info} {name : Name} {s : SymbolId} (ends : R.descent.Ends x)
    (h : R.tree x = ⟨j, .ident name⟩) (symbol : j.symbol = some s)
    (isTerm : (R.get s).isTerm = true) (injected : R.setting.isInjected (some s) = true) :
    R.injected = true := by
  have kept := R.kind_tree ends
  rw [h] at kept
  rw [R.tree_eq_node ends] at h
  obtain ⟨i, shape⟩ := x
  cases shape <;> simp only [Tree.kind, reduceCtorEq, and_false, or_self] at kept
  case ident n =>
    have repaired : R.identifier i n = ⟨j, .ident name⟩ := h
    have carried : i.symbol = some s := by
      have same := R.symbol_identifier i n
      rw [repaired] at same
      exact same.symm.trans symbol
    by_contra outside
    obtain ⟨q, path⟩ := R.setting.path_of_isInjected injected
    have qualified : R.identifier i n = (R.setting.path s).takeInfo ⟨i, .ident n⟩ := by
      simp [identifier, carried, isTerm, injected, outside]
    have shape := congrArg Tree.shape (qualified.symm.trans repaired)
    simp only [Tree.takeInfo, path, reduceCtorEq] at shape

theorem spelled_of_tree {x q : Tree} {j : Info} {name : Name} {s : SymbolId} (ends : R.descent.Ends x)
    (h : R.tree x = ⟨j, .select q name⟩) (symbol : j.symbol = some s) :
    name = R.setting.nameOf s ∨ name = (R.setting.nameOf s).toTerm := by
  rcases selection_of_tree ends h symbol with ⟨i, p, n, rfl, carried, unused⟩ |
    ⟨i, n, rfl, carried, path⟩
  · rw [R.tree_eq_node ends, node, selection_of_unused carried unused] at h
    obtain ⟨-, -, spelled⟩ : _ ∧ _ ∧ _ := by simpa using h
    exact .inl spelled.symm
  · obtain ⟨v, known, written⟩ := identifier_path path
    obtain rfl := Option.some.inj (known.symm.trans carried)
    rw [R.tree_eq_node ends, node, written] at h
    exact .inr (R.setting.name_of_path (congrArg Tree.shape h))

/-- A value that is left with a resolved type under a private symbol has no getter that the repair
knows of. -/
theorem unrecorded_of_tree {x : Tree} {v : Field} {f g : SymbolId} {w : Option Tree}
    (ends : R.descent.Ends x) (h : R.tree x = v.toTree) (symbol : v.info.symbol = some f)
    (type : v.tpt.shape = .typeTree w) (isTerm : (R.get f).isTerm = true)
    (notMethod : (R.get f).isMethod = false) (isPrivate : (R.get f).isPrivateThis = true)
    (getter : (R.get f).getter = some g) :
    (∃ u : Field, x = u.toTree ∧ u.info.symbol = some f) ∧ R.fieldOf? g = none := by
  have notGetter : (R.get f).isGetter = false := by simp [Symbol.isGetter, notMethod]
  rcases origin_of_field ends h symbol with ⟨u, rfl, carried⟩ | ⟨m, -, -, initial⟩
  · refine ⟨⟨u, rfl, carried⟩, ?_⟩
    by_contra recorded
    obtain ⟨known, mods, name, tpt, rhs⟩ := u
    replace carried : known.symbol = some f := carried
    have plain : R.lazyGetter? known.symbol = none := by
      refine Option.eq_none_iff_forall_ne_some.mpr fun s hs => ?_
      obtain ⟨same, -, -, isGetter⟩ := R.lazyGetter?_eq_some.mp hs
      obtain rfl := Option.some.inj (same.symm.trans carried)
      simp [notGetter] at isGetter
    rw [R.tree_eq_node ends] at h
    simp only [Field.toTree, node, plain] at h
    split at h
    next => simp [Tree.empty, Tree.bare] at h
    next kept =>
      have repaired : R.tree tpt = v.tpt := by
        obtain ⟨-, -, -, tpt, -⟩ : _ ∧ _ ∧ _ ∧ _ ∧ _ := by simpa [Shape.mapChildren] using h
        exact tpt
      have below : R.descent.Ends tpt :=
        ends.of_visits (.single (by simp [Field.toTree, parts, kept, plain]))
      -- only a resolved type is repaired to one
      have resolved : tpt.kind = .type := by
        have kinds := R.kind_tree below
        rw [repaired] at kinds
        simpa [Tree.kind, type, eq_comm] using kinds
      refine kept ?_
      obtain ⟨k, shape⟩ := tpt
      cases shape <;> simp [Tree.kind] at resolved
      have present := Option.isSome_iff_ne_none.mpr recorded
      simp only [isStorage, carried, isTerm, isPrivate, getter, Option.any_some, present]
      simp
  · simp [initial?, notGetter] at initial

theorem mem_inner_lazyValue {deeper inner : Tree → Tree} {s : SymbolId} {i : Info}
    {mods : Modifiers Tree} {name : Name} {tpt rhs c : Tree}
    (h : c ∈ (R.lazyValue deeper s i mods name
      (match R.fieldOf? s with
       | some f => deeper f.tpt
       | none => inner tpt) (inner rhs.initializer)).shape.inner) :
    (∃ p ∈ R.lazyParts s tpt rhs, c = inner p) ∨ ∃ y ∈ R.drawn (.declared s), c = deeper y := by
  simp only [lazyValue, Shape.inner, List.mem_cons, List.not_mem_nil, or_false] at h
  rcases h with rfl | rfl
  · cases field : R.fieldOf? s with
    | none => exact .inl ⟨tpt, by simp [lazyParts, field], rfl⟩
    | some f => exact .inr ⟨f.tpt, R.tpt_mem_drawn field, rfl⟩
  · exact .inl ⟨_, R.initializer_mem_lazyParts s tpt rhs, rfl⟩

/-- Outside of annotations a repaired node is made up of repaired parts, repaired declarations of
fields and paths. -/
theorem mem_inner_node {deeper inner : Tree → Tree} {x c : Tree}
    (h : c ∈ (R.node deeper inner x).shape.inner) :
    (x.shape.written = none ∧ ∃ p ∈ R.parts x, c = inner p) ∨
      (∃ s, .declared s ∈ R.sources x ∧ ∃ y ∈ R.drawn (.declared s), c = deeper y) ∨
      ∃ n v, c = R.setting.pathWithin n v := by
  obtain ⟨i, s⟩ := x
  have mapped {i : Info} {s : Shape Tree} (h : c ∈ (⟨i, s.mapChildren inner⟩ : Tree).shape.inner) :
      ∃ p ∈ s.children, c = inner p := by
    rw [Shape.inner_mapChildren] at h
    obtain ⟨p, hp, rfl⟩ := List.mem_map.mp h
    exact ⟨p, Shape.mem_children_of_mem_inner hp, rfl⟩
  cases s with
  | typeTree w =>
    cases w <;> simp [node, Setting.settleShape, Shape.mapChildren, Shape.inner, Shape.children] at h
  | ident name =>
    simp only [node, identifier] at h
    split at h
    · split at h
      · have below := Shape.mem_children_of_mem_inner h
        obtain ⟨m, o, -, rfl⟩ := mem_subtrees_path (List.mem_append_left _ below)
        exact .inr (.inr ⟨m, o, rfl⟩)
      · simp [Shape.inner, Shape.children] at h
    · simp [Shape.inner, Shape.children] at h
  | select q name =>
    exact .inl ⟨rfl, by simpa [node, parts, Setting.settleShape, Shape.inner, Shape.children] using h⟩
  | unapply fn args =>
    refine .inl ⟨rfl, ?_⟩
    cases extractor : R.extractor? fn <;>
      simpa [node, parts, extractor, Shape.inner, Shape.children, eq_comm] using h
  | valDef mods name tpt rhs =>
    simp only [node] at h
    simp only [parts, sources]
    split at h
    next => simp [Tree.empty, Tree.bare, Shape.inner, Shape.children] at h
    next storage =>
      simp only [if_neg storage]
      cases lazyGetter : R.lazyGetter? i.symbol with
      | some g =>
        simp only [lazyGetter] at h ⊢
        rcases mem_inner_lazyValue h with part | drawn
        · exact .inl ⟨rfl, part⟩
        · exact .inr (.inl ⟨g, declared_mem_accessorSources.mpr rfl, drawn⟩)
      | none =>
        simp only [lazyGetter] at h ⊢
        exact .inl ⟨rfl, mapped (i := i) (s := .valDef mods name tpt rhs) h⟩
  | defDef mods name tparams vparamss tpt rhs =>
    simp only [node] at h
    simp only [parts, sources]
    split at h
    next => simp [Tree.empty, Tree.bare, Shape.inner, Shape.children] at h
    next g f role =>
      obtain ⟨-, -, -, eager, -, field⟩ := R.role_eq_getter.mp role
      have drawn : R.drawn (.declared g) = [f.tpt, f.rhs] := by simp [Repair.drawn, field, eager]
      refine .inr (.inl ⟨g, ?_, ?_⟩)
      · simpa only [role] using declared_mem_accessorSources.mpr rfl
      · simpa [drawn, accessedField, Shape.inner] using h
    next g role =>
      simp only [role]
      rcases mem_inner_lazyValue h with part | drawn
      · exact .inl ⟨rfl, part⟩
      · exact .inr (.inl ⟨g, declared_mem_accessorSources.mpr rfl, drawn⟩)
    next g role =>
      simp only [role]
      obtain ⟨p, hp, rfl⟩ := mapped (i := i) (s := .defDef {} name tparams vparamss tpt rhs) h
      exact .inl ⟨rfl, p, by simpa [Shape.children] using hp, rfl⟩
    next role =>
      simp only [role]
      exact .inl ⟨rfl, mapped h⟩
  | _ => exact .inl ⟨rfl, mapped h⟩

end Repair

variable {W : Setting} {owner : Option SymbolId} {t : Tree}

theorem normalNode_path (n : Nat) (v : SymbolId) : NormalNode W owner t (W.pathWithin n v) := by
  intro s symbol
  rw [W.symbol_path] at symbol
  contradiction

/-- Each repaired node is normal, whatever the kind of node it was made from. -/
theorem Repair.normalNode_tree {x : Tree} (ends : (Repair.ofTree W owner t).descent.Ends x)
    (stems : (Repair.ofTree W owner t).Stems (· ∈ t.preorder) x) :
    NormalNode W owner t ((Repair.ofTree W owner t).tree x) := by
  intro s symbol
  have roles (m : Method) (h : (Repair.ofTree W owner t).tree x = m.toTree) :=
    role_of_tree ends h (h ▸ symbol)
  refine ⟨fun m h => ?_, fun m h isGetter => ?_, fun m h isGetter v hv f carried isTerm => ?_,
    fun m h isTerm flag hflag => ?_, fun name h isTerm injected => ?_, fun q name h => ?_,
    fun v h type isTerm notMethod isPrivate => ?_⟩
  · rcases roles m h with ⟨role, -⟩ | role
    · exact ((Repair.role_eq_method _).mp role).2.1
    · exact ((Repair.role_eq_unresolved _).mp role s rfl).1
  · rcases roles m h with ⟨role, -⟩ | role
    · exact (((Repair.role_eq_method _).mp role).2.2.2 isGetter).1
    · have isType := ((Repair.role_eq_unresolved _).mp role s rfl).2
      rw [Repair.get_ofTree, Symbol.isTerm_of_isGetter isGetter] at isType
      contradiction
  · rcases roles m h with ⟨role, -⟩ | role
    · have unrecorded := (((Repair.role_eq_method _).mp role).2.2.2 isGetter).2
      by_contra accessor
      have recorded : (s, v) ∈ (Repair.ofTree W owner t).fields := by
        refine Repair.mem_fields_ofTree.mpr ⟨hv, f, carried, isTerm, ?_⟩
        tauto
      obtain ⟨w, found⟩ := Repair.isSome_fieldOf? recorded
      cases unrecorded.symm.trans found
    · have isType := ((Repair.role_eq_unresolved _).mp role s rfl).2
      rw [Repair.get_ofTree, Symbol.isTerm_of_isGetter isGetter] at isType
      contradiction
  · rcases roles m h with ⟨-, mods, flags⟩ | role
    · rw [Modifiers.has, flags, Repair.keptFlags, Modifiers.restrict, Flags.has_inter,
        Bool.and_eq_true] at hflag
      exact hflag.2
    · have isType := ((Repair.role_eq_unresolved _).mp role s rfl).2
      rw [Repair.get_ofTree, isTerm] at isType
      contradiction
  · exact injected_of_tree ends (Tree.eq_mk h) symbol isTerm injected
  · have named := spelled_of_tree ends (Tree.eq_mk h) symbol
    refine ⟨?_, named⟩
    rcases named with rfl | rfl <;> rfl
  · obtain ⟨w, type⟩ := type
    by_contra recorded
    obtain ⟨g, getter⟩ := Option.ne_none_iff_exists'.mp recorded
    rw [h] at symbol
    obtain ⟨⟨u, rfl, carried⟩, unrecorded⟩ :=
      unrecorded_of_tree ends h symbol type isTerm notMethod isPrivate getter
    have here : u.toTree ∈ t.preorder :=
      stems.mem_of_kind (by simp [Tree.kind, Field.toTree]) (by simp [Tree.kind, Field.toTree])
    obtain ⟨f, found⟩ := Repair.isSome_fieldOf? (Repair.mem_fields_ofTree.mpr
      ⟨here, s, carried, isTerm, .inl getter⟩)
    cases unrecorded.symm.trans found

theorem Repair.normalNode_of_walksTo {x n : Tree} (ends : (Repair.ofTree W owner t).descent.Ends x)
    (stems : (Repair.ofTree W owner t).Stems (· ∈ t.preorder) x)
    (h : ((Repair.ofTree W owner t).tree x).WalksTo n) : NormalNode W owner t n := by
  -- along the repair: its parts are in the tree, and so are the declarations of fields
  refine Descent.Ends.induct (motive := fun x => (Repair.ofTree W owner t).Stems (· ∈ t.preorder) x →
    ((Repair.ofTree W owner t).tree x).WalksTo n → NormalNode W owner t n)
    (fun x ends parts sources stems h => ?_) ends stems h
  rcases h.cases_head with rfl | ⟨c, hc, below⟩
  · exact normalNode_tree ends stems
  · rw [Repair.tree_eq_node _ ends] at hc
    rcases mem_inner_node hc with ⟨notResolved, p, hp, rfl⟩ | ⟨s, hs, y, hy, rfl⟩ | ⟨m, v, rfl⟩
    · have written : ∀ w, x.shape.written = some w → w ∈ t.preorder := by simp [notResolved]
      exact parts p hp (stems.of_mem_parts Tree.preorder_down written hp) below
    · exact sources (.declared s) hs y hy (.part (Repair.mem_preorder_of_drawn hy)) below
    · have inPath := Tree.contains_of_mem_preorder (Tree.WalksTo.mem_preorder below)
      obtain ⟨k, o, rfl⟩ := contains_path inPath
      exact normalNode_path k o

/-- Whatever a walk comes to in a repaired tree, annotations of modifiers apart, is as a repair
leaves it. -/
theorem repaired_nodes_normal (W : Setting) (owner : Option SymbolId) {t n : Tree}
    (ends : (Repair.ofTree W owner t).descent.Ends t) (h : (W.repairChecked owner t).WalksTo n) :
    NormalNode W owner t n :=
  Repair.normalNode_of_walksTo ends (.part t.self_mem_preorder) h

def renamedSelection (name : String) : Tree :=
  ⟨{ symbol := some ⟨"m"⟩ }, .select (.bare (.this (.type "C"))) (.term name)⟩

/-- A method under a flag that only a checker sets, whose body selects it under another name. -/
def renamedMethod : Method :=
  ⟨{ symbol := some ⟨"m"⟩ }, { flags := .ofList [.privateMember, .lifted] }, .term "m", [], [],
    .bare (.typeTree none), renamedSelection "renamed"⟩

theorem renamedMethod_ends :
    (Repair.ofTree annotatedSetting none renamedMethod.toTree).descent.Ends
      renamedMethod.toTree := by
  refine Repair.ends_of_plain_fields (SymbolTable.forall_get
    (P := fun symbol => symbol.annotations = []) rfl (by simp [annotatedSetting, counterSetting]))
    fun v hv => ?_
  simp [renamedMethod, renamedSelection, Method.toTree, Field.toTree, Tree.bare, Tree.preorder_eq,
    Tree.children, Shape.children] at hv

theorem renamedMethod_usedHelpers :
    (Repair.ofTree annotatedSetting none renamedMethod.toTree).usedHelpers = [] := by
  have unowned (s : SymbolId) : (annotatedSetting.symbols.get s).owner = none :=
    SymbolTable.forall_get (P := fun symbol => symbol.owner = none) rfl
      (by simp [annotatedSetting, counterSetting]) s
  have plain (n : Tree) : annotatedSetting.isDefaultHelper n = false := by
    unfold Setting.isDefaultHelper
    split
    next => simp [unowned]
    next => rfl
  simp only [Repair.ofTree, Setting.usedHelpers, Setting.definedHelpers, plain, Bool.false_eq_true,
    ↓reduceIte, List.filterMap_eq_nil_iff]
  intro n _
  split
  · simp [Option.filter_eq_none_iff]
  · rfl

def repairedMethod : Method :=
  ⟨{ symbol := some ⟨"m"⟩ }, { flags := .single .privateMember }, .term "m", [], [],
    .bare (.typeTree none), renamedSelection "m"⟩

theorem renamedMethod_repaired :
    annotatedSetting.repairChecked none renamedMethod.toTree = repairedMethod.toTree := by
  obtain ⟨R, repair⟩ : ∃ R, R = Repair.ofTree annotatedSetting none renamedMethod.toTree := ⟨_, rfl⟩
  have ends := renamedMethod_ends
  have unused := renamedMethod_usedHelpers
  rw [← repair] at ends unused
  have role : R.role (some ⟨"m"⟩) = .method ⟨"m"⟩ := by
    rw [repair]
    exact (Repair.role_eq_method _).mpr ⟨rfl, by decide, by decide, by decide⟩
  have named : R.get ⟨"m"⟩ = { name := .term "m", kind := .method } := by
    rw [repair]
    rfl
  have type : R.tree (.bare (.typeTree none)) = .bare (.typeTree none) :=
    R.tree_eq_node (Descent.ends_of_leaf rfl rfl)
  have self : R.tree (.bare (.this (.type "C"))) = .bare (.this (.type "C")) :=
    R.tree_eq_node (Descent.ends_of_leaf rfl rfl)
  have selected : R.tree (renamedSelection "renamed") = renamedSelection "m" := by
    have below : renamedSelection "renamed" ∈ R.parts renamedMethod.toTree := by
      simp [Repair.parts, renamedMethod, Method.toTree, role]
    rw [R.tree_eq_node (ends.of_visits (.single below))]
    simp [renamedSelection, Repair.node, Repair.selection, unused, named, self]
  have flags : R.keptFlags { flags := .ofList [.privateMember, .lifted] } =
      .single .privateMember := by
    rw [repair]
    decide
  rw [Setting.repairChecked, ← repair, R.tree_eq_node ends]
  simp only [renamedMethod, repairedMethod, Method.toTree, Repair.node, role, Repair.methodParts,
    Repair.annotations, Repair.within, named, flags, type, selected]
  rw [repair]
  rfl

/-- The method has lost the flag that cannot be written, and the selection is spelled as its symbol
is named. -/
theorem renamedMethod_normal :
    (Repair.ofTree annotatedSetting none renamedMethod.toTree).descent.Ends renamedMethod.toTree ∧
      (annotatedSetting.repairChecked none renamedMethod.toTree).WalksTo repairedMethod.toTree ∧
      NormalNode annotatedSetting none renamedMethod.toTree repairedMethod.toTree ∧
      (annotatedSetting.repairChecked none renamedMethod.toTree).WalksTo (renamedSelection "m") ∧
      NormalNode annotatedSetting none renamedMethod.toTree (renamedSelection "m") := by
  have root : (annotatedSetting.repairChecked none renamedMethod.toTree).WalksTo
      repairedMethod.toTree := by
    rw [renamedMethod_repaired]
    exact .refl
  have below : (annotatedSetting.repairChecked none renamedMethod.toTree).WalksTo
      (renamedSelection "m") :=
    root.tail (by simp [repairedMethod, Method.toTree, Shape.inner])
  exact ⟨renamedMethod_ends, root, repaired_nodes_normal _ _ renamedMethod_ends root, below,
    repaired_nodes_normal _ _ renamedMethod_ends below⟩

end TreeRepair
