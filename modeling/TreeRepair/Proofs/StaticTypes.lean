import TreeRepair.Proofs.OwnerPaths
import TreeRepair.Proofs.Same
import TreeRepair.Proofs.WritingEnds

namespace TreeRepair

namespace Tree

theorem same_bare_select {q q' : Tree} {n n' : Name} :
    (bare (.select q n)).same (bare (.select q' n')) = true ↔ n = n' ∧ q.same q' = true := by
  simp [bare, same_mk, Shape.outline, Shape.subtrees, Shape.children, Shape.written]

theorem same_bare_singletonType {r r' : Tree} :
    (bare (.singletonType r)).same (bare (.singletonType r')) = true ↔ r.same r' = true := by
  simp [bare, same_mk, Shape.outline, Shape.subtrees, Shape.children, Shape.written]

theorem same_bare_appliedType {t t' : Tree} {as as' : List Tree} :
    (bare (.appliedType t as)).same (bare (.appliedType t' as')) = true ↔
      t.same t' = true ∧ List.Forall₂ (fun a b => a.same b = true) as as' := by
  simp only [bare, same_mk, Shape.outline, Shape.subtrees, Shape.children, Shape.written,
    Option.toList_none, List.append_nil, Shape.appliedType.injEq, true_and, List.forall₂_cons]
  constructor
  · exact fun h => h.2
  · intro h
    refine ⟨?_, h⟩
    simp [List.map_const', h.2.length_eq]

end Tree

/-- The namespace in which a member is found by its name: packages and modules by the names of
their classes, classes, types, and values. -/
def SymbolKind.namespace? : SymbolKind → Option SymbolKind
  | .packageClass | .moduleClass => some .packageClass
  | .plainClass => some .plainClass
  | .type => some .type
  | .term | .module => some .term
  | _ => none

/-- No two members of one owner share their name within a namespace. -/
def SymbolTable.Unambiguous (T : SymbolTable) : Prop :=
  ∀ s s' o, (T.get s).owner = some o → (T.get s').owner = some o →
    (T.get s).name.text = (T.get s').name.text →
    ∀ k, (T.get s).kind.namespace? = some k → (T.get s').kind.namespace? = some k → s = s'

/-- Only symbols that are listed can be ambiguous. -/
theorem SymbolTable.unambiguous_of_listed {T : SymbolTable}
    (h : ∀ s ∈ T.entries.map Prod.fst, ∀ s' ∈ T.entries.map Prod.fst,
      (T.get s).owner = (T.get s').owner → (T.get s).name.text = (T.get s').name.text →
        (T.get s).kind.namespace? = (T.get s').kind.namespace? → s = s') : T.Unambiguous := by
  intro s s' o owner owner' text k kind kind'
  have listed := mem_listed_of_owner owner
  have listed' := mem_listed_of_owner owner'
  rw [SymbolTable.listed, List.mem_toFinset] at listed listed'
  exact h s listed s' listed' (owner.trans owner'.symm) text (kind.trans kind'.symm)

namespace Setting

variable (W : Setting)

/-- A package or a module, named by its class, of which all owners up to the root are such. -/
inductive Static : SymbolId → Prop
  | root (kind : (W.symbols.get W.builtins.rootClass).kind ∈ [.packageClass, .moduleClass]) :
      Static W.builtins.rootClass
  | member {s o : SymbolId} (kind : (W.symbols.get s).kind ∈ [.packageClass, .moduleClass])
      (owner : (W.symbols.get s).owner = some o) (static : Static o) : Static s

/-- References to classes, types and values that are members of static packages and modules. -/
inductive StaticType : Ty → Prop
  | ref {o s : SymbolId} {args : List Ty} (static : W.Static o)
      (kind : (W.symbols.get s).kind ∈ [.plainClass, .type])
      (owner : (W.symbols.get s).owner = some o) (arguments : ∀ a ∈ args, StaticType a) :
      StaticType (.ref (.this o) s args)
  | single {o v : SymbolId} (static : W.Static o) (kind : (W.symbols.get v).kind ∈ [.term, .module])
      (owner : (W.symbols.get v).owner = some o) : StaticType (.single (.this o) v)

variable {W}

theorem Static.kind {s : SymbolId} (h : W.Static s) :
    (W.symbols.get s).kind ∈ [SymbolKind.packageClass, .moduleClass] := by
  cases h <;> assumption

theorem Static.namespace? {s : SymbolId} (h : W.Static s) :
    (W.symbols.get s).kind.namespace? = some .packageClass := by
  rcases List.mem_pair.mp h.kind with kind | kind <;> rw [kind] <;> rfl

theorem Static.not_isPlainClass {s : SymbolId} (h : W.Static s) :
    W.isPlainClass (some s) = false := by
  rcases List.mem_pair.mp h.kind with kind | kind <;>
    simp [isPlainClass, Symbol.isPlainClass, kind]

theorem Static.ends {s : SymbolId} (h : W.Static s) : W.owning.Ends s := by
  induction h with
  | root => exact owning_ends_root
  | member _ owner _ ih => exact owning_ends_of_owner owner ih

/-- A static symbol is the root, or its path continues that of a static owner. -/
theorem Static.path_cases {s : SymbolId} (h : W.Static s) :
    s = W.builtins.rootClass ∨ ∃ o, W.Static o ∧ (W.symbols.get s).owner = some o ∧
      W.path s = .bare (.select (W.path o) (W.nameOf s).toTerm) := by
  by_cases root : s = W.builtins.rootClass
  · exact .inl root
  · cases h with
    | root => exact absurd rfl root
    | member _ owner static => exact .inr ⟨_, static, owner, path_of_owner root owner static.ends⟩

theorem Static.eq_root_of_same {s : SymbolId} (h : W.Static s)
    (same : (W.path W.builtins.rootClass).same (W.path s) = true) : s = W.builtins.rootClass := by
  rcases h.path_cases with root | ⟨o, -, -, path⟩
  · exact root
  · have outline := Tree.outline_eq_of_same same
    rw [path_root, path] at outline
    simp [Tree.bare, Shape.outline] at outline

/-- Different static symbols have different paths. -/
theorem Static.eq_of_same_path (unique : W.symbols.Unambiguous) {s s' : SymbolId}
    (h : W.Static s) (h' : W.Static s') (same : (W.path s).same (W.path s') = true) : s = s' := by
  induction h generalizing s' with
  | root => exact (h'.eq_root_of_same same).symm
  | @member s o kind owner static ih =>
    have hs : W.Static s := .member kind owner static
    by_cases root : s = W.builtins.rootClass
    · rw [root] at same ⊢
      exact (h'.eq_root_of_same same).symm
    · rcases h'.path_cases with root' | ⟨o', static', owner', path'⟩
      · rw [root'] at same ⊢
        exact hs.eq_root_of_same (Tree.same_symm same)
      · rw [path_of_owner root owner static.ends, path', Tree.same_bare_select] at same
        obtain ⟨names, owners⟩ := same
        obtain rfl := ih static' owners
        have text : (W.nameOf s).text = (W.nameOf s').text := by
          simpa [Name.toTerm] using names
        exact unique s s' o owner owner' text _ hs.namespace? h'.namespace?

/-- The path of a static symbol is a name or a selection. -/
theorem Static.path_head {s : SymbolId} (h : W.Static s) :
    (∃ n, (W.path s).shape = .ident n) ∨ ∃ q n, (W.path s).shape = .select q n := by
  rcases h.path_cases with rfl | ⟨o, -, -, path⟩
  · exact .inl ⟨_, by rw [path_root]; rfl⟩
  · exact .inr ⟨_, _, by rw [path]; rfl⟩

theorem writtenWith_static_this (deeper : Ty → Ty → Tree) (shown : Ty) {o : SymbolId}
    (static : W.Static o) : W.writtenWith deeper shown (.this o) = W.path o := by
  rw [writtenWith, static.not_isPlainClass, if_neg Bool.false_ne_true]

/-- A class or type that is a member of a static owner is selected from the path of the owner,
classes by a type name and types by a term name. -/
theorem writtenWith_static_ref (deeper : Ty → Ty → Tree) (shown : Ty) {o s : SymbolId}
    (args : List Ty) (static : W.Static o)
    (kind : (W.symbols.get s).kind ∈ [.plainClass, .type]) :
    W.writtenWith deeper shown (.ref (.this o) s args) =
      applied (.bare (.select (W.path o)
          (if W.isPlainClass (some s) then (W.nameOf s).toType else (W.nameOf s).toTerm)))
        (args.map fun a => W.writtenWith deeper a a) := by
  have unaliased : W.symbols.expansion? s = none := by
    rcases List.mem_pair.mp kind with kind | kind <;>
      simp [SymbolTable.expansion?, Symbol.isAlias, kind]
  have denoted : W.symbols.denoted (.this o) = some o := by
    simp [SymbolTable.denoted, SymbolTable.bound, Nat.mul_add, SymbolTable.denotedWithin,
      SymbolTable.denotedWith]
  have member : W.memberTree (.this o) (W.path o) s = .bare (.select (W.path o)
      (if W.isPlainClass (some s) then (W.nameOf s).toType else (W.nameOf s).toTerm)) := by
    rcases static.path_head with ⟨n, head⟩ | ⟨q, n, head⟩ <;>
      simp [memberTree, denoted, static.not_isPlainClass, head]
  rw [writtenWith, unaliased, writtenWith_static_this deeper _ static, writtenAllWith_eq_map]
  exact congrArg (applied · _) member

theorem writtenWith_static_single (deeper : Ty → Ty → Tree) (shown : Ty) {o : SymbolId}
    (v : SymbolId) (static : W.Static o) :
    W.writtenWith deeper shown (.single (.this o) v) =
      .bare (.singletonType (.bare (.select (W.path o) (W.nameOf v).toTerm))) := by
  rw [writtenWith, writtenWith_static_this deeper _ static]
  rcases static.path_head with ⟨n, head⟩ | ⟨q, n, head⟩ <;> simp [singletonTree, head]

/-- Applications are the same if their constructors and arguments are; a selection is no
application. -/
theorem same_applied {q q' : Tree} {n n' : Name} {as as' : List Tree}
    (same : (applied (.bare (.select q n)) as).same (applied (.bare (.select q' n')) as') = true) :
    (n = n' ∧ q.same q' = true) ∧ List.Forall₂ (fun a b => a.same b = true) as as' := by
  unfold applied at same
  cases as with
  | nil =>
    cases as' with
    | nil => exact ⟨Tree.same_bare_select.mp same, .nil⟩
    | cons b bs =>
      have outline := Tree.outline_eq_of_same same
      simp [Tree.bare, Shape.outline] at outline
  | cons a as =>
    cases as' with
    | nil =>
      have outline := Tree.outline_eq_of_same same
      simp [Tree.bare, Shape.outline] at outline
    | cons b bs =>
      obtain ⟨head, arguments⟩ := Tree.same_bare_appliedType.mp same
      exact ⟨Tree.same_bare_select.mp head, arguments⟩

theorem not_same_applied_singleton {q r : Tree} {n : Name} {as : List Tree} :
    (applied (.bare (.select q n)) as).shape.outline ≠
      (Tree.bare (.singletonType r)).shape.outline := by
  unfold applied
  split <;> simp [Tree.bare, Shape.outline]

/-- Members of one owner that are written alike are one. -/
theorem eq_of_written_name (unique : W.symbols.Unambiguous) {s s' o : SymbolId}
    (kind : (W.symbols.get s).kind ∈ [SymbolKind.plainClass, .type])
    (kind' : (W.symbols.get s').kind ∈ [SymbolKind.plainClass, .type])
    (owner : (W.symbols.get s).owner = some o) (owner' : (W.symbols.get s').owner = some o)
    (names : (if W.isPlainClass (some s) then (W.nameOf s).toType else (W.nameOf s).toTerm) =
      if W.isPlainClass (some s') then (W.nameOf s').toType else (W.nameOf s').toTerm) :
    s = s' := by
  have agree := unique s s' o owner owner'
  rcases List.mem_pair.mp kind with kind | kind <;> rcases List.mem_pair.mp kind' with kind' | kind' <;>
    simp [isPlainClass, Symbol.isPlainClass, kind, kind', Name.toType, Name.toTerm] at names <;>
    exact agree names _ (by rw [kind]; rfl) (by rw [kind']; rfl)

theorem StaticType.eq_of_same (unique : W.symbols.Unambiguous) (deeper : Ty → Ty → Tree) {t u : Ty}
    (ht : W.StaticType t) (hu : W.StaticType u)
    (same : (W.writtenWith deeper t t).same (W.writtenWith deeper u u) = true) : t = u := by
  induction ht generalizing u with
  | @ref o s args static kind owner _ ih =>
    rw [writtenWith_static_ref deeper _ args static kind] at same
    cases hu with
    | @ref o' s' args' static' kind' owner' arguments' =>
      rw [writtenWith_static_ref deeper _ args' static' kind'] at same
      obtain ⟨⟨names, paths⟩, arguments⟩ := same_applied same
      obtain rfl := static.eq_of_same_path unique static' paths
      obtain rfl := eq_of_written_name unique kind kind' owner owner' names
      have equal : args = args' := by
        rw [List.forall₂_map_left_iff, List.forall₂_map_right_iff, List.forall₂_iff_get] at arguments
        refine List.ext_get arguments.1 fun n hn hn' => ?_
        exact ih _ (List.get_mem ..) (arguments' _ (List.get_mem ..)) (arguments.2 n hn hn')
      rw [equal]
    | single static' =>
      rw [writtenWith_static_single deeper _ _ static'] at same
      exact absurd (Tree.outline_eq_of_same same) not_same_applied_singleton
  | @single o v static kind owner =>
    rw [writtenWith_static_single deeper _ v static] at same
    cases hu with
    | ref static' kind' =>
      rw [writtenWith_static_ref deeper _ _ static' kind'] at same
      exact absurd (Tree.outline_eq_of_same same).symm not_same_applied_singleton
    | @single o' v' static' kind' owner' =>
      rw [writtenWith_static_single deeper _ v' static', Tree.same_bare_singletonType,
        Tree.same_bare_select] at same
      obtain ⟨names, paths⟩ := same
      obtain rfl := static.eq_of_same_path unique static' paths
      have text : (W.nameOf v).text = (W.nameOf v').text := by simpa [Name.toTerm] using names
      have values {v : SymbolId} (kind : (W.symbols.get v).kind ∈ [SymbolKind.term, .module]) :
          (W.symbols.get v).kind.namespace? = some .term := by
        rcases List.mem_pair.mp kind with kind | kind <;> rw [kind] <;> rfl
      rw [unique v v' o owner owner' text _ (values kind) (values kind')]

end Setting

/-- References to members of static packages and modules that are written alike are the same type,
if no two members of one owner share their name within a namespace. -/
theorem static_type_of_written (W : Setting) (unique : W.symbols.Unambiguous) {t u : Ty}
    (ht : W.StaticType t) (hu : W.StaticType u)
    (same : (W.writtenType t).same (W.writtenType u) = true) : t = u :=
  Setting.StaticType.eq_of_same unique (W.writtenWithin (3 * W.symbols.bound - 1)) ht hu same

/-- A package with a class `List`, a type `List` and a module `List`, in which a class `Entry` and a
value `empty` are declared. -/
def listSetting : Setting where
  symbols.entries :=
    [(⟨"root"⟩, { name := .type "<root>", kind := .packageClass }),
     (⟨"p"⟩, { name := .type "p", kind := .packageClass, owner := some ⟨"root"⟩ }),
     (⟨"List"⟩, { name := .type "List", kind := .plainClass, owner := some ⟨"p"⟩ }),
     (⟨"T"⟩, { name := .type "List", kind := .type, owner := some ⟨"p"⟩ }),
     (⟨"M"⟩, { name := .type "List", kind := .moduleClass, owner := some ⟨"p"⟩ }),
     (⟨"Entry"⟩, { name := .type "Entry", kind := .plainClass, owner := some ⟨"M"⟩ }),
     (⟨"empty"⟩, { name := .term "empty", kind := .term, owner := some ⟨"M"⟩ })]
  builtins.rootClass := ⟨"root"⟩
  builtins.nothingType := .unspecified
  builtins.anyType := .unspecified
  builtins.anyRefType := .unspecified

theorem listSetting_unambiguous : listSetting.symbols.Unambiguous :=
  SymbolTable.unambiguous_of_listed (by decide)

theorem listSetting_static : listSetting.Static ⟨"p"⟩ ∧ listSetting.Static ⟨"M"⟩ := by
  have package : listSetting.Static ⟨"p"⟩ :=
    .member (o := ⟨"root"⟩) (by decide) (by decide) (.root (by decide))
  exact ⟨package, .member (by decide) (by decide) package⟩

/-- Entries of lists of the type of one value. -/
def listEntry (list : String) : Ty :=
  .ref (.this ⟨"M"⟩) ⟨"Entry"⟩ [.ref (.this ⟨"p"⟩) ⟨list⟩ [.single (.this ⟨"M"⟩) ⟨"empty"⟩]]

theorem listEntry_static (list : String)
    (kind : (listSetting.symbols.get ⟨list⟩).kind ∈ [SymbolKind.plainClass, .type])
    (owner : (listSetting.symbols.get ⟨list⟩).owner = some ⟨"p"⟩) :
    listSetting.StaticType (listEntry list) := by
  obtain ⟨package, module⟩ := listSetting_static
  have value : listSetting.StaticType (.single (.this ⟨"M"⟩) ⟨"empty"⟩) :=
    .single module (by decide) (by decide)
  refine .ref module (by decide) (by decide) fun a ha => ?_
  obtain rfl := List.mem_singleton.mp ha
  refine .ref package kind owner fun b hb => ?_
  obtain rfl := List.mem_singleton.mp hb
  exact value

/-- Entries of the class and of the type of one name are told apart. -/
theorem listEntry_of_written :
    listSetting.symbols.Unambiguous ∧ listSetting.StaticType (listEntry "List") ∧
      listSetting.StaticType (listEntry "T") ∧ listEntry "List" = listEntry "List" ∧
      (listSetting.writtenType (listEntry "List")).same
        (listSetting.writtenType (listEntry "T")) = false := by
  have listStatic := listEntry_static "List" (by decide) (by decide)
  have typeStatic := listEntry_static "T" (by decide) (by decide)
  refine ⟨listSetting_unambiguous, listStatic, typeStatic, ?_, ?_⟩
  · exact static_type_of_written listSetting listSetting_unambiguous listStatic listStatic
      (Tree.same_refl _)
  · refine Bool.eq_false_iff.mpr fun same => ?_
    have equal := static_type_of_written listSetting listSetting_unambiguous listStatic typeStatic
      same
    simp [listEntry] at equal

end TreeRepair
