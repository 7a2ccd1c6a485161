import TreeRepair.Proofs.WrittenParts

namespace TreeRepair

open Relation

/-- A type that names a value by a path, or stands for no value at all. -/
def Ty.isPath : Ty → Bool
  | .noPrefix | .this _ => true
  | .single pre _ => pre.isPath
  | _ => false

/-- What a type is selected from is a path. -/
def Ty.StandsOnPath : Ty → Prop
  | .ref pre _ _ | .single pre _ => pre.isPath = true
  | _ => True

namespace Tree

/-- A selection from what is no path. -/
def StraysFromPath (n : Tree) : Prop := ∃ q name, n.shape = .select q name ∧ q.isPath = false

/-- A selection from the type of a value, in place of the value. -/
def SelectsFromType (n : Tree) : Prop :=
  ∃ q name ref, n.shape = .select q name ∧ q.shape = .singletonType ref

theorem ofNames_straysFromPath : OfNames StraysFromPath := by
  rintro n ⟨q, name, selects, -⟩
  rw [selects]
  rfl

theorem ofNames_selectsFromType : OfNames SelectsFromType := by
  rintro n ⟨q, name, ref, selects, -⟩
  rw [selects]
  rfl

theorem straysFromPath_select {i : Info} {q : Tree} {name : Name} :
    StraysFromPath ⟨i, .select q name⟩ ↔ q.isPath = false := by
  simp [StraysFromPath]

theorem SelectsFromType.straysFromPath {n : Tree} (h : n.SelectsFromType) : n.StraysFromPath := by
  obtain ⟨⟨i, s⟩, name, ref, selects, singleton⟩ := h
  cases singleton
  exact ⟨_, name, selects, rfl⟩

/-- A path stays one when names are turned back, as none of its own are. -/
theorem isPath_nameSingletons (ending : String) {t : Tree} (path : t.isPath = true) :
    (t.nameSingletons ending).isPath = true := by
  fun_induction isPath t with
  | case1 i name => simp [nameSingletons, Shape.mapChildren, isPath]
  | case2 i name =>
    cases name with
    | type text => simp [Name.isTerm, Name.isType] at path
    | _ => simpa [nameSingletons, Shape.mapChildren, isPath] using path
  | case3 i q name ih =>
    obtain ⟨term, path⟩ := Bool.and_eq_true_iff.mp path
    simp [nameSingletons, Shape.mapChildren, isPath, term, ih path]
  | case4 => exact absurd path (by simp)

theorem StraysFromPath.of_nameSingletons {ending : String} {n : Tree}
    (h : (n.nameSingletons ending).StraysFromPath) : n.StraysFromPath := by
  obtain ⟨i, s⟩ := n
  obtain ⟨q, name, selects, stray⟩ := h
  obtain ⟨_, renamed⟩ | rebuilt := nameSingletons_mk ending i s
  · simp [renamed, bare] at selects
  · rw [rebuilt] at selects
    cases s <;> simp only [Shape.mapChildren, reduceCtorEq] at selects
    next q' name' =>
      cases selects
      refine ⟨q', name, rfl, ?_⟩
      by_contra path
      rw [Bool.not_eq_false] at path
      rw [isPath_nameSingletons ending path] at stray
      cases stray

theorem SelectsFromType.nameSingletons {n : Tree} (h : n.SelectsFromType) (ending : String) :
    (n.nameSingletons ending).SelectsFromType := by
  obtain ⟨i, s⟩ := n
  obtain ⟨⟨j, r⟩, name, ref, selects, singleton⟩ := h
  cases selects
  cases singleton
  simp [SelectsFromType, Tree.nameSingletons, Shape.mapChildren]

theorem not_has_straysFromPath_of_isPath {t : Tree} (path : t.isPath = true) :
    ¬ t.Has StraysFromPath := by
  rintro ⟨⟨i, s⟩, hn, q, name, selects, stray⟩
  cases selects
  have below := (Bool.and_eq_true_iff.mp (isPath_of_mem_preorder path hn)).2
  rw [stray] at below
  cases below

end Tree

namespace Setting

variable {W : Setting}

/-- A member of the type of a value that is of no class. -/
def SelectsOffPath (W : Setting) (t : Ty) : Prop :=
  ∃ pre v s args, t = .ref (.single pre v) s args ∧ W.symbols.expansion? s = none ∧
    W.isPlainClass (W.symbols.denoted (.single pre v)) = false

theorem exists_writtenType_single {pre : Ty} {v : SymbolId}
    (ends : W.symbols.writing.Ends (.single pre v)) :
    ∃ ref, W.writtenType (.single pre v) = .bare (.singletonType ref) := by
  rw [writtenType_single ends]
  unfold singletonTree
  split <;> exact ⟨_, rfl⟩

theorem isPath_writtenType_this {s : SymbolId} (ends : W.symbols.writing.Ends (.this s)) :
    (W.writtenType (.this s)).isPath = true := by
  rw [writtenType_this ends]
  split
  · rfl
  · exact W.isPath_path s

/-- A path is written as a path again, as soon as the value is taken for its type. -/
theorem isPath_selected_writtenType (acyclic : W.symbols.Acyclic) {t : Ty}
    (path : t.isPath = true) (bound : t ≠ .noPrefix) :
    (W.writtenType t).selected.isPath = true := by
  fun_induction Ty.isPath t with
  | case1 => exact absurd rfl bound
  | case2 s =>
    have path := isPath_writtenType_this (acyclic.ends (.this s))
    rwa [Tree.selected_of_isPath path]
  | case3 pre s ih =>
    rw [writtenType_single (acyclic.ends _)]
    by_cases free : pre = .noPrefix
    · subst free
      rfl
    · have below := ih path free
      rw [singletonTree_of_ne free]
      change (Tree.bare (.select (W.writtenType pre).selected _)).isPath = true
      simp [Tree.bare, Tree.isPath, Name.toTerm, Name.isTerm, Name.isType, below]
  | case4 => exact absurd path (by simp)

theorem not_straysFromPath_memberTree {pre : Ty} {preTree : Tree} {s : SymbolId}
    (path : preTree.isPath = true) : ¬ (W.memberTree pre preTree s).StraysFromPath := by
  obtain ⟨_, head⟩ | ⟨_, head⟩ | ⟨_, _, head⟩ := Tree.shape_of_isPath path
  · simp [memberTree, head, Tree.bare, Tree.straysFromPath_select, path]
  all_goals
    simp only [memberTree, head]
    split
    · simp [Tree.bare, Tree.StraysFromPath]
    · simp [Tree.bare, Tree.straysFromPath_select, path]

/-- A member strays from the path that it is selected from only where that is the type of a value,
and then only if no class is known for the value. -/
theorem exists_of_straysFromPath_memberTree (acyclic : W.symbols.Acyclic) {pre : Ty} {s : SymbolId}
    (path : pre.isPath = true) (bound : pre ≠ .noPrefix)
    (stray : (W.memberTree pre (W.writtenType pre) s).StraysFromPath) :
    ∃ pre' v, pre = .single pre' v ∧ W.isPlainClass (W.symbols.denoted pre) = false := by
  have below := isPath_selected_writtenType acyclic path bound
  cases pre with
  | noPrefix => exact absurd rfl bound
  | this o =>
    exact absurd stray (not_straysFromPath_memberTree (isPath_writtenType_this (acyclic.ends _)))
  | single pre' v =>
    obtain ⟨ref, written⟩ := exists_writtenType_single (acyclic.ends (.single pre' v))
    rw [written] at stray below
    have below : ref.isPath = true := below
    refine ⟨pre', v, rfl, ?_⟩
    by_contra ofClass
    rw [Bool.not_eq_false] at ofClass
    simp only [memberTree, Tree.bare, ofClass, if_true, Tree.straysFromPath_select, below,
      Bool.true_eq_false] at stray
  | _ => cases path

theorem selectsOffPath_of_ownName (acyclic : W.symbols.Acyclic) {t : Ty} (stands : t.StandsOnPath)
    (own : W.OwnName Tree.StraysFromPath t) : W.SelectsOffPath t := by
  cases t with
  | this s => exact absurd own.2 (Tree.not_has_straysFromPath_of_isPath (W.isPath_path s))
  | ref pre s args =>
    obtain ⟨plain, ⟨-, q, name, selects, -⟩ | ⟨bound, stray⟩⟩ := own
    · cases selects
    · obtain ⟨pre', v, rfl, none⟩ :=
        exists_of_straysFromPath_memberTree acyclic stands bound stray
      exact ⟨pre', v, s, args, rfl, plain, none⟩
  | single pre s =>
    obtain ⟨-, q, name, selects, -⟩ | ⟨bound, stray⟩ := own
    · cases selects
    · have path := isPath_selected_writtenType acyclic stands bound
      rw [Tree.bare, Tree.straysFromPath_select, path] at stray
      cases stray
  | _ => exact absurd own id

theorem SelectsOffPath.ownName (acyclic : W.symbols.Acyclic) {t : Ty} (h : W.SelectsOffPath t) :
    W.OwnName Tree.SelectsFromType t := by
  obtain ⟨pre, v, s, args, rfl, plain, none⟩ := h
  obtain ⟨ref, written⟩ := exists_writtenType_single (acyclic.ends (.single pre v))
  refine ⟨plain, .inr ⟨by simp, ?_⟩⟩
  rw [written]
  simp [memberTree, none, Tree.bare, Tree.SelectsFromType]

theorem isPath_of_renders {t u : Ty} (path : t.isPath = true) (renders : W.Renders t u) :
    u.isPath = true := by
  obtain exposes | ⟨qs, rfl, -⟩ := renders
  · cases t with
    | single pre s =>
      obtain ⟨-, rfl⟩ := exposes
      exact path
    | noPrefix => exact absurd exposes id
    | this s => exact absurd exposes id
    | _ => cases path
  · cases path

/-- A reference without arguments has nothing but the path that it stands on below it. -/
theorem eq_or_isPath_of_reached {pre u : Ty} {s : SymbolId} (path : pre.isPath = true)
    (plain : W.symbols.expansion? s = none)
    (reached : ReflTransGen W.Renders (.ref pre s []) u) : u = .ref pre s [] ∨ u.isPath = true := by
  induction reached with
  | refl => exact .inl rfl
  | tail _ renders ih =>
    right
    obtain rfl | path := ih
    · obtain exposes | ⟨qs, same, -⟩ := renders
      · obtain ⟨-, rfl⟩ : pre ≠ .noPrefix ∧ _ = pre := by simpa [Exposes, plain] using exposes
        exact path
      · cases same
    · exact isPath_of_renders path renders

theorem standsOnPath_of_reached {pre u : Ty} {s : SymbolId} (path : pre.isPath = true)
    (plain : W.symbols.expansion? s = none)
    (reached : ReflTransGen W.Renders (.ref pre s []) u) : u.StandsOnPath := by
  obtain rfl | path := eq_or_isPath_of_reached path plain reached
  · exact path
  · cases u with
    | single pre s => exact path
    | ref => cases path
    | _ => trivial

end Setting

/-- Over paths, everything is selected from a path again, unless a member is taken from the type of
a value that is of no class: there, the written form of the type stands in place of the value. -/
theorem selected_from_paths_iff (W : Setting) (acyclic : W.symbols.Acyclic) (t : Ty)
    (paths : ∀ u, ReflTransGen W.Renders t u → u.StandsOnPath) :
    (∀ n ∈ (W.writtenType t).preorder, ∀ q name, n.shape = .select q name → q.isPath = true) ↔
      ∀ pre v s args, ReflTransGen W.Renders t (.ref (.single pre v) s args) →
        W.symbols.expansion? s = none →
          W.isPlainClass (W.symbols.denoted (.single pre v)) = true := by
  have strays : (∀ n ∈ (W.writtenType t).preorder, ∀ q name, n.shape = .select q name →
      q.isPath = true) ↔ ¬ (W.writtenType t).Has Tree.StraysFromPath := by
    simp [Tree.Has, Tree.StraysFromPath]
  have offPath : (∀ pre v s args, ReflTransGen W.Renders t (.ref (.single pre v) s args) →
      W.symbols.expansion? s = none → W.isPlainClass (W.symbols.denoted (.single pre v)) = true) ↔
      ¬ ∃ u, ReflTransGen W.Renders t u ∧ W.SelectsOffPath u := by
    simp [Setting.SelectsOffPath]
  rw [strays, offPath, not_iff_not]
  constructor
  · intro h
    have named {t u : Ty} (underlies : W.Underlies t u)
        (h : ((W.writtenType u).nameSingletons W.conventions.singletonEnding).Has
          Tree.StraysFromPath) : W.Renders t u ∧ (W.writtenType u).Has Tree.StraysFromPath := by
      obtain ⟨n, hn, stray⟩ := Tree.has_nameSingletons.mp h
      exact ⟨.inr underlies, n, hn, stray.of_nameSingletons⟩
    obtain ⟨u, reached, own⟩ := Tree.ofNames_straysFromPath.exists_ownName_of_has
      (R := W.Renders) .inl named (acyclic.ends t) h
    exact ⟨u, reached, Setting.selectsOffPath_of_ownName acyclic (paths u reached) own⟩
  · rintro ⟨u, reached, offPath⟩
    have kept {u : Ty} (h : (W.writtenType u).Has Tree.SelectsFromType) :
        ((W.writtenType u).nameSingletons W.conventions.singletonEnding).Has
          Tree.SelectsFromType := by
      obtain ⟨n, hn, selects⟩ := h
      exact Tree.has_nameSingletons.mpr ⟨n, hn, selects.nameSingletons _⟩
    obtain ⟨n, hn, selects⟩ := Tree.ofNames_selectsFromType.has_of_ownName (R := W.Renders)
      (fun renders => renders.imp_right fun underlies => ⟨underlies, kept⟩) (acyclic.ends t) reached
      (offPath.ownName acyclic)
    exact ⟨n, hn, selects.straysFromPath⟩

/-- A module and a value of a class, and a member of each. -/
def pathSetting : Setting where
  symbols.entries :=
    [(⟨"O"⟩, { name := .term "O", kind := .module, owner := some ⟨"root"⟩,
               moduleClass := some ⟨"Oc"⟩ }),
     (⟨"Oc"⟩, { name := .type "O", kind := .moduleClass, owner := some ⟨"root"⟩ }),
     (⟨"Inner"⟩, { name := .type "Inner", kind := .plainClass, owner := some ⟨"Oc"⟩ }),
     (⟨"C"⟩, { name := .type "C", kind := .plainClass, owner := some ⟨"root"⟩ }),
     (⟨"v"⟩, { name := .term "v", kind := .term, owner := some ⟨"Oc"⟩,
               info := some (.ref .noPrefix ⟨"C"⟩ []) }),
     (⟨"T"⟩, { name := .type "T", kind := .type, owner := some ⟨"C"⟩ })]
  builtins.rootClass := ⟨"root"⟩
  builtins.nothingType := .unspecified
  builtins.anyType := .unspecified
  builtins.anyRefType := .unspecified

theorem pathSetting_acyclic : pathSetting.symbols.Acyclic := by
  refine SymbolTable.acyclic_of_rank (fun _ => 0) ?_
  decide

/-- A member of the value, which is of a class. -/
def memberOfValue : Ty := .ref (.single (.single (.this ⟨"root"⟩) ⟨"O"⟩) ⟨"v"⟩) ⟨"T"⟩ []

/-- A member of the module. -/
def memberOfModule : Ty := .ref (.single (.this ⟨"root"⟩) ⟨"O"⟩) ⟨"Inner"⟩ []

/-- The member of the value is selected from the path of the value. -/
theorem memberOfValue_selected :
    pathSetting.symbols.Acyclic ∧
      (∀ u, ReflTransGen pathSetting.Renders memberOfValue u → u.StandsOnPath) ∧
      ∀ n ∈ (pathSetting.writtenType memberOfValue).preorder, ∀ q name,
        n.shape = .select q name → q.isPath = true := by
  have paths (u : Ty) (reached : ReflTransGen pathSetting.Renders memberOfValue u) :
      u.StandsOnPath := Setting.standsOnPath_of_reached rfl rfl reached
  refine ⟨pathSetting_acyclic, paths, ?_⟩
  refine (selected_from_paths_iff pathSetting pathSetting_acyclic memberOfValue paths).mpr ?_
  intro pre v s args reached plain
  obtain same | path := Setting.eq_or_isPath_of_reached rfl rfl reached
  · cases same
    decide
  · cases path

/-- The member of the module is selected from the type of the module. -/
theorem memberOfModule_strays :
    pathSetting.symbols.Acyclic ∧
      (∀ u, ReflTransGen pathSetting.Renders memberOfModule u → u.StandsOnPath) ∧
      pathSetting.writtenType memberOfModule =
        .bare (.select (.bare (.singletonType (.bare (.select (.bare (.ident (.term "_root_")))
          (.term "O"))))) (.type "Inner")) ∧
      ∃ n ∈ (pathSetting.writtenType memberOfModule).preorder, ∃ q name,
        n.shape = .select q name ∧ q.isPath = false := by
  have written : pathSetting.writtenType memberOfModule =
      .bare (.select (.bare (.singletonType (.bare (.select (.bare (.ident (.term "_root_")))
        (.term "O"))))) (.type "Inner")) := rfl
  have paths (u : Ty) (reached : ReflTransGen pathSetting.Renders memberOfModule u) :
      u.StandsOnPath := Setting.standsOnPath_of_reached rfl rfl reached
  refine ⟨pathSetting_acyclic, paths, written, _, Tree.self_mem_preorder _, ?_⟩
  rw [written]
  exact ⟨_, _, rfl, rfl⟩

end TreeRepair
