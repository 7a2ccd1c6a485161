import TreeRepair.Proofs.TypeSyntaxPasses

namespace TreeRepair

open Relation

/-- A reference, by a name or to the instance itself. -/
def Shape.isReference {α : Type} : Shape α → Bool
  | .ident _ | .select _ _ | .this _ => true
  | _ => false

/-- The children of a node, without the declared type of an artifact or of a constructor. -/
def Conventions.enteredChildren (C : Conventions) : Shape Tree → List Tree
  | .valDef mods _ tpt rhs =>
    mods.annotations ++ if mods.has .artifact then [rhs] else [tpt, rhs]
  | .defDef mods name tparams vparamss tpt rhs =>
    mods.annotations ++ tparams ++ vparamss.flatten ++
      if name = .term C.constructorName then [rhs] else [tpt, rhs]
  | s => s.children

theorem Conventions.mem_entered_valDef {C : Conventions} {mods : Modifiers Tree} {name : Name}
    {tpt rhs c : Tree} :
    c ∈ C.enteredChildren (.valDef mods name tpt rhs) ↔
      c ∈ mods.annotations ∨ (c = tpt ∧ mods.has .artifact = false) ∨ c = rhs := by
  cases artifact : mods.has .artifact <;> simp [enteredChildren, artifact]

theorem Conventions.mem_entered_defDef {C : Conventions} {mods : Modifiers Tree} {name : Name}
    {tparams : List Tree} {vparamss : List (List Tree)} {tpt rhs c : Tree} :
    c ∈ C.enteredChildren (.defDef mods name tparams vparamss tpt rhs) ↔
      c ∈ mods.annotations ∨ c ∈ tparams ∨ (∃ vs ∈ vparamss, c ∈ vs) ∨
        (c = tpt ∧ name ≠ .term C.constructorName) ∨ c = rhs := by
  by_cases constructor : name = .term C.constructorName <;>
    simp [enteredChildren, constructor, List.mem_flatten]

theorem Conventions.mem_children_of_mem_entered {C : Conventions} {s : Shape Tree} {c : Tree}
    (h : c ∈ C.enteredChildren s) : c ∈ s.children := by
  cases s with
  | valDef mods name tpt rhs =>
    rw [mem_entered_valDef] at h
    simp only [Shape.children, List.mem_append, List.mem_pair]
    exact h.imp_right (Or.imp_left And.left)
  | defDef mods name tparams vparamss tpt rhs =>
    rw [mem_entered_defDef] at h
    simp only [Shape.children, List.mem_append, List.mem_flatten, List.mem_pair, or_assoc]
    exact h.imp_right (Or.imp_right (Or.imp_right (Or.imp_left And.left)))
  | _ => exact h

/-- A walk from the first tree comes to the second without entering the declared type of an artifact
or of a constructor. -/
def Conventions.Enters (C : Conventions) : Tree → Tree → Prop :=
  ReflTransGen fun t c => c ∈ C.enteredChildren t.shape

namespace Setting

variable {W : Setting} {defined : List SymbolId}

/-- A node that a reset can do without the given types: no written form is hidden in it, and if it
is a reference whose type mentions one of them, it has no symbol. -/
structure CleanNode (W : Setting) (defined : List SymbolId) (n : Tree) : Prop where
  unwritten : n.shape.written = none
  released : n.shape.isReference = true → n.info.type.any (W.mentions defined) = true →
    n.symbol = none

/-- What a cleaned tree is made up of: other cleaned trees, and written forms of types. -/
def Cleaned (W : Setting) (defined : List SymbolId) (n : Tree) : Prop :=
  (∃ t, n = W.cleanTypes defined t) ∨ TypeSyntax (fun _ => True) n

/-- A clean node stays so as the walk goes on below it. -/
structure CleanStep (W : Setting) (defined : List SymbolId) (n : Tree) : Prop where
  node : W.CleanNode defined n
  below : ∀ c ∈ W.conventions.enteredChildren n.shape, W.Cleaned defined c

theorem cleaned_cleanTypes (t : Tree) : W.Cleaned defined (W.cleanTypes defined t) := .inl ⟨t, rfl⟩

/-- References by name and to the instance are the only ones that carry a symbol to be released. -/
theorem cleanNode_of_other {i : Info} {s : Shape Tree} (unwritten : s.written = none)
    (other : s.isReference = false) : W.CleanNode defined ⟨i, s⟩ :=
  ⟨unwritten, fun reference => absurd (other.symm.trans reference) Bool.false_ne_true⟩

theorem cleanNode_releaseTyped {i : Info} {s : Shape Tree} (unwritten : s.written = none) :
    W.CleanNode defined ⟨W.releaseTyped defined i, s⟩ := by
  refine ⟨unwritten, fun _ mentions => ?_⟩
  simp only [releaseTyped, Tree.symbol] at mentions ⊢
  split
  · rfl
  next kept =>
    rw [if_neg kept] at mentions
    exact absurd mentions kept

theorem cleanStep_of_typeSyntax {n : Tree} (h : TypeSyntax (fun _ => True) n) :
    W.CleanStep defined n := by
  obtain ⟨i, s⟩ := n
  obtain ⟨node, below⟩ := typeSyntax_mk.mp h
  have kind : s.isTypeSyntax = true := node.kind
  refine ⟨⟨?_, fun _ _ => node.symbol⟩, fun c hc => ?_⟩
  · cases s with
    | typeTree w => cases w <;> simp_all [Shape.isTypeSyntax, Shape.written]
    | _ => rfl
  · exact .inr (below c (Conventions.mem_children_of_mem_entered hc))

variable (W defined) in
theorem inferredType_cases (i : Info) :
    W.inferredType defined i = ⟨i, .typeTree none⟩ ∨
      TypeSyntax (fun _ => True) (W.inferredType defined i) := by
  unfold inferredType
  split
  next t type =>
    split
    · exact .inr (typeSyntax_writtenWithin _ t t)
    · exact .inl rfl
  next => exact .inl rfl

theorem artifact_of_kept {mods : Modifiers Tree} {tpt rhs : Tree}
    (h : typeTreatment mods tpt rhs = .kept) : mods.has .artifact = true := by
  unfold typeTreatment at h
  split at h
  next artifact => exact artifact
  next =>
    split at h
    next => simp at h
    next =>
      split at h
      next => split at h <;> simp at h
      next => simp at h

theorem cleanStep_cleanTypes (t : Tree) : W.CleanStep defined (W.cleanTypes defined t) := by
  have cleaned {l : List Tree} {c : Tree} (hc : c ∈ l.map (W.cleanTypes defined)) :
      W.Cleaned defined c := by
    obtain ⟨d, -, rfl⟩ := List.mem_map.mp hc
    exact cleaned_cleanTypes d
  fun_induction cleanTypes W defined t with
  | case1 i w ih => exact ih
  | case2 i =>
    rcases inferredType_cases W defined i with same | written
    · rw [same]
      exact ⟨cleanNode_of_other rfl rfl, by simp [Conventions.enteredChildren, Shape.children]⟩
    · exact cleanStep_of_typeSyntax written
  | case3 i mods name tparams vparamss tpt rhs =>
    refine ⟨cleanNode_of_other rfl rfl, fun c hc => ?_⟩
    rcases Conventions.mem_entered_defDef.mp hc with hc | hc | ⟨vs, hvs, hc⟩ | ⟨rfl, other⟩ | rfl
    · exact cleaned hc
    · exact cleaned hc
    · obtain ⟨ps, -, rfl⟩ := List.mem_map.mp hvs
      exact cleaned hc
    · rw [if_neg other]
      exact cleaned_cleanTypes tpt
    · exact cleaned_cleanTypes rhs
  | case4 i mods name tpt rhs =>
    refine ⟨cleanNode_of_other rfl rfl, fun c hc => ?_⟩
    rcases Conventions.mem_entered_valDef.mp hc with hc | ⟨rfl, noArtifact⟩ | rfl
    · exact cleaned hc
    · cases treatment : typeTreatment mods tpt rhs with
      | kept => exact absurd (artifact_of_kept treatment) (Bool.eq_false_iff.mp noArtifact)
      | dropped => exact .inr (typeSyntax_leaf rfl rfl)
      | cleaned => exact cleaned_cleanTypes tpt
    · exact cleaned_cleanTypes rhs
  | case5 i fn args singleton ih => exact ih
  | case6 i fn args =>
    refine ⟨cleanNode_of_other rfl rfl, fun c hc => ?_⟩
    rcases List.mem_cons.mp hc with rfl | hc
    · exact cleaned_cleanTypes fn
    · exact cleaned hc
  | case7 i q name =>
    refine ⟨cleanNode_releaseTyped rfl, fun c hc => ?_⟩
    obtain rfl := List.mem_singleton.mp hc
    exact cleaned_cleanTypes q
  | case8 i name => exact ⟨cleanNode_releaseTyped rfl, fun c hc => absurd hc List.not_mem_nil⟩
  | case9 i name => exact ⟨cleanNode_releaseTyped rfl, fun c hc => absurd hc List.not_mem_nil⟩
  | case10 i s written resolved method value application selection identifier this =>
    rw [Shape.pmapChildren_eq]
    refine ⟨cleanNode_of_other ?_ ?_, fun c hc => ?_⟩
    · cases s with
      | typeTree w => cases w <;> simp_all
      | _ => rfl
    · cases s <;> simp_all [Shape.isReference, Shape.mapChildren]
    · have hc := Conventions.mem_children_of_mem_entered hc
      rw [Shape.children_mapChildren] at hc
      exact cleaned hc

theorem Cleaned.step {n : Tree} (h : W.Cleaned defined n) : W.CleanStep defined n := by
  rcases h with ⟨t, rfl⟩ | written
  · exact cleanStep_cleanTypes t
  · exact cleanStep_of_typeSyntax written

theorem cleaned_of_enters {t n : Tree} (h : W.conventions.Enters (W.cleanTypes defined t) n) :
    W.Cleaned defined n := by
  induction h with
  | refl => exact cleaned_cleanTypes t
  | tail _ hc ih => exact ih.step.below _ hc

end Setting

/-- Once the types of a tree are cleaned, a walk that leaves out the declared types of artifacts and
constructors comes to no resolved type that was written, and to no reference under a symbol whose
type mentions one that the tree declares. -/
theorem cleaned_types_normal (W : Setting) (t n : Tree)
    (entered : W.conventions.Enters (W.cleanInferredTypes t) n) : W.CleanNode t.definedTypes n :=
  (Setting.cleaned_of_enters entered).step.node

/-- A class `C` in a package right below the root. -/
def declaredSetting : Setting where
  symbols.entries :=
    [(⟨"p"⟩, { name := .term "p", kind := .package, owner := some ⟨"root"⟩ }),
     (⟨"C"⟩, { name := .type "C", kind := .plainClass, owner := some ⟨"p"⟩ })]
  builtins.rootClass := ⟨"root"⟩
  builtins.nothingType := .unspecified
  builtins.anyType := .unspecified
  builtins.anyRefType := .unspecified

/-- A reference to the class from what stands for its package. -/
def classReference (symbol : Option SymbolId) (package : Tree) : Tree :=
  ⟨{ symbol, type := some (.ref .noPrefix ⟨"C"⟩ []) }, .select package (.type "C")⟩

/-- The declaration of the class, and a value that has it for its type. -/
def declaredBlock (tpt : Tree) : Tree :=
  .bare (.block [⟨{ symbol := some ⟨"C"⟩ }, .classDef {} (.type "C") [] .empty⟩]
    (.bare (.valDef {} (.term "x") tpt .empty)))

/-- The class as it was written, found out about twice. -/
def resolvedReference : Tree :=
  .bare (.typeTree (some (.bare (.typeTree (some
    (classReference (some ⟨"C"⟩) ⟨{ symbol := some ⟨"p"⟩ }, .ident (.term "p")⟩))))))

/-- The class under its full path. -/
def rootedReference : Tree :=
  classReference none (.bare (.select (.bare (.ident (.term "_root_"))) (.term "p")))

theorem declaredSetting_mentions :
    declaredSetting.mentions [⟨"C"⟩] (.ref .noPrefix ⟨"C"⟩ []) = true := by decide

theorem declaredBlock_defined : (declaredBlock resolvedReference).definedTypes = [⟨"C"⟩] := by
  simp [declaredBlock, resolvedReference, Tree.definedTypes, Tree.preorder_eq, Tree.children,
    Tree.bare, Tree.empty, Shape.children, Tree.symbol]

theorem declaredBlock_cleaned :
    declaredSetting.cleanInferredTypes (declaredBlock resolvedReference) =
      declaredBlock rootedReference := by
  have outermost : (declaredSetting.symbols.get ⟨"p"⟩).owner =
    some declaredSetting.builtins.rootClass := rfl
  have root : declaredSetting.conventions.rootName = "_root_" := rfl
  rw [Setting.cleanInferredTypes, declaredBlock_defined]
  simp [declaredBlock, resolvedReference, rootedReference, classReference, Setting.cleanTypes,
    Setting.anchor, outermost, root, Tree.bare, Tree.empty, Shape.mapChildren,
    Setting.releaseTyped, declaredSetting_mentions, Setting.typeTreatment, Modifiers.has,
    Info.detached]

/-- The reference is met under its full path, and the class that it mentions is declared anew. -/
theorem declaredBlock_normal :
    declaredSetting.conventions.Enters
        (declaredSetting.cleanInferredTypes (declaredBlock resolvedReference)) rootedReference ∧
      rootedReference.info.type.any
        (declaredSetting.mentions (declaredBlock resolvedReference).definedTypes) = true ∧
      declaredSetting.CleanNode (declaredBlock resolvedReference).definedTypes rootedReference := by
  have entered : declaredSetting.conventions.Enters
      (declaredSetting.cleanInferredTypes (declaredBlock resolvedReference)) rootedReference := by
    rw [declaredBlock_cleaned]
    refine .head (b := .bare (.valDef {} (.term "x") rootedReference .empty)) ?_ (.single ?_)
    · simp [declaredBlock, Tree.bare, Conventions.enteredChildren, Shape.children]
    · exact Conventions.mem_entered_valDef.mpr (.inr (.inl ⟨rfl, rfl⟩))
  refine ⟨entered, ?_, cleaned_types_normal _ _ _ entered⟩
  rw [declaredBlock_defined]
  exact declaredSetting_mentions

end TreeRepair
