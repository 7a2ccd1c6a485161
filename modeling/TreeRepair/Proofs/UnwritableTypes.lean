import TreeRepair.Proofs.Aliases

namespace TreeRepair

open Relation

namespace SymbolTable

variable {T : SymbolTable}

/-- No symbol is among its own type parameters or among theirs. -/
def AcyclicParameters (T : SymbolTable) : Prop :=
  ∀ s, ¬ TransGen (fun p s => p ∈ (T.get s).typeParams) s s

/-- A declared symbol without a written form: one without a type, or a value that is no method. -/
def Undeclarable (T : SymbolTable) (d : SymbolId) : Prop :=
  (T.get d).info = none ∨ (T.get d).isMethod = false ∧ (T.get d).isType = false

instance : DecidablePred T.Undeclarable := fun _ => inferInstanceAs (Decidable (_ ∨ _))

theorem mem_listed_of_typeParam {p s : SymbolId} (h : p ∈ (T.get s).typeParams) :
    s ∈ T.listed := by
  by_contra unlisted
  simp [get_of_not_listed unlisted] at h

/-- If symbols can be ranked so that type parameters are below what they belong to, no symbol is
among its own. -/
theorem acyclicParameters_of_rank (rank : SymbolId → Nat)
    (lower : ∀ s ∈ T.listed, ∀ p ∈ (T.get s).typeParams, rank p < rank s) :
    T.AcyclicParameters :=
  not_transGen_self_of_rank rank fun _ s h => lower s (mem_listed_of_typeParam h) _ h

theorem AcyclicParameters.ends (h : T.AcyclicParameters) (s : SymbolId) : T.declaring.Ends s :=
  Descent.along_ends (fun _ _ hp => mem_listed_of_typeParam hp) h s

end SymbolTable

namespace Setting

variable {W : Setting}

/-- Whether the name of a symbol stands for the type of a value. -/
def standsForValue (W : Setting) (s : SymbolId) : Bool :=
  Text.endsWith (W.nameOf s).text W.conventions.singletonEnding

/-- A quantified symbol without a written form: one without bounds, or one that stands for the type
of a value and has a lower bound. -/
def Unquantifiable (W : Setting) (q : SymbolId) : Prop :=
  (∀ lo hi, (W.symbols.get q).info ≠ some (.bounds lo hi)) ∨
    W.standsForValue q = true ∧ ∃ lo hi, (W.symbols.get q).info = some (.bounds lo hi) ∧
      lo.same W.builtins.nothingType = false

/-- A type without a written form that is no alias. -/
def Unwritable (W : Setting) : Ty → Prop
  | .noPrefix | .method _ _ | .nullary _ | .poly _ _ | .constant _ | .unspecified => True
  | .existential qs _ => ∃ q ∈ qs, W.Unquantifiable q
  | .refined _ ds => ∃ d ∈ ds, W.symbols.Undeclarable d
  | .this _ | .ref _ _ _ | .single _ _ | .bounds _ _ => False

/-- The declaration of a quantified symbol: a type within its bounds, or a value of the upper
bound. -/
inductive DeclaresQuantified (W : Setting) : SymbolId → Tree → Prop
  | type {q : SymbolId} {lo hi : Ty} (info : (W.symbols.get q).info = some (.bounds lo hi))
      (plain : W.standsForValue q = false) :
      DeclaresQuantified W q (.bare (.typeDef { flags := .ofList [.deferred, .synthetic] }
        (.type (W.nameOf q).text) [] (W.writtenType (.bounds lo hi))))
  | value {q : SymbolId} {lo hi : Ty} (info : (W.symbols.get q).info = some (.bounds lo hi))
      (erased : W.standsForValue q = true) :
      DeclaresQuantified W q (.bare (.valDef deferred
        (.term (Text.dropEnding (W.nameOf q).text W.conventions.singletonEnding))
        (W.writtenType hi) .empty))

/-- The declaration of a type, with the declarations of its type parameters in order. -/
inductive DeclaresType (W : Setting) : SymbolId → Tree → Prop
  | intro {s : SymbolId} {tparams : List Tree}
      (types : List.Forall₂ (DeclaresType W) (W.symbols.get s).typeParams tparams) :
      DeclaresType W s (.bare (.typeDef {} (W.nameOf s).toType tparams
        (W.resultTree W.writtenType s)))

/-- The declaration of a value. -/
def DeclaresValue (W : Setting) (s : SymbolId) (v : Tree) : Prop :=
  v = .bare (.valDef deferred (W.nameOf s).toTerm (W.resultTree W.writtenType s) .empty)

/-- The declaration of a symbol in a refinement: a value for a stable method, a method with its type
parameters and parameter lists for another one, and otherwise a type. -/
inductive DeclaresMember (W : Setting) : SymbolId → Tree → Prop
  | value {d : SymbolId} {v : Tree} (method : (W.symbols.get d).isMethod = true)
      (stable : (W.symbols.get d).isStable = true) (declares : W.DeclaresValue d v) :
      DeclaresMember W d v
  | method {d : SymbolId} {tparams : List Tree} {vparamss : List (List Tree)}
      (method : (W.symbols.get d).isMethod = true) (unstable : (W.symbols.get d).isStable = false)
      (types : List.Forall₂ W.DeclaresType (W.symbols.get d).typeParams tparams)
      (values : List.Forall₂ (List.Forall₂ W.DeclaresValue) (W.symbols.get d).paramLists vparamss) :
      DeclaresMember W d (.bare (.defDef deferred (W.nameOf d).toTerm tparams vparamss
        (W.resultTree W.writtenType d) .empty))
  | type {d : SymbolId} {m : Tree} (noMethod : (W.symbols.get d).isMethod = false)
      (type : (W.symbols.get d).isType = true) (declares : W.DeclaresType d m) :
      DeclaresMember W d m

theorem clause?_eq_none_iff {render : Ty → Tree} {q : SymbolId} :
    W.clause? render q = none ↔ W.Unquantifiable q := by
  simp only [clause?, Unquantifiable, standsForValue]
  split
  next lo hi info =>
    cases erased : Text.endsWith (W.nameOf q).text W.conventions.singletonEnding <;>
      cases low : lo.same W.builtins.nothingType <;> simp [info, low]
  next other =>
    simp only [true_iff]
    exact .inl fun lo hi info => other lo hi info

theorem declaresQuantified_of_clause? {q : SymbolId} {c : Tree}
    (h : W.clause? W.writtenType q = some c) : W.DeclaresQuantified q c := by
  simp only [clause?] at h
  split at h
  next lo hi info =>
    split at h
    next plain =>
      cases h
      exact .type info (by simpa [standsForValue] using plain)
    next erased =>
      split at h
      · cases h
        exact .value info (by simpa [standsForValue] using erased)
      · simp at h
  next => simp at h

theorem member?_eq_none_iff {render : Ty → Tree} {d : SymbolId} :
    W.member? render d = none ↔ W.symbols.Undeclarable d := by
  simp only [member?, SymbolTable.Undeclarable]
  cases info : (W.symbols.get d).info with
  | none => simp
  | some t =>
    cases method : (W.symbols.get d).isMethod <;> cases type : (W.symbols.get d).isType <;> simp

instance : DecidablePred W.Unquantifiable := fun q =>
  decidable_of_iff (W.clause? (fun _ => .empty) q = none) clause?_eq_none_iff

instance : DecidablePred W.Unwritable
  | .noPrefix | .method _ _ | .nullary _ | .poly _ _ | .constant _ | .unspecified =>
    .isTrue trivial
  | .existential qs _ => inferInstanceAs (Decidable (∃ q ∈ qs, W.Unquantifiable q))
  | .refined _ ds => inferInstanceAs (Decidable (∃ d ∈ ds, W.symbols.Undeclarable d))
  | .this _ | .ref _ _ _ | .single _ _ | .bounds _ _ => .isFalse id

/-- The declarations of type parameters are nested as deeply as the parameters are. -/
theorem typeMember_eq (acyclic : W.symbols.AcyclicParameters) (render : Ty → Tree) (s : SymbolId) :
    W.typeMember render W.symbols.bound s =
      .bare (.typeDef {} (W.nameOf s).toType
        ((W.symbols.get s).typeParams.map (W.typeMember render W.symbols.bound))
        (W.resultTree render s)) := by
  have congr (m n : Nat) (x : SymbolId)
      (same : ∀ y, W.symbols.declaring.Visits x y → ∀ k ∈ W.symbols.declaring.sources y,
        ∀ p ∈ W.symbols.declaring.drawn k, W.typeMember render m p = W.typeMember render n p) :
      W.typeMember render (m + 1) x = W.typeMember render (n + 1) x := by
    have parameters : ∀ p ∈ (W.symbols.get x).typeParams,
        W.typeMember render m p = W.typeMember render n p :=
      same x .refl x (List.mem_singleton.mpr rfl)
    rw [typeMember, typeMember, List.map_congr_left parameters]
  have stable : W.typeMember render W.symbols.bound s =
      W.typeMember render (W.symbols.bound + 1) s :=
    Descent.Ends.within_succ (fun k p hp => SymbolTable.mem_listed_of_typeParam hp)
      W.symbols.card_listed_lt (W.typeMember render) congr (acyclic.ends s)
  rw [stable, typeMember]

theorem declaresType_typeMember (acyclic : W.symbols.AcyclicParameters) (s : SymbolId) :
    W.DeclaresType s (W.typeMember W.writtenType W.symbols.bound s) := by
  refine Descent.Ends.induct (D := W.symbols.declaring) (motive := fun s =>
    W.DeclaresType s (W.typeMember W.writtenType W.symbols.bound s)) ?_ (acyclic.ends s)
  intro s _ _ parameters
  have declared := parameters s (List.mem_singleton.mpr rfl)
  rw [typeMember_eq acyclic]
  refine .intro ?_
  rw [List.forall₂_map_right_iff, List.forall₂_same]
  exact declared

theorem declaresMember_of_member? (acyclic : W.symbols.AcyclicParameters) {d : SymbolId} {m : Tree}
    (h : W.member? W.writtenType d = some m) : W.DeclaresMember d m := by
  simp only [member?] at h
  split at h
  · simp at h
  · split at h
    next method =>
      split at h
      next stable =>
        cases h
        exact .value method stable rfl
      next unstable =>
        cases h
        refine .method method (Bool.eq_false_iff.mpr unstable) ?_ ?_
        · rw [List.forall₂_map_right_iff, List.forall₂_same]
          exact fun p _ => declaresType_typeMember acyclic p
        · rw [List.forall₂_map_right_iff, List.forall₂_same]
          intro ps _
          rw [List.forall₂_map_right_iff, List.forall₂_same]
          exact fun p _ => rfl
    next noMethod =>
      split at h
      next type =>
        cases h
        exact .type (Bool.eq_false_iff.mpr noMethod) type (declaresType_typeMember acyclic d)
      · simp at h

/-- A type without a written form is shown as it is. -/
theorem writtenAs_of_unwritable {t : Ty} (ends : W.symbols.writing.Ends t)
    (h : W.Unwritable t) (shown : Ty) : W.writtenAs shown t = .resolved shown := by
  rw [W.writtenAs_eq ends]
  cases t with
  | existential qs u =>
    obtain ⟨q, hq, failed⟩ := h
    have clauses : qs.mapM (W.clause? fun t => W.writtenAs t t) = none :=
      mapM_eq_none_iff.mpr ⟨q, hq, clause?_eq_none_iff.mpr failed⟩
    simp only [writtenWith, clauses]
  | refined ps ds =>
    obtain ⟨d, hd, failed⟩ := h
    have members : ds.mapM (W.member? fun t => W.writtenAs t t) = none :=
      mapM_eq_none_iff.mpr ⟨d, hd, member?_eq_none_iff.mpr failed⟩
    simp only [writtenWith, members]
  | this s => exact absurd h id
  | ref pre s args => exact absurd h id
  | single pre s => exact absurd h id
  | bounds lo hi => exact absurd h id
  | _ => simp only [writtenWith]

theorem writtenType_of_unwritable {t : Ty} (ends : W.symbols.writing.Ends t)
    (h : W.Unwritable t) : W.writtenType t = .resolved t := writtenAs_of_unwritable ends h t

theorem writtenAs_of_clauses {qs : List SymbolId} {u : Ty} {clauses : List Tree}
    (ends : W.symbols.writing.Ends (.existential qs u))
    (declared : qs.mapM (W.clause? W.writtenType) = some clauses) (shown : Ty) :
    W.writtenAs shown (.existential qs u) =
      .bare (.existentialType
        ((W.writtenType u).nameSingletons W.conventions.singletonEnding) clauses) := by
  have underlying := writtenWith_part ends (p := u) (List.mem_singleton.mpr rfl)
  have declared : qs.mapM (W.clause? fun t => W.writtenAs t t) = some clauses := declared
  rw [W.writtenAs_eq ends, writtenWith, declared, underlying]

theorem writtenAs_existential {qs : List SymbolId} {u : Ty}
    (ends : W.symbols.writing.Ends (.existential qs u)) (h : ¬ W.Unwritable (.existential qs u))
    (shown : Ty) :
    ∃ clauses, List.Forall₂ (fun q c => W.clause? W.writtenType q = some c) qs clauses ∧
      W.writtenAs shown (.existential qs u) =
        .bare (.existentialType
          ((W.writtenType u).nameSingletons W.conventions.singletonEnding) clauses) := by
  cases declared : qs.mapM (W.clause? W.writtenType) with
  | none =>
    obtain ⟨q, hq, failed⟩ := mapM_eq_none_iff.mp declared
    exact absurd ⟨q, hq, clause?_eq_none_iff.mp failed⟩ h
  | some clauses =>
    exact ⟨clauses, mapM_eq_some_iff.mp declared, writtenAs_of_clauses ends declared shown⟩

theorem writtenAs_refined {ps : List Ty} {ds : List SymbolId}
    (ends : W.symbols.writing.Ends (.refined ps ds)) (h : ¬ W.Unwritable (.refined ps ds))
    (shown : Ty) :
    ∃ members, List.Forall₂ (fun d m => W.member? W.writtenType d = some m) ds members ∧
      W.writtenAs shown (.refined ps ds) =
        .bare (.compoundType (.bare (.template (ps.map W.writtenType) .empty members))) := by
  have parents : W.writtenAllWith W.writtenAs ps = ps.map W.writtenType :=
    writtenAllWith_parts ends fun p hp => hp
  cases written : ds.mapM (W.member? W.writtenType) with
  | none =>
    obtain ⟨d, hd, failed⟩ := mapM_eq_none_iff.mp written
    exact absurd ⟨d, hd, member?_eq_none_iff.mp failed⟩ h
  | some members =>
    have members' : ds.mapM (W.member? fun t => W.writtenAs t t) = some members := written
    refine ⟨members, mapM_eq_some_iff.mp written, ?_⟩
    rw [W.writtenAs_eq ends, writtenWith, members', parents]

theorem referenceTree_ne_typeTree (pre : Ty) (preTree : Tree) (s : SymbolId) (args : List Tree)
    (w : Option Tree) : (W.referenceTree pre preTree s args).shape ≠ .typeTree w := by
  have applied_ne {head : Tree} (h : head.shape ≠ .typeTree w) :
      (applied head args).shape ≠ .typeTree w := by
    unfold applied
    split
    · exact h
    · simp [Tree.bare]
  unfold referenceTree
  split
  · dsimp only
    split
    · simp [Tree.bare]
    · exact applied_ne (by simp [Tree.bare])
  · refine applied_ne ?_
    simp only [memberTree]
    split
    · simp [Tree.bare]
    · split <;> simp [Tree.bare]
    · split <;> simp [Tree.bare]

/-- What has a written form is not shown as resolved. -/
theorem writtenAs_ne_typeTree {t : Ty} (ends : W.symbols.writing.Ends t)
    (plain : W.symbols.aliased? t = none) (h : ¬ W.Unwritable t) (shown : Ty) (w : Option Tree) :
    (W.writtenAs shown t).shape ≠ .typeTree w := by
  cases t with
  | this s =>
    rw [W.writtenAs_eq ends, writtenWith]
    split
    · simp [Tree.bare]
    · obtain ⟨n, head⟩ | ⟨n, head⟩ | ⟨q, n, head⟩ := Tree.shape_of_isPath (W.isPath_path s) <;>
        simp [head]
  | ref pre s args =>
    have unexpanded : W.symbols.expansion? s = none := plain
    simp only [W.writtenAs_eq ends, writtenWith, unexpanded]
    exact referenceTree_ne_typeTree pre _ s _ w
  | single pre s =>
    rw [W.writtenAs_eq ends, writtenWith]
    unfold singletonTree
    split <;> simp [Tree.bare]
  | bounds lo hi => simp [W.writtenAs_eq ends, writtenWith, Tree.bare]
  | existential qs u =>
    obtain ⟨clauses, -, written⟩ := writtenAs_existential ends h shown
    simp [written, Tree.bare]
  | refined ps ds =>
    obtain ⟨members, -, written⟩ := writtenAs_refined ends h shown
    simp [written, Tree.bare]
  | _ => exact absurd trivial h

end Setting

/-- An alias `B` of an alias `A` of a signature, a value `x` that is quantified over as its type,
and a method `m` with a type parameter that has one itself. -/
def memberSetting : Setting where
  symbols.entries :=
    [(⟨"C"⟩, { name := .type "C", kind := .plainClass }),
     (⟨"A"⟩, { name := .type "A", kind := .alias, info := some (.nullary (.this ⟨"C"⟩)) }),
     (⟨"B"⟩, { name := .type "B", kind := .alias, info := some (.ref .noPrefix ⟨"A"⟩ []) }),
     (⟨"x"⟩, { name := .type "x.type", kind := .type,
               info := some (.bounds .unspecified (.this ⟨"C"⟩)) }),
     (⟨"G"⟩, { name := .type "G", kind := .type }),
     (⟨"F"⟩, { name := .type "F", kind := .type, typeParams := [⟨"G"⟩] }),
     (⟨"m"⟩, { name := .term "m", kind := .method, typeParams := [⟨"F"⟩], paramLists := [[⟨"v"⟩]],
               info := some (.poly [⟨"F"⟩] (.method [⟨"v"⟩] (.this ⟨"C"⟩))) }),
     (⟨"v"⟩, { name := .term "v", kind := .term, info := some (.ref .noPrefix ⟨"C"⟩ []) })]
  builtins.rootClass := ⟨"root"⟩
  builtins.nothingType := .unspecified
  builtins.anyType := .unspecified
  builtins.anyRefType := .unspecified

theorem memberSetting_acyclic : memberSetting.symbols.Acyclic := by
  refine SymbolTable.acyclic_of_rank
    (fun k => if k ∈ [.expanded ⟨"B"⟩, .declared ⟨"B"⟩] then 1 else 0) ?_
  decide

theorem memberSetting_parameters : memberSetting.symbols.AcyclicParameters := by
  refine SymbolTable.acyclicParameters_of_rank
    (fun s => if s = ⟨"m"⟩ then 2 else if s = ⟨"F"⟩ then 1 else 0) ?_
  decide

end TreeRepair
