import TreeRepair.Proofs.WrittenParts

namespace TreeRepair

open Relation

namespace Setting

variable {W : Setting}

/-- A type name that stands for the type of a value. -/
def ErasedName (W : Setting) (n : Tree) : Prop :=
  ∃ name, n.shape = .ident (.type name) ∧
    Text.endsWith name W.conventions.singletonEnding = true

/-- A reference by such a name. -/
def ErasedReference (W : Setting) (t : Ty) : Prop :=
  ∃ s args, t = .ref .noPrefix s args ∧ W.symbols.expansion? s = none ∧ W.standsForValue s = true

theorem ofNames_erasedName : OfNames W.ErasedName := by
  rintro n ⟨name, ident, -⟩
  rw [ident]
  rfl

theorem erasedName_ident {s : SymbolId} :
    W.ErasedName (.bare (.ident (W.nameOf s).toType)) ↔ W.standsForValue s = true := by
  simp [ErasedName, standsForValue, Tree.bare, Name.toType]

theorem not_erasedName_nameSingletons (n : Tree) :
    ¬ W.ErasedName (n.nameSingletons W.conventions.singletonEnding) := by
  obtain ⟨i, s⟩ := n
  rintro ⟨name, ident, erased⟩
  cases s with
  | ident original =>
    cases original with
    | type text =>
      rw [Tree.nameSingletons] at ident
      split at ident
      next => simp [Tree.bare] at ident
      next plain =>
        cases ident
        exact plain erased
    | _ => simp [Tree.nameSingletons, Shape.mapChildren] at ident
  | _ => simp [Tree.nameSingletons, Shape.mapChildren] at ident

theorem not_has_erasedName_nameSingletons (t : Tree) :
    ¬ (t.nameSingletons W.conventions.singletonEnding).Has W.ErasedName := by
  rw [Tree.has_nameSingletons]
  rintro ⟨n, -, erased⟩
  exact not_erasedName_nameSingletons n erased

theorem not_has_erasedName_of_isPath {t : Tree} (path : t.isPath = true) :
    ¬ t.Has W.ErasedName := by
  rintro ⟨⟨i, s⟩, hn, name, ident, -⟩
  cases ident
  cases Tree.isPath_of_mem_preorder path hn

theorem not_erasedName_memberTree {pre : Ty} {preTree : Tree} {s : SymbolId} :
    ¬ W.ErasedName (W.memberTree pre preTree s) := by
  rintro ⟨name, ident, -⟩
  simp only [memberTree] at ident
  split at ident
  · cases ident
  all_goals split at ident <;> cases ident

/-- No other type brings in such a name by itself. -/
theorem ownName_erasedName_iff {t : Ty} : W.OwnName W.ErasedName t ↔ W.ErasedReference t := by
  constructor
  · intro own
    cases t with
    | this s => exact absurd own.2 (not_has_erasedName_of_isPath (W.isPath_path s))
    | ref pre s args =>
      obtain ⟨plain, ⟨rfl, erased⟩ | ⟨-, erased⟩⟩ := own
      · exact ⟨s, args, rfl, plain, erasedName_ident.mp erased⟩
      · exact absurd erased not_erasedName_memberTree
    | single pre s => obtain ⟨-, name, ident, -⟩ | ⟨-, name, ident, -⟩ := own <;> cases ident
    | _ => exact absurd own id
  · rintro ⟨s, args, rfl, plain, erased⟩
    exact ⟨plain, .inl ⟨rfl, erasedName_ident.mpr erased⟩⟩

/-- Names that stand for types of values are left in a written form exactly where a reference by
such a name is rendered outside of what existential types are about. -/
theorem has_erasedName_iff {t : Ty} (ends : W.symbols.writing.Ends t) :
    (W.writtenType t).Has W.ErasedName ↔
      ∃ u, ReflTransGen W.Exposes t u ∧ W.ErasedReference u := by
  constructor
  · intro h
    obtain ⟨u, reached, own⟩ := ofNames_erasedName.exists_ownName_of_has (R := W.Exposes) id
      (fun _ named => absurd named (not_has_erasedName_nameSingletons _)) ends h
    exact ⟨u, reached, ownName_erasedName_iff.mp own⟩
  · rintro ⟨u, reached, reference⟩
    exact ofNames_erasedName.has_of_ownName (R := W.Exposes) .inl ends reached
      (ownName_erasedName_iff.mpr reference)

theorem exists_clauses_of_written {qs : List SymbolId} {u : Ty} {tpt : Tree} {clauses : List Tree}
    (ends : W.symbols.writing.Ends (.existential qs u))
    (written : W.writtenType (.existential qs u) = .bare (.existentialType tpt clauses)) :
    ¬ W.Unwritable (.existential qs u) ∧
      tpt = (W.writtenType u).nameSingletons W.conventions.singletonEnding ∧
      List.Forall₂ (fun q c => W.clause? W.writtenType q = some c) qs clauses := by
  by_cases unwritable : W.Unwritable (.existential qs u)
  · rw [writtenType_of_unwritable ends unwritable] at written
    cases written
  · obtain ⟨declared, clausesOf, same⟩ := writtenAs_existential ends unwritable (.existential qs u)
    have same := written.symm.trans same
    simp only [Tree.bare, Tree.mk.injEq, Shape.existentialType.injEq, true_and] at same
    obtain ⟨rfl, rfl⟩ := same
    exact ⟨unwritable, rfl, clausesOf⟩

/-- What is declared of the quantified symbols keeps a name exactly if it is referred to there. -/
theorem exists_clause_has_erasedName_iff {qs : List SymbolId} {u : Ty} {tpt : Tree}
    {clauses : List Tree} (ends : W.symbols.writing.Ends (.existential qs u))
    (written : W.writtenType (.existential qs u) = .bare (.existentialType tpt clauses)) :
    (∃ c ∈ clauses, c.Has W.ErasedName) ↔ ∃ q ∈ qs, ∃ v, W.ClauseType q v ∧
      ∃ w, ReflTransGen W.Exposes v w ∧ W.ErasedReference w := by
  obtain ⟨writable, -, declared⟩ := exists_clauses_of_written ends written
  rw [Tree.exists_mem_iff_of_forall₂ declared fun q c hc => ofNames_erasedName.has_clause hc]
  refine exists_congr fun q => and_congr_right fun hq => exists_congr fun v =>
    and_congr_right fun hv => ?_
  have exposes : W.Exposes (.existential qs u) v := ⟨writable, q, hq, hv⟩
  exact has_erasedName_iff (Renders.ends (.inl exposes) ends)

end Setting

/-- In what an existential type is about, all names for types of values are turned back. In the
declarations of its quantified symbols, none is left exactly if none is referred to there. -/
theorem erased_names_left_iff (W : Setting) {qs : List SymbolId} {u : Ty} {tpt : Tree}
    {clauses : List Tree} (ends : W.symbols.writing.Ends (.existential qs u))
    (written : W.writtenType (.existential qs u) = .bare (.existentialType tpt clauses)) :
    (∀ n ∈ tpt.preorder, ¬ W.ErasedName n) ∧
      ((∀ n ∈ (W.writtenType (.existential qs u)).preorder, ¬ W.ErasedName n) ↔
        ∀ q ∈ qs, ∀ v, W.ClauseType q v → ∀ s args,
          ReflTransGen W.Exposes v (.ref .noPrefix s args) → W.symbols.expansion? s = none →
            W.standsForValue s = false) := by
  obtain ⟨-, turned, -⟩ := Setting.exists_clauses_of_written ends written
  have underlying : ¬ tpt.Has W.ErasedName := by
    rw [turned]
    exact Setting.not_has_erasedName_nameSingletons _
  have whole : (W.writtenType (.existential qs u)).Has W.ErasedName ↔
      ∃ c ∈ clauses, c.Has W.ErasedName := by
    rw [written, Tree.bare, Setting.ofNames_erasedName.has_mk rfl]
    simp [Shape.children, underlying]
  have left : (∀ n ∈ (W.writtenType (.existential qs u)).preorder, ¬ W.ErasedName n) ↔
      ¬ (W.writtenType (.existential qs u)).Has W.ErasedName := by
    simp [Tree.Has]
  refine ⟨fun n hn erased => underlying ⟨n, hn, erased⟩, ?_⟩
  rw [left, whole, Setting.exists_clause_has_erasedName_iff ends written]
  constructor
  · intro none q hq v hv s args reached plain
    by_contra erased
    rw [Bool.not_eq_false] at erased
    exact none ⟨q, hq, v, hv, _, reached, s, args, rfl, plain, erased⟩
  · rintro none ⟨q, hq, v, hv, w, reached, s, args, rfl, plain, erased⟩
    rw [none q hq v hv s args reached plain] at erased
    cases erased

/-- A quantified value, and a quantified type that is bounded by the type of that value. -/
def boundSetting : Setting where
  symbols.entries :=
    [(⟨"C"⟩, { name := .type "C", kind := .plainClass }),
     (⟨"Box"⟩, { name := .type "Box", kind := .plainClass }),
     (⟨"x"⟩, { name := .type "x.type", kind := .type,
               info := some (.bounds .unspecified (.ref .noPrefix ⟨"C"⟩ [])) }),
     (⟨"T"⟩, { name := .type "T", kind := .type,
               info := some (.bounds .unspecified
                 (.ref .noPrefix ⟨"Box"⟩ [.ref .noPrefix ⟨"x"⟩ []])) })]
  builtins.rootClass := ⟨"root"⟩
  builtins.nothingType := .unspecified
  builtins.anyType := .unspecified
  builtins.anyRefType := .unspecified

theorem boundSetting_acyclic : boundSetting.symbols.Acyclic := by
  refine SymbolTable.acyclic_of_rank (fun _ => 0) ?_
  decide

/-- The type of the value itself. -/
def someValue : Ty := .existential [⟨"x"⟩] (.ref .noPrefix ⟨"x"⟩ [])

/-- The type that the value bounds. -/
def someBounded : Ty := .existential [⟨"x"⟩, ⟨"T"⟩] (.ref .noPrefix ⟨"T"⟩ [])

/-- The value is named by itself in what the type is about, and its declaration names its class. -/
theorem someValue_turned :
    boundSetting.symbols.writing.Ends someValue ∧
      boundSetting.writtenType someValue =
        .bare (.existentialType (.bare (.ident (.term "x")))
          [.bare (.valDef Setting.deferred (.term "x") (.bare (.ident (.type "C"))) .empty)]) ∧
      ∀ n ∈ (boundSetting.writtenType someValue).preorder, ¬ boundSetting.ErasedName n := by
  have ends := boundSetting_acyclic.ends someValue
  have erased : boundSetting.writtenType (.ref .noPrefix ⟨"x"⟩ []) =
      .bare (.ident (.type "x.type")) := rfl
  have underlying : (boundSetting.writtenType (.ref .noPrefix ⟨"x"⟩ [])).nameSingletons ".type" =
      .bare (.ident (.term "x")) := by
    rw [erased, Tree.bare, Tree.nameSingletons]
    rfl
  have written : boundSetting.writtenType someValue = _ :=
    Setting.writtenAs_of_clauses ends rfl someValue
  refine ⟨ends, underlying ▸ written, ?_⟩
  refine (erased_names_left_iff boundSetting ends written).2.mpr ?_
  intro q hq v hv s args reached plain
  obtain rfl := List.mem_singleton.mp hq
  obtain ⟨lo, hi, info, rfl⟩ := hv
  cases info
  obtain same | ⟨w, exposes, -⟩ := reached.cases_head
  · cases same
    decide
  · obtain ⟨bound, -⟩ | argument : (Ty.noPrefix ≠ .noPrefix ∧ w = .noPrefix) ∨ w ∈ [] := exposes
    · exact absurd rfl bound
    · cases argument

/-- The bound of the quantified type keeps a name that is declared nowhere. -/
theorem someBounded_left :
    boundSetting.symbols.writing.Ends someBounded ∧
      boundSetting.writtenType someBounded =
        .bare (.existentialType (.bare (.ident (.type "T")))
          [.bare (.valDef Setting.deferred (.term "x") (.bare (.ident (.type "C"))) .empty),
           .bare (.typeDef { flags := .ofList [.deferred, .synthetic] } (.type "T") []
            (.bare (.typeBounds .empty (.bare (.appliedType (.bare (.ident (.type "Box")))
              [.bare (.ident (.type "x.type"))])))))]) ∧
      ∃ n ∈ (boundSetting.writtenType someBounded).preorder, boundSetting.ErasedName n := by
  have ends := boundSetting_acyclic.ends someBounded
  have plain : boundSetting.writtenType (.ref .noPrefix ⟨"T"⟩ []) = .bare (.ident (.type "T")) := rfl
  have underlying : (boundSetting.writtenType (.ref .noPrefix ⟨"T"⟩ [])).nameSingletons ".type" =
      .bare (.ident (.type "T")) := by
    rw [plain, Tree.bare, Tree.nameSingletons]
    rfl
  have written : boundSetting.writtenType someBounded = _ :=
    Setting.writtenAs_of_clauses ends rfl someBounded
  have declared : boundSetting.Exposes someBounded
      (.bounds .unspecified (.ref .noPrefix ⟨"Box"⟩ [.ref .noPrefix ⟨"x"⟩ []])) :=
    ⟨by decide, ⟨"T"⟩, by decide, _, _, rfl, rfl⟩
  have upper : boundSetting.Exposes
      (.bounds .unspecified (.ref .noPrefix ⟨"Box"⟩ [.ref .noPrefix ⟨"x"⟩ []]))
      (.ref .noPrefix ⟨"Box"⟩ [.ref .noPrefix ⟨"x"⟩ []]) := .inr ⟨rfl, rfl⟩
  have argument : boundSetting.Exposes (.ref .noPrefix ⟨"Box"⟩ [.ref .noPrefix ⟨"x"⟩ []])
      (.ref .noPrefix ⟨"x"⟩ []) := Or.inr (List.mem_singleton.mpr rfl)
  refine ⟨ends, underlying ▸ written, ?_⟩
  exact (Setting.has_erasedName_iff ends).mpr
    ⟨_, .head declared (.head upper (.single argument)), ⟨"x"⟩, [], rfl, rfl, rfl⟩

end TreeRepair
