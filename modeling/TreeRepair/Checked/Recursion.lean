import TreeRepair.Checked.Repair
import TreeRepair.Type.Lookup

namespace TreeRepair

namespace Repair

variable (R : Repair)

/-- Where a repair goes on outside the tree at hand: the annotations recorded for a symbol, or the
declaration that is recorded for an accessor. -/
inductive Source where
  | recorded (s : SymbolId)
  | declared (s : SymbolId)
deriving DecidableEq

/-- The trees that are repaired whenever a source is used. -/
def drawn : Source → List Tree
  | .recorded s => (R.get s).annotations
  | .declared s =>
    match R.fieldOf? s with
    | some f => if (R.get s).isLazy then [f.tpt] else [f.tpt, f.rhs]
    | none => []

def accessorSources (s : SymbolId) (f : Option Field) : List Source :=
  .declared s :: (s :: (f.bind fun f => f.info.symbol).toList).map .recorded

/-- The sources that the repair of a node itself uses. -/
def sources : Tree → List Source
  | ⟨i, .valDef _ _ tpt rhs⟩ =>
    if R.isStorage i tpt rhs then []
    else
      match R.lazyGetter? i.symbol with
      | some s => accessorSources s (R.fieldOf? s)
      | none => []
  | ⟨i, .defDef _ _ _ _ _ _⟩ =>
    match R.role i.symbol with
    | .getter s f => accessorSources s (some f)
    | .lazyValue s => accessorSources s (R.fieldOf? s)
    | .method s => [.recorded s]
    | .setter | .unresolved => []
  | _ => []

/-- What of a lazy value is repaired in place: its initial value, and its type unless another
declaration gives it. -/
def lazyParts (s : SymbolId) (tpt rhs : Tree) : List Tree :=
  match R.fieldOf? s with
  | some _ => [rhs.initializer]
  | none => [tpt, rhs.initializer]

/-- The trees of which the repair of a node is made up. -/
def parts : Tree → List Tree
  | ⟨_, .typeTree (some w)⟩ => [w]
  | ⟨_, .unapply fn args⟩ => (R.extractor? fn).getD fn :: args
  | ⟨i, .valDef mods _ tpt rhs⟩ =>
    if R.isStorage i tpt rhs then []
    else
      match R.lazyGetter? i.symbol with
      | some s => R.lazyParts s tpt rhs
      | none => mods.annotations ++ [tpt, rhs]
  | ⟨i, .defDef mods _ tparams vparamss tpt rhs⟩ =>
    match R.role i.symbol with
    | .setter | .getter _ _ => []
    | .lazyValue s => R.lazyParts s tpt rhs
    | .method _ => tparams ++ vparamss.flatten ++ [tpt, rhs]
    | .unresolved => mods.annotations ++ tparams ++ vparamss.flatten ++ [tpt, rhs]
  | ⟨_, s⟩ => (R.setting.settleShape R.usedHelpers s).children

theorem size_lt_of_mem_lazyParts {s : SymbolId} {i : Info} {shape : Shape Tree} {tpt rhs p : Tree}
    (htpt : tpt ∈ shape.children) (hrhs : rhs ∈ shape.children) (h : p ∈ R.lazyParts s tpt rhs) :
    p.size < (⟨i, shape⟩ : Tree).size := by
  have initial : rhs.initializer.size < (⟨i, shape⟩ : Tree).size :=
    Nat.lt_of_le_of_lt rhs.size_initializer_le (Tree.size_lt_of_mem_children hrhs)
  have type : tpt.size < (⟨i, shape⟩ : Tree).size := Tree.size_lt_of_mem_children htpt
  unfold lazyParts at h
  split at h <;> simp only [List.mem_cons, List.not_mem_nil, or_false] at h
  · exact h ▸ initial
  · rcases h with rfl | rfl
    · exact type
    · exact initial

theorem size_lt_of_mem_parts {t p : Tree} (h : p ∈ R.parts t) : p.size < t.size := by
  obtain ⟨i, s⟩ := t
  have children (hp : p ∈ s.children) : p.size < (⟨i, s⟩ : Tree).size :=
    Tree.size_lt_of_mem_children hp
  cases s with
  | typeTree w =>
    cases w with
    | none => exact R.setting.size_lt_of_mem_settleShape R.usedHelpers h
    | some w => exact Tree.size_lt_of_mem_subtrees (by simpa [Tree.subtrees, Shape.subtrees,
        Shape.children, Shape.written, parts] using h)
  | unapply fn args =>
    rcases List.mem_cons.mp h with rfl | h
    · cases extractor : R.extractor? fn with
      | none => exact Tree.size_lt_of_mem_children (by simp [Tree.children, Shape.children])
      | some e =>
        have inside := R.size_lt_of_extractor? extractor
        have : fn.size < (⟨i, .unapply fn args⟩ : Tree).size :=
          Tree.size_lt_of_mem_children (by simp [Tree.children, Shape.children])
        simp only [Option.getD_some]
        omega
    · exact children (by simp [Shape.children, h])
  | valDef mods name tpt rhs =>
    simp only [parts] at h
    split at h
    next => simp at h
    next =>
      split at h
      next => refine R.size_lt_of_mem_lazyParts ?_ ?_ h <;> simp [Shape.children]
      next => exact children h
  | defDef mods name tparams vparamss tpt rhs =>
    simp only [parts] at h
    split at h
    next => simp at h
    next => simp at h
    next => refine R.size_lt_of_mem_lazyParts ?_ ?_ h <;> simp [Shape.children]
    next => exact children (by
      simp only [Shape.children, List.append_assoc] at h ⊢
      exact List.mem_append_right _ h)
    next => exact children h
  | _ => exact R.setting.size_lt_of_mem_settleShape R.usedHelpers h

/-- A repair goes on in the parts of a tree, and in the annotations and declarations that these
draw on. -/
def descent : Descent Tree Source where
  parts := R.parts
  sources := R.sources
  drawn := R.drawn
  smaller := Subrelation.wf (fun hp => R.size_lt_of_mem_parts hp) (measure Tree.size).wf

@[simp] theorem descent_parts : R.descent.parts = R.parts := rfl

@[simp] theorem descent_sources : R.descent.sources = R.sources := rfl

@[simp] theorem descent_drawn : R.descent.drawn = R.drawn := rfl

/-- To repair the name of a value, it is found out whether the value needs no import. -/
def nameQuestions : Tree → List Question
  | ⟨i, .ident _⟩ =>
    (i.symbol.filter fun s => (R.get s).isTerm).toList.map (.owner R.setting.decidesInjected)
  | _ => []

/-- Whether the repair of a part of the checked tree comes to an end. -/
def finishes (t : Tree) : Bool :=
  R.descent.passesWithin (fun n => (R.nameQuestions n).all R.setting.symbols.answers)
    (R.fields.length + R.setting.symbols.bound) t

end Repair

/-- Whether the repair of a checked tree comes to an end. -/
def Setting.repairFinishes (W : Setting) (owner : Option SymbolId) (t : Tree) : Bool :=
  (owner.toList.map (.owner W.decidesInjected)).all W.symbols.answers &&
    (Repair.ofTree W owner t).finishes t

end TreeRepair
