import TreeRepair.Tree.Traversal
import TreeRepair.Type.Lookup

namespace TreeRepair

/-- The symbols of the classes and types that a tree declares. -/
def Tree.definedTypes (t : Tree) : List SymbolId :=
  t.preorder.filterMap fun n =>
    match n.shape with
    | .typeDef _ _ _ _ | .classDef _ _ _ _ => n.symbol
    | _ => none

namespace Setting

variable (W : Setting)

/-- A path that starts right below the root is made to start at the root. -/
def anchor : Tree → Tree
  | ⟨i, .ident name⟩ =>
    if i.symbol.any fun s => (W.symbols.get s).owner = some W.builtins.rootClass then
      ⟨{ pos := i.pos }, .select (.bare (.ident (.term W.conventions.rootName))) name⟩
    else ⟨i, .ident name⟩
  | ⟨i, .select q name⟩ => ⟨i, .select (anchor q) name⟩
  | t => t

theorem size_anchor_le (t : Tree) : (W.anchor t).size ≤ t.size + 1 := by
  fun_induction anchor W t with
  | case1 i name => simp [Tree.size_mk, Shape.written, Shape.subtrees, Shape.children, Tree.bare]
  | case2 => omega
  | case3 i q name ih =>
    simp [Tree.size_mk, Shape.written, Shape.subtrees, Shape.children]
    omega
  | case4 => omega

/-- Whether a type denotes one of the given symbols or is the self type of an anonymous class. -/
def denotesAny (defined : List SymbolId) : Ty → Bool
  | .this s => Text.startsWith (W.nameOf s).text W.conventions.anonymousBeginning
  | u => (W.symbols.denoted u).any defined.contains

/-- Whether a type mentions one of the given symbols or the self type of an anonymous class. -/
def mentions (defined : List SymbolId) (t : Ty) : Bool :=
  W.symbols.occurs (W.denotesAny defined) t

/-- Whether a type is a name that stands for the type of a single value. -/
def namesSingleton : Ty → Bool
  | .ref .noPrefix s [] => Text.endsWith (W.nameOf s).text W.conventions.singletonEnding
  | _ => false

/-- Whether a type mentions a name that stands for the type of a single value. -/
def mentionsSingleton (t : Ty) : Bool := W.symbols.occurs W.namesSingleton t

/-- The data of a reference, without the symbol if the type mentions one of the given symbols. -/
def releaseTyped (defined : List SymbolId) (i : Info) : Info :=
  if i.type.any (W.mentions defined) then i.detached else i

/-- What a resolved type is replaced by if it was not written. -/
def inferredType (defined : List SymbolId) (i : Info) : Tree :=
  match i.type with
  | some t => if W.mentions defined t then W.writtenType t else ⟨i, .typeTree none⟩
  | none => ⟨i, .typeTree none⟩

/-- What happens to the declared type of a value. -/
inductive TypeTreatment where
  | kept
  | dropped
  | cleaned

/-- The type of an artifact stays, and one that was inferred from the value is inferred again. -/
def typeTreatment (mods : Modifiers Tree) (tpt rhs : Tree) : TypeTreatment :=
  if mods.has .artifact then .kept
  else if mods.has .synthetic then .cleaned
  else
    match tpt.shape with
    | .typeTree none => if rhs.isEmpty then .cleaned else .dropped
    | _ => .cleaned

/-- Drops types that were inferred and writes out those that mention the given symbols. -/
def cleanTypes (defined : List SymbolId) : Tree → Tree
  | ⟨_, .typeTree (some w)⟩ => cleanTypes defined (W.anchor w)
  | ⟨i, .typeTree none⟩ => W.inferredType defined i
  | ⟨i, .defDef mods name tparams vparamss tpt rhs⟩ =>
    ⟨i, .defDef { mods with annotations := mods.annotations.map (cleanTypes defined) } name
      (tparams.map (cleanTypes defined)) (vparamss.map fun vs => vs.map (cleanTypes defined))
      (if name = .term W.conventions.constructorName then tpt else cleanTypes defined tpt)
      (cleanTypes defined rhs)⟩
  | ⟨i, .valDef mods name tpt rhs⟩ =>
    ⟨i, .valDef { mods with annotations := mods.annotations.map (cleanTypes defined) } name
      (match typeTreatment mods tpt rhs with
       | .kept => tpt
       | .dropped => .bare (.typeTree none)
       | .cleaned => cleanTypes defined tpt)
      (cleanTypes defined rhs)⟩
  | ⟨i, .typeApply fn args⟩ =>
    if args.any fun a => a.info.type.any W.mentionsSingleton then cleanTypes defined fn
    else ⟨i, .typeApply (cleanTypes defined fn) (args.map (cleanTypes defined))⟩
  | ⟨i, .select q name⟩ => ⟨W.releaseTyped defined i, .select (cleanTypes defined q) name⟩
  | ⟨i, .ident name⟩ => ⟨W.releaseTyped defined i, .ident name⟩
  | ⟨i, .this name⟩ => ⟨W.releaseTyped defined i, .this name⟩
  | ⟨i, s⟩ => ⟨i, s.pmapChildren fun c _ => cleanTypes defined c⟩
termination_by t => t.size
decreasing_by
  all_goals first
    | exact Tree.size_lt_of_mem_children ‹_›
    | have := W.size_anchor_le w
      simp [Tree.size_mk, Shape.written, Shape.subtrees, Shape.children]
      omega
    | refine Tree.size_lt_of_mem_children ?_
      simp only [Tree.children, Shape.children, List.mem_append, List.mem_flatten]
      exact .inl (.inr ⟨vs, ‹_›, ‹_›⟩)
    | refine Tree.size_lt_of_mem_children ?_
      simp [Tree.children, Shape.children, *]

/-- The trees that are cleaned along with a node. -/
def cleaningParts : Tree → List Tree
  | ⟨_, .typeTree (some w)⟩ => [W.anchor w]
  | ⟨_, .defDef mods name tparams vparamss tpt rhs⟩ =>
    mods.annotations ++ tparams ++ vparamss.flatten ++
      (if name = .term W.conventions.constructorName then [rhs] else [tpt, rhs])
  | ⟨_, .valDef mods _ tpt rhs⟩ =>
    match typeTreatment mods tpt rhs with
    | .kept | .dropped => mods.annotations ++ [rhs]
    | .cleaned => mods.annotations ++ [tpt, rhs]
  | ⟨_, .typeApply fn args⟩ =>
    if args.any fun a => a.info.type.any W.mentionsSingleton then [fn] else fn :: args
  | ⟨_, s⟩ => s.children

theorem size_lt_of_mem_cleaningParts {t p : Tree} (h : p ∈ W.cleaningParts t) : p.size < t.size := by
  obtain ⟨i, s⟩ := t
  have child (hp : p ∈ s.children) : p.size < (⟨i, s⟩ : Tree).size :=
    Tree.size_lt_of_mem_children hp
  cases s with
  | typeTree w =>
    cases w with
    | none => exact child h
    | some w =>
      obtain rfl := List.mem_singleton.mp h
      have := W.size_anchor_le w
      simp [Tree.size_mk, Shape.written, Shape.subtrees, Shape.children]
      omega
  | defDef mods name tparams vparamss tpt rhs =>
    simp only [cleaningParts] at h
    exact child (by simp only [Shape.children]; grind)
  | valDef mods name tpt rhs =>
    simp only [cleaningParts] at h
    exact child (by simp only [Shape.children]; grind)
  | typeApply fn args =>
    simp only [cleaningParts] at h
    exact child (by simp only [Shape.children]; grind)
  | _ => exact child h

/-- The cleaning of types goes on in the parts of a tree that are cleaned. -/
def cleaning : Descent Tree Empty :=
  .through W.cleaningParts
    (Subrelation.wf (fun h => W.size_lt_of_mem_cleaningParts h) (measure Tree.size).wf)

/-- The search for one of the given symbols in the type of a node. -/
def mentionTasks (defined : List SymbolId) (i : Info) : List Task :=
  i.type.toList.map (.seek (W.denotesAny defined) fun u =>
    match u with
    | .this _ => []
    | u => [.denoted u])

/-- What the cleaning of types at a node has to find out and to write. -/
def cleanTasks (defined : List SymbolId) : Tree → List Task
  | ⟨i, .typeTree none⟩ =>
    W.mentionTasks defined i ++ (i.type.filter (W.mentions defined)).toList.map .write
  | ⟨_, .typeApply _ args⟩ =>
    (upToFirst (fun a => a.info.type.any W.mentionsSingleton) args).flatMap fun a =>
      a.info.type.toList.map (.seek W.namesSingleton fun _ => [])
  | ⟨i, .select _ _⟩ | ⟨i, .ident _⟩ | ⟨i, .this _⟩ => W.mentionTasks defined i
  | _ => []

/-- Cleans the types of a tree before it is reset: nothing may refer to a type that the tree itself
declares. -/
def cleanInferredTypes (t : Tree) : Tree := W.cleanTypes t.definedTypes t

/-- Whether the cleaning of types comes to an end. -/
def cleaningFinishes (t : Tree) : Bool :=
  W.cleaning.passesWithin (fun n => (W.cleanTasks t.definedTypes n).all W.finishes) 1 t

end Setting

end TreeRepair
