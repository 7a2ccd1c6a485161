import TreeRepair.Setting
import TreeRepair.Type.Resolve

namespace TreeRepair

/-- A type that is not spelled out but carried along as resolved. -/
def Tree.resolved (t : Ty) : Tree := ⟨{ type := some t }, .typeTree none⟩

/-- Turns type names that stand for the type of a single value back into names of that value. -/
def Tree.nameSingletons (ending : String) : Tree → Tree
  | ⟨i, .ident (.type n)⟩ =>
    if Text.endsWith n ending then .bare (.ident (.term (Text.dropEnding n ending)))
    else ⟨i, .ident (.type n)⟩
  | ⟨i, s⟩ => ⟨i, s.pmapChildren fun c _ => c.nameSingletons ending⟩
termination_by t => t.size
decreasing_by exact size_lt_of_mem_children ‹_›

namespace Setting

variable (W : Setting)

def isPlainClass (s : Option SymbolId) : Bool := s.any fun s => (W.symbols.get s).isPlainClass

/-- A type constructor applied to its arguments, if there are any. -/
def applied (tpt : Tree) (args : List Tree) : Tree :=
  if args.isEmpty then tpt else .bare (.appliedType tpt args)

/-- The member of a type, given the written form of that type: a projection if the type is that
of a class, and a selection otherwise. -/
def memberTree (pre : Ty) (preTree : Tree) (s : SymbolId) : Tree :=
  let name := W.nameOf s
  let ofClass := W.isPlainClass (W.symbols.denoted pre)
  let selection : Tree :=
    .bare (.select preTree (if W.isPlainClass (some s) then name.toType else name.toTerm))
  match preTree.shape with
  | .this _ => selection
  | .singletonType ref => if ofClass then .bare (.select ref name.toType) else selection
  | _ => if ofClass then .bare (.typeSelect preTree name.toType) else selection

/-- A reference to a type, given the written forms of its prefix and arguments. -/
def referenceTree (pre : Ty) (preTree : Tree) (s : SymbolId) (args : List Tree) : Tree :=
  match pre with
  | .noPrefix =>
    let head := .bare (.ident (W.nameOf s).toType)
    if args.isEmpty && (W.symbols.get s).isModuleClass then .bare (.singletonType head)
    else applied head args
  | _ => applied (W.memberTree pre preTree s) args

/-- The type of a value, given the written form of its prefix. -/
def singletonTree (pre : Ty) (preTree : Tree) (s : SymbolId) : Tree :=
  let name := (W.nameOf s).toTerm
  match pre with
  | .noPrefix => .bare (.singletonType (.bare (.ident name)))
  | _ =>
    let qualifier := match preTree.shape with
      | .singletonType ref => ref
      | _ => preTree
    .bare (.singletonType (.bare (.select qualifier name)))

/-- The result type of a declaration. -/
def resultTree (render : Ty → Tree) (s : SymbolId) : Tree :=
  match (W.symbols.get s).info with
  | none => .bare (.typeTree none)
  | some t => render t.finalResult

/-- The declaration of a type with its type parameters, nested to the given depth. -/
def typeMember (render : Ty → Tree) : Nat → SymbolId → Tree
  | 0, s => .bare (.typeDef {} (W.nameOf s).toType [] (W.resultTree render s))
  | n + 1, s =>
    .bare (.typeDef {} (W.nameOf s).toType ((W.symbols.get s).typeParams.map (typeMember render n))
      (W.resultTree render s))

def deferred : Modifiers Tree := { flags := .single .deferred }

def valueMember (render : Ty → Tree) (s : SymbolId) : Tree :=
  .bare (.valDef deferred (W.nameOf s).toTerm (W.resultTree render s) .empty)

def methodMember (render : Ty → Tree) (s : SymbolId) : Tree :=
  .bare (.defDef deferred (W.nameOf s).toTerm
    ((W.symbols.get s).typeParams.map (W.typeMember render W.symbols.bound))
    ((W.symbols.get s).paramLists.map fun ps => ps.map (W.valueMember render))
    (W.resultTree render s) .empty)

/-- The declaration of a symbol inside a refinement, if it has a written form. -/
def member? (render : Ty → Tree) (s : SymbolId) : Option Tree :=
  let sym := W.symbols.get s
  if sym.info.isNone then none
  else if sym.isMethod then
    some (if sym.isStable then W.valueMember render s else W.methodMember render s)
  else if sym.isType then some (W.typeMember render W.symbols.bound s)
  else none

/-- The declaration of a quantified symbol: a type within its bounds, or a value if the name
stands for the type of one and there is no lower bound. -/
def clause? (render : Ty → Tree) (s : SymbolId) : Option Tree :=
  let name := (W.nameOf s).text
  let ending := W.conventions.singletonEnding
  match (W.symbols.get s).info with
  | some (.bounds lo hi) =>
    if !Text.endsWith name ending then
      some (.bare (.typeDef { flags := .ofList [.deferred, .synthetic] } (.type name) []
        (render (.bounds lo hi))))
    else if lo.same W.builtins.nothingType then
      some (.bare (.valDef deferred (.term (Text.dropEnding name ending)) (render hi) .empty))
    else none
  | _ => none

mutual

/-- The written form of a type, where another function answers for the types of symbols. The
first type is the one to carry along where there is no written form. -/
def writtenWith (deeper : Ty → Ty → Tree) : Ty → Ty → Tree
  | _, .this s =>
    if W.isPlainClass (some s) then .bare (.this (W.nameOf s).toType) else W.path s
  | shown, .ref pre s args =>
    match W.symbols.expansion? s with
    | some t => deeper shown t
    | none => W.referenceTree pre (writtenWith deeper pre pre) s (writtenAllWith deeper args)
  | _, .single pre s => W.singletonTree pre (writtenWith deeper pre pre) s
  | _, .bounds lo hi =>
    .bare (.typeBounds
      (if lo.same W.builtins.nothingType then .empty else writtenWith deeper lo lo)
      (if hi.same W.builtins.anyType then .empty else writtenWith deeper hi hi))
  | shown, .existential qs u =>
    match qs.mapM (W.clause? fun t => deeper t t) with
    | some clauses =>
      .bare (.existentialType
        ((writtenWith deeper u u).nameSingletons W.conventions.singletonEnding) clauses)
    | none => .resolved shown
  | shown, .refined ps ds =>
    match ds.mapM (W.member? fun t => deeper t t) with
    | some members =>
      .bare (.compoundType (.bare (.template (writtenAllWith deeper ps) .empty members)))
    | none => .resolved shown
  | shown, _ => .resolved shown

def writtenAllWith (deeper : Ty → Ty → Tree) : List Ty → List Tree
  | [] => []
  | t :: ts => writtenWith deeper t t :: writtenAllWith deeper ts

end

/-- An alias is written as what it stands for. -/
theorem writtenWith_of_expansion {deeper : Ty → Ty → Tree} {shown pre t : Ty} {s : SymbolId}
    {args : List Ty} (h : W.symbols.expansion? s = some t) :
    W.writtenWith deeper shown (.ref pre s args) = deeper shown t := by
  rw [writtenWith, h]

def writtenWithin : Nat → Ty → Ty → Tree
  | 0 => fun shown _ => .resolved shown
  | n + 1 => W.writtenWith (writtenWithin n)

/-- The written form of a type, or the resolved type itself if it has none. A symbol's type is
entered at most once in each of three roles: as an alias, as quantified, and as declared. -/
def writtenType (t : Ty) : Tree := W.writtenWithin (3 * W.symbols.bound) t t

end Setting

end TreeRepair
