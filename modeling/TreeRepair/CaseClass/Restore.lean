import TreeRepair.CaseClass.Clean
import TreeRepair.Type.Lookup

namespace TreeRepair

/-- Removes the marks of cleaned declarations. -/
def Tree.sweep : Tree → Tree
  | ⟨i, s⟩ => ⟨i.unmark .cleaned, s.pmapChildren fun c _ => c.sweep⟩
termination_by t => t.size
decreasing_by exact size_lt_of_mem_children ‹_›

namespace Setting

variable (W : Setting)

/-- Whether a symbol or one of its owners is among the given ones. -/
def refersTo (symbols : List SymbolId) (s : Option SymbolId) : Bool :=
  s.any fun s => (W.symbols.owners s).any symbols.contains

/-- The type of a resolved type that refers to one of the given symbols. -/
def outdatedType? (symbols : List SymbolId) (i : Info) (s : Shape Tree) : Option Ty :=
  match s, i.type with
  | .typeTree _, some t =>
    if W.refersTo symbols (i.symbol.or (W.symbols.denoted t)) then some t else none
  | _, _ => none

/-- Outside of cleaned declarations, removes references to the given symbols; resolved types that
refer to them are written out. -/
def detach (symbols : List SymbolId) : Tree → Tree
  | ⟨i, s⟩ =>
    if i.marks.cleaned then (⟨i, s⟩ : Tree).sweep
    else
      match W.outdatedType? symbols i s with
      | some t => W.writtenType t
      | none =>
        ⟨if W.refersTo symbols i.symbol then i.detached else i,
          s.pmapChildren fun c _ => detach symbols c⟩
termination_by t => t.size
decreasing_by exact Tree.size_lt_of_mem_children ‹_›

/-- Removes what a checker generates for case classes, and what refers to it. A case class that is
misplaced is an error, or is reported along with the result if the conventions are not strict. -/
def restoreCaseClasses (t : Tree) : Except Misplaced (Tree × List Misplaced) :=
  let root := W.conventions.cleanStatement (caseClassNames [t]) t
  let symbols := W.caseSymbols [t] ++ W.cleanedSymbols root
  let result := W.detach symbols (W.conventions.cleanTree root)
  match W.conventions.strict, W.conventions.misplaced root with
  | true, m :: _ => .error m
  | true, [] => .ok (result, [])
  | false, ms => .ok (result, ms)

/-- What has to be known about a node to see whether it refers to one of the given symbols. -/
def referenceTasks (symbols : List SymbolId) : Tree → List Task
  | ⟨{ symbol := some s, .. }, _⟩ => [.answer (.owner symbols.contains s)]
  | ⟨{ symbol := none, type := some t, .. }, .typeTree _⟩ =>
    .answer (.denoted t) ::
      (W.symbols.denoted t).toList.map fun s => .answer (.owner symbols.contains s)
  | _ => []

/-- What the removal of references at a node has to find out and to write. -/
def detachTasks (symbols : List SymbolId) (n : Tree) : List Task :=
  if n.info.marks.cleaned then []
  else
    W.referenceTasks symbols n ++ (W.outdatedType? symbols n.info n.shape).toList.map .write

/-- The removal of references goes on below nodes that are neither cleaned nor written out. -/
def detaching (symbols : List SymbolId) : Descent Tree Empty :=
  .through
    (fun n =>
      if n.info.marks.cleaned || (W.outdatedType? symbols n.info n.shape).isSome then []
      else n.children)
    (Subrelation.wf (fun {c n} h => Tree.size_lt_of_mem_children (by
      split at h
      · exact absurd h List.not_mem_nil
      · exact h)) (measure Tree.size).wf)

/-- Like `restoreCaseClasses`, where there is no answer if the removal of references does not come to
an end. An error is found before. -/
def restore? (t : Tree) : Option (Except Misplaced (Tree × List Misplaced)) :=
  let root := W.conventions.cleanStatement (caseClassNames [t]) t
  let symbols := W.caseSymbols [t] ++ W.cleanedSymbols root
  match W.restoreCaseClasses t with
  | .error m => some (.error m)
  | .ok r =>
    if (W.detaching symbols).passesWithin (fun n => (W.detachTasks symbols n).all W.finishes) 1
        (W.conventions.cleanTree root) then some (.ok r)
    else none

end Setting

end TreeRepair
