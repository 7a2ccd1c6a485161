import TreeRepair.Symbol.Basic

namespace TreeRepair

/-- Marks every application as written and removes older marks of this kind. -/
def Tree.markWritten : Tree → Tree
  | ⟨i, .apply fn args⟩ =>
    ⟨(i.mark .written).unmark .inserted, .apply fn.markWritten (args.map markWritten)⟩
  | ⟨i, s⟩ =>
    ⟨(i.unmark .inserted).unmark .written, s.pmapChildren fun c _ => c.markWritten⟩
termination_by t => t.size
decreasing_by
  all_goals
    refine size_lt_of_mem_children ?_
    first
      | assumption
      | simp [Tree.children, Shape.children, *]

/-- Marks the applications whose argument list the checker supplied: those that were not there
before the check and end in an implicit list. The function of such an application takes the
lists before that one and is not considered again, which the first argument says. Each node is taken
to stand at one place only. -/
def SymbolTable.markInserted (T : SymbolTable) : Bool → Tree → Tree
  | considered, ⟨i, .apply fn args⟩ =>
    let inserted := !considered && T.hasImplicitList i.symbol && !i.marks.written
    let j := i.unmark .written
    ⟨if inserted then j.mark .inserted else j,
      .apply (markInserted T (considered || inserted) fn) (args.map (markInserted T false))⟩
  | _, ⟨i, s⟩ => ⟨i, s.pmapChildren fun c _ => markInserted T false c⟩
termination_by _ t => t.size
decreasing_by
  all_goals
    refine Tree.size_lt_of_mem_children ?_
    first
      | assumption
      | simp [Tree.children, Shape.children, *]

/-- Removes the argument lists marked as supplied by the checker. -/
def Tree.dropInserted : Tree → Tree
  | ⟨i, .apply fn args⟩ =>
    if i.marks.inserted then fn.dropInserted
    else ⟨i, .apply fn.dropInserted (args.map dropInserted)⟩
  | ⟨i, s⟩ => ⟨i, s.pmapChildren fun c _ => c.dropInserted⟩
termination_by t => t.size
decreasing_by
  all_goals
    refine size_lt_of_mem_children ?_
    first
      | assumption
      | simp [Tree.children, Shape.children, *]

end TreeRepair
