import TreeRepair.Symbol.Basic

namespace TreeRepair

/-- What a checker can be asked to do. -/
inductive Request where
  | check
  | reset
  | resetAll
deriving DecidableEq

structure Call where
  request : Request
  tree : Tree

/-- A checker. What it answers may depend on the calls it has had before, oldest first. -/
structure Checker where
  /-- The declaration for which trees are made. -/
  owner : Option SymbolId := none
  check : List Call → Tree → Except Failure Tree
  reset : List Call → Tree → Tree
  resetAll : List Call → Tree → Tree

/-- The result of an operation, the calls it made and the warnings it gave. -/
structure Run where
  result : Except Failure Tree
  calls : List Call := []
  warnings : List String := []

/-- Continues with the tree of a run, unless it failed. -/
def Run.andThen (r : Run) (next : List Call → Tree → Run) (past : List Call) : Run :=
  match r.result with
  | .error _ => r
  | .ok t =>
    let s := next (past ++ r.calls) t
    ⟨s.result, r.calls ++ s.calls, r.warnings ++ s.warnings⟩

/-- What an operation comes to: the calls it makes, and its result if it comes to an end. -/
structure Course where
  calls : List Call
  result : Option (Except Failure Tree)

/-- A run as it is reported to a caller that does not want to be stopped by a failure. -/
inductive Outcome where
  | valid (tree : Tree)
  | failed (failure : Failure)

namespace Outcome

def ofResult : Except Failure Tree → Outcome
  | .ok t => .valid t
  | .error f => .failed f

def isValid : Outcome → Bool
  | .valid _ => true
  | .failed _ => false

def text : Outcome → String
  | .valid _ => "TyperResult: valid"
  | .failed f => "TyperResult: failed\n  " ++ f.text

end Outcome

def Course.outcome (c : Course) : Option Outcome := c.result.map Outcome.ofResult

end TreeRepair
