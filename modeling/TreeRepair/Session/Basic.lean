import TreeRepair.CaseClass.Restore
import TreeRepair.Checked.Recursion
import TreeRepair.Cleanup.InferredTypes
import TreeRepair.Cleanup.InsertedArguments
import TreeRepair.Cleanup.Reset
import TreeRepair.Cleanup.SelfAccess
import TreeRepair.Session.Checker

namespace TreeRepair

/-- A checker together with what is known about it. -/
structure Session where
  setting : Setting
  checker : Checker

/-- What a session can be asked for. -/
inductive Operation where
  | check | uncheck | uncheckAll | recheck | recheckAll
deriving DecidableEq

namespace Session

variable (S : Session)

/-- Checks a tree and repairs it. On demand, argument lists that the check inserts are marked. -/
def check (identify : Bool) (past : List Call) (t : Tree) : Run :=
  let written := if identify then t.markWritten else t
  let calls := [⟨.check, written⟩]
  match S.checker.check past written with
  | .error f => { result := .error f, calls }
  | .ok checked =>
    let marked := if identify then S.setting.symbols.markInserted false checked else checked
    { result := .ok (S.setting.repairChecked S.checker.owner marked), calls }

/-- Makes a checked tree ready for a reset. On demand, argument lists marked as inserted are
removed. -/
def readyForReset (drop : Bool) (t : Tree) : Except Misplaced (Tree × List Misplaced) :=
  match S.setting.restoreCaseClasses (S.setting.repairChecked S.checker.owner t) with
  | .error m => .error m
  | .ok (u, misplaced) =>
    .ok (S.setting.cleanInferredTypes (if drop then u.dropInserted else u), misplaced)

/-- Takes a checked tree back to a form that can be checked again. -/
def uncheck (drop : Bool) (past : List Call) (t : Tree) : Run :=
  match S.readyForReset drop t with
  | .error m => { result := .error m.failure }
  | .ok (u, misplaced) =>
    { result := .ok (S.setting.cleanReset (S.checker.reset past u))
      calls := [⟨.reset, u⟩]
      warnings := misplaced.map Misplaced.warning }

/-- Takes back a checked tree that is to be moved: self references are fixed as well. -/
def uncheckAll (drop : Bool) (past : List Call) (t : Tree) : Run :=
  match S.readyForReset drop t with
  | .error m => { result := .error m.failure }
  | .ok (u, misplaced) =>
    let v := S.setting.fixSelfAccess [] u
    { result := .ok (S.setting.cleanReset (S.checker.resetAll past v))
      calls := [⟨.resetAll, v⟩]
      warnings := misplaced.map Misplaced.warning }

/-- Takes a tree back and checks it again. -/
def recheck (flag : Bool) (past : List Call) (t : Tree) : Run :=
  (S.uncheck flag past t).andThen (S.check flag) past

def recheckAll (flag : Bool) (past : List Call) (t : Tree) : Run :=
  (S.uncheckAll flag past t).andThen (S.check flag) past

def run : Operation → Bool → List Call → Tree → Run
  | .check => S.check
  | .uncheck => S.uncheck
  | .uncheckAll => S.uncheckAll
  | .recheck => S.recheck
  | .recheckAll => S.recheckAll

/-- Whether making a tree ready for a reset comes to an end. -/
def readyFinishes (drop : Bool) (t : Tree) : Bool :=
  S.setting.repairFinishes S.checker.owner t &&
    match S.setting.restore? (S.setting.repairChecked S.checker.owner t) with
    | none => false
    | some (.error _) => true
    | some (.ok (u, _)) => S.setting.cleaningFinishes (if drop then u.dropInserted else u)

/-- Whether a check comes to an end once the checker has answered. -/
def checkFinishes (identify : Bool) (past : List Call) (t : Tree) : Bool :=
  match S.checker.check past (if identify then t.markWritten else t) with
  | .error _ => true
  | .ok checked =>
    S.setting.repairFinishes S.checker.owner
      (if identify then S.setting.symbols.markInserted false checked else checked)

/-- Whether the check of what a run gives comes to an end. -/
def nextFinishes (flag : Bool) (past : List Call) (r : Run) : Bool :=
  match r.result with
  | .error _ => true
  | .ok t => S.checkFinishes flag (past ++ r.calls) t

/-- Whether an operation comes to an end. -/
def finishes (op : Operation) (flag : Bool) (past : List Call) (t : Tree) : Bool :=
  match op with
  | .check => S.checkFinishes flag past t
  | .uncheck | .uncheckAll => S.readyFinishes flag t
  | .recheck => S.readyFinishes flag t && S.nextFinishes flag past (S.uncheck flag past t)
  | .recheckAll => S.readyFinishes flag t && S.nextFinishes flag past (S.uncheckAll flag past t)

/-- What an operation comes to. If making a tree ready for a reset does not come to an end, the
checker is not asked. -/
def perform (op : Operation) (flag : Bool) (past : List Call) (t : Tree) : Course where
  calls := if op = .check || S.readyFinishes flag t then (S.run op flag past t).calls else []
  result := if S.finishes op flag past t then some (S.run op flag past t).result else none

end Session

end TreeRepair
