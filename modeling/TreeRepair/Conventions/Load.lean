import TreeRepair.Conventions.Table
import TreeRepair.Toml.Document

namespace TreeRepair

/-- Why a configuration file is refused. -/
inductive LoadError where
  | unreadable (cause : Toml.ReadError)
  | notTable (path : String) (name : String)
  | table (cause : TableError)

def LoadError.message : LoadError → String
  | .unreadable cause => cause.message
  | .notTable path name => "'" ++ name ++ "' in " ++ path ++ " must be a table"
  | .table cause => cause.message

namespace Conventions

/-- The conventions that a table of a configuration file describes, if there is such a file with
such a table. -/
def load? (path : String) (file : Option String) (name : String) :
    Except LoadError (Option Conventions) :=
  match file with
  | none => .ok none
  | some text =>
    match Toml.parse text with
    | .error cause => .error (.unreadable cause)
    | .ok entries =>
      match entries.get? name with
      | none => .ok none
      | some (.table table) =>
        match ofTable table with
        | .ok c => .ok (some c)
        | .error cause => .error (.table cause)
      | some _ => .error (.notTable path name)

end Conventions

end TreeRepair
