import TreeRepair.Decimal.Binary
import TreeRepair.Text

namespace TreeRepair

/-- The value of a literal. -/
inductive Constant where
  | null
  | bool (value : Bool)
  | int (value : Int)
  | number (value : Number)
  | string (value : String)
  | unit
deriving DecidableEq

namespace Constant

/-- The integer that a number equals, if there is one, and otherwise the number with the fewest
digits. -/
def ofNumber : Number → Constant
  | .finite d =>
    match d.toInt? with
    | some n => .int n
    | none => .number (.finite d.normalize)
  | x => .number x

/-- One representative for all constants of one value: truth values and whole numbers are
the integers they equal, and zero has no sign. A number with a point stands for the nearest binary
one. -/
def canonical : Constant → Constant
  | .bool b => .int (if b then 1 else 0)
  | .number (.finite d) => ofNumber d.exact
  | c => c

/-- Whether two constants have the same value. -/
def same (a b : Constant) : Bool := a.canonical == b.canonical

def text : Constant → String
  | .null => "None"
  | .bool b => if b then "True" else "False"
  | .int n => toString n
  | .number r => r.text
  | .string s => Text.quoted s
  | .unit => "()"

end Constant

end TreeRepair
