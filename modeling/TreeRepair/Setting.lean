import TreeRepair.Conventions.Basic
import TreeRepair.Symbol.Basic

namespace TreeRepair

/-- The symbols and types that every program knows. -/
structure Builtins where
  rootClass : SymbolId
  nothingType : Ty
  anyType : Ty
  anyRefType : Ty

/-- What a checker has told about the program at hand and about its own habits. -/
structure Setting where
  symbols : SymbolTable
  builtins : Builtins
  conventions : Conventions := {}

namespace Setting

variable (W : Setting)

def nameOf (s : SymbolId) : Name := (W.symbols.get s).name

/-- The full path of a symbol from the root, or from its outermost owner if it is not below the
root, as far as the given number of steps leads. -/
def pathWithin : Nat → SymbolId → Tree
  | 0, s => .bare (.ident (W.nameOf s).toTerm)
  | n + 1, s =>
    if s = W.builtins.rootClass then .bare (.ident (.term W.conventions.rootName))
    else
      match (W.symbols.get s).owner with
      | none => .bare (.ident (W.nameOf s).toTerm)
      | some o => .bare (.select (pathWithin n o) (W.nameOf s).toTerm)

/-- The full path of a symbol. -/
def path (s : SymbolId) : Tree := W.pathWithin W.symbols.bound s

/-- Whether a symbol with these owners, itself first, is below the package whose members need no
import. -/
def injectedAmong : List SymbolId → Bool
  | [] => false
  | o :: owners =>
    if o = W.builtins.rootClass then false
    else if (W.nameOf o).text = W.conventions.injectedPackage
        && (W.symbols.get o).owner = some W.builtins.rootClass then true
    else injectedAmong owners

/-- Whether an owner decides the search for that package. -/
def decidesInjected (o : SymbolId) : Bool :=
  o = W.builtins.rootClass || (W.nameOf o).text = W.conventions.injectedPackage
    && (W.symbols.get o).owner = some W.builtins.rootClass

def isInjected : Option SymbolId → Bool
  | none => false
  | some s => W.injectedAmong (W.symbols.owners s)

end Setting

end TreeRepair
