import TreeRepair.Constant

namespace TreeRepair

/-- The identity of a declaration; what is known about it stands in a symbol table. -/
structure SymbolId where
  text : String
deriving DecidableEq

/-- Types as a checker resolves them. Declarations are named by identity, and the types of
quantified, declared and bound symbols are found in the symbol table. -/
inductive Ty where
  | noPrefix
  | this (sym : SymbolId)
  | ref (pre : Ty) (sym : SymbolId) (args : List Ty)
  | single (pre : Ty) (sym : SymbolId)
  | bounds (lo hi : Ty)
  | existential (quantified : List SymbolId) (underlying : Ty)
  | refined (parents : List Ty) (decls : List SymbolId)
  | method (params : List SymbolId) (result : Ty)
  | nullary (result : Ty)
  | poly (params : List SymbolId) (result : Ty)
  | constant (value : Constant)
  | unspecified

namespace Ty

mutual

/-- Types of the same form over the same symbols, constants compared by value. -/
def same : Ty → Ty → Bool
  | .noPrefix, .noPrefix => true
  | .this s, .this s' => s == s'
  | .ref pre s args, .ref pre' s' args' => same pre pre' && s == s' && sameAll args args'
  | .single pre s, .single pre' s' => same pre pre' && s == s'
  | .bounds lo hi, .bounds lo' hi' => same lo lo' && same hi hi'
  | .existential qs u, .existential qs' u' => qs == qs' && same u u'
  | .refined ps ds, .refined ps' ds' => sameAll ps ps' && ds == ds'
  | .method ps r, .method ps' r' => ps == ps' && same r r'
  | .nullary r, .nullary r' => same r r'
  | .poly ps r, .poly ps' r' => ps == ps' && same r r'
  | .constant c, .constant c' => c.same c'
  | .unspecified, .unspecified => true
  | _, _ => false

def sameAll : List Ty → List Ty → Bool
  | [], [] => true
  | t :: ts, t' :: ts' => same t t' && sameAll ts ts'
  | _, _ => false

end

/-- The result of a signature, behind all its parameter lists. -/
def finalResult : Ty → Ty
  | .method _ r | .nullary r | .poly _ r => finalResult r
  | t => t

end Ty

end TreeRepair
