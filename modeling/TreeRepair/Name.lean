namespace TreeRepair

/-- Terms and types have separate namespaces; a plain name is in neither and is read as a term. -/
inductive Name where
  | term (text : String)
  | type (text : String)
  | plain (text : String)
deriving DecidableEq

namespace Name

def text : Name → String
  | .term s | .type s | .plain s => s

def isType : Name → Bool
  | .type _ => true
  | _ => false

def isTerm (n : Name) : Bool := !n.isType

/-- The same text in the namespace of terms. -/
def toTerm (n : Name) : Name := .term n.text

/-- The same text in the namespace of types. -/
def toType (n : Name) : Name := .type n.text

@[simp] theorem text_toTerm (n : Name) : n.toTerm.text = n.text := rfl

@[simp] theorem text_toType (n : Name) : n.toType.text = n.text := rfl

end Name

end TreeRepair
