import TreeRepair.Symbol.Basic

namespace TreeRepair.SymbolTable

variable (T : SymbolTable)

/-- What an alias stands for. -/
def expansion? (s : SymbolId) : Option Ty :=
  if (T.get s).isAlias then (T.get s).info else none

/-- Expands aliases at the top, as many as given. -/
def dealiasWithin : Nat → Ty → Ty
  | 0, t => t
  | n + 1, t =>
    match t with
    | .ref _ s _ =>
      match T.expansion? s with
      | some u => dealiasWithin n u
      | none => t
    | _ => t

/-- Expands the aliases at the top of a type. -/
def dealias (t : Ty) : Ty := T.dealiasWithin T.bound t

/-- The class or type that a type denotes, where another function answers for the types of
aliases and values. -/
def denotedWith (deeper : Ty → Option SymbolId) : Ty → Option SymbolId
  | .ref _ s _ =>
    match T.expansion? s with
    | some u => deeper u
    | none => some s
  | .this s => some s
  | .single _ s => (T.get s).moduleClass.or ((T.get s).info.bind deeper)
  | .existential _ u => denotedWith deeper u
  | _ => none

def denotedWithin : Nat → Ty → Option SymbolId
  | 0 => fun _ => none
  | n + 1 => T.denotedWith (denotedWithin n)

/-- The class or type that a type denotes, if it denotes one. A search that comes to an end passes
each symbol at most once as an alias and once as a value; `SymbolTable.answers` tells it from one that
does not. -/
def denoted (t : Ty) : Option SymbolId := T.denotedWithin (2 * T.bound) t

/-- The types directly inside a type. -/
def components : Ty → List Ty
  | .ref pre _ args => pre :: args
  | .single pre _ => [pre]
  | .bounds lo hi => [lo, hi]
  | .existential _ u => [u]
  | .refined ps _ => ps
  | .method ps r => ps.filterMap (fun p => (T.get p).info) ++ [r]
  | .nullary r | .poly _ r => [r]
  | _ => []

mutual

/-- Whether a type or one inside it has a property, where another function answers for the types
of parameters. -/
def occursWith (deeper : Ty → Bool) (p : Ty → Bool) : Ty → Bool
  | .ref pre s args =>
    p (.ref pre s args) || occursWith deeper p pre || occursInWith deeper p args
  | .single pre s => p (.single pre s) || occursWith deeper p pre
  | .bounds lo hi => p (.bounds lo hi) || occursWith deeper p lo || occursWith deeper p hi
  | .existential qs u => p (.existential qs u) || occursWith deeper p u
  | .refined ps ds => p (.refined ps ds) || occursInWith deeper p ps
  | .method ps r =>
    p (.method ps r) || (ps.filterMap fun q => (T.get q).info).any deeper || occursWith deeper p r
  | .nullary r => p (.nullary r) || occursWith deeper p r
  | .poly ps r => p (.poly ps r) || occursWith deeper p r
  | .noPrefix => p .noPrefix
  | .this s => p (.this s)
  | .constant c => p (.constant c)
  | .unspecified => p .unspecified

def occursInWith (deeper : Ty → Bool) (p : Ty → Bool) : List Ty → Bool
  | [] => false
  | t :: ts => occursWith deeper p t || occursInWith deeper p ts

end

def occursWithin (p : Ty → Bool) : Nat → Ty → Bool
  | 0 => fun _ => false
  | n + 1 => T.occursWith (occursWithin p n) p

/-- Whether a type or one inside it has a property. -/
def occurs (p : Ty → Bool) (t : Ty) : Bool := T.occursWithin p T.bound t

end TreeRepair.SymbolTable
