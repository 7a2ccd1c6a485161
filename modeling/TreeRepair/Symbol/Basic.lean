import TreeRepair.Tree.Basic

namespace TreeRepair

/-- What a symbol stands for. -/
inductive SymbolKind where
  | term | method | module | package | type | alias | plainClass | moduleClass | packageClass
deriving DecidableEq

/-- What is known about a declaration. Accessors of a field, the class of a module and all other
symbols are named by identity. -/
structure Symbol where
  name : Name
  kind : SymbolKind
  owner : Option SymbolId := none
  flags : Flags := .none
  info : Option Ty := none
  annotations : List Tree := []
  privateWithin : Option SymbolId := none
  getter : Option SymbolId := none
  setter : Option SymbolId := none
  moduleClass : Option SymbolId := none
  typeParams : List SymbolId := []
  paramLists : List (List SymbolId) := []
  members : List SymbolId := []

namespace Symbol

def has (s : Symbol) (f : Flag) : Bool := s.flags.has f

def isTerm (s : Symbol) : Bool :=
  match s.kind with
  | .term | .method | .module | .package => true
  | _ => false

def isType (s : Symbol) : Bool := !s.isTerm

def isMethod (s : Symbol) : Bool := s.kind == .method

def isModule (s : Symbol) : Bool := s.kind == .module

def isPackage (s : Symbol) : Bool := s.kind == .package

/-- Classes of any kind, those of modules and packages included. -/
def isClass (s : Symbol) : Bool :=
  match s.kind with
  | .plainClass | .moduleClass | .packageClass => true
  | _ => false

def isPlainClass (s : Symbol) : Bool := s.kind == .plainClass

def isModuleClass (s : Symbol) : Bool := s.kind == .moduleClass

def isPackageClass (s : Symbol) : Bool := s.kind == .packageClass

def isAlias (s : Symbol) : Bool := s.kind == .alias

def isLazy (s : Symbol) : Bool := s.has .lazy

def isGetter (s : Symbol) : Bool := s.isMethod && s.has .getter

def isSetter (s : Symbol) : Bool := s.isMethod && s.has .setter

def isVariable (s : Symbol) : Bool := s.has .mutable

def isArtifact (s : Symbol) : Bool := s.has .artifact

def isImplicit (s : Symbol) : Bool := s.has .implicit

def isStable (s : Symbol) : Bool := s.has .stable

def isPrivateThis (s : Symbol) : Bool := s.has .privateMember && s.has .objectLocal

end Symbol

/-- All symbols that trees and types may mention. -/
structure SymbolTable where
  entries : List (SymbolId × Symbol) := []

namespace SymbolTable

/-- What is known about a symbol; of one that is not listed nothing but that it is a term. -/
def get (T : SymbolTable) (s : SymbolId) : Symbol :=
  (T.entries.lookup s).getD { name := .plain "", kind := .term }

theorem forall_get {T : SymbolTable} {P : Symbol → Prop}
    (unlisted : P { name := .plain "", kind := .term }) (listed : ∀ e ∈ T.entries, P e.2)
    (s : SymbolId) : P (T.get s) := by
  cases found : T.entries.lookup s with
  | none => simpa only [get, found, Option.getD_none] using unlisted
  | some symbol =>
    obtain ⟨l₁, l₂, entries, -⟩ := List.lookup_eq_some_iff.mp found
    simp only [get, found, Option.getD_some]
    exact listed (s, symbol) (by simp [entries])

/-- More than a chain of different symbols can have. -/
def bound (T : SymbolTable) : Nat := T.entries.length + 2

/-- A symbol and the owners above it, as far as the given number of steps leads. -/
def ownersWithin (T : SymbolTable) : Nat → SymbolId → List SymbolId
  | 0, _ => []
  | n + 1, s =>
    s :: match (T.get s).owner with
      | some o => T.ownersWithin n o
      | none => []

/-- A symbol and its owners, innermost first. -/
def owners (T : SymbolTable) (s : SymbolId) : List SymbolId := T.ownersWithin T.bound s

/-- The names of the owner chain from the outside in, with dots between them. -/
def fullName (T : SymbolTable) (s : SymbolId) : String :=
  ".".intercalate ((T.owners s).reverse.map fun o => (T.get o).name.text)

/-- Whether the last parameter list of a method asks for implicit arguments. -/
def hasImplicitList (T : SymbolTable) (s : Option SymbolId) : Bool :=
  match s with
  | none => false
  | some s =>
    (T.get s).isMethod &&
      match (T.get s).paramLists.getLast? with
      | some (p :: _) => (T.get p).isImplicit
      | _ => false

end SymbolTable

end TreeRepair
