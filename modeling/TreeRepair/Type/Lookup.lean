import TreeRepair.Descent
import TreeRepair.Type.Written

namespace TreeRepair

/-- What the symbol table is asked for when a type is written: what an alias stands for, the bounds
of a quantified symbol, or the type of a declared one. -/
inductive Lookup where
  | expanded (s : SymbolId)
  | quantified (s : SymbolId)
  | declared (s : SymbolId)
deriving DecidableEq

namespace Ty

/-- The types inside a type that stand there themselves, and are not looked up. -/
def parts : Ty → List Ty
  | .ref pre _ args => pre :: args
  | .single pre _ => [pre]
  | .bounds lo hi => [lo, hi]
  | .existential _ u => [u]
  | .refined ps _ => ps
  | .method _ r | .nullary r | .poly _ r => [r]
  | _ => []

/-- The parameters of a signature. -/
def valueParams : Ty → List SymbolId
  | .method ps _ => ps
  | _ => []

theorem sizeOf_lt_of_mem_parts {t u : Ty} (h : u ∈ t.parts) : sizeOf u < sizeOf t := by
  have list {l : List Ty} (hl : u ∈ l) : sizeOf u < sizeOf l := List.sizeOf_lt_of_mem hl
  cases t <;> simp [parts] at h ⊢ <;> grind

end Ty

/-- The beginning of a list, up to the first element that has a property. -/
def upToFirst {α : Type} (p : α → Bool) : List α → List α
  | [] => []
  | a :: l => a :: if p a then [] else upToFirst p l

theorem mem_of_mem_upToFirst {α : Type} {p : α → Bool} {l : List α} {a : α}
    (h : a ∈ upToFirst p l) : a ∈ l := by
  induction l with
  | nil => exact h
  | cons b l ih =>
    rcases List.mem_cons.mp h with rfl | h
    · exact List.mem_cons_self
    · split at h
      · simp at h
      · exact List.mem_cons_of_mem _ (ih h)

namespace SymbolTable

variable (T : SymbolTable)

/-- A symbol and its type parameters, nested to the given depth. -/
def typeParameters : Nat → SymbolId → List SymbolId
  | 0, s => [s]
  | n + 1, s => s :: (T.get s).typeParams.flatMap (typeParameters n)

/-- The symbols whose types stand in the declaration of a symbol. -/
def signature (s : SymbolId) : List SymbolId :=
  if (T.get s).isMethod then
    if (T.get s).isStable then [s]
    else
      s :: ((T.get s).typeParams.flatMap (T.typeParameters T.bound) ++ (T.get s).paramLists.flatten)
  else T.typeParameters T.bound s

/-- Going up from a symbol goes on in its owner, as far as one that is looked for. -/
def climbing (found : SymbolId → Bool) : Descent SymbolId SymbolId :=
  .along fun s => if found s then [] else (T.get s).owner.toList

/-- Declaring a type goes on in its type parameters. -/
def declaring : Descent SymbolId SymbolId := .along fun s => (T.get s).typeParams

/-- Finding what a type denotes goes on in the underlying type, and in the types of aliases and of
values. -/
def denoting : Descent Ty SymbolId where
  parts
    | .existential _ u => [u]
    | _ => []
  sources
    | .ref _ s _ => if (T.expansion? s).isSome then [s] else []
    | .single _ s => if (T.get s).moduleClass.isSome then [] else [s]
    | _ => []
  drawn s := (T.get s).info.toList
  smaller := by
    refine Subrelation.wf (r := fun p t => sizeOf p < sizeOf t) ?_ (measure sizeOf).wf
    intro p t hp
    cases t with
    | existential qs u =>
      obtain rfl := List.mem_singleton.mp hp
      rw [Ty.existential.sizeOf_spec]
      omega
    | _ => exact absurd hp List.not_mem_nil

/-- Looking for a property goes on in the parameters and parts of a type, up to the first in which
it is found. -/
def seeking (p : Ty → Bool) : Descent Ty SymbolId where
  parts t :=
    if p t || t.valueParams.any (fun s => (T.get s).info.any (T.occurs p)) then []
    else upToFirst (T.occurs p) t.parts
  sources t :=
    if p t then [] else upToFirst (fun s => (T.get s).info.any (T.occurs p)) t.valueParams
  drawn s := (T.get s).info.toList
  smaller := by
    refine Subrelation.wf (r := fun u t => sizeOf u < sizeOf t) ?_ (measure sizeOf).wf
    intro u t h
    split at h
    · exact absurd h List.not_mem_nil
    · exact Ty.sizeOf_lt_of_mem_parts (mem_of_mem_upToFirst h)

end SymbolTable

/-- What is asked about a symbol or type: an owner that is looked for, the class or type that it
denotes, or all levels of its type parameters. -/
inductive Question where
  | owner (found : SymbolId → Bool) (s : SymbolId)
  | denoted (t : Ty)
  | parameters (s : SymbolId)

/-- Whether a question is answered at all. -/
def SymbolTable.answers (T : SymbolTable) : Question → Bool
  | .owner found s => (T.climbing found).endsWithin T.bound s
  | .denoted t => T.denoting.endsWithin T.bound t
  | .parameters s => T.declaring.endsWithin T.bound s

namespace Setting

variable (W : Setting)

/-- Whether a symbol can be declared inside a refinement. -/
def declarable (s : SymbolId) : Bool :=
  (W.symbols.get s).info.isSome && ((W.symbols.get s).isMethod || (W.symbols.get s).isType)

/-- The type in which the declaration of a quantified symbol goes on, if it can be declared. -/
def quantifiable? (s : SymbolId) : Option Ty :=
  match (W.symbols.get s).info with
  | some (.bounds lo hi) =>
    if !Text.endsWith (W.nameOf s).text W.conventions.singletonEnding then some (.bounds lo hi)
    else if lo.same W.builtins.nothingType then some hi
    else none
  | _ => none

/-- The types inside a type that become part of its written form. Where something has to be declared
and cannot be, there are none. -/
def renderedParts : Ty → List Ty
  | .ref pre s args => if (W.symbols.expansion? s).isSome then [] else pre :: args
  | .single pre _ => [pre]
  | .bounds lo hi =>
    (if lo.same W.builtins.nothingType then [] else [lo]) ++
      if hi.same W.builtins.anyType then [] else [hi]
  | .existential qs u => if qs.all fun q => (W.quantifiable? q).isSome then [u] else []
  | .refined ps ds => if ds.all W.declarable then ps else []
  | _ => []

theorem mem_parts_of_mem_renderedParts {t u : Ty} (h : u ∈ W.renderedParts t) : u ∈ t.parts := by
  unfold renderedParts at h
  split at h <;> simp only [Ty.parts] <;> grind

/-- Writing a type goes on in the types inside it and in those that are looked up for it, as far as
they become part of its written form. -/
def rendering : Descent Ty Lookup where
  parts := W.renderedParts
  sources
    | .ref _ s _ => if (W.symbols.expansion? s).isSome then [.expanded s] else []
    | .existential qs _ => qs.map .quantified
    | .refined _ ds => ((ds.filter W.declarable).flatMap W.symbols.signature).map .declared
    | _ => []
  drawn
    | .expanded s => (W.symbols.expansion? s).toList
    | .quantified s => (W.quantifiable? s).toList
    | .declared s => ((W.symbols.get s).info.map Ty.finalResult).toList
  smaller :=
    Subrelation.wf (fun h => Ty.sizeOf_lt_of_mem_parts (W.mem_parts_of_mem_renderedParts h))
      (measure sizeOf).wf

/-- The questions that come up at a type while it is written. -/
def questions : Ty → List Question
  | .this s => if W.isPlainClass (some s) then [] else [.owner (· = W.builtins.rootClass) s]
  | .ref .noPrefix _ _ => []
  | .ref pre s _ => if (W.symbols.expansion? s).isSome then [] else [.denoted pre]
  | .refined _ ds =>
    (ds.filter W.declarable).flatMap fun d =>
      if (W.symbols.get d).isMethod then
        if (W.symbols.get d).isStable then [] else (W.symbols.get d).typeParams.map .parameters
      else [.parameters d]
  | _ => []

end Setting

/-- What a pass over a tree does with symbols and types: it asks a question, writes a type, or looks
through a type for a property, where finding out about the property poses questions itself. -/
inductive Task where
  | answer (q : Question)
  | write (t : Ty)
  | seek (p : Ty → Bool) (asked : Ty → List Question) (t : Ty)

/-- Whether a task comes to an end. -/
def Setting.finishes (W : Setting) : Task → Bool
  | .answer q => W.symbols.answers q
  | .write t =>
    W.rendering.passesWithin (fun u => (W.questions u).all W.symbols.answers)
      (3 * W.symbols.bound) t
  | .seek p asked t =>
    (W.symbols.seeking p).passesWithin (fun u => (asked u).all W.symbols.answers)
      W.symbols.bound t

end TreeRepair
