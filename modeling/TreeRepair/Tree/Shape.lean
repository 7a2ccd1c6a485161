import TreeRepair.Constant
import TreeRepair.Flag
import TreeRepair.Name

namespace TreeRepair

/-- Flags, visibility qualifier and annotations of a declaration. -/
structure Modifiers (α : Type) where
  flags : Flags := .none
  within : Name := .type ""
  annotations : List α := []
deriving DecidableEq

namespace Modifiers

variable {α β : Type}

def has (mods : Modifiers α) (f : Flag) : Bool := mods.flags.has f

/-- Keeps the allowed flags only. -/
def restrict (mods : Modifiers α) (allowed : Flags) : Modifiers α :=
  { mods with flags := mods.flags.inter allowed }

end Modifiers

/-- One node of a syntax tree, with its subtrees left open. -/
inductive Shape (α : Type) where
  | empty
  | ident (name : Name)
  | select (qualifier : α) (name : Name)
  | this (qualifier : Name)
  | literal (value : Constant)
  | apply (fn : α) (args : List α)
  | typeApply (fn : α) (args : List α)
  | unapply (fn : α) (args : List α)
  | typed (expr tpt : α)
  | assign (lhs rhs : α)
  | annotated (annot arg : α)
  | function (params : List α) (body : α)
  | block (stats : List α) (expr : α)
  | cond (test yes no : α)
  | caseDef (pat guard body : α)
  | matching (selector : α) (cases : List α)
  | bind (name : Name) (body : α)
  | new (tpt : α)
  | template (parents : List α) (selfType : α) (body : List α)
  | packageDef (pid : α) (stats : List α)
  | valDef (mods : Modifiers α) (name : Name) (tpt rhs : α)
  | defDef (mods : Modifiers α) (name : Name) (tparams : List α) (vparamss : List (List α))
      (tpt rhs : α)
  | typeDef (mods : Modifiers α) (name : Name) (tparams : List α) (rhs : α)
  | classDef (mods : Modifiers α) (name : Name) (tparams : List α) (impl : α)
  | moduleDef (mods : Modifiers α) (name : Name) (impl : α)
  | typeTree (written : Option α)
  | singletonType (ref : α)
  | typeSelect (qualifier : α) (name : Name)
  | appliedType (tpt : α) (args : List α)
  | typeBounds (lo hi : α)
  | existentialType (tpt : α) (clauses : List α)
  | compoundType (templ : α)
deriving DecidableEq

namespace Shape

variable {α β : Type}

/-- The direct subtrees from left to right, those in annotations included. The written form of a
resolved type is not among them. -/
def children : Shape α → List α
  | .empty | .ident _ | .this _ | .literal _ | .typeTree _ => []
  | .select a _ | .bind _ a | .new a | .singletonType a | .typeSelect a _ | .compoundType a => [a]
  | .apply fn args | .typeApply fn args | .unapply fn args => fn :: args
  | .typed a b | .assign a b | .annotated a b | .typeBounds a b => [a, b]
  | .function params body => params ++ [body]
  | .block stats expr => stats ++ [expr]
  | .cond a b c | .caseDef a b c => [a, b, c]
  | .matching a as | .packageDef a as | .appliedType a as | .existentialType a as => a :: as
  | .template parents self body => parents ++ self :: body
  | .valDef mods _ tpt rhs => mods.annotations ++ [tpt, rhs]
  | .defDef mods _ tparams vparamss tpt rhs =>
    mods.annotations ++ tparams ++ vparamss.flatten ++ [tpt, rhs]
  | .typeDef mods _ tparams a | .classDef mods _ tparams a => mods.annotations ++ tparams ++ [a]
  | .moduleDef mods _ impl => mods.annotations ++ [impl]

/-- The written form that a resolved type was read from, if it was written at all. -/
def written : Shape α → Option α
  | .typeTree w => w
  | _ => none

/-- Everything below a node: its children and the written form of a resolved type. -/
def subtrees (s : Shape α) : List α := s.children ++ s.written.toList

/-- Applies a function to every child. -/
def mapChildren (f : α → α) : Shape α → Shape α
  | .empty => .empty
  | .ident n => .ident n
  | .select q n => .select (f q) n
  | .this n => .this n
  | .literal c => .literal c
  | .apply fn args => .apply (f fn) (args.map f)
  | .typeApply fn args => .typeApply (f fn) (args.map f)
  | .unapply fn args => .unapply (f fn) (args.map f)
  | .typed e t => .typed (f e) (f t)
  | .assign l r => .assign (f l) (f r)
  | .annotated a e => .annotated (f a) (f e)
  | .function ps b => .function (ps.map f) (f b)
  | .block ss e => .block (ss.map f) (f e)
  | .cond c t e => .cond (f c) (f t) (f e)
  | .caseDef p g b => .caseDef (f p) (f g) (f b)
  | .matching s cs => .matching (f s) (cs.map f)
  | .bind n b => .bind n (f b)
  | .new t => .new (f t)
  | .template ps s b => .template (ps.map f) (f s) (b.map f)
  | .packageDef p ss => .packageDef (f p) (ss.map f)
  | .valDef m n t r => .valDef { m with annotations := m.annotations.map f } n (f t) (f r)
  | .defDef m n tps vss t r =>
    .defDef { m with annotations := m.annotations.map f } n (tps.map f)
      (vss.map fun vs => vs.map f) (f t) (f r)
  | .typeDef m n tps r =>
    .typeDef { m with annotations := m.annotations.map f } n (tps.map f) (f r)
  | .classDef m n tps i =>
    .classDef { m with annotations := m.annotations.map f } n (tps.map f) (f i)
  | .moduleDef m n i => .moduleDef { m with annotations := m.annotations.map f } n (f i)
  | .typeTree w => .typeTree w
  | .singletonType r => .singletonType (f r)
  | .typeSelect q n => .typeSelect (f q) n
  | .appliedType t as => .appliedType (f t) (as.map f)
  | .typeBounds l h => .typeBounds (f l) (f h)
  | .existentialType t cs => .existentialType (f t) (cs.map f)
  | .compoundType t => .compoundType (f t)

/-- Applies a function that may use that its argument is a child. -/
def pmapChildren : (s : Shape α) → ((c : α) → c ∈ s.children → α) → Shape α
  | .empty, _ => .empty
  | .ident n, _ => .ident n
  | .select q n, f => .select (f q (by simp [children])) n
  | .this n, _ => .this n
  | .literal c, _ => .literal c
  | .apply fn args, f =>
    .apply (f fn (by simp [children]))
      (args.attach.map fun ⟨a, h⟩ => f a (by simp [children, h]))
  | .typeApply fn args, f =>
    .typeApply (f fn (by simp [children]))
      (args.attach.map fun ⟨a, h⟩ => f a (by simp [children, h]))
  | .unapply fn args, f =>
    .unapply (f fn (by simp [children]))
      (args.attach.map fun ⟨a, h⟩ => f a (by simp [children, h]))
  | .typed e t, f => .typed (f e (by simp [children])) (f t (by simp [children]))
  | .assign l r, f => .assign (f l (by simp [children])) (f r (by simp [children]))
  | .annotated a e, f => .annotated (f a (by simp [children])) (f e (by simp [children]))
  | .function ps b, f =>
    .function (ps.attach.map fun ⟨a, h⟩ => f a (by simp [children, h])) (f b (by simp [children]))
  | .block ss e, f =>
    .block (ss.attach.map fun ⟨a, h⟩ => f a (by simp [children, h])) (f e (by simp [children]))
  | .cond c t e, f =>
    .cond (f c (by simp [children])) (f t (by simp [children])) (f e (by simp [children]))
  | .caseDef p g b, f =>
    .caseDef (f p (by simp [children])) (f g (by simp [children])) (f b (by simp [children]))
  | .matching s cs, f =>
    .matching (f s (by simp [children])) (cs.attach.map fun ⟨a, h⟩ => f a (by simp [children, h]))
  | .bind n b, f => .bind n (f b (by simp [children]))
  | .new t, f => .new (f t (by simp [children]))
  | .template ps s b, f =>
    .template (ps.attach.map fun ⟨a, h⟩ => f a (by simp [children, h])) (f s (by simp [children]))
      (b.attach.map fun ⟨a, h⟩ => f a (by simp [children, h]))
  | .packageDef p ss, f =>
    .packageDef (f p (by simp [children]))
      (ss.attach.map fun ⟨a, h⟩ => f a (by simp [children, h]))
  | .valDef m n t r, f =>
    .valDef
      { m with annotations := m.annotations.attach.map fun ⟨a, h⟩ => f a (by simp [children, h]) }
      n (f t (by simp [children])) (f r (by simp [children]))
  | .defDef m n tps vss t r, f =>
    .defDef
      { m with annotations := m.annotations.attach.map fun ⟨a, h⟩ => f a (by simp [children, h]) }
      n (tps.attach.map fun ⟨a, h⟩ => f a (by simp [children, h]))
      (vss.attach.map fun ⟨vs, hs⟩ => vs.attach.map fun ⟨a, h⟩ =>
        f a (by simp only [children, List.mem_append, List.mem_flatten]
                exact .inl (.inr ⟨vs, hs, h⟩)))
      (f t (by simp [children])) (f r (by simp [children]))
  | .typeDef m n tps r, f =>
    .typeDef
      { m with annotations := m.annotations.attach.map fun ⟨a, h⟩ => f a (by simp [children, h]) }
      n (tps.attach.map fun ⟨a, h⟩ => f a (by simp [children, h])) (f r (by simp [children]))
  | .classDef m n tps i, f =>
    .classDef
      { m with annotations := m.annotations.attach.map fun ⟨a, h⟩ => f a (by simp [children, h]) }
      n (tps.attach.map fun ⟨a, h⟩ => f a (by simp [children, h])) (f i (by simp [children]))
  | .moduleDef m n i, f =>
    .moduleDef
      { m with annotations := m.annotations.attach.map fun ⟨a, h⟩ => f a (by simp [children, h]) }
      n (f i (by simp [children]))
  | .typeTree w, _ => .typeTree w
  | .singletonType r, f => .singletonType (f r (by simp [children]))
  | .typeSelect q n, f => .typeSelect (f q (by simp [children])) n
  | .appliedType t as, f =>
    .appliedType (f t (by simp [children]))
      (as.attach.map fun ⟨a, h⟩ => f a (by simp [children, h]))
  | .typeBounds l h, f => .typeBounds (f l (by simp [children])) (f h (by simp [children]))
  | .existentialType t cs, f =>
    .existentialType (f t (by simp [children]))
      (cs.attach.map fun ⟨a, h⟩ => f a (by simp [children, h]))
  | .compoundType t, f => .compoundType (f t (by simp [children]))

@[simp] theorem pmapChildren_eq (s : Shape α) (f : α → α) :
    s.pmapChildren (fun c _ => f c) = s.mapChildren f := by
  cases s <;> simp [pmapChildren, mapChildren]

@[simp] theorem children_mapChildren (f : α → α) (s : Shape α) :
    (s.mapChildren f).children = s.children.map f := by
  cases s <;> simp [mapChildren, children, List.map_flatten]

theorem mapChildren_congr {s : Shape α} {f g : α → α} (h : ∀ c ∈ s.children, f c = g c) :
    s.mapChildren f = s.mapChildren g := by
  rw [← pmapChildren_eq, ← pmapChildren_eq]
  congr 1
  funext c hc
  exact h c hc

/-- What a node says apart from its subtrees, with constants taken by value. -/
def outline : Shape α → Shape Unit
  | .empty => .empty
  | .ident n => .ident n
  | .select _ n => .select () n
  | .this n => .this n
  | .literal c => .literal c.canonical
  | .apply _ args => .apply () (args.map fun _ => ())
  | .typeApply _ args => .typeApply () (args.map fun _ => ())
  | .unapply _ args => .unapply () (args.map fun _ => ())
  | .typed _ _ => .typed () ()
  | .assign _ _ => .assign () ()
  | .annotated _ _ => .annotated () ()
  | .function ps _ => .function (ps.map fun _ => ()) ()
  | .block ss _ => .block (ss.map fun _ => ()) ()
  | .cond _ _ _ => .cond () () ()
  | .caseDef _ _ _ => .caseDef () () ()
  | .matching _ cs => .matching () (cs.map fun _ => ())
  | .bind n _ => .bind n ()
  | .new _ => .new ()
  | .template ps _ b => .template (ps.map fun _ => ()) () (b.map fun _ => ())
  | .packageDef _ ss => .packageDef () (ss.map fun _ => ())
  | .valDef m n _ _ => .valDef { m with annotations := m.annotations.map fun _ => () } n () ()
  | .defDef m n tps vss _ _ =>
    .defDef { m with annotations := m.annotations.map fun _ => () } n (tps.map fun _ => ())
      (vss.map fun vs => vs.map fun _ => ()) () ()
  | .typeDef m n tps _ =>
    .typeDef { m with annotations := m.annotations.map fun _ => () } n (tps.map fun _ => ()) ()
  | .classDef m n tps _ =>
    .classDef { m with annotations := m.annotations.map fun _ => () } n (tps.map fun _ => ()) ()
  | .moduleDef m n _ => .moduleDef { m with annotations := m.annotations.map fun _ => () } n ()
  | .typeTree w => .typeTree (w.map fun _ => ())
  | .singletonType _ => .singletonType ()
  | .typeSelect _ n => .typeSelect () n
  | .appliedType _ as => .appliedType () (as.map fun _ => ())
  | .typeBounds _ _ => .typeBounds () ()
  | .existentialType _ cs => .existentialType () (cs.map fun _ => ())
  | .compoundType _ => .compoundType ()

theorem length_children_outline (s : Shape α) : s.outline.children.length = s.children.length := by
  cases s <;> simp only [outline, children, List.length_append, List.length_cons, List.length_map,
    List.length_flatten, List.map_map, Function.comp_def, List.length_nil]

end Shape

end TreeRepair
