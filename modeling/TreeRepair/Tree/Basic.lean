import TreeRepair.Position
import TreeRepair.Tree.Shape
import TreeRepair.Type.Basic

namespace TreeRepair

/-- Notes that one pass leaves on a node for a later one. -/
inductive Mark where
  /-- An application that stood in the tree before it was checked. -/
  | written
  /-- An application whose argument list the checker supplied. -/
  | inserted
  /-- A case class, case object or companion without its generated members. -/
  | cleaned
deriving DecidableEq

structure Marks where
  written : Bool := false
  inserted : Bool := false
  cleaned : Bool := false
deriving DecidableEq

namespace Marks

def has (ms : Marks) : Mark → Bool
  | .written => ms.written
  | .inserted => ms.inserted
  | .cleaned => ms.cleaned

def set (ms : Marks) (m : Mark) (present : Bool) : Marks :=
  match m with
  | .written => { ms with written := present }
  | .inserted => { ms with inserted := present }
  | .cleaned => { ms with cleaned := present }

def add (ms : Marks) (m : Mark) : Marks := ms.set m true

def remove (ms : Marks) (m : Mark) : Marks := ms.set m false

end Marks

/-- What a checker or a pass attaches to a node; none of it is part of the syntax. -/
structure Info where
  symbol : Option SymbolId := none
  type : Option Ty := none
  pos : Position := {}
  marks : Marks := {}

namespace Info

/-- The data of one node moved to another: a missing symbol does not replace one, and marks stay
where they are. -/
def takeFrom (i other : Info) : Info :=
  { i with symbol := other.symbol.or i.symbol, type := other.type, pos := other.pos }

def mark (i : Info) (m : Mark) : Info := { i with marks := i.marks.add m }

def unmark (i : Info) (m : Mark) : Info := { i with marks := i.marks.remove m }

def detached (i : Info) : Info := { i with symbol := none }

end Info

/-- A syntax tree with what is known about each of its nodes. -/
structure Tree where
  info : Info
  shape : Shape Tree

theorem Shape.sizeOf_lt_of_mem_subtrees {α : Type} [SizeOf α] {s : Shape α} {c : α}
    (h : c ∈ s.subtrees) : sizeOf c < sizeOf s := by
  have mods (m : Modifiers α) (hm : c ∈ m.annotations) : sizeOf c < sizeOf m := by
    have := List.sizeOf_lt_of_mem hm
    cases m
    simp at this ⊢
    omega
  have lists (vs : List α) (vss : List (List α)) (hs : vs ∈ vss) (hv : c ∈ vs) :
      sizeOf c < sizeOf vss :=
    Nat.lt_trans (List.sizeOf_lt_of_mem hv) (List.sizeOf_lt_of_mem hs)
  have list (l : List α) (hl : c ∈ l) : sizeOf c < sizeOf l := List.sizeOf_lt_of_mem hl
  cases s <;> simp [subtrees, children, written] at h ⊢ <;> grind

namespace Tree

/-- A node without any data attached. -/
def bare (s : Shape Tree) : Tree := ⟨{}, s⟩

def empty : Tree := bare .empty

def children (t : Tree) : List Tree := t.shape.children

def subtrees (t : Tree) : List Tree := t.shape.subtrees

def isEmpty (t : Tree) : Bool :=
  match t.shape with
  | .empty => true
  | _ => false

/-- Whether the tree stands for a type. -/
def isType : Tree → Bool
  | ⟨_, .ident n⟩ | ⟨_, .select _ n⟩ => n.isType
  | ⟨_, .annotated _ arg⟩ => arg.isType
  | ⟨_, .typeTree _⟩ | ⟨_, .singletonType _⟩ | ⟨_, .typeSelect _ _⟩ | ⟨_, .appliedType _ _⟩
  | ⟨_, .typeBounds _ _⟩ | ⟨_, .existentialType _ _⟩ | ⟨_, .compoundType _⟩ => true
  | _ => false

/-- The name a declaration introduces. -/
def declaredName? (t : Tree) : Option Name :=
  match t.shape with
  | .bind n _ | .valDef _ n _ _ | .defDef _ n _ _ _ _ | .typeDef _ n _ _ | .classDef _ n _ _
  | .moduleDef _ n _ => some n
  | _ => none

def symbol (t : Tree) : Option SymbolId := t.info.symbol

def takeInfo (t other : Tree) : Tree := ⟨t.info.takeFrom other.info, t.shape⟩

def detached (t : Tree) : Tree := ⟨t.info.detached, t.shape⟩

theorem sizeOf_lt_of_mem_subtrees {i : Info} {s : Shape Tree} {c : Tree} (h : c ∈ s.subtrees) :
    sizeOf c < sizeOf (⟨i, s⟩ : Tree) := by
  have := Shape.sizeOf_lt_of_mem_subtrees h
  simp
  omega

/-- To prove a statement of all trees, take it as known of what is below a node. -/
theorem induct {motive : Tree → Prop}
    (node : ∀ i s, (∀ c ∈ s.subtrees, motive c) → motive ⟨i, s⟩) (t : Tree) : motive t := by
  obtain ⟨i, s⟩ := t
  exact node i s fun c h => induct node c
termination_by sizeOf t
decreasing_by exact sizeOf_lt_of_mem_subtrees h

/-- The nodes of a tree. A resolved type is there twice, as its written form may gain a node when it
is made into a full path. -/
def nodes : Tree → List Tree
  | ⟨i, s⟩ =>
    (if s.written.isSome then [⟨i, s⟩, ⟨i, s⟩] else [⟨i, s⟩]) ++
      s.subtrees.attach.flatMap fun ⟨c, _⟩ => c.nodes
termination_by t => sizeOf t
decreasing_by exact sizeOf_lt_of_mem_subtrees ‹_›

def size (t : Tree) : Nat := t.nodes.length

@[simp]
theorem length_nodes (t : Tree) : t.nodes.length = t.size := rfl

theorem size_mk (i : Info) (s : Shape Tree) :
    (⟨i, s⟩ : Tree).size =
      (if s.written.isSome then 2 else 1) + (s.subtrees.flatMap nodes).length := by
  rw [size, nodes, List.length_append]
  congr 1
  · split <;> rfl
  · simp

theorem size_empty : empty.size = 1 := by
  simp [empty, bare, size_mk, Shape.written, Shape.subtrees, Shape.children]

theorem size_pos (t : Tree) : 0 < t.size := by
  obtain ⟨i, s⟩ := t
  rw [size_mk]
  split <;> omega

theorem size_le_of_mem {l : List Tree} {c : Tree} (h : c ∈ l) :
    c.size ≤ (l.flatMap nodes).length := by
  rw [List.flatMap_def]
  exact (List.sublist_flatten_of_mem (List.mem_map_of_mem h)).length_le

theorem size_lt_of_mem_subtrees {t c : Tree} (h : c ∈ t.subtrees) : c.size < t.size := by
  have := size_le_of_mem h
  obtain ⟨i, s⟩ := t
  rw [size_mk]
  simp only [Tree.subtrees] at this
  split <;> omega

theorem size_lt_of_mem_children {t c : Tree} (h : c ∈ t.children) : c.size < t.size :=
  size_lt_of_mem_subtrees (List.mem_append_left _ h)

/-- Equal as written: the same syntax, whatever is attached to it, with constants compared by
value. -/
def same : Tree → Tree → Bool
  | ⟨_, s⟩, ⟨_, u⟩ =>
    s.outline == u.outline &&
      (s.subtrees.attach.zip u.subtrees).all fun (⟨c, _⟩, d) => same c d
termination_by t _ => t.size
decreasing_by exact size_lt_of_mem_subtrees ‹_›

end Tree

/-- Equal as written, annotations included. -/
def Modifiers.same (a b : Modifiers Tree) : Bool :=
  a.flags == b.flags && a.within == b.within &&
    a.annotations.length == b.annotations.length &&
    (a.annotations.zip b.annotations).all fun (x, y) => x.same y

end TreeRepair
