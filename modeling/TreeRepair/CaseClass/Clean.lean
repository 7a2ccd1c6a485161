import TreeRepair.Setting

namespace TreeRepair

/-- A case class or case object that stands where its companion cannot be seen. -/
structure Misplaced where
  pos : Position
  name : Name
deriving DecidableEq

namespace Misplaced

def failure (m : Misplaced) : Failure :=
  ⟨m.pos, "case class or object " ++ m.name.text ++ " is nested outside a statement list; " ++
    "its generated members cannot be removed"⟩

def warning (m : Misplaced) : String := m.failure.text ++ ", leaving it unchanged"

end Misplaced

/-- The name of a case class or case object. -/
def Shape.caseName? {α : Type} : Shape α → Option Name
  | .classDef mods name _ _ | .moduleDef mods name _ =>
    if mods.has .caseDecl then some name else none
  | _ => none

/-- The names of the case classes among some statements, as their companions are named. -/
def caseClassNames (stats : List Tree) : List Name :=
  stats.filterMap fun t =>
    match t.shape with
    | .classDef mods name _ _ => if mods.has .caseDecl then some name.toTerm else none
    | _ => none

/-- The statements of a node; the result of a block comes first. -/
def Shape.statements {α : Type} : Shape α → List α
  | .template _ _ body => body
  | .packageDef _ stats => stats
  | .block stats expr => expr :: stats
  | _ => []

theorem Shape.statements_mapChildren {α : Type} (f : α → α) (s : Shape α) :
    (s.mapChildren f).statements = s.statements.map f := by
  cases s <;> rfl

namespace Conventions

variable (C : Conventions)

def isGeneratedMember (t : Tree) : Bool :=
  match t.shape with
  | .defDef mods name _ _ _ _ => mods.has .synthetic && C.isGenerated name.text
  | _ => false

/-- The body of a class or module without the members generated for case classes. -/
def withoutGenerated (impl : Tree) : Tree :=
  match impl with
  | ⟨i, .template parents self body⟩ =>
    ⟨i, .template parents self (body.filter fun t => !C.isGeneratedMember t)⟩
  | t => t

/-- Cleans a case class, a case object, or the companion of a case class of one of the given
names, which goes away if it is generated. -/
def cleanStatement (names : List Name) (t : Tree) : Tree :=
  match t with
  | ⟨i, .moduleDef mods name impl⟩ =>
    if names.contains name && mods.has .synthetic then .empty
    else if names.contains name || mods.has .caseDecl then
      ⟨i.mark .cleaned, .moduleDef mods name (C.withoutGenerated impl)⟩
    else t
  | ⟨i, .classDef mods name tparams impl⟩ =>
    if mods.has .caseDecl then
      ⟨i.mark .cleaned, .classDef mods name tparams (C.withoutGenerated impl)⟩
    else t
  | t => t

def cleanStatements (stats : List Tree) : List Tree :=
  stats.map (C.cleanStatement (caseClassNames stats))

/-- A node whose statements, if it has any, are cleaned. -/
def cleanShape : Shape Tree → Shape Tree
  | .template parents self body => .template parents self (C.cleanStatements body)
  | .packageDef pid stats => .packageDef pid (C.cleanStatements stats)
  | .block stats expr =>
    let names := caseClassNames (expr :: stats)
    .block (stats.map (C.cleanStatement names)) (C.cleanStatement names expr)
  | s => s

theorem size_withoutGenerated_le (impl : Tree) : (C.withoutGenerated impl).size ≤ impl.size := by
  unfold withoutGenerated
  split
  next i parents self body =>
    have filtered (l : List Tree) (p : Tree → Bool) :
        ((l.filter p).flatMap Tree.nodes).length ≤ (l.flatMap Tree.nodes).length := by
      induction l with
      | nil => simp
      | cons a l ih =>
        rw [List.filter_cons]
        split <;> simp only [List.flatMap_cons, List.length_append] <;> omega
    have := filtered body fun t => !C.isGeneratedMember t
    simp only [Tree.size_mk, Shape.written, Shape.subtrees, Shape.children, List.flatMap_append,
      List.flatMap_cons, List.length_append, Option.isSome_none, Bool.false_eq_true, ↓reduceIte]
    omega
  next => exact Nat.le_refl _

theorem size_cleanStatement_le (names : List Name) (t : Tree) :
    (C.cleanStatement names t).size ≤ t.size := by
  unfold cleanStatement
  split
  next i mods name impl =>
    have := C.size_withoutGenerated_le impl
    split
    · have := (⟨i, .moduleDef mods name impl⟩ : Tree).size_pos
      rw [Tree.size_empty]
      omega
    · split
      · simp [Tree.size_mk, Shape.written, Shape.subtrees, Shape.children]
        omega
      · exact Nat.le_refl _
  next i mods name tparams impl =>
    have := C.size_withoutGenerated_le impl
    split
    · simp [Tree.size_mk, Shape.written, Shape.subtrees, Shape.children]
      omega
    · exact Nat.le_refl _
  next => exact Nat.le_refl _

/-- Cleaning statements leaves nothing below a node that is as large as the node was. -/
theorem size_lt_of_mem_cleanShape {i : Info} {s : Shape Tree} {c : Tree}
    (h : c ∈ (C.cleanShape s).children) : c.size < (⟨i, s⟩ : Tree).size := by
  have below {names : List Name} {t : Tree} (ht : t ∈ s.children)
      (hc : C.cleanStatement names t = c) : c.size < (⟨i, s⟩ : Tree).size := by
    have := C.size_cleanStatement_le names t
    have := Tree.size_lt_of_mem_children (t := ⟨i, s⟩) ht
    rw [← hc]
    omega
  unfold cleanShape at h
  split at h
  next parents self body =>
    simp only [Shape.children, List.mem_append, List.mem_cons] at h
    rcases h with h | rfl | h
    · exact Tree.size_lt_of_mem_children (by simp [Tree.children, Shape.children, h])
    · exact Tree.size_lt_of_mem_children (by simp [Tree.children, Shape.children])
    · obtain ⟨t, ht, hc⟩ := List.mem_map.mp h
      exact below (by simp [Shape.children, ht]) hc
  next pid stats =>
    simp only [Shape.children, List.mem_cons] at h
    rcases h with rfl | h
    · exact Tree.size_lt_of_mem_children (by simp [Tree.children, Shape.children])
    · obtain ⟨t, ht, hc⟩ := List.mem_map.mp h
      exact below (by simp [Shape.children, ht]) hc
  next stats expr =>
    simp only [Shape.children, List.mem_append, List.mem_singleton] at h
    rcases h with h | h
    · obtain ⟨t, ht, hc⟩ := List.mem_map.mp h
      exact below (by simp [Shape.children, ht]) hc
    · exact below (by simp [Shape.children]) h.symm
  next => exact Tree.size_lt_of_mem_children h

/-- Cleans all case classes and companions that stand among statements. -/
def cleanTree : Tree → Tree
  | ⟨i, s⟩ => ⟨i, (C.cleanShape s).pmapChildren fun c _ => cleanTree c⟩
termination_by t => t.size
decreasing_by exact C.size_lt_of_mem_cleanShape ‹_›

/-- The case classes and case objects that do not stand among statements, parents first and from
left to right; what cleaning removes does not count. -/
def misplaced : Tree → List Misplaced
  | ⟨i, s⟩ =>
    (if i.marks.cleaned then [] else (s.caseName?.map fun name => ⟨i.pos, name⟩).toList) ++
      (C.cleanShape s).children.attach.flatMap fun ⟨c, _⟩ => misplaced c
termination_by t => t.size
decreasing_by exact C.size_lt_of_mem_cleanShape ‹_›

end Conventions

namespace Setting

variable (W : Setting)

/-- The symbols of the case classes, case objects and companions among some statements, and of the
classes of the latter two. -/
def caseSymbols (stats : List Tree) : List SymbolId :=
  stats.flatMap fun t =>
    match t.shape with
    | .classDef mods _ _ _ => if mods.has .caseDecl then t.symbol.toList else []
    | .moduleDef mods name _ =>
      if mods.has .caseDecl || (caseClassNames stats).contains name then
        t.symbol.toList ++ (t.symbol.bind fun s => (W.symbols.get s).moduleClass).toList
      else []
    | _ => []

/-- The symbols of all that is cleaned below a node. -/
def cleanedSymbols : Tree → List SymbolId
  | ⟨_, s⟩ =>
    W.caseSymbols s.statements ++
      (W.conventions.cleanShape s).children.attach.flatMap fun ⟨c, _⟩ => cleanedSymbols c
termination_by t => t.size
decreasing_by exact W.conventions.size_lt_of_mem_cleanShape ‹_›

end Setting

end TreeRepair
