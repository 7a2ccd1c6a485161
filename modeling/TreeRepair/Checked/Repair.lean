import TreeRepair.Checked.DefaultArguments
import TreeRepair.Tree.Traversal

namespace TreeRepair

/-- A value declaration. -/
structure Field where
  info : Info
  mods : Modifiers Tree
  name : Name
  tpt : Tree
  rhs : Tree

def Field.toTree (f : Field) : Tree := ⟨f.info, .valDef f.mods f.name f.tpt f.rhs⟩

def Tree.field? : Tree → Option Field
  | ⟨i, .valDef mods name tpt rhs⟩ => some ⟨i, mods, name, tpt, rhs⟩
  | _ => none

/-- The right-hand side of the first assignment, or the whole tree if there is none. -/
def Tree.initializer (t : Tree) : Tree :=
  (t.preorder.findSome? fun n =>
    match n.shape with
    | .assign _ rhs => some rhs
    | _ => none).getD t

/-- Adds an annotation unless one that is written the same is there already. -/
def addIfNew (present : List Tree) (a : Tree) : List Tree :=
  if present.any (·.same a) then present else present ++ [a]

/-- The declared annotations, followed by those of the recorded ones that are new. -/
def addAnnotations (declared : List Tree) (recorded : List (List Tree)) : List Tree :=
  recorded.foldl (fun present source => source.foldl addIfNew present) declared

/-- What has to be known about a checked tree before any part of it can be repaired. -/
structure Repair where
  setting : Setting
  /-- Value declarations by their getters and setters, in the order of the tree. -/
  fields : List (SymbolId × Field)
  /-- Whether the tree belongs to the package whose members need no import. -/
  injected : Bool
  /-- Helpers for default arguments that the tree refers to. -/
  usedHelpers : List SymbolId

namespace Setting

variable (W : Setting)

/-- The accessors of a value declaration. -/
def accessors (t : Tree) : List (SymbolId × Field) :=
  match t.field?, t.symbol with
  | some f, some s =>
    if (W.symbols.get s).isTerm then
      ((W.symbols.get s).getter.toList ++ (W.symbols.get s).setter.toList).map (·, f)
    else []
  | _, _ => []

def definedHelpers (t : Tree) : List SymbolId :=
  t.preorder.filterMap fun n => if W.isDefaultHelper n then n.symbol else none

def usedHelpers (t : Tree) : List SymbolId :=
  let defined := W.definedHelpers t
  t.preorder.filterMap fun n =>
    match n.shape with
    | .select _ _ => n.symbol.filter defined.contains
    | _ => none

end Setting

namespace Repair

def ofTree (W : Setting) (owner : Option SymbolId) (t : Tree) : Repair where
  setting := W
  fields := t.preorder.flatMap W.accessors
  injected := W.isInjected owner
  usedHelpers := W.usedHelpers t

variable (R : Repair)

def get (s : SymbolId) : Symbol := R.setting.symbols.get s

/-- The declaration of a field by its getter or setter; the last one recorded counts. -/
def fieldOf? (s : SymbolId) : Option Field := R.fields.reverse.lookup s

/-- The flags of a declaration that a second check accepts. -/
def keptFlags (mods : Modifiers Tree) : Flags :=
  (mods.restrict R.setting.conventions.keptFlags).flags

/-- The qualifier of a private declaration, as the checker resolved it. -/
def within (s : SymbolId) (mods : Modifiers Tree) : Name :=
  match (R.get s).privateWithin with
  | some p => (R.get p).name.toType
  | none => mods.within

/-- Annotations as written and as recorded for symbols. -/
def annotations (deeper : Tree → Tree) (mods : Modifiers Tree) (symbols : List SymbolId) :
    List Tree :=
  addAnnotations mods.annotations (symbols.map fun s => (R.get s).annotations.map deeper)

/-- An identifier stays, unless it was found without an import: then the full path is written. -/
def identifier (i : Info) (name : Name) : Tree :=
  match i.symbol with
  | some s =>
    if (R.get s).isTerm && R.setting.isInjected (some s) && !R.injected then
      (R.setting.path s).takeInfo ⟨i, .ident name⟩
    else ⟨i, .ident name⟩
  | none => ⟨i, .ident name⟩

/-- A selection is spelled as its symbol is named; one of a default argument goes to the moved
copy and is resolved anew. -/
def selection (i : Info) (name : Name) : Info × Name :=
  match i.symbol with
  | some s =>
    if R.usedHelpers.contains s then
      let ending := R.setting.conventions.movedEnding
      ({ pos := i.pos },
        if Text.endsWith name.text ending then name else .term (name.text ++ ending))
    else ({ i with marks := {} }, (R.get s).name)
  | none => (i, name)

/-- The qualifiers of the extractor methods that a function refers to. -/
def extractors (fn : Tree) : List Tree :=
  fn.preorder.filterMap fun n =>
    match n.shape with
    | .select q name =>
      if R.setting.conventions.extractorNames.contains name.text then some q else none
    | _ => none

/-- The extractor of a checked pattern, if its function is applied to the placeholder and refers
to one extractor only. -/
def extractor? : Tree → Option Tree
  | ⟨_, .apply fn [⟨_, .ident (.term arg)⟩]⟩ =>
    if arg = R.setting.conventions.extractorArgument then
      match R.extractors fn with
      | [e] => some e
      | _ => none
    else none
  | _ => none

/-- Whether a value declaration only stores what its accessors give access to. -/
def isStorage (i : Info) (tpt rhs : Tree) : Bool :=
  match i.symbol, tpt.shape with
  | some s, .typeTree _ =>
    let sym := R.get s
    sym.isTerm &&
      (sym.isLazy && sym.isArtifact && rhs.isEmpty ||
        sym.isPrivateThis && sym.getter.any fun g => (R.fieldOf? g).isSome)
  | _, _ => false

/-- What a checked method stands for. -/
inductive Role where
  | setter
  | getter (s : SymbolId) (f : Field)
  | lazyValue (s : SymbolId)
  | method (s : SymbolId)
  | unresolved

def lazyGetter? (symbol : Option SymbolId) : Option SymbolId :=
  symbol.filter fun s => (R.get s).isTerm && (R.get s).isLazy && (R.get s).isGetter

def role (symbol : Option SymbolId) : Role :=
  match symbol with
  | none => .unresolved
  | some s =>
    let sym := R.get s
    if sym.isSetter then .setter
    else
      match (if sym.isTerm && !sym.isLazy && sym.isGetter then R.fieldOf? s else none),
        R.lazyGetter? symbol with
      | some f, _ => .getter s f
      | none, some s => .lazyValue s
      | none, none => if sym.isTerm then .method s else .unresolved

/-- The field that a getter gives access to, declared under the getter's name. -/
def accessedField (deeper : Tree → Tree) (s : SymbolId) (f : Field) (mods : Modifiers Tree)
    (name : Name) : Tree :=
  let isVariable := f.info.symbol.any fun v => (R.get v).isVariable
  let flags := if isVariable then (R.keptFlags mods).insert .mutable else R.keptFlags mods
  ⟨{ symbol := some s, type := f.info.type, pos := f.info.pos },
    .valDef ⟨flags, R.within s mods, R.annotations deeper mods (s :: f.info.symbol.toList)⟩ name
      (deeper f.tpt) (deeper f.rhs)⟩

/-- The lazy value that a getter computes, given its repaired type and initial value. -/
def lazyValue (deeper : Tree → Tree) (s : SymbolId) (i : Info) (mods : Modifiers Tree)
    (name : Name) (tpt rhs : Tree) : Tree :=
  let field := R.fieldOf? s
  let source := (field.map Field.info).getD i
  let recorded := s :: (field.bind fun f => f.info.symbol).toList
  ⟨{ symbol := some s, type := source.type, pos := source.pos },
    .valDef ⟨R.keptFlags mods, R.within s mods, R.annotations deeper mods recorded⟩ name tpt rhs⟩

/-- The data and modifiers of a method that stays one. -/
def methodParts (deeper : Tree → Tree) (s : SymbolId) (i : Info) (mods : Modifiers Tree)
    (name : Name) : Info × Modifiers Tree :=
  ({ symbol := if name.text = R.setting.conventions.traitInitializer then none else some s
     type := i.type, pos := i.pos },
   ⟨R.keptFlags mods, R.within s mods, R.annotations deeper mods [s]⟩)

end Repair

theorem Tree.size_initializer_le (t : Tree) : t.initializer.size ≤ t.size := by
  unfold initializer
  cases h : t.preorder.findSome? _ with
  | none => exact Nat.le_refl _
  | some r =>
    obtain ⟨n, hn, hr⟩ := List.exists_of_findSome?_eq_some h
    split at hr
    next hs =>
      cases hr
      have hle := size_le_of_mem_preorder hn
      have : r ∈ n.children := by simp [Tree.children, hs, Shape.children]
      have := size_lt_of_mem_children this
      simp only [Option.getD_some]
      omega
    next => simp at hr

theorem Repair.size_lt_of_mem_extractors (R : Repair) {fn e : Tree} (h : e ∈ R.extractors fn) :
    e.size < fn.size := by
  obtain ⟨n, hn, he⟩ := List.mem_filterMap.mp h
  split at he
  next hs =>
    split at he
    · cases he
      have hle := Tree.size_le_of_mem_preorder hn
      have : e ∈ n.children := by simp [Tree.children, hs, Shape.children]
      have := Tree.size_lt_of_mem_children this
      omega
    · simp at he
  next => simp at he

theorem Repair.size_lt_of_extractor? (R : Repair) {fn e : Tree} (h : R.extractor? fn = some e) :
    e.size < fn.size := by
  unfold extractor? at h
  split at h
  next i f j arg =>
    split at h
    · split at h
      next e' hl =>
        cases h
        have := R.size_lt_of_mem_extractors (by rw [hl]; simp : e ∈ R.extractors f)
        have : f ∈ (⟨i, .apply f [⟨j, .ident (.term arg)⟩]⟩ : Tree).children := by
          simp [Tree.children, Shape.children]
        have := Tree.size_lt_of_mem_children this
        omega
      next => simp at h
    · simp at h
  next => simp at h

namespace Repair

variable (R : Repair)

/-- Repairs a tree, where another function repairs what comes from symbols: their annotations and
the declarations of their fields. -/
def treeWith (deeper : Tree → Tree) : Tree → Tree
  | ⟨i, .typeTree (some w)⟩ => ⟨i, .typeTree (some (treeWith deeper w))⟩
  | ⟨i, .ident name⟩ => R.identifier i name
  | ⟨i, .select q name⟩ =>
    ⟨(R.selection i name).1, .select (treeWith deeper q) (R.selection i name).2⟩
  | ⟨i, .unapply fn args⟩ =>
    match _h : R.extractor? fn with
    | some e =>
      ⟨{ e.info with marks := {} }, .apply (treeWith deeper e) (args.map (treeWith deeper))⟩
    | none => ⟨i, .unapply (treeWith deeper fn) (args.map (treeWith deeper))⟩
  | ⟨i, .valDef mods name tpt rhs⟩ =>
    if R.isStorage i tpt rhs then .empty
    else
      match R.lazyGetter? i.symbol with
      | some s =>
        R.lazyValue deeper s i mods name
          (match R.fieldOf? s with
           | some f => deeper f.tpt
           | none => treeWith deeper tpt)
          (treeWith deeper rhs.initializer)
      | none =>
        ⟨i, .valDef { mods with annotations := mods.annotations.map (treeWith deeper) } name
          (treeWith deeper tpt) (treeWith deeper rhs)⟩
  | ⟨i, .defDef mods name tparams vparamss tpt rhs⟩ =>
    match R.role i.symbol with
    | .setter => .empty
    | .getter s f => R.accessedField deeper s f mods name
    | .lazyValue s =>
      R.lazyValue deeper s i mods name
        (match R.fieldOf? s with
         | some f => deeper f.tpt
         | none => treeWith deeper tpt)
        (treeWith deeper rhs.initializer)
    | .method s =>
      ⟨(R.methodParts deeper s i mods name).1,
        .defDef (R.methodParts deeper s i mods name).2 name (tparams.map (treeWith deeper))
          (vparamss.map fun vs => vs.map (treeWith deeper)) (treeWith deeper tpt)
          (treeWith deeper rhs)⟩
    | .unresolved =>
      ⟨i, .defDef { mods with annotations := mods.annotations.map (treeWith deeper) } name
        (tparams.map (treeWith deeper)) (vparamss.map fun vs => vs.map (treeWith deeper))
        (treeWith deeper tpt) (treeWith deeper rhs)⟩
  | ⟨i, s⟩ =>
    ⟨i, (R.setting.settleShape R.usedHelpers s).pmapChildren fun c _ => treeWith deeper c⟩
termination_by t => t.size
decreasing_by
  all_goals first
    | exact R.setting.size_lt_of_mem_settleShape R.usedHelpers ‹_›
    | refine Nat.lt_trans (R.size_lt_of_extractor? _h) (Tree.size_lt_of_mem_children ?_)
      simp [Tree.children, Shape.children]
    | refine Nat.lt_of_le_of_lt (Tree.size_initializer_le rhs) (Tree.size_lt_of_mem_children ?_)
      simp [Tree.children, Shape.children]
    | refine Tree.size_lt_of_mem_children ?_
      simp only [Tree.children, Shape.children, List.mem_append, List.mem_flatten]
      exact .inl (.inr ⟨vs, ‹_›, ‹_›⟩)
    | refine Tree.size_lt_of_mem_subtrees ?_
      simp [Tree.subtrees, Shape.subtrees, Shape.children, Shape.written, *]

def treeWithin : Nat → Tree → Tree
  | 0 => fun t => t
  | n + 1 => R.treeWith (treeWithin n)

/-- Repairs a part of the checked tree. A repair that comes to an end enters the annotations of each
symbol and the declaration of each field at most once on the way. Of any other, nothing is to be had:
`Repair.finishes` tells them apart. -/
def tree (t : Tree) : Tree := R.treeWithin (R.fields.length + R.setting.symbols.bound) t

end Repair

/-- Restores what a checker changed in a tree, so that the tree can be checked again: patterns,
fields with accessors, lazy values, default arguments and names found without an import. -/
def Setting.repairChecked (W : Setting) (owner : Option SymbolId) (t : Tree) : Tree :=
  (Repair.ofTree W owner t).tree t

end TreeRepair
