namespace TreeRepair

/-- Properties of a declaration, in the order in which they are listed and numbered. -/
inductive Flag where
  | abstract | artifact | byNameParam | caseDecl | caseAccessor | contravariant | covariant
  | defaultInit | defaultParam | deferred | final | implicit | lazy | objectLocal | macroDecl
  | mutable | override | param | paramAccessor | preSuper | privateMember | protectedMember
  | sealed | synthetic
  | stable | accessor | getter | setter | method | module | trait | interface | lifted
  | expandedName
deriving DecidableEq

namespace Flag

def all : List Flag :=
  [abstract, artifact, byNameParam, caseDecl, caseAccessor, contravariant, covariant,
   defaultInit, defaultParam, deferred, final, implicit, lazy, objectLocal, macroDecl,
   mutable, override, param, paramAccessor, preSuper, privateMember, protectedMember,
   sealed, synthetic,
   stable, accessor, getter, setter, method, module, trait, interface, lifted,
   expandedName]

def index (f : Flag) : Nat := f.ctorIdx

/-- The name under which a flag is listed in a configuration. -/
def name : Flag → String
  | abstract => "ABSTRACT"
  | artifact => "ARTIFACT"
  | byNameParam => "BYNAMEPARAM"
  | caseDecl => "CASE"
  | caseAccessor => "CASEACCESSOR"
  | contravariant => "CONTRAVARIANT"
  | covariant => "COVARIANT"
  | defaultInit => "DEFAULTINIT"
  | defaultParam => "DEFAULTPARAM"
  | deferred => "DEFERRED"
  | final => "FINAL"
  | implicit => "IMPLICIT"
  | lazy => "LAZY"
  | objectLocal => "LOCAL"
  | macroDecl => "MACRO"
  | mutable => "MUTABLE"
  | override => "OVERRIDE"
  | param => "PARAM"
  | paramAccessor => "PARAMACCESSOR"
  | preSuper => "PRESUPER"
  | privateMember => "PRIVATE"
  | protectedMember => "PROTECTED"
  | sealed => "SEALED"
  | synthetic => "SYNTHETIC"
  | stable => "STABLE"
  | accessor => "ACCESSOR"
  | getter => "GETTER"
  | setter => "SETTER"
  | method => "METHOD"
  | module => "MODULE"
  | trait => "TRAIT"
  | interface => "INTERFACE"
  | lifted => "LIFTED"
  | expandedName => "EXPANDEDNAME"

def ofName? (s : String) : Option Flag := all.find? fun f => f.name == s

theorem mem_all (f : Flag) : f ∈ all := by cases f <;> decide

theorem index_lt (f : Flag) : f.index < 34 := by cases f <;> decide

theorem all_index (f : Flag) : all[f.index]? = some f := by cases f <;> rfl

theorem index_inj {f g : Flag} : f.index = g.index ↔ f = g := by
  refine ⟨fun h => ?_, congrArg index⟩
  have := f.all_index
  rw [h, g.all_index] at this
  exact (Option.some.inj this).symm

theorem exists_index {i : Nat} (h : i < 34) : ∃ f : Flag, f.index = i := by
  have found : ∀ i : Fin 34, ∃ f ∈ all, f.index = i := by decide
  obtain ⟨f, -, index⟩ := found ⟨i, h⟩
  exact ⟨f, index⟩

theorem ofName?_eq_some_iff {s : String} {f : Flag} : ofName? s = some f ↔ f.name = s := by
  have found : ofName? f.name = some f := by cases f <;> decide
  constructor
  · intro h
    simpa using List.find?_some h
  · rintro rfl
    exact found

theorem eq_of_name {f g : Flag} (h : f.name = g.name) : f = g := by
  have found := ofName?_eq_some_iff.mpr h
  rw [ofName?_eq_some_iff.mpr rfl] at found
  exact (Option.some.inj found).symm

end Flag

/-- A set of flags, one bit for each. -/
structure Flags where
  bits : BitVec 34
deriving DecidableEq

namespace Flags

def none : Flags := ⟨0⟩

def has (fs : Flags) (f : Flag) : Bool := fs.bits.getLsbD f.index

def single (f : Flag) : Flags := ⟨BitVec.twoPow 34 f.index⟩

def inter (fs gs : Flags) : Flags := ⟨fs.bits &&& gs.bits⟩

def union (fs gs : Flags) : Flags := ⟨fs.bits ||| gs.bits⟩

def insert (fs : Flags) (f : Flag) : Flags := fs.union (single f)

def ofList (l : List Flag) : Flags := l.foldl insert none

def toList (fs : Flags) : List Flag := Flag.all.filter fs.has

/-- The flags that a second check accepts; the others belong to the checker alone. -/
def roundTrip : Flags := ofList (Flag.all.take 24)

@[simp] theorem has_none (f : Flag) : none.has f = false := by
  simp [has, none]

@[simp] theorem has_inter (fs gs : Flags) (f : Flag) :
    (fs.inter gs).has f = (fs.has f && gs.has f) := by
  simp [has, inter]

@[simp] theorem has_union (fs gs : Flags) (f : Flag) :
    (fs.union gs).has f = (fs.has f || gs.has f) := by
  simp [has, union]

@[simp] theorem has_insert (fs : Flags) (f g : Flag) :
    (fs.insert f).has g = (fs.has g || g == f) := by
  have single : (Flags.single f).has g = (g == f) := by
    simp only [Flags.single, has, BitVec.getLsbD_twoPow, Flag.index_inj]
    rw [decide_eq_true f.index_lt, Bool.true_and, Bool.beq_eq_decide_eq]
    exact decide_eq_decide.mpr eq_comm
  simp only [insert, has_union, single]

/-- Sets are equal if they have the same flags. -/
theorem eq_of_has {fs gs : Flags} (h : ∀ f, fs.has f = gs.has f) : fs = gs := by
  obtain ⟨bits⟩ := fs
  obtain ⟨bits'⟩ := gs
  congr
  refine BitVec.eq_of_getLsbD_eq fun i hi => ?_
  obtain ⟨f, rfl⟩ := Flag.exists_index hi
  exact h f

theorem has_ofList {l : List Flag} {f : Flag} : (ofList l).has f = true ↔ f ∈ l := by
  have inserted (fs : Flags) : (l.foldl insert fs).has f = true ↔ fs.has f = true ∨ f ∈ l := by
    induction l generalizing fs with
    | nil => simp
    | cons g l ih => simp [ih, or_assoc]
  rw [ofList, inserted none]
  simp

end Flags

end TreeRepair
