import TreeRepair.Flag
import TreeRepair.Text

namespace TreeRepair

/-- A finite set of texts, listed in increasing order so that equal sets are equal lists. -/
structure NameSet where
  names : List String
  increasing : names.Pairwise (· < ·)
deriving DecidableEq

namespace NameSet

def insertName (x : String) : List String → List String
  | [] => [x]
  | y :: ys => if x < y then x :: y :: ys else if x = y then y :: ys else y :: insertName x ys

theorem mem_insertName {a x : String} {l : List String} :
    a ∈ insertName x l ↔ a = x ∨ a ∈ l := by
  induction l with
  | nil => simp [insertName]
  | cons y ys ih =>
    simp only [insertName]
    split
    · simp
    · split
      · simp_all
      · simp only [List.mem_cons, ih]
        grind

theorem insertName_increasing (x : String) {l : List String} (h : l.Pairwise (· < ·)) :
    (insertName x l).Pairwise (· < ·) := by
  induction l with
  | nil => simp [insertName]
  | cons y ys ih =>
    obtain ⟨hy, hys⟩ := List.pairwise_cons.mp h
    simp only [insertName]
    split
    next hlt =>
      refine List.pairwise_cons.mpr ⟨fun b hb => ?_, h⟩
      rcases List.mem_cons.mp hb with rfl | hb
      · exact hlt
      · exact String.lt_trans hlt (hy b hb)
    next hlt =>
      split
      next => exact h
      next hne =>
        refine List.pairwise_cons.mpr ⟨fun b hb => ?_, ih hys⟩
        rcases mem_insertName.mp hb with rfl | hb
        · exact String.not_le.mp fun hle => hne (String.le_antisymm hle (String.not_lt.mp hlt))
        · exact hy b hb

def empty : NameSet := ⟨[], .nil⟩

def insert (s : NameSet) (x : String) : NameSet :=
  ⟨insertName x s.names, insertName_increasing x s.increasing⟩

def ofList (l : List String) : NameSet := l.foldl insert empty

def contains (s : NameSet) (x : String) : Bool := s.names.contains x

end NameSet

/-- The names and flags by which a checker marks what it generates. -/
structure Conventions where
  /-- Members generated for case classes and their companions. -/
  generatedNames : NameSet := .ofList
    ["apply", "canEqual", "copy", "equals", "hashCode", "productArity", "productElement",
     "productIterator", "productPrefix", "readResolve", "toString", "unapply"]
  /-- Beginnings of names of such members. -/
  generatedBeginnings : List String := ["copy$"]
  /-- Flags that a declaration keeps. -/
  keptFlags : Flags := .roundTrip
  /-- The package whose members need no import. -/
  injectedPackage : String := "scala"
  /-- The name at which full paths start. -/
  rootName : String := "_root_"
  constructorName : String := "<init>"
  /-- The constructor's name as a part of other names. -/
  constructorEncoded : String := "$lessinit$greater"
  traitInitializer : String := "$init$"
  /-- Stands in the names of methods that compute default arguments. -/
  defaultMarker : String := "$default$"
  /-- Ends the names of moved copies of such methods. -/
  movedEnding : String := "$macro"
  /-- Ends type names that stand for the type of a single value. -/
  singletonEnding : String := ".type"
  /-- Begins the names of anonymous classes. -/
  anonymousBeginning : String := "$anon"
  /-- The argument with which a checked extractor pattern calls its extractor. -/
  extractorArgument : String := "<unapply-selector>"
  extractorNames : NameSet := .ofList ["unapply", "unapplySeq"]
  /-- Whether a case class that cannot be cleaned stops the run. -/
  strict : Bool := true
deriving DecidableEq

/-- Whether a member of that name is generated for case classes. -/
def Conventions.isGenerated (C : Conventions) (name : String) : Bool :=
  C.generatedNames.contains name || C.generatedBeginnings.any (Text.startsWith name)

end TreeRepair
