import Mathlib.Data.List.Sort
import TreeRepair.Conventions.Table

namespace TreeRepair

namespace NameSet

theorem mem_ofList {l : List String} {x : String} : x ∈ (ofList l).names ↔ x ∈ l := by
  have inserted (s : NameSet) : x ∈ (l.foldl insert s).names ↔ x ∈ s.names ∨ x ∈ l := by
    induction l generalizing s with
    | nil => simp
    | cons y l ih => simp [ih, insert, mem_insertName, or_assoc, or_left_comm]
  rw [ofList, inserted empty]
  simp [empty]

/-- Sets are equal if they have the same members. -/
theorem eq_of_mem_iff {s t : NameSet} (h : ∀ x, x ∈ s.names ↔ x ∈ t.names) : s = t := by
  obtain ⟨l, increasing⟩ := s
  obtain ⟨k, increasing'⟩ := t
  congr
  exact increasing.eq_of_mem_iff increasing' h

end NameSet

namespace Toml.Value

/-- A list of texts. -/
def ofStrings (l : List String) : Value := .list (l.map fun s => .constant (.string s))

theorem string?_eq_some_iff {v : Value} {s : String} :
    v.string? = some s ↔ v = .constant (.string s) := by
  refine ⟨fun h => ?_, fun h => by rw [h]; rfl⟩
  unfold string? at h
  split at h
  · cases h
    rfl
  · cases h

theorem bool?_eq_some_iff {v : Value} {b : Bool} : v.bool? = some b ↔ v = .constant (.bool b) := by
  refine ⟨fun h => ?_, fun h => by rw [h]; rfl⟩
  unfold bool? at h
  split at h
  · cases h
    rfl
  · cases h

theorem strings?_eq_some_iff {v : Value} {l : List String} :
    v.strings? = some l ↔ v = .ofStrings l := by
  have items (vs : List Value) : vs.mapM string? = some l ↔
      vs = l.map fun s => .constant (.string s) := by
    induction vs generalizing l with
    | nil =>
      cases l with
      | nil => simp
      | cons s l => simp
    | cons v vs ih =>
      cases l with
      | nil => simp [List.mapM_cons, Option.bind_eq_some_iff]
      | cons s l => simp [List.mapM_cons, Option.bind_eq_some_iff, string?_eq_some_iff, ih]
  cases v <;> simp [strings?, ofStrings, items]

theorem ofStrings_inj {l k : List String} : ofStrings l = ofStrings k ↔ l = k := by
  constructor
  · intro h
    have read := strings?_eq_some_iff.mpr h
    rw [strings?_eq_some_iff.mpr rfl] at read
    exact Option.some.inj read
  · exact congrArg ofStrings

end Toml.Value

/-- The kinds of values that conventions are made up of. -/
inductive ConventionKind where
  | nameSet | nameList | flags | text | switch
deriving DecidableEq

namespace ConventionKind

def Carrier : ConventionKind → Type
  | nameSet => NameSet
  | nameList => List String
  | flags => Flags
  | text => String
  | switch => Bool

/-- What a value of a table stands for. A set of names or flags is listed in any order, and members
may be repeated. -/
def Describes : (kind : ConventionKind) → Toml.Value → kind.Carrier → Prop
  | nameSet, v, set => ∃ l, v = .ofStrings l ∧ ∀ x, x ∈ NameSet.names set ↔ x ∈ l
  | nameList, v, l => v = .ofStrings l
  | flags, v, fs =>
    ∃ l : List Flag, v = .ofStrings (l.map Flag.name) ∧ ∀ f, Flags.has fs f = true ↔ f ∈ l
  | text, v, s => v = .constant (.string s)
  | switch, v, b => v = .constant (.bool b)

theorem Describes.unique {kind : ConventionKind} {v : Toml.Value} {x y : kind.Carrier}
    (hx : kind.Describes v x) (hy : kind.Describes v y) : x = y := by
  cases kind with
  | nameSet =>
    obtain ⟨l, rfl, hx⟩ := hx
    obtain ⟨k, same, hy⟩ := hy
    obtain rfl := Toml.Value.ofStrings_inj.mp same
    exact NameSet.eq_of_mem_iff fun name => (hx name).trans (hy name).symm
  | nameList => exact Toml.Value.ofStrings_inj.mp (hx.symm.trans hy)
  | flags =>
    obtain ⟨l, rfl, hx⟩ := hx
    obtain ⟨k, same, hy⟩ := hy
    have names := Toml.Value.ofStrings_inj.mp same
    obtain rfl := List.map_injective_iff.mpr (fun _ _ => Flag.eq_of_name) names
    exact Flags.eq_of_has fun f => Bool.eq_iff_iff.mpr ((hx f).trans (hy f).symm)
  | text =>
    obtain rfl := hx
    cases hy
    rfl
  | switch =>
    obtain rfl := hx
    cases hy
    rfl

theorem exists_describes {kind : ConventionKind} (x : kind.Carrier) : ∃ v, kind.Describes v x := by
  cases kind with
  | nameSet => exact ⟨_, NameSet.names x, rfl, fun _ => Iff.rfl⟩
  | nameList => exact ⟨_, rfl⟩
  | flags =>
    refine ⟨_, Flags.toList x, rfl, fun f => ?_⟩
    simp [Flags.toList, Flag.mem_all]
  | text => exact ⟨_, rfl⟩
  | switch => exact ⟨_, rfl⟩

end ConventionKind

namespace ConventionKey

def kind : ConventionKey → ConventionKind
  | generatedNames | extractorNames => .nameSet
  | generatedBeginnings => .nameList
  | keptFlags => .flags
  | strict => .switch
  | _ => .text

theorem eq_keptFlags {key : ConventionKey} (h : key.kind = .flags) : key = .keptFlags := by
  cases key <;> first | rfl | cases h

theorem ofName?_eq_some_iff {s : String} {key : ConventionKey} :
    ofName? s = some key ↔ key.name = s := by
  have found : ofName? key.name = some key := by cases key <;> decide
  constructor
  · intro h
    simpa using List.find?_some h
  · rintro rfl
    exact found

theorem name_inj {key other : ConventionKey} : key.name = other.name ↔ key = other := by
  constructor
  · intro h
    have found := ofName?_eq_some_iff.mpr h
    rw [ofName?_eq_some_iff.mpr rfl] at found
    exact (Option.some.inj found).symm
  · exact congrArg name

/-- A value that the key can be set to. -/
def Accepts (key : ConventionKey) (v : Toml.Value) : Prop := ∃ x, key.kind.Describes v x

/-- Why a key that asks for a kind cannot be set to a value: it is not of that kind, or it lists
what is no flag. -/
inductive Refuses (key : ConventionKey) (v : Toml.Value) : ConventionKind → TableError → Prop
  | nameSet (other : ∀ l, v ≠ .ofStrings l) : Refuses key v .nameSet (.notNames key v)
  | nameList (other : ∀ l, v ≠ .ofStrings l) : Refuses key v .nameList (.notNames key v)
  | flags (other : ∀ l, v ≠ .ofStrings l) : Refuses key v .flags (.notNames key v)
  | unknownFlags {names : List String} (listed : v = .ofStrings names)
      (unknown : ∃ n ∈ names, ∀ f, Flag.name f ≠ n) :
      Refuses key v .flags (.unknownFlags (names.filter fun n => (Flag.ofName? n).isNone))
  | text (other : ∀ s, v ≠ .constant (.string s)) : Refuses key v .text (.notString key v)
  | switch (other : ∀ b, v ≠ .constant (.bool b)) : Refuses key v .switch (.notBool key v)

theorem Refuses.not_describes {key : ConventionKey} {v : Toml.Value} {kind : ConventionKind}
    {e : TableError} (h : key.Refuses v kind e) (x : kind.Carrier) : ¬ kind.Describes v x := by
  cases h with
  | nameSet other => exact fun ⟨l, listed, _⟩ => other l listed
  | nameList other => exact other x
  | flags other => exact fun ⟨l, listed, _⟩ => other _ listed
  | unknownFlags listed unknown =>
    rintro ⟨l, listed', -⟩
    obtain ⟨n, hn, noFlag⟩ := unknown
    rw [Toml.Value.ofStrings_inj.mp (listed.symm.trans listed')] at hn
    obtain ⟨f, -, name⟩ := List.mem_map.mp hn
    exact noFlag f name
  | text other => exact other x
  | switch other => exact other x

theorem Refuses.ne_unknownKeys {key : ConventionKey} {v : Toml.Value} {kind : ConventionKind}
    {e : TableError} (h : key.Refuses v kind e) (names : List String) : e ≠ .unknownKeys names := by
  cases h <;> simp

end ConventionKey

/-- What a key stands for. -/
def Conventions.field (C : Conventions) : (key : ConventionKey) → key.kind.Carrier
  | .generatedNames => C.generatedNames
  | .generatedBeginnings => C.generatedBeginnings
  | .keptFlags => C.keptFlags
  | .injectedPackage => C.injectedPackage
  | .rootName => C.rootName
  | .constructorName => C.constructorName
  | .constructorEncoded => C.constructorEncoded
  | .traitInitializer => C.traitInitializer
  | .defaultMarker => C.defaultMarker
  | .movedEnding => C.movedEnding
  | .singletonEnding => C.singletonEnding
  | .anonymousBeginning => C.anonymousBeginning
  | .extractorArgument => C.extractorArgument
  | .extractorNames => C.extractorNames
  | .strict => C.strict

namespace Conventions

theorem eq_of_field {C D : Conventions} (h : ∀ key, C.field key = D.field key) : C = D := by
  obtain ⟨⟩ := C
  obtain ⟨⟩ := D
  congr
  exacts [h .generatedNames, h .generatedBeginnings, h .keptFlags, h .injectedPackage, h .rootName,
    h .constructorName, h .constructorEncoded, h .traitInitializer, h .defaultMarker,
    h .movedEnding, h .singletonEnding, h .anonymousBeginning, h .extractorArgument,
    h .extractorNames, h .strict]

/-- The conventions with what one key stands for replaced. -/
def put (C : Conventions) : (key : ConventionKey) → key.kind.Carrier → Conventions
  | .generatedNames, x => { C with generatedNames := x }
  | .generatedBeginnings, x => { C with generatedBeginnings := x }
  | .keptFlags, x => { C with keptFlags := x }
  | .injectedPackage, x => { C with injectedPackage := x }
  | .rootName, x => { C with rootName := x }
  | .constructorName, x => { C with constructorName := x }
  | .constructorEncoded, x => { C with constructorEncoded := x }
  | .traitInitializer, x => { C with traitInitializer := x }
  | .defaultMarker, x => { C with defaultMarker := x }
  | .movedEnding, x => { C with movedEnding := x }
  | .singletonEnding, x => { C with singletonEnding := x }
  | .anonymousBeginning, x => { C with anonymousBeginning := x }
  | .extractorArgument, x => { C with extractorArgument := x }
  | .extractorNames, x => { C with extractorNames := x }
  | .strict, x => { C with strict := x }

@[simp]
theorem field_put (C : Conventions) (key : ConventionKey) (x : key.kind.Carrier) :
    (C.put key x).field key = x := by
  cases key <;> rfl

theorem field_put_of_ne (C : Conventions) {key other : ConventionKey} (x : key.kind.Carrier)
    (h : other ≠ key) : (C.put key x).field other = C.field other := by
  cases key <;> cases other <;> first | rfl | exact absurd rfl h

/-- Reads a value of the kind that a key asks for. -/
def readAs (key : ConventionKey) (v : Toml.Value) :
    (kind : ConventionKind) → Except TableError kind.Carrier
  | .nameSet => NameSet.ofList <$> readNames key v
  | .nameList => readNames key v
  | .flags => readFlags v
  | .text => readString key v
  | .switch => readBool key v

/-- To set a key, the value is read and takes the place of the old one. -/
theorem set_eq (C : Conventions) (key : ConventionKey) (v : Toml.Value) :
    C.set key v = C.put key <$> readAs key v key.kind := by
  cases key with
  | generatedNames =>
    simp only [set, readAs, ConventionKey.kind]
    cases readNames .generatedNames v <;> rfl
  | extractorNames =>
    simp only [set, readAs, ConventionKey.kind]
    cases readNames .extractorNames v <;> rfl
  | _ => rfl

theorem readNames_cases (key : ConventionKey) (v : Toml.Value) :
    (∃ l, v = .ofStrings l ∧ readNames key v = .ok l) ∨
      (∀ l, v ≠ .ofStrings l) ∧ readNames key v = .error (.notNames key v) := by
  unfold readNames
  cases read : v.strings? with
  | some l => exact .inl ⟨l, Toml.Value.strings?_eq_some_iff.mp read, rfl⟩
  | none =>
    refine .inr ⟨fun l listed => ?_, rfl⟩
    rw [Toml.Value.strings?_eq_some_iff.mpr listed] at read
    cases read

theorem readFlags_cases (v : Toml.Value) :
    (∃ fs, readFlags v = .ok fs ∧ ConventionKind.flags.Describes v fs) ∨
      ∃ e, readFlags v = .error e ∧ ConventionKey.keptFlags.Refuses v .flags e := by
  unfold readFlags
  obtain ⟨names, rfl, read⟩ | ⟨other, read⟩ := readNames_cases .keptFlags v
  · simp only [read, bind, Except.bind]
    split
    next none =>
      have named : ∀ n ∈ names, (Flag.ofName? n).map Flag.name = some n := by
        intro n hn
        have known : Flag.ofName? n ≠ Option.none := by
          simpa using List.filter_eq_nil_iff.mp none n hn
        obtain ⟨f, found⟩ := Option.ne_none_iff_exists'.mp known
        rw [found, Option.map_some, Flag.ofName?_eq_some_iff.mp found]
      have all : (names.filterMap Flag.ofName?).map Flag.name = names := by
        rw [List.map_filterMap, List.filterMap_congr named, List.filterMap_some]
      exact .inl ⟨_, rfl, _, congrArg _ all.symm, fun f => Flags.has_ofList⟩
    next unknown found =>
      refine .inr ⟨_, rfl, .unknownFlags rfl ?_⟩
      obtain ⟨n, hn⟩ := List.exists_mem_of_ne_nil _ found
      obtain ⟨hn, none⟩ := List.mem_filter.mp hn
      refine ⟨n, hn, fun f name => ?_⟩
      rw [Flag.ofName?_eq_some_iff.mpr name] at none
      cases none
  · exact .inr ⟨_, by rw [read]; rfl, .flags other⟩

/-- A value is read as what it stands for, or there is a reason to refuse it. -/
theorem readAs_cases (key : ConventionKey) (v : Toml.Value) :
    (∃ x, readAs key v key.kind = .ok x ∧ key.kind.Describes v x) ∨
      ∃ e, readAs key v key.kind = .error e ∧ key.Refuses v key.kind e := by
  -- flags are read without a key, as only one key asks for them
  have flags := @ConventionKey.eq_keptFlags key
  generalize key.kind = kind at flags
  cases kind with
  | nameSet =>
    obtain ⟨l, rfl, read⟩ | ⟨other, read⟩ := readNames_cases key v
    · exact .inl ⟨_, by rw [readAs, read]; rfl, l, rfl, fun x => NameSet.mem_ofList⟩
    · exact .inr ⟨_, by rw [readAs, read]; rfl, .nameSet other⟩
  | nameList =>
    obtain ⟨l, rfl, read⟩ | ⟨other, read⟩ := readNames_cases key v
    · exact .inl ⟨l, read, rfl⟩
    · exact .inr ⟨_, read, .nameList other⟩
  | flags =>
    obtain rfl := flags rfl
    exact readFlags_cases v
  | text =>
    rw [readAs, readString]
    cases read : v.string? with
    | some s => exact .inl ⟨s, rfl, Toml.Value.string?_eq_some_iff.mp read⟩
    | none =>
      refine .inr ⟨_, rfl, .text fun s text => ?_⟩
      rw [Toml.Value.string?_eq_some_iff.mpr text] at read
      cases read
  | switch =>
    rw [readAs, readBool]
    cases read : v.bool? with
    | some b => exact .inl ⟨b, rfl, Toml.Value.bool?_eq_some_iff.mp read⟩
    | none =>
      refine .inr ⟨_, rfl, .switch fun b switch => ?_⟩
      rw [Toml.Value.bool?_eq_some_iff.mpr switch] at read
      cases read

/-- One entry is set, and all other keys keep what they stand for, unless the value is refused. -/
theorem set_cases (C : Conventions) (key : ConventionKey) (v : Toml.Value) :
    (∃ D, C.set key v = .ok D ∧ key.kind.Describes v (D.field key) ∧
        ∀ other, other ≠ key → D.field other = C.field other) ∨
      ∃ e, C.set key v = .error e ∧ key.Refuses v key.kind e := by
  rw [set_eq]
  obtain ⟨x, read, described⟩ | ⟨e, read, refused⟩ := readAs_cases key v
  · refine .inl ⟨C.put key x, by rw [read]; rfl, ?_, fun other h => C.field_put_of_ne x h⟩
    rwa [field_put]
  · exact .inr ⟨e, by rw [read]; rfl, refused⟩

end Conventions

end TreeRepair
