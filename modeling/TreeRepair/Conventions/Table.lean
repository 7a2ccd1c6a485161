import TreeRepair.Conventions.Basic
import TreeRepair.Toml.Value

namespace TreeRepair

/-- What a configuration table can set. -/
inductive ConventionKey where
  | generatedNames | generatedBeginnings | keptFlags | injectedPackage | rootName
  | constructorName | constructorEncoded | traitInitializer | defaultMarker | movedEnding
  | singletonEnding | anonymousBeginning | extractorArgument | extractorNames | strict
deriving DecidableEq

namespace ConventionKey

def all : List ConventionKey :=
  [generatedNames, generatedBeginnings, keptFlags, injectedPackage, rootName,
   constructorName, constructorEncoded, traitInitializer, defaultMarker, movedEnding,
   singletonEnding, anonymousBeginning, extractorArgument, extractorNames, strict]

def name : ConventionKey → String
  | generatedNames => "synthetic_method_names"
  | generatedBeginnings => "synthetic_method_prefixes"
  | keptFlags => "round_trip_flags"
  | injectedPackage => "injected_package"
  | rootName => "root_package_name"
  | constructorName => "constructor_name"
  | constructorEncoded => "constructor_encoded_name"
  | traitInitializer => "trait_init_name"
  | defaultMarker => "default_getter_marker"
  | movedEnding => "relocated_suffix"
  | singletonEnding => "singleton_suffix"
  | anonymousBeginning => "anonymous_prefix"
  | extractorArgument => "unapply_selector_name"
  | extractorNames => "extractor_method_names"
  | strict => "abort_on_unfixable"

def ofName? (s : String) : Option ConventionKey := all.find? fun k => k.name == s

end ConventionKey

/-- Why a configuration table is refused. -/
inductive TableError where
  | unknownKeys (keys : List String)
  | notNames (key : ConventionKey) (value : Toml.Value)
  | unknownFlags (names : List String)
  | notBool (key : ConventionKey) (value : Toml.Value)
  | notString (key : ConventionKey) (value : Toml.Value)

def TableError.message : TableError → String
  | .unknownKeys keys =>
    "Unknown convention keys: " ++ Text.quotedList (keys.mergeSort (· ≤ ·)) ++
      ". Known keys: " ++
      Text.quotedList ((ConventionKey.all.map ConventionKey.name).mergeSort (· ≤ ·))
  | .notNames key value =>
    value.shownBehind ("'" ++ key.name ++ "' must be a list of strings, got ")
  | .unknownFlags names =>
    "Unknown flags in '" ++ ConventionKey.keptFlags.name ++ "': " ++ Text.quotedList names
  | .notBool key value => value.shownBehind ("'" ++ key.name ++ "' must be a boolean, got ")
  | .notString key value => value.shownBehind ("'" ++ key.name ++ "' must be a string, got ")

namespace Conventions

def readNames (key : ConventionKey) (v : Toml.Value) : Except TableError (List String) :=
  match v.strings? with
  | some l => .ok l
  | none => .error (.notNames key v)

def readFlags (v : Toml.Value) : Except TableError Flags := do
  let names ← readNames .keptFlags v
  match names.filter fun n => (Flag.ofName? n).isNone with
  | [] => return .ofList (names.filterMap Flag.ofName?)
  | unknown => throw (.unknownFlags unknown)

def readBool (key : ConventionKey) (v : Toml.Value) : Except TableError Bool :=
  match v.bool? with
  | some b => .ok b
  | none => .error (.notBool key v)

def readString (key : ConventionKey) (v : Toml.Value) : Except TableError String :=
  match v.string? with
  | some s => .ok s
  | none => .error (.notString key v)

/-- The conventions with one of them set. -/
def set (C : Conventions) (key : ConventionKey) (v : Toml.Value) : Except TableError Conventions :=
  match key with
  | .generatedNames => return { C with generatedNames := .ofList (← readNames key v) }
  | .generatedBeginnings => return { C with generatedBeginnings := ← readNames key v }
  | .keptFlags => return { C with keptFlags := ← readFlags v }
  | .injectedPackage => return { C with injectedPackage := ← readString key v }
  | .rootName => return { C with rootName := ← readString key v }
  | .constructorName => return { C with constructorName := ← readString key v }
  | .constructorEncoded => return { C with constructorEncoded := ← readString key v }
  | .traitInitializer => return { C with traitInitializer := ← readString key v }
  | .defaultMarker => return { C with defaultMarker := ← readString key v }
  | .movedEnding => return { C with movedEnding := ← readString key v }
  | .singletonEnding => return { C with singletonEnding := ← readString key v }
  | .anonymousBeginning => return { C with anonymousBeginning := ← readString key v }
  | .extractorArgument => return { C with extractorArgument := ← readString key v }
  | .extractorNames => return { C with extractorNames := .ofList (← readNames key v) }
  | .strict => return { C with strict := ← readBool key v }

/-- Sets the entries of a table one after the other. -/
def setAll (C : Conventions) : List (String × Toml.Value) → Except TableError Conventions
  | [] => .ok C
  | (name, v) :: rest =>
    match ConventionKey.ofName? name with
    | some key => do (← C.set key v).setAll rest
    | none => .error (.unknownKeys [name])

/-- The conventions that a table describes. Unknown keys are reported before anything else, and
what the table does not mention keeps its default. -/
def ofTable (table : List (String × Toml.Value)) : Except TableError Conventions :=
  match (table.map (·.1)).filter fun name => (ConventionKey.ofName? name).isNone with
  | [] => Conventions.setAll {} table
  | unknown => .error (.unknownKeys unknown)

end Conventions

end TreeRepair
