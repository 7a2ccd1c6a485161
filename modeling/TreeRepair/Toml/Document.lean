import TreeRepair.Toml.Nested

namespace TreeRepair.Toml

/-- What has been read of a document. `header` is the path of the table that entries go to,
`opened` holds the tables that cannot be opened again, `opening` those that cannot be from the
next header on, and `closed` the values that nothing can be added to. -/
structure Document where
  entries : Entries := []
  header : List String := []
  opened : List (List String) := []
  opening : List (List String) := []
  closed : List (List String) := []

namespace Document

/-- A header ends the time in which keys with points may reach into the tables they made. -/
def settle (d : Document) : Document := { d with opened := d.opening ++ d.opened, opening := [] }

/-- Opens a table. -/
def openTable (d : Document) (path : List String) : Option Document := do
  if d.opened.contains path || isBeyond d.closed path then none
  let entries ← d.entries.change? true some path
  return { d with entries, header := path, opened := path :: d.opened }

/-- Adds an empty table to the list behind a key. -/
def appendTable (key : String) (t : Entries) : Option Entries :=
  match t.get? key with
  | none => some (t ++ [(key, .list [.table []])])
  | some (.list items) => some (t.replace key (.list (items ++ [.table []])))
  | some _ => none

/-- Opens the next table of a list. What was known about the tables in the one before no longer
holds. -/
def openItem (d : Document) (path : List String) : Option Document := do
  if isBeyond d.closed path then none
  let outside := fun p : List String => !path.isPrefixOf p
  let entries ← d.entries.change? true (appendTable (path.getLastD "")) path.dropLast
  return { d with
    entries, header := path
    opened := path :: d.opened.filter outside
    closed := d.closed.filter outside }

/-- Sets a key of the table last opened. -/
def assign (d : Document) (path : List String) (v : Value) : Option Document := do
  let between := ((List.range path.length).drop 1).map fun n => d.header ++ path.take n
  let parent := d.header ++ path.dropLast
  if between.any d.opened.contains || isBeyond d.closed parent then none
  let entries ← d.entries.change? true (fun t => t.add? (path.getLastD "") v) parent
  return { d with
    entries
    opening := between ++ d.opening
    closed := if isClosed v then (d.header ++ path) :: d.closed else d.closed }

/-- A header up to its closing brackets. -/
def readHeader (d : Document) : List Char → Option (Document × List Char)
  | '[' :: s => do
    let (path, rest) ← key (skipBlank s)
    match rest with
    | ']' :: ']' :: rest => return (← d.settle.openItem path, rest)
    | _ => none
  | s => do
    let (path, rest) ← key (skipBlank s)
    match rest with
    | ']' :: rest => return (← d.settle.openTable path, rest)
    | _ => none

/-- What a line holds besides blanks and a comment. -/
def readStatement (d : Document) : List Char → Except ReadError (Document × List Char)
  | [] => .ok (d, [])
  | c :: s =>
    if c = '\n' || c = '#' then .ok (d, c :: s)
    else if c = '[' then wellFormed (d.readHeader s)
    else do
      let (path, v, rest) ← assignment (c :: s)
      return (← wellFormed (d.assign path v), rest)

/-- Reads at most the given number of lines. -/
def readLines : Nat → Document → List Char → Except ReadError Document
  | 0, _, _ => .error .malformed
  | n + 1, d, s => do
    let (d, rest) ← d.readStatement (skipBlank s)
    match ← wellFormed (skipComment (skipBlank rest)) with
    | [] => return d
    | '\n' :: rest => readLines n d rest
    | _ => .error .malformed

end Document

/-- Lines may end in a carriage return, a line feed or both. -/
def lineFeeds : List Char → List Char
  | '\r' :: '\n' :: s => '\n' :: lineFeeds s
  | '\r' :: s => '\n' :: lineFeeds s
  | c :: s => c :: lineFeeds s
  | [] => []

/-- The entries of a document. -/
def parse (text : String) : Except ReadError Entries :=
  let s := lineFeeds text.toList
  (Document.readLines (s.length + 1) {} s).map (·.entries)

end TreeRepair.Toml
