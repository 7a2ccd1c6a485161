import TreeRepair.Toml.Numbers
import TreeRepair.Toml.Strings

namespace TreeRepair.Toml

abbrev Entries := List (String × Value)

namespace Entries

def get? (t : Entries) (key : String) : Option Value := List.lookup key t

/-- Changes the value of a key that is there. -/
def replace (t : Entries) (key : String) (v : Value) : Entries :=
  t.map fun (k, old) => if k = key then (k, v) else (k, old)

/-- Adds a key, which must be new. -/
def add? (t : Entries) (key : String) (v : Value) : Option Entries :=
  if (t.get? key).isSome then none else some (t ++ [(key, v)])

/-- Changes the table at the end of a path. Tables that are missing on the way are made, and with
`lists` a list on the way stands for its last item. -/
def change? (lists : Bool) (f : Entries → Option Entries) :
    List String → Entries → Option Entries
  | [], t => f t
  | key :: path, t =>
    match t.get? key with
    | none => (change? lists f path []).map fun inner => t ++ [(key, .table inner)]
    | some (.table inner) =>
      (change? lists f path inner).map fun inner => t.replace key (.table inner)
    | some (.list items) =>
      match lists, items.getLast? with
      | true, some (.table inner) =>
        (change? lists f path inner).map fun inner =>
          t.replace key (.list (items.dropLast ++ [.table inner]))
      | _, _ => none
    | some _ => none

end Entries

/-- Whether a value is closed: nothing can be added to it later. -/
def isClosed : Value → Bool
  | .table _ => true
  | .list _ => true
  | _ => false

/-- Whether a path leads to one of the closed paths or beyond it. -/
def isBeyond (closed : List (List String)) (path : List String) : Bool :=
  closed.any fun c => c.isPrefixOf path

/-- Sets a key of a table on one line, unless that would add to a closed value. -/
def Entries.setWithin? (t : Entries) (closed : List (List String)) (path : List String)
    (v : Value) : Option Entries :=
  if isBeyond closed path then none
  else t.change? false (fun inner => inner.add? (path.getLastD "") v) path.dropLast

/-- A key with its equals sign and the blanks up to the value. -/
def keyOfAssignment (s : List Char) : Option (List String × List Char) := do
  let (path, rest) ← key s
  let rest ← after? '=' rest
  return (path, skipBlank rest)

/-- A value that is neither a list nor a table. -/
def scalar (s : List Char) : Except ReadError (Value × List Char) :=
  match s with
  | 't' :: 'r' :: 'u' :: 'e' :: rest => .ok (.constant (.bool true), rest)
  | 'f' :: 'a' :: 'l' :: 's' :: 'e' :: rest => .ok (.constant (.bool false), rest)
  | '"' :: _ | '\'' :: _ => do
    let (text, rest) ← wellFormed (anyText s)
    return (.constant (.string text), rest)
  | _ =>
    match moment? s with
    | some (m, rest) => .ok (.moment m, rest)
    | none => do
      let (c, rest) ← number s
      return (.constant c, rest)

mutual

/-- A value nested at most as deep as the first argument says. -/
def valueWithin : Nat → List Char → Except ReadError (Value × List Char)
  | 0, _ => .error .malformed
  | n + 1, s =>
    match s with
    | '[' :: rest => do
      let (items, rest) ← itemsWithin n (← wellFormed (skipGaps false rest))
      return (.list items, rest)
    | '\x7b' :: rest =>
      match skipBlank rest with
      | '\x7d' :: rest => .ok (.table [], rest)
      | rest => do
        let (entries, rest) ← entriesWithin n [] [] rest
        return (.table entries, rest)
    | s => scalar s

/-- The items of a list up to its end. A comma may follow the last one. -/
def itemsWithin : Nat → List Char → Except ReadError (List Value × List Char)
  | 0, _ => .error .malformed
  | n + 1, s =>
    match s with
    | ']' :: rest => .ok ([], rest)
    | s => do
      let (item, rest) ← valueWithin n s
      match ← wellFormed (skipGaps false rest) with
      | ']' :: rest => return ([item], rest)
      | ',' :: rest =>
        let (items, rest) ← itemsWithin n (← wellFormed (skipGaps false rest))
        return (item :: items, rest)
      | _ => .error .malformed

/-- The remaining entries of a table on one line. -/
def entriesWithin :
    Nat → List (List String) → Entries → List Char → Except ReadError (Entries × List Char)
  | 0, _, _, _ => .error .malformed
  | n + 1, closed, t, s => do
    let (path, rest) ← wellFormed (keyOfAssignment s)
    let (v, rest) ← valueWithin n rest
    let t ← wellFormed (t.setWithin? closed path v)
    match skipBlank rest with
    | '\x7d' :: rest => return (t, rest)
    | ',' :: rest =>
      entriesWithin n (if isClosed v then path :: closed else closed) t (skipBlank rest)
    | _ => .error .malformed

end

/-- No value nests deeper than it has characters, and each level takes at most two steps. -/
def value (s : List Char) : Except ReadError (Value × List Char) :=
  valueWithin (2 * s.length + 2) s

/-- A key, an equals sign and a value. -/
def assignment (s : List Char) : Except ReadError (List String × Value × List Char) := do
  let (path, rest) ← wellFormed (keyOfAssignment s)
  let (v, rest) ← value rest
  return (path, v, rest)

end TreeRepair.Toml
