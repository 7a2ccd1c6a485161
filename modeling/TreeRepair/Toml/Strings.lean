import TreeRepair.Toml.Digits

namespace TreeRepair.Toml

def isBlank (c : Char) : Bool := c = ' ' || c = '\t'

def skipBlank (s : List Char) : List Char := s.dropWhile isBlank

def skipBlankLines (s : List Char) : List Char := s.dropWhile fun c => isBlank c || c = '\n'

/-- Control characters may not stand in a text or comment, a tab apart. -/
def isForbidden (c : Char) : Bool := (c.toNat < 0x20 && c ≠ '\t') || c.toNat = 0x7F

/-- In a text of several lines, line ends are allowed too. -/
def isForbiddenIn (lines : Bool) (c : Char) : Bool := isForbidden c && !(lines && c = '\n')

/-- The character of a number given by hexadecimal digits. -/
def hexChar? (digits : List Char) : Option Char :=
  let n := natOf 16 digits
  if digits.all isHexDigit && n.isValidChar then some (Char.ofNat n) else none

/-- A line end after a backslash, with the blanks before it and everything blank behind it. -/
def skipLineEnd (s : List Char) : Option (List Char) :=
  match skipBlank s with
  | '\n' :: rest => some (skipBlankLines rest)
  | _ => none

/-- What a backslash and the characters behind it stand for. -/
def escape? (lines : Bool) : List Char → Option (List Char × List Char)
  | 'b' :: s => some (['\x08'], s)
  | 't' :: s => some (['\t'], s)
  | 'n' :: s => some (['\n'], s)
  | 'f' :: s => some (['\x0c'], s)
  | 'r' :: s => some (['\r'], s)
  | '"' :: s => some (['"'], s)
  | '\\' :: s => some (['\\'], s)
  | 'u' :: a :: b :: c :: d :: s => (hexChar? [a, b, c, d]).map fun x => ([x], s)
  | 'U' :: a :: b :: c :: d :: e :: f :: g :: h :: s =>
    (hexChar? [a, b, c, d, e, f, g, h]).map fun x => ([x], s)
  | s => if lines then (skipLineEnd s).map fun rest => ([], rest) else none

theorem length_skipLineEnd_le {s rest : List Char} (h : skipLineEnd s = some rest) :
    rest.length ≤ s.length := by
  unfold skipLineEnd at h
  split at h
  next tail hs =>
    cases h
    have before : (skipBlank s).length ≤ s.length := (List.dropWhile_sublist _).length_le
    have behind : (skipBlankLines tail).length ≤ tail.length := (List.dropWhile_sublist _).length_le
    rw [hs, List.length_cons] at before
    omega
  next => simp at h

theorem length_escape?_le {lines : Bool} {s out rest : List Char}
    (h : escape? lines s = some (out, rest)) : rest.length ≤ s.length := by
  unfold escape? at h
  split at h
  case h_10 =>
    split at h
    · obtain ⟨tail, ht, hr⟩ := Option.map_eq_some_iff.mp h
      cases hr
      exact length_skipLineEnd_le ht
    · simp at h
  case h_8 | h_9 =>
    obtain ⟨_, _, hr⟩ := Option.map_eq_some_iff.mp h
    obtain ⟨_, rfl⟩ := Prod.mk.inj hr
    simp only [List.length_cons]
    omega
  all_goals
    obtain ⟨_, rfl⟩ := Prod.mk.inj (Option.some.inj h)
    simp

/-- The rest of a text in double quotes. Three quotes end one of several lines. -/
def basicText (lines : Bool) : List Char → Option (List Char × List Char)
  | [] => none
  | c :: s =>
    if c = '"' then
      if !lines then some ([], s)
      else if s.take 2 = ['"', '"'] then some ([], s.drop 2)
      else (basicText lines s).map fun (text, rest) => (c :: text, rest)
    else if c = '\\' then
      match _h : escape? lines s with
      | none => none
      | some (out, rest) => (basicText lines rest).map fun (text, rest) => (out ++ text, rest)
    else if isForbiddenIn lines c then none
    else (basicText lines s).map fun (text, rest) => (c :: text, rest)
termination_by s => s.length
decreasing_by
  all_goals
    first
      | have := length_escape?_le _h
        simp
        omega
      | simp

/-- The rest of a text in single quotes, in which nothing is escaped. -/
def literalText (lines : Bool) : List Char → Option (List Char × List Char)
  | [] => none
  | c :: s =>
    if c = '\'' then
      if !lines then some ([], s)
      else if s.take 2 = ['\'', '\''] then some ([], s.drop 2)
      else (literalText lines s).map fun (text, rest) => (c :: text, rest)
    else if isForbiddenIn lines c then none
    else (literalText lines s).map fun (text, rest) => (c :: text, rest)

/-- Up to two more quotes right behind a text of several lines belong to it. -/
def extraQuotes (quote : Char) (text rest : List Char) : List Char × List Char :=
  match rest with
  | a :: b :: s =>
    if a = quote && b = quote then (text ++ [quote, quote], s)
    else if a = quote then (text ++ [quote], b :: s)
    else (text, rest)
  | [a] => if a = quote then (text ++ [quote], []) else (text, rest)
  | [] => (text, rest)

/-- A line end right at the start of a text of several lines does not belong to it. -/
def dropFirstLineEnd : List Char → List Char
  | '\n' :: s => s
  | s => s

/-- A text of one line. -/
def lineText : List Char → Option (String × List Char)
  | '"' :: s => (basicText false s).map fun (text, rest) => (String.ofList text, rest)
  | '\'' :: s => (literalText false s).map fun (text, rest) => (String.ofList text, rest)
  | _ => none

/-- A text of one line or several. -/
def anyText : List Char → Option (String × List Char)
  | '"' :: '"' :: '"' :: s => do
    let (text, rest) ← basicText true (dropFirstLineEnd s)
    let (text, rest) := extraQuotes '"' text rest
    return (String.ofList text, rest)
  | '\'' :: '\'' :: '\'' :: s => do
    let (text, rest) ← literalText true (dropFirstLineEnd s)
    let (text, rest) := extraQuotes '\'' text rest
    return (String.ofList text, rest)
  | s => lineText s

def isBare (c : Char) : Bool := c.isAlphanum || c = '-' || c = '_'

/-- One part of a key. -/
def keyPart (s : List Char) : Option (String × List Char) :=
  match s.span isBare with
  | ([], _) => lineText s
  | (bare, rest) => some (String.ofList bare, rest)

/-- A key of at most the given number of parts. -/
def keyWithin : Nat → List Char → Option (List String × List Char)
  | 0, _ => none
  | n + 1, s => do
    let (part, rest) ← keyPart s
    match skipBlank rest with
    | '.' :: rest =>
      let (parts, rest) ← keyWithin n (skipBlank rest)
      return (part :: parts, rest)
    | rest => return ([part], rest)

/-- A key is made of parts with points between them, and the blanks behind it belong to it. -/
def key (s : List Char) : Option (List String × List Char) := keyWithin s.length s

/-- A comment up to the end of its line, if one starts here. -/
def skipComment : List Char → Option (List Char)
  | '#' :: s =>
    match s.span (· ≠ '\n') with
    | (comment, rest) => if comment.any isForbidden then none else some rest
  | s => some s

/-- Blanks, line ends and comments between the items of a list. -/
def skipGaps (comment : Bool) : List Char → Option (List Char)
  | [] => some []
  | c :: s =>
    if c = '\n' then skipGaps false s
    else if comment then if isForbidden c then none else skipGaps true s
    else if isBlank c then skipGaps false s
    else if c = '#' then skipGaps true s
    else some (c :: s)

end TreeRepair.Toml
