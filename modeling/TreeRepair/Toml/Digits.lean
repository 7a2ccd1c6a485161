namespace TreeRepair.Toml

def digitValue (c : Char) : Nat :=
  if c.isDigit then c.toNat - '0'.toNat
  else if 'a' ≤ c then c.toNat - 'a'.toNat + 10
  else c.toNat - 'A'.toNat + 10

def isHexDigit (c : Char) : Bool :=
  c.isDigit || ('a' ≤ c && c ≤ 'f') || ('A' ≤ c && c ≤ 'F')

def natOf (base : Nat) (digits : List Char) : Nat :=
  digits.foldl (fun n c => base * n + digitValue c) 0

/-- Digits with single underscores between them, which are dropped. -/
def moreDigits (ok : Char → Bool) : List Char → List Char × List Char
  | [] => ([], [])
  | [c] => if ok c then ([c], []) else ([], [c])
  | c :: d :: s =>
    if ok c then
      let (digits, rest) := moreDigits ok (d :: s)
      (c :: digits, rest)
    else if c = '_' && ok d then
      let (digits, rest) := moreDigits ok s
      (d :: digits, rest)
    else ([], c :: d :: s)

/-- At least one digit, and more of them. -/
def digits? (ok : Char → Bool) : List Char → Option (List Char × List Char)
  | [] => none
  | c :: s => if ok c then some (moreDigits ok (c :: s)) else none

end TreeRepair.Toml
