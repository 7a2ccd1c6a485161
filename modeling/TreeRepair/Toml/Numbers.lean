import TreeRepair.Toml.Value
import TreeRepair.Decimal.Binary
import TreeRepair.Toml.Digits

namespace TreeRepair.Toml

/-- A whole number of base sixteen, eight or two, which has no sign. -/
def based? : List Char → Option (Nat × List Char)
  | '0' :: 'x' :: s => (digits? isHexDigit s).map fun (ds, rest) => (natOf 16 ds, rest)
  | '0' :: 'o' :: s =>
    (digits? (fun c => '0' ≤ c && c ≤ '7') s).map fun (ds, rest) => (natOf 8 ds, rest)
  | '0' :: 'b' :: s =>
    (digits? (fun c => c = '0' || c = '1') s).map fun (ds, rest) => (natOf 2 ds, rest)
  | _ => none

def sign : List Char → Bool × List Char
  | '-' :: s => (true, s)
  | '+' :: s => (false, s)
  | s => (false, s)

/-- The digits before the point. A number of several digits does not start with zero. -/
def whole? : List Char → Option (List Char × List Char)
  | '0' :: s => some (['0'], s)
  | s => digits? Char.isDigit s

/-- The digits behind the point. -/
def fraction? : List Char → Option (List Char × List Char)
  | '.' :: s => digits? Char.isDigit s
  | _ => none

def power? : List Char → Option (Int × List Char)
  | c :: s =>
    if c = 'e' || c = 'E' then
      let (negative, s) := sign s
      (digits? Char.isDigit s).map fun (ds, rest) =>
        (if negative then -(natOf 10 ds : Int) else natOf 10 ds, rest)
    else none
  | [] => none

/-- A whole number of decimal digits, unless there are too many of them. -/
def whole (negative : Bool) (digits : List Char) : Except ReadError Constant :=
  if digitLimit < digits.length then .error (.tooManyDigits digits.length)
  else
    let n : Int := natOf 10 digits
    .ok (.int (if negative then -n else n))

/-- A number with a fraction or an exponent is kept with the precision of 53 bits, any other as
it is. -/
def decimal? (s : List Char) : Option (Except ReadError Constant × List Char) := do
  let (negative, s) := sign s
  let (digits, s) ← whole? s
  let (places, s) := (fraction? s).getD ([], s)
  let number (power : Int) : Constant :=
    .number (Decimal.rounded
      { negative, digits := natOf 10 (digits ++ places), exponent := power - places.length })
  match power? s with
  | some (power, rest) => return (.ok (number power), rest)
  | none =>
    if places.isEmpty then return (whole negative digits, s) else return (.ok (number 0), s)

/-- The numbers that have no digits. -/
def special? (s : List Char) : Option (Constant × List Char) :=
  let (negative, s) := sign s
  match s with
  | 'i' :: 'n' :: 'f' :: rest => some (.number (.infinite negative), rest)
  | 'n' :: 'a' :: 'n' :: rest => some (.number .nan, rest)
  | _ => none

def number (s : List Char) : Except ReadError (Constant × List Char) :=
  match based? s, decimal? s with
  | some (n, rest), _ => .ok (.int n, rest)
  | none, some (c, rest) => do return (← c, rest)
  | none, none => wellFormed (special? s)

/-- A number of two digits between two bounds. -/
def two? (least most : Nat) : List Char → Option (Nat × List Char)
  | a :: b :: s =>
    let n := natOf 10 [a, b]
    if a.isDigit && b.isDigit && least ≤ n && n ≤ most then some (n, s) else none
  | _ => none

def after? (c : Char) : List Char → Option (List Char)
  | [] => none
  | d :: s => if d = c then some s else none

/-- Parts of a second, of which six places are kept. -/
def microseconds (s : List Char) : Nat × List Char :=
  match s with
  | '.' :: rest =>
    match rest.span Char.isDigit with
    | ([], _) => (0, s)
    | (places, rest) => (natOf 10 ((places ++ List.replicate 5 '0').take 6), rest)
  | _ => (0, s)

def time? (s : List Char) : Option (Time × List Char) := do
  let (hour, s) ← two? 0 23 s
  let s ← after? ':' s
  let (minute, s) ← two? 0 59 s
  let s ← after? ':' s
  let (second, s) ← two? 0 59 s
  let (microsecond, s) := microseconds s
  return (⟨hour, minute, second, microsecond⟩, s)

def date? (s : List Char) : Option (Date × List Char) := do
  let (century, s) ← two? 0 99 s
  let (year, s) ← two? 0 99 s
  let s ← after? '-' s
  let (month, s) ← two? 1 12 s
  let s ← after? '-' s
  let (day, s) ← two? 1 31 s
  let date : Date := ⟨100 * century + year, month, day⟩
  if date.isValid then return (date, s) else none

/-- The distance from universal time in minutes. -/
def offset? : List Char → Option (Int × List Char)
  | [] => none
  | c :: s =>
    if c = 'Z' || c = 'z' then some (0, s)
    else if c = '+' || c = '-' then do
      let (hours, s) ← two? 0 23 s
      let s ← after? ':' s
      let (minutes, s) ← two? 0 59 s
      let n : Int := 60 * hours + minutes
      return (if c = '-' then -n else n, s)
    else none

/-- The time behind a date, with a letter or a blank between them. -/
def timeOfDate? : List Char → Option (Time × List Char)
  | [] => none
  | c :: s => if c = 'T' || c = 't' || c = ' ' then time? s else none

def moment? (s : List Char) : Option (Moment × List Char) :=
  match date? s with
  | some (date, rest) =>
    match timeOfDate? rest with
    | none => some (.date date, rest)
    | some (time, rest) =>
      match offset? rest with
      | none => some (.both date time none, rest)
      | some (minutes, rest) => some (.both date time (some minutes), rest)
  | none => (time? s).map fun (time, rest) => (.time time, rest)

end TreeRepair.Toml
