import TreeRepair.Constant

namespace TreeRepair.Toml

/-- Whole numbers are converted from and to decimal text only up to this many digits. -/
def digitLimit : Nat := 4300

/-- The text that reports a longer number. -/
def digitLimitText (detail : String) : String :=
  "Exceeds the limit (" ++ toString digitLimit ++ " digits) for integer string conversion" ++
    detail ++ "; use sys.set_int_max_str_digits() to increase the limit"

/-- Why a document cannot be read. The first cause in the document counts. -/
inductive ReadError where
  | malformed
  | tooManyDigits (count : Nat)
deriving DecidableEq

def ReadError.message : ReadError → String
  | .malformed => "The document is malformed"
  | .tooManyDigits count => digitLimitText (": value has " ++ toString count ++ " digits")

/-- What can be read only in one way is malformed if it cannot be read. -/
def wellFormed {α : Type} : Option α → Except ReadError α
  | some a => .ok a
  | none => .error .malformed

structure Date where
  year : Nat
  month : Nat
  day : Nat
deriving DecidableEq

namespace Date

def isLeap (year : Nat) : Bool := year % 4 = 0 && (year % 100 ≠ 0 || year % 400 = 0)

def monthLength (year month : Nat) : Nat :=
  if month = 2 then if isLeap year then 29 else 28
  else if month = 4 || month = 6 || month = 9 || month = 11 then 30
  else 31

/-- Whether the calendar has the day. Years count from one. -/
def isValid (d : Date) : Bool :=
  1 ≤ d.year && 1 ≤ d.month && d.month ≤ 12 && 1 ≤ d.day && d.day ≤ monthLength d.year d.month

end Date

structure Time where
  hour : Nat
  minute : Nat
  second : Nat
  microsecond : Nat := 0
deriving DecidableEq

/-- A day, a time of day, or both, the latter perhaps with its distance from universal time in
minutes. -/
inductive Moment where
  | date (d : Date)
  | time (t : Time)
  | both (d : Date) (t : Time) (offset : Option Int)
deriving DecidableEq

namespace Moment

def numbers (l : List Nat) : String := ", ".intercalate (l.map toString)

def timeParts (t : Time) : List Nat :=
  [t.hour, t.minute] ++
    if t.microsecond ≠ 0 then [t.second, t.microsecond]
    else if t.second ≠ 0 then [t.second]
    else []

/-- A distance from universal time is a count of days, which may be negative, and of seconds. -/
def offsetText (minutes : Int) : String :=
  let days := minutes.fdiv 1440
  let seconds := minutes.fmod 1440 * 60
  if minutes = 0 then "datetime.timezone.utc"
  else
    "datetime.timezone(datetime.timedelta(" ++
      (if days = 0 then "seconds=" ++ toString seconds
       else if seconds = 0 then "days=" ++ toString days
       else "days=" ++ toString days ++ ", seconds=" ++ toString seconds) ++ "))"

def text : Moment → String
  | .date d => "datetime.date(" ++ numbers [d.year, d.month, d.day] ++ ")"
  | .time t => "datetime.time(" ++ numbers (timeParts t) ++ ")"
  | .both d t offset =>
    "datetime.datetime(" ++ numbers ([d.year, d.month, d.day] ++ timeParts t) ++
      (match offset with
       | none => ""
       | some minutes => ", tzinfo=" ++ offsetText minutes) ++ ")"

end Moment

/-- A value of a configuration. -/
inductive Value where
  | constant (value : Constant)
  | moment (value : Moment)
  | list (items : List Value)
  | table (entries : List (String × Value))

namespace Value

mutual

/-- The value as it is shown in messages. -/
def text : Value → String
  | .constant c => c.text
  | .moment m => m.text
  | .list items => "[" ++ ", ".intercalate (texts items) ++ "]"
  | .table entries => "\x7b" ++ ", ".intercalate (entryTexts entries) ++ "\x7d"

def texts : List Value → List String
  | [] => []
  | v :: vs => text v :: texts vs

def entryTexts : List (String × Value) → List String
  | [] => []
  | (key, v) :: rest => (Text.quoted key ++ ": " ++ text v) :: entryTexts rest

end

mutual

/-- Whether no whole number in the value has more digits than can be shown. -/
def isShowable : Value → Bool
  | .constant (.int n) => decide (n.natAbs < Nat.pow 10 digitLimit)
  | .constant _ => true
  | .moment _ => true
  | .list items => areShowable items
  | .table entries => entriesShowable entries

def areShowable : List Value → Bool
  | [] => true
  | v :: vs => isShowable v && areShowable vs

def entriesShowable : List (String × Value) → Bool
  | [] => true
  | (_, v) :: rest => isShowable v && entriesShowable rest

end

/-- A message that ends with the value, or one about its digits if it cannot be shown. -/
def shownBehind (beginning : String) (v : Value) : String :=
  if v.isShowable then beginning ++ v.text else digitLimitText ""

def string? : Value → Option String
  | .constant (.string s) => some s
  | _ => none

def bool? : Value → Option Bool
  | .constant (.bool b) => some b
  | _ => none

def strings? : Value → Option (List String)
  | .list items => items.mapM string?
  | _ => none

end Value

end TreeRepair.Toml
