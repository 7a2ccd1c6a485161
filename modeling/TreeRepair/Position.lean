namespace TreeRepair

/-- A place in a source text; lines count from one, so that line zero is no place at all. -/
structure Position where
  source : String := ""
  line : Int := 0
  column : Int := 0
deriving DecidableEq

namespace Position

def isDefined (p : Position) : Bool := decide (0 < p.line)

def text (p : Position) : String :=
  if p.isDefined then
    (if p.source = "" then "<unknown>" else p.source) ++ ":" ++ toString p.line ++ ":" ++
      toString p.column
  else "<no position>"

end Position

/-- What went wrong, and where. -/
structure Failure where
  pos : Position
  message : String
deriving DecidableEq

def Failure.text (f : Failure) : String := f.pos.text ++ ": " ++ f.message

end TreeRepair
