namespace TreeRepair

/-- A recursion that goes on in the parts of what it is given, and beyond these in what its sources
give. -/
structure Descent (X K : Type) where
  parts : X → List X
  sources : X → List K
  drawn : K → List X
  smaller : WellFounded fun p t => p ∈ parts t

namespace Descent

variable {X K : Type}

/-- Where nothing has parts, parts are smaller. -/
theorem wellFounded_nil {X : Type} : WellFounded fun p (_ : X) => p ∈ ([] : List X) :=
  ⟨fun t => ⟨t, fun _ h => absurd h List.not_mem_nil⟩⟩

/-- A recursion that has no parts and goes on from one to the next. -/
def along (next : K → List K) : Descent K K where
  parts _ := []
  sources k := [k]
  drawn := next
  smaller := wellFounded_nil

/-- A recursion that has parts and no sources. -/
def through (parts : X → List X) (smaller : WellFounded fun p t => p ∈ parts t) :
    Descent X Empty where
  parts := parts
  sources _ := []
  drawn _ := []
  smaller := smaller

variable (D : Descent X K)

/-- Whether a check passes on all that a recursion comes to, where another function answers for what
the sources give. -/
def passesWith (check deeper : X → Bool) (t : X) : Bool :=
  check t && (D.parts t).attach.all (fun ⟨p, _⟩ => passesWith check deeper p) &&
    (D.sources t).all fun k => (D.drawn k).all deeper
termination_by D.smaller.wrap t
decreasing_by assumption

/-- Whether a recursion comes to an end without using sources more deeply than given, and a check
passes on all that it comes to. -/
def passesWithin (check : X → Bool) : Nat → X → Bool
  | 0 => fun _ => false
  | n + 1 => D.passesWith check (passesWithin check n)

def endsWithin (n : Nat) (t : X) : Bool := D.passesWithin (fun _ => true) n t

end Descent

end TreeRepair
