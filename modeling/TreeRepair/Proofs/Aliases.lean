import TreeRepair.Proofs.OwnerPaths
import TreeRepair.Proofs.WritingEnds

namespace TreeRepair

namespace SymbolTable

variable {T : SymbolTable}

/-- What a type stands for if it is an alias. -/
def aliased? (T : SymbolTable) : Ty → Option Ty
  | .ref _ s _ => T.expansion? s
  | _ => none

/-- Expanding an alias goes on in what it stands for. -/
def expanding (T : SymbolTable) : Descent Ty SymbolId where
  parts _ := []
  sources
    | .ref _ s _ => if (T.expansion? s).isSome then [s] else []
    | _ => []
  drawn s := (T.expansion? s).toList
  smaller := Descent.wellFounded_nil

theorem mem_expanding_sources {t : Ty} {s : SymbolId} :
    s ∈ T.expanding.sources t ↔ .expanded s ∈ T.lookups t := by
  cases t with
  | ref pre r args =>
    simp only [expanding, lookups]
    split <;> simp
  | _ => simp [expanding, lookups]

theorem mem_lookups_of_aliased {t u : Ty} (h : T.aliased? t = some u) :
    ∃ s, .expanded s ∈ T.lookups t ∧ T.expansion? s = some u := by
  cases t with
  | ref pre s args =>
    have expands : T.expansion? s = some u := h
    exact ⟨s, by simp [lookups, expands], expands⟩
  | _ => simp [aliased?] at h

/-- Aliases are expanded while a type is written, so they come to an end where writing does. -/
theorem expanding_ends {t : Ty} (ends : T.writing.Ends t) : T.expanding.Ends t := by
  have leads {j k : SymbolId} (h : T.expanding.LeadsTo j k) :
      T.writing.LeadsTo (.expanded j) (.expanded k) := by
    obtain ⟨y, hy, x, visited, hj⟩ := h
    obtain rfl := visited.eq_of_parts_nil rfl
    exact ⟨x, hy, x, .refl, mem_expanding_sources.mp hj⟩
  intro x visited s hs
  obtain rfl := visited.eq_of_parts_nil rfl
  have acc := ends x .refl (.expanded s) (mem_expanding_sources.mp hs)
  exact Subrelation.accessible leads (InvImage.accessible Lookup.expanded acc)

theorem mem_listed_of_expansion {s : SymbolId} {u : Ty} (h : T.expansion? s = some u) :
    s ∈ T.listed := by
  by_contra unlisted
  simp [expansion?, get_of_not_listed unlisted] at h

/-- One step of expanding: an alias becomes what it stands for, and all else stays. -/
theorem dealiasWithin_succ (n : Nat) (t : Ty) :
    T.dealiasWithin (n + 1) t = ((T.aliased? t).map (T.dealiasWithin n)).getD t := by
  cases t with
  | ref pre s args =>
    rw [dealiasWithin, aliased?]
    cases T.expansion? s <;> rfl
  | _ => rfl

theorem dealias_of_not_aliased {t : Ty} (h : T.aliased? t = none) : T.dealias t = t := by
  rw [dealias, bound, dealiasWithin_succ, h]
  rfl

theorem dealiasWithin_of_aliased {t u : Ty} (h : T.aliased? t = some u) (n : Nat) :
    T.dealiasWithin (n + 1) t = T.dealiasWithin n u := by
  rw [dealiasWithin_succ, h]
  rfl

/-- An alias is expanded as what it stands for. -/
theorem dealias_of_aliased {t u : Ty} (ends : T.writing.Ends t) (h : T.aliased? t = some u) :
    T.dealias t = T.dealias u := by
  have congr (m n : Nat) (x : Ty)
      (same : ∀ y, T.expanding.Visits x y → ∀ k ∈ T.expanding.sources y, ∀ z ∈ T.expanding.drawn k,
        T.dealiasWithin m z = T.dealiasWithin n z) :
      T.dealiasWithin (m + 1) x = T.dealiasWithin (n + 1) x := by
    cases found : T.aliased? x with
    | none => rw [dealiasWithin_succ, dealiasWithin_succ, found, Option.map_none, Option.map_none]
    | some v =>
      obtain ⟨s, hs, expands⟩ := mem_lookups_of_aliased found
      rw [dealiasWithin_of_aliased found, dealiasWithin_of_aliased found]
      exact same x .refl s (mem_expanding_sources.mpr hs) v (by simp [expanding, expands])
  have stable : T.dealias t = T.dealiasWithin (T.bound + 1) t :=
    Descent.Ends.within_succ
      (fun k y hy => mem_listed_of_expansion (by simpa [expanding] using hy))
      T.card_listed_lt T.dealiasWithin congr (expanding_ends ends)
  rw [stable, dealiasWithin_of_aliased h, dealias]

end SymbolTable

namespace Setting

variable {W : Setting}

theorem writtenAs_of_aliased {t u : Ty} (ends : W.symbols.writing.Ends t)
    (h : W.symbols.aliased? t = some u) (shown : Ty) :
    W.writtenAs shown t = W.writtenAs shown u := by
  rw [W.writtenAs_eq ends]
  cases t with
  | ref pre s args =>
    exact W.writtenWith_of_expansion h
  | _ => simp [SymbolTable.aliased?] at h

/-- A type is written like the type that is left when all aliases at its top are expanded, but what
is shown in place of a missing written form is still the type itself. -/
theorem writtenAs_dealias {t : Ty} (ends : W.symbols.writing.Ends t) (shown : Ty) :
    W.symbols.writing.Ends (W.symbols.dealias t) ∧
      W.symbols.aliased? (W.symbols.dealias t) = none ∧
      W.writtenAs shown t = W.writtenAs shown (W.symbols.dealias t) := by
  refine Descent.Ends.induct (D := W.symbols.writing) (motive := fun t =>
    W.symbols.writing.Ends (W.symbols.dealias t) ∧
      W.symbols.aliased? (W.symbols.dealias t) = none ∧
      W.writtenAs shown t = W.writtenAs shown (W.symbols.dealias t)) ?_ ends
  intro t ends _ looked
  cases found : W.symbols.aliased? t with
  | none =>
    rw [SymbolTable.dealias_of_not_aliased found]
    exact ⟨ends, found, rfl⟩
  | some u =>
    obtain ⟨s, hs, expands⟩ := SymbolTable.mem_lookups_of_aliased found
    rw [SymbolTable.dealias_of_aliased ends found, writtenAs_of_aliased ends found]
    exact looked (.expanded s) hs u (by simp [SymbolTable.writing, SymbolTable.found, expands])

end Setting

end TreeRepair
