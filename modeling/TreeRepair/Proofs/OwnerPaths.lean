import TreeRepair.Proofs.Descent
import TreeRepair.Setting

namespace TreeRepair

open Relation

/-- The symbols that are listed in a table. -/
def SymbolTable.listed (T : SymbolTable) : Finset SymbolId := (T.entries.map Prod.fst).toFinset

theorem SymbolTable.card_listed_lt (T : SymbolTable) : T.listed.card < T.bound := by
  have := List.toFinset_card_le (T.entries.map Prod.fst)
  simp only [List.length_map] at this
  simp only [listed, bound]
  omega

theorem SymbolTable.get_of_not_listed {T : SymbolTable} {s : SymbolId} (h : s ∉ T.listed) :
    T.get s = { name := .plain "", kind := .term } := by
  unfold get
  cases entry : T.entries.lookup s with
  | none => rfl
  | some symbol =>
    obtain ⟨l₁, l₂, entries, -⟩ := List.lookup_eq_some_iff.mp entry
    exact absurd (by simp [listed, entries]) h

theorem SymbolTable.mem_listed_of_owner {T : SymbolTable} {s o : SymbolId}
    (h : (T.get s).owner = some o) : s ∈ T.listed := by
  by_contra unlisted
  simp [get_of_not_listed unlisted] at h

theorem SymbolTable.mem_listed_of_info {T : SymbolTable} {s : SymbolId} {t : Ty}
    (h : (T.get s).info = some t) : s ∈ T.listed := by
  by_contra unlisted
  simp [get_of_not_listed unlisted] at h

/-- A path: the instance itself or a name, from which values are selected by their names. -/
def Tree.isPath : Tree → Bool
  | ⟨_, .this _⟩ => true
  | ⟨_, .ident name⟩ => name.isTerm
  | ⟨_, .select q name⟩ => name.isTerm && q.isPath
  | _ => false

theorem Tree.shape_of_isPath {t : Tree} (h : t.isPath = true) :
    (∃ n, t.shape = .this n) ∨ (∃ n, t.shape = .ident n) ∨ ∃ q n, t.shape = .select q n := by
  obtain ⟨i, s⟩ := t
  cases s <;> simp_all [isPath]

namespace Setting

variable (W : Setting)

theorem isPath_pathWithin (n : Nat) (s : SymbolId) : (W.pathWithin n s).isPath = true := by
  induction n generalizing s with
  | zero => rfl
  | succ n ih =>
    rw [pathWithin]
    split
    · rfl
    · split
      · rfl
      next o _ => simp [Tree.bare, Tree.isPath, Name.toTerm, Name.isTerm, Name.isType, ih o]

theorem isPath_path (s : SymbolId) : (W.path s).isPath = true := W.isPath_pathWithin _ s

/-- The path of a symbol goes on in its owner, and ends at the root. -/
def owning : Descent SymbolId SymbolId where
  parts _ := []
  sources s := if s = W.builtins.rootClass then [] else [s]
  drawn s := (W.symbols.get s).owner.toList
  smaller := Descent.wellFounded_nil

variable {W}

theorem owning_ends_root : W.owning.Ends W.builtins.rootClass := by
  intro x visited k hk
  obtain rfl := visited.eq_of_parts_nil rfl
  simp [owning] at hk

theorem owning_ends_of_owner {s o : SymbolId} (owner : (W.symbols.get s).owner = some o)
    (ends : W.owning.Ends o) : W.owning.Ends s := by
  refine .intro (by simp [owning]) fun k hk y hy => ?_
  obtain rfl : k = s := by
    simp only [owning] at hk
    split at hk <;> simp_all
  obtain rfl : y = o := by simpa [owning, owner] using hy
  exact ends

theorem path_root : W.path W.builtins.rootClass = .bare (.ident (.term W.conventions.rootName)) := by
  simp [path, SymbolTable.bound, pathWithin]

/-- Below the root, the path of a symbol continues the path of its owner. -/
theorem path_of_owner {s o : SymbolId} (below : s ≠ W.builtins.rootClass)
    (owner : (W.symbols.get s).owner = some o) (ends : W.owning.Ends o) :
    W.path s = .bare (.select (W.path o) (W.nameOf s).toTerm) := by
  have congr (m n : Nat) (t : SymbolId)
      (h : ∀ x, W.owning.Visits t x → ∀ k ∈ W.owning.sources x, ∀ y ∈ W.owning.drawn k,
        W.pathWithin m y = W.pathWithin n y) :
      W.pathWithin (m + 1) t = W.pathWithin (n + 1) t := by
    simp only [pathWithin]
    split
    next => rfl
    next other =>
      cases found : (W.symbols.get t).owner with
      | none => rfl
      | some p =>
        have above := h t .refl t (by simp [owning, other]) p (by simp [owning, found])
        simp only [above]
  have stable : W.path s = W.pathWithin (W.symbols.bound + 1) s :=
    Descent.Ends.within_succ
      (fun k y hy => SymbolTable.mem_listed_of_owner (by simpa [owning] using hy))
      W.symbols.card_listed_lt W.pathWithin congr (owning_ends_of_owner owner ends)
  rw [stable, pathWithin, if_neg below]
  simp only [owner, path]

end Setting

end TreeRepair
