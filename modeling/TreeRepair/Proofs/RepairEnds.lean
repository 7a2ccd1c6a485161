import TreeRepair.Proofs.Descent
import TreeRepair.Proofs.RepairRecursion

namespace TreeRepair.Repair

variable (R : Repair)

theorem treeWith_congr {deeper deeper' : Tree → Tree} {t : Tree}
    (h : ∀ x, R.descent.Visits t x → ∀ k ∈ R.sources x, ∀ y ∈ R.drawn k, deeper y = deeper' y) :
    R.treeWith deeper t = R.treeWith deeper' t := by
  induction t using R.descent.parts_induct with
  | step t ih =>
    rw [R.treeWith_eq_node deeper, R.treeWith_eq_node deeper']
    refine R.node_congr (h t .refl) fun p hp => ih p hp fun x hx => ?_
    exact h x (.head hp hx)

variable {R}

theorem mem_fields_of_fieldOf? {s : SymbolId} {v : Field} (h : R.fieldOf? s = some v) :
    (s, v) ∈ R.fields := by
  obtain ⟨l₁, l₂, fields, -⟩ := List.lookup_eq_some_iff.mp h
  rw [← List.mem_reverse, fields]
  simp

variable (R)

/-- The sources that give anything. -/
def known : Finset Source :=
  (R.fields.map (Source.declared ∘ Prod.fst) ++
    R.setting.symbols.entries.map (Source.recorded ∘ Prod.fst)).toFinset

theorem card_known_lt : R.known.card < R.fields.length + R.setting.symbols.bound := by
  have := List.toFinset_card_le (R.fields.map (Source.declared ∘ Prod.fst) ++
    R.setting.symbols.entries.map (Source.recorded ∘ Prod.fst))
  simp only [List.length_append, List.length_map] at this
  simp only [known, SymbolTable.bound]
  omega

theorem mem_known {k : Source} {y : Tree} (h : y ∈ R.drawn k) : k ∈ R.known := by
  simp only [known, List.mem_toFinset, List.mem_append, List.mem_map]
  cases k with
  | recorded s =>
    right
    cases entry : R.setting.symbols.entries.lookup s with
    | none => simp [drawn, get, SymbolTable.get, entry] at h
    | some symbol =>
      obtain ⟨l₁, l₂, entries, -⟩ := List.lookup_eq_some_iff.mp entry
      exact ⟨(s, symbol), by simp [entries], rfl⟩
  | declared s =>
    left
    cases field : R.fieldOf? s with
    | none => simp [drawn, field] at h
    | some f =>
      exact ⟨(s, f), mem_fields_of_fieldOf? field, rfl⟩

theorem tree_eq_treeWith {t : Tree} (h : R.descent.Ends t) : R.tree t = R.treeWith R.tree t :=
  Descent.Ends.within_succ (D := R.descent) (fun _ _ hy => R.mem_known hy) R.card_known_lt
    R.treeWithin (fun _ _ _ => R.treeWith_congr) h

/-- A repair that comes to an end is made up of the repairs of its parts. -/
theorem tree_eq_node {t : Tree} (h : R.descent.Ends t) : R.tree t = R.node R.tree R.tree t := by
  rw [R.tree_eq_treeWith h, R.treeWith_eq_node]
  refine R.node_congr (fun _ _ _ _ => rfl) fun p hp => ?_
  exact (R.tree_eq_treeWith (h.of_visits (.single hp))).symm

end TreeRepair.Repair
