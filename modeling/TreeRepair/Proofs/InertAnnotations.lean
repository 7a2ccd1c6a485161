import TreeRepair.Proofs.RepairFixpoint

namespace TreeRepair

open Relation

namespace Repair

variable (R : Repair)

/-- A node that declares nothing and refers to things as a repair would have it, and to none of
the given helpers by selection. -/
def InertNode (helpers : List SymbolId) : Tree → Prop
  | ⟨i, .ident name⟩ => R.identifier i name = ⟨i, .ident name⟩
  | ⟨i, .select _ name⟩ => ∀ s, i.symbol = some s → (R.get s).name = name ∧ s ∉ helpers
  | ⟨_, .unapply _ _⟩ => False
  | ⟨_, .valDef _ _ _ _⟩ => False
  | ⟨_, .defDef _ _ _ _ _ _⟩ => False
  | _ => True

def Inert (helpers : List SymbolId) (t : Tree) : Prop :=
  ∀ n, t.Contains n → R.InertNode helpers n

variable {R} {helpers : List SymbolId}

theorem selection_of_unused {i : Info} {name : Name} {s : SymbolId} (symbol : i.symbol = some s)
    (unused : s ∉ R.usedHelpers) :
    R.selection i name = ({ i with marks := {} }, (R.get s).name) := by
  simp only [selection, symbol, List.contains_iff_mem, unused, if_false]

theorem InertNode.undeclaring {n : Tree} (h : R.InertNode helpers n) (s : SymbolId) :
    n.declares s = false := by
  obtain ⟨i, shape⟩ := n
  cases shape <;> first | rfl | exact h.elim

theorem inertNode_path (n : Nat) (v : SymbolId) :
    R.InertNode helpers (R.setting.pathWithin n v) := by
  cases n with
  | zero => rfl
  | succ n =>
    simp only [Setting.pathWithin]
    split
    · rfl
    · split
      · rfl
      · simp [Tree.bare, InertNode]

theorem InertNode.tree {x : Tree} (used : ∀ s ∈ R.usedHelpers, s ∈ helpers) (ends : R.descent.Ends x)
    (h : R.InertNode helpers x) : R.InertNode helpers (R.tree x) := by
  rw [R.tree_eq_node ends]
  obtain ⟨i, shape⟩ := x
  cases shape with
  | typeTree w => cases w <;> trivial
  | ident name =>
    have stays : R.identifier i name = ⟨i, .ident name⟩ := h
    rw [node, stays]
    exact stays
  | select q name =>
    cases symbol : i.symbol with
    | none => simp [node, selection, InertNode, symbol]
    | some s =>
      obtain ⟨spelled, foreign⟩ := h s symbol
      rw [node, selection_of_unused symbol fun hs => foreign (used s hs)]
      simpa [InertNode, symbol] using foreign
  | unapply fn args => exact h.elim
  | valDef mods name tpt rhs => exact h.elim
  | defDef mods name tparams vparamss tpt rhs => exact h.elim
  | block stats expr =>
    simp only [node, Setting.settleShape]
    split <;> trivial
  | _ => trivial

theorem Inert.below {t c : Tree} (h : R.Inert helpers t) (hc : t.Contains c) :
    R.Inert helpers c := fun n hn => h n (hc.trans hn)

theorem inert_path (n : Nat) (v : SymbolId) : R.Inert helpers (R.setting.pathWithin n v) := by
  intro c hc
  obtain ⟨m, o, rfl⟩ := contains_path hc
  exact inertNode_path m o

theorem Inert.undeclaring {t : Tree} (h : R.Inert helpers t) : t.Undeclaring :=
  fun n hn => (h n hn).undeclaring

theorem Inert.tree {t : Tree} (used : ∀ s ∈ R.usedHelpers, s ∈ helpers)
    (h : R.Inert helpers t) : R.Inert helpers (R.tree t) :=
  forall_contains_tree trivial inertNode_path (fun _ h => h.undeclaring)
    (fun _ ends h => h.tree used ends) h

theorem Inert.settledNode {t : Tree} (used : ∀ s ∈ R.usedHelpers, s ∈ helpers)
    (h : R.Inert helpers t) : R.SettledNode t ∧ R.SettledInitial t := by
  have noHelper : ∀ c ∈ t.shape.children, R.setting.isDefaultHelper c = false := by
    intro c hc
    by_contra helper
    obtain ⟨s, declared⟩ := R.setting.declares_of_isDefaultHelper (by simpa using helper)
    rw [h.undeclaring c (Tree.contains_of_mem_children hc)] at declared
    contradiction
  have here := h t .refl
  obtain ⟨i, shape⟩ := t
  cases shape with
  | ident name =>
    have stays : R.identifier i name = ⟨i, .ident name⟩ := here
    exact ⟨by rw [SettledNode, stays], trivial⟩
  | select q name =>
    refine ⟨?_, trivial⟩
    cases symbol : i.symbol with
    | none => simp [SettledNode, selection, symbol]
    | some s =>
      obtain ⟨spelled, foreign⟩ := here s symbol
      rw [SettledNode, selection_of_unused symbol fun hs => foreign (used s hs)]
      exact spelled
  | unapply fn args => exact here.elim
  | valDef mods name tpt rhs => exact here.elim
  | defDef mods name tparams vparamss tpt rhs => exact here.elim
  | _ => exact ⟨R.setting.settleShape_of_no_helper _ noHelper, trivial⟩

theorem mem_subtrees_of_mem_keptParts {t p : Tree} (h : p ∈ R.keptParts t) : p ∈ t.subtrees := by
  obtain ⟨i, shape⟩ := t
  have child (hp : p ∈ shape.children) : p ∈ (⟨i, shape⟩ : Tree).subtrees :=
    List.mem_append_left _ hp
  cases shape with
  | typeTree w =>
    cases w with
    | none => exact child h
    | some w => exact List.mem_append_right _ h
  | valDef mods name tpt rhs =>
    simp only [keptParts] at h
    refine child ?_
    split at h
    · simp only [Shape.children]
      grind
    · exact h
  | defDef mods name tparams vparamss tpt rhs =>
    simp only [keptParts] at h
    refine child ?_
    split at h
    · simp only [Shape.children, List.append_assoc] at h ⊢
      exact List.mem_append_right _ h
    · exact h
  | _ => exact child h

theorem Keeps.contains {t x : Tree} (h : R.Keeps t x) : t.Contains x := by
  induction h with
  | refl => exact .refl
  | tail _ hp ih => exact ih.tail (mem_subtrees_of_mem_keptParts hp)

/-- A repair leaves inert trees as they are. -/
theorem Inert.same_tree {t : Tree} (used : ∀ s ∈ R.usedHelpers, s ∈ helpers)
    (h : R.Inert helpers t) : (R.tree t).same t = true :=
  (R.same_tree_iff_settled (ends_of_undeclaring h.undeclaring)).mpr fun _ hx =>
    (h.below hx.contains).settledNode used

end Repair

end TreeRepair
