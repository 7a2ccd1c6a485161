import TreeRepair.Proofs.Occurrence
import TreeRepair.Proofs.Same
import TreeRepair.Tree.Traversal

namespace TreeRepair

namespace Shape

/-- The name by which a node refers to something. -/
def reference? {α : Type} : Shape α → Option Name
  | .ident n | .select _ n => some n
  | _ => none

/-- What a node becomes when references to one name become references to another: they change their
name, and any other node keeps all that it holds besides its children. -/
inductive Renamed (a b : Name) : Shape Tree → Shape Tree → Prop
  | ident : Renamed a b (.ident a) (.ident b)
  | select (q r : Tree) : Renamed a b (.select q a) (.select r b)
  | other {s u : Shape Tree} (different : s.reference? ≠ some a) (alike : u.Alike s) :
    Renamed a b s u

variable {a b : Name}

theorem Alike.ctorIdx_eq {s u : Shape Tree} (h : s.Alike u) : s.ctorIdx = u.ctorIdx := by
  have blank (v : Shape Tree) : (v.mapChildren fun _ => .empty).ctorIdx = v.ctorIdx := by
    cases v <;> rfl
  rw [← blank s, h, blank u]

theorem Renamed.ctorIdx_eq {s u : Shape Tree} (h : Renamed a b s u) : u.ctorIdx = s.ctorIdx := by
  cases h with
  | ident => rfl
  | select => rfl
  | other _ alike => exact alike.ctorIdx_eq

theorem renameHead_of_ne {s : Shape Tree} (h : s.reference? ≠ some a) : s.renameHead a b = s := by
  cases s with
  | ident n => rw [renameHead, if_neg fun same => h (congrArg some same)]
  | select q n => rw [renameHead, if_neg fun same => h (congrArg some same)]
  | _ => rfl

@[simp]
theorem children_renameHead (s : Shape Tree) : (s.renameHead a b).children = s.children := by
  cases s <;> rfl

theorem mapChildren_renameHead (f : Tree → Tree) (s : Shape Tree) :
    (s.renameHead a b).mapChildren f = (s.mapChildren f).renameHead a b := by
  cases s <;> rfl

theorem renamed_renameHead (f : Tree → Tree) (s : Shape Tree) :
    Renamed a b s ((s.mapChildren f).renameHead a b) := by
  by_cases refers : s.reference? = some a
  · cases s with
    | ident n =>
      obtain rfl := Option.some.inj refers
      rw [mapChildren, renameHead, if_pos rfl]
      exact .ident
    | select q n =>
      obtain rfl := Option.some.inj refers
      rw [mapChildren, renameHead, if_pos rfl]
      exact .select q (f q)
    | _ => cases refers
  · rw [← mapChildren_renameHead, renameHead_of_ne refers]
    exact .other refers (alike_mapChildren_left.mpr rfl)

/-- A reference comes back under its own name, unless it had the new name before. -/
theorem renameHead_renameHead_eq_iff (s : Shape Tree) :
    (s.renameHead a b).renameHead b a = s ↔ a = b ∨ s.reference? ≠ some b := by
  have name (n : Name) :
      (if (if n = a then b else n) = b then a else if n = a then b else n) = n ↔
        a = b ∨ n ≠ b := by
    grind
  cases s with
  | ident n => simpa [renameHead, reference?] using name n
  | select q n => simpa [renameHead, reference?] using name n
  | _ => simp [renameHead, reference?]

end Shape

namespace Tree

variable {a b : Name}

theorem rename_mk (i : Info) (s : Shape Tree) :
    (⟨i, s⟩ : Tree).rename a b = ⟨i, (s.mapChildren (rename a b)).renameHead a b⟩ := by
  rw [rename, Shape.pmapChildren_eq]

theorem children_rename (t : Tree) : (t.rename a b).children = t.children.map (rename a b) := by
  obtain ⟨i, s⟩ := t
  simp [rename_mk, children]

/-- Renaming there and back gives the tree that one started from, unless the new name was in use. -/
theorem rename_rename_eq_iff (t : Tree) :
    (t.rename a b).rename b a = t ↔ a = b ∨ ∀ n ∈ t.preorder, n.shape.reference? ≠ some b := by
  induction t using mem_children_induct with
  | node i s ih =>
    have rebuilt : ((⟨i, s⟩ : Tree).rename a b).rename b a = ⟨i,
        ((s.renameHead a b).renameHead b a).mapChildren fun c => (c.rename a b).rename b a⟩ := by
      simp only [rename_mk, Shape.mapChildren_renameHead, Shape.mapChildren_mapChildren]
    have split : ((⟨i, s⟩ : Tree).rename a b).rename b a = ⟨i, s⟩ ↔
        (s.renameHead a b).renameHead b a = s ∧
          ∀ c ∈ s.children, (c.rename a b).rename b a = c := by
      rw [rebuilt, mk.injEq, and_iff_right rfl]
      constructor
      · intro back
        have children := congrArg Shape.children back
        rw [Shape.children_mapChildren, Shape.children_renameHead, Shape.children_renameHead]
          at children
        have below := List.map_inj_left.mp (children.trans (List.map_id _).symm)
        rw [Shape.mapChildren_eq_self (by simpa using below)] at back
        exact ⟨back, below⟩
      · rintro ⟨here, below⟩
        rw [here, Shape.mapChildren_eq_self below]
    rw [split, Shape.renameHead_renameHead_eq_iff, forall_mem_preorder]
    -- a name that is replaced by itself may be in use
    by_cases same : a = b
    · simpa [same] using fun c hc => (ih c hc).mpr (.inl same)
    · simp only [same, false_or] at ih ⊢
      exact and_congr_right fun _ => forall₂_congr ih

end Tree

/-- Renaming takes the nodes of a tree one by one, in order, and what is attached to them stays. It
can be taken back exactly where the new name was not in use. -/
theorem renamed_node_by_node (a b : Name) (t : Tree) :
    List.Forall₂ (fun n m => m.info = n.info ∧ m.shape.ctorIdx = n.shape.ctorIdx ∧
        n.shape.Renamed a b m.shape) t.preorder (t.rename a b).preorder ∧
      ((t.rename a b).rename b a = t ↔
        a = b ∨ ∀ n ∈ t.preorder, n.shape.reference? ≠ some b) := by
  refine ⟨?_, Tree.rename_rename_eq_iff t⟩
  rw [Tree.preorder_of_children Tree.children_rename, List.forall₂_map_right_iff,
    List.forall₂_same]
  rintro ⟨i, s⟩ -
  rw [Tree.rename_mk]
  have renamed : s.Renamed a b _ := Shape.renamed_renameHead (Tree.rename a b) s
  exact ⟨rfl, renamed.ctorIdx_eq, renamed⟩

end TreeRepair
