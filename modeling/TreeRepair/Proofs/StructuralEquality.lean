import TreeRepair.Proofs.AddedAnnotations
import TreeRepair.Proofs.RenamedTrees
import TreeRepair.Proofs.StandardForms

namespace TreeRepair

namespace Shape

variable {a b : Name}

theorem ctorIdx_outline {α : Type} (s : Shape α) : s.outline.ctorIdx = s.ctorIdx := by
  cases s <;> rfl

theorem outline_renameHead (s : Shape Tree) :
    (s.renameHead a b).outline = s.outline.renameHead a b := by
  cases s <;> rfl

theorem subtrees_renameHead (s : Shape Tree) : (s.renameHead a b).subtrees = s.subtrees := by
  cases s <;> rfl

end Shape

namespace Tree

theorem kinds_eq_of_same {t u : Tree} (h : t.same u = true) :
    t.preorder.map (fun n => n.shape.ctorIdx) = u.preorder.map fun n => n.shape.ctorIdx := by
  rw [← List.forall₂_eq_eq_eq, List.forall₂_map_left_iff, List.forall₂_map_right_iff]
  refine (forall₂_preorder_of_same h).imp fun n m same => ?_
  rw [← Shape.ctorIdx_outline, outline_eq_of_same same, Shape.ctorIdx_outline]

theorem same_rename {a b : Name} {t u : Tree} (h : t.same u = true) :
    (t.rename a b).same (u.rename a b) = true := by
  induction t using mem_children_induct generalizing u with
  | node i s ih =>
    obtain ⟨j, v⟩ := u
    have below : (⟨i, s.mapChildren (rename a b)⟩ : Tree).same ⟨j, v.mapChildren (rename a b)⟩ =
        true := same_mapChildren h fun c hc d same => ih c hc same
    obtain ⟨outline, subtrees⟩ := same_mk.mp below
    rw [rename_mk, rename_mk, same_mk, Shape.outline_renameHead, outline,
      ← Shape.outline_renameHead, Shape.subtrees_renameHead, Shape.subtrees_renameHead]
    exact ⟨rfl, subtrees⟩

end Tree

/-- To be the same is an equivalence of trees: the same standard form, with constants taken by
value. Parts that are the same make nodes that are the same, and nothing that is attached to a node
counts. Trees that are the same cannot be told apart by a walk through the kinds of their nodes, by
what they stand for, by a renaming or by a merge of annotations. -/
theorem same_equivalence_respected :
    Equivalence (fun t u : Tree => t.same u = true) ∧
    (∀ t u : Tree, t.same u = true ↔ t.standard = u.standard) ∧
    (∀ a b : Constant, a.canonical = b.canonical ↔ a.value = b.value) ∧
    (∀ (i j : Info) (s : Shape (Tree × Tree)), (∀ p ∈ s.subtrees, p.1.same p.2 = true) →
      (⟨i, s.map Prod.fst⟩ : Tree).same ⟨j, s.map Prod.snd⟩ = true) ∧
    (∀ t t' u u' : Tree, t.Reattached t' → u.Reattached u' → t.same u = t'.same u') ∧
    (∀ t u : Tree, t.same u = true →
      t.preorder.map (fun n => n.shape.ctorIdx) = u.preorder.map (fun n => n.shape.ctorIdx) ∧
      t.isType = u.isType ∧ t.isEmpty = u.isEmpty ∧
      ∀ a b : Name, (t.rename a b).same (u.rename a b) = true) ∧
    ∀ (declared declared' : List Tree) (recorded recorded' : List (List Tree)),
      List.Forall₂ (fun c d => c.same d = true) declared declared' →
      List.Forall₂ (List.Forall₂ fun c d => c.same d = true) recorded recorded' →
      List.Forall₂ (fun c d => c.same d = true) (addAnnotations declared recorded)
        (addAnnotations declared' recorded') := by
  refine ⟨⟨Tree.same_refl, Tree.same_symm, Tree.same_trans⟩, fun _ _ => Tree.same_iff_standard,
    fun _ _ => Constant.canonical_eq_iff, fun _ _ _ => Tree.same_map, ?_, ?_,
    fun _ _ _ _ => forall₂_addAnnotations⟩
  · intro t t' u u' ht hu
    exact Tree.same_congr ht.same hu.same
  · intro t u h
    exact ⟨Tree.kinds_eq_of_same h, Tree.isType_eq_of_same h, Tree.isEmpty_eq_of_same h,
      fun _ _ => Tree.same_rename h⟩

/-- A call with a constant and a resolved type, each with the same things attached. -/
def switchCall (i : Info) (c : Constant) : Tree :=
  ⟨i, .apply ⟨i, .ident (.term "set")⟩
    [⟨i, .literal c⟩, ⟨i, .typeTree (some ⟨i, .ident (.type "Switch")⟩)⟩]⟩

theorem switchCall_reattached (i j : Info) (c : Constant) :
    (switchCall i c).Reattached (switchCall j c) := by
  have name : Tree.Reattached ⟨i, .ident (.term "set")⟩ ⟨j, .ident (.term "set")⟩ :=
    .node i j (.ident (.term "set")) (by simp [Shape.subtrees, Shape.children, Shape.written])
  have literal : Tree.Reattached ⟨i, .literal c⟩ ⟨j, .literal c⟩ :=
    .node i j (.literal c) (by simp [Shape.subtrees, Shape.children, Shape.written])
  have written : Tree.Reattached ⟨i, .ident (.type "Switch")⟩ ⟨j, .ident (.type "Switch")⟩ :=
    .node i j (.ident (.type "Switch")) (by simp [Shape.subtrees, Shape.children, Shape.written])
  have type : Tree.Reattached ⟨i, .typeTree (some ⟨i, .ident (.type "Switch")⟩)⟩
      ⟨j, .typeTree (some ⟨j, .ident (.type "Switch")⟩)⟩ :=
    .node i j (.typeTree (some (_, _)))
      (by simpa [Shape.subtrees, Shape.children, Shape.written] using written)
  exact .node i j (.apply (_, _) [(_, _), (_, _)])
    (by simpa [Shape.subtrees, Shape.children, Shape.written] using ⟨name, literal, type⟩)

theorem switchCall_same (i j : Info) :
    (switchCall i (.bool true)).same (switchCall j (.int 1)) = true := by
  have constant : (switchCall i (.bool true)).same (switchCall i (.int 1)) = true := by
    simp [switchCall, Tree.same_mk, Shape.outline, Shape.subtrees, Shape.children, Shape.written,
      Constant.canonical]
  exact Tree.same_trans constant (switchCall_reattached i j _).same

theorem switchCalls_interchangeable :
    let t := switchCall {} (.bool true)
    let t' := switchCall { marks := { written := true } } (.bool true)
    let u := switchCall { symbol := some ⟨"set"⟩ } (.int 1)
    t.Reattached t' ∧ t.same u = t'.same u ∧ t.same u = true ∧
      (Tree.bare (.new t)).same (.bare (.new u)) = true ∧
      (t.preorder.map (fun n => n.shape.ctorIdx) = u.preorder.map (fun n => n.shape.ctorIdx) ∧
        t.isType = u.isType ∧ t.isEmpty = u.isEmpty ∧
        (t.rename (.term "set") (.term "put")).same (u.rename (.term "set") (.term "put")) =
          true) ∧
      List.Forall₂ (fun c d => c.same d = true) (addAnnotations [t] [[u]])
        (addAnnotations [u] [[t]]) := by
  intro t t' u
  obtain ⟨-, -, -, built, reattached, alike, merged⟩ := same_equivalence_respected
  have other : t.Reattached t' := switchCall_reattached _ _ _
  have same : t.same u = true := switchCall_same _ _
  obtain ⟨kinds, type, empty, renamed⟩ := alike t u same
  refine ⟨other, reattached t t' u u other (switchCall_reattached _ _ _), same, ?_,
    ⟨kinds, type, empty, renamed _ _⟩, ?_⟩
  · exact built {} {} (.new (t, u))
      (by simpa [Shape.subtrees, Shape.children, Shape.written] using same)
  · exact merged _ _ _ _ (.cons same .nil) (.cons (.cons (Tree.same_symm same) .nil) .nil)

end TreeRepair
