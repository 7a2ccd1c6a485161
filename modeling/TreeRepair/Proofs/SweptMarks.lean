import TreeRepair.Proofs.DetachedReferences

namespace TreeRepair

theorem Tree.mem_preorder_mapChildren {i : Info} {s : Shape Tree} {f : Tree → Tree} {n : Tree} :
    n ∈ (⟨i, s.mapChildren f⟩ : Tree).preorder ↔
      n = ⟨i, s.mapChildren f⟩ ∨ ∃ c ∈ s.children, n ∈ (f c).preorder := by
  rw [mem_preorder, Tree.children, Shape.children_mapChildren]
  simp

theorem Tree.cleaned_of_mem_sweep {t n : Tree} (h : n ∈ t.sweep.preorder) :
    n.info.marks.cleaned = false := by
  induction t using Tree.mem_children_induct with
  | node i s ih =>
    rw [Conventions.sweep_mk] at h
    rcases Tree.mem_preorder_mapChildren.mp h with rfl | ⟨c, hc, hn⟩
    · rfl
    · exact ih c hc hn

/-- The removal of references stops at a mark, and what takes over from there removes the marks that
are below it as well. -/
theorem Setting.cleaned_of_mem_detach {W : Setting} {symbols : List SymbolId} {t n : Tree}
    (h : n ∈ (W.detach symbols t).preorder) : n.info.marks.cleaned = false := by
  induction t using Tree.mem_children_induct with
  | node i s ih =>
    rw [detach] at h
    split at h
    next => exact Tree.cleaned_of_mem_sweep h
    next unmarked =>
      split at h
      next u _ =>
        have bare := typeSyntax_writtenWithin (3 * W.symbols.bound) u u n h
        rw [bare.marks]
      next =>
        rw [Shape.pmapChildren_eq] at h
        rcases Tree.mem_preorder_mapChildren.mp h with rfl | ⟨c, hc, hn⟩
        · have kept : i.marks.cleaned = false := by simpa using unmarked
          dsimp only
          split <;> exact kept
        · exact ih c hc hn

theorem Shape.mem_others_mapImpl {s : Shape Tree} {f : Tree → Tree} {c : Tree} (h : c ∈ s.others)
    (kept : f c = c) : c ∈ (s.mapImpl f).others := by
  cases s with
  | moduleDef mods name impl =>
    have child : c ∈ mods.annotations ∨ c = impl := by
      simpa [Shape.others, Shape.children] using h
    rcases child with annotation | rfl
    · simp [Shape.others, Shape.mapImpl, Shape.children, annotation]
    · simp [Shape.others, Shape.mapImpl, Shape.children, kept]
  | classDef mods name tparams impl =>
    have child : c ∈ mods.annotations ++ tparams ∨ c = impl := by
      simpa [Shape.others, Shape.children, or_assoc] using h
    rcases child with inFront | rfl
    · exact List.mem_append_left _ inFront
    · simp [Shape.others, Shape.mapImpl, Shape.children, kept]
  | _ => exact h

namespace Conventions

variable (C : Conventions)

theorem mem_children_cleanShape_of_mem_others {s : Shape Tree} {c : Tree} (h : c ∈ s.others) :
    c ∈ (C.cleanShape s).children := by
  cases s with
  | template parents self body =>
    have inFront : c ∈ parents ∨ c = self := by simpa [Shape.others] using h
    rcases inFront with parent | rfl
    · simp [cleanShape, Shape.children, parent]
    · simp [cleanShape, Shape.children]
  | packageDef pid stats =>
    obtain rfl := List.mem_singleton.mp h
    simp [cleanShape, Shape.children]
  | block stats expr => simp [Shape.others] at h
  | _ => exact h

/-- A tree of its own is never removed, as it has no case class beside it. -/
theorem cleanStatement_alone (t : Tree) :
    C.cleanStatement (caseClassNames [t]) t = t ∨
      C.cleanStatement (caseClassNames [t]) t =
        ⟨t.info.mark .cleaned, t.shape.mapImpl C.withoutGenerated⟩ := by
  have kept : dropsDeclaration (caseClassNames [t]) t.shape.declaration? = false := by
    obtain ⟨i, s⟩ := t
    cases s <;> rfl
  rw [cleanStatement_eq, kept, if_neg Bool.false_ne_true]
  split
  · exact .inr rfl
  · exact .inl rfl

theorem withoutGenerated_of_case {c : Tree} {name : Name} (case : c.shape.caseName? = some name) :
    C.withoutGenerated c = c := by
  obtain ⟨i, s⟩ := c
  cases s with
  | template parents self body => cases case
  | _ => rfl

/-- A case class without a mark is reported wherever it stands, unless it is a statement there. -/
theorem mem_misplaced_of_mem_others {t c : Tree} {name : Name} (h : c ∈ t.shape.others)
    (case : c.shape.caseName? = some name) (unmarked : c.info.marks.cleaned = false) :
    ⟨c.info.pos, name⟩ ∈ C.misplaced (C.cleanStatement (caseClassNames [t]) t) := by
  have reported : ⟨c.info.pos, name⟩ ∈ C.misplaced c := by
    obtain ⟨i, s⟩ := c
    have case : s.caseName? = some name := case
    have unmarked : i.marks.cleaned = false := unmarked
    rw [misplaced_mk, case, unmarked]
    exact List.mem_cons_self
  have above {u : Tree} (hu : c ∈ u.shape.others) : ⟨c.info.pos, name⟩ ∈ C.misplaced u := by
    obtain ⟨i, s⟩ := u
    rw [misplaced_mk]
    refine List.mem_append_right _ (List.mem_flatMap.mpr ⟨c, ?_, reported⟩)
    exact C.mem_children_cleanShape_of_mem_others hu
  rcases C.cleanStatement_alone t with same | cleaned
  · rw [same]
    exact above h
  · rw [cleaned]
    exact above (Shape.mem_others_mapImpl h (C.withoutGenerated_of_case case))

end Conventions

/-- No mark of a cleaned declaration is left, whatever was marked before. A case class that is moved
away from its statements is therefore an error in the next run. -/
theorem no_cleaned_mark_left (W : Setting) {t r : Tree} {ms : List Misplaced}
    (restored : W.restoreCaseClasses t = .ok (r, ms)) :
    ∀ n ∈ r.preorder, n.info.marks.cleaned = false ∧
      ∀ name v, n.shape.caseName? = some name → n ∈ v.shape.others →
        W.conventions.strict = true → ∃ m, W.restoreCaseClasses v = .error m := by
  intro n hn
  rw [Setting.restoreCaseClasses_eq_ok restored] at hn
  have unmarked : n.info.marks.cleaned = false := Setting.cleaned_of_mem_detach hn
  refine ⟨unmarked, fun name v case moved strict => ?_⟩
  have reported := W.conventions.mem_misplaced_of_mem_others moved case unmarked
  obtain ⟨m, others, first⟩ := List.exists_cons_of_ne_nil (List.ne_nil_of_mem reported)
  refine ⟨m, ?_⟩
  simp only [Setting.restoreCaseClasses, strict, first]

/-- A case class within a case class, with marks that are left over on a method of the outer one, on
the inner one, and on a third one that stands as a value. -/
def staleRecords : Tree :=
  .bare (.packageDef .empty
    [caseClass {} "Outer"
      [⟨{ marks := { cleaned := true } }, .defDef {} (.term "m") [] [] (.bare (.typeTree none))
        .empty⟩,
       caseClass { pos := { line := 4 }, marks := { cleaned := true } } "Inner" []],
     .bare (.valDef {} (.term "x") (.bare (.typeTree none))
      (caseClass { marks := { cleaned := true } } "Value" []))])

def sweptRecords : Tree :=
  .bare (.packageDef .empty
    [caseClass {} "Outer"
      [.bare (.defDef {} (.term "m") [] [] (.bare (.typeTree none)) .empty),
       caseClass { pos := { line := 4 } } "Inner" []],
     .bare (.valDef {} (.term "x") (.bare (.typeTree none)) (caseClass {} "Value" []))])

/-- All marks are gone, and the inner case class is refused where it is made a value. -/
theorem staleRecords_restored :
    (recordSetting true).restoreCaseClasses staleRecords = .ok (sweptRecords, []) ∧
      (∀ n ∈ sweptRecords.preorder, n.info.marks.cleaned = false) ∧
      ∃ m, (recordSetting true).restoreCaseClasses (.bare (.valDef {} (.term "y")
        (.bare (.typeTree none)) (caseClass { pos := { line := 4 } } "Inner" []))) = .error m := by
  have restored : (recordSetting true).restoreCaseClasses staleRecords =
      .ok (sweptRecords, []) := by cbv
  have general := no_cleaned_mark_left (recordSetting true) restored
  refine ⟨restored, fun n hn => (general n hn).1, ?_⟩
  have inner : caseClass { pos := { line := 4 } } "Inner" [] ∈ sweptRecords.preorder :=
    Tree.mem_preorder_of_at? (p := [1, 0, 2]) rfl
  refine (general _ inner).2 (.type "Inner") _ rfl ?_ rfl
  simp [Tree.bare, Shape.others, Shape.children]

end TreeRepair
