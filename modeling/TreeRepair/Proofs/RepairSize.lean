import TreeRepair.Proofs.InertAnnotations

namespace TreeRepair

namespace Tree

theorem size_eq_of_shape {t u : Tree} (h : t.shape = u.shape) : t.size = u.size := by
  obtain ⟨i, s⟩ := t
  obtain ⟨j, r⟩ := u
  obtain rfl : s = r := h
  rw [size_mk, size_mk]

theorem length_nodes_le {l k : List Tree} (h : List.Forall₂ (fun c d => c.size ≤ d.size) l k) :
    (l.flatMap nodes).length ≤ (k.flatMap nodes).length := by
  induction h with
  | nil => exact Nat.le_refl _
  | cons here _ ih =>
    rw [List.flatMap_cons, List.flatMap_cons, List.length_append, List.length_append]
    exact Nat.add_le_add here ih

theorem size_le_of_forall₂ {i j : Info} {s r : Shape Tree}
    (written : s.written.isSome = r.written.isSome)
    (h : List.Forall₂ (fun c d => c.size ≤ d.size) s.subtrees r.subtrees) :
    (⟨i, s⟩ : Tree).size ≤ (⟨j, r⟩ : Tree).size := by
  have := length_nodes_le h
  rw [size_mk, size_mk, written]
  omega

theorem size_mapChildren_le {i j : Info} {s : Shape Tree} {f : Tree → Tree}
    (h : ∀ c ∈ s.children, (f c).size ≤ c.size) :
    (⟨i, s.mapChildren f⟩ : Tree).size ≤ (⟨j, s⟩ : Tree).size := by
  refine size_le_of_forall₂ (by rw [Shape.written_mapChildren]) ?_
  rw [Shape.subtrees, Shape.children_mapChildren, Shape.written_mapChildren]
  refine List.rel_append (List.forall₂_map_left_iff.mpr (List.forall₂_same.mpr h)) ?_
  exact List.forall₂_same.mpr fun c _ => Nat.le_refl _

theorem size_valDef (i : Info) (mods : Modifiers Tree) (name : Name) (tpt rhs : Tree) :
    (⟨i, .valDef mods name tpt rhs⟩ : Tree).size =
      1 + (mods.annotations.flatMap nodes).length + tpt.size + rhs.size := by
  simp [size_mk, Shape.written, Shape.subtrees, Shape.children]
  omega

theorem size_defDef (i : Info) (mods : Modifiers Tree) (name : Name) (tparams : List Tree)
    (vparamss : List (List Tree)) (tpt rhs : Tree) :
    (⟨i, .defDef mods name tparams vparamss tpt rhs⟩ : Tree).size =
      1 + (mods.annotations.flatMap nodes).length +
        ((tparams ++ vparamss.flatten ++ [tpt, rhs]).flatMap nodes).length := by
  simp [size_mk, Shape.written, Shape.subtrees, Shape.children]
  omega

theorem size_le_of_same {t u : Tree} (h : t.same u = true) : t.size ≤ u.size := by
  induction t using induct generalizing u with
  | node i s ih =>
    obtain ⟨j, r⟩ := u
    obtain ⟨outline, below⟩ := same_mk.mp h
    refine size_le_of_forall₂ ?_ ?_
    · exact Shape.isSome_written_eq outline
    · exact (forall₂_with_mem below).imp fun c d hcd => ih c hcd.1 hcd.2

theorem size_initializer_lt {t : Tree} (h : t.assigns = true) : t.initializer.size < t.size := by
  obtain ⟨n, hn, assigns⟩ := List.any_eq_true.mp h
  unfold initializer
  cases found : t.preorder.findSome? _ with
  | none =>
    have := List.findSome?_eq_none_iff.mp found n hn
    split at assigns <;> simp_all
  | some r =>
    obtain ⟨m, hm, hr⟩ := List.exists_of_findSome?_eq_some found
    split at hr
    next l e shape =>
      cases hr
      have child : r ∈ m.children := by simp [Tree.children, shape, Shape.children]
      have smaller := size_lt_of_mem_children child
      have within := size_le_of_mem_preorder hm
      simp only [Option.getD_some]
      omega
    next => simp at hr

end Tree

namespace Repair

variable {R : Repair}

theorem ModsSettled.annotations_eq {s : SymbolId} {mods : Modifiers Tree}
    {recorded : List SymbolId} (h : R.ModsSettled s mods recorded) :
    R.annotations R.tree mods recorded = mods.annotations := by
  rw [R.annotations_eq_foldl]
  refine foldl_addIfNew_of_present fun a ha => ?_
  obtain ⟨r, hr, ha⟩ := List.mem_flatMap.mp ha
  obtain ⟨b, hb, rfl⟩ := List.mem_map.mp ha
  exact h.annotations r hr b hb

/-- Where there is nothing to repair but how lazy values are computed, a repair adds nothing. -/
theorem size_tree_le {x : Tree} (ends : R.descent.Ends x)
    (settled : ∀ y, x.Contains y → R.SettledNode y) : (R.tree x).size ≤ x.size := by
  induction x using R.descent.parts_induct with
  | step x ih =>
    have part {p : Tree} (hp : p ∈ R.parts x) (below : x.Contains p) :
        (R.tree p).size ≤ p.size :=
      ih p hp (ends.of_visits (.single hp)) fun y hy => settled y (below.trans hy)
    have here := settled x .refl
    rw [R.tree_eq_node ends]
    obtain ⟨i, shape⟩ := x
    have child {c : Tree} (hc : c ∈ shape.children) : (⟨i, shape⟩ : Tree).Contains c :=
      Tree.contains_of_mem_children hc
    cases shape with
    | typeTree w =>
      cases w with
      | none => exact Tree.size_mapChildren_le fun c hc => part hc (child hc)
      | some w =>
        have type := part (p := w) (by simp [parts]) (.single (by simp [Tree.subtrees, Shape.subtrees, Shape.written]))
        refine Tree.size_le_of_forall₂ rfl ?_
        simpa [Shape.subtrees, Shape.children, Shape.written] using type
    | ident name => exact (Tree.size_eq_of_shape (u := ⟨i, .ident name⟩) here).le
    | select q name =>
      refine Tree.size_le_of_forall₂ rfl ?_
      simpa [Shape.subtrees, Shape.children, Shape.written] using
        part (p := q) (by simp [parts, Setting.settleShape, Shape.children]) (child (by simp [Shape.children]))
    | unapply fn args =>
      have unrecognised : R.extractor? fn = none := here
      simp only [node, unrecognised]
      refine Tree.size_mapChildren_le (s := .unapply fn args) fun c hc => part ?_ (child hc)
      simpa [parts, unrecognised, Shape.children] using hc
    | valDef mods name tpt rhs =>
      obtain ⟨storage, lazily⟩ := here
      simp only [parts, storage, Bool.false_eq_true, if_false] at part
      simp only [node, storage, Bool.false_eq_true, if_false]
      split
      next s lazyGetter =>
        obtain ⟨modifiers, type⟩ := lazily s lazyGetter
        simp only [lazyGetter] at part
        have initial : (R.tree rhs.initializer).size ≤ rhs.size := by
          refine (part (R.initializer_mem_lazyParts s tpt rhs) ?_).trans rhs.size_initializer_le
          exact (child (by simp [Shape.children])).trans
            (Tree.contains_of_mem_preorder rhs.initializer_mem_preorder)
        rw [lazyValue, modifiers.annotations_eq, Tree.size_valDef, Tree.size_valDef]
        dsimp only
        cases field : R.fieldOf? s with
        | some f =>
          have := Tree.size_le_of_same (type f field)
          dsimp only
          omega
        | none =>
          have := part (p := tpt) (by simp [lazyParts, field]) (child (by simp [Shape.children]))
          dsimp only
          omega
      next lazyGetter =>
        simp only [lazyGetter] at part
        exact Tree.size_mapChildren_le fun c hc => part hc (child hc)
    | defDef mods name tparams vparamss tpt rhs =>
      simp only [SettledNode] at here
      simp only [parts] at part
      simp only [node]
      split at here
      next s role =>
        simp only [role] at part
        have below : ∀ c ∈ tparams ++ vparamss.flatten ++ [tpt, rhs], (R.tree c).size ≤ c.size := by
          refine fun c hc => part hc (child ?_)
          simp only [Shape.children, List.append_assoc] at hc ⊢
          exact List.mem_append_right _ hc
        have rest := Tree.length_nodes_le (List.forall₂_map_left_iff.mpr (List.forall₂_same.mpr below))
        simp only [role, methodParts, here.annotations_eq, Tree.size_defDef]
        simp only [List.map_append, List.map_flatten, List.map_cons, List.map_nil] at rest
        exact Nat.add_le_add_left rest _
      next role =>
        simp only [role] at part ⊢
        exact Tree.size_mapChildren_le fun c hc => part hc (child hc)
      next => exact here.elim
    | _ =>
      have kept : R.setting.settleShape R.usedHelpers _ = _ := here
      simp only [node, kept]
      refine Tree.size_mapChildren_le fun c hc => part ?_ (child hc)
      simpa only [parts, kept] using hc

end Repair

end TreeRepair
