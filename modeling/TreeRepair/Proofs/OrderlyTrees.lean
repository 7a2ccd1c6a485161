import TreeRepair.Proofs.RepairKinds

namespace TreeRepair

open Relation

/-- The repair of a tree that is repaired already. -/
abbrev Setting.secondRepair (W : Setting) (owner : Option SymbolId) (t : Tree) : Repair :=
  .ofTree W owner (W.repairChecked owner t)

/-- A checked tree in which nothing can be mistaken for something else once it is repaired.
Accessors have no accessors themselves, lazy values are recorded only for what stores them, and
annotations that are not repaired need no repair. -/
structure Orderly (W : Setting) (owner : Option SymbolId) (t : Tree) : Prop where
  getters : ∀ s, (W.symbols.get s).isGetter = true →
    (W.symbols.get s).getter = none ∧ (W.symbols.get s).setter = none
  computed : ∀ s, (W.symbols.get s).isGetter = true → (W.symbols.get s).isLazy = true →
    (W.symbols.get s).isArtifact = false
  recorded : ∀ s, ∀ a ∈ (W.symbols.get s).annotations,
    (Repair.ofTree W owner t).Inert (W.definedHelpers t) a
  unrepaired : ∀ x, t.Contains x → ∀ a ∈ (Repair.ofTree W owner t).rawAnnotations x,
    (Repair.ofTree W owner t).Inert (W.definedHelpers t) a
  patterns : ∀ i fn args, t.Contains ⟨i, .unapply fn args⟩ →
    ((Repair.ofTree W owner t).extractor? fn).isSome = true
  paths : ∀ i name s, t.Contains ⟨i, .ident name⟩ → i.symbol = some s →
    (Repair.ofTree W owner t).identifier i name ≠ ⟨i, .ident name⟩ →
    (W.nameOf s).toTerm = W.nameOf s ∧ s ∉ W.definedHelpers t
  stored : ∀ v : Field, t.Contains v.toTree → ∀ s g, v.info.symbol = some s →
    (W.symbols.get s).getter = some g ∨ (W.symbols.get s).setter = some g →
    (W.symbols.get g).isLazy = true →
    (Repair.ofTree W owner t).isStorage v.info v.tpt v.rhs = true
  storage : ∀ v : Field, t.Contains v.toTree → ∀ s, v.info.symbol = some s →
    (W.symbols.get s).isLazy = true → (W.symbols.get s).isArtifact = true →
    v.rhs.kind ≠ .value ∧ v.rhs.kind ≠ .method
  distinct : ∀ x, t.Contains x → (W.helperNames x.shape.statements).Nodup

namespace Repair

variable {R : Repair} {P : Tree → Prop}

theorem Stems.cases {x : Tree} (h : R.Stems P x) :
    P x ∨ x = .empty ∨ ∃ m : Method, x = m.toTree ∧ m.info.symbol = none := by
  cases h with
  | part h => exact .inl h
  | gap => exact .inr (.inl rfl)
  | @copy y h helper =>
    obtain ⟨m, -, rfl, -⟩ := R.setting.method_of_isDefaultHelper helper
    exact .inr (.inr ⟨⟨_, _, _, _, _, _, _⟩, rfl, rfl⟩)

theorem Stems.mem_of_kind {x : Tree} (h : R.Stems P x) (notGap : x.kind ≠ .gap)
    (notMethod : x.kind ≠ .method) : P x := by
  rcases h.cases with here | rfl | ⟨m, rfl, -⟩
  · exact here
  · exact absurd rfl notGap
  · exact absurd rfl notMethod

theorem Stems.rawAnnotations {x a : Tree} (h : R.Stems P x) (ha : a ∈ R.rawAnnotations x) : P x := by
  rcases h.cases with here | rfl | ⟨m, rfl, unresolved⟩
  · exact here
  · simp [Repair.rawAnnotations, Tree.empty, Tree.bare] at ha
  · simp [Repair.rawAnnotations, Method.toTree, role, unresolved] at ha

/-- What is found in a repaired tree: what was repaired, and what needs no repair. -/
def Arises (R : Repair) (helpers : List SymbolId) (P : Tree → Prop) (c : Tree) : Prop :=
  (∃ x, R.descent.Ends x ∧ R.Stems P x ∧ c = R.tree x) ∨ R.Inert helpers c

end Repair

namespace Orderly

variable {W : Setting} {owner : Option SymbolId} {t : Tree}

theorem mem_definedHelpers {s : SymbolId} (h : s ∈ W.usedHelpers t) : s ∈ W.definedHelpers t := by
  obtain ⟨n, -, hn⟩ := List.mem_filterMap.mp h
  split at hn
  · simpa using (Option.filter_eq_some_iff.mp hn).2
  · simp at hn

theorem arises_below (orderly : Orderly W owner t) {P : Tree → Prop}
    (inTree : ∀ x, P x → t.Contains x) (all : ∀ x ∈ t.preorder, P x)
    (down : ∀ x c, P x → c ∈ x.children → P c) {x c : Tree}
    (ends : (Repair.ofTree W owner t).descent.Ends x) (stems : (Repair.ofTree W owner t).Stems P x)
    (written : ∀ w, x.shape.written = some w → P w)
    (hc : c ∈ ((Repair.ofTree W owner t).tree x).subtrees) :
    (Repair.ofTree W owner t).Arises (W.definedHelpers t) P c := by
  rw [Repair.tree_eq_node _ ends] at hc
  rcases Repair.mem_subtrees_node _ hc with ⟨p, hp, rfl⟩ | ⟨k, hk, y, hy, rfl⟩ | raw | ⟨n, v, rfl⟩
  · exact .inl ⟨p, ends.of_visits (.single hp), stems.of_mem_parts down written hp, rfl⟩
  · cases k with
    | declared s =>
      exact .inl ⟨y, ends.of_drawn hk hy, .part (all y (Repair.mem_preorder_of_drawn hy)), rfl⟩
    | recorded s =>
      exact .inr ((orderly.recorded s y hy).tree fun s hs => mem_definedHelpers hs)
  · exact .inr (orderly.unrepaired x (inTree x (stems.rawAnnotations raw)) c raw)
  · exact .inr (Repair.inert_path n v)

theorem arises_contains (orderly : Orderly W owner t) (ends : (Repair.ofTree W owner t).descent.Ends t)
    {c : Tree} (hc : (W.repairChecked owner t).Contains c) :
    (Repair.ofTree W owner t).Arises (W.definedHelpers t) t.Contains c := by
  induction hc with
  | refl => exact .inl ⟨t, ends, .part .refl, rfl⟩
  | tail _ hc ih =>
    rcases ih with ⟨x, ends, stems, rfl⟩ | inert
    · exact orderly.arises_below (fun _ h => h) (fun _ => Tree.contains_of_mem_preorder)
        Tree.contains_down ends stems (fun _ => stems.contains_written) hc
    · exact .inr (inert.below (.single hc))

theorem arises_preorder (orderly : Orderly W owner t) (ends : (Repair.ofTree W owner t).descent.Ends t)
    {c : Tree} (hc : c ∈ (W.repairChecked owner t).preorder) :
    (Repair.ofTree W owner t).Arises (W.definedHelpers t) (· ∈ t.preorder) c := by
  refine Tree.of_mem_preorder (fun x d arises hd => ?_) hc
    (.inl ⟨t, ends, .part t.self_mem_preorder, rfl⟩)
  rcases arises with ⟨y, ends, stems, rfl⟩ | inert
  · refine orderly.arises_below (fun _ => Tree.contains_of_mem_preorder) (fun _ h => h)
      Tree.preorder_down ends stems (fun w hw => ?_) (List.mem_append_left _ hd)
    rw [Repair.tree_eq_node _ ends] at hd
    obtain ⟨i, shape⟩ := y
    cases shape <;> simp only [Shape.written, reduceCtorEq] at hw
    -- a walk does not enter the written form of a resolved type
    case typeTree original =>
      subst hw
      simp [Repair.node, Tree.children, Shape.children] at hd
  · exact .inr (inert.below (Tree.contains_of_mem_children hd))

theorem mem_definedHelpers_iff {s : SymbolId} : s ∈ W.definedHelpers t ↔
    ∃ n ∈ t.preorder, W.isDefaultHelper n = true ∧ n.symbol = some s := by
  simp only [Setting.definedHelpers, List.mem_filterMap, Option.ite_none_right_eq_some]

/-- A repair adds no helpers. -/
theorem mem_definedHelpers_of_repaired (orderly : Orderly W owner t)
    (ends : (Repair.ofTree W owner t).descent.Ends t) {s : SymbolId}
    (h : s ∈ W.definedHelpers (W.repairChecked owner t)) : s ∈ W.definedHelpers t := by
  obtain ⟨n, hn, helper, symbol⟩ := mem_definedHelpers_iff.mp h
  rcases orderly.arises_preorder ends hn with ⟨x, ends, stems, rfl⟩ | inert
  · obtain ⟨helper, carried, -⟩ := Repair.isDefaultHelper_of_tree ends helper
    rw [carried] at symbol
    rcases stems.cases with here | rfl | ⟨m, rfl, unresolved⟩
    · exact mem_definedHelpers_iff.mpr ⟨x, here, helper, symbol⟩
    · cases symbol
    · cases unresolved.symm.trans symbol
  · obtain ⟨v, declares⟩ := W.declares_of_isDefaultHelper helper
    rw [inert.undeclaring n .refl] at declares
    contradiction

/-- Once the uses of helpers are renamed, no helper is in use any more. -/
theorem usedHelpers_of_repaired (orderly : Orderly W owner t)
    (ends : (Repair.ofTree W owner t).descent.Ends t) :
    W.usedHelpers (W.repairChecked owner t) = [] := by
  refine List.eq_nil_iff_forall_not_mem.mpr fun s hs => ?_
  have known := orderly.mem_definedHelpers_of_repaired ends (mem_definedHelpers hs)
  obtain ⟨⟨j, shape⟩, hn, found⟩ := List.mem_filterMap.mp hs
  cases shape <;> simp only [reduceCtorEq] at found
  case select q name =>
    have symbol : j.symbol = some s := (Option.filter_eq_some_iff.mp found).1
    rcases orderly.arises_preorder ends hn with ⟨x, ends, stems, repaired⟩ | inert
    · rcases Repair.selection_of_tree ends repaired.symm symbol with
        ⟨i, p, n, rfl, carried, unused⟩ | ⟨i, n, rfl, carried, path⟩
      · have here := stems.mem_of_kind (by simp [Tree.kind]) (by simp [Tree.kind])
        refine unused (List.mem_filterMap.mpr ⟨_, here, ?_⟩)
        simpa [Tree.symbol, carried] using known
      · have here := stems.mem_of_kind (by simp [Tree.kind]) (by simp [Tree.kind])
        have inTree := Tree.contains_of_mem_preorder here
        exact (orderly.paths i n s inTree carried path).2 known
    · exact (inert _ .refl s symbol).2 known

theorem fieldOf?_of_repaired (orderly : Orderly W owner t)
    (ends : (Repair.ofTree W owner t).descent.Ends t) {g : SymbolId} {v : Field}
    (h : (W.secondRepair owner t).fieldOf? g = some v) :
    (∃ w, (Repair.ofTree W owner t).fieldOf? g = some w) ∧
      (W.symbols.get g).isLazy = false := by
  obtain ⟨hv, f, symbol, isTerm, accessor⟩ :=
    Repair.mem_fields_ofTree.mp (Repair.mem_fields_of_fieldOf? h)
  rcases orderly.arises_preorder ends hv with ⟨x, ends, stems, repaired⟩ | inert
  · rcases Repair.origin_of_field ends repaired.symm symbol with
      ⟨w, rfl, carried⟩ | ⟨m, rfl, carried, initial⟩
    · have here : w.toTree ∈ t.preorder := by
        exact stems.mem_of_kind (by simp [Tree.kind, Field.toTree]) (by simp [Tree.kind, Field.toTree])
      have field : (g, w) ∈ (Repair.ofTree W owner t).fields :=
        Repair.mem_fields_ofTree.mpr ⟨here, f, carried, isTerm, accessor⟩
      refine ⟨Repair.isSome_fieldOf? field, ?_⟩
      by_contra isLazy
      have storage := orderly.stored w (Tree.contains_of_mem_preorder here) f g carried accessor
        (by simpa using isLazy)
      rw [Repair.tree_eq_node _ ends] at repaired
      simp [Field.toTree, Repair.node, storage, Tree.empty, Tree.bare] at repaired
    -- a value that was made from a method stands under a getter, which has no accessors
    · have isGetter : (W.symbols.get f).isGetter = true := by
        by_contra notGetter
        simp [Repair.initial?, Repair.get_ofTree, notGetter] at initial
      obtain ⟨noGetter, noSetter⟩ := orderly.getters f isGetter
      simp [noGetter, noSetter] at accessor
  · have := inert.undeclaring v.toTree .refl f
    simp [Field.toTree, Tree.declares, symbol] at this

end Orderly

end TreeRepair
