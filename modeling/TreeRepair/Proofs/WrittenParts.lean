import TreeRepair.Proofs.TypeSyntax
import TreeRepair.Proofs.UnwritableTypes

namespace TreeRepair

open Relation

/-- A plain or a selected name. -/
def Shape.isName {α : Type} : Shape α → Bool
  | .ident _ | .select _ _ => true
  | _ => false

namespace Tree

variable {p : Tree → Prop}

theorem exists_mem_iff_of_forall₂ {α β : Type} {R : α → β → Prop} {A : α → Prop} {B : β → Prop}
    {l : List α} {k : List β} (h : List.Forall₂ R l k) (agree : ∀ a b, R a b → (B b ↔ A a)) :
    (∃ b ∈ k, B b) ↔ ∃ a ∈ l, A a := by
  induction h with
  | nil => simp
  | cons related _ ih => simp [ih, agree _ _ related]

/-- Some node of a tree has a property. -/
def Has (p : Tree → Prop) (t : Tree) : Prop := ∃ n ∈ t.preorder, p n

theorem has_iff {t : Tree} : t.Has p ↔ p t ∨ ∃ c ∈ t.children, c.Has p := by
  constructor
  · rintro ⟨n, hn, h⟩
    rcases mem_preorder.mp hn with rfl | ⟨c, hc, hn⟩
    · exact .inl h
    · exact .inr ⟨c, hc, n, hn, h⟩
  · rintro (h | ⟨c, hc, n, hn, h⟩)
    · exact ⟨t, t.self_mem_preorder, h⟩
    · exact ⟨n, mem_preorder_of_mem_children hc hn, h⟩

theorem has_ident {name : Name} : (bare (.ident name)).Has p ↔ p (bare (.ident name)) := by
  rw [has_iff]
  simp [bare, children, Shape.children]

theorem has_select {q : Tree} {name : Name} :
    (bare (.select q name)).Has p ↔ p (bare (.select q name)) ∨ q.Has p := by
  rw [has_iff]
  simp [bare, children, Shape.children]

theorem children_nameSingletons (ending : String) (t : Tree) :
    (t.nameSingletons ending).children = t.children.map (nameSingletons ending) := by
  obtain ⟨i, s⟩ := t
  cases s with
  | ident name =>
    obtain ⟨_, renamed⟩ | rebuilt := nameSingletons_mk ending i (.ident name)
    · rw [renamed]
      rfl
    · rw [rebuilt]
      rfl
  | _ => simp [nameSingletons, children]

/-- Turning names back works node by node. -/
theorem preorder_nameSingletons (ending : String) (t : Tree) :
    (t.nameSingletons ending).preorder = t.preorder.map (nameSingletons ending) :=
  preorder_of_children (children_nameSingletons ending) t

theorem has_nameSingletons {ending : String} {t : Tree} :
    (t.nameSingletons ending).Has p ↔ t.Has fun n => p (n.nameSingletons ending) := by
  simp only [Has, preorder_nameSingletons, List.mem_map, exists_exists_and_eq_and]

theorem isPath_of_mem_children {t c : Tree} (path : t.isPath = true) (hc : c ∈ t.children) :
    c.isPath = true := by
  obtain ⟨i, s⟩ := t
  obtain ⟨_, head⟩ | ⟨_, head⟩ | ⟨q, name, head⟩ := shape_of_isPath path
  · cases head
    exact absurd hc List.not_mem_nil
  · cases head
    exact absurd hc List.not_mem_nil
  · cases head
    obtain rfl := List.mem_singleton.mp hc
    exact (Bool.and_eq_true_iff.mp path).2

theorem isPath_of_mem_preorder {t n : Tree} (path : t.isPath = true) (hn : n ∈ t.preorder) :
    n.isPath = true := by
  induction t using mem_children_induct with
  | node i s ih =>
    rcases mem_preorder.mp hn with rfl | ⟨c, hc, hn⟩
    · exact path
    · exact ih c hc (isPath_of_mem_children path hc) hn

/-- What is taken for a value where a type is selected from: that of which it is the type. -/
def selected (t : Tree) : Tree :=
  match t.shape with
  | .singletonType ref => ref
  | _ => t

theorem selected_of_isPath {t : Tree} (path : t.isPath = true) : t.selected = t := by
  obtain ⟨_, head⟩ | ⟨_, head⟩ | ⟨_, _, head⟩ := shape_of_isPath path <;> rw [selected, head]

end Tree

namespace Setting

variable {W : Setting}

/-- The type that stands in the declaration of a quantified symbol: its bounds, or the upper one if
it stands for the type of a value. -/
def ClauseType (W : Setting) (q : SymbolId) (v : Ty) : Prop :=
  ∃ lo hi, (W.symbols.get q).info = some (.bounds lo hi) ∧
    v = if W.standsForValue q then hi else .bounds lo hi

/-- The written form of the second type stands in that of the first, right below it. The underlying
type of an existential one does not count, as names are turned back in its written form. -/
def Exposes (W : Setting) : Ty → Ty → Prop
  | .ref pre s args, u =>
    match W.symbols.expansion? s with
    | some v => u = v
    | none => (pre ≠ .noPrefix ∧ u = pre) ∨ u ∈ args
  | .single pre _, u => pre ≠ .noPrefix ∧ u = pre
  | .bounds lo hi, u =>
    (lo.same W.builtins.nothingType = false ∧ u = lo) ∨
      (hi.same W.builtins.anyType = false ∧ u = hi)
  | .existential qs v, u => ¬ W.Unwritable (.existential qs v) ∧ ∃ q ∈ qs, W.ClauseType q u
  | .refined ps ds, u => ¬ W.Unwritable (.refined ps ds) ∧
    (u ∈ ps ∨ ∃ d ∈ ds, ∃ s ∈ W.symbols.signature d, u ∈ W.symbols.found (.declared s))
  | _, _ => False

/-- The second type is the underlying one of the first, and is written. -/
def Underlies (W : Setting) (t u : Ty) : Prop :=
  ∃ qs, t = .existential qs u ∧ ¬ W.Unwritable t

/-- The written form of the second type stands in that of the first, right below it, be it with
names turned back. -/
def Renders (W : Setting) (t u : Ty) : Prop := W.Exposes t u ∨ W.Underlies t u

theorem Exposes.part_or_found {t u : Ty} (h : W.Exposes t u) :
    u ∈ W.symbols.spelled t ∨ ∃ k ∈ W.symbols.lookups t, u ∈ W.symbols.found k := by
  cases t with
  | ref pre s args =>
    simp only [Exposes] at h
    split at h
    next v expands =>
      subst h
      right
      exact ⟨.expanded s, by simp [SymbolTable.lookups, expands], by
        simp [SymbolTable.found, expands]⟩
    next plain =>
      left
      rw [SymbolTable.spelled, if_neg (by simp [plain])]
      rcases h with ⟨-, rfl⟩ | h
      · exact List.mem_cons_self ..
      · exact List.mem_cons_of_mem _ h
  | single pre s => exact .inl (List.mem_singleton.mpr h.2)
  | bounds lo hi => exact .inl (List.mem_pair.mpr (h.imp And.right And.right))
  | existential qs v =>
    obtain ⟨-, q, hq, lo, hi, info, rfl⟩ := h
    right
    refine ⟨.quantified q, List.mem_map_of_mem hq, ?_⟩
    simp only [SymbolTable.found, info]
    split <;> simp
  | refined ps ds =>
    obtain ⟨-, hu | ⟨d, hd, s, hs, hu⟩⟩ := h
    · exact .inl hu
    · exact .inr ⟨.declared s, List.mem_map_of_mem (List.mem_flatMap.mpr ⟨d, hd, hs⟩), hu⟩
  | _ => exact absurd h id

theorem Renders.part_or_found {t u : Ty} (h : W.Renders t u) :
    u ∈ W.symbols.spelled t ∨ ∃ k ∈ W.symbols.lookups t, u ∈ W.symbols.found k := by
  rcases h with h | ⟨qs, rfl, -⟩
  · exact h.part_or_found
  · exact .inl (List.mem_singleton.mpr rfl)

theorem Renders.ends {t u : Ty} (h : W.Renders t u) (ends : W.symbols.writing.Ends t) :
    W.symbols.writing.Ends u := by
  rcases h.part_or_found with part | ⟨k, hk, found⟩
  · exact ends.of_visits (.single part)
  · exact ends.of_drawn hk found

/-- A type has a name with a property in its own right: in the path or the name that it is written
by, or as a member of what it is selected from. -/
def OwnName (W : Setting) (p : Tree → Prop) : Ty → Prop
  | .this s => W.isPlainClass (some s) = false ∧ (W.path s).Has p
  | .ref pre s _ => W.symbols.expansion? s = none ∧
      (pre = .noPrefix ∧ p (.bare (.ident (W.nameOf s).toType)) ∨
        pre ≠ .noPrefix ∧ p (W.memberTree pre (W.writtenType pre) s))
  | .single pre s =>
      pre = .noPrefix ∧ p (.bare (.ident (W.nameOf s).toTerm)) ∨
        pre ≠ .noPrefix ∧ p (.bare (.select (W.writtenType pre).selected (W.nameOf s).toTerm))
  | _ => False

theorem referenceTree_of_ne {pre : Ty} (bound : pre ≠ .noPrefix) (preTree : Tree) (s : SymbolId)
    (args : List Tree) :
    W.referenceTree pre preTree s args = applied (W.memberTree pre preTree s) args := by
  cases pre with
  | noPrefix => exact absurd rfl bound
  | _ => rfl

theorem singletonTree_of_ne {pre : Ty} (bound : pre ≠ .noPrefix) (preTree : Tree) (s : SymbolId) :
    W.singletonTree pre preTree s =
      .bare (.singletonType (.bare (.select preTree.selected (W.nameOf s).toTerm))) := by
  cases pre with
  | noPrefix => exact absurd rfl bound
  | _ => rfl

theorem writtenAs_of_writable {t : Ty} (ends : W.symbols.writing.Ends t)
    (plain : W.symbols.aliased? t = none) (h : ¬ W.Unwritable t) (shown shown' : Ty) :
    W.writtenAs shown t = W.writtenAs shown' t := by
  rw [W.writtenAs_eq ends, W.writtenAs_eq ends]
  cases t with
  | ref pre s args =>
    have unexpanded : W.symbols.expansion? s = none := plain
    simp only [writtenWith, unexpanded]
  | existential qs u =>
    simp only [writtenWith]
    split
    next => rfl
    next failed =>
      obtain ⟨q, hq, failed⟩ := mapM_eq_none_iff.mp failed
      exact absurd ⟨q, hq, clause?_eq_none_iff.mp failed⟩ h
  | refined ps ds =>
    simp only [writtenWith]
    split
    next => rfl
    next failed =>
      obtain ⟨d, hd, failed⟩ := mapM_eq_none_iff.mp failed
      exact absurd ⟨d, hd, member?_eq_none_iff.mp failed⟩ h
  | this s => simp only [writtenWith]
  | single pre s => simp only [writtenWith]
  | bounds lo hi => simp only [writtenWith]
  | _ => exact absurd trivial h

/-- The type to be shown matters only where nothing is written. -/
theorem writtenAs_shown {t : Ty} (ends : W.symbols.writing.Ends t) (shown : Ty) :
    W.writtenAs shown t = W.writtenType t ∨
      W.writtenAs shown t = .resolved shown ∧ W.writtenType t = .resolved t := by
  obtain ⟨endsExpanded, plain, same⟩ := writtenAs_dealias ends shown
  obtain ⟨-, -, own⟩ := writtenAs_dealias ends t
  have own : W.writtenType t = W.writtenAs t (W.symbols.dealias t) := own
  rw [same, own]
  by_cases unwritable : W.Unwritable (W.symbols.dealias t)
  · right
    exact ⟨writtenAs_of_unwritable endsExpanded unwritable shown,
      writtenAs_of_unwritable endsExpanded unwritable t⟩
  · left
    exact writtenAs_of_writable endsExpanded plain unwritable shown t

end Setting

/-- A property of names only. -/
def OfNames (p : Tree → Prop) : Prop := ∀ n, p n → n.shape.isName = true

namespace OfNames

open TreeRepair.Tree Setting

variable {p : Tree → Prop} {W : Setting}

theorem has_mk (names : OfNames p) {i : Info} {s : Shape Tree} (other : s.isName = false) :
    (⟨i, s⟩ : Tree).Has p ↔ ∃ c ∈ s.children, c.Has p := by
  rw [has_iff]
  constructor
  · rintro (h | h)
    · exact absurd (names _ h) (by simp [other])
    · exact h
  · exact .inr

theorem not_has_resolved (names : OfNames p) (t : Ty) : ¬ (Tree.resolved t).Has p := by
  rw [Tree.resolved, names.has_mk rfl]
  simp [Shape.children]

theorem not_has_empty (names : OfNames p) : ¬ Tree.empty.Has p := by
  rw [Tree.empty, Tree.bare, names.has_mk rfl]
  simp [Shape.children]

theorem has_selected (names : OfNames p) (t : Tree) : t.selected.Has p ↔ t.Has p := by
  obtain ⟨i, s⟩ := t
  cases s with
  | singletonType ref =>
    rw [names.has_mk rfl]
    simp [selected, Shape.children]
  | _ => rfl

theorem has_applied (names : OfNames p) {t : Tree} {args : List Tree} :
    (applied t args).Has p ↔ t.Has p ∨ ∃ a ∈ args, a.Has p := by
  unfold applied
  split
  next none => simp [List.isEmpty_iff.mp none]
  next =>
    rw [bare, names.has_mk rfl]
    simp [Shape.children]

theorem has_memberTree (names : OfNames p) (pre : Ty) (preTree : Tree) (s : SymbolId) :
    (W.memberTree pre preTree s).Has p ↔ p (W.memberTree pre preTree s) ∨ preTree.Has p := by
  have typeSelect (name : Name) : (bare (.typeSelect preTree name)).Has p ↔
      p (bare (.typeSelect preTree name)) ∨ preTree.Has p := by
    rw [has_iff]
    simp [bare, Tree.children, Shape.children]
  simp only [memberTree]
  generalize (if W.isPlainClass (some s) = true then _ else _ : Name) = name
  split
  · exact has_select
  next ref singleton =>
    split
    · have same := names.has_selected preTree
      rw [selected, singleton] at same
      rw [has_select, same]
    · exact has_select
  · split
    · exact typeSelect _
    · exact has_select

section Members

variable {render : Ty → Tree}

theorem has_resultTree (names : OfNames p) {s : SymbolId} :
    (W.resultTree render s).Has p ↔ ∃ u ∈ W.symbols.found (.declared s), (render u).Has p := by
  unfold resultTree
  split
  next info =>
    rw [bare, names.has_mk rfl]
    simp [SymbolTable.found, info, Shape.children]
  next t info => simp [SymbolTable.found, info]

theorem has_typeMember (names : OfNames p) {n : Nat} {s : SymbolId} :
    (W.typeMember render n s).Has p ↔
      ∃ q ∈ W.symbols.typeParameters n s,
        ∃ u ∈ W.symbols.found (.declared q), (render u).Has p := by
  induction n generalizing s with
  | zero =>
    rw [typeMember, bare, names.has_mk rfl]
    simp [Shape.children, SymbolTable.typeParameters, names.has_resultTree]
  | succ n ih =>
    rw [typeMember, bare, names.has_mk rfl]
    simp only [Shape.children, List.nil_append, List.mem_append, List.mem_map, List.mem_cons,
      List.not_mem_nil, or_false, SymbolTable.typeParameters, List.mem_flatMap]
    constructor
    · rintro ⟨c, ⟨q, hq, rfl⟩ | rfl, h⟩
      · obtain ⟨r, hr, found⟩ := ih.mp h
        exact ⟨r, .inr ⟨q, hq, hr⟩, found⟩
      · exact ⟨s, .inl rfl, names.has_resultTree.mp h⟩
    · rintro ⟨r, rfl | ⟨q, hq, hr⟩, found⟩
      · exact ⟨_, .inr rfl, names.has_resultTree.mpr found⟩
      · exact ⟨_, .inl ⟨q, hq, rfl⟩, ih.mpr ⟨r, hr, found⟩⟩

theorem has_valDef (names : OfNames p) {name : Name} {tpt : Tree} :
    (bare (.valDef deferred name tpt .empty)).Has p ↔ tpt.Has p := by
  rw [bare, names.has_mk rfl]
  simp [Shape.children, deferred, names.not_has_empty]

theorem has_methodMember (names : OfNames p) {s : SymbolId} :
    (W.methodMember render s).Has p ↔
      ∃ q ∈ s :: ((W.symbols.get s).typeParams.flatMap
          (W.symbols.typeParameters W.symbols.bound) ++ (W.symbols.get s).paramLists.flatten),
        ∃ u ∈ W.symbols.found (.declared q), (render u).Has p := by
  rw [methodMember, bare, names.has_mk rfl]
  simp only [Shape.children, deferred, List.nil_append, List.mem_append, List.mem_map,
    List.mem_flatten, List.mem_cons, List.not_mem_nil, or_false, List.mem_flatMap]
  constructor
  · rintro ⟨c, (⟨q, hq, rfl⟩ | ⟨vs, ⟨ps, hps, rfl⟩, hc⟩) | rfl | rfl, h⟩
    · obtain ⟨r, hr, found⟩ := names.has_typeMember.mp h
      exact ⟨r, .inr (.inl ⟨q, hq, hr⟩), found⟩
    · obtain ⟨q, hq, rfl⟩ := List.mem_map.mp hc
      exact ⟨q, .inr (.inr ⟨ps, hps, hq⟩), names.has_resultTree.mp (names.has_valDef.mp h)⟩
    · exact ⟨s, .inl rfl, names.has_resultTree.mp h⟩
    · exact absurd h names.not_has_empty
  · rintro ⟨r, rfl | ⟨q, hq, hr⟩ | ⟨ps, hps, hr⟩, found⟩
    · exact ⟨_, .inr (.inl rfl), names.has_resultTree.mpr found⟩
    · exact ⟨_, .inl (.inl ⟨q, hq, rfl⟩), names.has_typeMember.mpr ⟨r, hr, found⟩⟩
    · refine ⟨_, .inl (.inr ⟨_, ⟨ps, hps, rfl⟩, List.mem_map_of_mem hr⟩), ?_⟩
      exact names.has_valDef.mpr (names.has_resultTree.mpr found)

theorem has_member (names : OfNames p) {s : SymbolId} {m : Tree}
    (hm : W.member? render s = some m) :
    m.Has p ↔
      ∃ q ∈ W.symbols.signature s, ∃ u ∈ W.symbols.found (.declared q), (render u).Has p := by
  simp only [member?] at hm
  split at hm
  · simp at hm
  · split at hm
    next method =>
      split at hm
      next stable =>
        cases hm
        rw [valueMember, names.has_valDef, names.has_resultTree]
        simp [SymbolTable.signature, method, stable]
      next stable =>
        cases hm
        rw [names.has_methodMember, SymbolTable.signature, if_pos method, if_neg stable]
    next method =>
      split at hm
      · cases hm
        rw [names.has_typeMember, SymbolTable.signature, if_neg method]
      · simp at hm

theorem has_clause (names : OfNames p) {q : SymbolId} {c : Tree}
    (hc : W.clause? render q = some c) :
    c.Has p ↔ ∃ v, W.ClauseType q v ∧ (render v).Has p := by
  simp only [clause?] at hc
  split at hc
  next lo hi info =>
    have only (v : Ty) :
        W.ClauseType q v ↔ v = if W.standsForValue q then hi else .bounds lo hi := by
      simp [ClauseType, info]
    split at hc
    next plain =>
      have plain : W.standsForValue q = false := by simpa [standsForValue] using plain
      cases hc
      rw [bare, names.has_mk rfl]
      simp [Shape.children, only, plain]
    next erased =>
      have erased : W.standsForValue q = true := by simpa [standsForValue] using erased
      split at hc
      · cases hc
        rw [names.has_valDef]
        simp [only, erased]
      · simp at hc
  next => simp at hc

end Members

variable {t : Ty}

theorem has_writtenAs (names : OfNames p) (ends : W.symbols.writing.Ends t) (shown : Ty) :
    (W.writtenAs shown t).Has p ↔ (W.writtenType t).Has p := by
  rcases writtenAs_shown ends shown with same | ⟨resolved, resolved'⟩
  · rw [same]
  · rw [resolved, resolved']
    exact iff_of_false (names.not_has_resolved _) (names.not_has_resolved _)

theorem not_has_unwritable (names : OfNames p) (ends : W.symbols.writing.Ends t)
    (h : W.Unwritable t) : ¬ (W.writtenType t).Has p := by
  rw [writtenType_of_unwritable ends h]
  exact names.not_has_resolved t

theorem has_existential (names : OfNames p) {qs : List SymbolId} {u : Ty}
    (ends : W.symbols.writing.Ends (.existential qs u)) :
    (W.writtenType (.existential qs u)).Has p ↔ ¬ W.Unwritable (.existential qs u) ∧
      (((W.writtenType u).nameSingletons W.conventions.singletonEnding).Has p ∨
        ∃ q ∈ qs, ∃ v, W.ClauseType q v ∧ (W.writtenType v).Has p) := by
  by_cases unwritable : W.Unwritable (.existential qs u)
  · exact iff_of_false (names.not_has_unwritable ends unwritable) fun h => h.1 unwritable
  · obtain ⟨clauses, declared, written⟩ := writtenAs_existential ends unwritable (.existential qs u)
    have written : W.writtenType (.existential qs u) = _ := written
    have below := exists_mem_iff_of_forall₂ declared fun q c hc => names.has_clause hc
    rw [written, bare, names.has_mk rfl]
    simp only [Shape.children, List.exists_mem_cons_iff, below, unwritable, not_false_eq_true,
      true_and]

theorem has_refined (names : OfNames p) {ps : List Ty} {ds : List SymbolId}
    (ends : W.symbols.writing.Ends (.refined ps ds)) :
    (W.writtenType (.refined ps ds)).Has p ↔ ¬ W.Unwritable (.refined ps ds) ∧
      ((∃ u ∈ ps, (W.writtenType u).Has p) ∨ ∃ d ∈ ds, ∃ s ∈ W.symbols.signature d,
        ∃ u ∈ W.symbols.found (.declared s), (W.writtenType u).Has p) := by
  by_cases unwritable : W.Unwritable (.refined ps ds)
  · exact iff_of_false (names.not_has_unwritable ends unwritable) fun h => h.1 unwritable
  · obtain ⟨members, declared, written⟩ := writtenAs_refined ends unwritable (.refined ps ds)
    have written : W.writtenType (.refined ps ds) = _ := written
    have below := exists_mem_iff_of_forall₂ declared fun d m hm => names.has_member hm
    have template : (bare (.template (ps.map W.writtenType) .empty members)).Has p ↔
        (∃ u ∈ ps, (W.writtenType u).Has p) ∨ ∃ m ∈ members, m.Has p := by
      rw [bare, names.has_mk rfl]
      simp [Shape.children, or_and_right, exists_or, names.not_has_empty]
    rw [written, bare, names.has_mk rfl]
    simp only [Shape.children, List.exists_mem_cons_iff, List.not_mem_nil, false_and, exists_false,
      or_false, template, below, unwritable, not_false_eq_true, true_and]

theorem has_ref (names : OfNames p) {pre : Ty} {s : SymbolId} {args : List Ty}
    (ends : W.symbols.writing.Ends (.ref pre s args)) (plain : W.symbols.expansion? s = none) :
    (W.writtenType (.ref pre s args)).Has p ↔ W.OwnName p (.ref pre s args) ∨
      (pre ≠ .noPrefix ∧ (W.writtenType pre).Has p) ∨ ∃ a ∈ args, (W.writtenType a).Has p := by
  have arguments :
      (∃ a ∈ args.map W.writtenType, a.Has p) ↔ ∃ a ∈ args, (W.writtenType a).Has p := by
    simp
  rw [writtenType_ref ends plain]
  by_cases free : pre = .noPrefix
  · subst free
    simp only [referenceTree, OwnName, plain]
    split
    next module =>
      have none : args = [] := by simp_all
      subst none
      rw [bare, names.has_mk rfl]
      simp [Shape.children, has_ident]
    next =>
      rw [names.has_applied, arguments, has_ident]
      simp
  · rw [referenceTree_of_ne free, names.has_applied, arguments, names.has_memberTree]
    simp [OwnName, plain, free, or_assoc]

theorem has_single (names : OfNames p) {pre : Ty} {s : SymbolId}
    (ends : W.symbols.writing.Ends (.single pre s)) :
    (W.writtenType (.single pre s)).Has p ↔ W.OwnName p (.single pre s) ∨
      (pre ≠ .noPrefix ∧ (W.writtenType pre).Has p) := by
  rw [writtenType_single ends]
  by_cases free : pre = .noPrefix
  · subst free
    rw [singletonTree, bare, names.has_mk rfl]
    simp [Shape.children, OwnName, has_ident]
  · have below := names.has_selected (W.writtenType pre)
    rw [singletonTree_of_ne free, bare, names.has_mk rfl]
    simp [Shape.children, has_select, OwnName, free, below]

/-- A name with a property stands in the written form of a type either for the type itself, or in
the written form of a type right below it. -/
theorem has_writtenType_iff (names : OfNames p) (ends : W.symbols.writing.Ends t) :
    (W.writtenType t).Has p ↔ W.OwnName p t ∨ (∃ u, W.Exposes t u ∧ (W.writtenType u).Has p) ∨
      ∃ u, W.Underlies t u ∧
        ((W.writtenType u).nameSingletons W.conventions.singletonEnding).Has p := by
  cases t with
  | ref pre s args =>
    cases expands : W.symbols.expansion? s with
    | some v =>
      have ends' : W.symbols.writing.Ends v :=
        ends.of_drawn (k := .expanded s)
          (by simp [SymbolTable.writing, SymbolTable.lookups, expands])
          (by simp [SymbolTable.writing, SymbolTable.found, expands])
      have same : W.writtenType (.ref pre s args) = W.writtenAs (.ref pre s args) v :=
        writtenAs_of_aliased ends expands _
      rw [same, names.has_writtenAs ends']
      simp [OwnName, Exposes, Underlies, expands]
    | none =>
      rw [names.has_ref ends expands]
      simp [Exposes, Underlies, expands, or_and_right, exists_or, and_assoc]
  | this s =>
    rw [writtenType_this ends]
    cases plain : W.isPlainClass (some s) with
    | true =>
      rw [if_pos rfl, bare, names.has_mk rfl]
      simp [OwnName, Exposes, Underlies, plain, Shape.children]
    | false => simp [OwnName, Exposes, Underlies, plain]
  | single pre s =>
    rw [names.has_single ends]
    simp [Exposes, Underlies, and_assoc]
  | bounds lo hi =>
    rw [writtenType_bounds ends, bare, names.has_mk rfl]
    cases lower : lo.same W.builtins.nothingType <;> cases upper : hi.same W.builtins.anyType <;>
      simp [Shape.children, OwnName, Exposes, Underlies, lower, upper, names.not_has_empty]
  | existential qs u =>
    rw [names.has_existential ends]
    constructor
    · rintro ⟨written, underlying | ⟨q, hq, v, hv, h⟩⟩
      · exact .inr (.inr ⟨u, ⟨qs, rfl, written⟩, underlying⟩)
      · exact .inr (.inl ⟨v, ⟨written, q, hq, hv⟩, h⟩)
    · rintro (own | ⟨v, ⟨written, q, hq, hv⟩, h⟩ | ⟨v, ⟨qs', same, written⟩, h⟩)
      · exact absurd own id
      · exact ⟨written, .inr ⟨q, hq, v, hv, h⟩⟩
      · cases same
        exact ⟨written, .inl h⟩
  | refined ps ds =>
    rw [names.has_refined ends]
    constructor
    · rintro ⟨written, ⟨v, hv, h⟩ | ⟨d, hd, s, hs, v, hv, h⟩⟩
      · exact .inr (.inl ⟨v, ⟨written, .inl hv⟩, h⟩)
      · exact .inr (.inl ⟨v, ⟨written, .inr ⟨d, hd, s, hs, hv⟩⟩, h⟩)
    · rintro (own | ⟨v, ⟨written, hv | ⟨d, hd, s, hs, hv⟩⟩, h⟩ | ⟨v, ⟨qs, same, -⟩, -⟩)
      · exact absurd own id
      · exact ⟨written, .inl ⟨v, hv, h⟩⟩
      · exact ⟨written, .inr ⟨d, hd, s, hs, v, hv, h⟩⟩
      · cases same
  | _ =>
    refine iff_of_false (names.not_has_unwritable ends trivial) ?_
    simp [OwnName, Exposes, Underlies]

/-- A name with a property in the written form of a type is there for one of the types that are
rendered in it, if turning names back brings out none. -/
theorem exists_ownName_of_has (names : OfNames p) {R : Ty → Ty → Prop}
    (exposed : ∀ {t u}, W.Exposes t u → R t u)
    (named : ∀ {t u}, W.Underlies t u →
      ((W.writtenType u).nameSingletons W.conventions.singletonEnding).Has p →
        R t u ∧ (W.writtenType u).Has p)
    (ends : W.symbols.writing.Ends t) (h : (W.writtenType t).Has p) :
    ∃ u, ReflTransGen R t u ∧ W.OwnName p u := by
  refine Descent.Ends.induct (D := W.symbols.writing) (motive := fun t =>
    (W.writtenType t).Has p → ∃ u, ReflTransGen R t u ∧ W.OwnName p u) ?_ ends h
  intro t ends inside looked h
  have below {u : Ty} (renders : W.Renders t u) (h : (W.writtenType u).Has p) :
      ∃ v, ReflTransGen R u v ∧ W.OwnName p v := by
    rcases renders.part_or_found with part | ⟨k, hk, found⟩
    · exact inside u part h
    · exact looked k hk u found h
  rcases (names.has_writtenType_iff ends).mp h with own | ⟨u, exposes, h⟩ | ⟨u, underlies, h⟩
  · exact ⟨t, .refl, own⟩
  · obtain ⟨v, reached, own⟩ := below (.inl exposes) h
    exact ⟨v, .head (exposed exposes) reached, own⟩
  · obtain ⟨step, h⟩ := named underlies h
    obtain ⟨v, reached, own⟩ := below (.inr underlies) h
    exact ⟨v, .head step reached, own⟩

/-- What is rendered in a type has its names in the written form of that type, unless they are
turned back. -/
theorem has_of_ownName (names : OfNames p) {R : Ty → Ty → Prop}
    (rendered : ∀ {t u}, R t u → W.Exposes t u ∨ W.Underlies t u ∧ ((W.writtenType u).Has p →
      ((W.writtenType u).nameSingletons W.conventions.singletonEnding).Has p))
    (ends : W.symbols.writing.Ends t) {u : Ty} (reached : ReflTransGen R t u)
    (own : W.OwnName p u) : (W.writtenType t).Has p := by
  induction reached using ReflTransGen.head_induction_on with
  | refl => exact (names.has_writtenType_iff ends).mpr (.inl own)
  | @head t v step _ ih =>
    have renders : W.Renders t v := (rendered step).imp_right And.left
    have below := ih (renders.ends ends)
    rw [names.has_writtenType_iff ends]
    rcases rendered step with exposes | ⟨underlies, kept⟩
    · exact .inr (.inl ⟨v, exposes, below⟩)
    · exact .inr (.inr ⟨v, underlies, kept below⟩)

end OfNames

end TreeRepair
