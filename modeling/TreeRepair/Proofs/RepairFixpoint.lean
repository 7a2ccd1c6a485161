import TreeRepair.Proofs.AccessorFamilies

namespace TreeRepair

open Relation

namespace Tree

/-- Whether anything is assigned in a tree. -/
def assigns (t : Tree) : Bool :=
  t.preorder.any fun n =>
    match n.shape with
    | .assign _ _ => true
    | _ => false

theorem initializer_of_not_assigns {t : Tree} (h : t.assigns = false) : t.initializer = t := by
  unfold initializer
  rw [List.findSome?_eq_none_iff.mpr, Option.getD_none]
  intro n hn
  have := List.any_eq_false.mp h n hn
  split
  next shape => simp [shape] at this
  next => rfl

theorem same_map_iff {f : Tree → Tree} {l : List Tree} :
    List.Forall₂ (fun c d => c.same d = true) (l.map f) l ↔ ∀ c ∈ l, (f c).same c = true := by
  rw [List.forall₂_map_left_iff, List.forall₂_same]

theorem same_mapChildren_iff {i j : Info} {s : Shape Tree} {f : Tree → Tree}
    (unresolved : s.written = none) :
    (⟨i, s.mapChildren f⟩ : Tree).same ⟨j, s⟩ = true ↔ ∀ c ∈ s.children, (f c).same c = true := by
  rw [same_mk]
  simp only [Shape.outline_mapChildren, true_and, Shape.subtrees, Shape.children_mapChildren,
    Shape.written_mapChildren, unresolved, Option.toList_none, List.append_nil, same_map_iff]

theorem forall₂_append_iff {α : Type} {r : α → α → Prop} {a b c d : List α}
    (h : b.length = d.length) :
    List.Forall₂ r (a ++ b) (c ++ d) ↔ List.Forall₂ r a c ∧ List.Forall₂ r b d := by
  constructor
  · intro both
    have total := both.length_eq
    simp only [List.length_append] at total
    have first : a.length = c.length := by omega
    have left := List.forall₂_take a.length both
    have right := List.forall₂_drop a.length both
    rw [List.take_left, first, List.take_left] at left
    rw [List.drop_left, first, List.drop_left] at right
    exact ⟨left, right⟩
  · rintro ⟨left, right⟩
    exact List.rel_append left right

theorem map_unit_eq_iff {l l' : List Tree} :
    (l.map fun _ => ()) = (l'.map fun _ => ()) ↔ l.length = l'.length := by
  simp [List.map_const', List.replicate_inj]

theorem same_valDef_iff {i j : Info} {m m' : Modifiers Tree} {name : Name} {t t' r r' : Tree} :
    (⟨i, .valDef m name t r⟩ : Tree).same ⟨j, .valDef m' name t' r'⟩ = true ↔
      m.flags = m'.flags ∧ m.within = m'.within ∧
        List.Forall₂ (fun c d => c.same d = true) m.annotations m'.annotations ∧
        t.same t' = true ∧ r.same r' = true := by
  rw [same_mk]
  simp only [Shape.outline, Shape.subtrees, Shape.children, Shape.written, Option.toList_none,
    List.append_nil, Shape.valDef.injEq, Modifiers.mk.injEq, and_true, map_unit_eq_iff,
    forall₂_append_iff (b := [t, r]) (d := [t', r']) rfl, List.forall₂_cons,
    List.Forall₂.nil]
  constructor
  · rintro ⟨⟨flags, within, -⟩, annotations, tpt, rhs⟩
    exact ⟨flags, within, annotations, tpt, rhs⟩
  · rintro ⟨flags, within, annotations, tpt, rhs⟩
    exact ⟨⟨flags, within, annotations.length_eq⟩, annotations, tpt, rhs⟩

theorem same_defDef_iff {i j : Info} {m m' : Modifiers Tree} {name : Name}
    {tparams : List Tree} {vparamss : List (List Tree)} {t r : Tree} {f : Tree → Tree} :
    (⟨i, .defDef m name (tparams.map f) (vparamss.map fun vs => vs.map f) (f t) (f r)⟩ :
        Tree).same ⟨j, .defDef m' name tparams vparamss t r⟩ = true ↔
      m.flags = m'.flags ∧ m.within = m'.within ∧
        List.Forall₂ (fun c d => c.same d = true) m.annotations m'.annotations ∧
        ∀ c ∈ tparams ++ vparamss.flatten ++ [t, r], (f c).same c = true := by
  have mapped : tparams.map f ++ ((vparamss.map fun vs => vs.map f).flatten ++ [f t, f r]) =
      (tparams ++ vparamss.flatten ++ [t, r]).map f := by
    simp [List.map_flatten]
  rw [same_mk]
  simp only [Shape.outline, Shape.subtrees, Shape.children, Shape.written, Option.toList_none,
    List.append_nil, Shape.defDef.injEq, Modifiers.mk.injEq, and_true, map_unit_eq_iff,
    List.append_assoc, List.map_map, Function.comp_def] at mapped ⊢
  rw [mapped, forall₂_append_iff (d := tparams ++ (vparamss.flatten ++ [t, r]))
    (List.length_map ..), same_map_iff]
  constructor
  · rintro ⟨⟨flags, within, -⟩, annotations, below⟩
    exact ⟨flags, within, annotations, below⟩
  · rintro ⟨flags, within, annotations, below⟩
    exact ⟨⟨flags, within, annotations.length_eq⟩, annotations, below⟩

end Tree

namespace Repair

variable (R : Repair)

theorem annotations_eq_foldl (deeper : Tree → Tree) (mods : Modifiers Tree)
    (symbols : List SymbolId) : R.annotations deeper mods symbols =
      (symbols.flatMap fun s => (R.get s).annotations.map deeper).foldl addIfNew
        mods.annotations := by
  rw [annotations, addAnnotations_eq_foldl, List.flatMap]

/-- Merging adds nothing exactly if all recorded annotations are written already. -/
theorem same_annotations_iff {mods : Modifiers Tree} {symbols : List SymbolId} :
    List.Forall₂ (fun c d => c.same d = true) (R.annotations R.tree mods symbols)
      mods.annotations ↔
      ∀ s ∈ symbols, ∀ a ∈ (R.get s).annotations, ∃ b ∈ mods.annotations,
        b.same (R.tree a) = true := by
  rw [annotations_eq_foldl]
  constructor
  · intro same s hs a ha
    refine present_of_length_foldl_addIfNew same.length_eq (R.tree a) ?_
    exact List.mem_flatMap.mpr ⟨s, hs, List.mem_map_of_mem ha⟩
  · intro present
    rw [foldl_addIfNew_of_present]
    · exact List.forall₂_same.mpr fun a _ => a.same_refl
    · intro a ha
      obtain ⟨s, hs, ha⟩ := List.mem_flatMap.mp ha
      obtain ⟨b, hb, rfl⟩ := List.mem_map.mp ha
      exact present s hs b hb

/-- Modifiers to which a repair adds nothing and from which it takes nothing. -/
structure ModsSettled (s : SymbolId) (mods : Modifiers Tree) (recorded : List SymbolId) : Prop where
  flags : R.keptFlags mods = mods.flags
  within : R.within s mods = mods.within
  annotations : ∀ r ∈ recorded, ∀ a ∈ (R.get r).annotations, ∃ b ∈ mods.annotations,
    b.same (R.tree a) = true

/-- The subtrees of a node that its repair leaves where they are and repairs there, as long as the
node itself has nothing to repair. -/
def keptParts : Tree → List Tree
  | ⟨_, .typeTree (some w)⟩ => [w]
  | ⟨i, .valDef mods _ tpt rhs⟩ =>
    match R.lazyGetter? i.symbol with
    | some s => (if (R.fieldOf? s).isSome then [] else [tpt]) ++ if rhs.assigns then [] else [rhs]
    | none => mods.annotations ++ [tpt, rhs]
  | ⟨i, .defDef mods _ tparams vparamss tpt rhs⟩ =>
    match R.role i.symbol with
    | .method _ => tparams ++ vparamss.flatten ++ [tpt, rhs]
    | _ => mods.annotations ++ tparams ++ vparamss.flatten ++ [tpt, rhs]
  | ⟨_, s⟩ => s.children

/-- A node that has nothing to repair itself, apart from how a lazy value is computed. -/
def SettledNode : Tree → Prop
  | ⟨i, .ident name⟩ => (R.identifier i name).shape = .ident name
  | ⟨i, .select _ name⟩ => (R.selection i name).2 = name
  | ⟨_, .unapply fn _⟩ => R.extractor? fn = none
  | ⟨i, .valDef mods _ tpt rhs⟩ =>
    R.isStorage i tpt rhs = false ∧ ∀ s, R.lazyGetter? i.symbol = some s →
      R.ModsSettled s mods (s :: ((R.fieldOf? s).bind fun f => f.info.symbol).toList) ∧
      ∀ f, R.fieldOf? s = some f → (R.tree f.tpt).same tpt = true
  | ⟨i, .defDef mods _ _ _ _ _⟩ =>
    match R.role i.symbol with
    | .method s => R.ModsSettled s mods [s]
    | .unresolved => True
    | _ => False
  | ⟨_, s⟩ => R.setting.settleShape R.usedHelpers s = s

/-- Whether a node is a lazy value that is computed by way of an assignment. -/
def isAssignedLazily : Tree → Bool
  | ⟨i, .valDef _ _ _ rhs⟩ => (R.lazyGetter? i.symbol).isSome && rhs.assigns
  | _ => false

/-- What remains of a lazy value of which only the assigned value is kept is the value as it
was. -/
def SettledInitial : Tree → Prop
  | ⟨i, .valDef mods name tpt rhs⟩ =>
    R.isAssignedLazily ⟨i, .valDef mods name tpt rhs⟩ = true →
      (R.tree rhs.initializer).same rhs = true
  | _ => True

theorem not_same_tree_empty {x : Tree} (helper : R.setting.isDefaultHelper x = true) :
    (R.tree .empty).same x ≠ true := by
  intro same
  have empty := Tree.isEmpty_eq_of_same same
  rw [tree_empty] at empty
  obtain ⟨i, shape⟩ := x
  cases shape <;> simp [Setting.isDefaultHelper] at helper
  simp [Tree.isEmpty, Tree.empty, Tree.bare] at empty

/-- Statements that come out as they went in had no helper to reconcile. -/
theorem settleStatements_of_same {body : List Tree}
    (same : List.Forall₂ (fun c d => c.same d = true)
      ((R.setting.settleStatements R.usedHelpers body).map R.tree) body) :
    R.setting.settleStatements R.usedHelpers body = body := by
  obtain ⟨copies, settled, -⟩ := R.setting.settleStatements_eq R.usedHelpers body
  rw [settled] at same ⊢
  have none : copies = [] := by
    have := same.length_eq
    simp only [List.length_map, List.length_append] at this
    exact List.length_eq_zero_iff.mp (by omega)
  rw [none, List.append_nil] at same ⊢
  rw [List.map_map, Tree.same_map_iff] at same
  conv_rhs => rw [← List.map_id body]
  refine List.map_congr_left fun x hx => ?_
  simp only [Setting.keptInPlace, id]
  split
  next moved =>
    have helper : R.setting.isDefaultHelper x = true := by
      simp only [Setting.isMovedHelper, Bool.and_eq_true] at moved
      exact moved.1
    have := same x hx
    simp only [Function.comp, Setting.keptInPlace, moved, if_true] at this
    exact absurd this (R.not_same_tree_empty helper)
  next => rfl

theorem settleShape_of_same {i j : Info} {s : Shape Tree}
    (same : (⟨i, (R.setting.settleShape R.usedHelpers s).mapChildren R.tree⟩ : Tree).same ⟨j, s⟩ =
      true) : R.setting.settleShape R.usedHelpers s = s := by
  have below := (Tree.same_mk.mp same).2
  cases s with
  | template parents self body =>
    simp only [Setting.settleShape, Shape.mapChildren, Shape.subtrees, Shape.children,
      Shape.written, Option.toList_none, List.append_nil] at below ⊢
    have length : (R.tree self :: (R.setting.settleStatements R.usedHelpers body).map R.tree).length
        = (self :: body).length := by
      have total := below.length_eq
      simp only [List.length_append, List.length_cons, List.length_map] at total ⊢
      omega
    obtain ⟨-, below⟩ := (Tree.forall₂_append_iff length).mp below
    obtain ⟨-, statements⟩ := List.forall₂_cons.mp below
    rw [R.settleStatements_of_same statements]
  | packageDef pid stats =>
    simp only [Setting.settleShape, Shape.mapChildren, Shape.subtrees, Shape.children,
      Shape.written, Option.toList_none, List.append_nil] at below ⊢
    obtain ⟨-, statements⟩ := List.forall₂_cons.mp below
    rw [R.settleStatements_of_same statements]
  | block stats expr =>
    simp only [Setting.settleShape] at below ⊢
    split at below
    next expr' stats' settled =>
      simp only [Shape.mapChildren, Shape.subtrees, Shape.children, Shape.written,
        Option.toList_none, List.append_nil] at below
      obtain ⟨statements, result⟩ := (Tree.forall₂_append_iff (b := [R.tree expr'])
        (d := [expr]) rfl).mp below
      obtain ⟨result, -⟩ := List.forall₂_cons.mp result
      have kept : R.setting.settleStatements R.usedHelpers (expr :: stats) = expr :: stats := by
        refine R.settleStatements_of_same ?_
        rw [settled]
        exact .cons result statements
      obtain ⟨rfl, rfl⟩ := List.cons.inj (settled.symm.trans kept)
      rfl
    next => simp
  | _ => rfl

theorem same_settled_iff {i : Info} {s : Shape Tree} (unresolved : s.written = none) :
    (⟨i, (R.setting.settleShape R.usedHelpers s).mapChildren R.tree⟩ : Tree).same ⟨i, s⟩ = true ↔
      R.setting.settleShape R.usedHelpers s = s ∧ ∀ c ∈ s.children, (R.tree c).same c = true := by
  constructor
  · intro same
    have settled := R.settleShape_of_same same
    rw [settled, Tree.same_mapChildren_iff unresolved] at same
    exact ⟨settled, same⟩
  · rintro ⟨settled, below⟩
    rw [settled, Tree.same_mapChildren_iff unresolved]
    exact below

/-- A lazy value comes out as it went in if its modifiers, its type and its initial value do. -/
theorem same_lazyValue_iff {s : SymbolId} {i j : Info} {mods : Modifiers Tree} {name : Name}
    {tpt tpt' rhs rhs' : Tree} :
    (R.lazyValue R.tree s i mods name tpt' rhs').same ⟨j, .valDef mods name tpt rhs⟩ = true ↔
      R.ModsSettled s mods (s :: ((R.fieldOf? s).bind fun f => f.info.symbol).toList) ∧
        tpt'.same tpt = true ∧ rhs'.same rhs = true := by
  simp only [lazyValue]
  rw [Tree.same_valDef_iff, R.same_annotations_iff]
  constructor
  · rintro ⟨flags, within, annotations, below⟩
    exact ⟨⟨flags, within, annotations⟩, below⟩
  · rintro ⟨⟨flags, within, annotations⟩, below⟩
    exact ⟨flags, within, annotations, below⟩

theorem same_ident_iff {t : Tree} {i : Info} {name : Name} :
    t.same ⟨i, .ident name⟩ = true ↔ t.shape = .ident name := by
  obtain ⟨j, s⟩ := t
  constructor
  · intro same
    have outline := Tree.outline_eq_of_same same
    cases s <;> simp_all [Shape.outline]
  · rintro rfl
    simp [Tree.same_mk, Shape.outline, Shape.subtrees, Shape.children, Shape.written]

theorem not_same_of_outline {t u : Tree} (h : t.shape.outline ≠ u.shape.outline) :
    t.same u ≠ true := fun same => h (Tree.outline_eq_of_same same)

/-- A node comes out of its repair as it went in if it has nothing to repair itself and its parts
come out as they went in. -/
theorem same_tree_iff {x : Tree} (ends : R.descent.Ends x) : (R.tree x).same x = true ↔
    (R.SettledNode x ∧ R.SettledInitial x) ∧ ∀ p ∈ R.keptParts x, (R.tree p).same p = true := by
  rw [R.tree_eq_node ends]
  obtain ⟨i, s⟩ := x
  cases s with
  | typeTree w =>
    cases w with
    | none =>
      simp only [SettledInitial, and_true]
      exact R.same_settled_iff rfl
    | some w =>
      simp only [node, SettledNode, SettledInitial, keptParts, Setting.settleShape, Tree.same_mk,
        Shape.outline, Shape.subtrees, Shape.children, Shape.written, Option.toList_some,
        List.nil_append, Option.map_some, true_and, List.forall₂_cons, List.Forall₂.nil, and_true,
        List.forall_mem_singleton]
  | ident name =>
    simp only [node, SettledNode, SettledInitial, keptParts, Shape.children, List.not_mem_nil,
      false_implies, implies_true, and_true]
    exact same_ident_iff
  | select q name =>
    simp [node, SettledNode, SettledInitial, keptParts, Tree.same_mk, Shape.outline,
        Shape.subtrees, Shape.children, Shape.written]
  | unapply fn args =>
    simp only [node, SettledNode, SettledInitial, and_true]
    cases extractor : R.extractor? fn with
    | some e =>
      simp only [reduceCtorEq, false_and, iff_false]
      exact not_same_of_outline (by simp [Shape.outline])
    | none =>
      simp only [true_and]
      exact Tree.same_mapChildren_iff (s := .unapply fn args) rfl
  | valDef mods name tpt rhs =>
    simp only [node, SettledNode, SettledInitial, isAssignedLazily, keptParts]
    split
    next storage =>
      simp only [storage, Bool.true_eq_false, false_and, iff_false]
      exact not_same_of_outline (by simp [Shape.outline, Tree.empty, Tree.bare])
    next storage =>
      simp only [storage, true_and]
      split
      next s lazyGetter =>
        rw [R.same_lazyValue_iff]
        have initial (h : rhs.assigns = false) : R.tree rhs.initializer = R.tree rhs := by
          rw [Tree.initializer_of_not_assigns h]
        cases field : R.fieldOf? s <;> cases assigns : rhs.assigns <;>
          simp_all [and_assoc]
        exact fun _ => and_comm
      next lazyGetter =>
        simp only [lazyGetter, reduceCtorEq, false_implies, implies_true, Option.isSome_none,
          Bool.false_and, Bool.false_eq_true, true_and]
        exact Tree.same_mapChildren_iff (s := .valDef mods name tpt rhs) rfl
  | defDef mods name tparams vparamss tpt rhs =>
    simp only [node, SettledNode, SettledInitial, and_true, keptParts]
    split
    next role =>
      simp only [role, false_and, iff_false]
      exact not_same_of_outline (by simp [Shape.outline, Tree.empty, Tree.bare])
    next role =>
      simp only [role, false_and, iff_false]
      exact not_same_of_outline (by simp [Shape.outline, accessedField])
    next role =>
      simp only [role, false_and, iff_false]
      exact not_same_of_outline (by simp [Shape.outline, lazyValue])
    next s role =>
      simp only [role, methodParts]
      rw [Tree.same_defDef_iff, R.same_annotations_iff]
      constructor
      · rintro ⟨flags, within, annotations, below⟩
        exact ⟨⟨flags, within, annotations⟩, below⟩
      · rintro ⟨⟨flags, within, annotations⟩, below⟩
        exact ⟨flags, within, annotations, below⟩
    next role =>
      simp only [role, true_and]
      exact Tree.same_mapChildren_iff (s := .defDef mods name tparams vparamss tpt rhs) rfl
  | _ =>
    simp only [SettledInitial, and_true]
    exact R.same_settled_iff rfl

/-- The places of a tree that a repair comes to as long as it finds nothing to do. -/
def Keeps : Tree → Tree → Prop := ReflTransGen fun t p => p ∈ R.keptParts t

theorem mem_parts_of_mem_keptParts {t p : Tree} (settled : R.SettledNode t)
    (h : p ∈ R.keptParts t) : p ∈ R.parts t := by
  obtain ⟨i, s⟩ := t
  cases s with
  | typeTree w => cases w <;> exact h
  | ident name => simp [keptParts, Shape.children] at h
  | select q name => exact h
  | unapply fn args =>
    have unrecognised : R.extractor? fn = none := settled
    simpa [parts, unrecognised, keptParts, Shape.children] using h
  | valDef mods name tpt rhs =>
    obtain ⟨storage, -⟩ := settled
    simp only [keptParts] at h
    simp only [parts, storage, Bool.false_eq_true, if_false]
    split at h
    next s lazyGetter =>
      simp only [lazyParts]
      have initial (notAssigns : rhs.assigns = false) : rhs.initializer = rhs :=
        Tree.initializer_of_not_assigns notAssigns
      cases field : R.fieldOf? s <;> cases assigns : rhs.assigns <;> simp_all
    next lazyGetter => simpa only [lazyGetter] using h
  | defDef mods name tparams vparamss tpt rhs =>
    simp only [SettledNode] at settled
    simp only [keptParts] at h
    simp only [parts]
    cases role : R.role i.symbol <;> simp_all
  | _ =>
    have kept : R.setting.settleShape R.usedHelpers _ = _ := settled
    simp only [parts, kept]
    exact h

/-- A repair leaves a tree as it is exactly if it finds nothing to repair at any node it comes
to. -/
theorem same_tree_iff_settled {t : Tree} (ends : R.descent.Ends t) :
    (R.tree t).same t = true ↔ ∀ x, R.Keeps t x → R.SettledNode x ∧ R.SettledInitial x := by
  induction t using R.descent.parts_induct with
  | step t ih =>
    have below {p : Tree} (settled : R.SettledNode t) (hp : p ∈ R.keptParts t) :
        (R.tree p).same p = true ↔ ∀ x, R.Keeps p x → R.SettledNode x ∧ R.SettledInitial x := by
      have part := R.mem_parts_of_mem_keptParts settled hp
      exact ih p part (ends.of_visits (.single part))
    rw [R.same_tree_iff ends]
    constructor
    · rintro ⟨settled, same⟩ x hx
      rcases hx.cases_head with rfl | ⟨p, hp, hx⟩
      · exact settled
      · exact (below settled.1 hp).mp (same p hp) x hx
    · intro all
      have settled := all t .refl
      exact ⟨settled, fun p hp => (below settled.1 hp).mpr fun x hx => all x (.head hp hx)⟩

end Repair

end TreeRepair
