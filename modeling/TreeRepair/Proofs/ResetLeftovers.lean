import TreeRepair.Cleanup.Reset
import TreeRepair.Proofs.RepairReach
import TreeRepair.Proofs.RepairSize

namespace TreeRepair

open Relation

theorem Shape.mapChildren_eq_self_iff {s : Shape Tree} {f : Tree → Tree} :
    s.mapChildren f = s ↔ ∀ c ∈ s.children, f c = c := by
  refine ⟨fun h => ?_, Shape.mapChildren_eq_self⟩
  have children : s.children.map f = s.children.map id := by
    rw [← Shape.children_mapChildren, h, List.map_id]
  exact List.map_inj_left.mp children

/-- What holds of everything in a tree holds of the tree and of everything in its subtrees. -/
theorem Tree.forall_contains_iff {t : Tree} {p : Tree → Prop} :
    (∀ n, t.Contains n → p n) ↔ p t ∧ ∀ c ∈ t.subtrees, ∀ n, c.Contains n → p n := by
  constructor
  · exact fun h => ⟨h t .refl, fun c hc n hn => h n (.head hc hn)⟩
  · rintro ⟨here, below⟩ n hn
    rcases hn.cases_head with rfl | ⟨c, hc, hn⟩
    · exact here
    · exact below c hc n hn

namespace Setting

variable (W : Setting)

/-- Whether a tree refers to a module. -/
def isModuleReference (t : Tree) : Bool := t.symbol.any fun s => (W.symbols.get s).isModule

/-- A generated method for a default argument. -/
def isGeneratedHelper (mods : Modifiers Tree) (name : Name) : Bool :=
  (mods.has .synthetic || mods.has .defaultParam) &&
    Text.contains name.text W.conventions.defaultMarker

/-- What a reset leaves of the checker's work, at one node. -/
def isLeftover : Tree → Bool
  | ⟨_, .apply fn _⟩ => W.isModuleReference fn
  | ⟨_, .typed expr tpt⟩ => (ascribed? expr tpt).isSome
  | ⟨i, .ident _⟩ => W.isLazyTerm i.symbol
  | ⟨_, .defDef mods name _ _ _ _⟩ => W.isGeneratedHelper mods name
  | ⟨_, .moduleDef mods _ impl⟩ => W.isEmptyModule mods impl
  | _ => false

/-- A tree with its children cleaned up, and itself as it is. -/
def cleanBelow (t : Tree) : Tree := ⟨t.info, t.shape.mapChildren W.cleanReset⟩

/-- The declarations that go away; whether a module is empty shows when its body is clean. -/
def isDropped : Tree → Bool
  | ⟨_, .defDef mods name _ _ _ _⟩ => W.isGeneratedHelper mods name
  | ⟨_, .moduleDef mods _ impl⟩ => W.isEmptyModule mods (W.cleanReset impl)
  | _ => false

/-- The node of which the children are cleaned up: what an ascription stands for, an application
without its module, and a lazy reference without its symbol. -/
def opened : Tree → Tree
  | ⟨i, .apply fn args⟩ => ⟨i, .apply (W.releaseModule fn) args⟩
  | ⟨i, .typed expr tpt⟩ => (ascribed? expr tpt).getD ⟨i, .typed expr tpt⟩
  | ⟨i, .ident name⟩ => ⟨if W.isLazyTerm i.symbol then i.detached else i, .ident name⟩
  | t => t

/-- The trees that a clean-up is run on for a tree. -/
def cleanedParts (t : Tree) : List Tree :=
  if W.isDropped t then [] else (W.opened t).children ++ t.shape.written.toList

/-- The written form of a type that stays as it is, since an ascription stood for the type. -/
def passedOver (t : Tree) : Option Tree :=
  match t.shape.written with
  | some _ => none
  | none => (W.opened t).shape.written

/-- A clean-up of the first tree comes to the second. -/
def Cleans : Tree → Tree → Prop := ReflTransGen fun t p => p ∈ W.cleanedParts t

/-- The nodes at which a clean-up brings out something that it does not clean up. -/
inductive Uncovers : Tree → Prop
  /-- What an applied ascription stands for is a module. -/
  | module {i j : Info} {expr tpt u : Tree} {args : List Tree} :
      ascribed? expr tpt = some u → W.isModuleReference u = true →
      Uncovers ⟨i, .apply ⟨j, .typed expr tpt⟩ args⟩
  /-- What an ascription stands for is cleaned up below, and not itself. -/
  | leftover {i : Info} {expr tpt u : Tree} :
      ascribed? expr tpt = some u → W.isLeftover (W.cleanBelow u) = true →
      Uncovers ⟨i, .typed expr tpt⟩
  /-- An ascription stands for a type, the written form of which is not cleaned up. -/
  | written {i : Info} {expr tpt u w n : Tree} :
      ascribed? expr tpt = some u → u.shape.written = some w → w.Contains n →
      W.isLeftover n = true → Uncovers ⟨i, .typed expr tpt⟩
  /-- An ascription is as written, and no longer is when both its sides are clean. -/
  | ascription {i : Info} {expr tpt u : Tree} :
      ascribed? expr tpt = none → ascribed? (W.cleanReset expr) (W.cleanReset tpt) = some u →
      Uncovers ⟨i, .typed expr tpt⟩

variable {W}

theorem isLeftover_empty : W.isLeftover .empty = false := rfl

theorem isModuleReference_releaseModule (W : Setting) (fn : Tree) :
    W.isModuleReference (W.releaseModule fn) = false := by
  unfold releaseModule
  split
  next => rfl
  next h => exact Bool.eq_false_iff.mpr h

theorem releaseModule_of_not_module {fn : Tree} (h : W.isModuleReference fn = false) :
    W.releaseModule fn = fn := if_neg (Bool.eq_false_iff.mp h)

theorem exists_releaseModule_eq (W : Setting) (i : Info) (s : Shape Tree) :
    ∃ j, W.releaseModule ⟨i, s⟩ = ⟨j, s⟩ := by
  unfold releaseModule
  split
  · exact ⟨i.detached, rfl⟩
  · exact ⟨i, rfl⟩

theorem opened_of_not_leftover {t : Tree} (h : W.isLeftover t = false) : W.opened t = t := by
  obtain ⟨i, s⟩ := t
  cases s with
  | apply fn args => rw [opened, releaseModule_of_not_module h]
  | typed expr tpt =>
    have kept : ascribed? expr tpt = none :=
      Option.isNone_iff_eq_none.mp (Option.isSome_eq_false_iff.mp h)
    rw [opened, kept, Option.getD_none]
  | ident name => exact congrArg (Tree.mk · (.ident name)) (if_neg (Bool.eq_false_iff.mp h))
  | _ => rfl

theorem size_opened_le (t : Tree) : (W.opened t).size ≤ t.size := by
  obtain ⟨i, s⟩ := t
  cases s with
  | apply fn args =>
    refine Tree.size_le_of_forall₂ rfl ?_
    simp [Shape.subtrees, Shape.children, Shape.written, size_releaseModule, List.forall₂_same]
  | typed expr tpt =>
    rw [opened]
    cases stands : ascribed? expr tpt with
    | none => exact Nat.le_refl _
    | some u => exact (size_lt_of_ascribed? stands).le
  | ident name =>
    refine (Tree.size_eq_of_shape ?_).le
    rfl
  | _ => exact Nat.le_refl _

theorem size_lt_of_mem_cleanedParts {t p : Tree} (h : p ∈ W.cleanedParts t) : p.size < t.size := by
  unfold cleanedParts at h
  split at h
  · cases h
  · rcases List.mem_append.mp h with child | written
    · exact (Tree.size_lt_of_mem_children child).trans_le (size_opened_le t)
    · exact Tree.size_lt_of_mem_subtrees (List.mem_append_right _ written)

theorem cleanReset_of_dropped {t : Tree} (h : W.isDropped t = true) : W.cleanReset t = .empty := by
  obtain ⟨i, s⟩ := t
  cases s with
  | defDef mods name tparams vparamss tpt rhs => exact (cleanReset.eq_def ..).trans (if_pos h)
  | moduleDef mods name impl => exact (cleanReset.eq_def ..).trans (if_pos h)
  | _ => cases h

theorem cleanReset_of_kept {t : Tree} (kept : W.isDropped t = false)
    (unresolved : t.shape.written = none) : W.cleanReset t = W.cleanBelow (W.opened t) := by
  obtain ⟨i, s⟩ := t
  cases s with
  | typeTree w =>
    obtain rfl : w = none := unresolved
    simp [cleanReset, opened, cleanBelow]
  | apply fn args => simp [cleanReset, opened, cleanBelow, Shape.mapChildren]
  | typed expr tpt =>
    rw [cleanReset, opened]
    split
    next u stands => simp [stands, cleanBelow]
    next stands => simp [stands, cleanBelow, Shape.mapChildren]
  | ident name => simp [cleanReset, opened, cleanBelow, Shape.mapChildren]
  | defDef mods name tparams vparamss tpt rhs =>
    simp only [isDropped, isGeneratedHelper] at kept
    simp [cleanReset, kept, opened, cleanBelow]
  | moduleDef mods name impl =>
    simp only [isDropped] at kept
    simp [cleanReset, kept, opened, cleanBelow, Shape.mapChildren]
  | _ => simp [cleanReset, opened, cleanBelow]

theorem cleanReset_typed (i : Info) {expr tpt u : Tree} (h : ascribed? expr tpt = some u) :
    W.cleanReset ⟨i, .typed expr tpt⟩ = W.cleanBelow u := by
  rw [cleanReset_of_kept rfl rfl, opened, h, Option.getD_some]

theorem cleanReset_typed_kept (i : Info) {expr tpt : Tree} (h : ascribed? expr tpt = none) :
    W.cleanReset ⟨i, .typed expr tpt⟩ = ⟨i, .typed (W.cleanReset expr) (W.cleanReset tpt)⟩ := by
  rw [cleanReset_of_kept rfl rfl, opened, h]
  rfl

/-- A run takes away a declaration, cleans up the written form of a type, or cleans up below what
the node stands for. -/
theorem cleanReset_cases (W : Setting) (t : Tree) :
    (W.isDropped t = true ∧ W.cleanReset t = .empty) ∨
    (∃ i w, t = ⟨i, .typeTree (some w)⟩ ∧
      W.cleanReset t = ⟨i, .typeTree (some (W.cleanReset w))⟩) ∨
    (W.isDropped t = false ∧ t.shape.written = none ∧
      W.cleanReset t = W.cleanBelow (W.opened t)) := by
  cases dropped : W.isDropped t with
  | true => exact .inl ⟨rfl, cleanReset_of_dropped dropped⟩
  | false =>
    cases written : t.shape.written with
    | none => exact .inr (.inr ⟨rfl, rfl, cleanReset_of_kept dropped written⟩)
    | some w =>
      obtain ⟨i, s⟩ := t
      cases s <;> simp only [Shape.written, reduceCtorEq] at written
      subst written
      exact .inr (.inl ⟨i, w, rfl, by rw [cleanReset]⟩)

theorem size_cleanBelow_le_of {t : Tree} (h : ∀ c ∈ t.children, (W.cleanReset c).size ≤ c.size) :
    (W.cleanBelow t).size ≤ t.size := by
  obtain ⟨i, s⟩ := t
  exact Tree.size_mapChildren_le h

/-- A clean-up adds nothing. -/
theorem size_cleanReset_le (t : Tree) : (W.cleanReset t).size ≤ t.size := by
  induction h : t.size using Nat.strong_induction_on generalizing t with
  | _ n ih =>
    subst h
    have part {p : Tree} (hp : p ∈ W.cleanedParts t) : (W.cleanReset p).size ≤ p.size :=
      ih _ (size_lt_of_mem_cleanedParts hp) p rfl
    rcases W.cleanReset_cases t with ⟨_, gone⟩ | ⟨i, w, rfl, type⟩ | ⟨kept, unresolved, below⟩
    · rw [gone, Tree.size_empty]
      exact t.size_pos
    · rw [type]
      refine Tree.size_le_of_forall₂ rfl ?_
      simpa [Shape.subtrees, Shape.children, Shape.written] using
        part (p := w) (by simp [cleanedParts, isDropped, Shape.written])
    · rw [below]
      refine (size_cleanBelow_le_of fun c hc => part ?_).trans (size_opened_le t)
      simpa [cleanedParts, kept, unresolved] using hc

theorem isModuleReference_cleanReset {t : Tree} (outside : W.isModuleReference t = false)
    (stands : ∀ i expr tpt, t = ⟨i, .typed expr tpt⟩ → ascribed? expr tpt = none) :
    W.isModuleReference (W.cleanReset t) = false := by
  rcases W.cleanReset_cases t with ⟨_, gone⟩ | ⟨i, w, rfl, type⟩ | ⟨_, _, below⟩
  · rw [gone]
    rfl
  · rw [type]
    exact outside
  · rw [below]
    obtain ⟨i, s⟩ := t
    cases s with
    | typed expr tpt =>
      rw [opened, stands i expr tpt rfl]
      exact outside
    | ident name =>
      rw [opened]
      split
      · rfl
      · exact outside
    | _ => exact outside

theorem size_cleanBelow_le (t : Tree) : (W.cleanBelow t).size ≤ t.size :=
  size_cleanBelow_le_of fun c _ => size_cleanReset_le c

/-- An ascription that stands for something else gets smaller. -/
theorem cleanReset_typed_ne {i j : Info} {expr tpt u : Tree} (h : ascribed? expr tpt = some u) :
    W.cleanReset ⟨i, .typed expr tpt⟩ ≠ ⟨j, .typed expr tpt⟩ := by
  intro fixed
  have smaller := (size_cleanBelow_le (W := W) u).trans_lt (size_lt_of_ascribed? (i := j) h)
  rw [← cleanReset_typed i h, fixed] at smaller
  exact Nat.lt_irrefl _ smaller

/-- A function that lost its module is one again only if it is ascribed to one. -/
theorem isModuleReference_cleanReset_releaseModule {fn : Tree} :
    W.isModuleReference (W.cleanReset (W.releaseModule fn)) = true ↔
      ∃ i expr tpt u, fn = ⟨i, .typed expr tpt⟩ ∧ ascribed? expr tpt = some u ∧
        W.isModuleReference u = true := by
  have outside := W.isModuleReference_releaseModule fn
  obtain ⟨i, s⟩ := fn
  obtain ⟨j, released⟩ := W.exists_releaseModule_eq i s
  rw [released] at outside ⊢
  constructor
  · intro module
    by_contra other
    refine Bool.eq_false_iff.mp (isModuleReference_cleanReset outside fun _ expr tpt h => ?_) module
    cases h
    refine Option.eq_none_iff_forall_ne_some.mpr fun u stands => other ?_
    rw [cleanReset_typed j stands] at module
    exact ⟨i, expr, tpt, u, rfl, stands, module⟩
  · rintro ⟨_, expr, tpt, u, ascription, stands, module⟩
    cases ascription
    rw [cleanReset_typed j stands]
    exact module

theorem cleanReset_releaseModule_ne {fn : Tree} (h : W.isModuleReference fn = true) :
    W.cleanReset (W.releaseModule fn) ≠ fn := by
  intro fixed
  obtain ⟨i, expr, tpt, u, rfl, stands, _⟩ :=
    isModuleReference_cleanReset_releaseModule.mp (by rw [fixed, h])
  obtain ⟨j, released⟩ := W.exists_releaseModule_eq i (.typed expr tpt)
  rw [released] at fixed
  exact cleanReset_typed_ne stands fixed

theorem not_leftover_of_cleanReset_eq {t : Tree} (fixed : W.cleanReset t = t) :
    W.isLeftover t = false := by
  have kept : W.isDropped t = false := by
    refine Bool.eq_false_iff.mpr fun dropped => ?_
    rw [cleanReset_of_dropped dropped] at fixed
    rw [← fixed] at dropped
    cases dropped
  obtain ⟨i, s⟩ := t
  cases s with
  | apply fn args =>
    rw [cleanReset_of_kept kept rfl] at fixed
    refine Bool.eq_false_iff.mpr fun left => cleanReset_releaseModule_ne left ?_
    exact (Shape.apply.inj (congrArg Tree.shape fixed)).1
  | typed expr tpt =>
    refine Bool.eq_false_iff.mpr fun left => ?_
    obtain ⟨u, stands⟩ := Option.isSome_iff_exists.mp left
    exact cleanReset_typed_ne stands fixed
  | ident name =>
    rw [cleanReset_of_kept kept rfl] at fixed
    refine Bool.eq_false_iff.mpr fun left => ?_
    have lazy : W.isLazyTerm i.symbol = true := left
    have info : i.detached = i := by
      simpa [cleanBelow, opened, lazy] using congrArg Tree.info fixed
    rw [← info] at lazy
    cases lazy
  | defDef mods name tparams vparamss tpt rhs => exact kept
  | moduleDef mods name impl =>
    have impl_fixed : W.cleanReset impl = impl := by
      rw [cleanReset_of_kept kept rfl] at fixed
      exact (Shape.moduleDef.inj (congrArg Tree.shape fixed)).2.2
    rw [isLeftover, ← impl_fixed]
    exact kept
  | _ => rfl

/-- A tree is clean exactly when nothing is left at its root and its subtrees are clean. -/
theorem cleanReset_eq_self_iff {t : Tree} :
    W.cleanReset t = t ↔
      W.isLeftover t = false ∧ ∀ c ∈ t.subtrees, W.cleanReset c = c := by
  constructor
  · intro fixed
    have clean := not_leftover_of_cleanReset_eq fixed
    refine ⟨clean, ?_⟩
    rcases W.cleanReset_cases t with ⟨dropped, gone⟩ | ⟨i, w, rfl, type⟩ | ⟨_, unresolved, kept⟩
    · rw [← fixed, gone]
      simp [Tree.empty, Tree.bare, Tree.subtrees, Shape.subtrees, Shape.children, Shape.written]
    · simpa [type, Tree.subtrees, Shape.subtrees, Shape.children, Shape.written] using fixed
    · rw [kept, opened_of_not_leftover clean] at fixed
      have children := Shape.mapChildren_eq_self_iff.mp (congrArg Tree.shape fixed)
      simpa [Tree.subtrees, Shape.subtrees, unresolved] using children
  · rintro ⟨clean, below⟩
    rcases W.cleanReset_cases t with ⟨dropped, _⟩ | ⟨i, w, rfl, type⟩ | ⟨_, _, kept⟩
    · obtain ⟨i, s⟩ := t
      cases s with
      | defDef mods name tparams vparamss tpt rhs =>
        exact absurd dropped (Bool.eq_false_iff.mp clean)
      | moduleDef mods name impl =>
        have body := below impl (by simp [Tree.subtrees, Shape.subtrees, Shape.children])
        rw [isDropped, body] at dropped
        exact absurd dropped (Bool.eq_false_iff.mp clean)
      | _ => cases dropped
    · rw [type, below w (by simp [Tree.subtrees, Shape.subtrees, Shape.children, Shape.written])]
    · obtain ⟨i, s⟩ := t
      rw [kept, opened_of_not_leftover clean, cleanBelow]
      exact congrArg (Tree.mk i)
        (Shape.mapChildren_eq_self fun c hc => below c (List.mem_append_left _ hc))

/-- A tree is clean exactly when nothing is left anywhere in it. -/
theorem cleanReset_eq_self_iff_forall {t : Tree} :
    W.cleanReset t = t ↔ ∀ n, t.Contains n → W.isLeftover n = false := by
  induction t using Tree.induct with
  | node i s ih =>
    rw [cleanReset_eq_self_iff, Tree.forall_contains_iff]
    exact and_congr_right' (forall₂_congr fun c hc => ih c hc)

theorem subtrees_cleanReset (t : Tree) :
    (W.cleanReset t).subtrees =
      (W.cleanedParts t).map W.cleanReset ++ (W.passedOver t).toList := by
  rcases W.cleanReset_cases t with ⟨dropped, gone⟩ | ⟨i, w, rfl, type⟩ | ⟨kept, unresolved, below⟩
  · have none_passed : W.passedOver t = none := by
      obtain ⟨i, s⟩ := t
      cases s with
      | defDef mods name tparams vparamss tpt rhs => rfl
      | moduleDef mods name impl => rfl
      | _ => cases dropped
    rw [gone, none_passed, cleanedParts, if_pos dropped]
    rfl
  · rw [type]
    simp [cleanedParts, passedOver, isDropped, opened, Tree.subtrees, Tree.children, Shape.subtrees,
      Shape.children, Shape.written]
  · rw [below]
    simp [cleanedParts, passedOver, kept, unresolved, cleanBelow, Tree.subtrees, Tree.children,
      Shape.subtrees]

theorem uncovers_apply {i : Info} {fn : Tree} {args : List Tree} :
    W.Uncovers ⟨i, .apply fn args⟩ ↔
      W.isModuleReference (W.cleanReset (W.releaseModule fn)) = true := by
  rw [isModuleReference_cleanReset_releaseModule]
  constructor
  · rintro ⟨stands, module⟩
    exact ⟨_, _, _, _, rfl, stands, module⟩
  · rintro ⟨j, expr, tpt, u, rfl, stands, module⟩
    exact .module stands module

theorem uncovers_of_ascribed {i : Info} {expr tpt u : Tree} (stands : ascribed? expr tpt = some u) :
    W.Uncovers ⟨i, .typed expr tpt⟩ ↔
      W.isLeftover (W.cleanBelow u) = true ∨ ∃ w ∈ u.shape.written, W.cleanReset w ≠ w := by
  constructor
  · intro h
    cases h with
    | leftover stands' left =>
      obtain rfl := Option.some.inj (stands.symm.trans stands')
      exact .inl left
    | written stands' written within left =>
      obtain rfl := Option.some.inj (stands.symm.trans stands')
      refine .inr ⟨_, written, fun fixed => ?_⟩
      exact Bool.eq_false_iff.mp (cleanReset_eq_self_iff_forall.mp fixed _ within) left
    | ascription stands' => simp [stands] at stands'
  · rintro (left | ⟨w, written, unclean⟩)
    · exact .leftover stands left
    · rw [Ne, cleanReset_eq_self_iff_forall] at unclean
      push Not at unclean
      obtain ⟨n, within, left⟩ := unclean
      exact .written stands written within (Bool.not_eq_false _ ▸ left)

theorem uncovers_of_kept {i : Info} {expr tpt : Tree} (kept : ascribed? expr tpt = none) :
    W.Uncovers ⟨i, .typed expr tpt⟩ ↔
      (ascribed? (W.cleanReset expr) (W.cleanReset tpt)).isSome = true := by
  constructor
  · intro h
    cases h with
    | leftover stands => simp [kept] at stands
    | written stands => simp [kept] at stands
    | ascription _ again => exact Option.isSome_iff_exists.mpr ⟨_, again⟩
  · intro left
    obtain ⟨u, again⟩ := Option.isSome_iff_exists.mp left
    exact .ascription kept again

/-- A declaration that stays is one that a second run leaves in place. -/
theorem not_leftover_of_declaration {t : Tree}
    (kept : W.isDropped t = false → W.isLeftover (W.cleanBelow (W.opened t)) = false)
    (unresolved : t.shape.written = none) : W.isLeftover (W.cleanReset t) = false := by
  cases dropped : W.isDropped t with
  | true => rw [cleanReset_of_dropped dropped, isLeftover_empty]
  | false =>
    rw [cleanReset_of_kept dropped unresolved]
    exact kept dropped

/-- What a run leaves at a node, by what was there before. -/
theorem uncovers_iff {t : Tree} :
    W.Uncovers t ↔
      W.isLeftover (W.cleanReset t) = true ∨ ∃ w ∈ W.passedOver t, W.cleanReset w ≠ w := by
  -- Only an ascription, or the application of one, brings something out.
  have covered (clean : W.isLeftover (W.cleanReset t) = false) (passed : W.passedOver t = none)
      (none : ¬ W.Uncovers t) : W.Uncovers t ↔
        W.isLeftover (W.cleanReset t) = true ∨ ∃ w ∈ W.passedOver t, W.cleanReset w ≠ w := by
    simp [clean, passed, none]
  obtain ⟨i, s⟩ := t
  cases s with
  | apply fn args =>
    have left : W.isLeftover (W.cleanReset ⟨i, .apply fn args⟩) =
        W.isModuleReference (W.cleanReset (W.releaseModule fn)) := by
      rw [cleanReset_of_kept rfl rfl]
      rfl
    have passed : W.passedOver ⟨i, .apply fn args⟩ = none := rfl
    simp [uncovers_apply, left, passed]
  | typed expr tpt =>
    cases stands : ascribed? expr tpt with
    | some u =>
      have passed : W.passedOver ⟨i, .typed expr tpt⟩ = u.shape.written := by
        simp [passedOver, Shape.written, opened, stands]
      rw [uncovers_of_ascribed stands, cleanReset_typed i stands, passed]
    | none =>
      have passed : W.passedOver ⟨i, .typed expr tpt⟩ = none := by
        simp [passedOver, Shape.written, opened, stands]
      rw [uncovers_of_kept stands, cleanReset_typed_kept i stands, passed]
      simp [isLeftover]
  | ident name =>
    refine covered ?_ rfl (by rintro ⟨⟩)
    rw [cleanReset_of_kept rfl rfl, opened]
    cases lazy : W.isLazyTerm i.symbol with
    | true => rfl
    | false => exact lazy
  | defDef mods name tparams vparamss tpt rhs =>
    exact covered (not_leftover_of_declaration id rfl) rfl (by rintro ⟨⟩)
  | moduleDef mods name impl =>
    exact covered (not_leftover_of_declaration id rfl) rfl (by rintro ⟨⟩)
  | typeTree w =>
    cases w with
    | none => exact covered (by rw [cleanReset_of_kept rfl rfl]; rfl) rfl (by rintro ⟨⟩)
    | some w => exact covered (by rw [cleanReset]; rfl) rfl (by rintro ⟨⟩)
  | _ => exact covered (by rw [cleanReset_of_kept rfl rfl]; rfl) rfl (by rintro ⟨⟩)

theorem cleanReset_twice_iff_parts {t : Tree} :
    W.cleanReset (W.cleanReset t) = W.cleanReset t ↔
      ¬ W.Uncovers t ∧
        ∀ p ∈ W.cleanedParts t, W.cleanReset (W.cleanReset p) = W.cleanReset p := by
  rw [cleanReset_eq_self_iff, subtrees_cleanReset, uncovers_iff, List.forall_mem_append,
    List.forall_mem_map]
  push Not
  simp only [Bool.not_eq_true, Option.mem_toList]
  tauto

theorem cleans_iff {t x : Tree} :
    W.Cleans t x ↔ x = t ∨ ∃ p ∈ W.cleanedParts t, W.Cleans p x :=
  ReflTransGen.cases_head_iff.trans (or_congr_left eq_comm)

end Setting

open Setting

/-- A second run changes nothing exactly when the first brings out nothing at the trees that it
comes to. -/
theorem cleanup_settled_iff (W : Setting) (t : Tree) :
    (W.cleanReset (W.cleanReset t) = W.cleanReset t ↔
      ∀ n, (W.cleanReset t).Contains n → W.isLeftover n = false) ∧
    (W.cleanReset (W.cleanReset t) = W.cleanReset t ↔
      ∀ x, W.Cleans t x → ¬ W.Uncovers x) := by
  refine ⟨cleanReset_eq_self_iff_forall, ?_⟩
  induction h : t.size using Nat.strong_induction_on generalizing t with
  | _ n ih =>
    subst h
    have parts : (∀ x, W.Cleans t x → ¬ W.Uncovers x) ↔
        ¬ W.Uncovers t ∧ ∀ p ∈ W.cleanedParts t, ∀ x, W.Cleans p x → ¬ W.Uncovers x := by
      simp only [cleans_iff (t := t)]
      grind
    rw [cleanReset_twice_iff_parts, parts]
    exact and_congr_right' (forall₂_congr fun p hp =>
      ih p.size (size_lt_of_mem_cleanedParts hp) p rfl)

/-- A value to which a name that is no type is ascribed. -/
def ascribedValue (value : Tree) (name : String) : Tree :=
  .bare (.typed value (.bare (.ident (.term name))))

def valueX : Tree := .bare (.ident (.term "x"))

theorem ascribedValue_settled :
    counterSetting.cleanReset (counterSetting.cleanReset (ascribedValue valueX "y")) =
      counterSetting.cleanReset (ascribedValue valueX "y") := by
  refine (cleanup_settled_iff counterSetting _).2.mpr fun x cleans => ?_
  have parts : counterSetting.cleanedParts (ascribedValue valueX "y") = [] := by cbv
  rcases cleans_iff.mp cleans with rfl | ⟨p, hp, _⟩
  · have stands : ascribed? valueX (.bare (.ident (.term "y"))) = some valueX := by cbv
    have clean : counterSetting.isLeftover (counterSetting.cleanBelow valueX) = false := by cbv
    rw [ascribedValue, Tree.bare, uncovers_of_ascribed stands, clean]
    simp [valueX, Tree.bare, Shape.written]
  · simp [parts] at hp

/-- If what an ascription stands for is an ascription, it takes a second run to remove that. -/
theorem nested_ascription_drifts :
    counterSetting.cleanReset (ascribedValue (ascribedValue valueX "y") "z") =
        ascribedValue valueX "y" ∧
      counterSetting.cleanReset (ascribedValue valueX "y") = valueX ∧
      ascribedValue valueX "y" ≠ valueX := by
  refine ⟨by cbv, by cbv, ?_⟩
  simp [ascribedValue, valueX, Tree.bare]

end TreeRepair
