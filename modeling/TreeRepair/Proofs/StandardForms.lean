import TreeRepair.Proofs.ConstantValues
import TreeRepair.Proofs.Same

namespace TreeRepair

namespace Shape

variable {α β γ : Type}

/-- Applies a function to everything below a node, the written form of a resolved type included. -/
def map (f : α → β) : Shape α → Shape β
  | .empty => .empty
  | .ident n => .ident n
  | .select q n => .select (f q) n
  | .this n => .this n
  | .literal c => .literal c
  | .apply fn args => .apply (f fn) (args.map f)
  | .typeApply fn args => .typeApply (f fn) (args.map f)
  | .unapply fn args => .unapply (f fn) (args.map f)
  | .typed e t => .typed (f e) (f t)
  | .assign l r => .assign (f l) (f r)
  | .annotated a e => .annotated (f a) (f e)
  | .function ps b => .function (ps.map f) (f b)
  | .block ss e => .block (ss.map f) (f e)
  | .cond c t e => .cond (f c) (f t) (f e)
  | .caseDef p g b => .caseDef (f p) (f g) (f b)
  | .matching s cs => .matching (f s) (cs.map f)
  | .bind n b => .bind n (f b)
  | .new t => .new (f t)
  | .template ps s b => .template (ps.map f) (f s) (b.map f)
  | .packageDef p ss => .packageDef (f p) (ss.map f)
  | .valDef m n t r => .valDef ⟨m.flags, m.within, m.annotations.map f⟩ n (f t) (f r)
  | .defDef m n tps vss t r =>
    .defDef ⟨m.flags, m.within, m.annotations.map f⟩ n (tps.map f) (vss.map (List.map f)) (f t) (f r)
  | .typeDef m n tps r => .typeDef ⟨m.flags, m.within, m.annotations.map f⟩ n (tps.map f) (f r)
  | .classDef m n tps i => .classDef ⟨m.flags, m.within, m.annotations.map f⟩ n (tps.map f) (f i)
  | .moduleDef m n i => .moduleDef ⟨m.flags, m.within, m.annotations.map f⟩ n (f i)
  | .typeTree w => .typeTree (w.map f)
  | .singletonType r => .singletonType (f r)
  | .typeSelect q n => .typeSelect (f q) n
  | .appliedType t as => .appliedType (f t) (as.map f)
  | .typeBounds l h => .typeBounds (f l) (f h)
  | .existentialType t cs => .existentialType (f t) (cs.map f)
  | .compoundType t => .compoundType (f t)

/-- The node with the representative of its value in place of a constant. -/
def withCanonical : Shape α → Shape α
  | .literal c => .literal c.canonical
  | s => s

theorem map_map (f : α → β) (g : β → γ) (s : Shape α) :
    (s.map f).map g = s.map fun a => g (f a) := by
  cases s <;> simp [map, Function.comp_def]

theorem map_withCanonical (f : α → β) (s : Shape α) :
    s.withCanonical.map f = (s.map f).withCanonical := by
  cases s <;> rfl

theorem subtrees_map (f : α → β) (s : Shape α) : (s.map f).subtrees = s.subtrees.map f := by
  cases s with
  | typeTree w => cases w <;> rfl
  | _ => simp [map, subtrees, children, written, List.map_flatten]

theorem subtrees_withCanonical (s : Shape α) : s.withCanonical.subtrees = s.subtrees := by
  cases s <;> rfl

theorem outline_eq_map (s : Shape α) : s.outline = (s.map fun _ => ()).withCanonical := by
  cases s <;> rfl

theorem ctorIdx_map (f : α → β) (s : Shape α) : (s.map f).ctorIdx = s.ctorIdx := by
  cases s <;> rfl

section NotResolved

variable {s : Shape α} (h : ∀ w, s ≠ .typeTree w)
include h

theorem map_eq_mapChildren (f : α → α) : s.map f = s.mapChildren f := by
  cases s with
  | typeTree w => exact absurd rfl (h w)
  | _ => rfl

theorem subtrees_eq_children : s.subtrees = s.children := by
  cases s with
  | typeTree w => exact absurd rfl (h w)
  | _ => exact List.append_nil _

end NotResolved

/-- A node is determined by what it says apart from what is below it, and by what is below it. -/
theorem eq_of_map_unit {s u : Shape Tree} (h : (s.map fun _ => ()) = u.map fun _ => ())
    (below : s.subtrees = u.subtrees) : s = u := by
  have kind : s.ctorIdx = u.ctorIdx := by
    rw [← ctorIdx_map (fun _ => ()) s, h, ctorIdx_map]
  by_cases resolved : ∃ w, s = .typeTree w
  · obtain ⟨w, rfl⟩ := resolved
    cases u with
    | typeTree w' =>
      have equal : w.toList = w'.toList := below
      cases w <;> cases w' <;> simp_all
    | _ => cases kind
  · have notResolved (w : Option Tree) : s ≠ .typeTree w := fun h => resolved ⟨w, h⟩
    have notResolved' (w : Option Tree) : u ≠ .typeTree w := by
      rintro rfl
      cases s with
      | typeTree w => exact notResolved w rfl
      | _ => cases kind
    have alike : s.Alike u := by
      have blank := congrArg (map fun _ => Tree.empty) h
      rw [map_map, map_map] at blank
      rwa [map_eq_mapChildren notResolved, map_eq_mapChildren notResolved'] at blank
    rw [subtrees_eq_children notResolved, subtrees_eq_children notResolved'] at below
    exact alike.eq_of_children below

/-- Nodes have the same standard form exactly if they say the same, constants taken by value, and
what is below them has the same standard forms. -/
theorem withCanonical_map_eq_iff {f : Tree → Tree} {s u : Shape Tree} :
    (s.map f).withCanonical = (u.map f).withCanonical ↔
      s.outline = u.outline ∧ s.subtrees.map f = u.subtrees.map f := by
  have below (v : Shape Tree) : (v.map f).withCanonical.subtrees = v.subtrees.map f := by
    rw [subtrees_withCanonical, subtrees_map]
  have outline (v : Shape Tree) : ((v.map f).withCanonical.map fun _ => ()) = v.outline := by
    rw [map_withCanonical, map_map, outline_eq_map]
  constructor
  · intro h
    rw [← outline, h, outline, ← below, h, below]
    exact ⟨rfl, rfl⟩
  · rintro ⟨same, lists⟩
    exact eq_of_map_unit (by rw [outline, outline, same]) (by rw [below, below, lists])

end Shape

namespace Tree

/-- The syntax of a tree: nothing is attached to any node, also in what resolved types were read
from, and of all constants of one value the tree has only their representative. -/
def standard : Tree → Tree
  | ⟨_, .typeTree w⟩ => bare (.typeTree (w.attach.map fun ⟨c, _⟩ => c.standard))
  | ⟨_, s⟩ => bare (s.pmapChildren fun c _ => c.standard).withCanonical
termination_by t => t.size
decreasing_by
  · exact size_lt_of_mem_subtrees (by simp_all [subtrees, Shape.subtrees, Shape.written])
  · exact size_lt_of_mem_children ‹_›

theorem standard_mk (i : Info) (s : Shape Tree) :
    (⟨i, s⟩ : Tree).standard = bare (s.map standard).withCanonical := by
  unfold standard
  split
  next w h =>
    cases h
    cases w <;> rfl
  next notResolved h =>
    cases h
    rw [Shape.pmapChildren_eq, Shape.map_eq_mapChildren notResolved]

/-- Trees are the same exactly if they have the same standard form. -/
theorem same_iff_standard {t u : Tree} : t.same u = true ↔ t.standard = u.standard := by
  induction t using induct generalizing u with
  | node i s ih =>
    obtain ⟨j, v⟩ := u
    have below : List.Forall₂ (fun c d => c.same d = true) s.subtrees v.subtrees ↔
        s.subtrees.map standard = v.subtrees.map standard := by
      rw [← List.forall₂_eq_eq_eq, List.forall₂_map_left_iff, List.forall₂_map_right_iff,
        List.forall₂_iff_get, List.forall₂_iff_get]
      refine and_congr_right fun _ => forall₃_congr fun n hn _ => ?_
      exact ih _ (List.get_mem s.subtrees ⟨n, hn⟩)
    rw [same_mk, below, ← Shape.withCanonical_map_eq_iff, standard_mk, standard_mk, bare, bare,
      mk.injEq, and_iff_right rfl]

/-- Nodes that are built alike from trees that are the same are the same. -/
theorem same_map {i j : Info} {s : Shape (Tree × Tree)}
    (h : ∀ p ∈ s.subtrees, p.1.same p.2 = true) :
    (⟨i, s.map Prod.fst⟩ : Tree).same ⟨j, s.map Prod.snd⟩ = true := by
  refine same_mk.mpr ⟨?_, ?_⟩
  · rw [Shape.outline_eq_map, Shape.outline_eq_map, Shape.map_map, Shape.map_map]
  · rw [Shape.subtrees_map, Shape.subtrees_map, List.forall₂_map_left_iff,
      List.forall₂_map_right_iff]
    exact List.forall₂_same.mpr h

/-- The same tree with other things attached to its nodes, also in what resolved types were read
from. -/
inductive Reattached : Tree → Tree → Prop
  | node (i j : Info) (s : Shape (Tree × Tree)) (below : ∀ p ∈ s.subtrees, Reattached p.1 p.2) :
    Reattached ⟨i, s.map Prod.fst⟩ ⟨j, s.map Prod.snd⟩

theorem Reattached.same {t u : Tree} (h : t.Reattached u) : t.same u = true := by
  induction h with
  | node i j s below ih => exact same_map ih

end Tree

end TreeRepair
