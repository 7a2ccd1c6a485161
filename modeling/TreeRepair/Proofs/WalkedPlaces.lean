import Mathlib.Data.List.Forall2
import TreeRepair.Proofs.Occurrence

namespace TreeRepair

namespace Walk

theorem step?_cons (t : Tree) (pending yielded : List Tree) :
    step? ⟨(t :: pending).reverse, yielded⟩ =
      some ⟨(t.children ++ pending).reverse, yielded ++ [t]⟩ := by
  simp [step?]

/-- A walk is over after as many steps as there are nodes below its stack. -/
theorem after_preorderPending (pending yielded : List Tree) :
    after (Tree.preorderPending pending).length ⟨pending.reverse, yielded⟩ =
      some ⟨[], yielded ++ Tree.preorderPending pending⟩ := by
  fun_induction Tree.preorderPending pending generalizing yielded with
  | case1 => simp [after]
  | case2 t pending ih =>
    rw [List.length_cons, after, step?_cons, Option.bind_some, ih, List.append_assoc,
      List.singleton_append]

end Walk

/-- What a field of a node holds. -/
inductive Content (α : Type) where
  | one (t : α)
  | many (ts : List α)
  | lists (tss : List (List α))
  | mods (m : Modifiers α)
  | noTree

/-- The fields of a node from left to right. The written form of a resolved type is passed over. -/
def Shape.contents {α : Type} : Shape α → List (Content α)
  | .empty => []
  | .ident _ | .this _ | .literal _ | .typeTree _ => [.noTree]
  | .select q _ | .typeSelect q _ => [.one q, .noTree]
  | .apply fn args | .typeApply fn args | .unapply fn args => [.one fn, .many args]
  | .typed a b | .assign a b | .annotated a b | .typeBounds a b => [.one a, .one b]
  | .function params body => [.many params, .one body]
  | .block stats expr => [.many stats, .one expr]
  | .cond a b c | .caseDef a b c => [.one a, .one b, .one c]
  | .matching a as | .packageDef a as | .appliedType a as | .existentialType a as =>
    [.one a, .many as]
  | .bind _ body => [.noTree, .one body]
  | .new a | .singletonType a | .compoundType a => [.one a]
  | .template parents self body => [.many parents, .one self, .many body]
  | .valDef m _ tpt rhs => [.mods m, .noTree, .one tpt, .one rhs]
  | .defDef m _ tparams vparamss tpt rhs =>
    [.mods m, .noTree, .many tparams, .lists vparamss, .one tpt, .one rhs]
  | .typeDef m _ tparams a | .classDef m _ tparams a => [.mods m, .noTree, .many tparams, .one a]
  | .moduleDef m _ impl => [.mods m, .noTree, .one impl]

section LookUp

variable {κ α β : Type}

/-- Looks up the first step of a way, and the rest of the way in what is found there. -/
def via (look : κ → Option β) (find : β → List κ → Option α) : List κ → Option α
  | [] => none
  | k :: p => (look k).bind fun b => find b p

def whole (a : α) : List κ → Option α
  | [] => some a
  | _ :: _ => none

/-- The tree that stands somewhere in a field, by its number in a list, or by the numbers of a list
and of a tree in that list. -/
def Content.at? : Content α → List Nat → Option α
  | .one t => whole t
  | .many ts => via (ts[·]?) whole
  | .lists tss => via (tss[·]?) fun ts => via (ts[·]?) whole
  | .mods m => via (m.annotations[·]?) whole
  | .noTree => fun _ => none

/-- The tree that stands in a slot of a node, given by the number of the field and a place in it. -/
def Shape.slot? (s : Shape α) : List Nat → Option α := via (s.contents[·]?) Content.at?

end LookUp

/-- The node to which a way leads from the root, slot by slot. -/
def Tree.place? : Tree → List (List Nat) → Option Tree
  | t, [] => some t
  | t, k :: p => (t.shape.slot? k).bind fun c => c.place? p

/-- A place comes before the places below it, and before all that are to the right of it where the
ways part. -/
inductive Before : List (List Nat) → List (List Nat) → Prop
  | above (p : List (List Nat)) (k : List Nat) (q : List (List Nat)) : Before p (p ++ k :: q)
  | left (p : List (List Nat)) {k l : List Nat} (less : k < l) (q r : List (List Nat)) :
    Before (p ++ k :: q) (p ++ l :: r)

theorem Before.of_lt {p q : List (List Nat)} (h : p < q) : Before p q := by
  induction h with
  | nil => exact .above [] _ _
  | rel less => exact .left [] less _ _
  | @cons k p q _ ih =>
    cases ih with
    | above p l q => exact .above (k :: p) l q
    | left p less q r => exact .left (k :: p) less q r

section Listed

variable {κ α β : Type} [LT κ]

/-- Keys in order, each with what is found under it, and all under which anything is found. -/
structure Lists (entries : List (κ × α)) (look : κ → Option α) : Prop where
  ordered : entries.Pairwise fun e f => e.1 < f.1
  mem_iff : ∀ k a, (k, a) ∈ entries ↔ look k = some a

/-- All that is found, once for each key, in the order of the keys. -/
def Listed (look : κ → Option α) (l : List α) : Prop :=
  ∃ entries, Lists entries look ∧ entries.map Prod.snd = l

theorem listed_whole (a : α) : Listed (whole a : List κ → Option α) [a] := by
  refine ⟨[([], a)], ⟨List.pairwise_singleton _ _, fun k b => ?_⟩, rfl⟩
  cases k <;> simp [whole, eq_comm]

theorem listed_getElem? (l : List α) : Listed (fun k : Nat => l[k]?) l := by
  refine ⟨l.mapIdx Prod.mk, ⟨?_, fun k a => ?_⟩, ?_⟩
  · refine List.pairwise_iff_getElem.mpr fun i j hi hj less => ?_
    simpa using less
  · rw [List.mem_mapIdx, List.getElem?_eq_some_iff]
    constructor
    · rintro ⟨i, hi, found⟩
      cases found
      exact ⟨hi, rfl⟩
    · rintro ⟨hk, rfl⟩
      exact ⟨k, hk, rfl⟩
  · refine List.ext_getElem? fun k => ?_
    simp [Function.comp_def]

/-- First steps in order, each followed by the rest of the ways in order, are ways in order. -/
theorem Lists.via {outer : List (κ × β)} {look : κ → Option β} {inner : β → List (List κ × α)}
    {find : β → List κ → Option α} (first : Lists outer look)
    (second : ∀ e ∈ outer, Lists (inner e.2) (find e.2)) :
    Lists (outer.flatMap fun e => (inner e.2).map fun f => (e.1 :: f.1, f.2))
      (TreeRepair.via look find) where
  ordered := by
    refine List.pairwise_flatMap.mpr ⟨fun e he => ?_, first.ordered.imp fun less => ?_⟩
    · exact List.pairwise_map.mpr ((second e he).ordered.imp fun less => List.Lex.cons less)
    · intro a ha b hb
      obtain ⟨f, -, rfl⟩ := List.mem_map.mp ha
      obtain ⟨g, -, rfl⟩ := List.mem_map.mp hb
      exact List.Lex.rel less
  mem_iff p a := by
    cases p with
    | nil => simp [TreeRepair.via]
    | cons k p =>
      simp only [TreeRepair.via, Option.bind_eq_some_iff, List.mem_flatMap, List.mem_map]
      constructor
      · rintro ⟨⟨k, b⟩, he, ⟨p, a⟩, hf, equal⟩
        cases equal
        exact ⟨b, (first.mem_iff k b).mp he, ((second _ he).mem_iff p a).mp hf⟩
      · rintro ⟨b, hb, ha⟩
        have he := (first.mem_iff k b).mpr hb
        exact ⟨(k, b), he, (p, a), ((second _ he).mem_iff p a).mpr ha, rfl⟩

theorem Listed.via {look : κ → Option β} {find : β → List κ → Option α} {l : List β}
    {found : β → List α} (first : Listed look l) (second : ∀ b ∈ l, Listed (find b) (found b)) :
    Listed (TreeRepair.via look find) (l.flatMap found) := by
  obtain ⟨outer, lists, rfl⟩ := first
  have entries (b : β) : ∃ inner, b ∈ outer.map Prod.snd →
      Lists inner (find b) ∧ inner.map Prod.snd = found b := by
    by_cases hb : b ∈ outer.map Prod.snd
    · obtain ⟨inner, h⟩ := second b hb
      exact ⟨inner, fun _ => h⟩
    · exact ⟨[], fun h => absurd h hb⟩
  choose inner h using entries
  refine ⟨_, lists.via fun e he => (h e.2 (List.mem_map_of_mem he)).1, ?_⟩
  rw [List.map_flatMap, List.flatMap_map]
  refine List.flatMap_congr fun e he => ?_
  rw [List.map_map, ← (h e.2 (List.mem_map_of_mem he)).2]
  rfl

end Listed

/-- The trees in a field from left to right. -/
def Content.subtrees {α : Type} : Content α → List α
  | .one t => [t]
  | .many ts => ts
  | .lists tss => tss.flatten
  | .mods m => m.annotations
  | .noTree => []

theorem Content.listed_at? {α : Type} (c : Content α) : Listed c.at? c.subtrees := by
  have list (ts : List α) : Listed (via (fun k : Nat => ts[k]?) whole) ts := by
    have each := (listed_getElem? ts).via fun t _ => listed_whole t
    rwa [List.flatMap_singleton'] at each
  cases c with
  | one t => exact listed_whole t
  | many ts => exact list ts
  | lists tss =>
    have each := (listed_getElem? tss).via fun ts _ => list ts
    rwa [List.flatMap_id'] at each
  | mods m => exact list m.annotations
  | noTree => exact ⟨[], ⟨.nil, by simp [at?]⟩, rfl⟩

theorem Shape.children_eq_contents {α : Type} (s : Shape α) :
    s.children = s.contents.flatMap Content.subtrees := by
  cases s <;> simp [children, contents, Content.subtrees]

theorem Shape.listed_slot? {α : Type} (s : Shape α) : Listed s.slot? s.children := by
  rw [children_eq_contents]
  exact (listed_getElem? s.contents).via fun c _ => c.listed_at?

/-- A walk meets all places of a tree, in their order. -/
theorem Tree.listed_place? (t : Tree) : Listed t.place? t.preorder := by
  induction t using mem_children_induct with
  | node i s ih =>
    obtain ⟨entries, below, nodes⟩ := s.listed_slot?.via ih
    have notRoot {p : List (List Nat)} {n : Tree} (h : (p, n) ∈ entries) : p ≠ [] := by
      rintro rfl
      cases (below.mem_iff [] n).mp h
    refine ⟨([], ⟨i, s⟩) :: entries, ⟨List.pairwise_cons.mpr ⟨?_, below.ordered⟩, ?_⟩, ?_⟩
    · rintro ⟨p, n⟩ h
      cases p with
      | nil => exact absurd rfl (notRoot h)
      | cons k p => exact List.Lex.nil
    · intro p n
      cases p with
      | nil =>
        have absent : ([], n) ∉ entries := fun h => notRoot h rfl
        simp [place?, absent, eq_comm]
      | cons k p => simpa [place?, via] using below.mem_iff (k :: p) n
    · rw [List.map_cons, nodes, preorder_eq]
      rfl

/-- The stack of a walk is empty after as many steps as a tree has nodes, and what it has met then
is the tree, followed by what walks through its children meet, one after the other. So it meets each
place of the tree once, those in annotations and in lists of parameter lists among them: a place
before those below it, and what is on the left before what is on the right. -/
theorem walk_in_preorder (t : Tree) :
    Walk.after t.preorder.length ⟨[t], []⟩ = some ⟨[], t.preorder⟩ ∧
    Walk.step? ⟨[], t.preorder⟩ = none ∧
    t.preorder = t :: t.children.flatMap Tree.preorder ∧
    ∃ places : List (List (List Nat)), places.Pairwise Before ∧
      (∀ p, p ∈ places ↔ (t.place? p).isSome = true) ∧
      List.Forall₂ (fun p n => t.place? p = some n) places t.preorder := by
  refine ⟨Walk.after_preorderPending [t] [], rfl, t.preorder_eq, ?_⟩
  obtain ⟨entries, lists, nodes⟩ := t.listed_place?
  refine ⟨entries.map Prod.fst, ?_, fun p => ?_, ?_⟩
  · exact List.pairwise_map.mpr (lists.ordered.imp Before.of_lt)
  · rw [Option.isSome_iff_exists]
    simp [← lists.mem_iff]
  · rw [← nodes, List.forall₂_map_left_iff, List.forall₂_map_right_iff, List.forall₂_same]
    rintro ⟨p, n⟩ h
    exact (lists.mem_iff p n).mp h

end TreeRepair
