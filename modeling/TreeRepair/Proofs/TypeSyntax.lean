import TreeRepair.Proofs.Same
import TreeRepair.Proofs.WritingEnds

namespace TreeRepair

/-- A node of which written types are made up. The declarations among them have no value, and
nothing but their flag says that they are left open. -/
def Shape.isTypeSyntax : Shape Tree → Bool
  | .empty | .ident _ | .select _ _ | .this _ | .template _ _ _ | .typeDef _ _ _ _
  | .typeTree none | .singletonType _ | .typeSelect _ _ | .appliedType _ _ | .typeBounds _ _
  | .existentialType _ _ | .compoundType _ => true
  | .valDef mods _ _ rhs | .defDef mods _ _ _ _ rhs =>
    mods.flags == .single .deferred && rhs.isEmpty
  | _ => false

theorem Shape.isTypeSyntax_mapChildren {f : Tree → Tree} (h : ∀ c, (f c).isEmpty = c.isEmpty)
    (s : Shape Tree) : (s.mapChildren f).isTypeSyntax = s.isTypeSyntax := by
  cases s with
  | typeTree w => cases w <;> rfl
  | _ => simp [isTypeSyntax, mapChildren, h]

namespace Tree

/-- Where no name is turned back, the search for names goes on below. -/
theorem nameSingletons_mk (ending : String) (i : Info) (s : Shape Tree) :
    (∃ name, (⟨i, s⟩ : Tree).nameSingletons ending = .bare (.ident name)) ∨
      (⟨i, s⟩ : Tree).nameSingletons ending = ⟨i, s.mapChildren (nameSingletons ending)⟩ := by
  cases s with
  | ident name =>
    cases name with
    | type n =>
      rw [nameSingletons]
      split
      · exact .inl ⟨_, rfl⟩
      · exact .inr rfl
    | _ => exact .inr (by simp [nameSingletons])
  | _ => exact .inr (by simp [nameSingletons])

theorem nameSingletons_of_ne {ending : String} {i : Info} {s : Shape Tree}
    (h : ∀ text, s ≠ .ident (.type text)) :
    (⟨i, s⟩ : Tree).nameSingletons ending = ⟨i, s.mapChildren (nameSingletons ending)⟩ := by
  rw [nameSingletons, Shape.pmapChildren_eq]
  exact h

theorem isEmpty_nameSingletons (ending : String) (t : Tree) :
    (t.nameSingletons ending).isEmpty = t.isEmpty := by
  obtain ⟨i, s⟩ := t
  cases s with
  | ident name =>
    obtain ⟨_, renamed⟩ | rebuilt := nameSingletons_mk ending i (.ident name)
    · rw [renamed]
      rfl
    · rw [rebuilt]
      rfl
  | _ => simp [nameSingletons, isEmpty, Shape.mapChildren]

end Tree

/-- A node of a written type. Nothing is attached to it, unless it carries along a type as
resolved, which has to have the given property. -/
structure TypeSyntaxNode (carried : Ty → Prop) (n : Tree) : Prop where
  kind : n.shape.isTypeSyntax = true
  attached : n.info = {} ∨ ∃ u, n = .resolved u ∧ carried u

def TypeSyntax (carried : Ty → Prop) (t : Tree) : Prop :=
  ∀ n ∈ t.preorder, TypeSyntaxNode carried n

variable {W : Setting} {P : Ty → Prop}

theorem typeSyntax_mk {i : Info} {s : Shape Tree} :
    TypeSyntax P ⟨i, s⟩ ↔ TypeSyntaxNode P ⟨i, s⟩ ∧ ∀ c ∈ s.children, TypeSyntax P c :=
  Tree.forall_mem_preorder

theorem typeSyntax_bare {s : Shape Tree} (kind : s.isTypeSyntax = true)
    (below : ∀ c ∈ s.children, TypeSyntax P c) : TypeSyntax P (.bare s) :=
  typeSyntax_mk.mpr ⟨⟨kind, .inl rfl⟩, below⟩

theorem typeSyntax_leaf {s : Shape Tree} (kind : s.isTypeSyntax = true) (leaf : s.children = []) :
    TypeSyntax P (.bare s) :=
  typeSyntax_bare kind (by simp [leaf])

theorem typeSyntax_empty : TypeSyntax P .empty := typeSyntax_leaf rfl rfl

theorem typeSyntax_resolved {u : Ty} (h : P u) : TypeSyntax P (.resolved u) :=
  typeSyntax_mk.mpr ⟨⟨rfl, .inr ⟨u, rfl, h⟩⟩, by simp [Shape.children]⟩

theorem TypeSyntax.imp {Q : Ty → Prop} {t : Tree} (h : TypeSyntax P t) (imp : ∀ u, P u → Q u) :
    TypeSyntax Q t := fun n hn =>
  ⟨(h n hn).kind, (h n hn).attached.imp_right fun ⟨u, same, carried⟩ => ⟨u, same, imp u carried⟩⟩

theorem TypeSyntax.child {t c : Tree} (h : TypeSyntax P t) (hc : c ∈ t.shape.children) :
    TypeSyntax P c :=
  fun n hn => h n (Tree.mem_preorder_of_mem_children hc hn)

theorem typeSyntax_path (n : Nat) (s : SymbolId) : TypeSyntax P (W.pathWithin n s) := by
  induction n generalizing s with
  | zero => exact typeSyntax_leaf rfl rfl
  | succ n ih =>
    rw [Setting.pathWithin]
    split
    · exact typeSyntax_leaf rfl rfl
    · split
      · exact typeSyntax_leaf rfl rfl
      · exact typeSyntax_bare rfl (by simp [Shape.children, ih])

theorem typeSyntax_applied {t : Tree} {args : List Tree} (ht : TypeSyntax P t)
    (hargs : ∀ a ∈ args, TypeSyntax P a) : TypeSyntax P (Setting.applied t args) := by
  unfold Setting.applied
  split
  · exact ht
  · exact typeSyntax_bare rfl (by simpa [Shape.children] using ⟨ht, hargs⟩)

theorem TypeSyntax.select {t : Tree} (h : TypeSyntax P t) (name : Name) :
    TypeSyntax P (.bare (.select t name)) :=
  typeSyntax_bare rfl (by simpa [Shape.children] using h)

theorem TypeSyntax.memberTree {preTree : Tree} (h : TypeSyntax P preTree) (pre : Ty)
    (s : SymbolId) : TypeSyntax P (W.memberTree pre preTree s) := by
  simp only [Setting.memberTree]
  generalize (if W.isPlainClass (some s) = true then _ else _ : Name) = name
  split
  · exact h.select _
  next ref singleton =>
    split
    · exact (h.child (by simp [singleton, Shape.children])).select _
    · exact h.select _
  · split
    · exact typeSyntax_bare rfl (by simpa [Shape.children] using h)
    · exact h.select _

theorem TypeSyntax.referenceTree {preTree : Tree} {args : List Tree} (h : TypeSyntax P preTree)
    (hargs : ∀ a ∈ args, TypeSyntax P a) (pre : Ty) (s : SymbolId) :
    TypeSyntax P (W.referenceTree pre preTree s args) := by
  have head : TypeSyntax P (.bare (.ident (W.nameOf s).toType)) := typeSyntax_leaf rfl rfl
  unfold Setting.referenceTree
  split
  · dsimp only
    split
    · exact typeSyntax_bare rfl (by simpa [Shape.children] using head)
    · exact typeSyntax_applied head hargs
  · exact typeSyntax_applied (h.memberTree pre s) hargs

theorem TypeSyntax.singletonTree {preTree : Tree} (h : TypeSyntax P preTree) (pre : Ty)
    (s : SymbolId) : TypeSyntax P (W.singletonTree pre preTree s) := by
  have wrap {t : Tree} (ht : TypeSyntax P t) : TypeSyntax P (.bare (.singletonType t)) :=
    typeSyntax_bare rfl (by simpa [Shape.children] using ht)
  unfold Setting.singletonTree
  split
  · exact wrap (typeSyntax_leaf rfl rfl)
  · refine wrap (TypeSyntax.select ?_ _)
    split
    next ref singleton => exact h.child (by simp [singleton, Shape.children])
    · exact h

section Members

variable {render : Ty → Tree}

theorem typeSyntax_resultTree {s : SymbolId}
    (h : ∀ u ∈ W.symbols.found (.declared s), TypeSyntax P (render u)) :
    TypeSyntax P (W.resultTree render s) := by
  unfold Setting.resultTree
  split
  · exact typeSyntax_leaf rfl rfl
  next t info => exact h _ (by simp [SymbolTable.found, info])

theorem typeSyntax_typeMember {n : Nat} {s : SymbolId}
    (h : ∀ p ∈ W.symbols.typeParameters n s, ∀ u ∈ W.symbols.found (.declared p),
      TypeSyntax P (render u)) : TypeSyntax P (W.typeMember render n s) := by
  induction n generalizing s with
  | zero =>
    refine typeSyntax_bare rfl ?_
    simpa [Shape.children] using
      typeSyntax_resultTree (h s (by simp [SymbolTable.typeParameters]))
  | succ n ih =>
    refine typeSyntax_bare rfl fun c hc => ?_
    simp only [Shape.children, List.nil_append, List.mem_append, List.mem_map,
      List.mem_singleton] at hc
    rcases hc with ⟨p, hp, rfl⟩ | rfl
    · refine ih fun q hq => h q ?_
      exact List.mem_cons_of_mem _ (List.mem_flatMap.mpr ⟨p, hp, hq⟩)
    · exact typeSyntax_resultTree (h s (by simp [SymbolTable.typeParameters]))

/-- A value that is declared and not given. -/
theorem typeSyntax_valDef (name : Name) {tpt : Tree} (h : TypeSyntax P tpt) :
    TypeSyntax P (.bare (.valDef Setting.deferred name tpt .empty)) := by
  refine typeSyntax_bare rfl ?_
  simpa [Shape.children, Setting.deferred] using ⟨h, typeSyntax_empty⟩

theorem typeSyntax_methodMember {s : SymbolId}
    (h : ∀ p ∈ s :: ((W.symbols.get s).typeParams.flatMap
        (W.symbols.typeParameters W.symbols.bound) ++ (W.symbols.get s).paramLists.flatten),
      ∀ u ∈ W.symbols.found (.declared p), TypeSyntax P (render u)) :
    TypeSyntax P (W.methodMember render s) := by
  refine typeSyntax_bare rfl fun c hc => ?_
  simp only [Shape.children, Setting.deferred, List.nil_append, List.mem_append, List.mem_map,
    List.mem_flatten, List.mem_cons, List.not_mem_nil, or_false] at hc
  rcases hc with (⟨p, hp, rfl⟩ | ⟨vs, ⟨ps, hps, rfl⟩, hc⟩) | rfl | rfl
  · refine typeSyntax_typeMember fun q hq => h q ?_
    exact List.mem_cons_of_mem _ (List.mem_append_left _ (List.mem_flatMap.mpr ⟨p, hp, hq⟩))
  · obtain ⟨p, hp, rfl⟩ := List.mem_map.mp hc
    refine typeSyntax_valDef _ (typeSyntax_resultTree (h p ?_))
    exact List.mem_cons_of_mem _ (List.mem_append_right _ (List.mem_flatten.mpr ⟨ps, hps, hp⟩))
  · exact typeSyntax_resultTree (h s (by simp))
  · exact typeSyntax_empty

theorem typeSyntax_member {s : SymbolId} {m : Tree} (hm : W.member? render s = some m)
    (h : ∀ p ∈ W.symbols.signature s, ∀ u ∈ W.symbols.found (.declared p),
      TypeSyntax P (render u)) : TypeSyntax P m := by
  unfold SymbolTable.signature at h
  simp only [Setting.member?] at hm
  split at hm
  · simp at hm
  · split at hm
    next method =>
      rw [if_pos method] at h
      split at hm
      next stable =>
        rw [if_pos stable] at h
        cases hm
        exact typeSyntax_valDef _ (typeSyntax_resultTree (h s (by simp)))
      next stable =>
        rw [if_neg stable] at h
        cases hm
        exact typeSyntax_methodMember h
    next method =>
      rw [if_neg method] at h
      split at hm
      · cases hm
        exact typeSyntax_typeMember h
      · simp at hm

theorem typeSyntax_clause {s : SymbolId} {c : Tree} (hc : W.clause? render s = some c)
    (h : ∀ u, W.quantifiable? s = some u → TypeSyntax P (render u)) : TypeSyntax P c := by
  simp only [Setting.clause?] at hc
  split at hc
  next lo hi info =>
    simp only [Setting.quantifiable?, info] at h
    split at hc
    next plain =>
      cases hc
      exact typeSyntax_bare rfl (by simpa [Shape.children] using h _ (if_pos plain))
    next erased =>
      split at hc
      next low =>
        cases hc
        exact typeSyntax_valDef _ (h hi (by rw [if_neg erased, if_pos low]))
      next => simp at hc
  next => simp at hc

end Members

theorem TypeSyntax.nameSingletons {t : Tree} (h : TypeSyntax P t) (ending : String) :
    TypeSyntax P (t.nameSingletons ending) := by
  induction t using Tree.mem_children_induct with
  | node i s ih =>
    obtain ⟨node, below⟩ := typeSyntax_mk.mp h
    obtain ⟨name, renamed⟩ | rebuilt := Tree.nameSingletons_mk ending i s
    · rw [renamed]
      exact typeSyntax_leaf rfl rfl
    · have kind : (s.mapChildren (Tree.nameSingletons ending)).isTypeSyntax = true := by
        rw [Shape.isTypeSyntax_mapChildren fun c => c.isEmpty_nameSingletons ending]
        exact node.kind
      rw [rebuilt]
      refine typeSyntax_mk.mpr ⟨⟨kind, node.attached.imp_right ?_⟩, fun c hc => ?_⟩
      · rintro ⟨u, same, unwritten⟩
        cases same
        exact ⟨u, rfl, unwritten⟩
      · rw [Shape.children_mapChildren] at hc
        obtain ⟨d, hd, rfl⟩ := List.mem_map.mp hc
        exact ih d hd (below d hd)

namespace Setting

/-- One step of writing yields type syntax where the steps below do. The type to be shown is carried
along only if it is all that is written. -/
theorem typeSyntax_writtenWith {deeper : Ty → Ty → Tree} {shown t : Ty}
    (part : ∀ p ∈ W.renderedParts t, TypeSyntax P (W.writtenWith deeper p p))
    (looked : ∀ k ∈ W.rendering.sources t, ∀ u ∈ W.rendering.drawn k, TypeSyntax P (deeper u u))
    (expanded : ∀ s, .expanded s ∈ W.rendering.sources t → ∀ u ∈ W.symbols.expansion? s,
      W.writtenWith deeper shown t = deeper shown u → TypeSyntax P (deeper shown u))
    (unwritten : W.writtenWith deeper shown t = .resolved shown → P shown) :
    TypeSyntax P (W.writtenWith deeper shown t) := by
  have parts (ps : List Ty) (hps : ∀ p ∈ ps, p ∈ W.renderedParts t) :
      ∀ a ∈ W.writtenAllWith deeper ps, TypeSyntax P a := by
    intro a ha
    rw [writtenAllWith_eq_map] at ha
    obtain ⟨p, hp, rfl⟩ := List.mem_map.mp ha
    exact part p (hps p hp)
  cases t with
  | this s =>
    rw [writtenWith]
    split
    · exact typeSyntax_leaf rfl rfl
    · exact typeSyntax_path _ s
  | ref pre s args =>
    simp only [writtenWith] at expanded ⊢
    cases expands : W.symbols.expansion? s with
    | some u =>
      exact expanded s (by simp [rendering, expands]) u (by simp [expands]) (by simp [expands])
    | none =>
      have rendered : W.renderedParts (.ref pre s args) = pre :: args := by
        simp [renderedParts, expands]
      exact (part pre (rendered ▸ List.mem_cons_self ..)).referenceTree
        (parts args fun p hp => rendered ▸ List.mem_cons_of_mem _ hp) pre s
  | single pre s =>
    rw [writtenWith]
    exact (part pre (by simp [renderedParts])).singletonTree pre s
  | bounds lo hi =>
    rw [writtenWith]
    refine typeSyntax_bare rfl fun c hc => ?_
    simp only [Shape.children, List.mem_cons, List.not_mem_nil, or_false] at hc
    rcases hc with rfl | rfl
    · split
      · exact typeSyntax_empty
      next low => exact part lo (by simp [renderedParts, low])
    · split
      · exact typeSyntax_empty
      next high => exact part hi (by simp [renderedParts, high])
  | existential qs u =>
    rw [writtenWith] at unwritten ⊢
    split
    next clauses written =>
      refine typeSyntax_bare rfl fun c hc => ?_
      simp only [Shape.children, List.mem_cons] at hc
      rcases hc with rfl | hc
      · have rendered := W.renderedParts_existential (u := u) written
        exact (part u (rendered ▸ List.mem_singleton_self u)).nameSingletons _
      · obtain ⟨q, hq, clause⟩ := exists_of_mapM_eq_some written hc
        refine typeSyntax_clause clause fun v hv => ?_
        exact looked (.quantified q) (List.mem_map_of_mem hq) v (Option.mem_toList.mpr hv)
    next failed => exact typeSyntax_resolved (unwritten (by simp only [failed]))
  | refined ps ds =>
    rw [writtenWith] at unwritten ⊢
    split
    next members written =>
      refine typeSyntax_bare rfl fun c hc => ?_
      obtain rfl := List.mem_singleton.mp hc
      refine typeSyntax_bare rfl fun c hc => ?_
      simp only [Shape.children, List.mem_append, List.mem_cons] at hc
      rcases hc with hc | rfl | hc
      · exact parts ps (fun p hp => W.renderedParts_refined written ▸ hp) c hc
      · exact typeSyntax_empty
      · obtain ⟨d, hd, member⟩ := exists_of_mapM_eq_some written hc
        have declarable : W.declarable d = true := by
          rw [← W.isSome_member? fun t => deeper t t, member]
          rfl
        exact typeSyntax_member member fun p hp =>
          looked (.declared p) (W.mem_sources_refined hd declarable hp)
    next failed => exact typeSyntax_resolved (unwritten (by simp only [failed]))
  | _ => exact typeSyntax_resolved (unwritten (by simp only [writtenWith]))

theorem typeSyntax_writtenWithin (n : Nat) (shown t : Ty) :
    TypeSyntax (fun _ => True) (W.writtenWithin n shown t) := by
  induction n generalizing shown t with
  | zero => exact typeSyntax_resolved trivial
  | succ n ih =>
    refine W.rendering.parts_induct (motive := fun t => ∀ shown,
      TypeSyntax (fun _ => True) (W.writtenWith (W.writtenWithin n) shown t)) ?_ t shown
    intro t inside shown
    exact typeSyntax_writtenWith (fun p hp => inside p hp p) (fun k hk u hu => ih u u)
      (fun s hs u hu _ => ih shown u) fun _ => trivial

variable (W) in
/-- A type without a written form. -/
def Unwritten (u : Ty) : Prop := W.writtenType u = .resolved u

/-- The types that a written form carries along have none, if writing comes to an end, and writing
comes to them. Along aliases the type to be shown stays the same, and with it what is written for
it. -/
theorem typeSyntax_writtenAs {start t : Ty} (ends : W.rendering.Ends t) :
    ∀ shown, W.rendering.Comes start t → W.rendering.Comes start shown →
      W.writtenType shown = W.writtenAs shown t →
        TypeSyntax (fun u => W.rendering.Comes start u ∧ W.Unwritten u) (W.writtenAs shown t) := by
  refine Descent.Ends.induct (motive := fun t => ∀ shown, W.rendering.Comes start t →
    W.rendering.Comes start shown → W.writtenType shown = W.writtenAs shown t →
      TypeSyntax (fun u => W.rendering.Comes start u ∧ W.Unwritten u) (W.writtenAs shown t)) ?_ ends
  clear ends t
  intro t ends inside looked shown comes comesShown same
  rw [W.writtenAs_unfold ends] at same ⊢
  refine typeSyntax_writtenWith (fun p hp => ?_) (fun k hk u hu => ?_)
    (fun s hs u hu expands => ?_) fun unwritten => ⟨comesShown, same.trans unwritten⟩
  · have comesPart := comes.tail (.inl hp)
    rw [← W.writtenAs_unfold (ends.of_visits (.single hp))]
    exact inside p hp p comesPart comesPart rfl
  · exact looked k hk u hu u (comes.drawn hk hu) (comes.drawn hk hu) rfl
  · have drawn : u ∈ W.rendering.drawn (.expanded s) := Option.mem_toList.mpr hu
    exact looked (.expanded s) hs u drawn shown (comes.drawn hs drawn) comesShown
      (same.trans expands)

theorem typeSyntax_writtenType {t : Ty} (ends : W.rendering.Ends t) :
    TypeSyntax (fun u => W.rendering.Comes t u ∧ W.Unwritten u) (W.writtenType t) :=
  typeSyntax_writtenAs ends t .refl .refl rfl

end Setting

end TreeRepair
