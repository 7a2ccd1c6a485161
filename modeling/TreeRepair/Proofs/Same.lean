import Mathlib.Data.List.Forall2
import TreeRepair.Proofs.Occurrence

namespace TreeRepair

namespace Shape

variable {α β : Type}

theorem isSome_written_outline (s : Shape α) : s.outline.written.isSome = s.written.isSome := by
  cases s <;> simp [outline, written]

theorem length_children_eq {s : Shape α} {u : Shape β} (h : s.outline = u.outline) :
    s.children.length = u.children.length := by
  rw [← length_children_outline s, h, length_children_outline]

theorem isSome_written_eq {s : Shape α} {u : Shape β} (h : s.outline = u.outline) :
    s.written.isSome = u.written.isSome := by
  rw [← isSome_written_outline s, h, isSome_written_outline]

theorem length_subtrees_eq {s : Shape α} {u : Shape β} (h : s.outline = u.outline) :
    s.subtrees.length = u.subtrees.length := by
  have hw := isSome_written_eq h
  cases hs : s.written <;> cases hu : u.written <;>
    simp_all [subtrees, length_children_eq h]

@[simp] theorem outline_mapChildren (f : α → α) (s : Shape α) :
    (s.mapChildren f).outline = s.outline := by
  cases s <;> simp [mapChildren, outline, Function.comp_def]

@[simp] theorem written_mapChildren (f : α → α) (s : Shape α) :
    (s.mapChildren f).written = s.written := by
  cases s <;> rfl

theorem mapChildren_eq_self {s : Shape α} {f : α → α}
    (h : ∀ c ∈ s.children, f c = c) : s.mapChildren f = s := by
  rw [mapChildren_congr h]
  cases s <;> simp [mapChildren]

theorem mapChildren_mapChildren (f g : α → α) (s : Shape α) :
    (s.mapChildren f).mapChildren g = s.mapChildren fun c => g (f c) := by
  cases s <;> simp [mapChildren, Function.comp_def]

end Shape

theorem Modifiers.eq_of_append {m n : Modifiers Tree} {l k : List Tree}
    (h : m.flags = n.flags ∧ m.within = n.within ∧ m.annotations.length = n.annotations.length)
    (lists : m.annotations ++ l = n.annotations ++ k) : m = n ∧ l = k := by
  obtain ⟨annotations, rest⟩ := List.append_inj lists h.2.2
  obtain ⟨flags, within, _⟩ := m
  obtain ⟨flags', within', _⟩ := n
  simp_all

namespace Shape

/-- Two nodes that differ in nothing but their children. -/
def Alike (s u : Shape Tree) : Prop :=
  s.mapChildren (fun _ => .empty) = u.mapChildren fun _ => .empty

variable {s u : Shape Tree}

@[simp]
theorem alike_mapChildren_left {f : Tree → Tree} : (s.mapChildren f).Alike u ↔ s.Alike u := by
  simp only [Alike, mapChildren_mapChildren]

@[simp]
theorem alike_mapChildren_right {f : Tree → Tree} : s.Alike (u.mapChildren f) ↔ s.Alike u := by
  simp only [Alike, mapChildren_mapChildren]

theorem Alike.symm (h : s.Alike u) : u.Alike s := Eq.symm h

theorem Alike.trans {v : Shape Tree} (h : s.Alike u) (k : u.Alike v) : s.Alike v := Eq.trans h k

theorem Alike.outline_eq (h : s.Alike u) : s.outline = u.outline := by
  have blank := congrArg outline h
  rwa [outline_mapChildren, outline_mapChildren] at blank

theorem Alike.eq_of_children (h : s.Alike u) (children : s.children = u.children) : s = u := by
  unfold Alike at h
  cases s <;> cases u <;>
    simp only [Shape.mapChildren, Shape.children, reduceCtorEq, List.append_assoc] at h children ⊢
  case template.template =>
    simp only [Shape.template.injEq] at h ⊢
    have parents := congrArg List.length h.1
    obtain ⟨rfl, below⟩ := List.append_inj children (by simpa using parents)
    simpa using below
  case valDef.valDef | moduleDef.moduleDef =>
    simp at h
    obtain ⟨rfl, below⟩ := Modifiers.eq_of_append h.1 children
    simp_all
  case typeDef.typeDef | classDef.classDef =>
    simp at h
    obtain ⟨rfl, below⟩ := Modifiers.eq_of_append h.1 children
    obtain ⟨rfl, last⟩ := List.append_inj below h.2.2
    simp_all
  case defDef.defDef =>
    simp only [Shape.defDef.injEq] at h ⊢
    obtain ⟨mods, name, tparams, vparamss, -⟩ := h
    have lengths := congrArg (List.map List.length) vparamss
    simp only [List.map_map, Function.comp_def, List.length_map] at lengths
    obtain ⟨rfl, below⟩ := Modifiers.eq_of_append (by simpa using mods) children
    obtain ⟨rfl, values⟩ := List.append_inj below (by simpa using congrArg List.length tparams)
    obtain ⟨flat, last⟩ := List.append_inj values (by simp [List.length_flatten, lengths])
    have := List.eq_iff_flatten_eq.mpr ⟨flat, lengths⟩
    simp_all
  all_goals simp_all

theorem exists_append_eq {xs : List α} {n m : Nat} (h : xs.length = n + m) :
    ∃ ys zs, xs = ys ++ zs ∧ ys.length = n ∧ zs.length = m :=
  ⟨xs.take n, xs.drop n, by simp, by simp [h], by simp [h]⟩

theorem exists_flatten_eq (vss : List (List α)) {xs : List β}
    (h : xs.length = vss.flatten.length) :
    ∃ uss : List (List β), uss.flatten = xs ∧ uss.map List.length = vss.map List.length := by
  induction vss generalizing xs with
  | nil => exact ⟨[], by simp_all⟩
  | cons vs vss ih =>
    rw [List.flatten_cons, List.length_append] at h
    obtain ⟨ys, zs, rfl, first, rest⟩ := exists_append_eq h
    obtain ⟨uss, rfl, lengths⟩ := ih rest
    exact ⟨ys :: uss, rfl, by simp [first, lengths]⟩

/-- A node can be given any other children, as many as it has. -/
theorem exists_alike_children (s : Shape Tree) {cs : List Tree}
    (h : cs.length = s.children.length) : ∃ u : Shape Tree, u.Alike s ∧ u.children = cs := by
  have blank {as ds : List Tree} (h : as.length = ds.length) :
      as.map (fun _ => Tree.empty) = ds.map fun _ => .empty := by simp [h]
  unfold Alike
  cases s with
  | empty | ident | this | literal | typeTree =>
    obtain rfl : cs = [] := List.length_eq_zero_iff.mp h
    exact ⟨_, rfl, rfl⟩
  | select _ n | typeSelect _ n | bind n | new | singletonType | compoundType =>
    obtain ⟨a, rfl⟩ := List.length_eq_one_iff.mp h
    first
      | exact ⟨.select a n, rfl, rfl⟩
      | exact ⟨.typeSelect a n, rfl, rfl⟩
      | exact ⟨.bind n a, rfl, rfl⟩
      | exact ⟨.new a, rfl, rfl⟩
      | exact ⟨.singletonType a, rfl, rfl⟩
      | exact ⟨.compoundType a, rfl, rfl⟩
  | typed | assign | annotated | typeBounds =>
    obtain ⟨a, b, rfl⟩ := List.length_eq_two.mp h
    first
      | exact ⟨.typed a b, rfl, rfl⟩
      | exact ⟨.assign a b, rfl, rfl⟩
      | exact ⟨.annotated a b, rfl, rfl⟩
      | exact ⟨.typeBounds a b, rfl, rfl⟩
  | cond | caseDef =>
    obtain ⟨a, b, c, rfl⟩ := List.length_eq_three.mp h
    first
      | exact ⟨.cond a b c, rfl, rfl⟩
      | exact ⟨.caseDef a b c, rfl, rfl⟩
  | apply _ ds | typeApply _ ds | unapply _ ds | matching _ ds | packageDef _ ds | appliedType _ ds
  | existentialType _ ds =>
    obtain ⟨a, as, rfl⟩ := List.exists_cons_of_length_eq_add_one h
    have same : as.map (fun _ => Tree.empty) = ds.map fun _ => .empty := blank (Nat.succ.inj h)
    first
      | exact ⟨.apply a as, congrArg (Shape.apply Tree.empty) same, rfl⟩
      | exact ⟨.typeApply a as, congrArg (Shape.typeApply Tree.empty) same, rfl⟩
      | exact ⟨.unapply a as, congrArg (Shape.unapply Tree.empty) same, rfl⟩
      | exact ⟨.matching a as, congrArg (Shape.matching Tree.empty) same, rfl⟩
      | exact ⟨.packageDef a as, congrArg (Shape.packageDef Tree.empty) same, rfl⟩
      | exact ⟨.appliedType a as, congrArg (Shape.appliedType Tree.empty) same, rfl⟩
      | exact ⟨.existentialType a as, congrArg (Shape.existentialType Tree.empty) same, rfl⟩
  | function | block =>
    obtain ⟨as, _, rfl, first, rest⟩ := exists_append_eq (h.trans List.length_append)
    obtain ⟨b, rfl⟩ := List.length_eq_one_iff.mp rest
    first
      | exact ⟨.function as b, congrArg (Shape.function · Tree.empty) (blank first), rfl⟩
      | exact ⟨.block as b, congrArg (Shape.block · Tree.empty) (blank first), rfl⟩
  | template =>
    obtain ⟨as, _, rfl, first, rest⟩ := exists_append_eq (h.trans List.length_append)
    obtain ⟨b, bs, rfl⟩ := List.exists_cons_of_length_eq_add_one rest
    exact ⟨.template as b bs, by simp_all [mapChildren], rfl⟩
  | valDef mods n =>
    obtain ⟨as, _, rfl, first, rest⟩ := exists_append_eq (h.trans List.length_append)
    obtain ⟨a, b, rfl⟩ := List.length_eq_two.mp rest
    exact ⟨.valDef { mods with annotations := as } n a b, by simp [mapChildren, first], rfl⟩
  | moduleDef mods n =>
    obtain ⟨as, _, rfl, first, rest⟩ := exists_append_eq (h.trans List.length_append)
    obtain ⟨a, rfl⟩ := List.length_eq_one_iff.mp rest
    exact ⟨.moduleDef { mods with annotations := as } n a, by simp [mapChildren, first], rfl⟩
  | typeDef mods n | classDef mods n =>
    obtain ⟨_, _, rfl, first, rest⟩ := exists_append_eq (h.trans List.length_append)
    obtain ⟨as, ts, rfl, annotations, tparams⟩ := exists_append_eq (first.trans List.length_append)
    obtain ⟨a, rfl⟩ := List.length_eq_one_iff.mp rest
    have same := congrArg (fun l => ({ mods with annotations := l } : Modifiers Tree))
      (blank annotations)
    first
      | exact ⟨.typeDef { mods with annotations := as } n ts a,
          congrArg₂ (Shape.typeDef · n · Tree.empty) same (blank tparams), rfl⟩
      | exact ⟨.classDef { mods with annotations := as } n ts a,
          congrArg₂ (Shape.classDef · n · Tree.empty) same (blank tparams), rfl⟩
  | defDef mods n _ vparamss =>
    obtain ⟨_, _, rfl, first, rest⟩ := exists_append_eq (h.trans List.length_append)
    obtain ⟨_, vs, rfl, heads, values⟩ := exists_append_eq (first.trans List.length_append)
    obtain ⟨as, ts, rfl, annotations, tparams⟩ := exists_append_eq (heads.trans List.length_append)
    obtain ⟨vss, rfl, lengths⟩ := exists_flatten_eq vparamss values
    obtain ⟨a, b, rfl⟩ := List.length_eq_two.mp rest
    have blanks (xss : List (List Tree)) : xss.map (fun xs => xs.map fun _ => Tree.empty) =
        (xss.map List.length).map fun k => List.replicate k Tree.empty := by simp
    refine ⟨.defDef { mods with annotations := as } n ts vss a b, ?_, rfl⟩
    simp only [mapChildren, blanks, lengths]
    simp [annotations, tparams]

end Shape

/-- Entries that are related one by one, together with where they come from. -/
theorem forall₂_with_mem {α β : Type} {r : α → β → Prop} {l : List α} {k : List β}
    (h : List.Forall₂ r l k) : List.Forall₂ (fun a b => a ∈ l ∧ r a b) l k :=
  (List.forall₂_and_left _ _).mpr ⟨fun _ ha => ha, h⟩

namespace Tree

/-- Two nodes are the same if they say the same apart from their subtrees, and these are the
same one by one. -/
theorem same_mk {i j : Info} {s u : Shape Tree} :
    (⟨i, s⟩ : Tree).same ⟨j, u⟩ = true ↔
      s.outline = u.outline ∧ List.Forall₂ (fun c d => c.same d = true) s.subtrees u.subtrees := by
  have zip (l : List Tree) (k : List Tree) :
      ((l.attach.zip k).all fun p => p.1.1.same p.2) = (l.zip k).all fun p => p.1.same p.2 := by
    conv_rhs => rw [← List.attach_map_subtype_val l]
    rw [List.zip_map_left, List.all_map]
    rfl
  have unfolded : (⟨i, s⟩ : Tree).same ⟨j, u⟩ = (s.outline == u.outline &&
      (s.subtrees.attach.zip u.subtrees).all fun p => p.1.1.same p.2) := by
    rw [same]
  rw [unfolded, zip, Bool.and_eq_true, beq_iff_eq]
  refine and_congr_right fun h => ?_
  rw [List.forall₂_iff_zip]
  simp [Shape.length_subtrees_eq h, List.all_eq_true]

theorem outline_eq_of_same {t u : Tree} (h : t.same u = true) :
    t.shape.outline = u.shape.outline := by
  obtain ⟨i, s⟩ := t
  obtain ⟨j, v⟩ := u
  exact (same_mk.mp h).1

theorem same_refl (t : Tree) : t.same t = true := by
  induction t using induct with
  | node i s ih => exact same_mk.mpr ⟨rfl, List.forall₂_same.mpr ih⟩

theorem same_symm {t u : Tree} (h : t.same u = true) : u.same t = true := by
  induction t using induct generalizing u with
  | node i s ih =>
    obtain ⟨j, v⟩ := u
    obtain ⟨outline, below⟩ := same_mk.mp h
    refine same_mk.mpr ⟨outline.symm, ?_⟩
    exact ((forall₂_with_mem below).imp fun c d hcd => ih c hcd.1 hcd.2).flip

theorem same_trans {t u v : Tree} (h : t.same u = true) (k : u.same v = true) :
    t.same v = true := by
  induction t using induct generalizing u v with
  | node i s ih =>
    obtain ⟨_, su⟩ := u
    obtain ⟨_, sv⟩ := v
    obtain ⟨houtline, hbelow⟩ := same_mk.mp h
    obtain ⟨koutline, kbelow⟩ := same_mk.mp k
    refine same_mk.mpr ⟨houtline.trans koutline, ?_⟩
    rw [List.forall₂_iff_get] at hbelow kbelow ⊢
    refine ⟨hbelow.1.trans kbelow.1, fun n hn hn' => ?_⟩
    have hm : n < su.subtrees.length := hbelow.1 ▸ hn
    exact ih _ (List.get_mem _ _) (hbelow.2 n hn hm) (kbelow.2 n hm hn')

theorem same_congr {t t' u u' : Tree} (h : t.same t' = true) (k : u.same u' = true) :
    t.same u = t'.same u' := by
  rw [Bool.eq_iff_iff]
  exact ⟨fun same => same_trans (same_symm h) (same_trans same k),
    fun same => same_trans h (same_trans same (same_symm k))⟩

theorem same_comm (t u : Tree) : t.same u = u.same t :=
  Bool.eq_iff_iff.mpr ⟨same_symm, same_symm⟩

theorem forall₂_children_of_same {t u : Tree} (h : t.same u = true) :
    List.Forall₂ (fun c d => c.same d = true) t.children u.children := by
  obtain ⟨i, s⟩ := t
  obtain ⟨j, v⟩ := u
  obtain ⟨outline, below⟩ := same_mk.mp h
  have taken := List.forall₂_take s.children.length below
  have length := Shape.length_children_eq outline
  simpa [Shape.subtrees, length, Tree.children] using taken

/-- A function that keeps subtrees the same keeps a node the same if it is applied to all its
children. -/
theorem same_mapChildren {i j k l : Info} {s v : Shape Tree} {f : Tree → Tree}
    (h : (⟨i, s⟩ : Tree).same ⟨j, v⟩ = true)
    (hf : ∀ c ∈ s.children, ∀ d, c.same d = true → (f c).same (f d) = true) :
    (⟨k, s.mapChildren f⟩ : Tree).same ⟨l, v.mapChildren f⟩ = true := by
  obtain ⟨outline, below⟩ := same_mk.mp h
  have children := forall₂_children_of_same h
  have written := List.forall₂_drop s.children.length below
  have length := Shape.length_children_eq outline
  rw [Shape.subtrees, List.drop_left, Shape.subtrees, length, List.drop_left] at written
  refine same_mk.mpr ⟨by simpa using outline, ?_⟩
  simp only [Shape.subtrees, Shape.children_mapChildren, Shape.written_mapChildren]
  refine List.rel_append ?_ written
  rw [List.forall₂_map_left_iff, List.forall₂_map_right_iff]
  exact (forall₂_with_mem children).imp fun c d hcd => hf c hcd.1 d hcd.2

/-- Trees that are the same are walked through alike. -/
theorem forall₂_preorder_of_same {t u : Tree} (h : t.same u = true) :
    List.Forall₂ (fun n m => n.same m = true) t.preorder u.preorder := by
  induction t using mem_children_induct generalizing u with
  | node i s ih =>
    have children := forall₂_with_mem (forall₂_children_of_same h)
    rw [preorder_eq, preorder_eq u]
    exact .cons h (List.rel_flatMap children fun c d hcd => ih c hcd.1 hcd.2)

/-- Every node of a tree has its counterpart in a tree that is the same. -/
theorem exists_same_mem_preorder {t u n : Tree} (h : t.same u = true) (hn : n ∈ u.preorder) :
    ∃ m ∈ t.preorder, m.same n = true := by
  obtain ⟨length, below⟩ := List.forall₂_iff_get.mp (forall₂_preorder_of_same h)
  obtain ⟨k, hk, rfl⟩ := List.mem_iff_getElem.mp hn
  have hk' : k < t.preorder.length := Nat.lt_of_lt_of_eq hk length.symm
  exact ⟨_, List.getElem_mem hk', below k hk' hk⟩

theorem isEmpty_eq_of_same {t u : Tree} (h : t.same u = true) : t.isEmpty = u.isEmpty := by
  have head (s : Shape Tree) (i : Info) :
      (⟨i, s⟩ : Tree).isEmpty = true ↔ s.outline = .empty := by
    cases s <;> simp [isEmpty, Shape.outline]
  obtain ⟨i, s⟩ := t
  obtain ⟨j, v⟩ := u
  rw [Bool.eq_iff_iff, head, head, (same_mk.mp h).1]

end Tree

/-- Whether a node stands for a type, if that does not depend on what is below it. -/
def Shape.typeHead? {α : Type} : Shape α → Option Bool
  | .ident n | .select _ n => some n.isType
  | .annotated _ _ => none
  | .typeTree _ | .singletonType _ | .typeSelect _ _ | .appliedType _ _ | .typeBounds _ _
  | .existentialType _ _ | .compoundType _ => some true
  | _ => some false

theorem Shape.typeHead?_outline {α : Type} (s : Shape α) : s.outline.typeHead? = s.typeHead? := by
  cases s <;> rfl

namespace Tree

theorem isType_mk (i : Info) (s : Shape Tree) :
    (⟨i, s⟩ : Tree).isType =
      s.typeHead?.getD ((s.children.getLast?.map isType).getD false) := by
  cases s <;> simp [isType, Shape.typeHead?, Shape.children]

/-- The last children of trees that are the same agree wherever trees that are the same agree. -/
theorem getLast?_children_of_same {β : Type} {t u : Tree} {f : Tree → β} (h : t.same u = true)
    (hf : ∀ c ∈ t.children, ∀ d, c.same d = true → f c = f d) :
    t.children.getLast?.map f = u.children.getLast?.map f := by
  have below := List.forall₂_reverse_iff.mpr (forall₂_children_of_same h)
  rw [List.getLast?_eq_head?_reverse, List.getLast?_eq_head?_reverse]
  cases ht : t.children.reverse with
  | nil => simp_all
  | cons c rest =>
    rw [ht] at below
    obtain ⟨d, rest', hcd, _, hu⟩ := List.forall₂_cons_left_iff.mp below
    have hc : c ∈ t.children := List.mem_reverse.mp (ht ▸ List.mem_cons_self)
    simp [hu, hf c hc d hcd]

theorem isType_eq_of_same {t u : Tree} (h : t.same u = true) : t.isType = u.isType := by
  induction t using mem_children_induct generalizing u with
  | node i s ih =>
    obtain ⟨j, v⟩ := u
    have head : s.typeHead? = v.typeHead? := by
      rw [← s.typeHead?_outline, (same_mk.mp h).1, v.typeHead?_outline]
    -- what an annotation stands for is decided by its last child
    have last := getLast?_children_of_same h fun c hc d hcd => ih c hc hcd
    simp only [Tree.children] at last
    rw [isType_mk, isType_mk, head, last]

end Tree

end TreeRepair
