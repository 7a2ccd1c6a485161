import TreeRepair.Cleanup.SelfAccess
import TreeRepair.Proofs.Surface

namespace TreeRepair

/-- The names that the body of a class or module declares. -/
def Shape.declarations : Shape Tree → List Name
  | .template _ _ body => body.filterMap Tree.declaredName?
  | _ => []

/-- The name that a node introduces, whatever is below it. -/
def Shape.introducedName? {α : Type} : Shape α → Option Name
  | .bind n _ | .valDef _ n _ _ | .defDef _ n _ _ _ _ | .typeDef _ n _ _ | .classDef _ n _ _
  | .moduleDef _ n _ => some n
  | _ => none

/-- The number of children in front of the body of a class or module. -/
def Shape.bodyStart {α : Type} : Shape α → Nat
  | .template parents _ _ => parents.length + 1
  | s => s.children.length

theorem Shape.bodyStart_outline {α : Type} (s : Shape α) : s.outline.bodyStart = s.bodyStart := by
  cases s with
  | template parents self body => simp [outline, bodyStart]
  | _ => exact length_children_outline _

theorem Shape.declarations_eq (s : Shape Tree) :
    s.declarations = (s.children.drop s.bodyStart).filterMap Tree.declaredName? := by
  cases s with
  | template parents self body =>
    have split : parents ++ self :: body = (parents ++ [self]) ++ body := by simp
    rw [declarations, children, bodyStart, split, List.drop_left' (by simp)]
  | _ => simp [declarations, bodyStart]

/-- The name of a class or module, as a type. -/
def Shape.implName? {α : Type} : Shape α → Option Name
  | .classDef _ name _ _ | .moduleDef _ name _ => some name.toType
  | _ => none

namespace Tree

/-- A class or module as those inside it see it, by the names it declares itself. -/
def frame? (t : Tree) : Option Frame :=
  match t.shape with
  | .classDef _ name _ impl | .moduleDef _ name impl =>
    some ⟨name.toType, impl.shape.declarations⟩
  | _ => none

/-- A node of a tree and the classes and modules around it, innermost first. -/
inductive At (t : Tree) : List Frame → Tree → Prop
  | root : At t [] t
  | child {frames : List Frame} {n c : Tree} (above : At t frames n) (mem : c ∈ n.children) :
      At t (n.frame?.toList ++ frames) c

/-- Every member selected from a self reference is declared by the innermost class or module of
that name around it, if there is one, and no anonymous class is referred to. -/
def SelfAccessesDeclared (C : Conventions) (t : Tree) : Prop :=
  ∀ frames n, t.At frames n → ∀ j this selected, n.shape = .select ⟨j, .this this⟩ selected →
    Text.startsWith this.text C.anonymousBeginning = false ∧
      ∀ f, (frames.find? fun f => f.name = this) = some f → selected ∈ f.members

theorem at_mk {i : Info} {s : Shape Tree} {frames : List Frame} {n : Tree} :
    (⟨i, s⟩ : Tree).At frames n ↔ (frames = [] ∧ n = ⟨i, s⟩) ∨ ∃ c ∈ s.children,
      ∃ inner, c.At inner n ∧ frames = inner ++ (⟨i, s⟩ : Tree).frame?.toList := by
  constructor
  · intro h
    induction h with
    | root => exact .inl ⟨rfl, rfl⟩
    | child above mem ih =>
      obtain ⟨rfl, rfl⟩ | ⟨c, hc, inner, below, rfl⟩ := ih
      · exact .inr ⟨_, mem, [], .root, by simp⟩
      · exact .inr ⟨c, hc, _, below.child mem, by simp⟩
  · rintro (⟨rfl, rfl⟩ | ⟨c, hc, inner, h, rfl⟩)
    · exact .root
    · induction h with
      | root => simpa using At.root.child hc
      | child above mem ih => simpa using ih.child mem

theorem At.mem_preorder {t n : Tree} {frames : List Frame} (h : t.At frames n) :
    n ∈ t.preorder := by
  induction h with
  | root => exact t.self_mem_preorder
  | child above mem ih =>
    exact mem_preorder_trans ih (mem_preorder_of_mem_children mem (self_mem_preorder _))

theorem declaredName?_eq_of_same {t u : Tree} (h : t.same u = true) :
    t.declaredName? = u.declaredName? := by
  have outline (s : Shape Tree) (i : Info) :
      (⟨i, s⟩ : Tree).declaredName? = s.outline.introducedName? := by
    cases s <;> rfl
  obtain ⟨i, s⟩ := t
  obtain ⟨j, v⟩ := u
  rw [outline, outline, (same_mk.mp h).1]

theorem declarations_eq_of_same {t u : Tree} (h : t.same u = true) :
    t.shape.declarations = u.shape.declarations := by
  have names {l k : List Tree} (hlk : List.Forall₂ (fun c d => c.same d = true) l k) :
      l.filterMap declaredName? = k.filterMap declaredName? := by
    induction hlk with
    | nil => rfl
    | cons hcd _ ih => simp only [List.filterMap_cons, declaredName?_eq_of_same hcd, ih]
  have start : t.shape.bodyStart = u.shape.bodyStart := by
    rw [← Shape.bodyStart_outline, outline_eq_of_same h, Shape.bodyStart_outline]
  rw [Shape.declarations_eq, Shape.declarations_eq, start]
  exact names (List.forall₂_drop _ (forall₂_children_of_same h))

theorem frame?_mk (i : Info) (s : Shape Tree) : (⟨i, s⟩ : Tree).frame? =
    s.outline.implName?.map fun name =>
      ⟨name, (s.children.getLast?.map fun c => c.shape.declarations).getD []⟩ := by
  cases s <;> simp [frame?, Shape.outline, Shape.implName?, Shape.children]

theorem frame?_eq_of_same {t u : Tree} (h : t.same u = true) : t.frame? = u.frame? := by
  have outline := outline_eq_of_same h
  have last := getLast?_children_of_same h fun c _ d hcd => declarations_eq_of_same (t := c) hcd
  obtain ⟨i, s⟩ := t
  obtain ⟨j, v⟩ := u
  simp only [Tree.children] at outline last
  rw [frame?_mk, frame?_mk, outline, last]

theorem At.exists_of_same {t u n : Tree} {frames : List Frame} (h : t.same u = true)
    (hn : u.At frames n) : ∃ m, t.At frames m ∧ m.same n = true := by
  induction hn with
  | root => exact ⟨t, .root, h⟩
  | child above mem ih =>
    obtain ⟨m, hm, hmn⟩ := ih
    obtain ⟨k, hk, rfl⟩ := List.mem_iff_getElem.mp mem
    have below := List.forall₂_iff_get.mp (forall₂_children_of_same hmn)
    have hk' : k < m.children.length := below.1 ▸ hk
    rw [← frame?_eq_of_same hmn]
    exact ⟨m.children[k], .child hm (List.getElem_mem hk'), below.2 k hk' hk⟩

theorem exists_selfAccess_of_same {t : Tree} {i j : Info} {this selected : Name}
    (h : t.same ⟨i, .select ⟨j, .this this⟩ selected⟩ = true) :
    ∃ k, t.shape = .select ⟨k, .this this⟩ selected := by
  obtain ⟨l, s⟩ := t
  obtain ⟨outline, below⟩ := same_mk.mp h
  cases s <;> simp [Shape.outline] at outline
  next q name =>
    subst outline
    simp [Shape.subtrees, Shape.children, Shape.written] at below
    obtain ⟨k, v⟩ := q
    have head := outline_eq_of_same below
    cases v <;> simp [Shape.outline] at head
    next qualifier => exact ⟨k, by rw [head]⟩

/-- Self accesses that are declared stay so in a tree that is the same. -/
theorem SelfAccessesDeclared.of_same {C : Conventions} {t u : Tree}
    (h : t.SelfAccessesDeclared C) (same : t.same u = true) : u.SelfAccessesDeclared C := by
  intro frames n hn j this selected hs
  obtain ⟨m, hm, hmn⟩ := At.exists_of_same same hn
  obtain ⟨i, s⟩ := n
  cases hs
  obtain ⟨k, hk⟩ := exists_selfAccess_of_same hmn
  exact h frames m hm k this selected hk

end Tree

namespace Setting

variable (W : Setting)

theorem fixSelfAccess_other (frames : List Frame) {i : Info} {s : Shape Tree}
    (select : ∀ j this selected, s ≠ .select ⟨j, .this this⟩ selected)
    (frame : (⟨i, s⟩ : Tree).frame? = none) :
    W.fixSelfAccess frames ⟨i, s⟩ = ⟨i, s.mapChildren (W.fixSelfAccess frames)⟩ := by
  cases s with
  | classDef mods name tparams impl => simp [Tree.frame?] at frame
  | moduleDef mods name impl => simp [Tree.frame?] at frame
  | select q name =>
    obtain ⟨j, v⟩ := q
    cases v with
    | this this => exact absurd rfl (select j this name)
    | _ => simp [fixSelfAccess]
  | _ => simp [fixSelfAccess]

/-- Without symbols nothing is inherited, and a class or module has the members it declares. -/
theorem declaredNames_surface {impl : Tree} (h : impl.Surface) :
    W.declaredNames impl = impl.shape.declarations := by
  obtain ⟨i, s⟩ := impl
  obtain ⟨node, below⟩ := Tree.surface_mk.mp h
  cases s with
  | template parents self body =>
    have inherited (p : Tree) (hp : p ∈ parents) : p.symbol = none :=
      (below p (by simp [Shape.children, hp]) p p.self_mem_preorder).bare.symbol
    refine (congrArg (· ++ _) (List.flatMap_eq_nil_iff.mpr fun p hp => ?_)).trans
      (List.nil_append _)
    simp [inherited p hp]
  | _ => rfl

theorem fixSelfAccess_frame (frames : List Frame) {i : Info} {s : Shape Tree} {f : Frame}
    (h : (⟨i, s⟩ : Tree).Surface) (frame : (⟨i, s⟩ : Tree).frame? = some f) :
    W.fixSelfAccess frames ⟨i, s⟩ = ⟨i, s.mapChildren (W.fixSelfAccess (f :: frames))⟩ := by
  obtain ⟨node, below⟩ := Tree.surface_mk.mp h
  cases s <;> simp [Tree.frame?] at frame
  next mods name tparams impl =>
    have names := W.declaredNames_surface (below impl (by simp [Shape.children]))
    simp [fixSelfAccess, names, frame]
  next mods name impl =>
    have names := W.declaredNames_surface (below impl (by simp [Shape.children]))
    simp [fixSelfAccess, names, frame]

theorem selfAccess_declared {frames : List Frame} {i j : Info} {this selected : Name}
    (symbol : j.symbol = none)
    (named : Text.startsWith this.text W.conventions.anonymousBeginning = false)
    (declared : ∀ f, (frames.find? fun f => f.name = this) = some f → selected ∈ f.members) :
    W.selfAccess frames i j this selected = ⟨i, .select ⟨j, .this this⟩ selected⟩ := by
  unfold selfAccess selfMember?
  cases found : frames.find? fun f => f.name = this with
  | none => simp [named, symbol]
  | some f => simp [named, declared f found]

/-- Self accesses to declared members stay, as do those out of all classes and modules. -/
theorem fixSelfAccess_surface {t : Tree} (h : t.Surface)
    (declared : t.SelfAccessesDeclared W.conventions) : W.fixSelfAccess [] t = t := by
  suffices everywhere : ∀ n frames, t.At frames n → W.fixSelfAccess frames n = n from
    everywhere t [] .root
  intro n
  induction n using Tree.mem_children_induct with
  | node i s ih =>
    intro frames hn
    have surface : (⟨i, s⟩ : Tree).Surface := fun m hm => h m (Tree.mem_preorder_trans hn.mem_preorder hm)
    cases frame : (⟨i, s⟩ : Tree).frame? with
    | some f =>
      have below (c : Tree) (hc : c ∈ s.children) : W.fixSelfAccess (f :: frames) c = c := by
        have place := Tree.At.child hn hc
        rw [frame] at place
        exact ih c hc (f :: frames) place
      rw [W.fixSelfAccess_frame frames surface frame, Shape.mapChildren_eq_self below]
    | none =>
      have below (c : Tree) (hc : c ∈ s.children) : W.fixSelfAccess frames c = c := by
        have place := Tree.At.child hn hc
        rw [frame] at place
        exact ih c hc frames place
      by_cases access : ∃ j this selected, s = .select ⟨j, .this this⟩ selected
      · obtain ⟨j, this, selected, rfl⟩ := access
        obtain ⟨named, members⟩ := declared frames _ hn j this selected rfl
        have self := surface ⟨j, .this this⟩
          (Tree.mem_preorder_of_mem_children (by simp [Tree.children, Shape.children]) (Tree.self_mem_preorder _))
        rw [fixSelfAccess, W.selfAccess_declared self.bare.symbol named members]
      · rw [W.fixSelfAccess_other frames (fun j this selected hs => access ⟨j, this, selected, hs⟩) frame,
          Shape.mapChildren_eq_self below]

end Setting

end TreeRepair
