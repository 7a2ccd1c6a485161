import TreeRepair.Proofs.Surroundings

namespace TreeRepair

/-- A member that is selected from a self reference. -/
def Shape.IsSelfAccess (s : Shape Tree) : Prop :=
  ∃ j this selected, s = .select ⟨j, .this this⟩ selected

/-- The class of a module is neither a package nor the class of one. -/
theorem Symbol.isModuleClass_and_not (s : Symbol) :
    (s.isModuleClass && !s.isPackage && !s.isPackageClass) = s.isModuleClass := by
  simp only [isModuleClass, isPackage, isPackageClass]
  cases s.kind <;> rfl

/-- A node around a place: the place of the node itself, the node, and the number of the child in
which the other place is. -/
structure Ancestor where
  place : List Nat
  node : Tree
  child : Nat

namespace Tree

/-- The nodes around the place to which a way leads, innermost first. -/
def ancestors : Tree → List Nat → List Ancestor
  | _, [] => []
  | t, k :: p =>
    match t.children[k]? with
    | some c => (c.ancestors p).map (fun a => { a with place := k :: a.place }) ++ [⟨[], t, k⟩]
    | none => []

theorem at?_of_mem_ancestors {t : Tree} {p : List Nat} {a : Ancestor} (h : a ∈ t.ancestors p) :
    t.at? a.place = some a.node ∧ ∃ r, p = a.place ++ a.child :: r := by
  induction p generalizing t a with
  | nil => simp [ancestors] at h
  | cons k p ih =>
    rw [ancestors] at h
    split at h
    next c child =>
      rcases List.mem_append.mp h with h | h
      · obtain ⟨b, hb, rfl⟩ := List.mem_map.mp h
        obtain ⟨found, r, rfl⟩ := ih hb
        exact ⟨by simpa [at?, child] using found, r, rfl⟩
      · obtain rfl := List.mem_singleton.mp h
        exact ⟨rfl, p, rfl⟩
    next => simp at h

/-- Below a node whose only child is a leaf there is no other place than that of the leaf. -/
theorem at?_only_leaf {t c : Tree} (only : t.children = [c]) (leaf : c.children = []) {k : Nat}
    {p : List Nat} (other : k :: p ≠ [0]) : t.at? (k :: p) = none := by
  cases k with
  | zero =>
    cases p with
    | nil => exact absurd rfl other
    | cons l p => simp [at?, only, leaf]
  | succ k => simp [at?, only]

end Tree

namespace Setting

variable {W : Setting}

/-- A class or module as those inside it see it, by the names it inherits or declares. -/
def frame? (W : Setting) (t : Tree) : Option Frame :=
  match t.shape with
  | .classDef _ name _ impl | .moduleDef _ name impl => some ⟨name.toType, W.declaredNames impl⟩
  | _ => none

/-- The classes and modules around the place to which a way leads, innermost first. -/
def framesAt (W : Setting) (t : Tree) (p : List Nat) : List Frame :=
  (t.ancestors p).filterMap fun a => W.frame? a.node

/-- A self access that may stay: its class is not anonymous, and either the innermost class or
module of that name around it lists the member, or there is none and the class is not that of a
module. -/
structure ValidAccess (W : Setting) (frames : List Frame) (j : Info) (this selected : Name) :
    Prop where
  named : Text.startsWith this.text W.conventions.anonymousBeginning = false
  listed : (∃ f, (frames.find? fun f => f.name = this) = some f ∧ selected ∈ f.members) ∨
    (∀ f ∈ frames, f.name ≠ this) ∧
      ∀ s, j.symbol = some s → (W.symbols.get s).isModuleClass = false

/-- The way leads to a self access that may not stay. -/
def InvalidAt (W : Setting) (frames : List Frame) (t : Tree) (p : List Nat) : Prop :=
  ∃ i j this selected, t.at? p = some ⟨i, .select ⟨j, .this this⟩ selected⟩ ∧
    ¬ W.ValidAccess (W.framesAt t p ++ frames) j this selected

mutual

/-- A run over a tree with one stack of frames: the stack before it, the tree, what it is replaced
by, and the stack after it. A frame is pushed where a class or module is entered, and the topmost
one is popped where it is left. -/
inductive Runs (W : Setting) : List Frame → Tree → Tree → List Frame → Prop
  | access {stack : List Frame} {i j : Info} {this selected : Name} :
      Runs W stack ⟨i, .select ⟨j, .this this⟩ selected⟩ (W.selfAccess stack i j this selected)
        stack
  | declaration {stack left : List Frame} {i : Info} {s u : Shape Tree} {f : Frame}
      (frame : W.frame? ⟨i, s⟩ = some f)
      (below : RunsAll W (f :: stack) s.children u.children left) (alike : u.Alike s) :
      Runs W stack ⟨i, s⟩ ⟨i, u⟩ left.tail
  | other {stack left : List Frame} {i : Info} {s u : Shape Tree} (noAccess : ¬ s.IsSelfAccess)
      (noFrame : W.frame? ⟨i, s⟩ = none)
      (below : RunsAll W stack s.children u.children left) (alike : u.Alike s) :
      Runs W stack ⟨i, s⟩ ⟨i, u⟩ left

/-- Runs over several trees, one after the other. -/
inductive RunsAll (W : Setting) : List Frame → List Tree → List Tree → List Frame → Prop
  | nil {stack : List Frame} : RunsAll W stack [] [] stack
  | cons {stack between left : List Frame} {c r : Tree} {cs rs : List Tree}
      (first : Runs W stack c r between) (rest : RunsAll W between cs rs left) :
      RunsAll W stack (c :: cs) (r :: rs) left

end

theorem not_isSelfAccess_of_frame {i : Info} {s : Shape Tree} {f : Frame}
    (frame : W.frame? ⟨i, s⟩ = some f) : ¬ s.IsSelfAccess := by
  rintro ⟨j, this, selected, rfl⟩
  simp [frame?] at frame

theorem framesAt_cons {t c : Tree} {k : Nat} (child : t.children[k]? = some c) (p : List Nat) :
    W.framesAt t (k :: p) = W.framesAt c p ++ (W.frame? t).toList := by
  rw [framesAt, Tree.ancestors, child]
  cases frame : W.frame? t <;> simp [framesAt, List.filterMap_map, frame]

/-- What is no self access is rebuilt from its children, which a class or module is around. -/
theorem fixSelfAccess_mk (frames : List Frame) (i : Info) {s : Shape Tree}
    (noAccess : ¬ s.IsSelfAccess) :
    W.fixSelfAccess frames ⟨i, s⟩ =
      ⟨i, s.mapChildren (W.fixSelfAccess ((W.frame? ⟨i, s⟩).toList ++ frames))⟩ := by
  cases s with
  | select q name =>
    obtain ⟨j, v⟩ := q
    cases v with
    | this this => exact absurd ⟨j, this, name, rfl⟩ noAccess
    | _ => simp [fixSelfAccess, frame?]
  | _ => simp [fixSelfAccess, frame?]

theorem runsAll_iff {cs : List Tree}
    (each : ∀ c ∈ cs, ∀ stack r left,
      W.Runs stack c r left ↔ r = W.fixSelfAccess stack c ∧ left = stack)
    {stack left : List Frame} {rs : List Tree} :
    W.RunsAll stack cs rs left ↔ rs = cs.map (W.fixSelfAccess stack) ∧ left = stack := by
  induction cs generalizing rs with
  | nil =>
    constructor
    · rintro ⟨⟩
      exact ⟨rfl, rfl⟩
    · rintro ⟨rfl, rfl⟩
      exact .nil
  | cons c cs ih =>
    have rest {rs : List Tree} :
        W.RunsAll stack cs rs left ↔ rs = cs.map (W.fixSelfAccess stack) ∧ left = stack :=
      ih fun d hd => each d (List.mem_cons_of_mem _ hd)
    have first := each c (List.mem_cons_self ..)
    constructor
    · intro run
      cases run with
      | cons run others =>
        obtain ⟨rfl, rfl⟩ := (first _ _ _).mp run
        obtain ⟨rfl, rfl⟩ := rest.mp others
        exact ⟨rfl, rfl⟩
    · rintro ⟨rfl, rfl⟩
      exact .cons ((first _ _ _).mpr ⟨rfl, rfl⟩) (rest.mpr ⟨rfl, rfl⟩)

/-- A run leaves the stack as it was, and handing the frames down gives the same tree. -/
theorem runs_iff {stack left : List Frame} {t r : Tree} :
    W.Runs stack t r left ↔ r = W.fixSelfAccess stack t ∧ left = stack := by
  induction t using Tree.mem_children_induct generalizing stack r left with
  | node i s ih =>
    have below {stack left : List Frame} {rs : List Tree} :
        W.RunsAll stack s.children rs left ↔
          rs = s.children.map (W.fixSelfAccess stack) ∧ left = stack :=
      runsAll_iff fun c hc stack r left => ih c hc
    have rebuilt {frames : List Frame} {u : Shape Tree} (alike : u.Alike s)
        (children : u.children = s.children.map (W.fixSelfAccess frames)) :
        u = s.mapChildren (W.fixSelfAccess frames) :=
      Shape.Alike.eq_of_children (Shape.alike_mapChildren_right.mpr alike) (by simpa using children)
    constructor
    · intro run
      cases run with
      | access => exact ⟨by rw [fixSelfAccess], rfl⟩
      | declaration frame run alike =>
        obtain ⟨children, rfl⟩ := below.mp run
        rw [fixSelfAccess_mk stack i (not_isSelfAccess_of_frame frame), frame,
          rebuilt alike children]
        exact ⟨rfl, rfl⟩
      | other noAccess noFrame run alike =>
        obtain ⟨children, rfl⟩ := below.mp run
        rw [fixSelfAccess_mk _ i noAccess, noFrame, rebuilt alike children]
        exact ⟨rfl, rfl⟩
    · rintro ⟨rfl, rfl⟩
      by_cases access : s.IsSelfAccess
      · obtain ⟨j, this, selected, rfl⟩ := access
        rw [fixSelfAccess]
        exact .access
      · rw [fixSelfAccess_mk _ i access]
        cases frame : W.frame? ⟨i, s⟩ with
        | some f =>
          have run : W.RunsAll (f :: left) s.children
              (s.mapChildren (W.fixSelfAccess (f :: left))).children (f :: left) :=
            below.mpr ⟨Shape.children_mapChildren .., rfl⟩
          exact .declaration frame run (Shape.alike_mapChildren_left.mpr rfl)
        | none =>
          refine .other access frame (below.mpr ⟨?_, rfl⟩) ?_
          · exact Shape.children_mapChildren ..
          · exact Shape.alike_mapChildren_left.mpr rfl

/-- A self access stays if it may, and otherwise it becomes a plain name or a selection from the
module. -/
theorem selfAccess_cases (frames : List Frame) (i j : Info) (this selected : Name) :
    W.ValidAccess frames j this selected ∧
        W.selfAccess frames i j this selected = ⟨i, .select ⟨j, .this this⟩ selected⟩ ∨
      ¬ W.ValidAccess frames j this selected ∧
        ((∃ k, W.selfAccess frames i j this selected = ⟨k, .ident selected⟩) ∨
          W.selfAccess frames i j this selected =
            .bare (.select (.bare (.ident this.toTerm)) selected)) := by
  cases anonymous : Text.startsWith this.text W.conventions.anonymousBeginning with
  | true =>
    refine .inr ⟨fun valid => ?_, .inl ?_⟩
    · rw [valid.named] at anonymous
      cases anonymous
    · simp [selfAccess, selfMember?, anonymous]
  | false =>
    cases found : frames.find? fun f => f.name = this with
    | some f =>
      by_cases listed : selected ∈ f.members
      · exact .inl ⟨⟨anonymous, .inl ⟨f, found, listed⟩⟩, by
          simp [selfAccess, selfMember?, anonymous, found, listed]⟩
      · refine .inr ⟨fun valid => ?_, .inl (by
          simp [selfAccess, selfMember?, anonymous, found, listed])⟩
        rcases valid.listed with ⟨g, found', listed'⟩ | ⟨none, -⟩
        · cases found.symm.trans found'
          exact listed listed'
        · exact none f (List.mem_of_find?_eq_some found) (by simpa using List.find?_some found)
    | none =>
      have outside : ∀ f ∈ frames, f.name ≠ this := by simpa using found
      cases module : j.symbol.any fun s => (W.symbols.get s).isModuleClass with
      | false =>
        refine .inl ⟨⟨anonymous, .inr ⟨outside, fun s symbol => ?_⟩⟩, by
          simp [selfAccess, selfMember?, anonymous, found, Symbol.isModuleClass_and_not, module]⟩
        simpa [symbol] using module
      | true =>
        refine .inr ⟨fun valid => ?_, .inr (by
          simp [selfAccess, selfMember?, anonymous, found, Symbol.isModuleClass_and_not, module])⟩
        obtain ⟨s, symbol, ofModule⟩ := (Option.any_eq_true _ _).mp module
        rcases valid.listed with ⟨g, found', -⟩ | ⟨-, foreign⟩
        · rw [found] at found'
          cases found'
        · rw [foreign s symbol] at ofModule
          cases ofModule

theorem fixSelfAccess_this (frames : List Frame) (j : Info) (this : Name) :
    W.fixSelfAccess frames ⟨j, .this this⟩ = ⟨j, .this this⟩ := by
  simp [fixSelfAccess, Shape.mapChildren]

theorem eq_this_of_fixSelfAccess {frames : List Frame} {q : Tree} {j : Info} {this : Name}
    (h : W.fixSelfAccess frames q = ⟨j, .this this⟩) : q = ⟨j, .this this⟩ := by
  obtain ⟨i, s⟩ := q
  by_cases access : s.IsSelfAccess
  · obtain ⟨k, name, selected, rfl⟩ := access
    rw [fixSelfAccess] at h
    rcases selfAccess_cases frames i k name selected with ⟨-, kept⟩ | ⟨-, ⟨l, plain⟩ | path⟩
    · rw [kept] at h
      cases h
    · rw [plain] at h
      cases h
    · rw [path] at h
      cases h
  · rw [fixSelfAccess_mk frames i access] at h
    cases s <;> simp [Shape.mapChildren] at h ⊢
    exact h

/-- Only what was a self access and may stay is one afterwards. -/
theorem valid_of_fixSelfAccess {frames : List Frame} {n : Tree} {i j : Info} {this selected : Name}
    (h : W.fixSelfAccess frames n = ⟨i, .select ⟨j, .this this⟩ selected⟩) :
    W.ValidAccess frames j this selected := by
  obtain ⟨k, s⟩ := n
  by_cases access : s.IsSelfAccess
  · obtain ⟨l, name, member, rfl⟩ := access
    rw [fixSelfAccess] at h
    rcases selfAccess_cases frames k l name member with ⟨valid, kept⟩ | ⟨-, ⟨m, plain⟩ | path⟩
    · cases kept.symm.trans h
      exact valid
    · rw [plain] at h
      cases h
    · rw [path] at h
      cases h
  · rw [fixSelfAccess_mk frames k access] at h
    cases s <;> simp [Shape.mapChildren] at h
    next q name =>
      have self := eq_this_of_fixSelfAccess h.2.1
      exact absurd ⟨j, this, name, by rw [self]⟩ access

/-- Every place of a tree shows what the place below its own frames is replaced by, apart from the
self references that invalid accesses had. -/
theorem at?_fixSelfAccess (frames : List Frame) (t : Tree) (p : List Nat) :
    (W.fixSelfAccess frames t).at? p =
        (t.at? p).map (W.fixSelfAccess (W.framesAt t p ++ frames)) ∨
      ∃ q, p = q ++ [0] ∧ W.InvalidAt frames t q := by
  induction p generalizing t frames with
  | nil => exact .inl rfl
  | cons k p ih =>
    obtain ⟨i, s⟩ := t
    by_cases access : s.IsSelfAccess
    · obtain ⟨j, this, selected, rfl⟩ := access
      have cases := W.selfAccess_cases frames i j this selected
      rw [fixSelfAccess]
      by_cases self : k :: p = [0]
      · cases self
        rcases cases with ⟨-, kept⟩ | ⟨invalid, -⟩
        · left
          rw [kept]
          simp [Tree.at?, Tree.children, Shape.children, fixSelfAccess_this]
        · exact .inr ⟨[], rfl, i, j, this, selected, rfl, invalid⟩
      · left
        have none : (⟨i, .select ⟨j, .this this⟩ selected⟩ : Tree).at? (k :: p) = none :=
          Tree.at?_only_leaf rfl rfl self
        rw [none, Option.map_none]
        rcases cases with ⟨-, kept⟩ | ⟨-, ⟨l, plain⟩ | path⟩
        · rw [kept, none]
        · rw [plain]
          rfl
        · rw [path]
          exact Tree.at?_only_leaf rfl rfl self
    · have children : (W.fixSelfAccess frames ⟨i, s⟩).children =
          s.children.map (W.fixSelfAccess ((W.frame? ⟨i, s⟩).toList ++ frames)) := by
        rw [fixSelfAccess_mk frames i access]
        exact Shape.children_mapChildren ..
      simp only [Tree.at?, children, List.getElem?_map]
      cases child : (⟨i, s⟩ : Tree).children[k]? with
      | none =>
        have child : s.children[k]? = none := child
        simp [child]
      | some c =>
        have child' : s.children[k]? = some c := child
        simp only [child', Option.map_some, Option.bind_some, framesAt_cons child,
          List.append_assoc]
        rcases ih ((W.frame? ⟨i, s⟩).toList ++ frames) c with
          same | ⟨q, rfl, j, l, this, selected, found, invalid⟩
        · exact .inl same
        · refine .inr ⟨k :: q, rfl, j, l, this, selected, ?_, ?_⟩
          · rw [Tree.at?, child]
            exact found
          · simpa [framesAt_cons child] using invalid

theorem at?_of_access (frames : List Frame) {t : Tree} {p : List Nat} {i j : Info}
    {this selected : Name} (found : t.at? p = some ⟨i, .select ⟨j, .this this⟩ selected⟩) :
    (W.fixSelfAccess frames t).at? p =
      some (W.selfAccess (W.framesAt t p ++ frames) i j this selected) := by
  rcases W.at?_fixSelfAccess frames t p with same | ⟨q, rfl, k, l, name, member, above, -⟩
  · rw [same, found, Option.map_some, fixSelfAccess]
  · rw [Tree.at?_append, above] at found
    cases found

/-- No self access is left below one that is replaced. -/
theorem not_access_below_invalidAt {frames : List Frame} {t : Tree} {q : List Nat}
    (h : W.InvalidAt frames t q) {i j : Info} {this selected : Name} :
    (W.fixSelfAccess frames t).at? (q ++ [0]) ≠ some ⟨i, .select ⟨j, .this this⟩ selected⟩ := by
  obtain ⟨k, l, name, member, found, invalid⟩ := h
  rw [Tree.at?_append, at?_of_access frames found]
  rcases W.selfAccess_cases (W.framesAt t q ++ frames) k l name member with
    ⟨valid, -⟩ | ⟨-, ⟨m, plain⟩ | path⟩
  · exact absurd valid invalid
  · rw [plain]
    rintro ⟨⟩
  · rw [path]
    rintro ⟨⟩

theorem fixSelfAccess_of_not_invalidAt {frames : List Frame} {n : Tree}
    (h : ¬ W.InvalidAt frames n []) :
    (W.fixSelfAccess frames n).info = n.info ∧
      (W.fixSelfAccess frames n).shape.Alike n.shape := by
  obtain ⟨i, s⟩ := n
  by_cases access : s.IsSelfAccess
  · obtain ⟨j, this, selected, rfl⟩ := access
    rcases W.selfAccess_cases frames i j this selected with ⟨-, kept⟩ | ⟨invalid, -⟩
    · rw [fixSelfAccess, kept]
      exact ⟨rfl, rfl⟩
    · exact absurd ⟨i, j, this, selected, rfl, invalid⟩ h
  · rw [fixSelfAccess_mk frames i access]
    exact ⟨rfl, Shape.alike_mapChildren_left.mpr rfl⟩

end Setting

/-- The pass leaves its stack empty, every self access in what it gives is valid where it stands,
and all but the invalid self accesses is as it was. -/
theorem self_accesses_valid (W : Setting) (t : Tree) :
    (∀ r left, W.Runs [] t r left ↔ r = W.fixSelfAccess [] t ∧ left = []) ∧
      (∀ p i j this selected,
        (W.fixSelfAccess [] t).at? p = some ⟨i, .select ⟨j, .this this⟩ selected⟩ →
          W.ValidAccess (W.framesAt t p) j this selected) ∧
      ∀ p, (∀ q, q <+: p → ¬ W.InvalidAt [] t q) →
        Option.Rel (fun n r => r.info = n.info ∧ r.shape.Alike n.shape) (t.at? p)
          ((W.fixSelfAccess [] t).at? p) := by
  refine ⟨fun r left => Setting.runs_iff, fun p i j this selected found => ?_, fun p valid => ?_⟩
  · rcases W.at?_fixSelfAccess [] t p with same | ⟨q, rfl, invalid⟩
    · rw [same] at found
      obtain ⟨n, -, fixed⟩ := Option.map_eq_some_iff.mp found
      simpa using Setting.valid_of_fixSelfAccess fixed
    · exact absurd found (Setting.not_access_below_invalidAt invalid)
  · rcases W.at?_fixSelfAccess [] t p with same | ⟨q, rfl, invalid⟩
    · rw [same]
      cases found : t.at? p with
      | none => exact .none
      | some n =>
        refine .some (Setting.fixSelfAccess_of_not_invalidAt fun invalid => ?_)
        obtain ⟨i, j, this, selected, access, invalid⟩ := invalid
        exact valid p List.prefix_rfl ⟨i, j, this, selected, found.trans access, invalid⟩
    · exact absurd invalid (valid q (List.prefix_append ..))

/-- A program without symbols of its own. -/
def plainSetting : Setting where
  symbols.entries := []
  builtins.rootClass := ⟨"root"⟩
  builtins.nothingType := .unspecified
  builtins.anyType := .unspecified
  builtins.anyRefType := .unspecified

/-- A member of a class selected from its self reference. -/
def selfAccessOf (name member : String) : Tree :=
  .bare (.select (.bare (.this (.type name))) (.term member))

/-- A method that gives a value for one parameter. -/
def methodOf (name param : String) (rhs : Tree) : Tree :=
  .bare (.defDef {} (.term name) []
    [[.bare (.valDef {} (.term param) (.bare (.typeTree none)) .empty)]]
    (.bare (.typeTree none)) rhs)

def classOf (name : String) (body : List Tree) : Tree :=
  .bare (.classDef {} (.type name) [] (.bare (.template [] .empty body)))

/-- A class within a class of the same name. The inner one does not have the member that the first
of its methods selects. -/
def sameNamedClasses : Tree :=
  classOf "C" [methodOf "f" "x" .empty,
    classOf "C" [methodOf "g" "x" (selfAccessOf "C" "f"), methodOf "h" "x" (selfAccessOf "C" "g")]]

theorem sameNamedClasses_valid :
    (plainSetting.fixSelfAccess [] sameNamedClasses).at? [0, 2, 0, 1, 2] =
        some (.bare (.ident (.term "f"))) ∧
      (plainSetting.fixSelfAccess [] sameNamedClasses).at? [0, 2, 0, 2, 2] =
        some (selfAccessOf "C" "g") ∧
      plainSetting.ValidAccess (plainSetting.framesAt sameNamedClasses [0, 2, 0, 2, 2]) {}
        (.type "C") (.term "g") ∧
      plainSetting.Runs [] sameNamedClasses (plainSetting.fixSelfAccess [] sameNamedClasses)
        [] := by
  have outer : sameNamedClasses.at? [0, 2, 0, 1, 2] = some (selfAccessOf "C" "f") := rfl
  have inner : sameNamedClasses.at? [0, 2, 0, 2, 2] = some (selfAccessOf "C" "g") := rfl
  have dropped := plainSetting.at?_of_access [] outer
  have kept := plainSetting.at?_of_access [] inner
  obtain ⟨run, valid, -⟩ := self_accesses_valid plainSetting sameNamedClasses
  exact ⟨dropped.trans rfl, kept.trans rfl, valid _ _ _ _ _ kept, (run _ _).mpr ⟨rfl, rfl⟩⟩

end TreeRepair
