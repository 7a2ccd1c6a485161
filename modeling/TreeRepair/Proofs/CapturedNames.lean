import TreeRepair.Proofs.SelfAccesses

namespace TreeRepair

/-- Those of several lists that end at or before a position, all in one. -/
def listsBefore {α : Type} : List (List α) → Nat → List α
  | [], _ => []
  | l :: ls, k => if l.length ≤ k then l ++ listsBefore ls (k - l.length) else []

/-- The names that a pattern binds. -/
def Tree.boundNames (pattern : Tree) : List Name :=
  pattern.preorder.filterMap fun n =>
    match n.shape with
    | .bind name _ => some name
    | _ => none

namespace Setting

/-- The names that a node brings into scope for its child of the given number: those of parameters,
of the statements of a block or body, of a pattern, and of what a class or module inherits. A
parameter list is in scope behind its end. -/
def introduced (W : Setting) (n : Tree) (k : Nat) : List Name :=
  match n.shape with
  | .function params _ => if k < params.length then [] else params.filterMap Tree.declaredName?
  | .block stats expr => (stats ++ [expr]).filterMap Tree.declaredName?
  | .caseDef pattern _ _ => if k = 0 then [] else pattern.boundNames
  | .template parents self _ =>
    if k ≤ parents.length then [] else self.declaredName?.toList ++ W.declaredNames n
  | .packageDef _ stats => if k = 0 then [] else stats.filterMap Tree.declaredName?
  | .defDef mods _ tparams vparamss _ _ =>
    if k < mods.annotations.length then []
    else
      (tparams ++ listsBefore vparamss (k - mods.annotations.length - tparams.length)).filterMap
        Tree.declaredName?
  | .typeDef mods _ tparams _ | .classDef mods _ tparams _ =>
    if k < mods.annotations.length then [] else tparams.filterMap Tree.declaredName?
  | .existentialType _ clauses => clauses.filterMap Tree.declaredName?
  | _ => []

/-- Whether a node brings a name into scope on the way to a place below it. -/
def introduces (W : Setting) (x : Name) (a : Ancestor) : Bool :=
  (W.introduced a.node a.child).contains x

/-- The innermost class or module of a name around a place. -/
def home? (W : Setting) (t : Tree) (this : Name) (p : List Nat) : Option Ancestor :=
  (t.ancestors p).find? fun a => (W.frame? a.node).any fun f => f.name = this

/-- What a plain name stands for at a place: the innermost node that brings it into scope there. -/
def declarer? (W : Setting) (t : Tree) (x : Name) (p : List Nat) : Option Ancestor :=
  (t.ancestors p).find? (W.introduces x)

end Setting

namespace Ancestor

/-- Whether a node is inside of a class or module. The body that has its members, which is its last
child, is not. -/
def isInside (home a : Ancestor) : Bool :=
  if home.child + 1 = home.node.children.length then home.place.length + 1 < a.place.length
  else home.place.length < a.place.length

/-- A node is the body of a class or module, on the way to one of the statements. -/
structure IsBodyOf (body home : Ancestor) : Prop where
  place : body.place = home.place ++ [home.child]
  last : home.child + 1 = home.node.children.length
  statement : ∃ parents self stats, body.node.shape = .template parents self stats ∧
    parents.length < body.child

theorem isInside_of_longer {home a b : Ancestor} (inside : home.isInside b = true)
    (longer : b.place.length < a.place.length) : home.isInside a = true := by
  by_cases last : home.child + 1 = home.node.children.length
  · simp only [isInside, last, if_true, decide_eq_true_eq] at inside ⊢
    omega
  · simp only [isInside, last, if_false, decide_eq_true_eq] at inside ⊢
    omega

end Ancestor

theorem Tree.ancestors_pairwise (t : Tree) (p : List Nat) :
    (t.ancestors p).Pairwise fun a b => b.place.length < a.place.length := by
  induction p generalizing t with
  | nil => exact .nil
  | cons k p ih =>
    rw [ancestors]
    split
    next c child =>
      refine List.pairwise_append.mpr ⟨?_, List.pairwise_singleton .., ?_⟩
      · rw [List.pairwise_map]
        exact (ih c).imp fun h => by simpa using h
      · intro a ha b hb
        obtain ⟨d, -, rfl⟩ := List.mem_map.mp ha
        obtain rfl := List.mem_singleton.mp hb
        simp
    next => exact .nil

/-- If what is left out comes first, a search gives the same without it exactly if it finds nothing
in it. -/
theorem find?_eq_find?_filter_iff {α : Type} {p out : α → Bool} {l : List α}
    (first : l.Pairwise fun a b => out b = true → out a = true) :
    l.find? p = (l.filter fun a => !out a).find? p ↔ ∀ a ∈ l, out a = true → p a = false := by
  induction l with
  | nil => simp
  | cons a l ih =>
    obtain ⟨before, first⟩ := List.pairwise_cons.mp first
    cases left : out a with
    | true =>
      rw [List.filter_cons_of_neg (by simp [left])]
      cases found : p a with
      | false => simpa [left, found] using ih first
      | true =>
        refine iff_of_false (fun same => ?_) fun h => ?_
        · rw [List.find?_cons_of_pos found] at same
          have kept := List.mem_of_find?_eq_some same.symm
          simp [left] at kept
        · rw [h a (List.mem_cons_self ..) left] at found
          cases found
    | false =>
      have none (b : α) (hb : b ∈ a :: l) : out b = false := by
        rcases List.mem_cons.mp hb with rfl | hb
        · exact left
        · cases later : out b with
          | false => rfl
          | true => exact (before b hb later).symm.trans left
      have all : ((a :: l).filter fun a => !out a) = a :: l :=
        List.filter_eq_self.mpr fun b hb => by simp [none b hb]
      rw [all]
      exact iff_of_true rfl fun b hb later => by simp [none b hb] at later

namespace Setting

variable {W : Setting}

theorem find?_framesAt (t : Tree) (this : Name) (p : List Nat) :
    ((W.framesAt t p).find? fun f => f.name = this) =
      (W.home? t this p).bind fun a => W.frame? a.node := by
  rw [framesAt, home?, List.find?_filterMap]

/-- A self access becomes a plain name if its class is anonymous or known not to have the member. -/
theorem selfAccess_eq_ident_iff {frames : List Frame} {i j : Info} {this x : Name} {f : Frame}
    (found : (frames.find? fun f => f.name = this) = some f) :
    (∃ k, W.selfAccess frames i j this x = ⟨k, .ident x⟩) ↔
      Text.startsWith this.text W.conventions.anonymousBeginning = true ∨ x ∉ f.members := by
  cases anonymous : Text.startsWith this.text W.conventions.anonymousBeginning with
  | true => simp [selfAccess, selfMember?, anonymous]
  | false =>
    by_cases listed : x ∈ f.members <;>
      simp [selfAccess, selfMember?, anonymous, found, listed]

/-- The last child of a class or module has the members that are known of it. -/
theorem members_eq_of_last {n c : Tree} {k : Nat} {f : Frame} (frame : W.frame? n = some f)
    (last : k + 1 = n.children.length) (child : n.children[k]? = some c) :
    f.members = W.declaredNames c := by
  obtain ⟨i, s⟩ := n
  cases s with
  | classDef mods name tparams impl | moduleDef mods name impl =>
    cases frame
    simp only [Tree.children, Shape.children, List.length_append, List.length_singleton,
      Nat.add_right_cancel_iff] at last
    subst last
    simp [Tree.children, Shape.children] at child
    rw [child]
  | _ => simp [frame?] at frame

/-- The body of a class or module brings every member into scope. -/
theorem introduces_of_isBodyOf {t : Tree} {p : List Nat} {home body : Ancestor} {f : Frame}
    {x : Name} (around : home ∈ t.ancestors p) (below : body ∈ t.ancestors p)
    (isBody : body.IsBodyOf home) (frame : W.frame? home.node = some f) (member : x ∈ f.members) :
    W.introduces x body = true := by
  have child : home.node.children[home.child]? = some body.node := by
    have found := (Tree.at?_of_mem_ancestors below).1
    rw [isBody.place, Tree.at?_append, (Tree.at?_of_mem_ancestors around).1] at found
    simpa [Tree.at?] using found
  rw [members_eq_of_last frame isBody.last child] at member
  obtain ⟨parents, self, stats, template, statement⟩ := isBody.statement
  have inBody : ¬ body.child ≤ parents.length := by omega
  simp [introduces, introduced, template, inBody, member]

/-- Seen from the class or module itself, a name that its body brings into scope stands for what the
body has. -/
theorem find?_outside_of_isBodyOf {t : Tree} {p : List Nat} {home body : Ancestor} {x : Name}
    (below : body ∈ t.ancestors p) (isBody : body.IsBodyOf home)
    (introduced : W.introduces x body = true) :
    ((t.ancestors p).filter fun a => !home.isInside a).find? (W.introduces x) = some body := by
  have length : body.place.length = home.place.length + 1 := by simp [isBody.place]
  have outside : home.isInside body = false := by simp [Ancestor.isInside, isBody.last, length]
  have kept : body ∈ (t.ancestors p).filter fun a => !home.isInside a :=
    List.mem_filter.mpr ⟨below, by simp [outside]⟩
  obtain ⟨c, found⟩ : ∃ c, ((t.ancestors p).filter fun a => !home.isInside a).find?
      (W.introduces x) = some c :=
    Option.isSome_iff_exists.mp (List.find?_isSome.mpr ⟨body, kept, introduced⟩)
  obtain ⟨-, before, after, split, others⟩ := List.find?_eq_some_iff_append.mp found
  have shorter := (t.ancestors_pairwise p).filter fun a => !home.isInside a
  rw [split] at kept shorter
  rcases List.mem_append.mp kept with earlier | later
  · exact absurd introduced (by simpa using others body earlier)
  · rcases List.mem_cons.mp later with rfl | later
    · exact found
    · have longer := (List.pairwise_cons.mp (List.pairwise_append.mp shorter).2.1).1 body later
      have inside := (List.mem_filter.mp (List.mem_of_find?_eq_some found)).2
      simp [Ancestor.isInside, isBody.last] at inside
      omega

end Setting

/-- Whether the qualifier of a self access is dropped is decided by its class alone. The plain name
then stands for what it stands for in the class itself exactly if nothing inside of the class brings
it into scope, and so it is with the member of that name, if the class has one. -/
theorem dropped_qualifier_same_meaning_iff (W : Setting) (t : Tree) {p : List Nat} {i j : Info}
    {this x : Name} {home : Ancestor} {f : Frame}
    (access : t.at? p = some ⟨i, .select ⟨j, .this this⟩ x⟩)
    (enclosed : W.home? t this p = some home) (frame : W.frame? home.node = some f) :
    ((∃ k, (W.fixSelfAccess [] t).at? p = some ⟨k, .ident x⟩) ↔
        Text.startsWith this.text W.conventions.anonymousBeginning = true ∨ x ∉ f.members) ∧
      (W.declarer? t x p =
          ((t.ancestors p).filter fun a => !home.isInside a).find? (W.introduces x) ↔
        ∀ a ∈ t.ancestors p, home.isInside a = true → x ∉ W.introduced a.node a.child) ∧
      ∀ body ∈ t.ancestors p, body.IsBodyOf home → x ∈ f.members →
        (W.declarer? t x p = some body ↔
          ∀ a ∈ t.ancestors p, home.isInside a = true → x ∉ W.introduced a.node a.child) := by
  have first : (t.ancestors p).Pairwise fun a b =>
      home.isInside b = true → home.isInside a = true :=
    (t.ancestors_pairwise p).imp fun longer inside => Ancestor.isInside_of_longer inside longer
  have meaning : W.declarer? t x p =
        ((t.ancestors p).filter fun a => !home.isInside a).find? (W.introduces x) ↔
      ∀ a ∈ t.ancestors p, home.isInside a = true → x ∉ W.introduced a.node a.child := by
    rw [Setting.declarer?, find?_eq_find?_filter_iff first]
    simp [Setting.introduces]
  refine ⟨?_, meaning, fun body below isBody member => ?_⟩
  · have found : ((W.framesAt t p ++ []).find? fun f => f.name = this) = some f := by
      rw [List.append_nil, Setting.find?_framesAt, enclosed]
      exact frame
    rw [Setting.at?_of_access [] access, ← Setting.selfAccess_eq_ident_iff (i := i) (j := j) found]
    simp only [Option.some.injEq]
  · have around := List.mem_of_find?_eq_some enclosed
    have introduced := Setting.introduces_of_isBodyOf around below isBody frame member
    rw [← meaning, Setting.find?_outside_of_isBodyOf below isBody introduced]

/-- A method that selects a member of the anonymous class it is in. -/
def anonymousMethod (param : String) : Tree := methodOf "f" param (selfAccessOf "$anon" "x")

/-- The statements of an anonymous class: a value, and a method that selects it. -/
def anonymousStatements (param : String) : List Tree :=
  [.bare (.valDef {} (.term "x") (.bare (.typeTree none)) .empty), anonymousMethod param]

def anonymousClass (param : String) : Tree := classOf "$anon" (anonymousStatements param)

theorem ancestors_anonymousClass (param : String) :
    (anonymousClass param).ancestors [0, 2, 2] =
      [⟨[0, 2], anonymousMethod param, 2⟩,
       ⟨[0], .bare (.template [] .empty (anonymousStatements param)), 2⟩,
       ⟨[], anonymousClass param, 0⟩] := rfl

/-- The qualifier is dropped below a parameter of another name, and the plain name stands for the
member. -/
theorem dropped_member_meant :
    (∃ k, (plainSetting.fixSelfAccess [] (anonymousClass "y")).at? [0, 2, 2] =
        some ⟨k, .ident (.term "x")⟩) ∧
      plainSetting.declarer? (anonymousClass "y") (.term "x") [0, 2, 2] =
        some ⟨[0], .bare (.template [] .empty (anonymousStatements "y")), 2⟩ := by
  have access : (anonymousClass "y").at? [0, 2, 2] = some (selfAccessOf "$anon" "x") := rfl
  have enclosed : plainSetting.home? (anonymousClass "y") (.type "$anon") [0, 2, 2] =
    some ⟨[], anonymousClass "y", 0⟩ := rfl
  have frame : plainSetting.frame? (anonymousClass "y") =
    some ⟨.type "$anon", [.term "x", .term "f"]⟩ := rfl
  obtain ⟨dropped, -, meaning⟩ :=
    dropped_qualifier_same_meaning_iff plainSetting (anonymousClass "y") access enclosed frame
  refine ⟨dropped.mpr (.inl (by decide)), (meaning _ ?_ ?_ (by decide)).mpr ?_⟩
  · rw [ancestors_anonymousClass]
    exact List.mem_cons_of_mem _ (List.mem_cons_self ..)
  · exact ⟨rfl, rfl, [], _, _, rfl, by decide⟩
  · rw [ancestors_anonymousClass]
    decide

/-- The qualifier is dropped below a parameter of the same name, too, and the plain name stands for
the parameter. -/
theorem dropped_parameter_meant :
    (plainSetting.fixSelfAccess [] (anonymousClass "x")).at? [0, 2, 2] =
        some (.bare (.ident (.term "x"))) ∧
      plainSetting.home? (anonymousClass "x") (.type "$anon") [0, 2, 2] =
        some ⟨[], anonymousClass "x", 0⟩ ∧
      plainSetting.declarer? (anonymousClass "x") (.term "x") [0, 2, 2] =
        some ⟨[0, 2], anonymousMethod "x", 2⟩ ∧
      (⟨[], anonymousClass "x", 0⟩ : Ancestor).isInside ⟨[0, 2], anonymousMethod "x", 2⟩ =
        true := by
  have access : (anonymousClass "x").at? [0, 2, 2] = some (selfAccessOf "$anon" "x") := rfl
  exact ⟨(plainSetting.at?_of_access [] access).trans rfl, rfl, rfl, rfl⟩

end TreeRepair
