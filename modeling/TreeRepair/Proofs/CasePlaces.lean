import TreeRepair.Proofs.SurfacePasses

namespace TreeRepair

namespace Shape

variable {α : Type}

/-- What a class or module says about itself: whether it is a class, its flags and its name. -/
def declaration? : Shape α → Option (Bool × Flags × Name)
  | .classDef mods name _ _ => some (true, mods.flags, name)
  | .moduleDef mods name _ => some (false, mods.flags, name)
  | _ => none

/-- Applies a function to the body of a class or module. -/
def mapImpl (f : α → α) : Shape α → Shape α
  | .classDef mods name tparams impl => .classDef mods name tparams (f impl)
  | .moduleDef mods name impl => .moduleDef mods name (f impl)
  | s => s

theorem declaration?_mapImpl (f : α → α) (s : Shape α) :
    (s.mapImpl f).declaration? = s.declaration? := by
  cases s <;> rfl

theorem caseName?_eq (s : Shape α) : s.caseName? = s.declaration?.bind fun d =>
    if d.2.1.has .caseDecl then some d.2.2 else none := by
  cases s <;> rfl

end Shape

theorem caseClassNames_eq (l : List Tree) : caseClassNames l = l.filterMap fun t =>
    t.shape.declaration?.bind fun d =>
      if d.1 && d.2.1.has .caseDecl then some d.2.2.toTerm else none := by
  refine List.filterMap_congr fun t _ => ?_
  obtain ⟨i, s⟩ := t
  cases s <;> rfl

/-- Whether a class or module with this to say is cleaned beside case classes of some names. -/
def cleansDeclaration (names : List Name) : Option (Bool × Flags × Name) → Bool
  | some (true, flags, _) => flags.has .caseDecl
  | some (false, flags, name) => names.contains name || flags.has .caseDecl
  | none => false

def dropsDeclaration (names : List Name) : Option (Bool × Flags × Name) → Bool
  | some (false, flags, name) => names.contains name && flags.has .synthetic
  | _ => false

theorem cleansDeclaration_of_drops {names : List Name} {d : Option (Bool × Flags × Name)}
    (h : dropsDeclaration names d = true) : cleansDeclaration names d = true := by
  unfold dropsDeclaration at h
  split at h
  next flags name =>
    have both := Bool.and_eq_true_iff.mp h
    rw [cleansDeclaration, both.1, Bool.true_or]
  next => simp at h

/-- Where a node stands, as far as it matters for case classes. -/
inductive Place where
  /-- Among some statements, maybe those of a declaration that loses its generated members. -/
  | statement (stats : List Tree) (ofCleaned : Bool)
  /-- As the body of a declaration that loses its generated members. -/
  | body
  /-- Inside of what is removed. -/
  | removed
  | other

namespace Place

/-- Whether a node is a case class, a case object, or the companion of a case class among the same
statements. -/
def treats (pl : Place) (n : Tree) : Bool :=
  match pl, n.shape with
  | .statement _ _, .classDef mods _ _ _ => mods.has .caseDecl
  | .statement stats _, .moduleDef mods name _ =>
    mods.has .caseDecl || (caseClassNames stats).contains name
  | _, _ => false

@[simp] theorem treats_body (n : Tree) : body.treats n = false := rfl

@[simp] theorem treats_removed (n : Tree) : removed.treats n = false := rfl

@[simp] theorem treats_other (n : Tree) : other.treats n = false := rfl

/-- Whether a node is a companion that nobody wrote. -/
def drops (pl : Place) (n : Tree) : Bool :=
  match pl, n.shape with
  | .statement stats _, .moduleDef mods name _ =>
    (caseClassNames stats).contains name && mods.has .synthetic
  | _, _ => false

theorem treats_statement (stats : List Tree) (ofCleaned : Bool) (n : Tree) :
    (statement stats ofCleaned).treats n =
      cleansDeclaration (caseClassNames stats) n.shape.declaration? := by
  obtain ⟨i, s⟩ := n
  cases s with
  | moduleDef mods name impl => exact Bool.or_comm ..
  | _ => rfl

theorem drops_statement (stats : List Tree) (ofCleaned : Bool) (n : Tree) :
    (statement stats ofCleaned).drops n =
      dropsDeclaration (caseClassNames stats) n.shape.declaration? := by
  obtain ⟨i, s⟩ := n
  cases s <;> rfl

theorem treats_of_drops {pl : Place} {n : Tree} (h : pl.drops n = true) : pl.treats n = true := by
  cases pl with
  | statement stats ofCleaned =>
    rw [drops_statement] at h
    rw [treats_statement]
    exact cleansDeclaration_of_drops h
  | _ => simp [drops] at h

def isBody : Place → Bool
  | .body => true
  | _ => false

end Place

namespace Conventions

variable (C : Conventions)

/-- Whether a node is a generated member of a declaration that loses them. -/
def strips (pl : Place) (n : Tree) : Bool :=
  match pl with
  | .statement _ true => C.isGeneratedMember n
  | _ => false

/-- Whether a node is removed, or inside of what is removed. -/
def removes (pl : Place) (n : Tree) : Bool :=
  match pl with
  | .removed => true
  | pl => pl.drops n || C.strips pl n

/-- The children of a node with their places. -/
def placed (pl : Place) (n : Tree) : List (Place × Tree) :=
  if C.removes pl n then n.children.map (Prod.mk .removed)
  else
    match n.shape with
    | .template parents self body =>
      (parents ++ [self]).map (Prod.mk .other) ++ body.map (Prod.mk (.statement body pl.isBody))
    | .packageDef pid stats =>
      [pid].map (Prod.mk .other) ++ stats.map (Prod.mk (.statement stats false))
    | .block stats expr => (stats ++ [expr]).map (Prod.mk (.statement (expr :: stats) false))
    | .classDef mods _ tparams impl =>
      (mods.annotations ++ tparams).map (Prod.mk .other) ++
        [(if pl.treats n then .body else .other, impl)]
    | .moduleDef mods _ impl =>
      mods.annotations.map (Prod.mk .other) ++ [(if pl.treats n then .body else .other, impl)]
    | s => s.children.map (Prod.mk .other)

theorem map_snd_placed (pl : Place) (n : Tree) : (C.placed pl n).map Prod.snd = n.children := by
  obtain ⟨i, s⟩ := n
  unfold placed
  split
  · simp [Function.comp_def]
  · cases s <;> simp [Tree.children, Shape.children, Function.comp_def]

end Conventions

/-- A node of a tree, with the way that leads to it from the root and the place where it stands. -/
structure Occurrence where
  path : List Nat
  place : Place
  node : Tree

namespace Conventions

variable (C : Conventions)

/-- The occurrences right below another one. -/
def below (o : Occurrence) : List Occurrence :=
  (C.placed o.place o.node).mapIdx fun k q => ⟨o.path ++ [k], q.1, q.2⟩

theorem map_below (o : Occurrence) :
    (C.below o).map (fun b => (b.place, b.node)) = C.placed o.place o.node := by
  refine List.ext_getElem? fun k => ?_
  simp [below, Function.comp_def]

theorem map_node_below (o : Occurrence) : (C.below o).map Occurrence.node = o.node.children := by
  rw [← C.map_snd_placed o.place, ← C.map_below, List.map_map]
  rfl

theorem node_mem_children {o b : Occurrence} (h : b ∈ C.below o) : b.node ∈ o.node.children :=
  C.map_node_below o ▸ List.mem_map_of_mem h

/-- An occurrence and all below it, parents first, from left to right. -/
def occurrencesFrom (o : Occurrence) : List Occurrence :=
  o :: (C.below o).attach.flatMap fun ⟨b, _⟩ => occurrencesFrom b
termination_by o.node.size
decreasing_by exact Tree.size_lt_of_mem_children (C.node_mem_children ‹_›)

/-- All nodes of a tree with their places. The tree itself is a statement of what it is put
into. -/
def occurrences (t : Tree) : List Occurrence := C.occurrencesFrom ⟨[], .statement [t] false, t⟩

theorem occurrencesFrom_eq (o : Occurrence) :
    C.occurrencesFrom o = o :: (C.below o).flatMap C.occurrencesFrom := by
  rw [occurrencesFrom, List.flatMap_subtype, List.unattach_attach]
  exact fun _ _ => rfl

theorem mem_occurrencesFrom {o p : Occurrence} :
    p ∈ C.occurrencesFrom o ↔ p = o ∨ ∃ b ∈ C.below o, p ∈ C.occurrencesFrom b := by
  rw [occurrencesFrom_eq, List.mem_cons, List.mem_flatMap]

theorem occurrence_induct {motive : Occurrence → Prop}
    (step : ∀ o, (∀ b ∈ C.below o, motive b) → motive o) (o : Occurrence) : motive o := by
  refine step o fun b hb => ?_
  exact occurrence_induct step b
termination_by o.node.size
decreasing_by exact Tree.size_lt_of_mem_children (C.node_mem_children ‹_›)

theorem mem_below {o b : Occurrence} :
    b ∈ C.below o ↔ ∃ k q, (C.placed o.place o.node)[k]? = some q ∧
      b = ⟨o.path ++ [k], q.1, q.2⟩ := by
  simp only [below, List.mem_mapIdx, List.getElem?_eq_some_iff]
  constructor
  · rintro ⟨k, hk, rfl⟩
    exact ⟨k, _, ⟨hk, rfl⟩, rfl⟩
  · rintro ⟨k, q, ⟨hk, rfl⟩, rfl⟩
    exact ⟨k, hk, rfl⟩

theorem path_prefix_of_mem {o b : Occurrence} (h : b ∈ C.occurrencesFrom o) :
    o.path <+: b.path := by
  induction o using C.occurrence_induct with
  | step o ih =>
    rcases C.mem_occurrencesFrom.mp h with rfl | ⟨c, hc, h⟩
    · exact List.prefix_refl _
    · obtain ⟨k, q, -, rfl⟩ := C.mem_below.mp hc
      exact (List.prefix_append _ _).trans (ih _ hc h)

theorem mem_occurrencesFrom_iff_below {o b : Occurrence} :
    b ∈ C.occurrencesFrom o ↔ b = o ∨ ∃ a ∈ C.occurrencesFrom o, b ∈ C.below a := by
  constructor
  · intro h
    induction o using C.occurrence_induct with
    | step o ih =>
      rcases C.mem_occurrencesFrom.mp h with rfl | ⟨c, hc, h⟩
      · exact .inl rfl
      · rcases ih c hc h with rfl | ⟨a, ha, hb⟩
        · exact .inr ⟨o, C.mem_occurrencesFrom.mpr (.inl rfl), hc⟩
        · exact .inr ⟨a, C.mem_occurrencesFrom.mpr (.inr ⟨c, hc, ha⟩), hb⟩
  · rintro (rfl | ⟨a, ha, hb⟩)
    · exact C.mem_occurrencesFrom.mpr (.inl rfl)
    · induction o using C.occurrence_induct with
      | step o ih =>
        rcases C.mem_occurrencesFrom.mp ha with rfl | ⟨c, hc, ha⟩
        · exact C.mem_occurrencesFrom.mpr (.inr ⟨b, hb, C.mem_occurrencesFrom.mpr (.inl rfl)⟩)
        · exact C.mem_occurrencesFrom.mpr (.inr ⟨c, hc, ih c hc ha⟩)

theorem map_node_occurrencesFrom (o : Occurrence) :
    (C.occurrencesFrom o).map Occurrence.node = o.node.preorder := by
  induction o using C.occurrence_induct with
  | step o ih =>
    rw [occurrencesFrom_eq, Tree.preorder_eq, List.map_cons, List.map_flatMap,
      List.flatMap_congr fun b hb => ih b hb, ← C.map_node_below o, List.flatMap_map]

theorem map_node_occurrences (t : Tree) : (C.occurrences t).map Occurrence.node = t.preorder :=
  C.map_node_occurrencesFrom _

/-- What is left of a node when the cleaning comes to it, at most one tree. -/
def standing (pl : Place) (n : Tree) : List Tree :=
  match pl with
  | .statement stats _ =>
    if C.strips pl n then [] else [C.cleanStatement (caseClassNames stats) n]
  | .body => [C.withoutGenerated n]
  | .removed => []
  | .other => [n]

theorem standing_eq (pl : Place) (n : Tree) :
    C.standing pl n = [] ∨ ∃ r, C.standing pl n = [r] := by
  unfold standing
  split
  · split <;> simp
  all_goals simp

/-- What is left of some nodes, given with their places. -/
def standings (l : List (Place × Tree)) : List Tree := l.flatMap fun q => C.standing q.1 q.2

theorem standings_append (l k : List (Place × Tree)) :
    C.standings (l ++ k) = C.standings l ++ C.standings k := List.flatMap_append

theorem standings_removed (l : List Tree) : C.standings (l.map (Prod.mk .removed)) = [] := by
  simp [standings, standing]

theorem standings_other (l : List Tree) : C.standings (l.map (Prod.mk .other)) = l := by
  simp [standings, List.flatMap_map, standing]

theorem standings_statement (stats l : List Tree) :
    C.standings (l.map (Prod.mk (.statement stats false))) =
      l.map (C.cleanStatement (caseClassNames stats)) := by
  rw [standings, List.flatMap_map, List.map_eq_flatMap]
  rfl

theorem standings_member (stats l : List Tree) :
    C.standings (l.map (Prod.mk (.statement stats true))) =
      (l.filter fun t => !C.isGeneratedMember t).map (C.cleanStatement (caseClassNames stats)) := by
  induction l with
  | nil => rfl
  | cons n l ih =>
    rw [List.map_cons, standings, List.flatMap_cons, ← standings, ih, List.filter_cons]
    cases generated : C.isGeneratedMember n <;> simp [standing, strips, generated]

/-- Generated members are methods, so no case class is lost with them. -/
theorem caseClassNames_filter (l : List Tree) :
    caseClassNames (l.filter fun t => !C.isGeneratedMember t) = caseClassNames l := by
  rw [caseClassNames, List.filterMap_filter]
  refine List.filterMap_congr fun t _ => ?_
  cases generated : C.isGeneratedMember t with
  | false => rfl
  | true =>
    unfold isGeneratedMember at generated
    split at generated
    next h => simp [h]
    next => simp at generated

/-- Where case classes are of no concern, nothing happens to a statement. -/
theorem cleanStatement_of_not_treats {stats : List Tree} {ofCleaned : Bool} {n : Tree}
    (h : (Place.statement stats ofCleaned).treats n = false) :
    C.cleanStatement (caseClassNames stats) n = n := by
  obtain ⟨i, s⟩ := n
  cases s <;> simp_all [Place.treats, cleanStatement]

theorem strips_of_not_removes {pl : Place} {n : Tree} (h : C.removes pl n = false) :
    pl ≠ .removed ∧ pl.drops n = false ∧ C.strips pl n = false := by
  cases pl <;> simp_all [removes]

theorem standing_of_untreated {pl : Place} {i : Info} {s : Shape Tree}
    (kept : C.removes pl ⟨i, s⟩ = false) (untreated : pl.treats ⟨i, s⟩ = false)
    (template : ∀ parents self body, s ≠ .template parents self body) :
    C.standing pl ⟨i, s⟩ = [⟨i, s⟩] := by
  obtain ⟨-, -, stripped⟩ := C.strips_of_not_removes kept
  cases pl with
  | statement stats ofCleaned =>
    simp [standing, stripped, C.cleanStatement_of_not_treats untreated]
  | body =>
    cases s with
    | template parents self body => exact absurd rfl (template parents self body)
    | _ => rfl
  | removed => simp [removes] at kept
  | other => rfl

/-- What becomes of a statement depends on what it says about itself. -/
theorem cleanStatement_eq (names : List Name) (t : Tree) :
    C.cleanStatement names t =
      if dropsDeclaration names t.shape.declaration? then .empty
      else if cleansDeclaration names t.shape.declaration? then
        ⟨t.info.mark .cleaned, t.shape.mapImpl C.withoutGenerated⟩
      else t := by
  obtain ⟨i, s⟩ := t
  cases s <;> rfl

theorem standing_of_treats {pl : Place} {n : Tree} (treated : pl.treats n = true) :
    C.standing pl n = [if pl.drops n then .empty
      else ⟨n.info.mark .cleaned, n.shape.mapImpl C.withoutGenerated⟩] := by
  cases pl with
  | statement stats ofCleaned =>
    have kept : C.strips (.statement stats ofCleaned) n = false := by
      obtain ⟨i, s⟩ := n
      cases s <;> cases ofCleaned <;> first | rfl | simp [Place.treats] at treated
    rw [Place.treats_statement] at treated
    simp [standing, kept, cleanStatement_eq, Place.drops_statement, treated]
  | _ => simp [Place.treats] at treated

theorem standings_impl (treated : Bool) (impl : Tree) :
    C.standings [(if treated then Place.body else .other, impl)] =
      [if treated then C.withoutGenerated impl else impl] := by
  cases treated <;> rfl

theorem standing_template {pl : Place} {i : Info} {parents : List Tree} {self : Tree}
    {body : List Tree} (kept : C.removes pl ⟨i, .template parents self body⟩ = false) :
    C.standing pl ⟨i, .template parents self body⟩ = [⟨i, .template parents self
      (if pl.isBody then body.filter fun t => !C.isGeneratedMember t else body)⟩] := by
  cases pl with
  | statement stats ofCleaned =>
    obtain ⟨-, -, stripped⟩ := C.strips_of_not_removes kept
    simp [standing, stripped, cleanStatement, Place.isBody]
  | body => rfl
  | removed => simp [removes] at kept
  | other => rfl

/-- A companion that is removed leaves an empty statement, and all else leaves nothing. -/
theorem standing_of_removes {pl : Place} {n : Tree} (h : C.removes pl n = true) :
    C.standing pl n = [] ∨ C.standing pl n = [.empty] := by
  cases pl with
  | removed => exact .inl rfl
  | statement stats ofCleaned =>
    simp only [removes, Bool.or_eq_true] at h
    rcases h with dropped | stripped
    · rw [C.standing_of_treats (Place.treats_of_drops dropped), if_pos dropped]
      exact .inr rfl
    · exact .inl (by simp [standing, stripped])
  | _ => simp [removes, Place.drops, strips] at h

/-- What the cleaning goes on with below a node is what is left of its children. -/
theorem children_standing (pl : Place) (n : Tree) :
    (C.standing pl n).flatMap (fun r => (C.cleanShape r.shape).children) =
      C.standings (C.placed pl n) := by
  cases removed : C.removes pl n with
  | true =>
    rw [placed, if_pos removed, standings_removed]
    rcases C.standing_of_removes removed with none | empty
    · rw [none]
      rfl
    · rw [empty]
      rfl
  | false =>
    rw [placed, if_neg (by simp [removed])]
    obtain ⟨i, s⟩ := n
    cases s with
    | template parents self body =>
      rw [C.standing_template removed, standings_append, standings_other]
      cases pl.isBody <;> simp [standings_member, standings_statement, cleanShape, cleanStatements,
        caseClassNames_filter, Shape.children]
    | packageDef pid stats =>
      rw [C.standing_of_untreated removed (by cases pl <;> rfl) (by simp)]
      rw [standings_append, standings_other, standings_statement]
      simp [cleanShape, cleanStatements, Shape.children]
    | block stats expr =>
      rw [C.standing_of_untreated removed (by cases pl <;> rfl) (by simp), standings_statement,
        List.map_append]
      simp [cleanShape, Shape.children]
    | classDef mods name tparams impl =>
      rw [standings_append, standings_other, standings_impl]
      cases treated : pl.treats ⟨i, .classDef mods name tparams impl⟩ with
      | true =>
        rw [C.standing_of_treats treated, (C.strips_of_not_removes removed).2.1]
        simp [Shape.mapImpl, cleanShape, Shape.children]
      | false =>
        rw [C.standing_of_untreated removed treated (by simp)]
        simp [cleanShape, Shape.children]
    | moduleDef mods name impl =>
      rw [standings_append, standings_other, standings_impl]
      cases treated : pl.treats ⟨i, .moduleDef mods name impl⟩ with
      | true =>
        rw [C.standing_of_treats treated, (C.strips_of_not_removes removed).2.1]
        simp [Shape.mapImpl, cleanShape, Shape.children]
      | false =>
        rw [C.standing_of_untreated removed treated (by simp)]
        simp [cleanShape, Shape.children]
    | _ =>
      rw [C.standing_of_untreated removed (by cases pl <;> rfl) (by simp), standings_other]
      simp [cleanShape]

/-- What is collected along the cleaning is collected from what is left of each node. -/
theorem flatMap_standing {β : Type} (collect here : Tree → List β)
    (step : ∀ i s, collect ⟨i, s⟩ = here ⟨i, s⟩ ++ (C.cleanShape s).children.flatMap collect)
    (o : Occurrence) :
    (C.standing o.place o.node).flatMap collect =
      (C.occurrencesFrom o).flatMap fun b => (C.standing b.place b.node).flatMap here := by
  induction o using C.occurrence_induct with
  | step o ih =>
    have left : C.standings (C.placed o.place o.node) =
        (C.below o).flatMap fun b => C.standing b.place b.node := by
      rw [standings, ← C.map_below, List.flatMap_map]
    rw [occurrencesFrom_eq, List.flatMap_cons, List.flatMap_assoc, ← List.flatMap_congr ih,
      ← List.flatMap_assoc, ← left, ← C.children_standing]
    rcases C.standing_eq o.place o.node with none | ⟨⟨i, s⟩, one⟩
    · simp [none]
    · simp [one, step]

end Conventions

end TreeRepair
