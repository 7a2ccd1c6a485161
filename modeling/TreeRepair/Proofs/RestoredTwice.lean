import TreeRepair.Proofs.DetachedReferences
import TreeRepair.Proofs.EndingTasks

namespace TreeRepair

namespace Shape

variable {α : Type}

/-- The body of a class or module. -/
def impl? : Shape α → Option α
  | .classDef _ _ _ impl | .moduleDef _ _ impl => some impl
  | _ => none

theorem declaration?_mapChildren (f : α → α) (s : Shape α) :
    (s.mapChildren f).declaration? = s.declaration? := by
  cases s <;> rfl

theorem impl?_mapChildren (f : α → α) (s : Shape α) :
    (s.mapChildren f).impl? = s.impl?.map f := by
  cases s <;> rfl

theorem mem_children_of_impl? {s : Shape α} {impl : α} (h : s.impl? = some impl) :
    impl ∈ s.children := by
  cases s <;> simp_all [impl?, children]

theorem impl?_mapImpl (f : α → α) (s : Shape α) : (s.mapImpl f).impl? = s.impl?.map f := by
  cases s <;> rfl

theorem mapImpl_eq_self {f : α → α} {s : Shape α}
    (h : ∀ impl, s.impl? = some impl → f impl = impl) : s.mapImpl f = s := by
  cases s <;> simp_all [mapImpl, impl?]

end Shape

theorem caseClassNames_map {l : List Tree} {f : Tree → Tree}
    (h : ∀ c ∈ l, (f c).shape.declaration? = c.shape.declaration?) :
    caseClassNames (l.map f) = caseClassNames l := by
  rw [caseClassNames_eq, caseClassNames_eq, List.filterMap_map]
  refine List.filterMap_congr fun c hc => ?_
  rw [Function.comp, h c hc]

theorem TypeSyntaxNode.declaration? {P : Ty → Prop} {n : Tree} (h : TypeSyntaxNode P n) :
    n.shape.declaration? = none := by
  have kind := h.kind
  obtain ⟨i, s⟩ := n
  cases s <;> first | rfl | simp [Shape.isTypeSyntax] at kind

/-- The tree, marked as cleaned if another one is. -/
def Tree.markedLike (d c : Tree) : Tree := if c.info.marks.cleaned then d.markedCleaned else d

namespace Conventions

variable (C : Conventions)

theorem declaration?_cleanStatement (names : List Name) (t : Tree) :
    (C.cleanStatement names t).shape.declaration? =
      if dropsDeclaration names t.shape.declaration? then none else t.shape.declaration? := by
  rw [cleanStatement_eq]
  split
  · rfl
  · split
    · exact Shape.declaration?_mapImpl ..
    · rfl

theorem caseClassNames_cleanStatement (names : List Name) (l : List Tree) :
    caseClassNames (l.map (C.cleanStatement names)) = caseClassNames l := by
  rw [caseClassNames_eq, caseClassNames_eq, List.filterMap_map]
  refine List.filterMap_congr fun c _ => ?_
  rw [Function.comp, declaration?_cleanStatement]
  split
  next dropped =>
    unfold dropsDeclaration at dropped
    split at dropped
    next found => simp [found]
    next => simp at dropped
  next => rfl

theorem declaration?_cleanShape (s : Shape Tree) :
    (C.cleanShape s).declaration? = s.declaration? := by
  cases s <;> rfl

theorem impl?_cleanShape (s : Shape Tree) : (C.cleanShape s).impl? = s.impl? := by
  cases s <;> rfl

/-- A class or module has lost the members that are generated for case classes. -/
def Stripped (t : Tree) : Prop := ∀ impl, t.shape.impl? = some impl → C.withoutGenerated impl = impl

/-- A statement that was cleaned is only marked when it is cleaned again. -/
theorem cleanStatement_again {names : List Name} {n d : Tree}
    (unmarked : n.info.marks.cleaned = false)
    (same : d.shape.declaration? = (C.cleanStatement names n).shape.declaration?)
    (stripped : (C.cleanStatement names n).info.marks.cleaned = true → C.Stripped d) :
    C.cleanStatement names d = d.markedLike (C.cleanStatement names n) := by
  rw [declaration?_cleanStatement] at same
  rw [C.cleanStatement_eq names n] at stripped ⊢
  rw [C.cleanStatement_eq names d, same]
  by_cases dropped : dropsDeclaration names n.shape.declaration? = true
  · rw [if_pos dropped, if_pos dropped]
    rfl
  by_cases cleaned : cleansDeclaration names n.shape.declaration? = true
  · rw [if_neg dropped, if_pos cleaned] at stripped
    simp only [if_neg dropped, if_pos cleaned]
    rw [Shape.mapImpl_eq_self (stripped rfl)]
    rfl
  · simp only [if_neg dropped, if_neg cleaned, Tree.markedLike, unmarked]
    rfl

theorem info_withoutGenerated (t : Tree) : (C.withoutGenerated t).info = t.info := by
  unfold withoutGenerated
  split <;> rfl

theorem withoutGenerated_eq_self {t : Tree} (h : ∀ parents self body,
    t.shape = .template parents self body → ∀ m ∈ body, C.isGeneratedMember m = false) :
    C.withoutGenerated t = t := by
  unfold withoutGenerated
  split
  next i parents self body =>
    rw [List.filter_eq_self.mpr fun m hm => by simp [h parents self body rfl m hm]]
  next => rfl

theorem withoutGenerated_withoutGenerated (t : Tree) :
    C.withoutGenerated (C.withoutGenerated t) = C.withoutGenerated t := by
  refine C.withoutGenerated_eq_self fun parents self body shape m hm => ?_
  unfold withoutGenerated at shape
  split at shape
  · cases shape
    simpa using (List.mem_filter.mp hm).2
  next other =>
    obtain ⟨i, s⟩ := t
    cases shape
    exact absurd rfl (other i parents self body)

/-- What is left of a node: an empty statement, the body of what is cleaned, a declaration that is
marked, or the node itself. -/
theorem mem_standing {pl : Place} {n c : Tree} (h : c ∈ C.standing pl n) :
    c = .empty ∨ c = C.withoutGenerated n ∨
      c = ⟨n.info.mark .cleaned, n.shape.mapImpl C.withoutGenerated⟩ ∨ c = n := by
  cases pl with
  | statement stats ofCleaned =>
    simp only [standing] at h
    split at h
    · simp at h
    · rw [List.mem_singleton.mp h, cleanStatement_eq]
      split
      · exact .inl rfl
      · split
        · exact .inr (.inr (.inl rfl))
        · exact .inr (.inr (.inr rfl))
  | body => exact .inr (.inl (List.mem_singleton.mp h))
  | removed => simp [standing] at h
  | other => exact .inr (.inr (.inr (List.mem_singleton.mp h)))

/-- A tree as the cleaning comes to it, where nothing was marked before. -/
def Met (c : Tree) : Prop :=
  ∃ pl n, (∀ m ∈ n.preorder, m.info.marks.cleaned = false) ∧ c ∈ C.standing pl n

variable {C}

theorem Met.child {c k : Tree} (h : C.Met c) (hk : k ∈ (C.cleanShape c.shape).children) :
    C.Met k := by
  obtain ⟨pl, n, hn, hc⟩ := h
  have left : k ∈ C.standings (C.placed pl n) := by
    rw [← children_standing]
    exact List.mem_flatMap.mpr ⟨c, hc, hk⟩
  obtain ⟨q, hq, hk⟩ := List.mem_flatMap.mp left
  have child : q.2 ∈ n.children := C.map_snd_placed pl n ▸ List.mem_map_of_mem hq
  exact ⟨q.1, q.2, fun m hm => hn m (Tree.mem_preorder_of_mem_children child hm), hk⟩

theorem Met.stripped {c : Tree} (h : C.Met c) (marked : c.info.marks.cleaned = true) :
    C.Stripped c := by
  obtain ⟨pl, n, hn, hc⟩ := h
  have before := hn n n.self_mem_preorder
  rcases C.mem_standing hc with rfl | rfl | rfl | rfl
  · simp [Tree.empty, Tree.bare] at marked
  · rw [info_withoutGenerated, before] at marked
    simp at marked
  · intro impl found
    rw [Shape.impl?_mapImpl] at found
    obtain ⟨impl, -, rfl⟩ := Option.map_eq_some_iff.mp found
    exact C.withoutGenerated_withoutGenerated impl
  · rw [before] at marked
    simp at marked

theorem mem_children_withoutGenerated {t d : Tree} (h : d ∈ (C.withoutGenerated t).children) :
    d ∈ t.children := by
  unfold withoutGenerated at h
  split at h
  · simp only [Tree.children, Shape.children, List.mem_append, List.mem_cons, List.mem_filter]
      at h ⊢
    grind
  next => exact h

theorem mem_children_mapImpl {s : Shape Tree} {f : Tree → Tree} {d : Tree}
    (h : d ∈ (s.mapImpl f).children) : d ∈ s.children ∨ ∃ impl ∈ s.children, d = f impl := by
  cases s with
  | classDef mods name tparams impl =>
    simp only [Shape.mapImpl, Shape.children, List.mem_append, List.mem_singleton] at h ⊢
    grind
  | moduleDef mods name impl =>
    simp only [Shape.mapImpl, Shape.children, List.mem_append, List.mem_singleton] at h ⊢
    grind
  | _ => exact .inl h

theorem Met.unmarked_children {c : Tree} (h : C.Met c) {d : Tree} (hd : d ∈ c.children) :
    d.info.marks.cleaned = false := by
  obtain ⟨pl, n, hn, hc⟩ := h
  have before {m : Tree} (hm : m ∈ n.children) : m.info.marks.cleaned = false :=
    hn m (Tree.mem_preorder_of_mem_children hm m.self_mem_preorder)
  rcases C.mem_standing hc with rfl | rfl | rfl | rfl
  · simp [Tree.empty, Tree.bare, Tree.children, Shape.children] at hd
  · exact before (mem_children_withoutGenerated hd)
  · rcases mem_children_mapImpl hd with hd | ⟨impl, himpl, rfl⟩
    · exact before hd
    · rw [info_withoutGenerated]
      exact before himpl
  · exact before hd

variable (C) in
/-- What a run may make of a tree that the cleaning comes to. A node keeps its position and says
the same apart from its children, and one that is marked keeps its symbol. A resolved type may be
written out. -/
inductive Restores : Tree → Tree → Prop
  | node {i j : Info} {s : Shape Tree} (f : Tree → Tree) :
      j.pos = i.pos → j.marks.cleaned = false → (i.marks.cleaned = true → j.symbol = i.symbol) →
      (∀ c ∈ (C.cleanShape s).children, Restores c (f c)) →
        Restores ⟨i, s⟩ ⟨j, (C.cleanShape s).mapChildren f⟩
  | written {i : Info} {w : Option Tree} {d : Tree} :
      i.marks.cleaned = false → TypeSyntax (fun _ => True) d → Restores ⟨i, .typeTree w⟩ d

theorem Restores.declaration? {c d : Tree} (h : C.Restores c d) :
    d.shape.declaration? = c.shape.declaration? := by
  cases h with
  | node f _ _ _ _ => exact (Shape.declaration?_mapChildren ..).trans (C.declaration?_cleanShape _)
  | written _ syntactic => exact (syntactic d d.self_mem_preorder).declaration?

theorem not_generated_of_typeSyntax {P : Ty → Prop} {n : Tree} (h : TypeSyntaxNode P n) :
    C.isGeneratedMember n = false := by
  have kind := h.kind
  unfold isGeneratedMember
  split
  next mods name tparams vparamss tpt rhs shape =>
    have flags : (Flags.single .deferred).has .synthetic = false := by decide
    simp only [shape, Shape.isTypeSyntax, Bool.and_eq_true, beq_iff_eq] at kind
    simp [Modifiers.has, kind.1, flags]
  next => rfl

theorem not_generated_cleanStatement {m : Tree} (h : C.isGeneratedMember m = false)
    (names : List Name) : C.isGeneratedMember (C.cleanStatement names m) = false := by
  rw [cleanStatement_eq]
  split
  · rfl
  · split
    · obtain ⟨i, s⟩ := m
      cases s <;> first | rfl | exact h
    · exact h

theorem Restores.not_generated {c d : Tree} (h : C.Restores c d)
    (before : C.isGeneratedMember c = false) : C.isGeneratedMember d = false := by
  cases h with
  | @node i j s f _ _ _ _ => cases s <;> first | rfl | exact before
  | written _ syntactic => exact not_generated_of_typeSyntax (syntactic d d.self_mem_preorder)

theorem Restores.withoutGenerated {c d : Tree} (h : C.Restores c d)
    (before : C.withoutGenerated c = c) : C.withoutGenerated d = d := by
  refine C.withoutGenerated_eq_self fun parents self body shape m hm => ?_
  cases h with
  | @node i j s f _ _ _ below =>
    cases s with
    | template parents self body =>
      simp only [cleanShape, cleanStatements, Shape.mapChildren, Shape.template.injEq] at shape
      obtain ⟨-, -, rfl⟩ := shape
      obtain ⟨k, hk, rfl⟩ := List.mem_map.mp hm
      have kept := below k (by simp [cleanShape, cleanStatements, Shape.children]; grind)
      obtain ⟨o, ho, rfl⟩ := List.mem_map.mp hk
      refine kept.not_generated (not_generated_cleanStatement ?_ _)
      simp only [Conventions.withoutGenerated, Tree.mk.injEq, Shape.template.injEq, true_and]
        at before
      simpa using List.filter_eq_self.mp before o ho
    | _ => simp [cleanShape, Shape.mapChildren] at shape
  | written _ syntactic =>
    refine not_generated_of_typeSyntax (syntactic m ?_)
    refine Tree.mem_preorder_of_mem_children ?_ m.self_mem_preorder
    simp [Tree.children, shape, Shape.children, hm]

theorem Restores.stripped {c d : Tree} (h : C.Restores c d) (before : C.Stripped c) :
    C.Stripped d := by
  intro impl found
  cases h with
  | @node i j s f _ _ _ below =>
    rw [Shape.impl?_mapChildren, impl?_cleanShape] at found
    obtain ⟨impl, himpl, rfl⟩ := Option.map_eq_some_iff.mp found
    refine (below impl ?_).withoutGenerated (before impl himpl)
    exact Shape.mem_children_of_impl? ((C.impl?_cleanShape s).trans himpl)
  | written _ syntactic =>
    have none := (syntactic d d.self_mem_preorder).declaration?
    obtain ⟨i, s⟩ := d
    cases s <;> simp_all [Shape.declaration?, Shape.impl?]

theorem markedLike_of_unmarked {c : Tree} (h : c.info.marks.cleaned = false) (d : Tree) :
    d.markedLike c = d := by
  simp [Tree.markedLike, h]

/-- Cleaning a node again only marks the statements that were marked before. -/
theorem cleanShape_again {s : Shape Tree} {f : Tree → Tree}
    (unmarked : ∀ c ∈ s.children, c.info.marks.cleaned = false)
    (stripped : ∀ c ∈ (C.cleanShape s).children, c.info.marks.cleaned = true → C.Stripped c)
    (restores : ∀ c ∈ (C.cleanShape s).children, C.Restores c (f c)) :
    C.cleanShape ((C.cleanShape s).mapChildren f) =
      (C.cleanShape s).mapChildren fun c => (f c).markedLike c := by
  -- Children that are no statements are left as they are by both runs.
  have alone (c : Tree) (hc : c ∈ s.children) : (f c).markedLike c = f c :=
    markedLike_of_unmarked (unmarked c hc) _
  have kept {l : List Tree} (hl : ∀ c ∈ l, c ∈ s.children) :
      l.map f = l.map fun c => (f c).markedLike c :=
    List.map_congr_left fun c hc => (alone c (hl c hc)).symm
  have statement {names : List Name} {m : Tree} (hm : m ∈ s.children)
      (hc : C.cleanStatement names m ∈ (C.cleanShape s).children) :
      C.cleanStatement names (f (C.cleanStatement names m)) =
        (f (C.cleanStatement names m)).markedLike (C.cleanStatement names m) :=
    C.cleanStatement_again (unmarked m hm) (restores _ hc).declaration? fun marked =>
      (restores _ hc).stripped (stripped _ hc marked)
  -- A companion that is dropped is no case class, so the names are those of the first run.
  have names {stats : List Tree} (names : List Name)
      (hl : ∀ m ∈ stats, C.cleanStatement names m ∈ (C.cleanShape s).children) :
      caseClassNames ((stats.map (C.cleanStatement names)).map f) = caseClassNames stats := by
    rw [caseClassNames_map, caseClassNames_cleanStatement]
    intro c hc
    obtain ⟨m, hm, rfl⟩ := List.mem_map.mp hc
    exact (restores _ (hl m hm)).declaration?
  have statements {stats l : List Tree} (hl : ∀ m ∈ l, m ∈ s.children)
      (hc : ∀ m ∈ stats, C.cleanStatement (caseClassNames stats) m ∈ (C.cleanShape s).children)
      (sub : ∀ m ∈ l, m ∈ stats) :
      ((l.map (C.cleanStatement (caseClassNames stats))).map f).map
          (C.cleanStatement (caseClassNames stats)) =
        (l.map (C.cleanStatement (caseClassNames stats))).map fun c => (f c).markedLike c := by
    simp only [List.map_map]
    exact List.map_congr_left fun m hm => statement (hl m hm) (hc m (sub m hm))
  cases s with
  | template parents self body =>
    have cleaned (m : Tree) (hm : m ∈ body) : C.cleanStatement (caseClassNames body) m ∈
        (C.cleanShape (.template parents self body)).children := by
      simp only [cleanShape, cleanStatements, Shape.children, List.mem_append, List.mem_cons]
      exact .inr (.inr (List.mem_map_of_mem hm))
    simp only [cleanShape, cleanStatements, Shape.mapChildren]
    rw [names _ cleaned, statements (by simp [Shape.children]; grind) cleaned fun _ h => h,
      kept (l := parents) (by simp [Shape.children]; grind), alone self (by simp [Shape.children])]
  | packageDef pid stats =>
    have cleaned (m : Tree) (hm : m ∈ stats) : C.cleanStatement (caseClassNames stats) m ∈
        (C.cleanShape (.packageDef pid stats)).children :=
      List.mem_cons_of_mem _ (List.mem_map_of_mem hm)
    simp only [cleanShape, cleanStatements, Shape.mapChildren]
    rw [names _ cleaned, statements (by simp [Shape.children]; grind) cleaned fun _ h => h,
      alone pid (by simp [Shape.children])]
  | block stats expr =>
    have cleaned (m : Tree) (hm : m ∈ expr :: stats) :
        C.cleanStatement (caseClassNames (expr :: stats)) m ∈
          (C.cleanShape (.block stats expr)).children := by
      simp only [cleanShape, Shape.children, List.mem_append, List.mem_map, List.mem_singleton]
      rcases List.mem_cons.mp hm with rfl | hm
      · exact .inr rfl
      · exact .inl ⟨m, hm, rfl⟩
    have same := names _ cleaned
    simp only [List.map_cons] at same
    simp only [cleanShape, Shape.mapChildren]
    rw [same, statements (by simp [Shape.children]; grind) cleaned fun _ h => .tail _ h,
      statement (by simp [Shape.children]) (cleaned expr (List.mem_cons_self ..))]
  | _ => exact Shape.mapChildren_congr fun c hc => (alone c hc).symm

theorem Met.cleanShape_again {c : Tree} {f : Tree → Tree} (met : C.Met c)
    (restores : ∀ k ∈ (C.cleanShape c.shape).children, C.Restores k (f k)) :
    C.cleanShape ((C.cleanShape c.shape).mapChildren f) =
      (C.cleanShape c.shape).mapChildren fun k => (f k).markedLike k :=
  Conventions.cleanShape_again (fun _ hd => met.unmarked_children hd)
    (fun _ hk => (met.child hk).stripped) restores

theorem markedLike_mk (i j : Info) (s u : Shape Tree) :
    (⟨j, u⟩ : Tree).markedLike ⟨i, s⟩ = ⟨if i.marks.cleaned then j.mark .cleaned else j, u⟩ := by
  unfold Tree.markedLike
  split <;> rfl

/-- What is misplaced stays so, and is found again. -/
theorem Restores.misplaced {c d : Tree} (h : C.Restores c d) (met : C.Met c) :
    C.misplaced (d.markedLike c) = C.misplaced c := by
  induction h with
  | @node i j s f pos plain _ below ih =>
    have again := met.cleanShape_again below
    have name : ((C.cleanShape s).mapChildren f).caseName? = s.caseName? := by
      rw [Shape.caseName?_eq, Shape.declaration?_mapChildren, declaration?_cleanShape,
        ← Shape.caseName?_eq]
    rw [markedLike_mk, misplaced_mk, misplaced_mk, again, Shape.children_mapChildren,
      List.flatMap_map, List.flatMap_congr fun k hk => ih k hk (met.child hk), name]
    cases marked : i.marks.cleaned with
    | true => rfl
    | false => simp [plain, pos]
  | written unmarked syntactic =>
    rw [markedLike_of_unmarked unmarked, syntactic.misplaced, misplaced_mk]
    simp [Shape.caseName?, cleanShape, Shape.children]

theorem Restores.symbol {c d : Tree} (h : C.Restores c d) (marked : c.info.marks.cleaned = true) :
    d.info.symbol = c.info.symbol := by
  cases h with
  | node _ _ _ symbol _ => exact symbol marked
  | written unmarked _ => simp [unmarked] at marked

theorem cleaned_induct {motive : Tree → Prop}
    (step : ∀ i s, (∀ c ∈ (C.cleanShape s).children, motive c) → motive ⟨i, s⟩) (t : Tree) :
    motive t := by
  obtain ⟨i, s⟩ := t
  refine step i s fun c hc => ?_
  exact cleaned_induct step c
termination_by t.size
decreasing_by exact C.size_lt_of_mem_cleanShape hc

variable (C) in
/-- What the cleaning makes of a tree inside of a cleaned declaration. -/
def swept (t : Tree) : Tree := (C.cleanTree t).sweep

theorem swept_mk (i : Info) (s : Shape Tree) :
    C.swept ⟨i, s⟩ = ⟨i.unmark .cleaned, (C.cleanShape s).mapChildren C.swept⟩ := by
  rw [swept, cleanTree_mk, sweep_mk, Shape.mapChildren_mapChildren]
  rfl

theorem restores_swept (c : Tree) : C.Restores c (C.swept c) := by
  induction c using C.cleaned_induct with
  | step i s ih =>
    rw [swept_mk]
    exact .node C.swept rfl rfl (fun _ => rfl) ih

theorem swept_again {c : Tree} (met : C.Met c) :
    C.swept ((C.swept c).markedLike c) = C.swept c := by
  induction c using C.cleaned_induct with
  | step i s ih =>
    have again := met.cleanShape_again fun k _ => C.restores_swept k
    have info : (if i.marks.cleaned then (i.unmark .cleaned).mark .cleaned
        else i.unmark .cleaned).unmark .cleaned = i.unmark .cleaned := by
      split <;> rfl
    rw [swept_mk, markedLike_mk, swept_mk, again, Shape.mapChildren_mapChildren, info,
      Shape.mapChildren_congr fun k hk => ih k hk (met.child hk)]

end Conventions

namespace Setting

variable {W : Setting} {symbols : List SymbolId}

theorem ownSymbols_congr {n m : Tree} (symbol : n.info.symbol = m.info.symbol)
    (same : n.shape.declaration? = m.shape.declaration?) : W.ownSymbols n = W.ownSymbols m := by
  have own (n : Tree) : W.ownSymbols n = n.symbol.toList ++
      if n.shape.declaration?.any (fun d => !d.1) then
        (n.symbol.bind fun s => (W.symbols.get s).moduleClass).toList
      else [] := by
    obtain ⟨i, s⟩ := n
    cases s <;> simp [ownSymbols, Shape.declaration?]
  rw [own, own, Tree.symbol, Tree.symbol, symbol, same]

theorem mem_caseSymbols {stats : List Tree} {s : SymbolId} :
    s ∈ W.caseSymbols stats ↔ ∃ n ∈ stats,
      cleansDeclaration (caseClassNames stats) n.shape.declaration? = true ∧
        s ∈ W.ownSymbols n := by
  rw [← W.collectedAmong_statement stats false, mem_collectedAmong]
  simp [Place.treats_statement]

theorem statements_cleanShape (C : Conventions) (s : Shape Tree) :
    (C.cleanShape s).statements =
      s.statements.map (C.cleanStatement (caseClassNames s.statements)) := by
  cases s <;> rfl

/-- Whatever a second run collects among some statements was collected there before. -/
theorem mem_caseSymbols_of_restores {stats : List Tree} {f : Tree → Tree} {s : SymbolId}
    (restores : ∀ m ∈ stats,
      W.conventions.Restores (W.conventions.cleanStatement (caseClassNames stats) m)
        (f (W.conventions.cleanStatement (caseClassNames stats) m)))
    (h : s ∈ W.caseSymbols
      ((stats.map (W.conventions.cleanStatement (caseClassNames stats))).map f)) :
    s ∈ W.caseSymbols stats := by
  rw [mem_caseSymbols, caseClassNames_map, Conventions.caseClassNames_cleanStatement] at h
  · obtain ⟨n, hn, cleaned, own⟩ := h
    simp only [List.map_map] at hn
    obtain ⟨m, hm, rfl⟩ := List.mem_map.mp hn
    rw [Function.comp] at cleaned own
    have same := (restores m hm).declaration?
    rw [same, Conventions.declaration?_cleanStatement] at cleaned
    split at cleaned
    · simp [cleansDeclaration] at cleaned
    next kept =>
      have marked := W.conventions.cleanStatement_eq (caseClassNames stats) m
      rw [if_neg kept, if_pos cleaned] at marked
      refine mem_caseSymbols.mpr ⟨m, hm, cleaned, ?_⟩
      rwa [ownSymbols_congr ((restores m hm).symbol (by rw [marked]; rfl)) same, marked,
        ownSymbols_congr (n := ⟨m.info.mark .cleaned, m.shape.mapImpl _⟩) (m := m) rfl
          (Shape.declaration?_mapImpl ..)] at own
  · intro c hc
    obtain ⟨m, hm, rfl⟩ := List.mem_map.mp hc
    exact (restores m hm).declaration?

theorem cleanedSymbols_of_typeSyntax {P : Ty → Prop} {t : Tree} (h : TypeSyntax P t) :
    W.cleanedSymbols t = [] := by
  induction t using Tree.mem_children_induct with
  | node i s ih =>
    obtain ⟨-, below⟩ := typeSyntax_mk.mp h
    rw [cleanedSymbols_mk, h.cleanShape, List.append_eq_nil_iff]
    refine ⟨List.eq_nil_iff_forall_not_mem.mpr fun x hx => ?_,
      List.flatMap_eq_nil_iff.mpr fun c hc => ih c hc (below c hc)⟩
    obtain ⟨n, hn, cleaned, -⟩ := mem_caseSymbols.mp hx
    have child := Shape.mem_children_of_mem_statements hn
    rw [(below n child n n.self_mem_preorder).declaration?] at cleaned
    simp [cleansDeclaration] at cleaned

theorem mem_cleanedSymbols_of_restores {c d : Tree} (h : W.conventions.Restores c d)
    (met : W.conventions.Met c) {x : SymbolId}
    (hx : x ∈ W.cleanedSymbols (d.markedLike c)) : x ∈ W.cleanedSymbols c := by
  induction h with
  | @node i j s f _ _ _ below ih =>
    have again := met.cleanShape_again below
    rw [Conventions.markedLike_mk, cleanedSymbols_mk, again, Shape.statements_mapChildren,
      statements_cleanShape, Shape.children_mapChildren, List.flatMap_map] at hx
    rw [cleanedSymbols_mk]
    rcases List.mem_append.mp hx with here | inside
    · refine List.mem_append_left _ (mem_caseSymbols_of_restores (fun m hm => below _ ?_) here)
      refine Shape.mem_children_of_mem_statements ?_
      rw [statements_cleanShape]
      exact List.mem_map_of_mem hm
    · obtain ⟨k, hk, hx⟩ := List.mem_flatMap.mp inside
      exact List.mem_append_right _ (List.mem_flatMap.mpr ⟨k, hk, ih k hk (met.child hk) hx⟩)
  | written plain syntactic =>
    rw [Conventions.markedLike_of_unmarked plain, cleanedSymbols_of_typeSyntax syntactic] at hx
    simp at hx

theorem restored_marked {c : Tree} (marked : c.info.marks.cleaned = true) :
    W.restored symbols c = W.conventions.swept c := by
  obtain ⟨i, s⟩ := c
  rw [restored, Conventions.swept, Conventions.cleanTree_mk, detach, if_pos (by exact marked)]

theorem restores_restored (symbols : List SymbolId) (c : Tree) :
    W.conventions.Restores c (W.restored symbols c) := by
  induction c using W.conventions.cleaned_induct with
  | step i s ih =>
    cases marked : i.marks.cleaned with
    | true =>
      rw [restored_marked marked]
      exact W.conventions.restores_swept _
    | false =>
      cases outdated : W.outdatedType? symbols i s with
      | some u =>
        obtain ⟨⟨w, rfl⟩, -⟩ := outdatedType?_eq_some outdated
        rw [restored_outdated (n := ⟨i, .typeTree w⟩) marked outdated]
        exact .written marked (typeSyntax_writtenWithin (3 * W.symbols.bound) u u)
      | none =>
        rw [restored_current (n := ⟨i, s⟩) marked outdated]
        refine .node _ ?_ ?_ (fun absurd => by simp [marked] at absurd) ih
        · split <;> rfl
        · split <;> exact marked

theorem refersTo_of_subset {again : List SymbolId} (sub : ∀ x ∈ again, x ∈ symbols)
    {s : Option SymbolId} (h : W.refersTo symbols s = false) : W.refersTo again s = false := by
  rw [refersTo_eq_false] at h ⊢
  exact fun x hx d hd member => h x hx d hd (sub d member)

/-- A node that was not outdated, and has lost its symbol if it referred to one of those given, is
not outdated after that. -/
theorem outdatedType?_again {again : List SymbolId} (sub : ∀ x ∈ again, x ∈ symbols) {i : Info}
    {s : Shape Tree} (current : W.outdatedType? symbols i s = none) :
    W.outdatedType? again (if W.refersTo symbols i.symbol then i.detached else i) s = none := by
  cases s with
  | typeTree w =>
    cases type : i.type with
    | none => split <;> simp [outdatedType?, Info.detached, type]
    | some u =>
      have avoids : W.refersTo symbols (W.referent ⟨i, .typeTree w⟩) = false := by
        simpa [outdatedType?, referent, type] using current
      have symbol : W.refersTo symbols i.symbol = false := (current_of_not_refersTo avoids).2
      rw [if_neg (by simp [symbol])]
      exact (current_of_not_refersTo (n := ⟨i, .typeTree w⟩) (refersTo_of_subset sub avoids)).1
  | _ => rfl

theorem detaches_marked {c : Tree} (marked : c.info.marks.cleaned = true) :
    W.Detaches symbols (W.conventions.cleanTree c) := by
  obtain ⟨i, s⟩ := c
  have marked : i.marks.cleaned = true := marked
  rw [Conventions.cleanTree_mk, Detaches, finishesAll_iff]
  simp [detachTasks, detaching, Descent.through, marked]

theorem referenceTasks_mapChildren (i : Info) (s : Shape Tree) (f : Tree → Tree) :
    W.referenceTasks symbols ⟨i, (W.conventions.cleanShape s).mapChildren f⟩ =
      W.referenceTasks symbols ⟨i, s⟩ := by
  obtain ⟨symbol, type, pos, marks⟩ := i
  cases symbol <;> cases type <;> cases s <;> rfl

theorem detaches_cleanTree {i : Info} (s : Shape Tree) (unmarked : i.marks.cleaned = false) :
    W.Detaches symbols (W.conventions.cleanTree ⟨i, s⟩) ↔
      (∀ k ∈ W.referenceTasks symbols ⟨i, s⟩, W.Finishes k) ∧
        match W.outdatedType? symbols i s with
        | some u => W.Finishes (.write u)
        | none => ∀ c ∈ (W.conventions.cleanShape s).children,
            W.Detaches symbols (W.conventions.cleanTree c) := by
  rw [Conventions.cleanTree_mk, Detaches, finishesAll_iff]
  simp only [detachTasks, detaching, Descent.through, unmarked, referenceTasks_mapChildren,
    outdatedType?_mapChildren]
  cases W.outdatedType? symbols i s with
  | some u => simp [or_imp, forall_and]
  | none => simp [Tree.children, Shape.children_mapChildren]

/-- A resolved type without a symbol is resolved again. -/
def ResolvesNode (W : Setting) (n : Tree) : Prop :=
  ∀ w u, n.shape = .typeTree w → n.info.symbol = none → n.info.type = some u →
    W.symbols.Resolves u

theorem ResolvesNode.referenceTasks {n : Tree} (h : W.ResolvesNode n)
    (owned : ∀ s, n.info.symbol = some s → W.symbols.ascending.Ends s) :
    ∀ k ∈ W.referenceTasks symbols n, W.Finishes k := by
  obtain ⟨⟨symbol, type, pos, marks⟩, s⟩ := n
  intro k hk
  cases symbol with
  | some x =>
    obtain rfl := List.mem_singleton.mp hk
    exact SymbolTable.climbing_ends (owned x rfl) _
  | none =>
    cases type with
    | none => cases s <;> cases hk
    | some u =>
      cases s with
      | typeTree w =>
        obtain ⟨denoted, owners⟩ := h w u rfl rfl rfl
        rcases List.mem_cons.mp hk with rfl | hk
        · exact denoted
        · obtain ⟨x, hx, rfl⟩ := List.mem_map.mp hk
          exact SymbolTable.climbing_ends (owners x (Option.mem_toList.mp hx)) _
      | _ => cases hk

/-- If a symbol refers to none of those given, all its owners have been looked at to find this out. -/
theorem ascending_ends_of_not_refersTo {n : Tree}
    (references : ∀ k ∈ W.referenceTasks symbols n, W.Finishes k) {x : SymbolId}
    (symbol : n.info.symbol = some x) (silent : W.refersTo symbols (some x) = false) :
    W.symbols.ascending.Ends x := by
  obtain ⟨⟨_, type, pos, marks⟩, s⟩ := n
  obtain rfl : _ = some x := symbol
  refine SymbolTable.ascending_ends (references _ (List.mem_singleton_self _)) fun d hd => ?_
  simpa using refersTo_eq_false.mp silent x rfl d hd

/-- Type syntax is detached from whatever is given, if the types that it carries can be written. -/
theorem detaches_typeSyntax {P : Ty → Prop} {t : Tree} (h : TypeSyntax P t)
    (writes : ∀ u, P u → W.Finishes (.write u)) (resolves : ∀ n ∈ t.preorder, W.ResolvesNode n) :
    W.Detaches symbols t := by
  induction t using Tree.mem_children_induct with
  | node i s ih =>
    obtain ⟨node, below⟩ := typeSyntax_mk.mp h
    have unmarked : i.marks.cleaned = false := by rw [show i.marks = {} from node.marks]
    rw [← h.cleanTree W.conventions, detaches_cleanTree s unmarked]
    refine ⟨(resolves _ (Tree.self_mem_preorder _)).referenceTasks fun x symbol => ?_, ?_⟩
    · rw [node.symbol] at symbol
      cases symbol
    · split
      next u outdated => exact writes u (node.type (outdatedType?_eq_some outdated).2).2
      next =>
        rw [h.cleanShape]
        intro c hc
        rw [(below c hc).cleanTree]
        exact ih c hc (below c hc) fun n hn => resolves n (Tree.mem_preorder_of_mem_children hc hn)

/-- A second run with fewer symbols changes nothing, if the first one came to an end. It comes to an
end as well, unless it does not find out what a resolved type refers to. -/
theorem restored_again {again : List SymbolId} (sub : ∀ x ∈ again, x ∈ symbols) {c : Tree}
    (met : W.conventions.Met c) (detaches : W.Detaches symbols (W.conventions.cleanTree c)) :
    W.restored again ((W.restored symbols c).markedLike c) = W.restored symbols c ∧
      ((∀ n ∈ (W.restored symbols c).preorder, W.ResolvesNode n) →
        W.Detaches again (W.conventions.cleanTree ((W.restored symbols c).markedLike c))) := by
  induction c using W.conventions.cleaned_induct with
  | step i s ih =>
    cases marked : i.marks.cleaned with
    | true =>
      have inside : W.restored symbols ⟨i, s⟩ = W.conventions.swept ⟨i, s⟩ := restored_marked marked
      have markedAgain : ((W.conventions.swept ⟨i, s⟩).markedLike ⟨i, s⟩).info.marks.cleaned =
          true := by
        rw [Tree.markedLike, if_pos (by exact marked)]
        rfl
      rw [inside, restored_marked markedAgain]
      exact ⟨Conventions.swept_again met, fun _ => detaches_marked markedAgain⟩
    | false =>
      rw [Conventions.markedLike_of_unmarked marked]
      obtain ⟨references, rest⟩ := (detaches_cleanTree s marked).mp detaches
      cases outdated : W.outdatedType? symbols i s with
      | some u =>
        rw [outdated] at rest
        have written := typeSyntax_writtenType rest.1
        rw [restored_outdated (n := ⟨i, s⟩) marked outdated, restored, written.cleanTree]
        refine ⟨(written.imp fun _ carried => carried.2).detach again, fun resolves => ?_⟩
        exact detaches_typeSyntax written (fun v carried => rest.of_comes carried.1) resolves
      | none =>
        rw [outdated] at rest
        have silent : W.refersTo symbols (W.restored symbols ⟨i, s⟩).info.symbol = false :=
          not_refersTo_restored marked
        have result := restored_current (n := ⟨i, s⟩) marked outdated
        have cleaned := met.cleanShape_again fun k _ => restores_restored symbols k
        have below (k : Tree) (hk : k ∈ (W.conventions.cleanShape s).children) :=
          ih k hk (met.child hk) (rest k hk)
        have unmarked : (if W.refersTo symbols i.symbol then i.detached else i).marks.cleaned =
            false := by
          split <;> exact marked
        have current := outdatedType?_again sub outdated
        rw [result] at silent ⊢
        constructor
        · rw [restored_current unmarked (by rwa [outdatedType?_mapChildren]),
            if_neg (by simpa using refersTo_of_subset sub silent), cleaned,
            Shape.mapChildren_mapChildren, Shape.mapChildren_congr fun k hk => (below k hk).1]
        · intro resolves
          rw [detaches_cleanTree _ unmarked, outdatedType?_mapChildren, current, cleaned]
          have root := resolves _ (Tree.self_mem_preorder _)
          refine ⟨root.referenceTasks fun x symbol => ?_, fun c hc => ?_⟩
          · have kept : i.symbol = some x := by
              dsimp only at symbol
              split at symbol
              · cases symbol
              · exact symbol
            exact ascending_ends_of_not_refersTo references kept (symbol ▸ silent)
          · rw [Shape.children_mapChildren] at hc
            obtain ⟨k, hk, rfl⟩ := List.mem_map.mp hc
            refine (below k hk).2 fun n hn => resolves n (Tree.mem_preorder_of_mem_children ?_ hn)
            rw [Tree.children, Shape.children_mapChildren]
            exact List.mem_map_of_mem hk

end Setting

/-- The tree as the only statement of a block, as which a run takes it. -/
def Tree.spliced (t : Tree) : Tree := .bare (.block [] t)

theorem Tree.mem_preorder_spliced {t n : Tree} :
    n ∈ t.spliced.preorder ↔ n = t.spliced ∨ n ∈ t.preorder := by
  rw [mem_preorder]
  simp [spliced, bare, children, Shape.children]

namespace Setting

variable (W : Setting)

theorem restored_spliced (symbols : List SymbolId) (t : Tree) :
    W.restored symbols t.spliced =
      (W.restored symbols (W.conventions.cleanStatement (caseClassNames [t]) t)).spliced := by
  rw [restored_current (n := t.spliced) rfl rfl]
  rfl

theorem misplaced_spliced (t : Tree) : W.conventions.misplaced t.spliced =
    W.conventions.misplaced (W.conventions.cleanStatement (caseClassNames [t]) t) := by
  rw [Tree.spliced, Tree.bare, Conventions.misplaced_mk]
  simp [Shape.caseName?, Conventions.cleanShape, Shape.children]

theorem cleanedSymbols_spliced (t : Tree) : W.cleanedSymbols t.spliced =
    W.caseSymbols [t] ++
      W.cleanedSymbols (W.conventions.cleanStatement (caseClassNames [t]) t) := by
  rw [Tree.spliced, Tree.bare, cleanedSymbols_mk]
  simp [Shape.statements, Conventions.cleanShape, Shape.children]

theorem detaches_spliced (symbols : List SymbolId) (t : Tree) :
    W.Detaches symbols (W.conventions.cleanTree t.spliced) ↔
      W.Detaches symbols (W.conventions.cleanTree
        (W.conventions.cleanStatement (caseClassNames [t]) t)) := by
  rw [Tree.spliced, Tree.bare, detaches_cleanTree _ rfl]
  simp [referenceTasks, outdatedType?, Conventions.cleanShape, Shape.children]

/-- A run succeeds if nothing that is misplaced is an error and the removal of references comes to an
end. -/
theorem restore?_eq_ok_iff {t r : Tree} {ms : List Misplaced} :
    W.restore? t = some (.ok (r, ms)) ↔ W.restoreCaseClasses t = .ok (r, ms) ∧
      W.Detaches (W.cleanedSymbols t.spliced) (W.conventions.cleanTree t.spliced) := by
  rw [detaches_spliced, cleanedSymbols_spliced, restore?_eq_some_iff]
  exact and_congr_right fun restored => ⟨fun ends => ends _ restored, fun detaches _ _ => detaches⟩

theorem restore?_eq_none_of_ok {t : Tree} {p : Tree × List Misplaced}
    (restored : W.restoreCaseClasses t = .ok p) :
    W.restore? t = some (.ok p) ∨ W.restore? t = none := by
  by_cases ends : W.RestoreEnds t
  · exact .inl (restore?_eq_some_iff.mpr ⟨restored, ends⟩)
  · exact .inr (restore?_eq_none_iff.mpr ends)

end Setting

/-- A second run gives back the tree and the reports of the first one, unless it does not come to an
end. That can only be if the first one has left a resolved type without a symbol for which it is not
found out what it refers to. -/
theorem restored_twice (W : Setting) {t r : Tree} {ms : List Misplaced}
    (unmarked : ∀ n ∈ t.preorder, n.info.marks.cleaned = false)
    (first : W.restore? t = some (.ok (r, ms))) :
    W.restore? r = some (.ok (r, ms)) ∨
      W.restore? r = none ∧ ∃ n ∈ r.preorder, ∃ w u, n.shape = .typeTree w ∧
        n.info.symbol = none ∧ n.info.type = some u ∧ ¬ W.symbols.Resolves u := by
  -- A run takes its tree as the only statement of a block. The block is not marked itself, so the
  -- lemmas on a second run apply to what becomes of it as it stands.
  have met : W.conventions.Met t.spliced := by
    refine ⟨.other, t.spliced, fun n hn => ?_, List.mem_singleton_self _⟩
    rcases Tree.mem_preorder_spliced.mp hn with rfl | below
    · rfl
    · exact unmarked n below
  obtain ⟨restored, detaches⟩ := (W.restore?_eq_ok_iff).mp first
  have result := Setting.restoreCaseClasses_eq_ok restored
  rw [← W.cleanedSymbols_spliced] at result
  have spliced := W.restored_spliced (W.cleanedSymbols t.spliced) t
  rw [← result] at spliced
  have restores := Setting.restores_restored (W := W) (W.cleanedSymbols t.spliced) t.spliced
  have misplaced := restores.misplaced met
  obtain ⟨again, detachesAgain⟩ := Setting.restored_again
    (fun x hx => Setting.mem_cleanedSymbols_of_restores restores met hx) met detaches
  rw [spliced, Conventions.markedLike_of_unmarked rfl] at misplaced again detachesAgain
  rw [W.misplaced_spliced, W.misplaced_spliced] at misplaced
  have settled : W.detach (W.caseSymbols [r] ++
        W.cleanedSymbols (W.conventions.cleanStatement (caseClassNames [r]) r))
      (W.conventions.cleanTree (W.conventions.cleanStatement (caseClassNames [r]) r)) = r := by
    rw [W.restored_spliced, W.cleanedSymbols_spliced] at again
    exact (Shape.block.inj (Tree.mk.inj again).2).2
  have second : W.restoreCaseClasses r = .ok (r, ms) := by
    unfold Setting.restoreCaseClasses at restored ⊢
    dsimp only at restored ⊢
    rw [settled, misplaced]
    -- The same reports under the same strictness: the second run takes the branch of the first.
    split at restored
    · contradiction
    all_goals
      obtain ⟨-, rfl⟩ := Prod.mk.inj (Except.ok.inj restored)
      rfl
  refine (W.restore?_eq_none_of_ok second).imp_right fun endless => ⟨endless, ?_⟩
  by_contra resolved
  refine absurd (W.restore?_eq_ok_iff.mpr ⟨second, detachesAgain fun n hn w u shape symbol type => ?_⟩)
    (by simp [endless])
  rcases Tree.mem_preorder_spliced.mp hn with rfl | below
  · cases shape
  · by_contra unresolved
    exact resolved ⟨n, below, w, u, shape, symbol, type, unresolved⟩

theorem recordSetting_grounded (strict : Bool) : (recordSetting strict).symbols.Grounded := by
  have entries := SymbolTable.forall_get (T := (recordSetting strict).symbols)
    (P := fun symbol => symbol.info = none ∧ symbol.typeParams = [])
    ⟨rfl, rfl⟩ (by simp [recordSetting])
  refine SymbolTable.grounded_of_untyped (fun s => (entries s).1) ?_ ?_
  · refine SymbolTable.acyclicOwners_of_rank (fun s => if s = ⟨"f"⟩ then 1 else 0) ?_
    cases strict <;> decide
  · refine SymbolTable.acyclicParameters_of_rank (fun _ => 0) fun s _ p hp => ?_
    simp [(entries s).2] at hp

theorem Setting.restore?_of_grounded {W : Setting} (grounded : W.symbols.Grounded) {t : Tree}
    {p : Tree × List Misplaced} (restored : W.restoreCaseClasses t = .ok p) :
    W.restore? t = some (.ok p) :=
  W.restore?_eq_ok_iff.mpr ⟨restored, finishesAll_of_grounded grounded⟩

/-- The type of `x` is written out, and the case class in its value is reported each time. -/
theorem recordTree_restored_twice :
    (∀ n ∈ recordTree.preorder, n.info.marks.cleaned = false) ∧
      ∃ r ms, (recordSetting false).restore? recordTree = some (.ok (r, ms)) ∧
        ms = [⟨{ line := 7 }, .type "D"⟩] ∧
        (recordSetting false).restore? r = some (.ok (r, ms)) := by
  have grounded := recordSetting_grounded false
  have first := Setting.restore?_of_grounded grounded (t := recordTree) rfl
  refine ⟨recordTree_unmarked, _, _, first, by cbv, ?_⟩
  refine (restored_twice (recordSetting false) recordTree_unmarked first).resolve_right ?_
  rintro ⟨-, n, -, w, u, -, -, -, unresolved⟩
  exact unresolved (grounded.resolves u)

/-- A value that is of its own type, and a quantified symbol without bounds. -/
def loopSetting : Setting where
  symbols.entries :=
    [(⟨"a"⟩, { name := .type "A", kind := .plainClass }),
     (⟨"q"⟩, { name := .type "Q", kind := .type }),
     (⟨"x"⟩, { name := .term "x", kind := .term, info := some (.single .noPrefix ⟨"x"⟩) })]
  builtins.rootClass := ⟨"root"⟩
  builtins.nothingType := .unspecified
  builtins.anyType := .unspecified
  builtins.anyRefType := .unspecified

/-- A type without a written form that denotes what the type of the value denotes. -/
def loopType : Ty := .existential [⟨"q"⟩] (.single .noPrefix ⟨"x"⟩)

/-- A case class, and a resolved type that refers to it by its symbol. -/
def loopReference (symbol : Option SymbolId) : Tree :=
  .bare (.block [caseClass { symbol := some ⟨"a"⟩ } "A" []]
    ⟨{ symbol, type := some loopType }, .typeTree none⟩)

theorem loopType_finishes : loopSetting.Finishes (.write loopType) := by
  have parts : loopSetting.rendering.parts loopType = [] := rfl
  have drawn : ∀ k ∈ loopSetting.rendering.sources loopType, loopSetting.rendering.drawn k = [] := by
    decide
  refine ⟨.intro (by simp [parts]) fun k hk u hu => ?_, fun u comes q hq => ?_⟩
  · simp [drawn k hk] at hu
  · rcases comes.cases_head with rfl | ⟨v, part | ⟨k, hk, hv⟩, -⟩
    · cases hq
    · simp [parts] at part
    · simp [drawn k hk] at hv

theorem detaches_loopReference {symbols : List SymbolId} {symbol : Option SymbolId} :
    loopSetting.Detaches symbols (loopSetting.conventions.cleanTree (loopReference symbol).spliced) ↔
      loopSetting.Detaches symbols
        (loopSetting.conventions.cleanTree ⟨{ symbol, type := some loopType }, .typeTree none⟩) := by
  have root : loopSetting.conventions.cleanStatement (caseClassNames [loopReference symbol])
      (loopReference symbol) = loopReference symbol := rfl
  rw [Setting.detaches_spliced, root, loopReference, Tree.bare, Setting.detaches_cleanTree _ rfl]
  constructor
  · intro h
    exact h.2 _ (List.mem_cons_of_mem _ List.mem_cons_self)
  · intro type
    refine ⟨fun k hk => (by cases hk), fun c hc => ?_⟩
    rcases List.mem_pair.mp hc with rfl | rfl
    · exact Setting.detaches_marked rfl
    · exact type

theorem mem_cleanedSymbols_loopReference (symbol : Option SymbolId) :
    ⟨"a"⟩ ∈ loopSetting.cleanedSymbols (loopReference symbol) := by
  rw [loopReference, Tree.bare, Setting.cleanedSymbols_mk]
  exact List.mem_append_left _ (Setting.mem_caseSymbols.mpr
    ⟨caseClass { symbol := some ⟨"a"⟩ } "A" [], by simp [Shape.statements], rfl, by decide⟩)

/-- A run gives the reference without a symbol, if that is what it makes of the type. -/
theorem restoreCaseClasses_loopReference {symbol : Option SymbolId}
    (type : ∀ symbols : List SymbolId, ⟨"a"⟩ ∈ symbols →
      loopSetting.restored symbols ⟨{ symbol, type := some loopType }, .typeTree none⟩ =
        ⟨{ type := some loopType }, .typeTree none⟩) :
    loopSetting.restoreCaseClasses (loopReference symbol) = .ok (loopReference none, []) := by
  have root : loopSetting.conventions.cleanStatement (caseClassNames [loopReference symbol])
      (loopReference symbol) = loopReference symbol := rfl
  have placed : loopSetting.conventions.misplaced (loopReference symbol) = [] := by cbv
  have declared : loopSetting.conventions.swept
      (caseClass { symbol := some ⟨"a"⟩ } "A" []).markedCleaned =
        caseClass { symbol := some ⟨"a"⟩ } "A" [] := by cbv
  have collected := mem_cleanedSymbols_loopReference symbol
  have reference := type _ (List.mem_append_right (loopSetting.caseSymbols [loopReference symbol])
    collected)
  unfold Setting.restoreCaseClasses
  dsimp only
  rw [root, placed]
  refine congrArg (fun r => Except.ok (r, [])) ?_
  refine (Setting.restored_current (n := loopReference symbol) rfl rfl).trans ?_
  refine congrArg₂ (fun d r => Tree.bare (.block [d] r)) ?_ reference
  exact (Setting.restored_marked rfl).trans declared

theorem loopType_unresolved :
    ¬ loopSetting.symbols.denoting.Ends (.single .noPrefix ⟨"x"⟩) := by
  have used : ⟨"x"⟩ ∈ loopSetting.symbols.denoting.sources (.single .noPrefix ⟨"x"⟩) := by decide
  exact Descent.not_ends_of_loop used ⟨_, List.mem_singleton_self _, _, .refl, used⟩

/-- The first run leaves a type without a symbol behind, and the second one does not find out what the
type denotes. -/
theorem second_run_endless :
    (∀ n ∈ (loopReference (some ⟨"a"⟩)).preorder, n.info.marks.cleaned = false) ∧
      loopSetting.restore? (loopReference (some ⟨"a"⟩)) = some (.ok (loopReference none, [])) ∧
      loopSetting.restore? (loopReference none) = none := by
  have outdated (symbols : List SymbolId) (collected : ⟨"a"⟩ ∈ symbols) :
      loopSetting.outdatedType? symbols { symbol := some ⟨"a"⟩, type := some loopType }
        (.typeTree none) = some loopType := by
    have owners : loopSetting.symbols.owners ⟨"a"⟩ = [⟨"a"⟩] := by decide
    simp [Setting.outdatedType?, Setting.refersTo, owners, collected]
  have first : loopSetting.restoreCaseClasses (loopReference (some ⟨"a"⟩)) =
      .ok (loopReference none, []) :=
    restoreCaseClasses_loopReference fun symbols collected => by
      have written : loopSetting.writtenType loopType = .resolved loopType := rfl
      rw [Setting.restored_outdated rfl (outdated symbols collected), written]
      rfl
  have second : loopSetting.restoreCaseClasses (loopReference none) =
      .ok (loopReference none, []) :=
    restoreCaseClasses_loopReference fun symbols _ => by
      have unknown : loopSetting.symbols.denoted loopType = none := by decide
      have current : loopSetting.outdatedType? symbols { type := some loopType } (.typeTree none) =
          none := by simp [Setting.outdatedType?, Setting.refersTo, unknown]
      exact Setting.restored_current rfl current
  have collected : ⟨"a"⟩ ∈ loopSetting.cleanedSymbols (loopReference (some ⟨"a"⟩)).spliced := by
    rw [Setting.cleanedSymbols_spliced]
    exact List.mem_append_right _ (mem_cleanedSymbols_loopReference _)
  refine ⟨?_, loopSetting.restore?_eq_ok_iff.mpr ⟨first, ?_⟩, ?_⟩
  · simp [loopReference, caseClass, Tree.preorder_eq, Tree.children, Shape.children, Tree.bare,
      Tree.empty]
  · rw [detaches_loopReference, Setting.detaches_cleanTree _ rfl, outdated _ collected]
    refine ⟨fun k hk => ?_, loopType_finishes⟩
    obtain rfl := List.mem_singleton.mp hk
    refine Descent.Ends.intro (by simp [SymbolTable.climbing, Descent.along]) fun k hk o ho => ?_
    obtain rfl : k = ⟨"a"⟩ := List.mem_singleton.mp hk
    simp [SymbolTable.climbing, Descent.along, collected] at ho
  · refine (loopSetting.restore?_eq_none_of_ok second).resolve_left fun ends => ?_
    obtain ⟨-, detaches⟩ := loopSetting.restore?_eq_ok_iff.mp ends
    rw [detaches_loopReference, Setting.detaches_cleanTree _ rfl] at detaches
    have denoted : loopSetting.symbols.denoting.Ends loopType :=
      detaches.1 (.answer (.denoted loopType)) List.mem_cons_self
    exact loopType_unresolved (denoted.of_visits (.single (List.mem_singleton_self _)))

end TreeRepair
