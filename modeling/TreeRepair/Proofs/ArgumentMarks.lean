import Mathlib.Data.Finset.Insert
import TreeRepair.Proofs.SuppliedArguments

namespace TreeRepair

open Relation

def Shape.isApplication {α : Type} : Shape α → Bool
  | .apply _ _ => true
  | _ => false

theorem Shape.apply_or_other (s : Shape Tree) :
    (∃ fn args, s = .apply fn args) ∨
      s.isApplication = false ∧ ∀ fn args, s ≠ .apply fn args := by
  cases s with
  | apply fn args => exact .inl ⟨fn, args, rfl⟩
  | _ => exact .inr ⟨rfl, by simp⟩

theorem Shape.Alike.isApplication_eq {s u : Shape Tree} (h : s.Alike u) :
    s.isApplication = u.isApplication := by
  have outline (s : Shape Tree) : s.outline.isApplication = s.isApplication := by cases s <;> rfl
  rw [← outline s, h.outline_eq, outline u]

theorem optionRel_imp {α β : Type} {R S : α → β → Prop} {a : Option α} {b : Option β}
    (h : Option.Rel R a b) (imp : ∀ x y, a = some x → b = some y → R x y → S x y) :
    Option.Rel S a b := by
  cases h with
  | some h => exact .some (imp _ _ rfl rfl h)
  | none => exact .none

section Stale

/-- What is attached to two nodes differs in nothing but the marks of argument lists. -/
structure Info.SameButLists (i j : Info) : Prop where
  symbol : i.symbol = j.symbol
  type : i.type = j.type
  pos : i.pos = j.pos
  cleaned : i.marks.cleaned = j.marks.cleaned

namespace Tree

/-- Two trees that differ in nothing but the marks of argument lists on the nodes that a walk
meets. -/
def SameButLists (t u : Tree) : Prop :=
  ∀ p, Option.Rel (fun n m => n.shape.Alike m.shape ∧ n.info.SameButLists m.info) (t.at? p)
    (u.at? p)

/-- What holds of two trees place by place holds of their roots, and of their children in pairs. -/
theorem forall_at?_mk {R : Info → Info → Prop} {i j : Info} {s u : Shape Tree} :
    (∀ p, Option.Rel (fun n m => n.shape.Alike m.shape ∧ R n.info m.info)
        ((⟨i, s⟩ : Tree).at? p) ((⟨j, u⟩ : Tree).at? p)) ↔
      s.Alike u ∧ R i j ∧ List.Forall₂ (fun c d => ∀ p,
        Option.Rel (fun n m => n.shape.Alike m.shape ∧ R n.info m.info) (c.at? p) (d.at? p))
          s.children u.children := by
  constructor
  · intro h
    obtain ⟨alike, info⟩ : s.Alike u ∧ R i j := by
      have root := h []
      simpa [at?] using root
    refine ⟨alike, info, List.forall₂_iff_get.mpr ⟨Shape.length_children_eq alike.outline_eq, ?_⟩⟩
    intro k hs hu p
    have child := h (k :: p)
    simpa [at?, Tree.children, hs, hu] using child
  · rintro ⟨alike, info, below⟩ p
    cases p with
    | nil => exact .some ⟨alike, info⟩
    | cons k p =>
      obtain ⟨length, pairs⟩ := List.forall₂_iff_get.mp below
      by_cases hs : k < s.children.length
      · have child := pairs k hs (length ▸ hs) p
        simpa [at?, Tree.children, hs, length ▸ hs] using child
      · have hu : ¬ k < u.children.length := length ▸ hs
        simp only [at?, Tree.children, List.getElem?_eq_none (Nat.not_lt.mp hs),
          List.getElem?_eq_none (Nat.not_lt.mp hu), Option.bind_none]
        exact .none

theorem sameButLists_mk {i j : Info} {s u : Shape Tree} :
    (⟨i, s⟩ : Tree).SameButLists ⟨j, u⟩ ↔
      s.Alike u ∧ i.SameButLists j ∧ List.Forall₂ SameButLists s.children u.children :=
  forall_at?_mk

theorem eq_of_forall_at? {t u : Tree} (h : ∀ p, Option.Rel
    (fun n m => n.shape.Alike m.shape ∧ n.info = m.info) (t.at? p) (u.at? p)) : t = u := by
  induction t using mem_children_induct generalizing u with
  | node i s ih =>
    obtain ⟨j, v⟩ := u
    obtain ⟨alike, rfl, below⟩ := forall_at?_mk.mp h
    obtain ⟨length, pairs⟩ := List.forall₂_iff_get.mp below
    have children : s.children = v.children := by
      refine List.ext_get length fun k hs hv => ?_
      exact ih _ (List.get_mem ..) (pairs k hs hv)
    rw [alike.eq_of_children children]

/-- Marking what is written sets the marks of argument lists anew on every node. -/
theorem markWritten_mk (i : Info) (s : Shape Tree) :
    (⟨i, s⟩ : Tree).markWritten =
      ⟨{ i with marks := { written := s.isApplication, cleaned := i.marks.cleaned } },
        s.mapChildren markWritten⟩ := by
  obtain ⟨fn, args, rfl⟩ | ⟨plain, other⟩ := s.apply_or_other
  · rw [markWritten]
    rfl
  · rw [markWritten_other other, plain]
    rfl

theorem markWritten_eq_iff {t u : Tree} : t.markWritten = u.markWritten ↔ t.SameButLists u := by
  induction t using mem_children_induct generalizing u with
  | node i s ih =>
    obtain ⟨j, v⟩ := u
    have below : s.children.map markWritten = v.children.map markWritten ↔
        List.Forall₂ SameButLists s.children v.children := by
      have pairwise : List.Forall₂ (fun c d => c ∈ s.children ∧ c.markWritten = d.markWritten)
          s.children v.children ↔
            List.Forall₂ (fun c d => c ∈ s.children ∧ c.SameButLists d) s.children v.children :=
        ⟨fun h => h.imp fun c d hcd => ⟨hcd.1, (ih c hcd.1).mp hcd.2⟩,
          fun h => h.imp fun c d hcd => ⟨hcd.1, (ih c hcd.1).mpr hcd.2⟩⟩
      have members : ∀ c ∈ s.children, c ∈ s.children := fun c hc => hc
      rw [List.forall₂_and_left, List.forall₂_and_left, and_iff_right members,
        and_iff_right members] at pairwise
      rw [← List.forall₂_eq_eq_eq, List.forall₂_map_left_iff, List.forall₂_map_right_iff]
      exact pairwise
    rw [markWritten_mk, markWritten_mk, sameButLists_mk, ← below]
    constructor
    · intro same
      obtain ⟨info, shape⟩ := Tree.mk.inj same
      have alike : s.Alike v := by
        have rebuilt : (s.mapChildren markWritten).Alike (v.mapChildren markWritten) := by
          rw [shape]
          rfl
        simpa using rebuilt
      have children := congrArg Shape.children shape
      rw [Shape.children_mapChildren, Shape.children_mapChildren] at children
      obtain ⟨symbol, type, pos, marks⟩ := Info.mk.inj info
      obtain ⟨-, -, cleaned⟩ := Marks.mk.inj marks
      exact ⟨alike, ⟨symbol, type, pos, cleaned⟩, children⟩
    · rintro ⟨alike, info, children⟩
      have shape : s.mapChildren markWritten = v.mapChildren markWritten := by
        refine Shape.Alike.eq_of_children (by simpa using alike) ?_
        rw [Shape.children_mapChildren, Shape.children_mapChildren, children]
      rw [shape, alike.isApplication_eq, info.symbol, info.type, info.pos, info.cleaned]

end Tree

theorem Session.calls_check (S : Session) (past : List Call) (t : Tree) :
    (S.check true past t).calls = [⟨.check, t.markWritten⟩] := by
  simp only [check, if_true]
  split <;> rfl

/-- Marks of argument lists that an earlier run left behind have no influence: two trees that
differ in nothing else are marked alike and checked alike. All other differences show. -/
theorem stale_list_marks_ignored (t u : Tree) :
    (t.markWritten = u.markWritten ↔ t.SameButLists u) ∧
      ∀ (S : Session) (past : List Call),
        S.check true past t = S.check true past u ↔ t.SameButLists u := by
  refine ⟨Tree.markWritten_eq_iff, fun S past => ?_⟩
  rw [← Tree.markWritten_eq_iff]
  constructor
  · intro same
    have calls := congrArg Run.calls same
    rw [S.calls_check, S.calls_check] at calls
    simpa using calls
  · intro marked
    simp only [Session.check, if_true, marked]

/-- A call of `sort` with marks that an earlier run left behind. -/
def staleSort : Tree :=
  sortCall { inserted := true } ⟨{ marks := { written := true } }, .ident (.term "xs")⟩

/-- The stale mark would take the argument away, but a check never gets to see it. -/
theorem staleSort_checked :
    staleSort.dropInserted = .bare (.ident (.term "sort")) ∧
      staleSort.SameButLists (sortCall {} (.bare (.ident (.term "xs")))) ∧
      sortSession.check true [] staleSort =
        sortSession.check true [] (sortCall {} (.bare (.ident (.term "xs")))) := by
  have same : staleSort.SameButLists (sortCall {} (.bare (.ident (.term "xs")))) := by
    have info (marks marks' : Marks) (h : marks.cleaned = marks'.cleaned) :
        ({ marks } : Info).SameButLists { marks := marks' } := ⟨rfl, rfl, rfl, h⟩
    simp [staleSort, sortCall, Tree.bare, Tree.sameButLists_mk, Shape.Alike, Shape.mapChildren,
      Shape.children, info]
  refine ⟨?_, same, ((stale_list_marks_ignored _ _).2 sortSession []).mpr same⟩
  simp [staleSort, sortCall, Tree.bare, Tree.dropInserted, Shape.mapChildren]

end Stale

namespace SymbolTable

variable (T : SymbolTable)

/-- An application of something that ends in an implicit list, which did not stand in the tree
before it was checked. -/
def supplies (n : Tree) : Bool :=
  n.shape.isApplication && T.hasImplicitList n.info.symbol && !n.info.marks.written

/-- What is attached to a node behind the check. -/
def classified (considered : Bool) (n : Tree) : Info :=
  if n.shape.isApplication then
    if !considered && T.supplies n then (n.info.unmark .written).mark .inserted
    else n.info.unmark .written
  else n.info

/-- Whether the function of a node is not to be considered again. -/
def passesOn (considered : Bool) (n : Tree) : Bool :=
  n.shape.isApplication && (considered || T.supplies n)

theorem markInserted_apply (considered : Bool) (i : Info) (fn : Tree) (args : List Tree) :
    T.markInserted considered ⟨i, .apply fn args⟩ =
      ⟨T.classified considered ⟨i, .apply fn args⟩,
        .apply (T.markInserted (T.passesOn considered ⟨i, .apply fn args⟩) fn)
          (args.map (T.markInserted false))⟩ := by
  rw [markInserted]
  cases considered <;> simp [classified, passesOn, supplies, Shape.isApplication]

theorem info_markInserted (considered : Bool) (n : Tree) :
    (T.markInserted considered n).info = T.classified considered n := by
  obtain ⟨i, s⟩ := n
  obtain ⟨fn, args, rfl⟩ | ⟨plain, other⟩ := s.apply_or_other
  · rw [markInserted_apply]
  · rw [T.markInserted_other other]
    simp [classified, plain]

theorem alike_markInserted (considered : Bool) (n : Tree) :
    (T.markInserted considered n).shape.Alike n.shape := by
  obtain ⟨i, s⟩ := n
  obtain ⟨fn, args, rfl⟩ | ⟨-, other⟩ := s.apply_or_other
  · rw [markInserted_apply]
    simp [Shape.Alike, Shape.mapChildren, Function.comp_def]
  · rw [T.markInserted_other other]
    exact Shape.alike_mapChildren_left.mpr rfl

/-- Only the function of an application can have been considered with what is around it. -/
theorem getElem?_children_markInserted (considered : Bool) (n : Tree) (k : Nat) :
    (T.markInserted considered n).children[k]? =
      n.children[k]?.map (T.markInserted (T.passesOn considered n && k == 0)) := by
  obtain ⟨i, s⟩ := n
  obtain ⟨fn, args, rfl⟩ | ⟨plain, other⟩ := s.apply_or_other
  · rw [markInserted_apply]
    cases k with
    | zero => simp [Tree.children, Shape.children]
    | succ k => simp [Tree.children, Shape.children]
  · rw [T.markInserted_other other]
    simp [Tree.children, passesOn, plain]

end SymbolTable

namespace Tree

/-- The application at the one place has its function at the other. -/
def Applies (t : Tree) (q p : List Nat) : Prop :=
  p = q ++ [0] ∧ ∃ n, t.at? q = some n ∧ n.shape.isApplication = true

theorem at?_singleton (t : Tree) (k : Nat) : t.at? [k] = t.children[k]? := by simp [at?]

end Tree

namespace SymbolTable

variable {T : SymbolTable} {t : Tree}

/-- At the place there is an application whose argument list may have been supplied. -/
def SuppliedAt (T : SymbolTable) (t : Tree) (p : List Nat) : Prop :=
  ∃ n, t.at? p = some n ∧ T.supplies n = true

/-- Among the applications that lead, function by function, to the place, there is one whose
argument list may have been supplied. -/
def ConsideredAt (T : SymbolTable) (t : Tree) (p : List Nat) : Prop :=
  ∃ q, TransGen t.Applies q p ∧ T.SuppliedAt t q

/-- The outermost application whose argument list may have been supplied, on the chain of
applications that are functions of each other. -/
def OutermostAt (T : SymbolTable) (t : Tree) (p : List Nat) : Prop :=
  T.SuppliedAt t p ∧ ∀ q, TransGen t.Applies q p → ¬ T.SuppliedAt t q

theorem outermostAt_iff {p : List Nat} :
    T.OutermostAt t p ↔ T.SuppliedAt t p ∧ ¬ T.ConsideredAt t p := by
  simp [OutermostAt, ConsideredAt]

theorem not_consideredAt_root : ¬ T.ConsideredAt t [] := by
  rintro ⟨q, chain, -⟩
  obtain ⟨b, -, next, -⟩ := TransGen.tail'_iff.mp chain
  simp at next

theorem consideredAt_child {p : List Nat} {n : Tree} (found : t.at? p = some n) (k : Nat) :
    T.ConsideredAt t (p ++ [k]) ↔
      k = 0 ∧ n.shape.isApplication = true ∧ (T.ConsideredAt t p ∨ T.supplies n = true) := by
  have here : T.SuppliedAt t p ↔ T.supplies n = true := by simp [SuppliedAt, found]
  rw [← here]
  constructor
  · rintro ⟨q, chain, supplied⟩
    obtain ⟨b, before, next, m, hm, application⟩ := TransGen.tail'_iff.mp chain
    obtain ⟨rfl, last⟩ := List.append_inj' next rfl
    obtain rfl : k = 0 := by simpa using last
    obtain rfl : n = m := Option.some.inj (found.symm.trans hm)
    refine ⟨rfl, application, ?_⟩
    rcases reflTransGen_iff_eq_or_transGen.mp before with rfl | before
    · exact .inr supplied
    · exact .inl ⟨q, before, supplied⟩
  · rintro ⟨rfl, application, considered⟩
    have next : t.Applies p (p ++ [0]) := ⟨rfl, n, found, application⟩
    rcases considered with ⟨q, before, supplied⟩ | supplied
    · exact ⟨q, before.tail next, supplied⟩
    · exact ⟨p, .single next, supplied⟩

/-- A classified tree has its nodes where they were, and what was considered already is what is
below an application whose argument list may have been supplied. -/
theorem at?_markInserted (T : SymbolTable) (t : Tree) (p : List Nat) :
    ∃ considered : Bool,
      (∀ n, t.at? p = some n → (considered = true ↔ T.ConsideredAt t p)) ∧
        (T.markInserted false t).at? p = (t.at? p).map (T.markInserted considered) := by
  induction p using List.reverseRecOn with
  | nil => exact ⟨false, by simp [not_consideredAt_root], rfl⟩
  | append_singleton p k ih =>
    obtain ⟨considered, marked, same⟩ := ih
    rw [Tree.at?_append, Tree.at?_append, same]
    cases found : t.at? p with
    | none => exact ⟨false, by simp, rfl⟩
    | some n =>
      refine ⟨T.passesOn considered n && k == 0, fun c _ => ?_, ?_⟩
      · rw [consideredAt_child found, ← marked n found]
        simp [passesOn, and_comm]
      · rw [Option.map_some, Option.bind_some, Option.bind_some, Tree.at?_singleton, Tree.at?_singleton,
          getElem?_children_markInserted]

theorem marks_classified {considered : Bool} {n : Tree} (h : n.shape.isApplication = true) :
    (T.classified considered n).marks =
      { written := false
        inserted := n.info.marks.inserted || !considered && T.supplies n
        cleaned := n.info.marks.cleaned } := by
  cases supplied : !considered && T.supplies n <;>
    simp [classified, h, supplied, Info.mark, Info.unmark, Marks.add, Marks.remove, Marks.set]

theorem sameButLists_classified (considered : Bool) (n : Tree) :
    (T.classified considered n).SameButLists n.info := by
  unfold classified
  split
  · split <;> exact ⟨rfl, rfl, rfl, rfl⟩
  · exact ⟨rfl, rfl, rfl, rfl⟩

end SymbolTable

/-- Which places of a tree hold one and the same node. -/
structure Tree.Sharing (t : Tree) (ι : Type) where
  node : List Nat → ι
  same : ∀ p q, node p = node q → t.at? p = t.at? q
  below : ∀ p q k, node p = node q → node (p ++ [k]) = node (q ++ [k])

/-- Every place has a node of its own. -/
def Tree.unshared (t : Tree) : t.Sharing (List Nat) where
  node := id
  same := by simp
  below := by simp

namespace SymbolTable

variable {T : SymbolTable} {t : Tree}

section Runs

variable {ι : Type} [DecidableEq ι] {node : List Nat → ι}

/-- The nodes that are not to be considered, once the node at a place is classified. -/
def noted (T : SymbolTable) (node : List Nat → ι) (seen : Finset ι) (p : List Nat) (n : Tree) :
    Finset ι :=
  if T.passesOn (decide (node p ∈ seen)) n then insert (node (p ++ [0])) seen else seen

mutual

/-- A run over a tree with one set of nodes that are not to be considered: the set before it, the
place of the tree, the tree, what it becomes, and the set after it. -/
inductive Classifies (T : SymbolTable) (node : List Nat → ι) :
    Finset ι → List Nat → Tree → Tree → Finset ι → Prop
  | node {seen left : Finset ι} {p : List Nat} {i : Info} {s u : Shape Tree}
      (below : ClassifiesAll T node (T.noted node seen p ⟨i, s⟩) p 0 s.children u.children left)
      (alike : u.Alike s) :
      Classifies T node seen p ⟨i, s⟩ ⟨T.classified (decide (node p ∈ seen)) ⟨i, s⟩, u⟩ left

/-- Runs over the children of the node at a place, one after the other and from the given one
on. -/
inductive ClassifiesAll (T : SymbolTable) (node : List Nat → ι) :
    Finset ι → List Nat → Nat → List Tree → List Tree → Finset ι → Prop
  | nil {seen : Finset ι} {p : List Nat} {k : Nat} : ClassifiesAll T node seen p k [] [] seen
  | cons {seen between left : Finset ι} {p : List Nat} {k : Nat} {c r : Tree}
      {cs rs : List Tree} (first : Classifies T node seen (p ++ [k]) c r between)
      (rest : ClassifiesAll T node between p (k + 1) cs rs left) :
      ClassifiesAll T node seen p k (c :: cs) (r :: rs) left

end

theorem ClassifiesAll.unique {cs : List Tree}
    (each : ∀ c ∈ cs, ∀ seen p r r' left left', T.Classifies node seen p c r left →
      T.Classifies node seen p c r' left' → r = r' ∧ left = left')
    {seen left left' : Finset ι} {p : List Nat} {k : Nat} {rs rs' : List Tree}
    (h : T.ClassifiesAll node seen p k cs rs left)
    (h' : T.ClassifiesAll node seen p k cs rs' left') : rs = rs' ∧ left = left' := by
  induction cs generalizing seen k rs rs' with
  | nil =>
    cases h
    cases h'
    exact ⟨rfl, rfl⟩
  | cons c cs ih =>
    cases h with
    | cons first rest =>
      cases h' with
      | cons first' rest' =>
        obtain ⟨rfl, rfl⟩ := each c List.mem_cons_self _ _ _ _ _ _ first first'
        obtain ⟨rfl, rfl⟩ := ih (fun d hd => each d (List.mem_cons_of_mem _ hd)) rest rest'
        exact ⟨rfl, rfl⟩

theorem Classifies.unique {seen left left' : Finset ι} {p : List Nat} {t r r' : Tree}
    (h : T.Classifies node seen p t r left) (h' : T.Classifies node seen p t r' left') :
    r = r' ∧ left = left' := by
  induction t using Tree.mem_children_induct generalizing seen p r r' left left' with
  | node i s ih =>
    cases h with
    | node below alike =>
      cases h' with
      | node below' alike' =>
        obtain ⟨children, rfl⟩ := ClassifiesAll.unique
          (fun c hc seen p r r' left left' => ih c hc) below below'
        obtain rfl := Shape.Alike.eq_of_children (alike.trans alike'.symm) children
        exact ⟨rfl, rfl⟩

theorem mem_noted {seen : Finset ι} {p : List Nat} {n : Tree} {x : ι} :
    x ∈ T.noted node seen p n ↔
      x ∈ seen ∨ x = node (p ++ [0]) ∧ T.passesOn (decide (node p ∈ seen)) n = true := by
  unfold noted
  split
  next passes => simp [passes, or_comm]
  next stays => simp [stays]

theorem ClassifiesAll.length_eq {seen left : Finset ι} {p : List Nat} {k : Nat} {cs rs : List Tree}
    (h : T.ClassifiesAll node seen p k cs rs left) : rs.length = cs.length := by
  induction cs generalizing seen k rs with
  | nil =>
    cases h
    rfl
  | cons c cs ih =>
    cases h with
    | cons _ rest => rw [List.length_cons, List.length_cons, ih rest]

theorem exists_classifiesAll {cs : List Tree}
    (each : ∀ c ∈ cs, ∀ seen p, ∃ r left, T.Classifies node seen p c r left) (seen : Finset ι)
    (p : List Nat) (k : Nat) : ∃ rs left, T.ClassifiesAll node seen p k cs rs left := by
  induction cs generalizing seen k with
  | nil => exact ⟨[], seen, .nil⟩
  | cons c cs ih =>
    obtain ⟨r, between, first⟩ := each c List.mem_cons_self seen (p ++ [k])
    obtain ⟨rs, left, rest⟩ := ih (fun d hd => each d (List.mem_cons_of_mem _ hd)) between (k + 1)
    exact ⟨r :: rs, left, .cons first rest⟩

theorem exists_classifies (T : SymbolTable) (node : List Nat → ι) (t : Tree) (seen : Finset ι)
    (p : List Nat) : ∃ r left, T.Classifies node seen p t r left := by
  induction t using Tree.mem_children_induct generalizing seen p with
  | node i s ih =>
    obtain ⟨rs, left, runs⟩ := exists_classifiesAll ih (T.noted node seen p ⟨i, s⟩) p 0
    obtain ⟨u, alike, rfl⟩ := s.exists_alike_children runs.length_eq
    exact ⟨_, left, .node runs alike⟩

end Runs

section Order

/-- The first place comes before the second on a walk. -/
def Before : List Nat → List Nat → Prop := List.Lex (· < ·)

/-- What comes before the child of a place is the place with what is before it, and what is below the
children to the left. -/
theorem before_append_singleton {p q : List Nat} {k : Nat} :
    Before q (p ++ [k]) ↔ (Before q p ∨ q = p) ∨ ∃ j < k, p ++ [j] <+: q := by
  unfold Before
  induction p generalizing q with
  | nil =>
    cases q with
    | nil => simp
    | cons a q => simp [List.cons_lex_cons_iff]
  | cons b p ih =>
    cases q with
    | nil => simp
    | cons a q =>
      simp only [List.cons_append, List.cons_lex_cons_iff, ih, List.cons_prefix_cons,
        List.cons.injEq]
      grind

/-- The function of an application comes directly behind the application. -/
theorem Before.append_zero {p q : List Nat} (h : Before q p) :
    Before (q ++ [0]) p ∨ q ++ [0] = p := by
  induction h with
  | @nil b p =>
    cases b with
    | zero =>
      cases p with
      | nil => exact .inr rfl
      | cons c p => exact .inl (.cons .nil)
    | succ b => exact .inl (.rel b.succ_pos)
  | rel h => exact .inl (.rel h)
  | cons _ ih =>
    rcases ih with before | rfl
    · exact .inl (.cons before)
    · exact .inr rfl

theorem not_before_self (p : List Nat) : ¬ Before p p := by
  intro h
  induction p with
  | nil => cases h
  | cons k p ih =>
    rcases List.cons_lex_cons_iff.mp h with less | ⟨-, h⟩
    · exact Nat.lt_irrefl k less
    · exact ih h

theorem before_next_child {p q : List Nat} {k : Nat} :
    Before q (p ++ [k + 1]) ↔ (Before q (p ++ [k]) ∨ q = p ++ [k]) ∨ p ++ [k] <+: q := by
  rw [before_append_singleton, before_append_singleton]
  constructor
  · rintro (upto | ⟨j, hj, below⟩)
    · exact .inl (.inl (.inl upto))
    · rcases Nat.lt_succ_iff_lt_or_eq.mp hj with hj | rfl
      · exact .inl (.inl (.inr ⟨j, hj, below⟩))
      · exact .inr below
  · rintro (((upto | ⟨j, hj, below⟩) | rfl) | below)
    · exact .inl upto
    · exact .inr ⟨j, by omega, below⟩
    · exact .inr ⟨k, by omega, List.prefix_rfl⟩
    · exact .inr ⟨k, by omega, below⟩

/-- Behind the last child of a place, everything below the place has been met. -/
theorem before_behind_children {p q : List Nat} {k : Nat} {n : Tree} (found : t.at? q = some n)
    (last : ∀ j, t.at? (p ++ [k + j]) = none) :
    Before q (p ++ [k]) ↔ (Before q p ∨ q = p) ∨ p <+: q := by
  rw [before_append_singleton]
  refine or_congr_right' fun outside => ⟨?_, ?_⟩
  · rintro ⟨j, -, below⟩
    exact (List.prefix_append p [j]).trans below
  · rintro ⟨r, rfl⟩
    cases r with
    | nil => exact absurd (.inr (List.append_nil p)) outside
    | cons j r =>
      refine ⟨j, Nat.lt_of_not_le fun beyond => ?_, r, by simp⟩
      have missing := last (j - k)
      rw [Nat.add_sub_cancel' beyond] at missing
      rw [List.append_cons, Tree.at?_append, missing] at found
      cases found

end Order

section Considered

theorem ConsideredAt.eq_zero {p : List Nat} {k : Nat} (h : T.ConsideredAt t (p ++ [k])) : k = 0 := by
  obtain ⟨q, chain, -⟩ := h
  obtain ⟨b, -, next, -⟩ := TransGen.tail'_iff.mp chain
  simpa using (List.append_inj' next rfl).2

theorem ConsideredAt.exists_at? {p : List Nat} (h : T.ConsideredAt t p) : ∃ n, t.at? p = some n := by
  obtain ⟨q, chain, -⟩ := h
  obtain ⟨b, -, rfl, ⟨i, s⟩, found, application⟩ := TransGen.tail'_iff.mp chain
  rw [Tree.at?_append, found, Option.bind_some, Tree.at?_singleton]
  obtain ⟨fn, args, rfl⟩ | ⟨plain, -⟩ := s.apply_or_other
  · exact ⟨fn, rfl⟩
  · exact absurd application (by simp [plain])

variable {ι : Type}

/-- The node at the place has been met before, as the function of an application that was considered
already or whose list may have been supplied. -/
def ConsideredBefore (T : SymbolTable) {t : Tree} (sharing : t.Sharing ι) (p : List Nat) : Prop :=
  ∃ q, Before q p ∧ T.ConsideredAt t q ∧ sharing.node q = sharing.node p

theorem not_consideredBefore_unshared {p : List Nat} : ¬ T.ConsideredBefore t.unshared p := by
  rintro ⟨q, before, -, same⟩
  obtain rfl : q = p := same
  exact not_before_self q before

/-- The set holds exactly the nodes to be passed over among those that have been met. -/
def Collects (T : SymbolTable) {t : Tree} (sharing : t.Sharing ι) (met : List Nat → Prop)
    (seen : Finset ι) : Prop :=
  ∀ x, x ∈ seen ↔ ∃ q, met q ∧ T.ConsideredAt t q ∧ sharing.node q = x

variable {sharing : t.Sharing ι} {met met' : List Nat → Prop} {seen left : Finset ι} {p : List Nat}
  {n r : Tree}

theorem Collects.congr (h : T.Collects sharing met seen)
    (same : ∀ q, T.ConsideredAt t q → (met q ↔ met' q)) : T.Collects sharing met' seen := by
  intro x
  rw [h x]
  refine exists_congr fun q => and_congr_left fun ⟨considered, _⟩ => same q considered

theorem Collects.node_mem (h : T.Collects sharing (fun q => Before q p ∨ q = p) seen) :
    sharing.node p ∈ seen ↔ T.ConsideredAt t p ∨ T.ConsideredBefore sharing p := by
  rw [h]
  constructor
  · rintro ⟨q, before | rfl, considered, same⟩
    · exact .inr ⟨q, before, considered, same⟩
    · exact .inl considered
  · rintro (considered | ⟨q, before, considered, same⟩)
    · exact ⟨p, .inr rfl, considered, rfl⟩
    · exact ⟨q, .inl before, considered, same⟩

variable [DecidableEq ι]

/-- One node more: what is noted at a place is the node of its function. -/
theorem Collects.noted (here : t.at? p = some n)
    (h : T.Collects sharing (fun q => Before q p ∨ q = p) seen) :
    T.Collects sharing (fun q => Before q (p ++ [0]) ∨ q = p ++ [0])
      (T.noted sharing.node seen p n) := by
  have behind {q : List Nat} (met : Before q p ∨ q = p) : Before q (p ++ [0]) :=
    before_append_singleton.mpr (.inl met)
  have child (q : List Nat) (found : t.at? q = some n) := consideredAt_child (T := T) found 0
  intro x
  rw [mem_noted]
  constructor
  · rintro (inside | ⟨rfl, passes⟩)
    · obtain ⟨q, met, considered, same⟩ := (h x).mp inside
      exact ⟨q, .inl (behind met), considered, same⟩
    · simp only [passesOn, Bool.and_eq_true, Bool.or_eq_true, decide_eq_true_eq] at passes
      obtain ⟨application, inside | supplied⟩ := passes
      · -- The node may have been noted at an earlier place, and then its function was noted there.
        obtain ⟨q, met, considered, same⟩ := (h _).mp inside
        have found : t.at? q = some n := (sharing.same q p same).trans here
        refine ⟨q ++ [0], ?_, (child q found).mpr ⟨rfl, application, .inl considered⟩,
          sharing.below q p 0 same⟩
        rcases met with before | rfl
        · exact .inl (behind before.append_zero)
        · exact .inr rfl
      · exact ⟨p ++ [0], .inr rfl, (child p here).mpr ⟨rfl, application, .inr supplied⟩, rfl⟩
  · rintro ⟨q, before | rfl, considered, rfl⟩
    · have met : Before q p ∨ q = p := by simpa [before_append_singleton] using before
      exact .inl ((h _).mpr ⟨q, met, considered, rfl⟩)
    · refine .inr ⟨rfl, ?_⟩
      obtain ⟨-, application, considered⟩ := (child p here).mp considered
      simp only [passesOn, application, Bool.true_and, Bool.or_eq_true, decide_eq_true_eq]
      exact considered.imp_left fun considered => h.node_mem.mpr (.inl considered)

/-- What a run makes of the node at a place. -/
def MarkedAt (T : SymbolTable) {t : Tree} (sharing : t.Sharing ι) (p : List Nat) (n r : Tree) :
    Prop :=
  r.shape.Alike n.shape ∧ ∃ considered : Bool,
    (considered = true ↔ T.ConsideredAt t p ∨ T.ConsideredBefore sharing p) ∧
      r.info = T.classified considered n

theorem ClassifiesAll.marked {cs : List Tree}
    (each : ∀ c ∈ cs, ∀ seen p r left, t.at? p = some c →
      T.Collects sharing (fun q => Before q p ∨ q = p) seen →
        T.Classifies sharing.node seen p c r left →
          (∀ q, Option.Rel (T.MarkedAt sharing (p ++ q)) (c.at? q) (r.at? q)) ∧
            T.Collects sharing (fun q => (Before q p ∨ q = p) ∨ p <+: q) left)
    {k : Nat} {rs : List Tree} (children : ∀ j, t.at? (p ++ [k + j]) = cs[j]?)
    (collects : T.Collects sharing (fun q => Before q (p ++ [k]) ∨ q = p ++ [k]) seen)
    (run : T.ClassifiesAll sharing.node seen p k cs rs left) :
    (∀ j q, Option.Rel (T.MarkedAt sharing (p ++ [k + j] ++ q)) (cs[j]?.bind (·.at? q))
        (rs[j]?.bind (·.at? q))) ∧
      T.Collects sharing (fun q => (Before q p ∨ q = p) ∨ p <+: q) left := by
  induction cs generalizing seen k rs with
  | nil =>
    cases run
    refine ⟨fun j q => .none, collects.congr fun q considered => ?_⟩
    obtain ⟨n, found⟩ := considered.exists_at?
    rw [← before_behind_children found children]
    refine or_iff_left_of_imp ?_
    rintro rfl
    rw [show p ++ [k] = p ++ [k + 0] from rfl, children] at found
    cases found
  | cons c cs ih =>
    cases run with
    | cons first rest =>
      obtain ⟨firstMarked, between⟩ := each c List.mem_cons_self _ _ _ _ (children 0) collects first
      have behind (j : Nat) : t.at? (p ++ [k + 1 + j]) = cs[j]? := by
        rw [Nat.add_assoc, Nat.add_comm 1 j]
        exact children (j + 1)
      obtain ⟨restMarked, after⟩ := ih (fun d hd => each d (List.mem_cons_of_mem _ hd)) behind
        (between.congr fun q considered => by
          rw [← before_next_child]
          refine (or_iff_left ?_).symm
          rintro rfl
          cases considered.eq_zero) rest
      refine ⟨fun j q => ?_, after⟩
      cases j with
      | zero => exact firstMarked q
      | succ j =>
        have marked := restMarked j q
        rwa [Nat.add_assoc, Nat.add_comm 1 j] at marked

/-- A run from the place on, if what has been met is noted before it, and what it has met is noted
behind it. -/
theorem Classifies.marked (here : t.at? p = some n)
    (collects : T.Collects sharing (fun q => Before q p ∨ q = p) seen)
    (run : T.Classifies sharing.node seen p n r left) :
    (∀ q, Option.Rel (T.MarkedAt sharing (p ++ q)) (n.at? q) (r.at? q)) ∧
      T.Collects sharing (fun q => (Before q p ∨ q = p) ∨ p <+: q) left := by
  induction n using Tree.mem_children_induct generalizing seen p r left with
  | node i s ih =>
    cases run with
    | node below alike =>
      have children (j : Nat) : t.at? (p ++ [0 + j]) = s.children[j]? := by
        rw [Nat.zero_add, Tree.at?_append, here, Option.bind_some, Tree.at?_singleton]
        rfl
      obtain ⟨marked, after⟩ := ClassifiesAll.marked
        (fun c hc seen p r left here collects run => ih c hc here collects run)
        children (collects.noted here) below
      refine ⟨fun q => ?_, after⟩
      cases q with
      | nil =>
        refine .some ⟨alike, decide (sharing.node p ∈ seen), ?_, rfl⟩
        rw [List.append_nil, decide_eq_true_iff, collects.node_mem]
      | cons j q =>
        have child := marked j q
        rwa [Nat.zero_add, List.append_assoc, List.singleton_append] at child

/-- A run over a whole tree has one result. -/
theorem exists_marked (T : SymbolTable) (sharing : t.Sharing ι) :
    ∃ r, (∀ u, (∃ left, T.Classifies sharing.node ∅ [] t u left) ↔ u = r) ∧
      ∀ p, Option.Rel (T.MarkedAt sharing p) (t.at? p) (r.at? p) := by
  obtain ⟨r, left, run⟩ := exists_classifies T sharing.node t ∅ []
  have nothing : T.Collects sharing (fun q => Before q [] ∨ q = []) ∅ := by
    intro x
    simp [Before, not_consideredAt_root]
  refine ⟨r, fun u => ⟨?_, ?_⟩, (run.marked rfl nothing).1⟩
  · rintro ⟨left', run'⟩
    exact (run'.unique run).1
  · rintro rfl
    exact ⟨left, run⟩

end Considered

/-- What the node at a place becomes when the argument lists are classified. -/
structure ClassifiedAt {ι : Type} (T : SymbolTable) {t : Tree} (sharing : t.Sharing ι)
    (p : List Nat) (n r : Tree) : Prop where
  alike : r.shape.Alike n.shape
  kept : r.info.SameButLists n.info
  written : n.shape.isApplication = true → r.info.marks.written = false
  inserted : n.shape.isApplication = true → (r.info.marks.inserted = true ↔
    T.OutermostAt t p ∧ ¬ T.ConsideredBefore sharing p)
  other : n.shape.isApplication = false → r.info.marks = n.info.marks

theorem MarkedAt.classifiedAt {ι : Type} {sharing : t.Sharing ι} {p : List Nat} {n r : Tree}
    (found : t.at? p = some n) (fresh : n.info.marks.inserted = false)
    (h : T.MarkedAt sharing p n r) : T.ClassifiedAt sharing p n r := by
  obtain ⟨alike, considered, met, info⟩ := h
  have here : T.SuppliedAt t p ↔ T.supplies n = true := by simp [SuppliedAt, found]
  refine ⟨alike, ?_, ?_, ?_, ?_⟩
  · rw [info]
    exact sameButLists_classified considered n
  · intro application
    rw [info, marks_classified application]
  · intro application
    rw [info, marks_classified application, outermostAt_iff, here, and_assoc, ← not_or, ← met]
    simp [fresh, and_comm]
  · intro other
    rw [info]
    simp [classified, other]

theorem classified_congr {considered considered' : Bool} {n : Tree}
    (h : T.supplies n = true → considered = considered') :
    T.classified considered n = T.classified considered' n := by
  unfold classified
  cases supplied : T.supplies n with
  | true => rw [h supplied]
  | false => simp

/-- Noting nodes makes a difference to handing down exactly where an outermost application is a node
that was met before further down. -/
theorem eq_markInserted_iff {ι : Type} {sharing : t.Sharing ι} {r : Tree}
    (unmarked : ∀ n ∈ t.preorder, n.info.marks.inserted = false)
    (marked : ∀ p, Option.Rel (T.MarkedAt sharing p) (t.at? p) (r.at? p)) :
    r = T.markInserted false t ↔ ∀ p, T.OutermostAt t p → ¬ T.ConsideredBefore sharing p := by
  constructor
  · rintro rfl p outermost before
    obtain ⟨⟨n, found, supplied⟩, first⟩ := outermostAt_iff.mp outermost
    obtain ⟨considered, above, same⟩ := T.at?_markInserted t p
    have here := marked p
    rw [same, found, Option.map_some, Option.rel_some_some] at here
    obtain ⟨-, met, known, info⟩ := here
    obtain rfl : met = true := known.mpr (.inr before)
    obtain rfl : considered = false := by simpa [first] using above n found
    have fresh : n.info.marks.inserted = false := unmarked n (Tree.mem_preorder_of_at? found)
    have application : n.shape.isApplication = true := by simp_all [supplies]
    have inserted := congrArg (fun i => i.marks.inserted) info
    simp [info_markInserted, marks_classified application, fresh, supplied] at inserted
  · intro apart
    refine Tree.eq_of_forall_at? fun p => ?_
    obtain ⟨considered, above, same⟩ := T.at?_markInserted t p
    have here := marked p
    rw [same]
    generalize r.at? p = result at here ⊢
    cases found : t.at? p with
    | none =>
      rw [found] at here
      cases here
      exact .none
    | some n =>
      rw [found] at here
      obtain ⟨u, rfl, h⟩ : ∃ u, result = some u ∧ T.MarkedAt sharing p n u := by
        cases here with
        | some h => exact ⟨_, rfl, h⟩
      obtain ⟨alike, met, known, info⟩ := h
      refine .some ⟨alike.trans (T.alike_markInserted considered n).symm, ?_⟩
      rw [info, info_markInserted]
      refine classified_congr fun supplied => ?_
      rw [Bool.eq_iff_iff, known, above n found]
      refine or_iff_left_of_imp fun before => ?_
      by_contra first
      exact apart p (outermostAt_iff.mpr ⟨⟨n, found, supplied⟩, first⟩) before

end SymbolTable

/-- Argument lists are classified exactly, also where one node stands at several places. On each chain
of applications that are functions of each other, the outermost one whose list may have been supplied
is marked, and no other. It is passed over only if its node was met before further down a chain, and
where this is never so, handing down gives the same tree as one set of nodes for the whole run.
Applications are not marked as written any more, and all else is as it was. -/
theorem supplied_lists_classified (T : SymbolTable) {t : Tree} {ι : Type} [DecidableEq ι]
    (sharing : t.Sharing ι) (unmarked : ∀ n ∈ t.preorder, n.info.marks.inserted = false) :
    ∃ r, (∀ u, (∃ left, T.Classifies sharing.node ∅ [] t u left) ↔ u = r) ∧
      (∀ p, Option.Rel (T.ClassifiedAt sharing p) (t.at? p) (r.at? p)) ∧
        (r = T.markInserted false t ↔
          ∀ p, T.OutermostAt t p → ¬ T.ConsideredBefore sharing p) := by
  obtain ⟨r, unique, marked⟩ := SymbolTable.exists_marked T sharing
  refine ⟨r, unique, fun p => ?_, SymbolTable.eq_markInserted_iff unmarked marked⟩
  refine optionRel_imp (marked p) fun n u found _ h => ?_
  exact h.classifiedAt found (unmarked n (Tree.mem_preorder_of_at? found))

/-- Four lists that end in an order, three of them for one call. The outermost of these three is
written, and the fourth is in an argument. -/
def mixedChain : Tree :=
  ⟨{ symbol := some ⟨"sort"⟩, marks := { written := true } },
    .apply (withOrder (withOrder (sortCall { written := true }
      (withOrder (sortCall {} (.bare (.ident (.term "xs"))))))))
      [.bare (.ident (.term "order"))]⟩

theorem mixedChain_unmarked : ∀ n ∈ mixedChain.preorder, n.info.marks.inserted = false := by
  simp [mixedChain, withOrder, sortCall, Tree.preorder_eq, Tree.children, Shape.children, Tree.bare]

/-- The second list of the chain and the one in the argument are marked, and the third is not. -/
theorem mixedChain_classified :
    let T := sortSession.setting.symbols
    (∀ n ∈ mixedChain.preorder, n.info.marks.inserted = false) ∧
      T.SuppliedAt mixedChain [0] ∧ T.SuppliedAt mixedChain [0, 0] ∧
      T.SuppliedAt mixedChain [0, 0, 0, 1] ∧
      (∃ r, (T.markInserted false mixedChain).at? [0] = some r ∧ r.info.marks.inserted = true) ∧
      (∃ r, (T.markInserted false mixedChain).at? [0, 0] = some r ∧
        r.info.marks.inserted = false) ∧
      ∃ r, (T.markInserted false mixedChain).at? [0, 0, 0, 1] = some r ∧
        r.info.marks.inserted = true := by
  intro T
  have supplied : T.SuppliedAt mixedChain [0] ∧ T.SuppliedAt mixedChain [0, 0] ∧
      T.SuppliedAt mixedChain [0, 0, 0, 1] :=
    ⟨⟨_, rfl, by decide⟩, ⟨_, rfl, by decide⟩, ⟨_, rfl, by decide⟩⟩
  obtain ⟨r, -, places, same⟩ := supplied_lists_classified T mixedChain.unshared mixedChain_unmarked
  obtain rfl := same.mpr fun p _ => SymbolTable.not_consideredBefore_unshared
  have classified {p : List Nat} {n : Tree} (found : mixedChain.at? p = some n) :
      ∃ r, (T.markInserted false mixedChain).at? p = some r ∧
        T.ClassifiedAt mixedChain.unshared p n r := by
    have related := places p
    rw [found] at related
    generalize (T.markInserted false mixedChain).at? p = result at related ⊢
    cases related with
    | some h => exact ⟨_, rfl, h⟩
  have second : ¬ T.ConsideredAt mixedChain [0] := by
    have child := SymbolTable.consideredAt_child (T := T) (t := mixedChain) (p := []) rfl 0
    rw [List.nil_append] at child
    rw [child]
    rintro ⟨-, -, above | written⟩
    · exact SymbolTable.not_consideredAt_root above
    · revert written
      decide
  have third : T.ConsideredAt mixedChain [0, 0] :=
    (SymbolTable.consideredAt_child (p := [0]) rfl 0).mpr ⟨rfl, rfl, .inr (by decide)⟩
  have argument : ¬ T.ConsideredAt mixedChain [0, 0, 0, 1] := by
    have child := SymbolTable.consideredAt_child (T := T) (t := mixedChain) (p := [0, 0, 0]) rfl 1
    intro considered
    exact absurd (child.mp considered).1 (by decide)
  have marked {p : List Nat} (supplied : T.SuppliedAt mixedChain p)
      (first : ¬ T.ConsideredAt mixedChain p) :
      T.OutermostAt mixedChain p ∧ ¬ T.ConsideredBefore mixedChain.unshared p :=
    ⟨SymbolTable.outermostAt_iff.mpr ⟨supplied, first⟩, SymbolTable.not_consideredBefore_unshared⟩
  refine ⟨mixedChain_unmarked, supplied.1, supplied.2.1, supplied.2.2, ?_, ?_, ?_⟩
  · obtain ⟨r, found, h⟩ := classified (p := [0]) rfl
    exact ⟨r, found, (h.inserted rfl).mpr (marked supplied.1 second)⟩
  · obtain ⟨r, found, h⟩ := classified (p := [0, 0]) rfl
    refine ⟨r, found, Bool.eq_false_iff.mpr fun inserted => ?_⟩
    exact (SymbolTable.outermostAt_iff.mp ((h.inserted rfl).mp inserted).1).2 third
  · obtain ⟨r, found, h⟩ := classified (p := [0, 0, 0, 1]) rfl
    exact ⟨r, found, (h.inserted rfl).mpr (marked supplied.2.2 argument)⟩

def markedCall : Tree := sortCall { written := true } (.bare (.ident (.term "xs")))

def markedAnnotation : Tree := .bare (.annotated markedCall (.bare (.ident (.type "Int"))))

/-- A resolved type that was written with an annotation, the call in which counts as written. -/
def annotatedType : Tree := .bare (.typeTree (some markedAnnotation))

/-- An order for a call, as the function of one more order and then on its own. -/
def repeatedOrder : Tree :=
  let call := withOrder (.bare (.ident (.term "xs")))
  .bare (.block [withOrder call] call)

/-- Both times it is one node. -/
def repeatedOrderNodes : repeatedOrder.Sharing (List Nat) where
  node
    | 1 :: p => 0 :: 0 :: p
    | p => p
  same := by
    have moved (p : List Nat) : repeatedOrder.at? (1 :: p) = repeatedOrder.at? (0 :: 0 :: p) := rfl
    intro p q h
    split at h <;> split at h <;> simp_all
  below := by
    intro p q k h
    split at h <;> split at h
    · simp_all
    · rw [← h]
      rfl
    · rw [h]
      rfl
    · rw [h]

/-- A call in the annotation of a resolved type is left marked as written. An outermost application
whose list may have been supplied is left unmarked, if its node was met before as a function. -/
theorem repeated_node_unmarked :
    let T := sortSession.setting.symbols
    ((∀ n ∈ annotatedType.preorder, n.info.marks.inserted = false) ∧
      ∃ call, (T.markInserted false annotatedType).Contains call ∧
        call.shape.isApplication = true ∧ call.info.marks.written = true) ∧
    (∀ n ∈ repeatedOrder.preorder, n.info.marks.inserted = false) ∧
      T.OutermostAt repeatedOrder [1] ∧
        ∃ r, (∀ u, (∃ left, T.Classifies repeatedOrderNodes.node ∅ [] repeatedOrder u left) ↔
            u = r) ∧
          ∃ call, r.at? [1] = some call ∧ call.info.marks.inserted = false := by
  intro T
  refine ⟨⟨?_, ?_⟩, ?_, ?_, ?_⟩
  · simp [annotatedType, Tree.preorder_eq, Tree.children, Shape.children, Tree.bare]
  · have kept : T.markInserted false annotatedType = annotatedType :=
      T.markInserted_other (s := .typeTree (some markedAnnotation)) (by simp) false
    have form : markedAnnotation ∈ annotatedType.subtrees := List.mem_singleton_self _
    have call : markedCall ∈ markedAnnotation.subtrees := List.mem_cons_self
    rw [kept]
    exact ⟨markedCall, .tail (.single form) call, rfl, rfl⟩
  · simp [repeatedOrder, withOrder, Tree.preorder_eq, Tree.children, Shape.children, Tree.bare]
  · have outermost := SymbolTable.consideredAt_child (T := T) (t := repeatedOrder) (p := []) rfl 1
    refine SymbolTable.outermostAt_iff.mpr ⟨⟨_, rfl, by decide⟩, fun considered => ?_⟩
    exact absurd (outermost.mp considered).1 (by decide)
  · obtain ⟨r, unique, marked⟩ := SymbolTable.exists_marked T repeatedOrderNodes
    refine ⟨r, unique, ?_⟩
    have function : T.ConsideredAt repeatedOrder [0, 0] :=
      (SymbolTable.consideredAt_child (p := [0]) rfl 0).mpr ⟨rfl, rfl, .inr (by decide)⟩
    have here := marked [1]
    generalize r.at? [1] = result at here ⊢
    cases here with
    | some h =>
      obtain ⟨-, considered, met, info⟩ := h
      obtain rfl : considered = true :=
        met.mpr (.inr ⟨[0, 0], .rel Nat.zero_lt_one, function, rfl⟩)
      exact ⟨_, rfl, by rw [info]; decide⟩

end TreeRepair
