import TreeRepair.CaseClass.Restore
import TreeRepair.Cleanup.InferredTypes
import TreeRepair.Proofs.DeclaredMentions
import TreeRepair.Proofs.DenotedSymbols
import TreeRepair.Proofs.OwnerChains

namespace TreeRepair

namespace SymbolTable

variable {T : SymbolTable}

/-- The search for an answer comes to an end. -/
def Answers (T : SymbolTable) : Question → Prop
  | .owner found s => (T.climbing found).Ends s
  | .denoted t => T.denoting.Ends t
  | .parameters s => T.declaring.Ends s

theorem owner_of_mem_climbing {found : SymbolId → Bool} {s o : SymbolId}
    (h : o ∈ (T.climbing found).drawn s) : (T.get s).owner = some o := by
  simp only [climbing, Descent.along] at h
  split at h
  · cases h
  · exact Option.mem_toList.mp h

theorem answers_iff {q : Question} : T.answers q = true ↔ T.Answers q := by
  cases q with
  | owner found s =>
    exact Descent.endsWithin_iff (fun _ _ ho => mem_listed_of_owner (owner_of_mem_climbing ho))
      T.card_listed_lt
  | denoted t =>
    exact Descent.endsWithin_iff (fun _ _ hu => mem_listed_of_info (Option.mem_toList.mp hu))
      T.card_listed_lt
  | parameters s =>
    exact Descent.endsWithin_iff (fun _ _ hp => mem_listed_of_typeParam hp) T.card_listed_lt

theorem climbing_ends {s : SymbolId} (ends : T.ascending.Ends s) (found : SymbolId → Bool) :
    (T.climbing found).Ends s :=
  ends.of_sub (fun _ _ hp => hp) (fun _ _ hk => hk) fun _ _ ho =>
    Option.mem_toList.mpr (owner_of_mem_climbing ho)

/-- If none of the owners is the one that is looked for, all of them are looked at. -/
theorem ascending_ends {found : SymbolId → Bool} {s : SymbolId} (ends : (T.climbing found).Ends s)
    (missed : ∀ o ∈ T.owners s, found o = false) : T.ascending.Ends s := by
  refine ends.holds (fun _ _ ho => mem_listed_of_owner (owner_of_mem_climbing ho))
    T.card_listed_lt (P := fun n s => (∀ o ∈ T.ownersWithin n s, found o = false) →
      T.ascending.Ends s) ?_ missed
  intro n s above missed
  refine .intro (fun _ hp => by cases hp) fun k hk o ho => ?_
  obtain rfl : k = s := List.mem_singleton.mp hk
  have owner : (T.get k).owner = some o := Option.mem_toList.mp ho
  have here : found k = false := missed k List.mem_cons_self
  refine above k .refl k hk o ?_ fun d hd => missed d ?_
  · simpa [climbing, Descent.along, here] using owner
  · rw [ownersWithin, owner]
    exact List.mem_cons_of_mem _ hd

/-- It is found out what the type denotes, and what the owners of that are. -/
def Resolves (T : SymbolTable) (t : Ty) : Prop :=
  T.denoting.Ends t ∧ ∀ s, T.denoted t = some s → T.ascending.Ends s

/-- Nothing in the table leads back to itself: neither owners nor type parameters, nor the types that
are looked up to write, to resolve or to look through a type. -/
structure Grounded (T : SymbolTable) : Prop where
  owners : T.AcyclicOwners
  parameters : T.AcyclicParameters
  written : T.Acyclic
  denoted : ∀ t, T.denoting.Ends t
  searched : ∀ t, T.searching.Ends t

/-- Where no symbol has a type, it is enough to look at owners and type parameters. -/
theorem grounded_of_untyped (untyped : ∀ s, (T.get s).info = none) (owners : T.AcyclicOwners)
    (parameters : T.AcyclicParameters) : T.Grounded where
  owners := owners
  parameters := parameters
  written := acyclic_of_leaves fun k u hu => by
    cases k <;> simp [found, expansion?, untyped] at hu
  denoted := Descent.ends_of_drawn_leaves fun k u hu => by simp [denoting, untyped] at hu
  searched := Descent.ends_of_drawn_leaves fun k u hu => by simp [searching, untyped] at hu

namespace Grounded

variable (grounded : T.Grounded)
include grounded

theorem resolves (t : Ty) : T.Resolves t := ⟨grounded.denoted t, fun s _ => grounded.owners.ends s⟩

theorem answers (q : Question) : T.Answers q := by
  cases q with
  | owner found s => exact climbing_ends (grounded.owners.ends s) found
  | denoted t => exact grounded.denoted t
  | parameters s => exact grounded.parameters.ends s

end Grounded

end SymbolTable

namespace Setting

variable {W : Setting}

/-- A task comes to an end, with all questions that come up. -/
def Finishes (W : Setting) : Task → Prop
  | .answer q => W.symbols.Answers q
  | .write t => W.rendering.Ends t ∧
      ∀ u, W.rendering.Comes t u → ∀ q ∈ W.questions u, W.symbols.Answers q
  | .seek p asked t => (W.symbols.seeking p).Ends t ∧
      ∀ u, (W.symbols.seeking p).Comes t u → ∀ q ∈ asked u, W.symbols.Answers q

theorem finishes_iff {k : Task} : W.finishes k = true ↔ W.Finishes k := by
  cases k with
  | answer q => exact SymbolTable.answers_iff
  | write t =>
    unfold finishes
    rw [Descent.passesWithin_iff
      (fun _ _ hu => W.symbols.mem_known (W.mem_found_of_mem_drawn hu)) W.symbols.card_known_lt]
    simp only [List.all_eq_true, SymbolTable.answers_iff]
    rfl
  | seek p asked t =>
    unfold finishes
    rw [Descent.passesWithin_iff (S := W.symbols.listed)
      (fun _ _ hu => SymbolTable.mem_listed_of_info (Option.mem_toList.mp hu))
      W.symbols.card_listed_lt]
    simp only [List.all_eq_true, SymbolTable.answers_iff]
    rfl

/-- Whatever becomes part of a written form can be written on its own. -/
theorem Finishes.of_comes {t u : Ty} (h : W.Finishes (.write t)) (comes : W.rendering.Comes t u) :
    W.Finishes (.write u) :=
  ⟨h.1.of_comes comes, fun v further => h.2 v (comes.trans further)⟩

theorem finishes_of_grounded (grounded : W.symbols.Grounded) (k : Task) : W.Finishes k := by
  cases k with
  | answer q => exact grounded.answers q
  | write t =>
    exact ⟨W.rendering_ends (grounded.written.ends t), fun u _ q _ => grounded.answers q⟩
  | seek p asked t =>
    refine ⟨(grounded.searched t).of_sub (fun x u hu => ?_) (fun x s hs => ?_) fun s u hu => hu,
      fun u _ q _ => grounded.answers q⟩
    · simp only [SymbolTable.seeking] at hu
      split at hu
      · cases hu
      · exact mem_of_mem_upToFirst hu
    · simp only [SymbolTable.seeking] at hs
      split at hs
      · cases hs
      · exact mem_of_mem_upToFirst hs

/-- All tasks come to an end at whatever a recursion visits. -/
def FinishesAll (W : Setting) (D : Descent Tree Empty) (tasks : Tree → List Task) (t : Tree) : Prop :=
  ∀ n, D.Visits t n → ∀ k ∈ tasks n, W.Finishes k

section FinishesAll

variable {D : Descent Tree Empty} {tasks : Tree → List Task} {t : Tree}

/-- Without sources, one level is enough. -/
theorem passesWithin_iff_finishesAll :
    D.passesWithin (fun n => (tasks n).all W.finishes) 1 t = true ↔ W.FinishesAll D tasks t := by
  rw [Descent.passesWithin, Descent.passesWith_iff]
  simp only [List.all_eq_true, finishes_iff]
  exact forall₂_congr fun n _ => and_iff_left fun k => k.elim

theorem finishesAll_iff : W.FinishesAll D tasks t ↔
    (∀ k ∈ tasks t, W.Finishes k) ∧ ∀ c ∈ D.parts t, W.FinishesAll D tasks c := by
  constructor
  · intro h
    exact ⟨h t .refl, fun c hc n visited => h n (.head hc visited)⟩
  · rintro ⟨here, below⟩ n visited
    rcases visited.cases_head with rfl | ⟨c, hc, further⟩
    · exact here
    · exact below c hc n further

theorem finishesAll_of_grounded (grounded : W.symbols.Grounded) : W.FinishesAll D tasks t :=
  fun _ _ k _ => finishes_of_grounded grounded k

end FinishesAll

/-- The removal of references comes to an end, with all that it has to find out and to write. -/
def Detaches (W : Setting) (symbols : List SymbolId) : Tree → Prop :=
  W.FinishesAll (W.detaching symbols) (W.detachTasks symbols)

/-- The cleaning of types comes to an end, with all that it has to find out and to write. -/
def CleaningEnds (W : Setting) (t : Tree) : Prop :=
  W.FinishesAll W.cleaning (W.cleanTasks t.definedTypes) t

theorem cleaningFinishes_iff {t : Tree} : W.cleaningFinishes t = true ↔ W.CleaningEnds t :=
  passesWithin_iff_finishesAll

/-- The removal of what is generated for case classes comes to an end. A misplaced case class that is
an error is found before references are removed. -/
def RestoreEnds (W : Setting) (t : Tree) : Prop :=
  ∀ p, W.restoreCaseClasses t = .ok p →
    W.Detaches
      (W.caseSymbols [t] ++ W.cleanedSymbols (W.conventions.cleanStatement (caseClassNames [t]) t))
      (W.conventions.cleanTree (W.conventions.cleanStatement (caseClassNames [t]) t))

theorem restore?_eq_some_iff {t : Tree} {x : Except Misplaced (Tree × List Misplaced)} :
    W.restore? t = some x ↔ W.restoreCaseClasses t = x ∧ W.RestoreEnds t := by
  unfold restore? RestoreEnds
  cases restored : W.restoreCaseClasses t with
  | error m => simp
  | ok p =>
    simp only [Except.ok.injEq, forall_eq', Detaches, ← passesWithin_iff_finishesAll]
    split
    next passed => simp [passed]
    next failed => simp [failed]

theorem restore?_eq_none_iff {t : Tree} : W.restore? t = none ↔ ¬ W.RestoreEnds t := by
  constructor
  · intro endless ends
    rw [restore?_eq_some_iff.mpr ⟨rfl, ends⟩] at endless
    cases endless
  · intro endless
    refine Option.eq_none_iff_forall_ne_some.mpr fun x answered => ?_
    exact endless (restore?_eq_some_iff.mp answered).2

end Setting

end TreeRepair
