import TreeRepair.CaseClass.Clean
import TreeRepair.Checked.DefaultArguments

namespace TreeRepair

theorem Shape.mem_children_of_mem_statements {s : Shape Tree} {x : Tree} (h : x ∈ s.statements) :
    x ∈ s.children := by
  cases s with
  | template parents self body => simp_all [statements, children]
  | packageDef pid stats => simp_all [statements, children]
  | block stats expr =>
    rcases List.mem_cons.mp h with rfl | statement
    · simp [children]
    · simp [children, statement]
  | _ => simp [statements] at h

namespace Setting

variable (W : Setting)

/-- A helper that stands under its moved name. -/
def isMovedHelper (t : Tree) : Bool :=
  W.isDefaultHelper t && Text.endsWith t.declaredText W.conventions.movedEnding

/-- What stays of a statement where it stands. -/
def keptInPlace (t : Tree) : Tree := if W.isMovedHelper t then .empty else t

theorem settleHelper_kept (used : List SymbolId) (seen : List (String × Option Tree)) (t : Tree) :
    (W.settleHelper used seen t).kept = W.keptInPlace t := by
  simp only [settleHelper, keptInPlace, isMovedHelper]
  grind

/-- Copies are made of the helpers met so far and of the one at hand. -/
theorem settleHelper_copies (used : List SymbolId) {seen : List (String × Option Tree)} {t : Tree}
    {P : Tree → Prop} (hseen : ∀ p ∈ seen, ∀ c ∈ p.2, P c)
    (ht : W.isDefaultHelper t = true → P (W.movedCopy t)) :
    (∀ p ∈ (W.settleHelper used seen t).seen, ∀ c ∈ p.2, P c) ∧
      ∀ c ∈ (W.settleHelper used seen t).moved, P c := by
  unfold settleHelper
  dsimp only
  split
  next helper =>
    have copy := ht helper
    split
    · split
      · split
        next found lookup =>
          obtain ⟨l₁, l₂, rfl, _⟩ := List.lookup_eq_some_iff.mp lookup
          refine ⟨hseen, fun c hc => ?_⟩
          exact hseen (Text.dropEnding t.declaredText W.conventions.movedEnding, found) (by simp) c
            (by simpa using hc)
        next => exact ⟨by simpa using hseen, by simp⟩
      · exact ⟨hseen, by simp⟩
    · split
      · exact ⟨hseen, by simpa using copy⟩
      · exact ⟨by simpa [copy] using hseen, by simp⟩
  next => exact ⟨hseen, by simp⟩

theorem settleHelpers_kept (used : List SymbolId) (seen : List (String × Option Tree))
    (stats : List Tree) :
    (W.settleHelpers used seen stats).1 = stats.map W.keptInPlace := by
  induction stats generalizing seen with
  | nil => rfl
  | cons t rest ih =>
    simp only [settleHelpers, List.map_cons]
    rw [ih, W.settleHelper_kept]

theorem settleHelpers_copies {used : List SymbolId} {seen : List (String × Option Tree)}
    {stats : List Tree} {P : Tree → Prop} (hseen : ∀ p ∈ seen, ∀ c ∈ p.2, P c)
    (hstats : ∀ t ∈ stats, W.isDefaultHelper t = true → P (W.movedCopy t)) :
    ∀ c ∈ (W.settleHelpers used seen stats).2, P c := by
  induction stats generalizing seen with
  | nil => simp [settleHelpers]
  | cons t rest ih =>
    obtain ⟨hs, hm⟩ := W.settleHelper_copies used hseen (hstats t (by simp))
    intro c hc
    simp only [settleHelpers, List.mem_append] at hc
    rcases hc with hc | hc
    · exact hm c hc
    · exact ih hs (fun u hu => hstats u (by simp [hu])) c hc

/-- Reconciled statements are those that were there, each in its place, with copies of helpers
behind them. -/
theorem settleStatements_eq (used : List SymbolId) (stats : List Tree) :
    ∃ copies, W.settleStatements used stats = stats.map W.keptInPlace ++ copies ∧
      ∀ c ∈ copies, ∃ t ∈ stats, W.isDefaultHelper t = true ∧ c = W.movedCopy t := by
  refine ⟨(W.settleHelpers used [] stats).2, ?_, ?_⟩
  · rw [← W.settleHelpers_kept used []]
    rfl
  · exact W.settleHelpers_copies (by simp) fun t ht helper => ⟨t, ht, helper, rfl⟩

theorem getElem?_settled {body : List Tree} (copies : List Tree) {k : Nat} {x : Tree}
    (hx : body[k]? = some x) :
    (body.map W.keptInPlace ++ copies)[k]? = some (W.keptInPlace x) := by
  rw [List.getElem?_append_left (by simpa using (List.getElem?_eq_some_iff.mp hx).1)]
  simp [hx]

theorem statements_settleShape (used : List SymbolId) (s : Shape Tree) :
    (W.settleShape used s).statements = W.settleStatements used s.statements := by
  cases s with
  | block stats expr =>
    simp only [settleShape]
    cases settled : W.settleStatements used (expr :: stats) with
    | nil => simp [settleStatements, settleHelpers] at settled
    | cons => exact settled.symm
  | _ => rfl

theorem settleShape_of_statements {used : List SymbolId} {s : Shape Tree}
    (h : W.settleStatements used s.statements = s.statements) : W.settleShape used s = s := by
  cases s with
  | template parents self body => exact congrArg (Shape.template parents self) h
  | packageDef pid stats => exact congrArg (Shape.packageDef pid) h
  | block stats expr =>
    have settled : W.settleStatements used (expr :: stats) = expr :: stats := h
    simp only [settleShape, settled]
  | _ => rfl

theorem settleHelpers_of_no_helper (used : List SymbolId) {stats : List Tree}
    (h : ∀ t ∈ stats, W.isDefaultHelper t = false) (seen : List (String × Option Tree)) :
    W.settleHelpers used seen stats = (stats, []) := by
  induction stats generalizing seen with
  | nil => rfl
  | cons t rest ih =>
    have step : W.settleHelper used seen t = ⟨seen, t, []⟩ := by
      simp [settleHelper, h t List.mem_cons_self]
    simp [settleHelpers, step, ih (fun u hu => h u (List.mem_cons_of_mem _ hu))]

theorem settleShape_of_no_helper (used : List SymbolId) {s : Shape Tree}
    (h : ∀ t ∈ s.children, W.isDefaultHelper t = false) : W.settleShape used s = s := by
  refine W.settleShape_of_statements ?_
  have noHelper (t : Tree) (ht : t ∈ s.statements) : W.isDefaultHelper t = false :=
    h t (Shape.mem_children_of_mem_statements ht)
  simp [settleStatements, W.settleHelpers_of_no_helper used noHelper]

/-- The names of the helpers among some statements. -/
def helperNames (stats : List Tree) : List String :=
  (stats.filter W.isDefaultHelper).map Tree.declaredText

theorem settleHelpers_of_distinct {stats : List Tree} {seen : List (String × Option Tree)}
    (plain : ∀ t ∈ stats, W.isMovedHelper t = false)
    (new : ∀ name ∈ W.helperNames stats, seen.lookup name = none)
    (distinct : (W.helperNames stats).Nodup) : W.settleHelpers [] seen stats = (stats, []) := by
  induction stats generalizing seen with
  | nil => rfl
  | cons t rest ih =>
    have plainRest : ∀ u ∈ rest, W.isMovedHelper u = false :=
      fun u hu => plain u (List.mem_cons_of_mem _ hu)
    cases helper : W.isDefaultHelper t with
    | false =>
      have step : W.settleHelper [] seen t = ⟨seen, t, []⟩ := by simp [settleHelper, helper]
      simp only [helperNames, List.filter_cons, helper, Bool.false_eq_true, if_false]
        at new distinct
      simp [settleHelpers, step, ih plainRest new distinct]
    | true =>
      have notMoved : Text.endsWith t.declaredText W.conventions.movedEnding = false := by
        simpa [isMovedHelper, helper] using plain t List.mem_cons_self
      simp only [helperNames, List.filter_cons, helper, if_true, List.map_cons,
        List.forall_mem_cons, List.nodup_cons] at new distinct
      obtain ⟨unseen, new⟩ := new
      obtain ⟨once, distinct⟩ := distinct
      have step : W.settleHelper [] seen t =
          ⟨(t.declaredText, some (W.movedCopy t)) :: seen, t, []⟩ := by
        simp [settleHelper, helper, notMoved, unseen, Option.any_eq_false_iff_get]
      have stillNew : ∀ name ∈ W.helperNames rest,
          List.lookup name ((t.declaredText, some (W.movedCopy t)) :: seen) = none := by
        intro name hname
        have other : name ≠ t.declaredText := fun same => once (same ▸ hname)
        rw [List.lookup_cons, beq_eq_false_iff_ne.mpr other]
        exact new name hname
      simp [settleHelpers, step, ih plainRest stillNew distinct]

/-- Where no helper is in use, none stands under its moved name and their names are distinct,
there is nothing to reconcile. -/
theorem settleShape_of_distinct {s : Shape Tree}
    (plain : ∀ t ∈ s.statements, W.isMovedHelper t = false)
    (distinct : (W.helperNames s.statements).Nodup) : W.settleShape [] s = s := by
  refine W.settleShape_of_statements ?_
  simp [settleStatements, W.settleHelpers_of_distinct plain (fun _ _ => List.lookup_nil) distinct]

end Setting

end TreeRepair
