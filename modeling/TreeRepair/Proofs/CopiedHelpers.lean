import TreeRepair.Proofs.HelperReferences

namespace TreeRepair

/-- Where one element at most is singled out, and gives nothing otherwise, what it gives can as well
be put first. -/
theorem flatMap_perm_of_single {α β : Type} {p : α → Bool} {f : α → List β} {c : β} {l : List α}
    (single : l.countP p ≤ 1) (silent : ∀ x ∈ l, p x = true → f x = []) :
    (l.flatMap fun x => if p x then [c] else f x).Perm
      ((if l.any p then [c] else []) ++ l.flatMap f) := by
  induction l with
  | nil => simp
  | cons x l ih =>
    obtain ⟨here, silent⟩ := List.forall_mem_cons.mp silent
    cases found : p x with
    | true =>
      have none : ∀ y ∈ l, p y = false := by
        have rest : l.countP p = 0 := by
          rw [List.countP_cons_of_pos found] at single
          omega
        simpa using List.countP_eq_zero.mp rest
      have unchanged : (l.flatMap fun y => if p y then [c] else f y) = l.flatMap f :=
        List.flatMap_congr fun y hy => by simp [none y hy]
      simp [found, here found, unchanged]
    | false =>
      rw [List.countP_cons_of_neg (by simp [found])] at single
      have later := ih single silent
      simp only [List.flatMap_cons, List.any_cons, found, Bool.false_or, Bool.false_eq_true,
        if_false]
      exact (later.append_left (f x)).trans (List.perm_append_comm_assoc ..)

namespace Setting

variable (W : Setting)

/-- A helper in use that stands under the moved name of the one with the given name. -/
def asksFor (used : List SymbolId) (text : String) (t : Tree) : Bool :=
  W.isDefaultHelper t && t.declaredText == text ++ W.conventions.movedEnding &&
    t.symbol.any used.contains

/-- A helper under its plain name, of which one of the two forms is in use. -/
def isCopied (used : List SymbolId) (stats : List Tree) (d : Tree) : Bool :=
  W.isDefaultHelper d && !Text.endsWith d.declaredText W.conventions.movedEnding &&
    (d.symbol.any used.contains || stats.any (W.asksFor used d.declaredText))

/-- The copies that a statement is the reason for, once some names have been met: a plain helper
brings its own if it is in use, or asked for before or behind it, and a moved one in use the copy
that waits for it. -/
def broughtCopies (used : List SymbolId) (seen : List (String × Option Tree)) (stats : List Tree)
    (t : Tree) : List Tree :=
  if !W.isDefaultHelper t then []
  else if Text.endsWith t.declaredText W.conventions.movedEnding then
    if t.symbol.any used.contains then (seen.lookup (W.plainText t.declaredText)).join.toList else []
  else if t.symbol.any used.contains || (seen.lookup t.declaredText).isSome ||
      stats.any (W.asksFor used t.declaredText) then [W.movedCopy t]
  else []

variable {W} {used : List SymbolId} {seen : List (String × Option Tree)} {stats : List Tree}
  {t : Tree}

theorem asksFor_iff {text : String} (helper : W.isDefaultHelper t = true)
    (moved : Text.endsWith t.declaredText W.conventions.movedEnding = true)
    (inUse : t.symbol.any used.contains = true) :
    W.asksFor used text t = true ↔ W.plainText t.declaredText = text := by
  rw [asksFor, helper, inUse, Bool.true_and, Bool.and_true, beq_iff_eq]
  constructor
  · intro named
    rw [plainText, ← String.append_left_inj W.conventions.movedEnding,
      Text.dropEnding_append moved, named]
  · rintro rfl
    exact (Text.dropEnding_append moved).symm

theorem not_asksFor_of_plain
    (plain : Text.endsWith t.declaredText W.conventions.movedEnding = false) (text : String) :
    W.asksFor used text t = false := by
  have other : t.declaredText ≠ text ++ W.conventions.movedEnding := by
    intro named
    rw [named, Text.endsWith_append] at plain
    exact absurd plain (by simp)
  simp [asksFor, other]

theorem countP_asksFor_le (distinct : (W.helperNames stats).Nodup) (text : String) :
    stats.countP (W.asksFor used text) ≤ 1 := by
  have once := List.nodup_iff_count_le_one.mp distinct (text ++ W.conventions.movedEnding)
  rw [helperNames, List.count, List.countP_map, List.countP_filter] at once
  refine Nat.le_trans (List.countP_mono_left fun x _ asks => ?_) once
  simp only [asksFor, Bool.and_eq_true] at asks
  simp [asks.1.1, beq_iff_eq.mp asks.1.2]

theorem broughtCopies_cons_of_not_asks {rest : List Tree}
    (silent : ∀ text, W.asksFor used text t = false) :
    W.broughtCopies used seen (t :: rest) = W.broughtCopies used seen rest := by
  funext x
  simp only [broughtCopies, List.any_cons, silent, Bool.false_or]

/-- A request that finds something waiting changes nothing for the statements behind it. -/
theorem broughtCopies_cons_of_found {rest : List Tree} (helper : W.isDefaultHelper t = true)
    (moved : Text.endsWith t.declaredText W.conventions.movedEnding = true)
    (inUse : t.symbol.any used.contains = true)
    (found : (seen.lookup (W.plainText t.declaredText)).isSome = true) (x : Tree) :
    W.broughtCopies used seen (t :: rest) x = W.broughtCopies used seen rest x := by
  have asked : ((seen.lookup x.declaredText).isSome ||
      (t :: rest).any (W.asksFor used x.declaredText)) =
      ((seen.lookup x.declaredText).isSome || rest.any (W.asksFor used x.declaredText)) := by
    cases asks : W.asksFor used x.declaredText t with
    | true =>
      rw [(asksFor_iff helper moved inUse).mp asks] at found
      simp [found]
    | false => simp [asks]
  simp only [broughtCopies, Bool.or_assoc, asked]

/-- A request that is noted stands for itself. -/
theorem broughtCopies_cons_of_noted {rest : List Tree} (helper : W.isDefaultHelper t = true)
    (moved : Text.endsWith t.declaredText W.conventions.movedEnding = true)
    (inUse : t.symbol.any used.contains = true)
    (unseen : seen.lookup (W.plainText t.declaredText) = none) (x : Tree) :
    W.broughtCopies used ((W.plainText t.declaredText, none) :: seen) rest x =
      W.broughtCopies used seen (t :: rest) x := by
  have waiting : (((W.plainText t.declaredText, none) :: seen).lookup
      (W.plainText x.declaredText)).join = (seen.lookup (W.plainText x.declaredText)).join := by
    rw [List.lookup_cons]
    split
    next same => rw [beq_iff_eq.mp same, unseen]; rfl
    next => rfl
  have asked : ((((W.plainText t.declaredText, none) :: seen).lookup x.declaredText).isSome ||
      rest.any (W.asksFor used x.declaredText)) =
      ((seen.lookup x.declaredText).isSome || (t :: rest).any (W.asksFor used x.declaredText)) := by
    rw [List.lookup_cons, List.any_cons]
    by_cases same : W.plainText t.declaredText = x.declaredText
    · simp [same, (asksFor_iff helper moved inUse).mpr same]
    · have silent : W.asksFor used x.declaredText t = false :=
        Bool.eq_false_iff.mpr fun asks => same ((asksFor_iff helper moved inUse).mp asks)
      simp [beq_false_of_ne (Ne.symm same), silent]
  simp only [broughtCopies, Bool.or_assoc, waiting, asked]

/-- Behind a plain helper whose copy waits, the one request for it brings that copy. -/
theorem broughtCopies_of_waiting (used : List SymbolId) (rest : List Tree) {x : Tree} (c : Tree)
    (unseen : seen.lookup t.declaredText = none)
    (other : W.isDefaultHelper x = true → x.declaredText ≠ t.declaredText) :
    W.broughtCopies used ((t.declaredText, some c) :: seen) rest x =
        (if W.asksFor used t.declaredText x then [c] else W.broughtCopies used seen rest x) ∧
      (W.asksFor used t.declaredText x = true → W.broughtCopies used seen rest x = []) := by
  cases helper : W.isDefaultHelper x with
  | false => simp [broughtCopies, asksFor, helper]
  | true =>
    cases moved : Text.endsWith x.declaredText W.conventions.movedEnding with
    | false =>
      have unmet : ((t.declaredText, some c) :: seen).lookup x.declaredText =
          seen.lookup x.declaredText := by
        rw [List.lookup_cons, beq_false_of_ne (other helper)]
      simp only [broughtCopies, helper, moved, not_asksFor_of_plain moved, unmet,
        Bool.false_eq_true, if_false, false_implies, and_true]
    | true =>
      cases inUse : x.symbol.any used.contains with
      | false => simp [broughtCopies, asksFor, helper, moved, inUse]
      | true =>
        by_cases same : W.plainText x.declaredText = t.declaredText
        · have asks := (asksFor_iff helper moved inUse).mpr same
          simp [broughtCopies, helper, moved, inUse, asks, same, unseen]
        · have silent : W.asksFor used t.declaredText x = false :=
            Bool.eq_false_iff.mpr fun asks => same ((asksFor_iff helper moved inUse).mp asks)
          simp [broughtCopies, helper, moved, inUse, silent, List.lookup_cons,
            beq_false_of_ne same]

/-- The copies that the statements bring are the same up to order as if each were made where the
reason for it stands. -/
theorem settleHelpers_perm (distinct : (W.helperNames stats).Nodup) :
    (W.settleHelpers used seen stats).2.Perm
      (stats.flatMap (W.broughtCopies used seen stats)) := by
  induction stats generalizing seen with
  | nil => simp [settleHelpers]
  | cons t rest ih =>
    rw [List.flatMap_cons]
    cases helper : W.isDefaultHelper t with
    | false =>
      have step : W.settleHelper used seen t = ⟨seen, t, []⟩ := by simp [settleHelper, helper]
      have nothing : W.broughtCopies used seen (t :: rest) t = [] := by
        simp [broughtCopies, helper]
      rw [helperNames, List.filter_cons_of_neg (by simp [helper])] at distinct
      rw [nothing, broughtCopies_cons_of_not_asks (by simp [asksFor, helper]), settleHelpers, step]
      exact ih distinct
    | true =>
      rw [helperNames, List.filter_cons_of_pos helper, List.map_cons, List.nodup_cons] at distinct
      obtain ⟨once, distinct⟩ := distinct
      cases moved : Text.endsWith t.declaredText W.conventions.movedEnding with
      | true =>
        cases inUse : t.symbol.any used.contains with
        | false =>
          have step : W.settleHelper used seen t = ⟨seen, .empty, []⟩ := by
            simp [settleHelper, helper, moved, inUse]
          have nothing : W.broughtCopies used seen (t :: rest) t = [] := by
            simp [broughtCopies, helper, moved, inUse]
          rw [nothing, broughtCopies_cons_of_not_asks (by simp [asksFor, inUse]), settleHelpers,
            step]
          exact ih distinct
        | true =>
          have brings : W.broughtCopies used seen (t :: rest) t =
              (seen.lookup (W.plainText t.declaredText)).join.toList := by
            simp [broughtCopies, helper, moved, inUse]
          cases found : seen.lookup (W.plainText t.declaredText) with
          | some copy =>
            have step : W.settleHelper used seen t = ⟨seen, .empty, copy.toList⟩ := by
              simp only [plainText] at found
              simp [settleHelper, helper, moved, inUse, found]
            rw [brings, found, settleHelpers, step,
              List.flatMap_congr fun x _ =>
                broughtCopies_cons_of_found helper moved inUse (by simp [found]) x]
            exact (ih distinct).append_left copy.toList
          | none =>
            have step : W.settleHelper used seen t =
                ⟨(W.plainText t.declaredText, none) :: seen, .empty, []⟩ := by
              simp only [plainText] at found
              simp [settleHelper, helper, moved, inUse, found, plainText]
            rw [brings, found, settleHelpers, step,
              ← List.flatMap_congr fun x _ =>
                broughtCopies_cons_of_noted helper moved inUse found x]
            exact ih distinct
      | false =>
        rw [broughtCopies_cons_of_not_asks (not_asksFor_of_plain moved)]
        cases wanted : (t.symbol.any used.contains || (seen.lookup t.declaredText).isSome) with
        | true =>
          have step : W.settleHelper used seen t = ⟨seen, t, [W.movedCopy t]⟩ := by
            simp only [settleHelper, helper, moved, wanted, Bool.false_eq_true, if_true, if_false]
          have brings : W.broughtCopies used seen rest t = [W.movedCopy t] := by
            simp [broughtCopies, helper, moved, wanted]
          rw [brings, settleHelpers, step]
          exact (ih distinct).append_left [W.movedCopy t]
        | false =>
          have step : W.settleHelper used seen t =
              ⟨(t.declaredText, some (W.movedCopy t)) :: seen, t, []⟩ := by
            simp only [settleHelper, helper, moved, wanted, Bool.false_eq_true, if_true, if_false]
          have brings : W.broughtCopies used seen rest t =
              if rest.any (W.asksFor used t.declaredText) then [W.movedCopy t] else [] := by
            simp [broughtCopies, helper, moved, wanted]
          have unseen : seen.lookup t.declaredText = none := by
            simpa using (Bool.or_eq_false_iff.mp wanted).2
          -- the copy waits for the one request that may stand behind
          have behind (x : Tree) (hx : x ∈ rest) :=
            broughtCopies_of_waiting used rest (x := x) (W.movedCopy t) unseen fun found same =>
              once (same ▸ List.mem_map_of_mem (List.mem_filter.mpr ⟨hx, found⟩))
          rw [brings, settleHelpers, step]
          refine (ih distinct).trans ?_
          rw [List.flatMap_congr fun x hx => (behind x hx).1]
          exact flatMap_perm_of_single (countP_asksFor_le distinct _) fun x hx => (behind x hx).2

theorem broughtCopies_nil (stats : List Tree) (d : Tree) :
    W.broughtCopies used [] stats d = ([d].filter (W.isCopied used stats)).map W.movedCopy := by
  cases helper : W.isDefaultHelper d with
  | false => simp [broughtCopies, isCopied, helper]
  | true =>
    cases moved : Text.endsWith d.declaredText W.conventions.movedEnding with
    | true => simp [broughtCopies, isCopied, helper, moved]
    | false =>
      cases wanted : (d.symbol.any used.contains || stats.any (W.asksFor used d.declaredText)) <;>
        simp [broughtCopies, isCopied, helper, moved, wanted]

theorem settleStatements_perm (used : List SymbolId) (distinct : (W.helperNames stats).Nodup) :
    ∃ copies, W.settleStatements used stats = stats.map W.keptInPlace ++ copies ∧
      copies.Perm ((stats.filter (W.isCopied used stats)).map W.movedCopy) := by
  refine ⟨(W.settleHelpers used [] stats).2, ?_, (settleHelpers_perm distinct).trans ?_⟩
  · rw [← W.settleHelpers_kept used []]
    rfl
  · rw [List.flatMap_congr fun d _ => broughtCopies_nil stats d, ← List.map_flatMap,
      ← List.filter_flatMap, List.flatMap_singleton']

/-- Which helpers are copied does not depend on the order of the statements. -/
theorem isCopied_of_perm {stats' : List Tree} (h : stats.Perm stats') :
    W.isCopied used stats' = W.isCopied used stats := by
  funext d
  rw [isCopied, isCopied, h.any_eq]

end Setting

/-- Where the helpers among some statements have distinct names, those under their moved names are
emptied in place, all else stays where it is, and behind it comes one copy of each plain helper of
which one form is in use. In another order of the statements nothing but the order of the copies can
change. -/
theorem helpers_reconciled (W : Setting) (used : List SymbolId) {stats : List Tree}
    (distinct : (W.helperNames stats).Nodup) :
    ∃ copies, W.settleStatements used stats = stats.map W.keptInPlace ++ copies ∧
      copies.Perm ((stats.filter (W.isCopied used stats)).map W.movedCopy) ∧
      (∀ d ∈ stats, W.isCopied used stats d = true → ∃ m : Method, d = m.toTree ∧
        W.movedCopy d = ⟨{ pos := m.info.pos }, .defDef {}
          (.term (m.name.text ++ W.conventions.movedEnding)) m.tparams m.vparamss m.tpt m.rhs⟩) ∧
      ∀ stats', stats.Perm stats' → ∃ copies',
        W.settleStatements used stats' = stats'.map W.keptInPlace ++ copies' ∧
          copies.Perm copies' := by
  obtain ⟨copies, settled, copied⟩ := Setting.settleStatements_perm used distinct
  refine ⟨copies, settled, copied, fun d _ hd => ?_, fun stats' reordered => ?_⟩
  · have helper : W.isDefaultHelper d = true := by
      simp only [Setting.isCopied, Bool.and_eq_true] at hd
      exact hd.1.1
    obtain ⟨m, -, rfl, -⟩ := W.method_of_isDefaultHelper helper
    exact ⟨m, rfl, rfl⟩
  · have names : (W.helperNames stats).Perm (W.helperNames stats') :=
      (reordered.filter _).map _
    obtain ⟨copies', settled', copied'⟩ :=
      Setting.settleStatements_perm used (names.nodup_iff.mp distinct)
    refine ⟨copies', settled', copied.trans (.trans ?_ copied'.symm)⟩
    rw [Setting.isCopied_of_perm reordered]
    exact (reordered.filter _).map _

/-- The helper of a second default argument, which nothing refers to. -/
def idleHelper : Method := helperMethod "g" "m$default$2"

def helperStatements : List Tree :=
  [movedHelper.toTree, idleHelper.toTree, helperReference, plainHelper.toTree]

theorem helperStatements_reconciled :
    (helperSetting.helperNames helperStatements).Nodup ∧
      ∃ copies, helperSetting.settleStatements [⟨"h"⟩] helperStatements =
          [.empty, idleHelper.toTree, helperReference, plainHelper.toTree] ++ copies ∧
        copies.Perm [⟨{}, .defDef {} (.term "m$default$1$macro") [] [] plainHelper.tpt
          plainHelper.rhs⟩] ∧
        ∃ copies', helperSetting.settleStatements [⟨"h"⟩] helperStatements.reverse =
            [plainHelper.toTree, helperReference, idleHelper.toTree, .empty] ++ copies' ∧
          copies.Perm copies' := by
  have distinct : (helperSetting.helperNames helperStatements).Nodup := by decide
  obtain ⟨copies, settled, copied, -, reordered⟩ :=
    helpers_reconciled helperSetting [⟨"h"⟩] distinct
  obtain ⟨copies', settled', permuted⟩ := reordered _ (List.reverse_perm _).symm
  exact ⟨distinct, copies, settled, copied, copies', settled', permuted⟩

end TreeRepair
