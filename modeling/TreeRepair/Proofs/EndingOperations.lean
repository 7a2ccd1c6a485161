import TreeRepair.Proofs.EndingTasks
import TreeRepair.Proofs.RepairEnds
import TreeRepair.Session.Basic

namespace TreeRepair

namespace Setting

variable {W : Setting} {owner : Option SymbolId} {t : Tree}

/-- The repair of a checked tree comes to an end. So does the search that tells whether the enclosing
declaration, or a value whose name is repaired, needs no import. -/
structure Repairs (W : Setting) (owner : Option SymbolId) (t : Tree) : Prop where
  enclosing : ∀ s, owner = some s → W.symbols.Answers (.owner W.decidesInjected s)
  ends : (Repair.ofTree W owner t).descent.Ends t
  names : ∀ n, (Repair.ofTree W owner t).descent.Comes t n →
    ∀ q ∈ (Repair.ofTree W owner t).nameQuestions n, W.symbols.Answers q

theorem repairFinishes_iff : W.repairFinishes owner t = true ↔ W.Repairs owner t := by
  have setting : (Repair.ofTree W owner t).setting = W := rfl
  unfold repairFinishes Repair.finishes
  rw [Bool.and_eq_true, Descent.passesWithin_iff
    (fun _ _ hy => (Repair.ofTree W owner t).mem_known hy) (Repair.ofTree W owner t).card_known_lt]
  simp only [List.all_eq_true, List.mem_map, Option.mem_toList, forall_exists_index, and_imp,
    forall_apply_eq_imp_iff₂, SymbolTable.answers_iff, setting]
  exact ⟨fun ⟨enclosing, ends, names⟩ => ⟨enclosing, ends, names⟩,
    fun h => ⟨h.enclosing, h.ends, h.names⟩⟩

theorem repairs_of_grounded (grounded : W.symbols.Grounded)
    (ends : (Repair.ofTree W owner t).descent.Ends t) : W.Repairs owner t where
  enclosing _ _ := grounded.answers _
  ends := ends
  names _ _ _ _ := grounded.answers _

end Setting

namespace Session

variable (S : Session)

/-- The outcome of the two repairs that come before a reset. -/
def restored (t : Tree) : Except Misplaced (Tree × List Misplaced) :=
  S.setting.restoreCaseClasses (S.setting.repairChecked S.checker.owner t)

/-- Making a tree ready for a reset comes to an end. -/
structure Readies (drop : Bool) (t : Tree) : Prop where
  repairs : S.setting.Repairs S.checker.owner t
  restores : S.setting.RestoreEnds (S.setting.repairChecked S.checker.owner t)
  cleans : ∀ u misplaced, S.restored t = .ok (u, misplaced) →
    S.setting.CleaningEnds (if drop then u.dropInserted else u)

/-- A check comes to an end: either the checker refuses the tree, or the repair of what it answers
comes to an end. -/
def Checks (identify : Bool) (past : List Call) (t : Tree) : Prop :=
  ∀ u, S.checker.check past (if identify then t.markWritten else t) = .ok u →
    S.setting.Repairs S.checker.owner
      (if identify then S.setting.symbols.markInserted false u else u)

/-- The check of what a run gives comes to an end. -/
def ChecksNext (flag : Bool) (past : List Call) (r : Run) : Prop :=
  ∀ u, r.result = .ok u → S.Checks flag (past ++ r.calls) u

/-- An operation comes to an end. -/
def Ends (op : Operation) (flag : Bool) (past : List Call) (t : Tree) : Prop :=
  match op with
  | .check => S.Checks flag past t
  | .uncheck | .uncheckAll => S.Readies flag t
  | .recheck => S.Readies flag t ∧ S.ChecksNext flag past (S.uncheck flag past t)
  | .recheckAll => S.Readies flag t ∧ S.ChecksNext flag past (S.uncheckAll flag past t)

variable {S} {flag : Bool} {past : List Call} {t : Tree}

theorem readyFinishes_iff : S.readyFinishes flag t = true ↔ S.Readies flag t := by
  unfold readyFinishes
  rw [Bool.and_eq_true, Setting.repairFinishes_iff]
  constructor
  · rintro ⟨repairs, ready⟩
    cases answer : S.setting.restore? (S.setting.repairChecked S.checker.owner t) with
    | none => simp [answer] at ready
    | some x =>
      obtain ⟨outcome, restores⟩ := Setting.restore?_eq_some_iff.mp answer
      refine ⟨repairs, restores, fun u misplaced restored => ?_⟩
      obtain rfl := outcome.symm.trans restored
      simpa [answer, Setting.cleaningFinishes_iff] using ready
  · rintro ⟨repairs, restores, cleans⟩
    refine ⟨repairs, ?_⟩
    rw [Setting.restore?_eq_some_iff.mpr ⟨rfl, restores⟩]
    cases outcome : S.setting.restoreCaseClasses (S.setting.repairChecked S.checker.owner t) with
    | error m => rfl
    | ok p => exact Setting.cleaningFinishes_iff.mpr (cleans p.1 p.2 outcome)

/-- Where nothing in the symbol table leads back to itself, only the repair may not end. -/
theorem readies_of_grounded (grounded : S.setting.symbols.Grounded)
    (ends : (Repair.ofTree S.setting S.checker.owner t).descent.Ends t) : S.Readies flag t where
  repairs := Setting.repairs_of_grounded grounded ends
  restores _ _ := Setting.finishesAll_of_grounded grounded
  cleans _ _ _ := Setting.finishesAll_of_grounded grounded

theorem checkFinishes_iff : S.checkFinishes flag past t = true ↔ S.Checks flag past t := by
  unfold checkFinishes Checks
  cases S.checker.check past (if flag then t.markWritten else t) with
  | error f => simp
  | ok u => simp [Setting.repairFinishes_iff]

theorem nextFinishes_iff {r : Run} :
    S.nextFinishes flag past r = true ↔ S.ChecksNext flag past r := by
  unfold nextFinishes ChecksNext
  cases r.result with
  | error f => simp
  | ok u => simp [checkFinishes_iff]

theorem finishes_iff {op : Operation} :
    S.finishes op flag past t = true ↔ S.Ends op flag past t := by
  cases op <;> simp only [finishes, Ends, Bool.and_eq_true, readyFinishes_iff, checkFinishes_iff,
    nextFinishes_iff]

variable {op : Operation}

theorem result_perform (ends : S.Ends op flag past t) :
    (S.perform op flag past t).result = some (S.run op flag past t).result := by
  rw [perform, if_pos (finishes_iff.mpr ends)]

theorem result_perform_of_endless (endless : ¬ S.Ends op flag past t) :
    (S.perform op flag past t).result = none := by
  rw [perform, if_neg fun finishes => endless (finishes_iff.mp finishes)]

theorem calls_perform (ready : op = .check ∨ S.Readies flag t) :
    (S.perform op flag past t).calls = (S.run op flag past t).calls := by
  have reached : (decide (op = .check) || S.readyFinishes flag t) = true := by
    rwa [Bool.or_eq_true, decide_eq_true_iff, readyFinishes_iff]
  rw [perform, if_pos reached]

theorem calls_perform_of_unready (notCheck : op ≠ .check) (unready : ¬ S.Readies flag t) :
    (S.perform op flag past t).calls = [] := by
  have stopped : (decide (op = .check) || S.readyFinishes flag t) ≠ true := by
    rw [ne_eq, Bool.or_eq_true, decide_eq_true_iff, readyFinishes_iff]
    exact not_or_intro notCheck unready
  rw [perform, if_neg stopped]

theorem Ends.readies (ends : S.Ends op flag past t) : op = .check ∨ S.Readies flag t := by
  cases op with
  | check => exact .inl rfl
  | uncheck | uncheckAll => exact .inr ends
  | recheck | recheckAll => exact .inr ends.1

end Session

end TreeRepair
