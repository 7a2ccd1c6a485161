import TreeRepair.Proofs.AccessorFamilies
import TreeRepair.Proofs.EndingOperations
import TreeRepair.Proofs.RestoredTwice

namespace TreeRepair

theorem Tree.mem_report {n : Tree} {m : Misplaced} (h : m ∈ n.report) :
    n.shape.caseName? = some m.name ∧ n.info.pos = m.pos := by
  unfold report at h
  split at h
  next => simp at h
  next =>
    obtain ⟨name, found, rfl⟩ := Option.map_eq_some_iff.mp (Option.mem_toList.mp h)
    exact ⟨found, rfl⟩

/-- What is reported about a tree is reported about a case class or case object in it. -/
theorem Conventions.exists_case_of_misplaced (C : Conventions) {t : Tree} {m : Misplaced}
    (h : m ∈ C.misplaced (C.cleanStatement (caseClassNames [t]) t)) :
    ∃ n ∈ t.preorder, n.shape.caseName? = some m.name ∧ n.info.pos = m.pos := by
  have collected := C.flatMap_standing C.misplaced Tree.report (fun i s => C.misplaced_mk i s)
    ⟨[], .statement [t] false, t⟩
  have root : C.standing (.statement [t] false) t = [C.cleanStatement (caseClassNames [t]) t] := rfl
  rw [root, List.flatMap_singleton] at collected
  rw [collected] at h
  obtain ⟨o, ho, reported⟩ := List.mem_flatMap.mp h
  have inTree : o.node ∈ t.preorder := by
    rw [← C.map_node_occurrences]
    exact List.mem_map_of_mem ho
  obtain ⟨path, place, n⟩ := o
  cases place with
  | statement stats ofCleaned =>
    simp only [standing] at reported
    split at reported
    · simp at reported
    · simp [C.report_cleanStatement stats n] at reported
  | body =>
    simp only [standing, List.flatMap_singleton, report_withoutGenerated] at reported
    exact ⟨n, inTree, Tree.mem_report reported⟩
  | removed => simp [standing] at reported
  | other =>
    simp only [standing, List.flatMap_singleton] at reported
    exact ⟨n, inTree, Tree.mem_report reported⟩

theorem Setting.restoreCaseClasses_eq_error {W : Setting} {t : Tree} {m : Misplaced}
    (h : W.restoreCaseClasses t = .error m) :
    W.conventions.strict = true ∧
      ∃ n ∈ t.preorder, n.shape.caseName? = some m.name ∧ n.info.pos = m.pos := by
  simp only [restoreCaseClasses] at h
  split at h
  next strict first =>
    obtain rfl := Except.error.inj h
    exact ⟨strict, W.conventions.exists_case_of_misplaced (by rw [first]; simp)⟩
  all_goals simp at h

/-- What an operation asks of the checker if nothing stops it. -/
def Operation.requests : Operation → List Request
  | .check => [.check]
  | .uncheck => [.reset]
  | .uncheckAll => [.resetAll]
  | .recheck => [.reset, .check]
  | .recheckAll => [.resetAll, .check]

/-- A run as the course of an operation that comes to an end. -/
def Run.course (r : Run) : Course := ⟨r.calls, some r.result⟩

theorem Run.outcome_course (r : Run) :
    (∀ f, r.course.outcome = some (.failed f) ↔ r.course.result = some (.error f)) ∧
      ∀ u, r.course.outcome = some (.valid u) ↔ r.course.result = some (.ok u) := by
  cases h : r.result <;> simp [course, Course.outcome, Outcome.ofResult, h]

namespace Session

variable (S : Session)

/-- The checker refuses a check among some calls, which the given ones follow. -/
def Refuses (past calls after : List Call) (f : Failure) : Prop :=
  ∃ before u, calls = before ++ ⟨.check, u⟩ :: after ∧ S.checker.check (past ++ before) u = .error f

/-- How an operation that comes to an end deals with the checker, and what becomes of failures. -/
structure Protocol (op : Operation) (past : List Call) (t : Tree) (c : Course) : Prop where
  requests : c.calls.map Call.request = op.requests ∨ op ≠ .check ∧ c.calls = []
  silent_iff : op ≠ .check → (c.calls = [] ↔ S.setting.conventions.strict = true ∧
    ∃ n ∈ (S.setting.repairChecked S.checker.owner t).preorder, ∃ name,
      n.shape.caseName? = some name ∧ S.restored t = .error ⟨n.info.pos, name⟩)
  unfixable : op ≠ .check → ∀ m, S.restored t = .error m → c.result = some (.error m.failure)
  refused : ∀ after f, S.Refuses past c.calls after f → after = [] ∧ c.result = some (.error f)
  returned : op = .check ∨ c.calls ≠ [] → (∀ after f, ¬ S.Refuses past c.calls after f) →
    ∃ u, c.result = some (.ok u)
  attempted : (∀ f, c.outcome = some (.failed f) ↔ c.result = some (.error f)) ∧
    ∀ u, c.outcome = some (.valid u) ↔ c.result = some (.ok u)

/-- A run that makes one request, unless a case class is misplaced: then it makes none and fails. -/
def Resets (q : Request) (t : Tree) (r : Run) : Prop :=
  (∃ m, S.restored t = .error m ∧ r.calls = [] ∧ r.result = .error m.failure) ∨
    ∃ p u v, S.restored t = .ok p ∧ r.calls = [⟨q, u⟩] ∧ r.result = .ok v

theorem readyForReset_cases (drop : Bool) (t : Tree) :
    (∃ m, S.restored t = .error m ∧ S.readyForReset drop t = .error m) ∨
      ∃ p u misplaced, S.restored t = .ok p ∧ S.readyForReset drop t = .ok (u, misplaced) := by
  unfold restored readyForReset
  cases S.setting.restoreCaseClasses (S.setting.repairChecked S.checker.owner t) with
  | error m => exact .inl ⟨m, rfl, rfl⟩
  | ok p => exact .inr ⟨p, _, _, rfl, rfl⟩

theorem uncheck_resets (drop : Bool) (past : List Call) (t : Tree) :
    S.Resets .reset t (S.uncheck drop past t) := by
  unfold uncheck
  rcases S.readyForReset_cases drop t with ⟨m, failed, ready⟩ | ⟨p, u, misplaced, restored, ready⟩
  · rw [ready]
    exact .inl ⟨m, failed, rfl, rfl⟩
  · rw [ready]
    exact .inr ⟨p, u, _, restored, rfl, rfl⟩

theorem uncheckAll_resets (drop : Bool) (past : List Call) (t : Tree) :
    S.Resets .resetAll t (S.uncheckAll drop past t) := by
  unfold uncheckAll
  rcases S.readyForReset_cases drop t with ⟨m, failed, ready⟩ | ⟨p, u, misplaced, restored, ready⟩
  · rw [ready]
    exact .inl ⟨m, failed, rfl, rfl⟩
  · rw [ready]
    exact .inr ⟨p, _, _, restored, rfl, rfl⟩

/-- A check is one request, and the checker alone decides whether it fails. -/
theorem check_cases (identify : Bool) (past : List Call) (t : Tree) :
    ∃ u, (S.check identify past t).calls = [⟨.check, u⟩] ∧
      ((∃ f, S.checker.check past u = .error f ∧ (S.check identify past t).result = .error f) ∨
        ∃ v w, S.checker.check past u = .ok v ∧ (S.check identify past t).result = .ok w) := by
  refine ⟨if identify then t.markWritten else t, ?_⟩
  simp only [check]
  cases answer : S.checker.check past (if identify then t.markWritten else t) with
  | error f => exact ⟨rfl, .inl ⟨f, rfl, rfl⟩⟩
  | ok v => exact ⟨rfl, .inr ⟨v, _, rfl, rfl⟩⟩

variable {S}

theorem not_refuses_nil {past after : List Call} {f : Failure} : ¬ S.Refuses past [] after f := by
  rintro ⟨before, u, calls, -⟩
  simp at calls

theorem refuses_cons {past calls after : List Call} {c : Call} {f : Failure} :
    S.Refuses past (c :: calls) after f ↔
      (c.request = .check ∧ calls = after ∧ S.checker.check past c.tree = .error f) ∨
        S.Refuses (past ++ [c]) calls after f := by
  constructor
  · rintro ⟨before, u, split, refused⟩
    cases before with
    | nil =>
      obtain ⟨rfl, rfl⟩ := List.cons.inj split
      exact .inl ⟨rfl, rfl, by simpa using refused⟩
    | cons d before =>
      obtain ⟨rfl, rfl⟩ := List.cons.inj split
      exact .inr ⟨before, u, rfl, by simpa using refused⟩
  · rintro (⟨request, rfl, refused⟩ | ⟨before, u, rfl, refused⟩)
    · exact ⟨[], c.tree, by rw [← request]; rfl, by simpa using refused⟩
    · exact ⟨c :: before, u, rfl, by simpa using refused⟩

/-- Only a misplaced case class, and that only if it is to be an error, keeps a tree from a reset. -/
theorem exists_restored_error_iff {t : Tree} :
    (∃ m, S.restored t = .error m) ↔ S.setting.conventions.strict = true ∧
      ∃ n ∈ (S.setting.repairChecked S.checker.owner t).preorder, ∃ name,
        n.shape.caseName? = some name ∧ S.restored t = .error ⟨n.info.pos, name⟩ := by
  constructor
  · rintro ⟨m, failed⟩
    obtain ⟨strict, n, hn, name, pos⟩ := Setting.restoreCaseClasses_eq_error failed
    exact ⟨strict, n, hn, m.name, name, by rw [failed, pos]⟩
  · rintro ⟨-, n, -, name, -, failed⟩
    exact ⟨_, failed⟩

theorem protocol_check (S : Session) (identify : Bool) (past : List Call) (t : Tree) :
    S.Protocol .check past t (S.check identify past t).course := by
  obtain ⟨u, calls, answers⟩ := S.check_cases identify past t
  have refuses {after : List Call} {f : Failure} :
      S.Refuses past (S.check identify past t).course.calls after f ↔
        after = [] ∧ S.checker.check past u = .error f := by
    simp [Run.course, calls, refuses_cons, not_refuses_nil, eq_comm]
  refine ⟨.inl (by rw [Run.course, calls]; rfl), by simp, by simp, fun after f hf => ?_,
    fun _ accepted => ?_, Run.outcome_course _⟩
  · obtain ⟨rfl, refused⟩ := refuses.mp hf
    rcases answers with ⟨g, refusedToo, result⟩ | ⟨v, w, accepted, -⟩
    · obtain rfl := Except.error.inj (refused.symm.trans refusedToo)
      exact ⟨rfl, congrArg some result⟩
    · rw [refused] at accepted
      simp at accepted
  · rcases answers with ⟨g, refused, -⟩ | ⟨v, w, -, result⟩
    · exact absurd (refuses.mpr ⟨rfl, refused⟩) (accepted [] g)
    · exact ⟨w, congrArg some result⟩

/-- A tree that cannot be made ready for a reset stops an operation before its first request. -/
theorem protocol_of_unfixable {op : Operation} {t : Tree} {r : Run} {m : Misplaced}
    (past : List Call) (notCheck : op ≠ .check) (failed : S.restored t = .error m)
    (calls : r.calls = []) (result : r.result = .error m.failure) :
    S.Protocol op past t r.course where
  requests := .inr ⟨notCheck, calls⟩
  silent_iff _ := by
    rw [← exists_restored_error_iff]
    exact ⟨fun _ => ⟨m, failed⟩, fun _ => calls⟩
  unfixable _ m' failed' := by
    obtain rfl := Except.error.inj (failed.symm.trans failed')
    exact congrArg some result
  refused after f hf := by
    rw [Run.course, calls] at hf
    exact absurd hf not_refuses_nil
  returned stopped := by simp [Run.course, calls, notCheck] at stopped
  attempted := r.outcome_course

theorem Resets.protocol {q : Request} {op : Operation} {t : Tree} {r : Run} (past : List Call)
    (resets : S.Resets q t r) (notCheck : q ≠ .check ∧ op ≠ .check)
    (requests : op.requests = [q]) : S.Protocol op past t r.course := by
  rcases resets with ⟨m, failed, calls, result⟩ | ⟨p, u, v, restored, calls, result⟩
  · exact protocol_of_unfixable past notCheck.2 failed calls result
  · have silent (after : List Call) (f : Failure) : ¬ S.Refuses past r.course.calls after f := by
      simp [Run.course, calls, refuses_cons, not_refuses_nil, notCheck.1]
    refine ⟨.inl (by rw [Run.course, calls, requests]; rfl), fun _ => ?_, fun _ m failed => ?_,
      fun after f hf => absurd hf (silent after f), fun _ _ => ⟨v, congrArg some result⟩,
      r.outcome_course⟩
    · rw [← exists_restored_error_iff]
      simp [Run.course, calls, restored]
    · simp [restored] at failed

/-- Behind a reset, a check goes on like a check of its own, with the reset in its past. -/
theorem Resets.protocol_andThen {q : Request} {op : Operation} {t : Tree} {r : Run} (flag : Bool)
    (past : List Call) (resets : S.Resets q t r) (notCheck : q ≠ .check ∧ op ≠ .check)
    (requests : op.requests = [q, .check]) :
    S.Protocol op past t (r.andThen (S.check flag) past).course := by
  rcases resets with ⟨m, failed, calls, result⟩ | ⟨p, u, v, restored, calls, result⟩
  · have stopped : r.andThen (S.check flag) past = r := by rw [Run.andThen, result]
    rw [stopped]
    exact protocol_of_unfixable past notCheck.2 failed calls result
  · have checked := S.protocol_check flag (past ++ [⟨q, u⟩]) v
    obtain ⟨w, checkCalls, -⟩ := S.check_cases flag (past ++ [⟨q, u⟩]) v
    have allCalls : (r.andThen (S.check flag) past).course.calls =
        ⟨q, u⟩ :: (S.check flag (past ++ [⟨q, u⟩]) v).course.calls := by
      simp [Run.andThen, Run.course, result, calls]
    have sameResult : (r.andThen (S.check flag) past).course.result =
        (S.check flag (past ++ [⟨q, u⟩]) v).course.result := by
      simp [Run.andThen, Run.course, result, calls]
    have refuses {after : List Call} {f : Failure} :
        S.Refuses past (r.andThen (S.check flag) past).course.calls after f ↔
          S.Refuses (past ++ [⟨q, u⟩]) (S.check flag (past ++ [⟨q, u⟩]) v).course.calls after f := by
      simp [allCalls, refuses_cons, notCheck.1]
    refine ⟨.inl ?_, fun _ => ?_, fun _ m failed => ?_, fun after f hf => ?_, fun _ accepted => ?_,
      Run.outcome_course _⟩
    · rw [allCalls, Run.course, checkCalls, requests]
      rfl
    · rw [← exists_restored_error_iff]
      simp [allCalls, restored]
    · simp [restored] at failed
    · rw [sameResult]
      exact checked.refused after f (refuses.mp hf)
    · rw [sameResult]
      exact checked.returned (.inl rfl) fun after f hf => accepted after f (refuses.mpr hf)

theorem protocol_run (S : Session) (op : Operation) (flag : Bool) (past : List Call) (t : Tree) :
    S.Protocol op past t (S.run op flag past t).course := by
  cases op with
  | check => exact S.protocol_check flag past t
  | uncheck => exact (S.uncheck_resets flag past t).protocol past (by simp) rfl
  | uncheckAll => exact (S.uncheckAll_resets flag past t).protocol past (by simp) rfl
  | recheck => exact (S.uncheck_resets flag past t).protocol_andThen flag past (by simp) rfl
  | recheckAll => exact (S.uncheckAll_resets flag past t).protocol_andThen flag past (by simp) rfl

/-- A misplaced case class that is an error keeps an operation from a check that might not end. -/
theorem ends_of_unfixable {op : Operation} {flag : Bool} {past : List Call} {t : Tree}
    {m : Misplaced} (notCheck : op ≠ .check) (ready : S.Readies flag t)
    (failed : S.restored t = .error m) : S.Ends op flag past t := by
  have stops {q : Request} {r : Run} (resets : S.Resets q t r) : S.ChecksNext flag past r := by
    rcases resets with ⟨_, _, _, result⟩ | ⟨p, _, _, restored, -⟩
    · intro u returned
      rw [result] at returned
      cases returned
    · cases failed.symm.trans restored
  cases op with
  | check => exact absurd rfl notCheck
  | uncheck | uncheckAll => exact ready
  | recheck => exact ⟨ready, stops (S.uncheck_resets flag past t)⟩
  | recheckAll => exact ⟨ready, stops (S.uncheckAll_resets flag past t)⟩

end Session

/-- A session over a checker that refuses everything. -/
def refusingSession (strict : Bool) : Session where
  setting := recordSetting strict
  checker :=
    { check := fun _ _ => .error ⟨{ line := 3 }, "not found"⟩
      reset := fun _ t => t
      resetAll := fun _ t => t }

/-- A case class where the value of `x` should stand. -/
def misplacedValue : Tree :=
  .bare (.valDef {} (.term "x") (.bare (.typeTree none)) (caseClass { pos := { line := 7 } } "D" []))

theorem misplacedValue_unfixable :
    (refusingSession true).restored misplacedValue = .error ⟨{ line := 7 }, .type "D"⟩ := by cbv

theorem misplacedValue_readies (strict flag : Bool) :
    (refusingSession strict).Readies flag misplacedValue := by
  have symbols := SymbolTable.forall_get (T := (recordSetting strict).symbols)
    (P := fun symbol => symbol.annotations = [] ∧ symbol.getter = none ∧ symbol.setter = none)
    ⟨rfl, rfl, rfl⟩ (by simp [recordSetting])
  refine Session.readies_of_grounded (recordSetting_grounded strict)
    (Repair.ends_of_unaccessed (fun s => (symbols s).1) fun s => ?_)
  refine Option.eq_none_iff_forall_ne_some.mpr fun v hv => ?_
  obtain ⟨-, f, -, -, accessor⟩ := Repair.mem_fields_ofTree.mp (Repair.mem_fields_of_fieldOf? hv)
  obtain ⟨-, getter, setter⟩ := symbols f
  rcases accessor with accessor | accessor
  · cases getter.symm.trans accessor
  · cases setter.symm.trans accessor

/-- A session over a checker that gives back whatever it is given. -/
def acceptingSession (setting : Setting) : Session where
  setting := setting
  checker :=
    { check := fun _ t => .ok t
      reset := fun _ t => t
      resetAll := fun _ t => t }

/-- A resolved type that is the type of a value of this type. -/
def selfTyped : Tree := ⟨{ type := some (.single .noPrefix ⟨"x"⟩) }, .typeTree none⟩

theorem selfTyped_plain : ∀ n ∈ selfTyped.preorder, n.shape.caseName? = none := by
  simp [selfTyped, Tree.preorder_eq, Tree.children, Shape.children, Shape.caseName?]

theorem selfTyped_unready (flag : Bool) : ¬ (acceptingSession loopSetting).Readies flag selfTyped := by
  intro ready
  have repaired : loopSetting.repairChecked none selfTyped = selfTyped :=
    Repair.tree_eq_node _ (Descent.ends_of_leaf rfl rfl)
  have ends : loopSetting.RestoreEnds (loopSetting.repairChecked none selfTyped) := ready.restores
  rw [repaired] at ends
  cases outcome : loopSetting.restoreCaseClasses selfTyped with
  | error m =>
    obtain ⟨-, n, hn, name, -⟩ := Setting.restoreCaseClasses_eq_error outcome
    simp [selfTyped_plain n hn] at name
  | ok p =>
    have detaches := ends p outcome
    have root : loopSetting.conventions.cleanStatement (caseClassNames [selfTyped]) selfTyped =
        selfTyped := rfl
    rw [root, selfTyped, Setting.detaches_cleanTree _ rfl] at detaches
    exact loopType_unresolved
      (detaches.1 (.answer (.denoted (.single .noPrefix ⟨"x"⟩))) List.mem_cons_self)

theorem loopTree_unready (flag : Bool) :
    ¬ (acceptingSession counterSetting).Readies flag loopTree :=
  fun ready => loopTree_endless none ready.repairs.ends

end TreeRepair
