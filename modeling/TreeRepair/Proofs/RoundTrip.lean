import TreeRepair.Proofs.SurfacePasses
import TreeRepair.Proofs.Surroundings

namespace TreeRepair

theorem Tree.Rewrites.trans {t u v : Tree} (h : v.Rewrites u) (k : u.Rewrites t) : v.Rewrites t :=
  ⟨same_trans h.1 k.1, h.2⟩

namespace Session

variable (S : Session)

theorem readyForReset_surface (drop : Bool) {t : Tree} (h : t.Surface) :
    S.readyForReset drop t = .ok (S.setting.cleanInferredTypes t, []) := by
  have kept : (if drop then t.dropInserted else t) = t := by
    cases drop with
    | false => rfl
    | true => exact Tree.dropInserted_surface h
  simp only [readyForReset, S.setting.repairChecked_surface S.checker.owner h,
    S.setting.restoreCaseClasses_surface h, kept]

theorem check_surface (identify : Bool) (past : List Call) {t : Tree} (h : t.Surface)
    (check : ∀ past u, S.checker.check past u = .ok u) :
    (S.check identify past t).result = .ok t := by
  have marked : (if identify then S.setting.symbols.markInserted false
      (if identify then t.markWritten else t) else (if identify then t.markWritten else t)) = t := by
    cases identify with
    | false => rfl
    | true => exact S.setting.symbols.markInserted_markWritten_surface h false
  simp only [Session.check, check, marked, S.setting.repairChecked_surface S.checker.owner h]

theorem cleanInferredTypes_surface {t : Tree} (h : t.Surface) :
    (S.setting.cleanInferredTypes t).Rewrites t := S.setting.cleanTypes_surface t.definedTypes h

theorem recheck_surface (flag : Bool) (past : List Call) {t : Tree} (h : t.Surface)
    (check : ∀ past u, S.checker.check past u = .ok u)
    (reset : ∀ past u, S.checker.reset past u = u) :
    (S.recheck flag past t).result = .ok (S.setting.cleanInferredTypes t) := by
  have surface := h.of_rewrites (S.cleanInferredTypes_surface h)
  have unchecked : S.uncheck flag past t =
      { result := .ok (S.setting.cleanInferredTypes t)
        calls := [⟨.reset, S.setting.cleanInferredTypes t⟩] } := by
    simp [uncheck, S.readyForReset_surface flag h, reset, S.setting.cleanReset_surface surface]
  simp only [recheck, unchecked, Run.andThen]
  exact S.check_surface flag _ surface check

theorem recheckAll_surface (flag : Bool) (past : List Call) {t : Tree} (h : t.Surface)
    (declared : t.SelfAccessesDeclared S.setting.conventions)
    (check : ∀ past u, S.checker.check past u = .ok u)
    (resetAll : ∀ past u, S.checker.resetAll past u = u) :
    (S.recheckAll flag past t).result = .ok (S.setting.cleanInferredTypes t) := by
  have rewrites := S.cleanInferredTypes_surface h
  have surface := h.of_rewrites rewrites
  have fixed := S.setting.fixSelfAccess_surface surface
    (declared.of_same (Tree.same_symm rewrites.1))
  have unchecked : S.uncheckAll flag past t =
      { result := .ok (S.setting.cleanInferredTypes t)
        calls := [⟨.resetAll, S.setting.cleanInferredTypes t⟩] } := by
    simp [uncheckAll, S.readyForReset_surface flag h, fixed, resetAll,
      S.setting.cleanReset_surface surface]
  simp only [recheckAll, unchecked, Run.andThen]
  exact S.check_surface flag _ surface check

/-- Repeats an operation on its own results, once for each of the given flags. -/
def repeated (op : Bool → List Call → Tree → Run) : List Bool → List Call → Tree → Run
  | [], _, t => { result := .ok t }
  | flag :: flags, past, t => (op flag past t).andThen (repeated op flags) past

/-- What one run does to every tree of a kind, any number of runs does. -/
theorem repeated_rewrites {op : Bool → List Call → Tree → Run} {p : Tree → Prop}
    (surface : ∀ t, p t → t.Surface)
    (step : ∀ flag past t, p t → ∃ u, (op flag past t).result = .ok u ∧ p u ∧ u.Rewrites t)
    (flags : List Bool) (past : List Call) {t : Tree} (h : p t) :
    ∃ u, (repeated op flags past t).result = .ok u ∧ u.Rewrites t := by
  induction flags generalizing past t with
  | nil => exact ⟨t, rfl, (surface t h).rewrites_self⟩
  | cons flag flags ih =>
    obtain ⟨u, hu, kept, rewrites⟩ := step flag past t h
    obtain ⟨v, hv, again⟩ := ih (past ++ (op flag past t).calls) kept
    refine ⟨v, ?_, again.trans rewrites⟩
    simp only [repeated, Run.andThen, hu, hv]

end Session

/-- A case class with its companion, a self reference, a value without a type and a method taken
as a value, all in one block. -/
def recordBlock : Tree :=
  .bare (.block
    [.bare (.classDef { flags := .single .caseDecl } (.type "P") []
      (.bare (.template [] .empty
        [.bare (.valDef {} (.term "x") (.bare (.typeTree none)) (.bare (.literal (.int 1)))),
         .bare (.apply (.bare (.select (.bare (.this (.type "P"))) (.term "x"))) [])]))),
     .bare (.moduleDef {} (.term "P") (.bare (.template [] .empty [])))]
    (.bare (.typed (.bare (.ident (.term "f"))) (.bare (.function [] .empty)))))

theorem recordBlock_surface : recordBlock.Surface := by
  have flags : (Flags.single .caseDecl).has .synthetic = false ∧
      (Flags.single .caseDecl).has .defaultParam = false := by decide
  have bare : ({} : Info).Bare := ⟨rfl, rfl, rfl⟩
  simp [recordBlock, Tree.bare, Tree.empty, Tree.surface_mk, Tree.surfaceNode_iff,
    Shape.children, Shape.others, Shape.written, Shape.modifiers?, Shape.caseName?,
    Modifiers.has, Tree.isEtaMark, flags, bare]

theorem recordBlock_declared : recordBlock.SelfAccessesDeclared {} := by
  have named : Text.startsWith "P" ({} : Conventions).anonymousBeginning = false := by decide
  intro frames n hn j this selected hs
  obtain ⟨i, s⟩ := n
  subst hs
  simp [recordBlock, Tree.bare, Tree.empty, Tree.at_mk, Shape.children, Tree.frame?_mk,
    Shape.implName?, Shape.outline, Shape.declarations, Tree.declaredName?] at hn
  obtain ⟨⟨-, ⟨-, rfl⟩, rfl⟩, rfl⟩ := hn
  refine ⟨named, fun f hf => ?_⟩
  have : f.members.head? = some (.term "x") := by
    rw [← Option.some.inj hf]
    rfl
  exact List.mem_of_mem_head? this

/-- A session about which nothing is known, over a checker that changes nothing. -/
def plainSession : Session where
  setting :=
    { symbols := {}
      builtins :=
        { rootClass := ⟨"root"⟩
          nothingType := .unspecified
          anyType := .unspecified
          anyRefType := .unspecified } }
  checker :=
    { check := fun _ t => .ok t
      reset := fun _ t => t
      resetAll := fun _ t => t }

end TreeRepair
