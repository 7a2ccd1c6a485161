import TreeRepair.Proofs.CasePlaces

namespace TreeRepair

/-- A report on a case class or case object that stands neither among statements nor inside of
what is removed. -/
def Occurrence.misplaced? (o : Occurrence) : Option Misplaced :=
  match o.place with
  | .statement _ _ | .removed => none
  | .body | .other => o.node.shape.caseName?.map fun name => ⟨o.node.info.pos, name⟩

/-- What is said about a node itself, without those below it. -/
def Tree.report (n : Tree) : List Misplaced :=
  if n.info.marks.cleaned then []
  else (n.shape.caseName?.map fun name => ⟨n.info.pos, name⟩).toList

namespace Conventions

variable (C : Conventions)

theorem report_withoutGenerated (n : Tree) : (C.withoutGenerated n).report = n.report := by
  unfold withoutGenerated
  split <;> rfl

/-- Nothing is said about statements: a case class among them is marked, or goes away. -/
theorem report_cleanStatement (stats : List Tree) (n : Tree) :
    (C.cleanStatement (caseClassNames stats) n).report = [] := by
  have silent {m : Tree} (h : m.info.marks.cleaned = true ∨ m.shape.caseName? = none) :
      m.report = [] := by
    unfold Tree.report
    split
    · rfl
    · simp_all
  rw [cleanStatement_eq]
  split
  · exact silent (.inr rfl)
  · split
    · exact silent (.inl rfl)
    next plain =>
      refine silent (.inr ?_)
      rw [Shape.caseName?_eq]
      cases h : n.shape.declaration? with
      | none => rfl
      | some d =>
        obtain ⟨isClass, flags, name⟩ := d
        rw [h] at plain
        cases isClass <;> simp_all [cleansDeclaration]

theorem report_standing {o : Occurrence} (unmarked : o.node.info.marks.cleaned = false) :
    (C.standing o.place o.node).flatMap Tree.report = o.misplaced?.toList := by
  obtain ⟨path, pl, n⟩ := o
  have reported : n.report = (n.shape.caseName?.map fun name => ⟨n.info.pos, name⟩).toList := by
    rw [Tree.report, if_neg (by simpa using unmarked)]
  cases pl with
  | statement stats ofCleaned =>
    simp only [standing, Occurrence.misplaced?]
    split
    · rfl
    · simpa using C.report_cleanStatement stats n
  | body => simp [standing, Occurrence.misplaced?, report_withoutGenerated, reported]
  | removed => rfl
  | other => simp [standing, Occurrence.misplaced?, reported]

/-- What cleaning reports is what is misplaced in the tree as it was. -/
theorem misplaced_eq_filterMap {t : Tree}
    (unmarked : ∀ n ∈ t.preorder, n.info.marks.cleaned = false) :
    C.misplaced (C.cleanStatement (caseClassNames [t]) t) =
      (C.occurrences t).filterMap Occurrence.misplaced? := by
  have collected := C.flatMap_standing C.misplaced Tree.report (fun i s => C.misplaced_mk i s)
    ⟨[], .statement [t] false, t⟩
  have root : C.standing (.statement [t] false) t = [C.cleanStatement (caseClassNames [t]) t] := rfl
  rw [root, List.flatMap_singleton] at collected
  rw [collected, List.filterMap_eq_flatMap_toList]
  refine List.flatMap_congr fun o ho => C.report_standing (unmarked o.node ?_)
  rw [← C.map_node_occurrences]
  exact List.mem_map_of_mem ho

end Conventions

/-- A case class, its companion, and the class of the companion. -/
def recordSetting (strict : Bool) : Setting where
  symbols :=
    { entries :=
        [(⟨"a"⟩, { name := .type "A", kind := .plainClass }),
         (⟨"m"⟩, { name := .term "A", kind := .module, moduleClass := some ⟨"c"⟩ }),
         (⟨"c"⟩, { name := .type "A", kind := .moduleClass }),
         (⟨"f"⟩, { name := .term "f", kind := .method, owner := some ⟨"c"⟩ }),
         (⟨"x"⟩, { name := .term "x", kind := .term })] }
  builtins :=
    { rootClass := ⟨"root"⟩
      nothingType := .unspecified
      anyType := .unspecified
      anyRefType := .unspecified }
  conventions := { strict }

def caseClass (i : Info) (name : String) (body : List Tree) : Tree :=
  ⟨i, .classDef { flags := .single .caseDecl } (.type name) [] (.bare (.template [] .empty body))⟩

/-- A case class with a generated method and a generated companion, which is called behind them.
Three more case classes stand where values should: one in the method, one in the companion, and
one as the value of `x`. -/
def recordTree : Tree :=
  .bare (.block
    [caseClass { symbol := some ⟨"a"⟩ } "A"
      [.bare (.defDef { flags := .single .synthetic } (.term "copy") [] [] (.bare (.typeTree none))
        (caseClass {} "B" []))],
     ⟨{ symbol := some ⟨"m"⟩ }, .moduleDef { flags := .single .synthetic } (.term "A")
      (.bare (.template [] .empty
        [.bare (.valDef {} (.term "y") (.bare (.typeTree none)) (caseClass {} "C" []))]))⟩,
     ⟨{ symbol := some ⟨"x"⟩ }, .valDef {} (.term "x") (.resolved (.ref .noPrefix ⟨"a"⟩ []))
      (caseClass { pos := { line := 7 } } "D" [])⟩]
    ⟨{ symbol := some ⟨"f"⟩ }, .select ⟨{ symbol := some ⟨"m"⟩ }, .ident (.term "A")⟩ (.term "f")⟩)

theorem recordTree_unmarked : ∀ n ∈ recordTree.preorder, n.info.marks.cleaned = false := by
  simp [recordTree, caseClass, Tree.preorder_eq, Tree.children, Shape.children, Tree.bare,
    Tree.empty, Tree.resolved]

theorem recordTree_misplaced (strict : Bool) :
    ((recordSetting strict).conventions.occurrences recordTree).filterMap Occurrence.misplaced? =
      [⟨{ line := 7 }, .type "D"⟩] := by
  rw [← Conventions.misplaced_eq_filterMap _ recordTree_unmarked]
  cases strict <;> cbv

end TreeRepair
