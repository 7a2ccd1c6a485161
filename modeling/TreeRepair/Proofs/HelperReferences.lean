import TreeRepair.Proofs.OrderlyRepaired

namespace TreeRepair

namespace Text

theorem dropEnding_append {s e : String} (h : endsWith s e = true) : dropEnding s e ++ e = s := by
  have split := List.suffix_iff_eq_append.mp (List.isSuffixOf_iff_suffix.mp h)
  rw [dropEnding, if_pos h, ← String.toList_inj, String.toList_append, String.toList_ofList, split]

theorem endsWith_append (s e : String) : endsWith (s ++ e) e = true := by
  rw [endsWith, String.toList_append]
  exact List.isSuffixOf_iff_suffix.mpr (List.suffix_append _ _)

theorem dropEnding_of_not {s e : String} (h : endsWith s e = false) : dropEnding s e = s := by
  simp [dropEnding, h]

end Text

namespace Setting

variable (W : Setting)

/-- A name without the ending of moved helpers. -/
def plainText (text : String) : String := Text.dropEnding text W.conventions.movedEnding

/-- The name of the moved copy of a helper. -/
def movedName (text : String) : Name := .term (text ++ W.conventions.movedEnding)

/-- A helper that stands under the given name, which is not the one of a moved copy. -/
def isPlainHelper (text : String) (t : Tree) : Bool :=
  W.isDefaultHelper t && !W.isMovedHelper t && t.declaredText == text

/-- A helper in use, in one of its two forms, of which the plain one has the given name. -/
def isUsedHelper (used : List SymbolId) (text : String) (t : Tree) : Bool :=
  W.isDefaultHelper t && t.symbol.any used.contains && W.plainText t.declaredText == text

def IsCopyOf (text : String) (c : Tree) : Prop := c.declaredName? = some (W.movedName text)

variable {W}

theorem movedName_inj {a b : String} : W.movedName a = W.movedName b ↔ a = b := by
  rw [movedName, movedName, Name.term.injEq, String.append_left_inj]

theorem isCopyOf_movedCopy {t : Tree} (h : W.isDefaultHelper t = true) (text : String) :
    W.IsCopyOf text (W.movedCopy t) ↔ t.declaredText = text := by
  obtain ⟨m, s, rfl, -⟩ := W.method_of_isDefaultHelper h
  have named : (W.movedCopy m.toTree).declaredName? = some (W.movedName m.toTree.declaredText) := rfl
  rw [IsCopyOf, named, Option.some.injEq, movedName_inj]

variable (W)

/-- Under each name that was met, no other copy waits than one of the helper of that name. -/
def Keyed (seen : List (String × Option Tree)) : Prop :=
  ∀ text c, seen.lookup text = some (some c) → ∀ b, W.IsCopyOf b c ↔ text = b

/-- What waits under a name: nothing yet, a request for a copy, or a copy. -/
def waiting (seen : List (String × Option Tree)) (text : String) : Option Bool :=
  (seen.lookup text).map Option.isSome

variable {W}

theorem waiting_eq {seen : List (String × Option Tree)} {text : String} {copy : Option (Option Tree)}
    (h : seen.lookup text = copy) : waiting seen text = copy.map Option.isSome := by
  rw [waiting, h]

theorem waiting_cons_self (seen : List (String × Option Tree)) (text : String) (copy : Option Tree) :
    waiting ((text, copy) :: seen) text = some copy.isSome := by
  simp [waiting]

theorem waiting_cons_ne (seen : List (String × Option Tree)) {a b : String} (copy : Option Tree)
    (h : a ≠ b) : waiting ((a, copy) :: seen) b = waiting seen b := by
  rw [waiting, List.lookup_cons, beq_false_of_ne h.symm]
  rfl

theorem Keyed.cons {seen : List (String × Option Tree)} {text : String} {copy : Option Tree}
    (keyed : W.Keyed seen) (new : ∀ c, copy = some c → ∀ b, W.IsCopyOf b c ↔ text = b) :
    W.Keyed ((text, copy) :: seen) := by
  intro other c found
  rw [List.lookup_cons] at found
  split at found
  next same =>
    obtain rfl := beq_iff_eq.mp same
    exact new c (Option.some.inj found)
  next => exact keyed other c found

/-- What waits under a name after a statement, which may be a plain helper of that name and may be
one of its forms in use. -/
def stillWaiting : Option Bool → Bool → Bool → Option Bool
  | some copy, _, _ => some copy
  | none, plain, inUse => if plain = inUse then none else some plain

/-- Whether a statement brings a copy: a plain helper does if it is in use or anything waits, and a
moved one in use does if a copy waits. -/
def bringsCopy : Option Bool → Bool → Bool → Bool
  | none, plain, inUse => plain && inUse
  | some copy, plain, inUse => plain || copy && inUse

@[simp]
theorem stillWaiting_other (w : Option Bool) : stillWaiting w false false = w := by cases w <;> rfl

@[simp]
theorem bringsCopy_other (w : Option Bool) : bringsCopy w false false = false := by
  cases w <;> simp [bringsCopy]

theorem settleHelper_copy (used : List SymbolId) {seen : List (String × Option Tree)}
    (keyed : W.Keyed seen) (t : Tree) (b : String) :
    W.Keyed (W.settleHelper used seen t).seen ∧
      waiting (W.settleHelper used seen t).seen b =
        stillWaiting (waiting seen b) (W.isPlainHelper b t) (W.isUsedHelper used b t) ∧
      ((∃ c ∈ (W.settleHelper used seen t).moved, W.IsCopyOf b c) ↔
        bringsCopy (waiting seen b) (W.isPlainHelper b t) (W.isUsedHelper used b t) = true) := by
  cases helper : W.isDefaultHelper t with
  | false =>
    have step : W.settleHelper used seen t = ⟨seen, t, []⟩ := by simp [settleHelper, helper]
    simpa [step, isPlainHelper, isUsedHelper, helper] using keyed
  | true =>
    have copied := isCopyOf_movedCopy helper
    cases moved : Text.endsWith t.declaredText W.conventions.movedEnding with
    | true =>
      have notPlain : W.isPlainHelper b t = false := by
        simp [isPlainHelper, isMovedHelper, helper, moved]
      cases inUse : t.symbol.any used.contains with
      | false =>
        have step : W.settleHelper used seen t = ⟨seen, .empty, []⟩ := by
          simp [settleHelper, helper, moved, inUse]
        simpa [step, notPlain, isUsedHelper, helper, inUse] using keyed
      | true =>
        have asks : W.isUsedHelper used b t = (W.plainText t.declaredText == b) := by
          simp [isUsedHelper, helper, inUse]
        rw [notPlain, asks]
        cases found : seen.lookup (W.plainText t.declaredText) with
        | some copy =>
          have step : W.settleHelper used seen t = ⟨seen, .empty, copy.toList⟩ := by
            simp only [plainText] at found
            simp [settleHelper, helper, moved, inUse, found]
          rw [step]
          refine ⟨keyed, ?_⟩
          by_cases same : W.plainText t.declaredText = b
          · subst same
            rw [waiting_eq found]
            cases copy with
            | none => simp [stillWaiting, bringsCopy]
            | some c => simp [stillWaiting, bringsCopy, keyed _ c found]
          · rw [beq_false_of_ne same]
            cases copy with
            | none => simp
            | some c => simp [same, keyed _ c found]
        | none =>
          have step : W.settleHelper used seen t =
              ⟨(W.plainText t.declaredText, none) :: seen, .empty, []⟩ := by
            simp only [plainText] at found
            simp [settleHelper, helper, moved, inUse, found, plainText]
          rw [step]
          refine ⟨keyed.cons (by simp), ?_⟩
          by_cases same : W.plainText t.declaredText = b
          · subst same
            simp [waiting_cons_self, waiting_eq found, stillWaiting, bringsCopy]
          · simp [waiting_cons_ne _ _ same, beq_false_of_ne same]
    | false =>
      have isPlain : W.isPlainHelper b t = (t.declaredText == b) := by
        simp [isPlainHelper, isMovedHelper, helper, moved]
      have asks : W.isUsedHelper used b t =
          (t.symbol.any used.contains && t.declaredText == b) := by
        simp [isUsedHelper, helper, plainText, Text.dropEnding_of_not moved]
      rw [isPlain, asks]
      cases wanted : (t.symbol.any used.contains || (seen.lookup t.declaredText).isSome) with
      | true =>
        have step : W.settleHelper used seen t = ⟨seen, t, [W.movedCopy t]⟩ := by
          simp only [settleHelper, helper, moved, wanted, Bool.false_eq_true, if_true, if_false]
        rw [step]
        refine ⟨keyed, ?_⟩
        simp only [List.mem_singleton, exists_eq_left, copied]
        by_cases same : t.declaredText = b
        · subst same
          cases found : seen.lookup t.declaredText with
          | none =>
            have inUse : t.symbol.any used.contains = true := by simpa [found] using wanted
            simp [waiting_eq found, inUse, stillWaiting, bringsCopy]
          | some copy => simp [waiting_eq found, stillWaiting, bringsCopy]
        · simp [same, beq_false_of_ne same]
      | false =>
        have step : W.settleHelper used seen t =
            ⟨(t.declaredText, some (W.movedCopy t)) :: seen, t, []⟩ := by
          simp only [settleHelper, helper, moved, wanted, Bool.false_eq_true, if_true, if_false]
        obtain ⟨unused, unseen⟩ := Bool.or_eq_false_iff.mp wanted
        rw [step]
        refine ⟨keyed.cons fun c hc b => ?_, ?_⟩
        · rw [← Option.some.inj hc, copied]
        by_cases same : t.declaredText = b
        · subst same
          have found := Option.isSome_eq_false_iff.mp unseen
          simp [waiting_cons_self, waiting_eq (Option.isNone_iff_eq_none.mp found), unused,
            stillWaiting, bringsCopy]
        · simp [waiting_cons_ne _ _ same, beq_false_of_ne same]

/-- Whether statements bring a copy under a name under which something may wait: there must be a
plain helper, and unless something waits also one in use or a second plain one. -/
theorem exists_copy_iff {used : List SymbolId} {seen : List (String × Option Tree)}
    (keyed : W.Keyed seen) (stats : List Tree) (b : String) :
    (∃ c ∈ (W.settleHelpers used seen stats).2, W.IsCopyOf b c) ↔
      match waiting seen b with
      | none => 0 < stats.countP (W.isPlainHelper b) ∧
          (stats.any (W.isUsedHelper used b) = true ∨ 1 < stats.countP (W.isPlainHelper b))
      | some copy => 0 < stats.countP (W.isPlainHelper b) ∨
          copy = true ∧ stats.any (W.isUsedHelper used b) = true := by
  induction stats generalizing seen with
  | nil => cases waits : waiting seen b <;> simp [settleHelpers]
  | cons t rest ih =>
    obtain ⟨stillKeyed, waits, brings⟩ := settleHelper_copy used keyed t b
    have later := ih stillKeyed
    rw [waits] at later
    simp only [settleHelpers, List.mem_append, or_and_right, exists_or, brings, later,
      List.countP_cons, List.any_cons, Bool.or_eq_true]
    cases waiting seen b with
    | none =>
      cases plain : W.isPlainHelper b t <;> cases inUse : W.isUsedHelper used b t <;>
        simp [stillWaiting, bringsCopy, or_comm]
    | some copy =>
      cases plain : W.isPlainHelper b t <;> cases inUse : W.isUsedHelper used b t <;>
        cases copy <;> simp [stillWaiting, bringsCopy]

variable (W)

/-- Reconciling the statements adds a copy of the helper with the given plain name. -/
def AddsCopy (used : List SymbolId) (stats : List Tree) (text : String) : Prop :=
  (∃ p ∈ stats, W.isPlainHelper text p = true) ∧
    ((∃ x ∈ stats, W.isUsedHelper used text x = true) ∨
      1 < stats.countP (W.isPlainHelper text))

/-- The name under which a reference to a helper looks for it. -/
def referredName (name : Name) : Name :=
  if Text.endsWith name.text W.conventions.movedEnding then name else W.movedName name.text

variable {W}

theorem exists_copy_iff_addsCopy (used : List SymbolId) (stats : List Tree) (b : String) :
    (∃ c ∈ (W.settleHelpers used [] stats).2, W.IsCopyOf b c) ↔ W.AddsCopy used stats b := by
  rw [exists_copy_iff (by simp [Keyed]), AddsCopy, ← List.countP_pos_iff, ← List.any_eq_true]
  rfl

theorem endsWith_referredName (name : Name) :
    Text.endsWith (W.referredName name).text W.conventions.movedEnding = true := by
  unfold referredName
  split
  next moved => exact moved
  next => exact Text.endsWith_append _ _

theorem referredName_term (text : String) :
    W.referredName (.term text) = W.movedName (W.plainText text) := by
  have same : (Name.term text).text = text := rfl
  rw [referredName, same, plainText]
  split
  next moved => rw [movedName, Text.dropEnding_append moved]
  next plain => rw [Text.dropEnding_of_not (by simpa using plain)]

theorem mem_usedHelpers {t q : Tree} {d : Method} {j : Info} {name : Name} {s : SymbolId}
    (declared : d.toTree ∈ t.preorder) (helper : W.isDefaultHelper d.toTree = true)
    (reference : ⟨j, .select q name⟩ ∈ t.preorder) (carried : d.info.symbol = some s)
    (symbol : j.symbol = some s) : s ∈ W.usedHelpers t := by
  have defined : s ∈ W.definedHelpers t := by
    refine List.mem_filterMap.mpr ⟨d.toTree, declared, ?_⟩
    rw [if_pos helper]
    exact carried
  refine List.mem_filterMap.mpr ⟨_, reference, ?_⟩
  simp [Tree.symbol, symbol, defined]

end Setting

/-- The statements of a node declare a method of the given name. -/
def Tree.DeclaresMethod (t : Tree) (name : Name) : Prop :=
  ∃ m : Method, m.toTree ∈ t.shape.statements ∧ m.name = name

namespace Repair

variable {R : Repair}

theorem selection_of_used {i : Info} {name : Name} {s : SymbolId} (symbol : i.symbol = some s)
    (used : s ∈ R.usedHelpers) :
    R.selection i name = ({ pos := i.pos }, R.setting.referredName name) := by
  simp only [selection, symbol, List.contains_iff_mem, used, if_true]
  rfl

theorem statements_tree {i : Info} {s : Shape Tree} {d : Tree} (ends : R.descent.Ends ⟨i, s⟩)
    (h : d ∈ s.statements) :
    (R.tree ⟨i, s⟩).shape.statements =
        (R.setting.settleStatements R.usedHelpers s.statements).map R.tree ∧
      ∀ x ∈ R.setting.settleStatements R.usedHelpers s.statements, R.descent.Ends x := by
  have below (x : Tree) (hx : x ∈ R.setting.settleStatements R.usedHelpers s.statements) :
      x ∈ (R.setting.settleShape R.usedHelpers s).children := by
    rw [← R.setting.statements_settleShape] at hx
    exact Shape.mem_children_of_mem_statements hx
  have repaired : R.tree ⟨i, s⟩ =
        ⟨i, (R.setting.settleShape R.usedHelpers s).mapChildren R.tree⟩ ∧
      R.parts ⟨i, s⟩ = (R.setting.settleShape R.usedHelpers s).children := by
    rw [R.tree_eq_node ends]
    cases s <;> first | exact ⟨rfl, rfl⟩ | simp [Shape.statements] at h
  constructor
  · rw [repaired.1, Shape.statements_mapChildren, R.setting.statements_settleShape]
  · intro x hx
    have part : x ∈ R.parts ⟨i, s⟩ := repaired.2 ▸ below x hx
    exact ends.of_visits (.single part)

variable (R) in
/-- One of the statements is no helper and stays a method of the given name. -/
def KeepsMethod (stats : List Tree) (name : Name) : Prop :=
  ∃ x ∈ stats, R.setting.isDefaultHelper x = false ∧ ∃ m : Method, R.tree x = m.toTree ∧ m.name = name

/-- The moved copy of a helper stays a method under its name. -/
theorem tree_movedCopy {x : Tree} (helper : R.setting.isDefaultHelper x = true)
    (ends : R.descent.Ends (R.setting.movedCopy x)) :
    ∃ m : Method, R.tree (R.setting.movedCopy x) = m.toTree ∧
      (R.setting.movedCopy x).declaredName? = some m.name := by
  obtain ⟨m, s, rfl, -⟩ := R.setting.method_of_isDefaultHelper helper
  refine ⟨⟨{ pos := m.info.pos }, {}, R.setting.movedName m.name.text, m.tparams.map R.tree,
    m.vparamss.map fun vs => vs.map R.tree, R.tree m.tpt, R.tree m.rhs⟩, ?_, rfl⟩
  rw [R.tree_eq_node ends]
  rfl

/-- No helper is left in its place under the name of a moved copy. -/
theorem tree_keptInPlace_iff {x : Tree} {m : Method} (ends : R.descent.Ends (R.setting.keptInPlace x))
    (moved : Text.endsWith m.name.text R.setting.conventions.movedEnding = true) :
    R.tree (R.setting.keptInPlace x) = m.toTree ↔
      R.setting.isDefaultHelper x = false ∧ R.tree x = m.toTree := by
  constructor
  · intro repaired
    cases gap : R.setting.isMovedHelper x with
    | true =>
      rw [Setting.keptInPlace, if_pos gap, tree_empty] at repaired
      simp [Tree.empty, Tree.bare, Method.toTree] at repaired
    | false =>
      simp only [Setting.keptInPlace, gap, Bool.false_eq_true, if_false] at repaired ends
      obtain ⟨w, rfl, name, -⟩ := method_of_tree ends repaired
      have text : w.toTree.declaredText = m.name.text := congrArg Name.text name
      rw [Setting.isMovedHelper, text, moved, Bool.and_true] at gap
      exact ⟨gap, repaired⟩
  · rintro ⟨plain, repaired⟩
    rw [R.setting.keptInPlace_of_not_helper plain, repaired]

/-- A method under the name of a moved copy is such a copy, or was declared under that name and is
no helper. -/
theorem declaresMethod_iff {i : Info} {s : Shape Tree} {d : Tree} {name : Name}
    (ends : R.descent.Ends ⟨i, s⟩) (h : d ∈ s.statements)
    (moved : Text.endsWith name.text R.setting.conventions.movedEnding = true) :
    (R.tree ⟨i, s⟩).DeclaresMethod name ↔
      (∃ b, name = R.setting.movedName b ∧ R.setting.AddsCopy R.usedHelpers s.statements b) ∨
        R.KeepsMethod s.statements name := by
  obtain ⟨statements, below⟩ := statements_tree ends h
  have split : R.setting.settleStatements R.usedHelpers s.statements =
      s.statements.map R.setting.keptInPlace ++
        (R.setting.settleHelpers R.usedHelpers [] s.statements).2 := by
    rw [← R.setting.settleHelpers_kept R.usedHelpers []]
    rfl
  have copies : ∀ c ∈ (R.setting.settleHelpers R.usedHelpers [] s.statements).2,
      ∃ x, R.setting.isDefaultHelper x = true ∧ c = R.setting.movedCopy x :=
    R.setting.settleHelpers_copies (by simp) fun x _ helper => ⟨x, helper, rfl⟩
  rw [split] at below
  unfold Tree.DeclaresMethod
  rw [statements, split]
  constructor
  · rintro ⟨m, hm, rfl⟩
    obtain ⟨x, hx, repaired⟩ := List.mem_map.mp hm
    rcases List.mem_append.mp hx with kept | copy
    · right
      obtain ⟨y, hy, rfl⟩ := List.mem_map.mp kept
      obtain ⟨plain, method⟩ := (tree_keptInPlace_iff (below _ hx) moved).mp repaired
      exact ⟨y, hy, plain, m, method, rfl⟩
    · left
      obtain ⟨y, helper, rfl⟩ := copies x copy
      obtain ⟨n, same, named⟩ := tree_movedCopy helper (below _ hx)
      have itself : R.setting.IsCopyOf y.declaredText (R.setting.movedCopy y) :=
        (Setting.isCopyOf_movedCopy helper _).mpr rfl
      have name : n.name = m.name := by
        have both := same.symm.trans repaired
        simp only [Method.toTree, Tree.mk.injEq, Shape.defDef.injEq] at both
        exact both.2.2.1
      refine ⟨y.declaredText, ?_, (Setting.exists_copy_iff_addsCopy _ _ _).mp ⟨_, copy, itself⟩⟩
      rw [← name]
      exact Option.some.inj (named.symm.trans itself)
  · rintro (⟨b, rfl, adds⟩ | ⟨x, hx, plain, m, repaired, rfl⟩)
    · obtain ⟨c, hc, copy⟩ := (Setting.exists_copy_iff_addsCopy _ _ b).mpr adds
      obtain ⟨y, helper, rfl⟩ := copies c hc
      obtain ⟨n, same, named⟩ := tree_movedCopy helper (below _ (List.mem_append_right _ hc))
      refine ⟨n, ?_, Option.some.inj (named.symm.trans copy)⟩
      rw [← same]
      exact List.mem_map_of_mem (List.mem_append_right _ hc)
    · have kept : R.setting.keptInPlace x ∈ s.statements.map R.setting.keptInPlace :=
        List.mem_map_of_mem hx
      have here := List.mem_append_left (R.setting.settleHelpers R.usedHelpers [] s.statements).2 kept
      refine ⟨m, ?_, rfl⟩
      rw [← (tree_keptInPlace_iff (below _ here) moved).mpr ⟨plain, repaired⟩]
      exact List.mem_map_of_mem here

end Repair

/-- A reference to a helper finds a method among the repaired statements of the helper exactly if a
copy is added under the name it looks for, or a method had that name before. If it spells the
helper in one of its forms, a copy is added exactly if the plain form is among the statements. -/
theorem helper_reference_declared_iff {W : Setting} {owner : Option SymbolId} {t q : Tree}
    {R : Repair} (repair : R = .ofTree W owner t) (ends : R.descent.Ends t) {i j : Info} {s : Shape Tree}
    {d : Method} {name : Name} (here : ⟨i, s⟩ ∈ t.preorder) (reached : R.Reaches t ⟨i, s⟩)
    (declared : d.toTree ∈ s.statements) (helper : W.isDefaultHelper d.toTree = true)
    (reference : ⟨j, .select q name⟩ ∈ t.preorder) (symbol : j.symbol = d.info.symbol) :
    (R.Reaches t ⟨j, .select q name⟩ → (W.repairChecked owner t).Contains
      ⟨{ pos := j.pos }, .select (R.tree q) (W.referredName name)⟩) ∧
    (W.repairChecked owner t).Contains (R.tree ⟨i, s⟩) ∧
    ((R.tree ⟨i, s⟩).DeclaresMethod (W.referredName name) ↔
      (∃ b, W.referredName name = W.movedName b ∧ W.AddsCopy R.usedHelpers s.statements b) ∨
        R.KeepsMethod s.statements (W.referredName name)) ∧
    ∀ text, name = .term text → W.plainText text = W.plainText d.name.text →
      ((R.tree ⟨i, s⟩).DeclaresMethod (W.referredName name) ↔
        (∃ p ∈ s.statements, W.isPlainHelper (W.plainText text) p = true) ∨
          R.KeepsMethod s.statements (W.referredName name)) := by
  subst repair
  obtain ⟨m, h, same, carried⟩ := W.method_of_isDefaultHelper helper
  replace carried : d.info.symbol = some h := (congrArg Tree.symbol same).trans carried
  have inTree : d.toTree ∈ t.preorder :=
    Tree.preorder_down _ _ here (Shape.mem_children_of_mem_statements declared)
  have used : h ∈ W.usedHelpers t :=
    Setting.mem_usedHelpers inTree helper reference carried (symbol.trans carried)
  have exactly := Repair.declaresMethod_iff (reached.ends ends) declared
    (W.endsWith_referredName name)
  refine ⟨fun selected => ?_, reached.contains ends, exactly, fun text spelled form => ?_⟩
  · have repaired := selected.contains ends
    rw [Repair.tree_eq_node _ (selected.ends ends), Repair.node,
      Repair.selection_of_used (symbol.trans carried) used] at repaired
    exact repaired
  · have looksFor : W.referredName name = W.movedName (W.plainText text) := by
      rw [spelled, W.referredName_term]
    -- the helper itself is in use under this name
    have wanted : W.isUsedHelper (W.usedHelpers t) (W.plainText text) d.toTree = true := by
      have inUse : d.toTree.symbol.any (W.usedHelpers t).contains = true := by
        rw [show d.toTree.symbol = some h from carried]
        simpa using used
      simp only [Setting.isUsedHelper, helper, inUse, form, Bool.true_and, beq_iff_eq]
      rfl
    rw [exactly]
    refine or_congr_left ⟨?_, fun plain => ?_⟩
    · rintro ⟨b, name, plain, -⟩
      obtain rfl := Setting.movedName_inj.mp (looksFor.symm.trans name)
      exact plain
    · exact ⟨_, looksFor, plain, .inl ⟨d.toTree, declared, wanted⟩⟩

/-- A method `m` of a class with the helper of its default argument in both forms. -/
def helperSetting : Setting where
  symbols.entries :=
    [(⟨"C"⟩, { name := .type "C", kind := .plainClass, owner := some ⟨"root"⟩ }),
     (⟨"g"⟩, { name := .term "m$default$1", kind := .method, owner := some ⟨"C"⟩
               flags := .single .synthetic }),
     (⟨"h"⟩, { name := .term "m$default$1$macro", kind := .method, owner := some ⟨"C"⟩
               flags := .single .synthetic })]
  builtins.rootClass := ⟨"root"⟩
  builtins.nothingType := .unspecified
  builtins.anyType := .unspecified
  builtins.anyRefType := .unspecified

def helperMethod (symbol name : String) : Method :=
  ⟨{ symbol := some ⟨symbol⟩ }, { flags := .single .synthetic }, .term name, [], [],
    .bare (.typeTree none), .bare (.literal (.int 1))⟩

def plainHelper : Method := helperMethod "g" "m$default$1"

def movedHelper : Method := helperMethod "h" "m$default$1$macro"

def helperReference : Tree :=
  ⟨{ symbol := some ⟨"h"⟩ }, .select (.bare (.this (.type "C"))) (.term "m$default$1$macro")⟩

def bothForms : Tree :=
  .bare (.template [] .empty [plainHelper.toTree, movedHelper.toTree, helperReference])

def movedFormOnly : Tree := .bare (.template [] .empty [movedHelper.toTree, helperReference])

theorem helpers_isDefaultHelper :
    helperSetting.isDefaultHelper plainHelper.toTree = true ∧
      helperSetting.isDefaultHelper movedHelper.toTree = true := by decide

theorem helperSetting_ends {t : Tree} (h : ∀ v : Field, v.toTree ∉ t.preorder) :
    (Repair.ofTree helperSetting none t).descent.Ends t :=
  Repair.ends_of_plain_fields
    (SymbolTable.forall_get (P := fun symbol => symbol.annotations = []) rfl
      (by simp [helperSetting]))
    fun v hv => absurd hv (h v)

theorem bothForms_preorder : bothForms.preorder =
    [bothForms, .empty, plainHelper.toTree, plainHelper.tpt, plainHelper.rhs, movedHelper.toTree,
      movedHelper.tpt, movedHelper.rhs, helperReference, .bare (.this (.type "C"))] := by
  simp [bothForms, plainHelper, movedHelper, helperMethod, helperReference, Method.toTree, Tree.bare,
    Tree.empty, Tree.preorder_eq, Tree.children, Shape.children]

theorem bothForms_ends : (Repair.ofTree helperSetting none bothForms).descent.Ends bothForms := by
  refine helperSetting_ends fun v hv => ?_
  rw [bothForms_preorder] at hv
  simp [bothForms, plainHelper, movedHelper, helperMethod, helperReference, Method.toTree,
    Field.toTree, Tree.bare, Tree.empty] at hv

theorem bothForms_declared :
    (Repair.ofTree helperSetting none bothForms).descent.Ends bothForms ∧
      helperReference ∈ bothForms.preorder ∧
      ((Repair.ofTree helperSetting none bothForms).tree bothForms).DeclaresMethod
        (helperSetting.referredName (.term "m$default$1$macro")) := by
  have reference : helperReference ∈ bothForms.preorder := by simp [bothForms_preorder]
  have plain : helperSetting.isPlainHelper (helperSetting.plainText "m$default$1$macro")
      plainHelper.toTree = true := by decide
  obtain ⟨-, -, -, spelled⟩ := helper_reference_declared_iff (d := movedHelper) rfl bothForms_ends
    bothForms.self_mem_preorder .refl (by simp [Shape.statements]) helpers_isDefaultHelper.2
    reference rfl
  refine ⟨bothForms_ends, reference, (spelled _ rfl rfl).mpr (.inl ⟨_, ?_, plain⟩)⟩
  simp [Shape.statements]

theorem movedFormOnly_preorder : movedFormOnly.preorder =
    [movedFormOnly, .empty, movedHelper.toTree, movedHelper.tpt, movedHelper.rhs, helperReference,
      .bare (.this (.type "C"))] := by
  simp [movedFormOnly, movedHelper, helperMethod, helperReference, Method.toTree, Tree.bare,
    Tree.empty, Tree.preorder_eq, Tree.children, Shape.children]

theorem movedFormOnly_ends :
    (Repair.ofTree helperSetting none movedFormOnly).descent.Ends movedFormOnly := by
  refine helperSetting_ends fun v hv => ?_
  rw [movedFormOnly_preorder] at hv
  simp [movedFormOnly, movedHelper, helperMethod, helperReference, Method.toTree, Field.toTree,
    Tree.bare, Tree.empty] at hv

theorem movedFormOnly_used : ⟨"h"⟩ ∈ helperSetting.usedHelpers movedFormOnly := by
  have declared : movedHelper.toTree ∈ movedFormOnly.preorder := by simp [movedFormOnly_preorder]
  have reference : helperReference ∈ movedFormOnly.preorder := by simp [movedFormOnly_preorder]
  exact Setting.mem_usedHelpers declared helpers_isDefaultHelper.2 reference rfl rfl

/-- Of a helper that stands under its moved name only, nothing is left but the reference to it. -/
theorem movedFormOnly_dangles :
    helperSetting.repairChecked none movedFormOnly =
        .bare (.template [] .empty [.empty,
          .bare (.select (.bare (.this (.type "C"))) (.term "m$default$1$macro"))]) ∧
      ¬ (helperSetting.repairChecked none movedFormOnly).DeclaresMethod
        (.term "m$default$1$macro") := by
  let R := Repair.ofTree helperSetting none movedFormOnly
  have settled : helperSetting.settleStatements (helperSetting.usedHelpers movedFormOnly)
      [movedHelper.toTree, helperReference] = [.empty, helperReference] := by
    have moved : Text.endsWith movedHelper.toTree.declaredText
        helperSetting.conventions.movedEnding = true := by decide
    have inUse : movedHelper.toTree.symbol.any
        (helperSetting.usedHelpers movedFormOnly).contains = true := by
      simpa [movedHelper, helperMethod, Method.toTree, Tree.symbol] using movedFormOnly_used
    have plain : helperSetting.isDefaultHelper helperReference = false := rfl
    simp [Setting.settleStatements, Setting.settleHelpers, Setting.settleHelper,
      helpers_isDefaultHelper, moved, inUse, plain]
  have self : R.tree (.bare (.this (.type "C"))) = .bare (.this (.type "C")) := by
    rw [R.tree_eq_node (Descent.ends_of_leaf rfl rfl)]
    rfl
  have shape : R.setting.settleShape R.usedHelpers (.template [] .empty
      [movedHelper.toTree, helperReference]) = .template [] .empty [.empty, helperReference] := by
    rw [Setting.settleShape, show R.setting.settleStatements R.usedHelpers _ = _ from settled]
  have part : helperReference ∈ R.parts movedFormOnly := by
    rw [movedFormOnly, Tree.bare, Repair.parts, shape]
    · simp [Shape.children]
    all_goals simp
  have spelled : helperSetting.referredName (.term "m$default$1$macro") =
      .term "m$default$1$macro" := by decide
  have reference : R.tree helperReference =
      .bare (.select (.bare (.this (.type "C"))) (.term "m$default$1$macro")) := by
    rw [R.tree_eq_node (movedFormOnly_ends.of_visits (.single part)), helperReference, Repair.node,
      Repair.selection_of_used rfl movedFormOnly_used, self]
    rw [show R.setting.referredName (.term "m$default$1$macro") = _ from spelled]
    rfl
  have repaired : helperSetting.repairChecked none movedFormOnly =
      .bare (.template [] .empty [.empty,
        .bare (.select (.bare (.this (.type "C"))) (.term "m$default$1$macro"))]) := by
    have node : R.tree movedFormOnly = ⟨{}, (R.setting.settleShape R.usedHelpers (.template [] .empty
        [movedHelper.toTree, helperReference])).mapChildren R.tree⟩ := R.tree_eq_node movedFormOnly_ends
    rw [shape] at node
    simp only [Shape.mapChildren, List.map_cons, List.map_nil, Repair.tree_empty, reference] at node
    exact node
  refine ⟨repaired, ?_⟩
  rw [repaired]
  rintro ⟨m, hm, -⟩
  simp [Tree.bare, Tree.empty, Method.toTree, Shape.statements] at hm

end TreeRepair
