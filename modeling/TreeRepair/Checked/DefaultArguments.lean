import TreeRepair.Setting

namespace TreeRepair

/-- The declared name of a statement as text. -/
def Tree.declaredText (t : Tree) : String := (t.declaredName?.map Name.text).getD ""

namespace Setting

variable (W : Setting)

/-- Whether a method computes a default argument. The helper of a constructor counts only if its
class stands in a class or module. -/
def isDefaultHelper (t : Tree) : Bool :=
  match t.shape, t.symbol with
  | .defDef mods name _ _ _ _, some s =>
    match (W.symbols.get s).owner.bind fun o => (W.symbols.get o).owner with
    | none => false
    | some outer =>
      let text := name.text
      let place := W.symbols.get outer
      Text.contains text W.conventions.defaultMarker &&
        (Text.endsWith text W.conventions.movedEnding || mods.has .synthetic ||
          mods.has .defaultParam) &&
        !(Text.startsWith text W.conventions.constructorEncoded &&
          !(place.isClass || place.isModule || place.isModuleClass))
  | _, _ => false

/-- The copy of a helper under its moved name, with nothing the checker found out about it. -/
def movedCopy (t : Tree) : Tree :=
  match t with
  | ⟨i, .defDef _ name tparams vparamss tpt rhs⟩ =>
    ⟨{ pos := i.pos },
      .defDef {} (.term (name.text ++ W.conventions.movedEnding)) tparams vparamss tpt rhs⟩
  | t => t

/-- What becomes of one statement: the names met so far, with the copies not yet asked for, what
stays in place, and the copies to add behind. -/
structure HelperStep where
  seen : List (String × Option Tree)
  kept : Tree
  moved : List Tree

/-- A helper under its moved name leaves a gap, and asks for the copy of its plain form if it is
used; a plain form is copied if it is used or asked for. -/
def settleHelper (used : List SymbolId) (seen : List (String × Option Tree)) (t : Tree) :
    HelperStep :=
  if W.isDefaultHelper t then
    let name := t.declaredText
    let ending := W.conventions.movedEnding
    let isUsed := t.symbol.any used.contains
    if Text.endsWith name ending then
      let plain := Text.dropEnding name ending
      if isUsed then
        match seen.lookup plain with
        | some copy => ⟨seen, .empty, copy.toList⟩
        | none => ⟨(plain, none) :: seen, .empty, []⟩
      else ⟨seen, .empty, []⟩
    else if isUsed || (seen.lookup name).isSome then ⟨seen, t, [W.movedCopy t]⟩
    else ⟨(name, some (W.movedCopy t)) :: seen, t, []⟩
  else ⟨seen, t, []⟩

/-- Goes through statements and yields what stays in place and the copies to add behind. -/
def settleHelpers (used : List SymbolId) :
    List (String × Option Tree) → List Tree → List Tree × List Tree
  | _, [] => ([], [])
  | seen, t :: rest =>
    let step := W.settleHelper used seen t
    let (kept, moved) := settleHelpers used step.seen rest
    (step.kept :: kept, step.moved ++ moved)

/-- Statements with the two forms of default-argument helpers reconciled: moved forms are dropped,
and those in use are supplied anew from the plain ones. -/
def settleStatements (used : List SymbolId) (stats : List Tree) : List Tree :=
  let (kept, moved) := W.settleHelpers used [] stats
  kept ++ moved

/-- A node whose statements, if it has any, are reconciled. The result of a block is one of its
statements, the first. -/
def settleShape (used : List SymbolId) : Shape Tree → Shape Tree
  | .template parents self body => .template parents self (W.settleStatements used body)
  | .packageDef pid stats => .packageDef pid (W.settleStatements used stats)
  | .block stats expr =>
    match W.settleStatements used (expr :: stats) with
    | expr :: stats => .block stats expr
    | [] => .block stats expr
  | s => s

theorem size_movedCopy_le (t : Tree) : (W.movedCopy t).size ≤ t.size := by
  unfold movedCopy
  split
  · rw [Tree.size_mk, Tree.size_mk]
    simp [Shape.written, Shape.subtrees, Shape.children]
  · exact Nat.le_refl _

theorem size_le_of_mem_settleHelper (used : List SymbolId) {n : Nat}
    {seen : List (String × Option Tree)} {t : Tree}
    (hseen : ∀ p ∈ seen, ∀ c ∈ p.2, c.size ≤ n) (ht : t.size ≤ n) :
    (∀ p ∈ (W.settleHelper used seen t).seen, ∀ c ∈ p.2, c.size ≤ n) ∧
      (W.settleHelper used seen t).kept.size ≤ n ∧
      ∀ c ∈ (W.settleHelper used seen t).moved, c.size ≤ n := by
  have hempty : Tree.empty.size ≤ n := by
    have := t.size_pos
    rw [Tree.size_empty]
    omega
  have hcopy : (W.movedCopy t).size ≤ n := Nat.le_trans (W.size_movedCopy_le t) ht
  unfold settleHelper
  dsimp only
  split
  · split
    · split
      · split
        next copy h =>
          obtain ⟨l₁, l₂, rfl, _⟩ := List.lookup_eq_some_iff.mp h
          refine ⟨hseen, hempty, fun c hc => ?_⟩
          exact hseen (Text.dropEnding t.declaredText W.conventions.movedEnding, copy) (by simp) c
            (by simpa using hc)
        next => exact ⟨by simpa using hseen, hempty, by simp⟩
      · exact ⟨hseen, hempty, by simp⟩
    · split
      · exact ⟨hseen, ht, by simpa using hcopy⟩
      · exact ⟨by simpa [hcopy] using hseen, ht, by simp⟩
  · exact ⟨hseen, ht, by simp⟩

theorem size_le_of_mem_settleHelpers (used : List SymbolId) {n : Nat}
    {seen : List (String × Option Tree)} {stats : List Tree}
    (hseen : ∀ p ∈ seen, ∀ c ∈ p.2, c.size ≤ n) (hstats : ∀ t ∈ stats, t.size ≤ n) :
    (∀ c ∈ (W.settleHelpers used seen stats).1, c.size ≤ n) ∧
      ∀ c ∈ (W.settleHelpers used seen stats).2, c.size ≤ n := by
  induction stats generalizing seen with
  | nil => simp [settleHelpers]
  | cons t rest ih =>
    obtain ⟨hs, hk, hm⟩ := W.size_le_of_mem_settleHelper used hseen (hstats t (by simp))
    obtain ⟨hkept, hmoved⟩ := ih hs fun u hu => hstats u (by simp [hu])
    simp only [settleHelpers, List.mem_cons, List.mem_append]
    refine ⟨fun c hc => ?_, fun c hc => ?_⟩
    · rcases hc with rfl | hc
      · exact hk
      · exact hkept c hc
    · rcases hc with hc | hc
      · exact hm c hc
      · exact hmoved c hc

theorem size_le_of_mem_settleStatements (used : List SymbolId) {n : Nat} {stats : List Tree}
    (h : ∀ t ∈ stats, t.size ≤ n) : ∀ c ∈ W.settleStatements used stats, c.size ≤ n := by
  have hnone : ∀ p ∈ ([] : List (String × Option Tree)), ∀ c ∈ p.2, c.size ≤ n := by simp
  obtain ⟨hkept, hmoved⟩ := W.size_le_of_mem_settleHelpers used hnone h
  intro c hc
  rcases List.mem_append.mp hc with hc | hc
  · exact hkept c hc
  · exact hmoved c hc

/-- Reconciling statements leaves nothing below a node that is as large as the node was. -/
theorem size_lt_of_mem_settleShape (used : List SymbolId) {i : Info} {s : Shape Tree} {c : Tree}
    (h : c ∈ (W.settleShape used s).children) : c.size < (⟨i, s⟩ : Tree).size := by
  have below {stats : List Tree} (hsub : ∀ t ∈ stats, t ∈ s.children)
      (hc : c ∈ W.settleStatements used stats) : c.size < (⟨i, s⟩ : Tree).size := by
    have := W.size_le_of_mem_settleStatements used (n := (⟨i, s⟩ : Tree).size - 1)
      (fun t ht => Nat.le_sub_one_of_lt (Tree.size_lt_of_mem_children (hsub t ht))) c hc
    have := (⟨i, s⟩ : Tree).size_pos
    omega
  unfold settleShape at h
  split at h
  next parents self body =>
    simp only [Shape.children, List.mem_append, List.mem_cons] at h
    rcases h with h | rfl | h
    · exact Tree.size_lt_of_mem_children (by simp [Tree.children, Shape.children, h])
    · exact Tree.size_lt_of_mem_children (by simp [Tree.children, Shape.children])
    · exact below (by simp [Shape.children]; grind) h
  next pid stats =>
    simp only [Shape.children, List.mem_cons] at h
    rcases h with rfl | h
    · exact Tree.size_lt_of_mem_children (by simp [Tree.children, Shape.children])
    · exact below (by simp [Shape.children]; grind) h
  next stats expr =>
    have hsub : ∀ t ∈ expr :: stats, t ∈ (Shape.block stats expr).children := by
      simp [Shape.children]
      grind
    split at h
    next e rest heq =>
      exact below hsub (heq ▸ by simp [Shape.children] at h; grind)
    next => exact Tree.size_lt_of_mem_children h
  next => exact Tree.size_lt_of_mem_children h

end Setting

end TreeRepair
