import TreeRepair.Proofs.RepairOrigin
import TreeRepair.Proofs.RoundTrip

namespace TreeRepair

theorem Shape.modifiers?_eq_none {s u : Shape Tree} (outline : s.outline = u.outline)
    (h : s.modifiers? = none) : u.modifiers? = none := by
  have flags := u.flags_outline
  rw [← outline, s.flags_outline, h, Option.map_none] at flags
  exact Option.map_eq_none_iff.mp flags.symm

theorem Shape.caseName?_eq_none {s : Shape Tree} (h : s.modifiers? = none) :
    s.caseName? = none := by
  cases s <;> simp_all [caseName?, modifiers?]

/-- No declaration is met on a walk through the tree. -/
def Tree.DeclaresNothing (t : Tree) : Prop := ∀ n ∈ t.preorder, n.shape.modifiers? = none

theorem Tree.declaresNothing_mk {i : Info} {s : Shape Tree} :
    (⟨i, s⟩ : Tree).DeclaresNothing ↔
      s.modifiers? = none ∧ ∀ c ∈ s.children, c.DeclaresNothing :=
  forall_mem_preorder

/-- The second tree is the first one with argument lists that a checker supplied. Not more than one
is supplied along nested functions, and the flag says that it already was. -/
inductive Supplied (T : SymbolTable) : Bool → Tree → Tree → Prop
  | apply {supplied : Bool} {i : Info} {fn fn' : Tree} {args args' : List Tree} :
    Supplied T supplied fn fn' → args.length = args'.length →
      (∀ p ∈ args.zip args', Supplied T false p.1 p.2) →
        Supplied T supplied ⟨i, .apply fn args⟩ ⟨i, .apply fn' args'⟩
  | node {supplied : Bool} {i : Info} {s u : Shape Tree} : (∀ fn args, s ≠ .apply fn args) →
    s.Alike u → (∀ p ∈ s.children.zip u.children, Supplied T false p.1 p.2) →
      Supplied T supplied ⟨i, s⟩ ⟨i, u⟩
  | insert {j : Info} {e c : Tree} {evidence : List Tree} : e.shape.modifiers? = none →
    Supplied T true e c → T.hasImplicitList j.symbol = true → j.marks = {} →
      (∀ a ∈ evidence, a.DeclaresNothing) → Supplied T false e ⟨j, .apply c evidence⟩

/-- The second tree is the first one with argument lists that are marked as inserted. -/
inductive Wraps : Tree → Tree → Prop
  | node {i : Info} {s u : Shape Tree} : s.Alike u →
    (∀ p ∈ s.children.zip u.children, Wraps p.1 p.2) → Wraps ⟨i, s⟩ ⟨i, u⟩
  | insert {j : Info} {e c : Tree} {evidence : List Tree} : e.shape.modifiers? = none →
    Wraps e c → j.marks = { inserted := true } →
      (∀ a ∈ evidence, a.DeclaresNothing) → Wraps e ⟨j, .apply c evidence⟩

theorem Shape.Alike.forall₂ {s u : Shape Tree} {r : Tree → Tree → Prop} (alike : s.Alike u)
    (h : ∀ p ∈ s.children.zip u.children, r p.1 p.2) : List.Forall₂ r s.children u.children :=
  List.forall₂_iff_zip.mpr ⟨length_children_eq alike.outline_eq, fun hp => h _ hp⟩

theorem exists_mem_zip {l k : List Tree} (h : l.length = k.length) {d : Tree} (hd : d ∈ k) :
    ∃ e ∈ l, (e, d) ∈ l.zip k := by
  obtain ⟨n, hn, rfl⟩ := List.mem_iff_getElem.mp hd
  have hl : n < l.length := h ▸ hn
  have hz : n < (l.zip k).length := by simp [hl, hn]
  exact ⟨l[n], List.getElem_mem hl, List.getElem_zip (h := hz) ▸ List.getElem_mem hz⟩

theorem Shape.Alike.exists_child {s u : Shape Tree} (alike : s.Alike u) {d : Tree}
    (hd : d ∈ u.children) : ∃ e ∈ s.children, (e, d) ∈ s.children.zip u.children :=
  exists_mem_zip (length_children_eq alike.outline_eq) hd

theorem Shape.Alike.exists_other {s u : Shape Tree} (alike : s.Alike u) {d : Tree}
    (hd : d ∈ u.others) : ∃ e ∈ s.others, (e, d) ∈ s.children.zip u.children := by
  have children := length_children_eq alike.outline_eq
  have statements : s.statements.length = u.statements.length := by
    rw [← s.length_statements_outline, alike.outline_eq, u.length_statements_outline]
  obtain ⟨e, he, pair⟩ := exists_mem_zip (l := s.others) (by
    simp only [others_eq_take, List.length_take]
    omega) hd
  refine ⟨e, he, ?_⟩
  rw [others_eq_take, others_eq_take, children, statements, List.zip, ← List.take_zipWith] at pair
  exact List.mem_of_mem_take pair

theorem Wraps.of_forall₂ {i : Info} {s u : Shape Tree} (alike : s.Alike u)
    (h : List.Forall₂ Wraps s.children u.children) : Wraps ⟨i, s⟩ ⟨i, u⟩ :=
  .node alike fun _ hp => List.forall₂_zip h hp

namespace Tree

theorem declaresNothing_mapChildren {i j : Info} {s : Shape Tree} {f : Tree → Tree}
    (h : (⟨i, s⟩ : Tree).DeclaresNothing)
    (below : ∀ c ∈ s.children, c.DeclaresNothing → (f c).DeclaresNothing) :
    (⟨j, s.mapChildren f⟩ : Tree).DeclaresNothing := by
  obtain ⟨root, children⟩ := declaresNothing_mk.mp h
  have plain := Shape.modifiers?_eq_none (s.outline_mapChildren f).symm root
  refine declaresNothing_mk.mpr ⟨plain, fun c hc => ?_⟩
  rw [Shape.children_mapChildren] at hc
  obtain ⟨d, hd, rfl⟩ := List.mem_map.mp hc
  exact below d hd (children d hd)

end Tree

theorem SymbolTable.markInserted_declaresNothing (T : SymbolTable) {t : Tree}
    (h : t.DeclaresNothing) (considered : Bool) : (T.markInserted considered t).DeclaresNothing := by
  induction t using Tree.mem_children_induct generalizing considered with
  | node i s ih =>
    by_cases application : ∃ fn args, s = .apply fn args
    · obtain ⟨fn, args, rfl⟩ := application
      obtain ⟨-, children⟩ := Tree.declaresNothing_mk.mp h
      rw [markInserted]
      refine Tree.declaresNothing_mk.mpr ⟨rfl, fun c hc => ?_⟩
      simp only [Shape.children, List.mem_cons, List.mem_map] at hc ih children
      rcases hc with rfl | ⟨a, ha, rfl⟩
      · exact ih fn (.inl rfl) (children fn (.inl rfl)) _
      · exact ih a (.inr ha) (children a (.inr ha)) _
    · have other : ∀ fn args, s ≠ .apply fn args := fun fn args hs => application ⟨fn, args, hs⟩
      rw [markInserted_other T other]
      exact Tree.declaresNothing_mapChildren h fun c hc nothing => ih c hc nothing false

theorem Info.Bare.unmark {i : Info} (h : i.Bare) (m : Mark) : i.unmark m = i := by
  obtain ⟨symbol, type, pos, marks⟩ := i
  obtain rfl : marks = {} := h.marks
  cases m <;> rfl

namespace Tree

theorem markWritten_eq_apply {w fn : Tree} {i : Info} {args : List Tree}
    (h : w.markWritten = ⟨i, .apply fn args⟩) :
    ∃ j f l, w = ⟨j, .apply f l⟩ ∧ (j.mark .written).unmark .inserted = i ∧ f.markWritten = fn ∧
      l.map markWritten = args := by
  obtain ⟨j, s⟩ := w
  by_cases application : ∃ f l, s = .apply f l
  · obtain ⟨f, l, rfl⟩ := application
    rw [markWritten] at h
    simp only [Tree.mk.injEq, Shape.apply.injEq] at h
    exact ⟨j, f, l, rfl, h⟩
  · have other : ∀ f l, s ≠ .apply f l := fun f l hs => application ⟨f, l, hs⟩
    rw [markWritten_other other] at h
    exact absurd (congrArg Tree.shape h) (Shape.mapChildren_ne_apply _ other fn args)

theorem markWritten_eq_other {w : Tree} {i : Info} {s : Shape Tree}
    (other : ∀ fn args, s ≠ .apply fn args) (h : w.markWritten = ⟨i, s⟩) :
    ∃ j u, w = ⟨j, u⟩ ∧ (j.unmark .inserted).unmark .written = i ∧ u.mapChildren markWritten = s := by
  obtain ⟨j, u⟩ := w
  have plain : ∀ fn args, u ≠ .apply fn args := by
    rintro fn args rfl
    rw [markWritten] at h
    exact other _ _ (congrArg Tree.shape h).symm
  rw [markWritten_other plain] at h
  exact ⟨j, u, rfl, congrArg Tree.info h, congrArg Tree.shape h⟩

theorem outline_markWritten (w : Tree) : w.markWritten.shape.outline = w.shape.outline := by
  obtain ⟨i, s⟩ := w
  by_cases application : ∃ fn args, s = .apply fn args
  · obtain ⟨fn, args, rfl⟩ := application
    rw [markWritten]
    simp [Shape.outline, Function.comp_def]
  · rw [markWritten_other fun fn args hs => application ⟨fn, args, hs⟩]
    exact s.outline_mapChildren _

end Tree

/-- Of what a checker made of a written tree, exactly the lists it supplied get marked. -/
theorem Supplied.wraps {T : SymbolTable} {supplied : Bool} {m c w : Tree}
    (h : Supplied T supplied m c) (written : w.Surface) (marked : w.markWritten = m) :
    Wraps w (T.markInserted supplied c) := by
  induction h generalizing w with
  | @apply supplied i fn fn' args args' _ lengths _ ihFn ihArgs =>
    obtain ⟨j, f, l, rfl, rfl, rfl, rfl⟩ := Tree.markWritten_eq_apply marked
    obtain ⟨node, below⟩ := Tree.surface_mk.mp written
    have bare : j.Bare := node.bare
    have head := ihFn (below f (by simp [Shape.children])) rfl
    have tail : List.Forall₂ (fun a b => Wraps a (T.markInserted false b)) l args' := by
      refine List.forall₂_iff_zip.mpr ⟨by simpa using lengths, fun {a b} hab => ?_⟩
      have surface := below a (by simp [Shape.children, (List.of_mem_zip hab).1])
      refine ihArgs (a.markWritten, b) ?_ surface rfl
      rw [List.zip_map_left]
      exact List.mem_map_of_mem (f := Prod.map Tree.markWritten id) hab
    have info : ((j.mark .written).unmark .inserted).unmark .written = j := by
      obtain ⟨symbol, type, pos, marks⟩ := j
      obtain rfl : marks = {} := bare.marks
      rfl
    have kept : T.markInserted supplied ⟨(j.mark .written).unmark .inserted, .apply fn' args'⟩ =
        ⟨j, .apply (T.markInserted supplied fn') (args'.map (T.markInserted false))⟩ := by
      have stood : ((j.mark .written).unmark .inserted).marks.written = true := rfl
      simp [SymbolTable.markInserted, stood, info]
    rw [kept]
    refine .of_forall₂ ?_ (.cons head (List.forall₂_map_right_iff.mpr tail))
    simp only [Shape.Alike, Shape.mapChildren, Shape.apply.injEq, true_and, List.map_const',
      List.length_map]
    simpa using lengths
  | @node supplied i s u other alike _ ih =>
    obtain ⟨j, v, rfl, rfl, rfl⟩ := Tree.markWritten_eq_other other marked
    obtain ⟨node, below⟩ := Tree.surface_mk.mp written
    have bare : j.Bare := node.bare
    have plain : ∀ fn args, u ≠ .apply fn args := by
      rintro fn args rfl
      have outline := alike.outline_eq
      cases v <;> simp [Shape.outline, Shape.mapChildren] at outline
      exact other _ _ rfl
    rw [SymbolTable.markInserted_other T plain, bare.unmark, bare.unmark]
    rw [Shape.alike_mapChildren_left] at alike
    refine .of_forall₂ (Shape.alike_mapChildren_right.mpr alike) ?_
    rw [Shape.children_mapChildren]
    refine List.forall₂_map_right_iff.mpr (alike.forall₂ fun p hp => ?_)
    refine ih (p.1.markWritten, p.2) ?_ (below p.1 (List.of_mem_zip hp).1) rfl
    rw [Shape.children_mapChildren, List.zip_map_left]
    exact List.mem_map_of_mem (f := Prod.map Tree.markWritten id) hp
  | @insert j e c evidence callable _ implicit unmarked nothing ih =>
    subst marked
    have wrapped := ih written rfl
    have fresh : T.markInserted false ⟨j, .apply c evidence⟩ =
        ⟨j.mark .inserted, .apply (T.markInserted true c) (evidence.map (T.markInserted false))⟩ := by
      obtain ⟨symbol, type, pos, marks⟩ := j
      obtain rfl : marks = {} := unmarked
      simp [SymbolTable.markInserted, show T.hasImplicitList symbol = true from implicit, Info.unmark,
        Marks.remove, Marks.set]
    rw [fresh]
    refine .insert (Shape.modifiers?_eq_none w.outline_markWritten callable) wrapped ?_
      fun a ha => ?_
    · simp [Info.mark, unmarked, Marks.add, Marks.set]
    · obtain ⟨b, hb, rfl⟩ := List.mem_map.mp ha
      exact T.markInserted_declaresNothing (nothing b hb) false

theorem Setting.isDefaultHelper_of_plain (W : Setting) {t : Tree} (h : t.shape.modifiers? = none) :
    W.isDefaultHelper t = false := by
  unfold isDefaultHelper
  split
  next shape _ => simp [shape, Shape.modifiers?] at h
  next => rfl

namespace Repair

variable (R : Repair) (deeper : Tree → Tree)

theorem declaresNothing_identifier (i : Info) (name : Name) :
    (R.identifier i name).DeclaresNothing := by
  have leaf (i : Info) (name : Name) : (⟨i, .ident name⟩ : Tree).DeclaresNothing :=
    Tree.declaresNothing_mk.mpr ⟨rfl, by simp [Shape.children]⟩
  have path (n : Nat) (v : SymbolId) : (R.setting.pathWithin n v).DeclaresNothing := by
    induction n generalizing v with
    | zero => exact leaf _ _
    | succ n ih =>
      simp only [Setting.pathWithin]
      split
      · exact leaf _ _
      · split
        · exact leaf _ _
        next o _ => exact Tree.declaresNothing_mk.mpr ⟨rfl, by simpa [Shape.children] using ih o⟩
  unfold identifier
  split
  next s _ =>
    split
    · exact Tree.declaresNothing_mk.mpr (Tree.forall_mem_preorder.mp (path _ s))
    · exact leaf i name
  next => exact leaf i name

/-- A repair adds no declaration where there is none. -/
theorem treeWith_declaresNothing {t : Tree} (h : t.DeclaresNothing) :
    (R.treeWith deeper t).DeclaresNothing := by
  induction t using R.descent.parts_induct with
  | step t ih =>
    obtain ⟨i, s⟩ := t
    obtain ⟨root, below⟩ := Tree.declaresNothing_mk.mp h
    have settled : R.setting.settleShape R.usedHelpers s = s := by
      refine R.setting.settleShape_of_no_helper R.usedHelpers fun c hc => ?_
      exact R.setting.isDefaultHelper_of_plain (below c hc c c.self_mem_preorder)
    rw [R.treeWith_eq_node]
    cases s with
    | ident name => exact R.declaresNothing_identifier i name
    | select q name =>
      have inner : (R.treeWith deeper q).DeclaresNothing := by
        refine ih q ?_ (below q (by simp [Shape.children]))
        simp [parts, settled, Shape.children]
      exact Tree.declaresNothing_mk.mpr ⟨rfl, by simpa [Shape.children] using inner⟩
    | unapply fn args =>
      have arguments : ∀ a ∈ args, (R.treeWith deeper a).DeclaresNothing := fun a ha =>
        ih a (by simp [parts, ha]) (below a (by simp [Shape.children, ha]))
      have function : ((R.extractor? fn).getD fn).DeclaresNothing := by
        have whole := below fn (by simp [Shape.children])
        cases extractor : R.extractor? fn with
        | none => exact whole
        | some e =>
          intro n hn
          exact whole n (Tree.mem_preorder_trans (R.mem_preorder_of_extractor? extractor) hn)
      have head := ih _ (by simp [parts]) function
      simp only [node]
      split
      next e extractor =>
        rw [extractor] at head
        exact Tree.declaresNothing_mk.mpr ⟨rfl, by simpa [Shape.children] using ⟨head, arguments⟩⟩
      next extractor =>
        rw [extractor] at head
        exact Tree.declaresNothing_mk.mpr ⟨rfl, by simpa [Shape.children] using ⟨head, arguments⟩⟩
    | typeTree w =>
      cases w with
      | some w => exact Tree.declaresNothing_mk.mpr ⟨rfl, by simp [Shape.children]⟩
      | none => simpa only [node, settled, Shape.mapChildren] using h
    | valDef mods name tpt rhs => simp [Shape.modifiers?] at root
    | defDef mods name tparams vparamss tpt rhs => simp [Shape.modifiers?] at root
    | _ =>
      simp only [node, settled]
      refine Tree.declaresNothing_mapChildren h fun c hc nothing => ih c ?_ nothing
      simpa only [descent_parts, parts, settled] using hc

end Repair

namespace Tree

theorem dropInserted_mk {i : Info} {s : Shape Tree} (h : i.marks.inserted = false) :
    (⟨i, s⟩ : Tree).dropInserted = ⟨i, s.mapChildren dropInserted⟩ := by
  cases s <;> simp [dropInserted, Shape.mapChildren, h]

theorem dropInserted_insert {j : Info} {fn : Tree} {args : List Tree} (h : j.marks.inserted = true) :
    (⟨j, .apply fn args⟩ : Tree).dropInserted = fn.dropInserted := by
  simp [dropInserted, h]

end Tree

namespace Wraps

variable {w c : Tree}

theorem flags (h : Wraps w c) :
    c.shape.modifiers? = none ∨
      w.shape.modifiers?.map Modifiers.flags = c.shape.modifiers?.map Modifiers.flags := by
  cases h with
  | @node i s u alike _ =>
    right
    simp only
    rw [← s.flags_outline, alike.outline_eq, u.flags_outline]
  | insert _ _ _ _ => exact .inl rfl

theorem notGenerated (h : Wraps w c) (written : w.Surface) (mods : Modifiers Tree)
    (hm : c.shape.modifiers? = some mods) : mods.has .synthetic = false := by
  rcases h.flags with plain | same
  · simp [plain] at hm
  · rw [hm] at same
    obtain ⟨m, declared, flags⟩ := Option.map_eq_some_iff.mp same
    rw [Modifiers.has, ← flags]
    exact ((written w w.self_mem_preorder).notGenerated m declared).1

theorem caseName? (h : Wraps w c) (plain : w.shape.caseName? = none) : c.shape.caseName? = none := by
  cases h with
  | @node i s u alike _ =>
    rw [← u.caseName?_outline, ← alike.outline_eq, s.caseName?_outline]
    exact plain
  | insert _ _ _ _ => rfl

theorem not_isDefaultHelper (W : Setting) (h : Wraps w c) (written : w.Surface) :
    W.isDefaultHelper c = false := by
  cases h with
  | node _ _ => exact W.isDefaultHelper_of_unresolved (Tree.surface_mk.mp written).1.bare.symbol
  | insert _ _ _ _ => exact W.isDefaultHelper_of_plain rfl

/-- A repair leaves alone what is written and repairs what the checker supplied. -/
theorem treeWith (R : Repair) (deeper : Tree → Tree) (h : Wraps w c) (written : w.Surface) :
    Wraps w (R.treeWith deeper c) := by
  induction h with
  | @node i s u alike pairs ih =>
    obtain ⟨node, below⟩ := Tree.surface_mk.mp written
    have outline := alike.outline_eq
    have notResolved : u.written = none := by
      have resolved := Shape.isSome_written_eq outline
      rw [show s.written = none from node.notResolved] at resolved
      simpa using resolved.symm
    have notExtracted : ∀ fn args, u ≠ .unapply fn args := by
      rintro fn args rfl
      cases s <;> simp [Shape.outline] at outline
      exact node.notExtracted _ _ rfl
    have noHelper (d : Tree) (hd : d ∈ u.children) : R.setting.isDefaultHelper d = false := by
      obtain ⟨e, he, pair⟩ := alike.exists_child hd
      exact (pairs _ pair).not_isDefaultHelper R.setting (below e he)
    rw [R.treeWith_unresolved deeper node.bare.symbol notResolved notExtracted noHelper]
    refine .of_forall₂ (Shape.alike_mapChildren_right.mpr alike) ?_
    rw [Shape.children_mapChildren]
    refine List.forall₂_map_right_iff.mpr (alike.forall₂ fun p hp => ?_)
    exact ih p hp (below p.1 (List.of_mem_zip hp).1)
  | @insert j e c evidence callable _ inserted nothing ih =>
    have repaired : R.treeWith deeper ⟨j, .apply c evidence⟩ =
        ⟨j, .apply (R.treeWith deeper c) (evidence.map (R.treeWith deeper))⟩ := by
      simp [Repair.treeWith, Setting.settleShape, Shape.mapChildren]
    rw [repaired]
    refine .insert callable (ih written) inserted fun a ha => ?_
    obtain ⟨b, hb, rfl⟩ := List.mem_map.mp ha
    exact R.treeWith_declaresNothing deeper (nothing b hb)

theorem repairChecked (W : Setting) (owner : Option SymbolId) (h : Wraps w c)
    (written : w.Surface) : Wraps w (W.repairChecked owner c) := by
  let R := Repair.ofTree W owner c
  change Wraps w (R.treeWithin (R.fields.length + (R.setting.symbols.entries.length + 2)) c)
  exact h.treeWith R _ written

end Wraps

namespace Conventions

variable (C : Conventions)

theorem forall₂_children_cleanShape (u : Shape Tree) :
    List.Forall₂ (fun c d => c = d ∨ ∃ names, c = C.cleanStatement names d)
      (C.cleanShape u).children u.children := by
  have kept (l : List Tree) :
      List.Forall₂ (fun c d => c = d ∨ ∃ names, c = C.cleanStatement names d) l l :=
    List.forall₂_same.mpr fun c _ => .inl rfl
  have cleaned (names : List Name) (l : List Tree) :
      List.Forall₂ (fun c d => c = d ∨ ∃ names, c = C.cleanStatement names d)
        (l.map (C.cleanStatement names)) l :=
    List.forall₂_map_left_iff.mpr (List.forall₂_same.mpr fun c _ => .inr ⟨names, rfl⟩)
  cases u with
  | template parents self body => exact List.rel_append (kept parents) (.cons (.inl rfl) (cleaned _ body))
  | packageDef pid stats => exact .cons (.inl rfl) (cleaned _ stats)
  | block stats expr => exact List.rel_append (cleaned _ stats) (.cons (.inr ⟨_, rfl⟩) .nil)
  | _ => exact kept _

/-- A function that takes cleaned statements back to those of another node takes back the node. -/
theorem mapChildren_cleanShape_of_alike {g : Tree → Tree} {s u : Shape Tree} (alike : s.Alike u)
    (below : ∀ p ∈ s.children.zip u.children,
      g p.2 = p.1 ∧ ∀ names, g (C.cleanStatement names p.2) = p.1) :
    (C.cleanShape u).mapChildren g = s := by
  have shape : s.Alike ((C.cleanShape u).mapChildren g) :=
    Shape.alike_mapChildren_right.mpr (alike.trans (C.cleanShape_alike u).symm)
  refine (shape.eq_of_children ?_).symm
  rw [Shape.children_mapChildren]
  have pairs := List.forall₂_iff_get.mp (alike.forall₂
    (r := fun e d => g d = e ∧ ∀ names, g (C.cleanStatement names d) = e) below)
  have cleaned := List.forall₂_iff_get.mp (C.forall₂_children_cleanShape u)
  refine List.ext_getElem (by simp [pairs.1, cleaned.1]) fun k hs hc => ?_
  rw [List.getElem_map]
  have hu : k < u.children.length := pairs.1 ▸ hs
  obtain ⟨back, names⟩ := pairs.2 k hs hu
  rcases cleaned.2 k (cleaned.1 ▸ hu) hu with same | ⟨l, statement⟩
  · exact (back.symm.trans (congrArg g same.symm))
  · exact ((names l).symm.trans (congrArg g statement.symm))

theorem cleanStatement_wraps (names : List Name) {w c : Tree} (h : Wraps w c) (written : w.Surface) :
    C.cleanStatement names c = c ∧ c.shape.caseName? = none ∨
      C.cleanStatement names c = c.markedCleaned := by
  cases h with
  | @node i s u alike pairs =>
    obtain ⟨node, below⟩ := Tree.surface_mk.mp written
    have members (d : Tree) (hd : d ∈ u.children) : C.withoutGenerated d = d := by
      obtain ⟨e, he, pair⟩ := alike.exists_child hd
      cases pairs _ pair with
      | node alike pairs =>
        refine C.withoutGenerated_of_not_generated fun x hx => ?_
        obtain ⟨y, hy, pair⟩ := alike.exists_child hx
        exact (pairs _ pair).notGenerated ((Tree.surface_mk.mp (below _ he)).2 y hy)
      | insert _ _ _ _ => rfl
    exact C.cleanStatement_of_not_generated names ((Wraps.node alike pairs).notGenerated written)
      members
  | insert _ _ _ _ => exact .inl ⟨rfl, rfl⟩

theorem sweep_cleanTree_wraps {w c : Tree} (h : Wraps w c) (written : w.Surface) :
    (C.cleanTree c).sweep.dropInserted = w ∧
      (C.cleanTree c.markedCleaned).sweep.dropInserted = w := by
  induction h with
  | @node i s u alike pairs ih =>
    obtain ⟨node, below⟩ := Tree.surface_mk.mp written
    have restored : (C.cleanShape u).mapChildren (fun c => (C.cleanTree c).sweep.dropInserted) = s := by
      refine C.mapChildren_cleanShape_of_alike alike fun p hp => ?_
      have surface := below p.1 (List.of_mem_zip hp).1
      refine ⟨(ih p hp surface).1, fun names => ?_⟩
      rcases C.cleanStatement_wraps names (pairs p hp) surface with ⟨same, -⟩ | marked
      · rw [same, (ih p hp surface).1]
      · rw [marked, (ih p hp surface).2]
    have bare : i.Bare := node.bare
    have inserted : i.marks.inserted = false := by rw [bare.marks]
    have remarked : (i.mark .cleaned).unmark .cleaned = i := by
      obtain ⟨symbol, type, pos, marks⟩ := i
      obtain rfl : marks = {} := bare.marks
      rfl
    simp only [Tree.markedCleaned, cleanTree_mk, sweep_mk, bare.unmark, remarked,
      Tree.dropInserted_mk inserted, Shape.mapChildren_mapChildren, restored, and_self]
  | @insert j e c evidence _ _ inserted _ ih =>
    obtain ⟨symbol, type, pos, marks⟩ := j
    obtain rfl : marks = { inserted := true } := inserted
    have head := (ih written).1
    simp only [Tree.markedCleaned, cleanTree_mk, sweep_mk, cleanShape, Shape.mapChildren]
    rw [Tree.dropInserted_insert rfl, Tree.dropInserted_insert rfl]
    exact ⟨head, head⟩

theorem misplaced_declaresNothing {t : Tree} (h : t.DeclaresNothing) : C.misplaced t = [] := by
  induction t using Tree.mem_children_induct with
  | node i s ih =>
    obtain ⟨root, below⟩ := Tree.declaresNothing_mk.mp h
    rw [misplaced_mk, Shape.caseName?_eq_none root]
    simp only [Option.map_none, Option.toList_none, ite_self, List.nil_append]
    refine List.flatMap_eq_nil_iff.mpr fun c hc => ?_
    rcases C.mem_children_cleanShape hc with ⟨hc, -⟩ | ⟨names, d, hd, rfl⟩
    · exact ih c hc (below c hc)
    · have statement := (below d hd) d d.self_mem_preorder
      have kept : C.cleanStatement names d = d := by
        obtain ⟨j, v⟩ := d
        cases v <;> first | rfl | simp [Shape.modifiers?] at statement
      rw [kept, ih d hd (below d hd)]

theorem misplaced_wraps {w c : Tree} (h : Wraps w c) (written : w.Surface) :
    (c.shape.caseName? = none → C.misplaced c = []) ∧ C.misplaced c.markedCleaned = [] := by
  induction h with
  | @node i s u alike pairs ih =>
    obtain ⟨node, below⟩ := Tree.surface_mk.mp written
    have none : (C.cleanShape u).children.flatMap C.misplaced = [] := by
      refine List.flatMap_eq_nil_iff.mpr fun c hc => ?_
      rcases C.mem_children_cleanShape hc with ⟨-, other⟩ | ⟨names, d, hd, rfl⟩
      · obtain ⟨e, he, pair⟩ := alike.exists_other other
        have surface := below e (List.of_mem_zip pair).1
        exact (ih _ pair surface).1 ((pairs _ pair).caseName? (node.casesPlaced e he))
      · obtain ⟨e, he, pair⟩ := alike.exists_child hd
        have surface := below e he
        rcases C.cleanStatement_wraps names (pairs _ pair) surface with ⟨same, plain⟩ | marked
        · rw [same, (ih _ pair surface).1 plain]
        · rw [marked, (ih _ pair surface).2]
    refine ⟨fun plain => ?_, ?_⟩
    · rw [misplaced_mk, none, show u.caseName? = Option.none from plain]
      simp
    · rw [Tree.markedCleaned, misplaced_mk, none]
      rfl
  | @insert j e c evidence callable wraps inserted nothing ih =>
    have head : C.misplaced c = [] :=
      (ih written).1 (wraps.caseName? (Shape.caseName?_eq_none callable))
    have arguments : evidence.flatMap C.misplaced = [] :=
      List.flatMap_eq_nil_iff.mpr fun a ha => C.misplaced_declaresNothing (nothing a ha)
    have none (i : Info) : C.misplaced ⟨i, .apply c evidence⟩ = [] := by
      rw [misplaced_mk]
      simp [cleanShape, Shape.children, Shape.caseName?, head, arguments]
    exact ⟨fun _ => none j, none _⟩

end Conventions

namespace Setting

variable (W : Setting)

theorem detach_cleanTree_wraps (symbols : List SymbolId) {w c : Tree} (h : Wraps w c)
    (written : w.Surface) :
    (W.detach symbols (W.conventions.cleanTree c)).dropInserted = w ∧
      (W.detach symbols (W.conventions.cleanTree c.markedCleaned)).dropInserted = w := by
  have swept {w c : Tree} (h : Wraps w c) (written : w.Surface) :
      (W.detach symbols (W.conventions.cleanTree c.markedCleaned)).dropInserted = w := by
    obtain ⟨i, s⟩ := c
    have cleaned := (W.conventions.sweep_cleanTree_wraps h written).2
    rw [Tree.markedCleaned, Conventions.cleanTree_mk] at cleaned ⊢
    rw [detach, if_pos (by rfl), cleaned]
  refine ⟨?_, swept h written⟩
  induction h with
  | @node i s u alike pairs ih =>
    obtain ⟨node, below⟩ := Tree.surface_mk.mp written
    have restored : (W.conventions.cleanShape u).mapChildren
        (fun c => (W.detach symbols (W.conventions.cleanTree c)).dropInserted) = s := by
      refine W.conventions.mapChildren_cleanShape_of_alike alike fun p hp => ?_
      have surface := below p.1 (List.of_mem_zip hp).1
      refine ⟨ih p hp surface, fun names => ?_⟩
      rcases W.conventions.cleanStatement_wraps names (pairs p hp) surface with ⟨same, -⟩ | marked
      · rw [same, ih p hp surface]
      · rw [marked, swept (pairs p hp) surface]
    have bare : i.Bare := node.bare
    have inserted : i.marks.inserted = false := by rw [bare.marks]
    have current (v : Shape Tree) : W.outdatedType? symbols i v = none := by
      simp [outdatedType?, bare.type]
    have detached : W.detach symbols (W.conventions.cleanTree ⟨i, u⟩) =
        ⟨i, (W.conventions.cleanShape u).mapChildren
          fun c => W.detach symbols (W.conventions.cleanTree c)⟩ := by
      rw [Conventions.cleanTree_mk, detach]
      simp [bare.marks, bare.symbol, current, refersTo, Shape.mapChildren_mapChildren]
    rw [detached, Tree.dropInserted_mk inserted, Shape.mapChildren_mapChildren, restored]
  | @insert j e c evidence _ _ inserted _ ih =>
    have current : W.outdatedType? symbols j
        ((W.conventions.cleanShape (.apply c evidence)).mapChildren W.conventions.cleanTree) =
          none := rfl
    rw [Conventions.cleanTree_mk, detach, if_neg (by simp [inserted])]
    rw [current]
    simp only [Shape.pmapChildren_eq, Conventions.cleanShape, Shape.mapChildren]
    rw [Tree.dropInserted_insert (by split <;> simp [inserted, Info.detached])]
    exact ih written

theorem restoreCaseClasses_wraps {w c : Tree} (h : Wraps w c) (written : w.Surface) :
    ∃ u, W.restoreCaseClasses c = .ok (u, []) ∧ u.dropInserted = w := by
  have cleaned : W.conventions.misplaced
        (W.conventions.cleanStatement (caseClassNames [c]) c) = [] ∧
      ∀ symbols, (W.detach symbols (W.conventions.cleanTree
        (W.conventions.cleanStatement (caseClassNames [c]) c))).dropInserted = w := by
    have misplaced := W.conventions.misplaced_wraps h written
    have detached (symbols : List SymbolId) := W.detach_cleanTree_wraps symbols h written
    rcases W.conventions.cleanStatement_wraps (caseClassNames [c]) h written with
      ⟨same, plain⟩ | marked
    · rw [same]
      exact ⟨misplaced.1 plain, fun symbols => (detached symbols).1⟩
    · rw [marked]
      exact ⟨misplaced.2, fun symbols => (detached symbols).2⟩
  unfold restoreCaseClasses
  simp only [cleaned.1]
  cases W.conventions.strict <;> exact ⟨_, rfl, cleaned.2 _⟩

end Setting

def sortCall (marks : Marks) (arg : Tree) : Tree :=
  ⟨{ marks }, .apply (.bare (.ident (.term "sort"))) [arg]⟩

def withOrder (call : Tree) : Tree :=
  ⟨{ symbol := some ⟨"sort"⟩ }, .apply call [.bare (.ident (.term "order"))]⟩

def sortTwice : Tree := sortCall {} (sortCall {} (.bare (.ident (.term "xs"))))

/-- Both calls of `sort` with the order that the checker found for them. -/
def sortTwiceChecked : Tree :=
  withOrder (sortCall { written := true }
    (withOrder (sortCall { written := true } (.bare (.ident (.term "xs"))))))

def sortSession : Session where
  setting.symbols.entries :=
    [(⟨"sort"⟩, { name := .term "sort", kind := .method, paramLists := [[⟨"xs"⟩], [⟨"order"⟩]] }),
     (⟨"order"⟩, { name := .term "order", kind := .term, flags := .single .implicit })]
  setting.builtins.rootClass := ⟨"root"⟩
  setting.builtins.nothingType := .unspecified
  setting.builtins.anyType := .unspecified
  setting.builtins.anyRefType := .unspecified
  checker.check := fun _ _ => .ok sortTwiceChecked
  checker.reset := fun _ u => u
  checker.resetAll := fun _ u => u

theorem sortTwice_surface : sortTwice.Surface := by
  have bare : ({} : Info).Bare := ⟨rfl, rfl, rfl⟩
  simp [sortTwice, sortCall, Tree.bare, Tree.surface_mk, Tree.surfaceNode_iff, Shape.children,
    Shape.others, Shape.written, Shape.modifiers?, Shape.caseName?, bare]

theorem sortTwice_supplied :
    Supplied sortSession.setting.symbols false sortTwice.markWritten sortTwiceChecked := by
  have leaf (supplied : Bool) (name : Name) : Supplied sortSession.setting.symbols supplied
      (.bare (.ident name)) (.bare (.ident name)) :=
    .node (by simp) rfl (by simp [Shape.children])
  have call {arg arg' : Tree} (h : Supplied sortSession.setting.symbols false arg arg') :
      Supplied sortSession.setting.symbols false (sortCall { written := true } arg)
        (withOrder (sortCall { written := true } arg')) := by
    refine .insert rfl (.apply (leaf true _) rfl (by simpa using h)) (by decide) rfl fun a ha => ?_
    obtain rfl := List.mem_singleton.mp ha
    exact Tree.declaresNothing_mk.mpr ⟨rfl, by simp [Shape.children]⟩
  have marked : sortTwice.markWritten = sortCall { written := true }
      (sortCall { written := true } (.bare (.ident (.term "xs")))) := by
    simp [sortTwice, sortCall, Tree.bare, Tree.markWritten, Shape.mapChildren, Info.mark,
      Info.unmark, Marks.add, Marks.remove, Marks.set]
  rw [marked]
  exact call (call (leaf false _))

end TreeRepair
