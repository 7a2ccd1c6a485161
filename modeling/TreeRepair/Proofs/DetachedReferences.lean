import TreeRepair.Proofs.MisplacedCases
import TreeRepair.Proofs.TypeSyntaxPasses

namespace TreeRepair

namespace Conventions

variable (C : Conventions)

/-- A way that leads into no case class, case object or companion of a case class. -/
def Outside (t : Tree) (p : List Nat) : Prop :=
  ∀ o ∈ C.occurrences t, o.path <+: p → o.place.treats o.node = false

end Conventions

namespace Setting

variable (W : Setting)

/-- The symbol of a declaration and, for a module, that of its class. -/
def ownSymbols (n : Tree) : List SymbolId :=
  match n.shape with
  | .moduleDef _ _ _ =>
    n.symbol.toList ++ (n.symbol.bind fun s => (W.symbols.get s).moduleClass).toList
  | _ => n.symbol.toList

theorem mem_ownSymbols {n : Tree} {x : SymbolId} (h : x ∈ W.ownSymbols n) :
    n.symbol = some x ∨ ∃ s, n.symbol = some s ∧ (W.symbols.get s).moduleClass = some x := by
  unfold ownSymbols at h
  split at h
  · rcases List.mem_append.mp h with own | linked
    · exact .inl (Option.mem_toList.mp own)
    · exact .inr (Option.bind_eq_some_iff.mp (Option.mem_toList.mp linked))
  · exact .inl (Option.mem_toList.mp h)

/-- A symbol of a case class, a case object or a companion, or that of the class of one of the
latter. -/
def Collected (t : Tree) (s : SymbolId) : Prop :=
  ∃ o ∈ W.conventions.occurrences t, o.place.treats o.node = true ∧ s ∈ W.ownSymbols o.node

/-- The symbols that some nodes, given with their places, contribute. -/
def collectedAmong (l : List (Place × Tree)) : List SymbolId :=
  l.flatMap fun q => if q.1.treats q.2 then W.ownSymbols q.2 else []

theorem collectedAmong_append (l k : List (Place × Tree)) :
    W.collectedAmong (l ++ k) = W.collectedAmong l ++ W.collectedAmong k := List.flatMap_append

theorem collectedAmong_untreated {pl : Place} (h : ∀ n, pl.treats n = false) (l : List Tree) :
    W.collectedAmong (l.map (Prod.mk pl)) = [] := by
  simp [collectedAmong, h]

theorem collectedAmong_statement (stats : List Tree) (ofCleaned : Bool) :
    W.collectedAmong (stats.map (Prod.mk (.statement stats ofCleaned))) = W.caseSymbols stats := by
  rw [collectedAmong, List.flatMap_map, caseSymbols]
  refine List.flatMap_congr fun n _ => ?_
  obtain ⟨i, shape⟩ := n
  cases shape <;> rfl

theorem caseSymbols_filter (stats : List Tree) :
    W.caseSymbols (stats.filter fun t => !W.conventions.isGeneratedMember t) =
      W.caseSymbols stats := by
  rw [caseSymbols, caseSymbols, W.conventions.caseClassNames_filter]
  generalize caseClassNames stats = names
  induction stats with
  | nil => rfl
  | cons n stats ih =>
    rw [List.filter_cons, List.flatMap_cons, ← ih]
    cases generated : W.conventions.isGeneratedMember n with
    | false => rfl
    | true =>
      unfold Conventions.isGeneratedMember at generated
      split at generated
      next h => simp [h]
      next => simp at generated

/-- The symbols that are collected at a node are those of the declarations right below it. -/
theorem mem_caseSymbols_standing {pl : Place} {n : Tree} {s : SymbolId} :
    s ∈ (W.conventions.standing pl n).flatMap (fun r => W.caseSymbols r.shape.statements) ↔
      s ∈ W.collectedAmong (W.conventions.placed pl n) := by
  have others := W.collectedAmong_untreated Place.treats_other
  cases removed : W.conventions.removes pl n with
  | true =>
    rw [Conventions.placed, if_pos removed, W.collectedAmong_untreated Place.treats_removed]
    rcases W.conventions.standing_of_removes removed with none | empty
    · rw [none]
      rfl
    · rw [empty]
      rfl
  | false =>
    rw [Conventions.placed, if_neg (by simp [removed])]
    obtain ⟨i, shape⟩ := n
    cases shape with
    | template parents self body =>
      rw [W.conventions.standing_template removed, collectedAmong_append, others,
        collectedAmong_statement]
      cases pl.isBody <;> simp [Shape.statements, caseSymbols_filter]
    | packageDef pid stats =>
      rw [W.conventions.standing_of_untreated removed (by cases pl <;> rfl) (by simp),
        collectedAmong_append, others, collectedAmong_statement]
      simp [Shape.statements]
    | block stats expr =>
      have reordered : s ∈ W.collectedAmong
          ((stats ++ [expr]).map (Prod.mk (.statement (expr :: stats) false))) ↔
            s ∈ W.caseSymbols (expr :: stats) := by
        rw [← W.collectedAmong_statement _ false]
        simp [collectedAmong, or_comm]
      rw [W.conventions.standing_of_untreated removed (by cases pl <;> rfl) (by simp), reordered]
      simp [Shape.statements]
    | classDef mods name tparams impl =>
      rw [collectedAmong_append, others]
      cases treated : pl.treats ⟨i, .classDef mods name tparams impl⟩ with
      | true =>
        rw [W.conventions.standing_of_treats treated,
          (W.conventions.strips_of_not_removes removed).2.1]
        rfl
      | false =>
        rw [W.conventions.standing_of_untreated removed treated (by simp)]
        rfl
    | moduleDef mods name impl =>
      rw [collectedAmong_append, others]
      cases treated : pl.treats ⟨i, .moduleDef mods name impl⟩ with
      | true =>
        rw [W.conventions.standing_of_treats treated,
          (W.conventions.strips_of_not_removes removed).2.1]
        rfl
      | false =>
        rw [W.conventions.standing_of_untreated removed treated (by simp)]
        rfl
    | _ =>
      rw [W.conventions.standing_of_untreated removed (by cases pl <;> rfl) (by simp), others]
      rfl

theorem mem_collectedAmong {l : List (Place × Tree)} {s : SymbolId} :
    s ∈ W.collectedAmong l ↔ ∃ q ∈ l, q.1.treats q.2 = true ∧ s ∈ W.ownSymbols q.2 := by
  simp only [collectedAmong, List.mem_flatMap]
  refine exists_congr fun q => and_congr_right fun _ => ?_
  cases q.1.treats q.2 <;> simp

theorem cleanedSymbols_mk (i : Info) (s : Shape Tree) :
    W.cleanedSymbols ⟨i, s⟩ =
      W.caseSymbols s.statements ++
        (W.conventions.cleanShape s).children.flatMap W.cleanedSymbols := by
  rw [cleanedSymbols, List.flatMap_subtype, List.unattach_attach]
  exact fun _ _ => rfl

/-- What is collected along the cleaning are the symbols of all case classes, case objects and
companions that stood in the tree. -/
theorem mem_symbols_iff_collected {t : Tree} {s : SymbolId} :
    s ∈ W.caseSymbols [t] ++
        W.cleanedSymbols (W.conventions.cleanStatement (caseClassNames [t]) t) ↔
      W.Collected t s := by
  have root : s ∈ W.caseSymbols [t] ↔
      (Place.statement [t] false).treats t = true ∧ s ∈ W.ownSymbols t := by
    rw [← W.collectedAmong_statement [t] false, mem_collectedAmong]
    simp
  have collected := W.conventions.flatMap_standing W.cleanedSymbols
    (fun r => W.caseSymbols r.shape.statements) (fun i s => W.cleanedSymbols_mk i s)
    ⟨[], .statement [t] false, t⟩
  have standing : W.conventions.standing (.statement [t] false) t =
    [W.conventions.cleanStatement (caseClassNames [t]) t] := rfl
  rw [standing, List.flatMap_singleton] at collected
  rw [List.mem_append, root, collected, List.mem_flatMap]
  simp only [W.mem_caseSymbols_standing, ← W.conventions.map_below, mem_collectedAmong]
  constructor
  · rintro (⟨treated, own⟩ | ⟨o, ho, q, hq, treated, own⟩)
    · exact ⟨_, W.conventions.mem_occurrencesFrom.mpr (.inl rfl), treated, own⟩
    · obtain ⟨b, hb, rfl⟩ := List.mem_map.mp hq
      exact ⟨b, W.conventions.mem_occurrencesFrom_iff_below.mpr (.inr ⟨o, ho, hb⟩), treated, own⟩
  · rintro ⟨b, hb, treated, own⟩
    rcases W.conventions.mem_occurrencesFrom_iff_below.mp hb with rfl | ⟨o, ho, hb⟩
    · exact .inl ⟨treated, own⟩
    · exact .inr ⟨o, ho, _, List.mem_map_of_mem hb, treated, own⟩

end Setting

/-- A place inside of no declaration that loses its members, and of nothing that is removed. -/
def Place.isPlain : Place → Bool
  | .statement _ ofCleaned => !ofCleaned
  | .other => true
  | _ => false

namespace Conventions

variable (C : Conventions)

theorem exists_standing {pl : Place} (plain : pl.isPlain = true) (n : Tree) :
    ∃ d, C.standing pl n = [d] := by
  cases pl with
  | statement stats ofCleaned =>
    obtain rfl : ofCleaned = false := by simpa [Place.isPlain] using plain
    exact ⟨_, rfl⟩
  | other => exact ⟨n, rfl⟩
  | _ => simp [Place.isPlain] at plain

theorem standing_plain {pl : Place} {n : Tree} (plain : pl.isPlain = true)
    (untreated : pl.treats n = false) : C.standing pl n = [n] := by
  cases pl with
  | statement stats ofCleaned =>
    obtain rfl : ofCleaned = false := by simpa [Place.isPlain] using plain
    rw [standing, C.cleanStatement_of_not_treats untreated]
    rfl
  | other => rfl
  | _ => simp [Place.isPlain] at plain

theorem removes_plain {pl : Place} {n : Tree} (plain : pl.isPlain = true)
    (untreated : pl.treats n = false) : C.removes pl n = false := by
  cases pl with
  | statement stats ofCleaned =>
    obtain rfl : ofCleaned = false := by simpa [Place.isPlain] using plain
    obtain ⟨i, s⟩ := n
    cases s <;> simp_all [removes, strips, Place.drops, Place.treats]
  | other => rfl
  | _ => simp [Place.isPlain] at plain

theorem isPlain_of_mem_placed {pl : Place} {n : Tree} (plain : pl.isPlain = true)
    (untreated : pl.treats n = false) {q : Place × Tree} (hq : q ∈ C.placed pl n) :
    q.1.isPlain = true := by
  have body : pl.isBody = false := by cases pl <;> simp_all [Place.isPlain, Place.isBody]
  rw [placed, if_neg (by simp [C.removes_plain plain untreated])] at hq
  obtain ⟨i, s⟩ := n
  cases s <;> simp [untreated, body] at hq <;> grind [Place.isPlain]

theorem getElem?_standings {l : List (Place × Tree)} (plain : ∀ q ∈ l, q.1.isPlain = true)
    (k : Nat) : (C.standings l)[k]? = l[k]?.bind fun q => (C.standing q.1 q.2).head? := by
  induction l generalizing k with
  | nil => rfl
  | cons q l ih =>
    obtain ⟨d, hd⟩ := C.exists_standing (plain q (List.mem_cons_self ..)) q.2
    have rest := ih fun q hq => plain q (List.mem_cons_of_mem _ hq)
    rw [standings, List.flatMap_cons, hd, List.singleton_append, ← standings]
    cases k with
    | zero => simp [hd]
    | succ k => simpa using rest k

end Conventions

namespace Setting

variable (W : Setting)

/-- What the cleaning and the removal of references make of a tree. -/
def restored (symbols : List SymbolId) (t : Tree) : Tree :=
  W.detach symbols (W.conventions.cleanTree t)

variable {W} {symbols : List SymbolId}

theorem outdatedType?_mapChildren (i : Info) (s : Shape Tree) (f : Tree → Tree) :
    W.outdatedType? symbols i ((W.conventions.cleanShape s).mapChildren f) =
      W.outdatedType? symbols i s := by
  cases s <;> rfl

theorem restored_outdated {n : Tree} (unmarked : n.info.marks.cleaned = false) {u : Ty}
    (outdated : W.outdatedType? symbols n.info n.shape = some u) :
    W.restored symbols n = W.writtenType u := by
  obtain ⟨i, s⟩ := n
  rw [restored, Conventions.cleanTree_mk, detach, if_neg (by simpa using unmarked),
    outdatedType?_mapChildren, outdated]

theorem restored_current {n : Tree} (unmarked : n.info.marks.cleaned = false)
    (current : W.outdatedType? symbols n.info n.shape = none) :
    W.restored symbols n =
      ⟨if W.refersTo symbols n.info.symbol then n.info.detached else n.info,
        (W.conventions.cleanShape n.shape).mapChildren (W.restored symbols)⟩ := by
  obtain ⟨i, s⟩ := n
  rw [restored, Conventions.cleanTree_mk, detach, if_neg (by simpa using unmarked),
    outdatedType?_mapChildren, current]
  simp only [Shape.pmapChildren_eq, Shape.mapChildren_mapChildren]
  rfl

theorem outdatedType?_eq_some {i : Info} {s : Shape Tree} {u : Ty}
    (h : W.outdatedType? symbols i s = some u) : (∃ w, s = .typeTree w) ∧ i.type = some u := by
  unfold outdatedType? at h
  split at h
  next w v type =>
    split at h
    · exact ⟨⟨w, rfl⟩, h ▸ type⟩
    · simp at h
  next => simp at h

/-- The children of a node that stays are what is made of those that are left of it. -/
theorem children_restored {o : Occurrence} (plain : o.place.isPlain = true)
    (untreated : o.place.treats o.node = false) (unmarked : o.node.info.marks.cleaned = false)
    (current : W.outdatedType? symbols o.node.info o.node.shape = none) :
    (W.restored symbols o.node).children =
      (W.conventions.standings (W.conventions.placed o.place o.node)).map (W.restored symbols) := by
  have left := W.conventions.children_standing o.place o.node
  rw [W.conventions.standing_plain plain untreated, List.flatMap_singleton] at left
  rw [restored_current unmarked current, ← left]
  exact Shape.children_mapChildren ..

theorem getElem?_children_restored {o : Occurrence} (plain : o.place.isPlain = true)
    (untreated : o.place.treats o.node = false) (unmarked : o.node.info.marks.cleaned = false)
    (current : W.outdatedType? symbols o.node.info o.node.shape = none) (k : Nat) :
    (W.restored symbols o.node).children[k]? =
      (W.conventions.placed o.place o.node)[k]?.bind fun q =>
        (W.conventions.standing q.1 q.2).head?.map (W.restored symbols) := by
  rw [children_restored plain untreated unmarked current, List.getElem?_map,
    W.conventions.getElem?_standings fun q hq =>
      W.conventions.isPlain_of_mem_placed plain untreated hq, Option.map_bind]
  rfl

theorem symbol_of_mem_writtenType {u : Ty} {n : Tree} (h : n ∈ (W.writtenType u).preorder) :
    n.info.symbol = none :=
  (typeSyntax_writtenWithin (3 * W.symbols.bound) u u n h).symbol

theorem not_refersTo_restored {n : Tree} (unmarked : n.info.marks.cleaned = false) :
    W.refersTo symbols (W.restored symbols n).info.symbol = false := by
  cases outdated : W.outdatedType? symbols n.info n.shape with
  | some u =>
    rw [restored_outdated unmarked outdated, symbol_of_mem_writtenType (Tree.self_mem_preorder _)]
    rfl
  | none =>
    rw [restored_current unmarked outdated]
    dsimp only
    split
    · rfl
    next current => simpa using current

/-- Outside of what is treated, no symbol is left that refers to one of those given. -/
theorem not_refersTo_of_outside {o : Occurrence} (plain : o.place.isPlain = true)
    (unmarked : ∀ n ∈ o.node.preorder, n.info.marks.cleaned = false) {d n : Tree} {p : List Nat}
    (left : d ∈ W.conventions.standing o.place o.node)
    (found : (W.restored symbols d).at? p = some n)
    (outside : ∀ b ∈ W.conventions.occurrencesFrom o, b.path <+: o.path ++ p →
      b.place.treats b.node = false) : W.refersTo symbols n.info.symbol = false := by
  induction p generalizing o d with
  | nil =>
    have untreated := outside o (W.conventions.mem_occurrencesFrom.mpr (.inl rfl))
      (List.prefix_append ..)
    rw [W.conventions.standing_plain plain untreated, List.mem_singleton] at left
    rw [← Option.some.inj found, left]
    exact not_refersTo_restored (unmarked o.node o.node.self_mem_preorder)
  | cons k p ih =>
    have untreated := outside o (W.conventions.mem_occurrencesFrom.mpr (.inl rfl))
      (List.prefix_append ..)
    rw [W.conventions.standing_plain plain untreated, List.mem_singleton] at left
    subst left
    have here := unmarked o.node o.node.self_mem_preorder
    cases outdated : W.outdatedType? symbols o.node.info o.node.shape with
    | some u =>
      rw [restored_outdated here outdated] at found
      rw [symbol_of_mem_writtenType (Tree.mem_preorder_of_at? found)]
      rfl
    | none =>
      rw [Tree.at?, getElem?_children_restored plain untreated here outdated] at found
      obtain ⟨c, hc, found⟩ := Option.bind_eq_some_iff.mp found
      obtain ⟨q, hq, hc⟩ := Option.bind_eq_some_iff.mp hc
      obtain ⟨d, hd, rfl⟩ := Option.map_eq_some_iff.mp hc
      have below : (⟨o.path ++ [k], q.1, q.2⟩ : Occurrence) ∈ W.conventions.below o :=
        W.conventions.mem_below.mpr ⟨k, q, hq, rfl⟩
      refine ih (o := ⟨o.path ++ [k], q.1, q.2⟩)
        (W.conventions.isPlain_of_mem_placed plain untreated (List.mem_of_getElem? hq)) ?_
        (List.mem_of_mem_head? hd) found ?_
      · intro m hm
        exact unmarked m
          (Tree.mem_preorder_of_mem_children (W.conventions.node_mem_children below) hm)
      · intro b hb onTheWay
        refine outside b (W.conventions.mem_occurrencesFrom.mpr (.inr ⟨_, below, hb⟩)) ?_
        simpa using onTheWay

/-- Outside of what is treated, every node of a tree is found again where it was. -/
theorem at?_of_outside {r : Tree} {o b : Occurrence} (plain : o.place.isPlain = true)
    (unmarked : ∀ n ∈ o.node.preorder, n.info.marks.cleaned = false) {d : Tree}
    (left : d ∈ W.conventions.standing o.place o.node)
    (here : r.at? o.path = some (W.restored symbols d))
    (hb : b ∈ W.conventions.occurrencesFrom o)
    (outside : ∀ a ∈ W.conventions.occurrencesFrom o, a.path <+: b.path →
      a.place.treats a.node = false) : r.at? b.path = some (W.restored symbols b.node) := by
  induction o using W.conventions.occurrence_induct generalizing d with
  | step o ih =>
    have untreated := outside o (W.conventions.mem_occurrencesFrom.mpr (.inl rfl))
      (W.conventions.path_prefix_of_mem hb)
    rw [W.conventions.standing_plain plain untreated, List.mem_singleton] at left
    subst left
    rcases W.conventions.mem_occurrencesFrom.mp hb with rfl | ⟨c, hc, hb⟩
    · exact here
    · have child := W.conventions.node_mem_children hc
      obtain ⟨k, q, hq, rfl⟩ := W.conventions.mem_below.mp hc
      have current : W.outdatedType? symbols o.node.info o.node.shape = none := by
        by_contra outdated
        obtain ⟨u, outdated⟩ := Option.ne_none_iff_exists'.mp outdated
        obtain ⟨⟨w, shape⟩, -⟩ := outdatedType?_eq_some outdated
        simp [Tree.children, shape, Shape.children] at child
      have plainly := W.conventions.isPlain_of_mem_placed plain untreated (List.mem_of_getElem? hq)
      obtain ⟨d, hd⟩ := W.conventions.exists_standing plainly q.2
      refine ih _ hc plainly ?_ (d := d) ?_ ?_ hb ?_
      · intro n hn
        exact unmarked n (Tree.mem_preorder_of_mem_children child hn)
      · simp [hd]
      · have same := getElem?_children_restored plain untreated
          (unmarked o.node o.node.self_mem_preorder) current k
        rw [hq, Option.bind_some, hd] at same
        rw [Tree.at?_append, here, Option.bind_some, Tree.at?, same]
        rfl
      · intro a ha onTheWay
        exact outside a (W.conventions.mem_occurrencesFrom.mpr (.inr ⟨_, hc, ha⟩)) onTheWay

variable (W) in
/-- The symbol by which a node refers to a declaration. A resolved type without a symbol refers to
what the type denotes. -/
def referent (n : Tree) : Option SymbolId :=
  match n.shape, n.info.type with
  | .typeTree _, some u => n.info.symbol.or (W.symbols.denoted u)
  | _, _ => n.info.symbol

theorem current_of_not_refersTo {n : Tree} (h : W.refersTo symbols (W.referent n) = false) :
    W.outdatedType? symbols n.info n.shape = none ∧ W.refersTo symbols n.info.symbol = false := by
  obtain ⟨i, s⟩ := n
  cases s with
  | typeTree w =>
    cases type : i.type with
    | none =>
      simp only [referent, type] at h
      exact ⟨by simp [outdatedType?, type], h⟩
    | some u =>
      simp only [referent, type] at h
      refine ⟨by simp [outdatedType?, type, h], ?_⟩
      cases symbol : i.symbol with
      | none => rfl
      | some s => simpa [symbol] using h
  | _ => exact ⟨rfl, h⟩

/-- A node that does not refer to one of the given symbols keeps all but its children. -/
theorem restored_of_not_refersTo {n : Tree} (unmarked : n.info.marks.cleaned = false)
    (h : W.refersTo symbols (W.referent n) = false) :
    (W.restored symbols n).info = n.info ∧ (W.restored symbols n).shape.Alike n.shape := by
  obtain ⟨current, symbol⟩ := current_of_not_refersTo h
  rw [restored_current unmarked current, symbol]
  exact ⟨rfl, Shape.alike_mapChildren_left.mpr (W.conventions.cleanShape_alike n.shape)⟩

theorem refersTo_eq_false {s : Option SymbolId} :
    W.refersTo symbols s = false ↔ ∀ x, s = some x → ∀ d ∈ W.symbols.owners x, d ∉ symbols := by
  cases s <;> simp [refersTo]

/-- A run that succeeds has cleaned the tree and removed the references to what it collected. -/
theorem restoreCaseClasses_eq_ok {t r : Tree} {ms : List Misplaced}
    (h : W.restoreCaseClasses t = .ok (r, ms)) :
    r = W.restored (W.caseSymbols [t] ++
        W.cleanedSymbols (W.conventions.cleanStatement (caseClassNames [t]) t))
      (W.conventions.cleanStatement (caseClassNames [t]) t) := by
  unfold restoreCaseClasses at h
  dsimp only at h
  split at h <;> cases h <;> rfl

end Setting

/-- Nothing outside of case classes, case objects and companions refers to them any more, and what
did not refer to them is as it was. -/
theorem references_detached (W : Setting) {t r : Tree} {ms : List Misplaced}
    (unmarked : ∀ n ∈ t.preorder, n.info.marks.cleaned = false)
    (restored : W.restoreCaseClasses t = .ok (r, ms)) :
    (∀ p n, r.at? p = some n → W.conventions.Outside t p →
      ∀ s, n.info.symbol = some s → ∀ d ∈ W.symbols.owners s, ¬ W.Collected t d) ∧
      ∀ o ∈ W.conventions.occurrences t, W.conventions.Outside t o.path →
        (∀ s, W.referent o.node = some s → ∀ d ∈ W.symbols.owners s, ¬ W.Collected t d) →
          ∃ n, r.at? o.path = some n ∧ n.info = o.node.info ∧ n.shape.Alike o.node.shape := by
  have left : W.conventions.cleanStatement (caseClassNames [t]) t ∈
    W.conventions.standing (.statement [t] false) t := List.mem_singleton_self _
  rw [Setting.restoreCaseClasses_eq_ok restored]
  refine ⟨fun p n found outside s symbol d hd => ?_, fun o ho outside current => ?_⟩
  · have avoids := Setting.not_refersTo_of_outside (o := ⟨[], .statement [t] false, t⟩) rfl unmarked
      left found outside
    rw [← W.mem_symbols_iff_collected]
    exact Setting.refersTo_eq_false.mp avoids s symbol d hd
  · have node : o.node ∈ t.preorder := by
      rw [← W.conventions.map_node_occurrences]
      exact List.mem_map_of_mem ho
    refine ⟨_, Setting.at?_of_outside (o := ⟨[], .statement [t] false, t⟩) rfl unmarked left rfl
      ho outside, Setting.restored_of_not_refersTo (unmarked o.node node) ?_⟩
    refine Setting.refersTo_eq_false.mpr fun s hs d hd => ?_
    rw [W.mem_symbols_iff_collected]
    exact current s hs d hd

theorem Place.not_treats_of_plain {n : Tree} (plain : n.shape.declaration? = none) (pl : Place) :
    pl.treats n = false := by
  cases pl with
  | statement stats ofCleaned => rw [treats_statement, plain, cleansDeclaration]
  | _ => rfl

theorem Conventions.at?_of_mem_occurrencesFrom (C : Conventions) {t : Tree} {o b : Occurrence}
    (here : t.at? o.path = some o.node) (h : b ∈ C.occurrencesFrom o) :
    t.at? b.path = some b.node := by
  induction o using C.occurrence_induct with
  | step o ih =>
    rcases C.mem_occurrencesFrom.mp h with rfl | ⟨c, hc, h⟩
    · exact here
    · refine ih c hc ?_ h
      obtain ⟨k, q, hq, rfl⟩ := C.mem_below.mp hc
      have child : o.node.children[k]? = some q.2 := by
        rw [← C.map_snd_placed o.place, List.getElem?_map, hq]
        rfl
      simp [Tree.at?_append, here, Tree.at?, child]

/-- A statement of the record that is no class or module is outside of those that are cleaned. -/
theorem recordTree_outside {k : Nat} {n : Tree} (child : recordTree.at? [k] = some n)
    (plain : n.shape.declaration? = none) :
    (recordSetting false).conventions.Outside recordTree [k] := by
  intro o ho onTheWay
  have found := (recordSetting false).conventions.at?_of_mem_occurrencesFrom rfl ho
  refine Place.not_treats_of_plain ?_ o.place
  rcases List.prefix_cons_iff.mp onTheWay with root | ⟨rest, path, below⟩
  · rw [root] at found
    rw [← Option.some.inj found]
    rfl
  · rw [path, List.prefix_nil.mp below, child] at found
    rwa [← Option.some.inj found]

theorem recordTree_value : ∀ n ∈ recordTree.preorder, n.symbol = some ⟨"x"⟩ →
    n.shape.declaration? = none := by
  simp [recordTree, caseClass, Tree.preorder_eq, Tree.children, Shape.children, Tree.bare,
    Tree.empty, Tree.resolved, Tree.symbol, Shape.declaration?]

/-- The value `x` is still declared, and the call of the companion has lost its symbol. -/
theorem recordTree_detached :
    (∀ n ∈ recordTree.preorder, n.info.marks.cleaned = false) ∧
      ∃ r ms, (recordSetting false).restoreCaseClasses recordTree = .ok (r, ms) ∧
        (∃ n, r.at? [2] = some n ∧ n.info.symbol = some ⟨"x"⟩) ∧
        ∀ n, r.at? [3] = some n → n.info.symbol ≠ some ⟨"f"⟩ := by
  have statement {k : Nat} {q : Place × Tree}
      (h : ((recordSetting false).conventions.placed (.statement [recordTree] false)
        recordTree)[k]? = some q) :
      (⟨[k], q.1, q.2⟩ : Occurrence) ∈ (recordSetting false).conventions.occurrences recordTree :=
    (recordSetting false).conventions.mem_occurrencesFrom_iff_below.mpr (.inr ⟨_,
      (recordSetting false).conventions.mem_occurrencesFrom.mpr (.inl rfl),
      (recordSetting false).conventions.mem_below.mpr ⟨k, q, h, rfl⟩⟩)
  refine ⟨recordTree_unmarked, _, _, rfl, ?_⟩
  obtain ⟨avoids, kept⟩ := references_detached (recordSetting false) recordTree_unmarked rfl
  constructor
  · have foreign : ¬ (recordSetting false).Collected recordTree ⟨"x"⟩ := by
      rintro ⟨o, ho, treated, own⟩
      have node : o.node ∈ recordTree.preorder := by
        rw [← (recordSetting false).conventions.map_node_occurrences]
        exact List.mem_map_of_mem ho
      have unlinked := SymbolTable.forall_get (T := (recordSetting false).symbols)
        (P := fun symbol => symbol.moduleClass ≠ some ⟨"x"⟩) (by simp) (by simp [recordSetting])
      rcases (recordSetting false).mem_ownSymbols own with symbol | ⟨s, -, linked⟩
      · simp [Place.not_treats_of_plain (recordTree_value o.node node symbol)] at treated
      · exact unlinked s linked
    obtain ⟨n, found, info, -⟩ := kept _ (statement (k := 2) rfl) (recordTree_outside rfl rfl) (by
      intro s hs d hd
      obtain rfl : s = ⟨"x"⟩ := (Option.some.inj hs).symm
      have owners : (recordSetting false).symbols.owners ⟨"x"⟩ = [⟨"x"⟩] := by decide
      obtain rfl : d = ⟨"x"⟩ := by simpa [owners] using hd
      exact foreign)
    exact ⟨n, found, by rw [info]⟩
  · intro n found symbol
    exact avoids [3] n found (recordTree_outside rfl rfl) _ symbol ⟨"c"⟩ (by decide)
      ⟨_, statement (k := 1) rfl, by decide, by decide⟩

end TreeRepair
