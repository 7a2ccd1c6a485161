import TreeRepair.Proofs.Occurrence
import TreeRepair.Proofs.RepairContents
import TreeRepair.Proofs.SettledStatements

namespace TreeRepair

namespace Tree

theorem contains_of_mem_children {t c : Tree} (h : c ∈ t.children) : t.Contains c :=
  .single (List.mem_append_left _ h)

theorem contains_of_mem_preorder {t n : Tree} (h : n ∈ t.preorder) : t.Contains n := by
  induction t using mem_children_induct with
  | node i s ih =>
    rcases mem_preorder.mp h with rfl | ⟨c, hc, hn⟩
    · exact .refl
    · exact (contains_of_mem_children hc).trans (ih c hc hn)

/-- Where no type carries its written form, everything below is met on the walk. -/
theorem mem_preorder_of_contains {t n : Tree}
    (unresolved : ∀ m ∈ t.preorder, m.shape.written = none) (h : t.Contains n) :
    n ∈ t.preorder := by
  induction h with
  | refl => exact t.self_mem_preorder
  | @tail x y _ hy ih =>
    have below : y ∈ x.children := by
      simpa [Tree.subtrees, Tree.children, Shape.subtrees, unresolved x ih] using hy
    exact mem_preorder_trans ih (mem_preorder_of_mem_children below y.self_mem_preorder)

theorem initializer_mem_preorder (t : Tree) : t.initializer ∈ t.preorder := by
  unfold initializer
  cases found : t.preorder.findSome? _ with
  | none => exact t.self_mem_preorder
  | some r =>
    obtain ⟨n, hn, hr⟩ := List.exists_of_findSome?_eq_some found
    split at hr
    next l e shape =>
      cases hr
      refine mem_preorder_trans hn (mem_preorder_of_mem_children ?_ r.self_mem_preorder)
      simp [Tree.children, shape, Shape.children]
    next => simp at hr

/-- What passes on to children holds of everything below. -/
theorem of_mem_preorder {P : Tree → Prop} (down : ∀ x c, P x → c ∈ x.children → P c) {t n : Tree}
    (h : n ∈ t.preorder) (ht : P t) : P n := by
  induction t using mem_children_induct with
  | node i s ih =>
    rcases mem_preorder.mp h with rfl | ⟨c, hc, hn⟩
    · exact ht
    · exact ih c hc hn (down _ c ht hc)

theorem contains_down {t : Tree} (x c : Tree) (h : t.Contains x) (hc : c ∈ x.children) :
    t.Contains c := h.trans (contains_of_mem_children hc)

theorem preorder_down {t : Tree} (x c : Tree) (h : x ∈ t.preorder) (hc : c ∈ x.children) :
    c ∈ t.preorder := mem_preorder_trans h (mem_preorder_of_mem_children hc c.self_mem_preorder)

end Tree

theorem Setting.mem_children_settleShape (W : Setting) {used : List SymbolId} {s : Shape Tree}
    {c : Tree} (h : c ∈ (W.settleShape used s).children) : c ∈ s.children ∨ c = .empty ∨
      ∃ x ∈ s.children, W.isDefaultHelper x = true ∧ c = W.movedCopy x := by
  have settled {stats : List Tree} (below : ∀ x ∈ stats, x ∈ s.children)
      (h : c ∈ W.settleStatements used stats) : c ∈ s.children ∨ c = .empty ∨
        ∃ x ∈ s.children, W.isDefaultHelper x = true ∧ c = W.movedCopy x := by
    obtain ⟨copies, eq, made⟩ := W.settleStatements_eq used stats
    rw [eq] at h
    rcases List.mem_append.mp h with kept | copy
    · obtain ⟨x, hx, rfl⟩ := List.mem_map.mp kept
      unfold keptInPlace
      split
      · exact .inr (.inl rfl)
      · exact .inl (below x hx)
    · obtain ⟨x, hx, helper, rfl⟩ := made c copy
      exact .inr (.inr ⟨x, below x hx, helper, rfl⟩)
  unfold settleShape at h
  split at h
  next parents self body =>
    simp only [Shape.children, List.mem_append, List.mem_cons] at h
    rcases h with parent | rfl | statement
    · exact .inl (by simp [Shape.children, parent])
    · exact .inl (by simp [Shape.children])
    · exact settled (by simp [Shape.children]; grind) statement
  next pid stats =>
    rcases List.mem_cons.mp h with rfl | statement
    · exact .inl (by simp [Shape.children])
    · exact settled (by simp [Shape.children]; grind) statement
  next stats expr =>
    have below : ∀ x ∈ expr :: stats, x ∈ (Shape.block stats expr).children := by
      simp [Shape.children]
      grind
    split at h
    next e rest eq => exact settled below (by rw [eq]; simp [Shape.children] at h; grind)
    next => exact .inl h
  next => exact .inl h

theorem Setting.method_of_isDefaultHelper (W : Setting) {x : Tree}
    (h : W.isDefaultHelper x = true) :
    ∃ (m : Method) (s : SymbolId), x = m.toTree ∧ m.info.symbol = some s := by
  obtain ⟨i, shape⟩ := x
  cases shape <;> simp only [isDefaultHelper, Bool.false_eq_true] at h
  case defDef mods name tparams vparamss tpt rhs =>
    cases symbol : i.symbol with
    | none => simp [Tree.symbol, symbol] at h
    | some s => exact ⟨⟨i, mods, name, tparams, vparamss, tpt, rhs⟩, s, rfl, symbol⟩

theorem Setting.declares_of_isDefaultHelper (W : Setting) {x : Tree}
    (h : W.isDefaultHelper x = true) : ∃ s, x.declares s = true := by
  obtain ⟨m, s, rfl, symbol⟩ := W.method_of_isDefaultHelper h
  exact ⟨s, by simp [Method.toTree, Tree.declares, symbol]⟩

theorem Tree.field?_eq_some {t : Tree} {v : Field} : t.field? = some v ↔ t = v.toTree := by
  obtain ⟨i, s⟩ := t
  cases s <;> simp [field?, Field.toTree]
  grind [Field]

theorem Setting.mem_accessors (W : Setting) {n : Tree} {s : SymbolId} {v : Field} :
    (s, v) ∈ W.accessors n ↔ n = v.toTree ∧ ∃ h, v.info.symbol = some h ∧
      (W.symbols.get h).isTerm = true ∧
      ((W.symbols.get h).getter = some s ∨ (W.symbols.get h).setter = some s) := by
  constructor
  · intro mem
    unfold accessors at mem
    split at mem
    next w h field symbol =>
      split at mem
      next isTerm =>
        simp only [List.mem_map, List.mem_append, Option.mem_toList, Prod.mk.injEq] at mem
        obtain ⟨a, ha, rfl, rfl⟩ := mem
        obtain rfl := Tree.field?_eq_some.mp field
        exact ⟨rfl, h, symbol, isTerm, ha⟩
      next => simp at mem
    next => simp at mem
  · rintro ⟨rfl, h, symbol, isTerm, accessor⟩
    have field := Tree.field?_eq_some.mpr (rfl : v.toTree = v.toTree)
    have carried : v.toTree.symbol = some h := symbol
    simp only [accessors, field, carried, if_pos isTerm, List.mem_map, List.mem_append,
      Option.mem_toList, Prod.mk.injEq, and_true, exists_eq_right]
    exact accessor

namespace Repair

theorem get_ofTree (W : Setting) (owner : Option SymbolId) (t : Tree) (s : SymbolId) :
    (ofTree W owner t).get s = W.symbols.get s := rfl

theorem mem_fields_ofTree {W : Setting} {owner : Option SymbolId} {t : Tree} {s : SymbolId}
    {v : Field} : (s, v) ∈ (ofTree W owner t).fields ↔ v.toTree ∈ t.preorder ∧
      ∃ h, v.info.symbol = some h ∧ (W.symbols.get h).isTerm = true ∧
        ((W.symbols.get h).getter = some s ∨ (W.symbols.get h).setter = some s) := by
  simp only [ofTree, List.mem_flatMap, W.mem_accessors]
  constructor
  · rintro ⟨n, hn, rfl, h⟩
    exact ⟨hn, h⟩
  · rintro ⟨hv, h⟩
    exact ⟨_, hv, rfl, h⟩

theorem isSome_fieldOf? {R : Repair} {s : SymbolId} {v : Field} (h : (s, v) ∈ R.fields) :
    ∃ w, R.fieldOf? s = some w := by
  cases found : R.fieldOf? s with
  | some w => exact ⟨w, rfl⟩
  | none =>
    have := List.lookup_eq_none_iff.mp found (s, v) (List.mem_reverse.mpr h)
    simp at this

variable (R : Repair)

theorem mem_preorder_of_mem_extractors {fn e : Tree} (h : e ∈ R.extractors fn) :
    e ∈ fn.preorder := by
  obtain ⟨n, hn, he⟩ := List.mem_filterMap.mp h
  split at he
  next q name shape =>
    split at he
    · cases he
      refine Tree.preorder_down n e hn ?_
      simp [Tree.children, shape, Shape.children]
    · simp at he
  next => simp at he

theorem mem_preorder_of_extractor? {fn e : Tree} (h : R.extractor? fn = some e) :
    e ∈ fn.preorder := by
  unfold extractor? at h
  split at h
  next i f j arg =>
    split at h
    · split at h
      next e' hl =>
        cases h
        have inside := R.mem_preorder_of_mem_extractors (by rw [hl]; simp : e ∈ R.extractors f)
        refine Tree.mem_preorder_of_mem_children ?_ inside
        simp [Tree.children, Shape.children]
      next => simp at h
    · simp at h
  next => simp at h

/-- What a repair takes up is what it was given, except for gaps and moved copies. -/
inductive Stems (P : Tree → Prop) : Tree → Prop
  | part {x : Tree} (h : P x) : Stems P x
  | gap : Stems P .empty
  | copy {x : Tree} (h : P x) (helper : R.setting.isDefaultHelper x = true) :
      Stems P (R.setting.movedCopy x)

variable {R} {P : Tree → Prop} (down : ∀ x c, P x → c ∈ x.children → P c)

include down in
theorem Stems.child {x c : Tree} (h : R.Stems P x) (hc : c ∈ x.children) : P c := by
  cases h with
  | part h => exact down _ c h hc
  | gap => simp [Tree.empty, Tree.bare, Tree.children, Shape.children] at hc
  | @copy y h helper =>
    obtain ⟨i, s⟩ := y
    refine down _ c h ?_
    cases s <;> simp [Setting.isDefaultHelper] at helper
    simp [Setting.movedCopy, Tree.children, Shape.children] at hc ⊢
    grind

include down in
theorem stems_lazyParts {p : Tree} {s : SymbolId} {tpt rhs : Tree} (htpt : P tpt) (hrhs : P rhs)
    (h : p ∈ R.lazyParts s tpt rhs) : R.Stems P p := by
  rcases R.mem_lazyParts h with rfl | ⟨rfl, -⟩
  · exact .part (Tree.of_mem_preorder down rhs.initializer_mem_preorder hrhs)
  · exact .part htpt

include down in
theorem Stems.of_mem_parts {x p : Tree} (h : R.Stems P x)
    (written : ∀ w, x.shape.written = some w → P w) (hp : p ∈ R.parts x) : R.Stems P p := by
  obtain ⟨i, s⟩ := x
  have child {c : Tree} (hc : c ∈ s.children) : P c := h.child down hc
  have settled (hc : p ∈ (R.setting.settleShape R.usedHelpers s).children) : R.Stems P p := by
    rcases R.setting.mem_children_settleShape hc with kept | rfl | ⟨y, hy, helper, rfl⟩
    · exact .part (child kept)
    · exact .gap
    · exact .copy (child hy) helper
  cases s with
  | typeTree w =>
    cases w with
    | none => exact settled hp
    | some w =>
      obtain rfl : p = w := by simpa [parts] using hp
      exact .part (written p rfl)
  | unapply fn args =>
    rcases List.mem_cons.mp hp with rfl | arg
    · have function : P fn := child (by simp [Shape.children])
      cases extractor : R.extractor? fn with
      | none => exact .part function
      | some e =>
        exact .part (Tree.of_mem_preorder down (R.mem_preorder_of_extractor? extractor) function)
    · exact .part (child (by simp [Shape.children, arg]))
  | valDef mods name tpt rhs =>
    simp only [parts] at hp
    split at hp
    next => simp at hp
    next =>
      split at hp
      next =>
        exact stems_lazyParts down (child (by simp [Shape.children]))
          (child (by simp [Shape.children])) hp
      next => exact .part (child hp)
  | defDef mods name tparams vparamss tpt rhs =>
    simp only [parts] at hp
    split at hp
    next => simp at hp
    next => simp at hp
    next =>
      exact stems_lazyParts down (child (by simp [Shape.children]))
        (child (by simp [Shape.children])) hp
    next =>
      refine .part (child ?_)
      simp only [Shape.children, List.append_assoc] at hp ⊢
      exact List.mem_append_right _ hp
    next => exact .part (child hp)
  | _ => exact settled hp

theorem Stems.contains_written {t x w : Tree} (h : R.Stems t.Contains x)
    (hw : x.shape.written = some w) : t.Contains w := by
  cases h with
  | part contains => exact contains.tail (by simp [Tree.subtrees, Shape.subtrees, hw])
  | gap => simp [Tree.empty, Tree.bare, Shape.written] at hw
  | @copy y contains helper =>
    obtain ⟨i, s⟩ := y
    cases s <;> simp [Setting.isDefaultHelper] at helper
    simp [Setting.movedCopy, Shape.written] at hw

/-- Parts of what a tree contains are contained in it, too. -/
theorem Stems.part_contains {t x p : Tree} (h : R.Stems t.Contains x) (hp : p ∈ R.parts x) :
    R.Stems t.Contains p :=
  h.of_mem_parts Tree.contains_down (fun _ => h.contains_written) hp

theorem sources_eq_nil {x : Tree} (h : ∀ s, x.declares s = false) : R.sources x = [] := by
  obtain ⟨i, shape⟩ := x
  cases shape with
  | valDef mods name tpt rhs =>
    have noSymbol : i.symbol = none := by
      refine Option.eq_none_iff_forall_ne_some.mpr fun s hs => ?_
      simpa [Tree.declares, hs] using h s
    simp [sources, lazyGetter?, noSymbol]
  | defDef mods name tparams vparamss tpt rhs =>
    have noSymbol : i.symbol = none := by
      refine Option.eq_none_iff_forall_ne_some.mpr fun s hs => ?_
      simpa [Tree.declares, hs] using h s
    simp [sources, role, noSymbol]
  | _ => rfl

theorem Stems.of_visits {t x : Tree} (h : R.descent.Visits t x) : R.Stems t.Contains x := by
  induction h with
  | refl => exact .part .refl
  | tail _ hp ih => exact ih.part_contains hp

variable {N : Tree → Prop}

/-- What holds of everything in a tree holds of everything in what a repair takes up of it. -/
theorem Stems.forall_contains {t x : Tree} (h : R.Stems t.Contains x) (gap : N .empty)
    (undeclaring : ∀ n, N n → ∀ s, n.declares s = false) (all : ∀ n, t.Contains n → N n) :
    ∀ n, x.Contains n → N n := by
  cases h with
  | part contains => exact fun n hn => all n (contains.trans hn)
  | gap =>
    intro n hn
    rcases hn.cases_head with rfl | ⟨c, hc, -⟩
    · exact gap
    · simp [Tree.empty, Tree.bare, Tree.subtrees, Shape.subtrees, Shape.children,
        Shape.written] at hc
  | @copy y contains helper =>
    obtain ⟨s, declared⟩ := R.setting.declares_of_isDefaultHelper helper
    rw [undeclaring y (all y contains) s] at declared
    contradiction

theorem ends_of_undeclaring {x : Tree} (h : x.Undeclaring) : R.descent.Ends x := by
  intro y visited k hk
  have nothing := (Stems.of_visits visited).forall_contains (fun _ => rfl) (fun _ h => h) h
  simp [sources_eq_nil (nothing y .refl)] at hk

/-- Where nothing is declared, what the repair of a node keeps up holds of everything
afterwards. -/
theorem forall_contains_tree (gap : N .empty) (path : ∀ n v, N (R.setting.pathWithin n v))
    (undeclaring : ∀ n, N n → ∀ s, n.declares s = false)
    (step : ∀ x, R.descent.Ends x → N x → N (R.tree x)) {x : Tree} (all : ∀ n, x.Contains n → N n) :
    ∀ n, (R.tree x).Contains n → N n := by
  have ends : R.descent.Ends x := ends_of_undeclaring fun n hn => undeclaring n (all n hn)
  refine Descent.Ends.induct (motive := fun x => (∀ n, x.Contains n → N n) →
    ∀ n, (R.tree x).Contains n → N n) (fun x ends parts _ all n hn => ?_) ends all
  rcases hn.cases_head with rfl | ⟨c, hc, below⟩
  · exact step x ends (all x .refl)
  · rw [R.tree_eq_node ends] at hc
    rcases R.mem_subtrees_node hc with ⟨p, hp, rfl⟩ | ⟨k, hk, -⟩ | raw | ⟨m, v, rfl⟩
    · have taken : R.Stems x.Contains p := Stems.part_contains (.part .refl) hp
      exact parts p hp (taken.forall_contains gap undeclaring all) n below
    · rw [sources_eq_nil (undeclaring x (all x .refl))] at hk
      simp at hk
    · have child := R.mem_children_of_mem_rawAnnotations raw
      exact all n ((Tree.contains_of_mem_children child).trans below)
    · obtain ⟨k, o, rfl⟩ := contains_path below
      exact path k o

theorem undeclaring_tree {x : Tree} (h : x.Undeclaring) : (R.tree x).Undeclaring := by
  refine forall_contains_tree (fun _ => rfl) (fun n v => undeclaring_path _ .refl)
    (fun _ h => h) (fun x ends h s => ?_) h
  by_contra declares
  have := R.declares_of_tree ends (by simpa using declares)
  rw [h s] at this
  contradiction

/-- The declaration of a field is part of the tree that the field was recorded for. -/
theorem mem_preorder_of_drawn {W : Setting} {owner : Option SymbolId} {t y : Tree} {s : SymbolId}
    (h : y ∈ (ofTree W owner t).drawn (.declared s)) : y ∈ t.preorder := by
  cases field : (ofTree W owner t).fieldOf? s with
  | none => simp [drawn, field] at h
  | some v =>
    have declared := (mem_fields_ofTree.mp (mem_fields_of_fieldOf? field)).1
    refine Tree.preorder_down v.toTree y declared ?_
    simp only [drawn, field] at h
    split at h <;> simp [Field.toTree, Tree.children, Shape.children] at h ⊢ <;> grind

/-- Without recorded annotations and without fields that have accessors, a repair ends. -/
theorem ends_of_unaccessed {W : Setting} {owner : Option SymbolId} {t : Tree}
    (annotations : ∀ s, (W.symbols.get s).annotations = [])
    (fields : ∀ s, (ofTree W owner t).fieldOf? s = none) : (ofTree W owner t).descent.Ends t := by
  refine Descent.ends_of_drawn_leaves (fun k y hy => ?_) t
  cases k with
  | recorded s => simp [drawn, get_ofTree, annotations] at hy
  | declared s => simp [drawn, fields] at hy

/-- Without recorded annotations, a repair ends if the values of the tree have neither parts nor
sources. -/
theorem ends_of_plain_fields {W : Setting} {owner : Option SymbolId} {t : Tree}
    (annotations : ∀ s, (W.symbols.get s).annotations = [])
    (fields : ∀ v : Field, v.toTree ∈ t.preorder → ∀ y, y = v.tpt ∨ y = v.rhs →
      (ofTree W owner t).parts y = [] ∧ (ofTree W owner t).sources y = []) :
    (ofTree W owner t).descent.Ends t := by
  refine Descent.ends_of_drawn_leaves (fun k y hy => ?_) t
  cases k with
  | recorded s => simp [drawn, get_ofTree, annotations] at hy
  | declared s =>
    cases field : (ofTree W owner t).fieldOf? s with
    | none => simp [drawn, field] at hy
    | some v =>
      refine fields v (mem_fields_ofTree.mp (mem_fields_of_fieldOf? field)).1 y ?_
      simp only [descent_drawn, drawn, field] at hy
      split at hy <;> simp at hy
      · exact .inl hy
      · exact hy

end Repair

end TreeRepair
