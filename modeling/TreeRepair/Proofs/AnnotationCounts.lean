import Mathlib.Data.Finset.Card
import TreeRepair.Proofs.InertAnnotations
import TreeRepair.Proofs.Surface

namespace TreeRepair

namespace Tree

/-- Trees that are written the same. -/
def sameness : Setoid Tree where
  r t u := t.same u = true
  iseqv := ⟨same_refl, same_symm, same_trans⟩

instance (t u : Tree) : Decidable (sameness t u) := inferInstanceAs (Decidable (t.same u = true))

/-- A tree as it is written. -/
def form (t : Tree) : Quotient sameness := Quotient.mk _ t

theorem form_eq_iff {t u : Tree} : t.form = u.form ↔ t.same u = true :=
  Quotient.eq (r := sameness)

/-- The structurally different trees of a list. -/
def forms (l : List Tree) : Finset (Quotient sameness) := (l.map form).toFinset

theorem mem_forms {l : List Tree} {t : Tree} : t.form ∈ forms l ↔ ∃ u ∈ l, u.same t = true := by
  simp [forms, form_eq_iff]

theorem forms_append (l k : List Tree) : forms (l ++ k) = forms l ∪ forms k := by
  simp [forms, List.toFinset_append]

theorem card_forms_of_pairwise {l : List Tree} (h : l.Pairwise fun a b => a.same b = false) :
    (forms l).card = l.length := by
  have different : (l.map form).Nodup := by
    refine List.pairwise_map.mpr (h.imp fun {a b} apart equal => ?_)
    rw [form_eq_iff, apart] at equal
    contradiction
  rw [forms, List.toFinset_card_of_nodup different, List.length_map]

/-- As many trees are different before as after a change that neither makes two of them the same
nor tells two of them apart. -/
theorem card_forms_eq (l : List (Tree × Tree))
    (h : ∀ p ∈ l, ∀ q ∈ l, p.1.same q.1 = p.2.same q.2) :
    (forms (l.map Prod.fst)).card = (forms (l.map Prod.snd)).card := by
  induction l with
  | nil => rfl
  | cons p l ih =>
    have rest := ih fun q hq r hr => h q (List.mem_cons_of_mem _ hq) r (List.mem_cons_of_mem _ hr)
    have known : p.1.form ∈ forms (l.map Prod.fst) ↔ p.2.form ∈ forms (l.map Prod.snd) := by
      simp only [mem_forms, List.mem_map, exists_exists_and_eq_and]
      refine exists_congr fun q => and_congr_right fun hq => ?_
      rw [h q (List.mem_cons_of_mem _ hq) p List.mem_cons_self]
    have insert (t : Tree) (k : List Tree) : forms (t :: k) = Insert.insert t.form (forms k) := by
      simp [forms]
    rw [List.map_cons, List.map_cons, insert, insert]
    by_cases there : p.1.form ∈ forms (l.map Prod.fst)
    · rw [Finset.insert_eq_of_mem there, Finset.insert_eq_of_mem (known.mp there), rest]
    · rw [Finset.card_insert_of_notMem there, Finset.card_insert_of_notMem (mt known.mpr there),
        rest]

end Tree

theorem addIfNew_forms (present : List Tree) (a : Tree) :
    Tree.forms (addIfNew present a) = Tree.forms (present ++ [a]) := by
  unfold addIfNew
  split
  next found =>
    have there : a.form ∈ Tree.forms present := Tree.mem_forms.mpr (List.any_eq_true.mp found)
    rw [Tree.forms_append, show Tree.forms [a] = {a.form} from rfl]
    exact (Finset.union_eq_left.mpr (Finset.singleton_subset_iff.mpr there)).symm
  next => rfl

theorem addIfNew_pairwise {present : List Tree} (a : Tree)
    (h : present.Pairwise fun a b => a.same b = false) :
    (addIfNew present a).Pairwise fun a b => a.same b = false := by
  unfold addIfNew
  split
  next => exact h
  next new =>
    refine List.pairwise_append.mpr ⟨h, List.pairwise_singleton _ _, fun b hb c hc => ?_⟩
    obtain rfl := List.mem_singleton.mp hc
    rw [List.any_eq_true] at new
    by_contra same
    exact new ⟨b, hb, by simpa using same⟩

/-- Adding annotations one by one leaves each of the different ones once. -/
theorem foldl_addIfNew_once {present : List Tree} (source : List Tree)
    (h : present.Pairwise fun a b => a.same b = false) :
    (source.foldl addIfNew present).length = (Tree.forms (present ++ source)).card := by
  induction source generalizing present with
  | nil => rw [List.append_nil, Tree.card_forms_of_pairwise h, List.foldl_nil]
  | cons a source ih =>
    rw [List.foldl_cons, ih (addIfNew_pairwise a h), Tree.forms_append, addIfNew_forms,
      ← Tree.forms_append, List.append_assoc, List.singleton_append]

namespace Repair

variable (R : Repair)

/-- The symbols whose annotations go to the repaired form of a method: its own, and that of the
field it gives access to. -/
def annotatedSymbols (s : SymbolId) : List SymbolId :=
  s :: if (R.get s).isGetter then ((R.fieldOf? s).bind fun f => f.info.symbol).toList else []

/-- The annotations recorded for a method and for its field. -/
def recordedAnnotations (s : SymbolId) : List Tree :=
  (R.annotatedSymbols s).flatMap fun r => (R.get r).annotations

variable {R}

/-- A method that is no setter keeps its modifiers, with the annotations of its symbols added. -/
theorem modifiers_tree {m : Method} {s : SymbolId} (ends : R.descent.Ends m.toTree)
    (symbol : m.info.symbol = some s) (isTerm : (R.get s).isTerm = true)
    (notSetter : (R.get s).isSetter = false) :
    ∃ mods, (R.tree m.toTree).shape.modifiers? = some mods ∧
      mods.annotations = R.annotations R.tree m.mods (R.annotatedSymbols s) := by
  rw [R.tree_eq_node ends]
  simp only [Method.toTree, node]
  split
  next role =>
    obtain ⟨g, same, isSetter⟩ := R.role_eq_setter.mp role
    obtain rfl := Option.some.inj (symbol.symm.trans same)
    rw [notSetter] at isSetter
    contradiction
  next g f role =>
    obtain ⟨same, -, -, -, isGetter, field⟩ := R.role_eq_getter.mp role
    obtain rfl := Option.some.inj (symbol.symm.trans same)
    refine ⟨_, rfl, ?_⟩
    simp [annotatedSymbols, isGetter, field]
  next g role =>
    obtain ⟨same, -, -, -, isGetter⟩ := R.role_eq_lazyValue.mp role
    obtain rfl := Option.some.inj (symbol.symm.trans same)
    refine ⟨_, rfl, ?_⟩
    simp [annotatedSymbols, isGetter]
  next g role =>
    obtain ⟨same, -, -, getter⟩ := R.role_eq_method.mp role
    obtain rfl := Option.some.inj (symbol.symm.trans same)
    refine ⟨_, rfl, ?_⟩
    cases isGetter : (R.get s).isGetter with
    | false => simp [methodParts, annotatedSymbols, isGetter]
    | true => simp [methodParts, annotatedSymbols, isGetter, (getter isGetter).2]
  next role =>
    have isType := (R.role_eq_unresolved.mp role s symbol).2
    rw [isTerm] at isType
    contradiction

theorem length_annotations_tree {m : Method} {s : SymbolId} (ends : R.descent.Ends m.toTree)
    (symbol : m.info.symbol = some s) (isTerm : (R.get s).isTerm = true)
    (notSetter : (R.get s).isSetter = false)
    (different : m.mods.annotations.Pairwise fun a b => a.same b = false) :
    ∃ mods, (R.tree m.toTree).shape.modifiers? = some mods ∧ mods.annotations.length =
      (Tree.forms (m.mods.annotations ++ (R.recordedAnnotations s).map R.tree)).card := by
  obtain ⟨mods, kept, annotations⟩ := modifiers_tree ends symbol isTerm notSetter
  refine ⟨mods, kept, ?_⟩
  rw [annotations, annotations_eq_foldl, ← List.map_flatMap]
  exact foldl_addIfNew_once _ different

variable (R) in
/-- Repairing recorded annotations makes none of them the same as a written one or as each other,
and tells none of them apart. -/
structure KeepsForms (written recorded : List Tree) : Prop where
  written : ∀ a ∈ recorded, ∀ w ∈ written, w.same (R.tree a) = w.same a
  recorded : ∀ a ∈ recorded, ∀ b ∈ recorded, (R.tree a).same (R.tree b) = a.same b

theorem KeepsForms.card_eq {written recorded : List Tree} (h : R.KeepsForms written recorded) :
    (Tree.forms (written ++ recorded.map R.tree)).card = (Tree.forms (written ++ recorded)).card := by
  -- each annotation together with what the repair makes of it
  let pairs := written.map (fun w => (w, w)) ++ recorded.map fun a => (a, R.tree a)
  have before : pairs.map Prod.fst = written ++ recorded := by
    simp [pairs, Function.comp_def]
  have after : pairs.map Prod.snd = written ++ recorded.map R.tree := by
    simp [pairs, Function.comp_def]
  rw [← before, ← after]
  refine (Tree.card_forms_eq pairs fun p hp q hq => ?_).symm
  simp only [pairs, List.mem_append, List.mem_map] at hp hq
  rcases hp with ⟨w, hw, rfl⟩ | ⟨a, ha, rfl⟩ <;> rcases hq with ⟨v, hv, rfl⟩ | ⟨b, hb, rfl⟩
  · rfl
  · exact (h.written b hb w hw).symm
  · rw [Tree.same_comm a, Tree.same_comm (R.tree a)]
    exact (h.written a ha v hv).symm
  · exact (h.recorded a ha b hb).symm

/-- Annotations that a repair leaves as they are keep their forms. -/
theorem keepsForms_of_same {recorded : List Tree} (written : List Tree)
    (h : ∀ a ∈ recorded, (R.tree a).same a = true) : R.KeepsForms written recorded where
  written a ha w _ := Tree.same_congr w.same_refl (h a ha)
  recorded a ha b hb := Tree.same_congr (h a ha) (h b hb)

end Repair

/-- A repaired method or the value it becomes has one annotation for each of the different ones
among those written and the repaired recorded ones; that is one for each of the different ones
before the repair if this keeps their forms. -/
theorem repaired_annotation_count {W : Setting} {owner : Option SymbolId} {t : Tree} {R : Repair}
    (repair : R = .ofTree W owner t) (ends : R.descent.Ends t) {m : Method} {s : SymbolId}
    (reached : R.Reaches t m.toTree) (symbol : m.info.symbol = some s)
    (isTerm : (W.symbols.get s).isTerm = true) (notSetter : (W.symbols.get s).isSetter = false)
    (different : m.mods.annotations.Pairwise fun a b => a.same b = false) :
    (W.repairChecked owner t).Contains (R.tree m.toTree) ∧
    ∃ mods, (R.tree m.toTree).shape.modifiers? = some mods ∧
      mods.annotations.length =
        (Tree.forms (m.mods.annotations ++ (R.recordedAnnotations s).map R.tree)).card ∧
      (R.KeepsForms m.mods.annotations (R.recordedAnnotations s) → mods.annotations.length =
        (Tree.forms (m.mods.annotations ++ R.recordedAnnotations s)).card) := by
  subst repair
  obtain ⟨mods, kept, count⟩ :=
    Repair.length_annotations_tree (reached.ends ends) symbol isTerm notSetter different
  exact ⟨reached.contains ends, mods, kept, count, fun keeps => count.trans keeps.card_eq⟩

def notice (symbol : Option SymbolId) (text : String) : Tree := ⟨{ symbol }, .ident (.term text)⟩

/-- A method `f` with recorded annotations, and a member `v` of the package that needs no import. -/
def noticeSetting (recorded : List Tree) : Setting where
  symbols.entries :=
    [(⟨"scala"⟩, { name := .term "scala", kind := .packageClass, owner := some ⟨"root"⟩ }),
     (⟨"v"⟩, { name := .term "deprecated", kind := .term, owner := some ⟨"scala"⟩ }),
     (⟨"f"⟩, { name := .term "f", kind := .method, annotations := recorded })]
  builtins.rootClass := ⟨"root"⟩
  builtins.nothingType := .unspecified
  builtins.anyType := .unspecified
  builtins.anyRefType := .unspecified

def noticedMethod (written : Tree) : Method :=
  ⟨{ symbol := some ⟨"f"⟩ }, { annotations := [written] }, .term "f", [], [],
    .bare (.typeTree none), .bare (.literal (.int 1))⟩

def noticeRepair (recorded : List Tree) (written : Tree) : Repair :=
  .ofTree (noticeSetting recorded) none (noticedMethod written).toTree

theorem noticeSetting_method (recorded : List Tree) :
    (noticeSetting recorded).symbols.get ⟨"f"⟩ =
      { name := .term "f", kind := .method, annotations := recorded } := rfl

theorem noticeSetting_flags (recorded : List Tree) :
    ((noticeSetting recorded).symbols.get ⟨"f"⟩).isTerm = true ∧
      ((noticeSetting recorded).symbols.get ⟨"f"⟩).isSetter = false := by
  rw [noticeSetting_method]
  exact ⟨rfl, by simp [Symbol.isSetter, Symbol.has, Flags.has_none]⟩

theorem noticeRepair_ends {recorded : List Tree} (h : ∀ a ∈ recorded, ∃ s text, a = notice s text)
    (s : Option SymbolId) (text : String) :
    (noticeRepair recorded (notice s text)).descent.Ends (noticedMethod (notice s text)).toTree := by
  have annotations : ∀ r, ((noticeSetting recorded).symbols.get r).annotations = [] ∨
      ((noticeSetting recorded).symbols.get r).annotations = recorded :=
    SymbolTable.forall_get (P := fun x => x.annotations = [] ∨ x.annotations = recorded) (.inl rfl)
      (by simp [noticeSetting])
  refine Descent.ends_of_drawn_leaves (fun k y hy => ?_) _
  cases k with
  | recorded r =>
    have listed : y ∈ recorded := by
      rcases annotations r with none | all
      · simp [Repair.drawn, noticeRepair, Repair.get_ofTree, none] at hy
      · simpa [Repair.drawn, noticeRepair, Repair.get_ofTree, all] using hy
    obtain ⟨v, name, rfl⟩ := h y listed
    exact ⟨rfl, rfl⟩
  | declared r =>
    cases field : (noticeRepair recorded (notice s text)).fieldOf? r with
    | none => simp [Repair.drawn, field] at hy
    | some v =>
      have inTree := (Repair.mem_fields_ofTree.mp (Repair.mem_fields_of_fieldOf? field)).1
      simp [noticedMethod, notice, Method.toTree, Field.toTree, Tree.bare, Tree.preorder_eq,
        Tree.children, Shape.children] at inTree

theorem noticeRepair_recorded (recorded : List Tree) (written : Tree) :
    (noticeRepair recorded written).recordedAnnotations ⟨"f"⟩ = recorded := by
  have known : (noticeRepair recorded written).get ⟨"f"⟩ = _ := noticeSetting_method recorded
  simp [Repair.recordedAnnotations, Repair.annotatedSymbols, known, Symbol.isGetter, Symbol.has,
    Flags.has_none]

theorem noticedMethod_annotated :
    let recorded := [notice none "deprecated", notice none "inline"]
    let R := noticeRepair recorded (notice none "deprecated")
    R.descent.Ends (noticedMethod (notice none "deprecated")).toTree ∧
      ∃ mods, (R.tree (noticedMethod (notice none "deprecated")).toTree).shape.modifiers? = some mods ∧
        mods.annotations.length = (Tree.forms (notice none "deprecated" :: recorded)).card := by
  intro recorded R
  have ends : R.descent.Ends (noticedMethod (notice none "deprecated")).toTree := by
    refine noticeRepair_ends (fun a ha => ?_) none "deprecated"
    rcases List.mem_cons.mp ha with rfl | last
    · exact ⟨none, _, rfl⟩
    · exact ⟨none, _, List.mem_singleton.mp last⟩
  have unresolved (text : String) : R.tree (notice none text) = notice none text := by
    rw [R.tree_eq_node (Descent.ends_of_leaf rfl rfl)]
    rfl
  have keeps : R.KeepsForms [notice none "deprecated"] (R.recordedAnnotations ⟨"f"⟩) := by
    refine Repair.keepsForms_of_same _ fun a ha => ?_
    rw [noticeRepair_recorded] at ha
    have same : R.tree a = a := by
      rcases List.mem_cons.mp ha with rfl | last
      · exact unresolved _
      · rw [List.mem_singleton.mp last, unresolved]
    rw [same, Tree.same_refl]
  obtain ⟨isTerm, notSetter⟩ := noticeSetting_flags recorded
  obtain ⟨-, mods, kept, -, count⟩ := repaired_annotation_count (R := R) rfl ends .refl rfl isTerm
    notSetter (List.pairwise_singleton _ _)
  refine ⟨ends, mods, kept, ?_⟩
  rw [count keeps, noticeRepair_recorded]
  rfl

/-- An annotation that is written and recorded alike comes twice if its name needs a path. -/
theorem noticedMethod_annotated_twice :
    let written := notice (some ⟨"v"⟩) "deprecated"
    let R := noticeRepair [written] written
    (Tree.forms ([written] ++ R.recordedAnnotations ⟨"f"⟩)).card = 1 ∧
      ∃ mods, ((noticeSetting [written]).repairChecked none (noticedMethod written).toTree).shape.modifiers? =
          some mods ∧ mods.annotations.length = 2 := by
  intro written R
  have ends : R.descent.Ends (noticedMethod written).toTree :=
    noticeRepair_ends (fun a ha => ⟨_, _, List.mem_singleton.mp ha⟩) _ _
  have recorded : R.recordedAnnotations ⟨"f"⟩ = [written] := noticeRepair_recorded _ _
  have alike : Tree.forms ([written] ++ [written]) = Tree.forms [written] := by
    rw [Tree.forms_append, Finset.union_self]
  have path : (R.tree written).shape.outline = .select () (.term "deprecated") := by
    rw [R.tree_eq_node (Descent.ends_of_leaf rfl rfl)]
    decide
  have apart : [written, R.tree written].Pairwise fun a b => a.same b = false := by
    refine List.pairwise_pair.mpr (Bool.eq_false_iff.mpr (Repair.not_same_of_outline ?_))
    rw [path]
    simp [written, notice, Shape.outline]
  obtain ⟨isTerm, notSetter⟩ := noticeSetting_flags [written]
  obtain ⟨mods, kept, count⟩ := Repair.length_annotations_tree ends (s := ⟨"f"⟩) rfl isTerm notSetter
    (List.pairwise_singleton _ _)
  refine ⟨?_, mods, kept, ?_⟩
  · rw [recorded, alike, Tree.card_forms_of_pairwise (List.pairwise_singleton _ _)]
    rfl
  · rw [count, recorded]
    exact Tree.card_forms_of_pairwise apart

end TreeRepair
