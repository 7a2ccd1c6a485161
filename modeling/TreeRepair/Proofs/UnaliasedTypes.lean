import TreeRepair.Proofs.DenotedSymbols
import TreeRepair.Proofs.StaticTypes
import TreeRepair.Proofs.WrittenParts

namespace TreeRepair

theorem existsUnique_forall₂ {α β : Type} {R : α → β → Prop} {l : List α}
    (h : ∀ a ∈ l, ∃! b, R a b) : ∃! k, List.Forall₂ R l k := by
  induction l with
  | nil => exact ⟨[], .nil, fun k hk => List.forall₂_nil_left_iff.mp hk⟩
  | cons a l ih =>
    obtain ⟨b, hb, uniqueHead⟩ := h a List.mem_cons_self
    obtain ⟨k, hk, uniqueTail⟩ := ih fun c hc => h c (List.mem_cons_of_mem _ hc)
    refine ⟨b :: k, .cons hb hk, fun k' hk' => ?_⟩
    obtain ⟨b', k'', related, rest, rfl⟩ := List.forall₂_cons_left_iff.mp hk'
    rw [uniqueHead b' related, uniqueTail k'' rest]

/-- The types in which aliases are left alone. -/
def Ty.keepsAliases : Ty → Bool
  | .ref _ _ _ | .single _ _ | .existential _ _ | .refined _ _ => false
  | _ => true

namespace SymbolTable

variable {T : SymbolTable}

/-- The second type is the first one with its aliases expanded: at the top, in what it is selected
from, in its arguments, in its underlying type and in its parents, and then in what has come in
their place. -/
inductive Unaliased (T : SymbolTable) : Ty → Ty → Prop
  | expanded {pre u u' : Ty} {s : SymbolId} {args : List Ty} (expands : T.expansion? s = some u)
      (further : Unaliased T u u') : Unaliased T (.ref pre s args) u'
  | ref {pre pre' : Ty} {s : SymbolId} {args args' : List Ty} (plain : T.expansion? s = none)
      (qualifier : Unaliased T pre pre') (arguments : List.Forall₂ (Unaliased T) args args') :
      Unaliased T (.ref pre s args) (.ref pre' s args')
  | single {pre pre' : Ty} {s : SymbolId} (qualifier : Unaliased T pre pre') :
      Unaliased T (.single pre s) (.single pre' s)
  | existential {qs : List SymbolId} {u u' : Ty} (underlying : Unaliased T u u') :
      Unaliased T (.existential qs u) (.existential qs u')
  | refined {ps ps' : List Ty} {ds : List SymbolId} (parents : List.Forall₂ (Unaliased T) ps ps') :
      Unaliased T (.refined ps ds) (.refined ps' ds)
  | kept {t : Ty} (leaf : t.keepsAliases = true) : Unaliased T t t

namespace Unaliased

variable {t' : Ty}

theorem of_expansion {pre u : Ty} {s : SymbolId} {args : List Ty}
    (h : T.Unaliased (.ref pre s args) t') (expands : T.expansion? s = some u) :
    T.Unaliased u t' := by
  cases h with
  | expanded expands' further =>
    obtain rfl := Option.some.inj (expands.symm.trans expands')
    exact further
  | ref plain => simp [plain] at expands
  | kept leaf => cases leaf

theorem exists_ref {pre : Ty} {s : SymbolId} {args : List Ty}
    (h : T.Unaliased (.ref pre s args) t') (plain : T.expansion? s = none) :
    ∃ pre' args', t' = .ref pre' s args' ∧ T.Unaliased pre pre' ∧
      List.Forall₂ T.Unaliased args args' := by
  cases h with
  | expanded expands => simp [plain] at expands
  | ref _ qualifier arguments => exact ⟨_, _, rfl, qualifier, arguments⟩
  | kept leaf => cases leaf

theorem exists_single {pre : Ty} {s : SymbolId} (h : T.Unaliased (.single pre s) t') :
    ∃ pre', t' = .single pre' s ∧ T.Unaliased pre pre' := by
  cases h with
  | single qualifier => exact ⟨_, rfl, qualifier⟩
  | kept leaf => cases leaf

theorem exists_existential {qs : List SymbolId} {u : Ty} (h : T.Unaliased (.existential qs u) t') :
    ∃ u', t' = .existential qs u' ∧ T.Unaliased u u' := by
  cases h with
  | existential underlying => exact ⟨_, rfl, underlying⟩
  | kept leaf => cases leaf

theorem exists_refined {ps : List Ty} {ds : List SymbolId} (h : T.Unaliased (.refined ps ds) t') :
    ∃ ps', t' = .refined ps' ds ∧ List.Forall₂ T.Unaliased ps ps' := by
  cases h with
  | refined parents => exact ⟨_, rfl, parents⟩
  | kept leaf => cases leaf

theorem eq_of_keepsAliases {t : Ty} (h : T.Unaliased t t') (leaf : t.keepsAliases = true) :
    t' = t := by
  cases h with
  | kept => rfl
  | _ => cases leaf

end Unaliased

/-- To prove a statement of all types, take it as known of what an alias stands for and of the types
in which aliases are expanded. -/
theorem Acyclic.unaliasing_induct (acyclic : T.Acyclic) {motive : Ty → Prop}
    (expanded : ∀ pre s args u, T.expansion? s = some u → motive u → motive (.ref pre s args))
    (ref : ∀ pre s args, T.expansion? s = none → motive pre → (∀ a ∈ args, motive a) →
      motive (.ref pre s args))
    (single : ∀ pre s, motive pre → motive (.single pre s))
    (existential : ∀ qs u, motive u → motive (.existential qs u))
    (refined : ∀ ps ds, (∀ p ∈ ps, motive p) → motive (.refined ps ds))
    (kept : ∀ t, t.keepsAliases = true → motive t) (t : Ty) : motive t := by
  refine Descent.Ends.induct (D := T.writing) ?_ (acyclic.ends t)
  intro t _ parts looked
  cases t with
  | ref pre s args =>
    cases expands : T.expansion? s with
    | some u =>
      refine expanded pre s args u expands (looked (.expanded s) ?_ u ?_)
      · simp [writing, lookups, expands]
      · simp [writing, found, expands]
    | none =>
      have spelled : T.writing.parts (.ref pre s args) = pre :: args := by
        simp [writing, spelled, expands]
      rw [spelled] at parts
      exact ref pre s args expands (parts pre List.mem_cons_self)
        fun a ha => parts a (List.mem_cons_of_mem _ ha)
  | single pre s => exact single pre s (parts pre (List.mem_singleton.mpr rfl))
  | existential qs u => exact existential qs u (parts u (List.mem_singleton.mpr rfl))
  | refined ps ds => exact refined ps ds parts
  | _ => exact kept _ rfl

namespace Acyclic

variable (acyclic : T.Acyclic)
include acyclic

/-- Expanding the aliases of a type comes to an end, and to one end only. -/
theorem existsUnique_unaliased (t : Ty) : ∃! t', T.Unaliased t t' := by
  induction t using acyclic.unaliasing_induct with
  | expanded pre s args u expands ih =>
    obtain ⟨u', further, unique⟩ := ih
    exact ⟨u', .expanded expands further, fun t' h => unique t' (h.of_expansion expands)⟩
  | ref pre s args plain ihPre ihArgs =>
    obtain ⟨pre', qualifier, uniquePre⟩ := ihPre
    obtain ⟨args', arguments, uniqueArgs⟩ := existsUnique_forall₂ ihArgs
    refine ⟨.ref pre' s args', .ref plain qualifier arguments, fun t' h => ?_⟩
    obtain ⟨pre'', args'', rfl, qualifier, arguments⟩ := h.exists_ref plain
    rw [uniquePre _ qualifier, uniqueArgs _ arguments]
  | single pre s ih =>
    obtain ⟨pre', qualifier, unique⟩ := ih
    refine ⟨.single pre' s, .single qualifier, fun t' h => ?_⟩
    obtain ⟨pre'', rfl, qualifier⟩ := h.exists_single
    rw [unique _ qualifier]
  | existential qs u ih =>
    obtain ⟨u', underlying, unique⟩ := ih
    refine ⟨.existential qs u', .existential underlying, fun t' h => ?_⟩
    obtain ⟨u'', rfl, underlying⟩ := h.exists_existential
    rw [unique _ underlying]
  | refined ps ds ih =>
    obtain ⟨ps', parents, unique⟩ := existsUnique_forall₂ ih
    refine ⟨.refined ps' ds, .refined parents, fun t' h => ?_⟩
    obtain ⟨ps'', rfl, parents⟩ := h.exists_refined
    rw [unique _ parents]
  | kept t leaf => exact ⟨t, .kept leaf, fun t' h => h.eq_of_keepsAliases leaf⟩

/-- Expanding aliases does not change what a type denotes. -/
theorem denoted_unaliased {t t' : Ty} (h : T.Unaliased t t') : T.denoted t' = T.denoted t := by
  suffices ∀ c, T.Denotes t' c ↔ T.Denotes t c by
    refine Option.ext fun c => ?_
    rw [denoted_eq_some_iff, denoted_eq_some_iff, this c]
  intro c
  induction t using acyclic.unaliasing_induct generalizing t' with
  | expanded pre s args u expands ih =>
    rw [denotes_of_expansion expands]
    exact ih (h.of_expansion expands)
  | ref pre s args plain =>
    obtain ⟨pre', args', rfl, -, -⟩ := h.exists_ref plain
    rw [denotes_ref_iff plain, denotes_ref_iff plain]
  | single pre s =>
    obtain ⟨pre', rfl, -⟩ := h.exists_single
    exact denotes_single_iff
  | existential qs u ih =>
    obtain ⟨u', rfl, underlying⟩ := h.exists_existential
    rw [denotes_existential_iff, denotes_existential_iff, ih underlying]
  | refined ps ds =>
    obtain ⟨ps', rfl, -⟩ := h.exists_refined
    constructor <;> rintro ⟨⟩
  | kept t leaf => rw [h.eq_of_keepsAliases leaf]

/-- Where no alias stands for the missing prefix, nothing else becomes one. -/
theorem eq_noPrefix_iff (bound : ∀ s, T.expansion? s ≠ some .noPrefix) {t t' : Ty}
    (h : T.Unaliased t t') : t' = .noPrefix ↔ t = .noPrefix := by
  induction t using acyclic.unaliasing_induct with
  | expanded pre s args u expands ih =>
    have other : u ≠ .noPrefix := fun same => bound s (same ▸ expands)
    simpa [other] using ih (h.of_expansion expands)
  | ref pre s args plain =>
    obtain ⟨pre', args', rfl, -, -⟩ := h.exists_ref plain
    simp
  | single pre s =>
    obtain ⟨pre', rfl, -⟩ := h.exists_single
    simp
  | existential qs u =>
    obtain ⟨u', rfl, -⟩ := h.exists_existential
    simp
  | refined ps ds =>
    obtain ⟨ps', rfl, -⟩ := h.exists_refined
    simp
  | kept t leaf => rw [h.eq_of_keepsAliases leaf]

end Acyclic

end SymbolTable

namespace Tree

theorem same_bare_existentialType {t t' : Tree} {cs : List Tree} (h : t.same t' = true) :
    (bare (.existentialType t cs)).same (bare (.existentialType t' cs)) = true := by
  simp [bare, same_mk, Shape.outline, Shape.subtrees, Shape.children, Shape.written, h,
    List.forall₂_same, same_refl]

theorem same_bare_compoundType {ps ps' ms : List Tree}
    (h : List.Forall₂ (fun a b => a.same b = true) ps' ps) :
    (bare (.compoundType (bare (.template ps' .empty ms)))).same
      (bare (.compoundType (bare (.template ps .empty ms)))) = true := by
  have body : (bare (.template ps' .empty ms)).same (bare (.template ps .empty ms)) = true := by
    refine same_mk.mpr ⟨by simp [Shape.outline, List.map_const', h.length_eq], ?_⟩
    simp only [Shape.subtrees, Shape.children, Shape.written, Option.toList_none, List.append_nil]
    exact List.rel_append h (List.forall₂_same.mpr fun c _ => same_refl c)
  simpa [bare, same_mk (s := .compoundType _), Shape.outline, Shape.subtrees, Shape.children,
    Shape.written] using body

theorem same_resolved (t u : Ty) : (resolved t).same (resolved u) = true := same_mk.mpr ⟨rfl, .nil⟩

/-- Turning names back keeps trees the same. -/
theorem same_nameSingletons (ending : String) {t u : Tree} (h : t.same u = true) :
    (t.nameSingletons ending).same (u.nameSingletons ending) = true := by
  induction t using mem_children_induct generalizing u with
  | node i s ih =>
    obtain ⟨j, v⟩ := u
    have outline := (same_mk.mp h).1
    have rebuilt := same_mapChildren (k := i) (l := j) h fun c hc d hcd => ih c hc hcd
    by_cases name : ∃ text, s = .ident (.type text)
    · obtain ⟨text, rfl⟩ := name
      obtain rfl : v = .ident (.type text) := by cases v <;> simp_all [Shape.outline]
      simp only [nameSingletons]
      split
      · exact same_refl _
      · exact h
    · have other (text : String) : v ≠ .ident (.type text) := by
        rintro rfl
        cases s <;> simp_all [Shape.outline]
      rwa [nameSingletons_of_ne (not_exists.mp name), nameSingletons_of_ne other]

/-- Neither an instance nor the type of a value. -/
def HasOtherHead (t : Tree) : Prop := (∀ n, t.shape ≠ .this n) ∧ ∀ r, t.shape ≠ .singletonType r

/-- Trees that are the same are both an instance, both the type of a value, or neither. -/
theorem same_cases {t u : Tree} (h : t.same u = true) :
    (∃ n, t.shape = .this n ∧ u.shape = .this n) ∨
      (∃ r r', t.shape = .singletonType r ∧ u.shape = .singletonType r' ∧ r.same r' = true) ∨
      t.HasOtherHead ∧ u.HasOtherHead := by
  obtain ⟨i, s⟩ := t
  obtain ⟨j, v⟩ := u
  obtain ⟨outline, below⟩ := same_mk.mp h
  cases s with
  | this n =>
    cases v <;> simp only [Shape.outline, reduceCtorEq] at outline
    cases outline
    exact .inl ⟨n, rfl, rfl⟩
  | singletonType r =>
    cases v <;> simp only [Shape.outline, reduceCtorEq] at outline
    next r' =>
      refine .inr (.inl ⟨r, r', rfl, rfl, ?_⟩)
      simpa [Shape.subtrees, Shape.children, Shape.written] using below
  | _ =>
    refine .inr (.inr ⟨by simp [HasOtherHead], ?_, ?_⟩) <;> rintro n rfl <;>
      simp [Shape.outline] at outline

theorem same_selected {t u : Tree} (h : t.same u = true) : t.selected.same u.selected = true := by
  have unselected {x : Tree} (other : x.HasOtherHead) : x.selected = x := by
    unfold selected
    split
    next r singleton => exact absurd singleton (other.2 r)
    next => rfl
  obtain ⟨n, ht, hu⟩ | ⟨r, r', ht, hu, below⟩ | ⟨ht, hu⟩ := same_cases h
  · simpa [selected, ht, hu] using h
  · simpa [selected, ht, hu] using below
  · rwa [unselected ht, unselected hu]

end Tree

namespace Setting

variable {W : Setting}

theorem same_memberTree {pre pre' : Ty} {q q' : Tree} (s : SymbolId)
    (denoted : W.symbols.denoted pre' = W.symbols.denoted pre) (h : q'.same q = true) :
    (W.memberTree pre' q' s).same (W.memberTree pre q s) = true := by
  have selection (name : Name) :
      (Tree.bare (.select q' name)).same (.bare (.select q name)) = true :=
    Tree.same_bare_select.mpr ⟨rfl, h⟩
  have other {x : Tree} (other : x.HasOtherHead) (pre : Ty) : W.memberTree pre x s =
      if W.isPlainClass (W.symbols.denoted pre) then .bare (.typeSelect x (W.nameOf s).toType)
      else .bare (.select x
        (if W.isPlainClass (some s) then (W.nameOf s).toType else (W.nameOf s).toTerm)) := by
    simp only [memberTree]
    split
    next n head => exact absurd head (other.1 n)
    next r head => exact absurd head (other.2 r)
    next => rfl
  obtain ⟨n, hq', hq⟩ | ⟨r', r, hq', hq, below⟩ | ⟨hq', hq⟩ := Tree.same_cases h
  · simp only [memberTree, hq', hq]
    exact selection _
  · simp only [memberTree, hq', hq, denoted]
    split
    · exact Tree.same_bare_select.mpr ⟨rfl, below⟩
    · exact selection _
  · rw [other hq', other hq, denoted]
    split
    · simpa [Tree.bare, Tree.same_mk, Shape.outline, Shape.subtrees, Shape.children, Shape.written]
        using h
    · exact selection _

theorem same_applied_of {t t' : Tree} {as as' : List Tree} (h : t'.same t = true)
    (arguments : List.Forall₂ (fun a b => a.same b = true) as' as) :
    (applied t' as').same (applied t as) = true := by
  cases arguments with
  | nil => exact h
  | cons head rest => exact Tree.same_bare_appliedType.mpr ⟨h, .cons head rest⟩

theorem same_referenceTree {pre pre' : Ty} {q q' : Tree} {as as' : List Tree} (s : SymbolId)
    (free : pre' = .noPrefix ↔ pre = .noPrefix)
    (denoted : W.symbols.denoted pre' = W.symbols.denoted pre) (h : q'.same q = true)
    (arguments : List.Forall₂ (fun a b => a.same b = true) as' as) :
    (W.referenceTree pre' q' s as').same (W.referenceTree pre q s as) = true := by
  by_cases none : pre = .noPrefix
  · obtain rfl := free.mpr none
    subst none
    have empty : as'.isEmpty = as.isEmpty := by
      cases arguments <;> rfl
    simp only [referenceTree, empty]
    split
    · exact Tree.same_refl _
    · exact same_applied_of (Tree.same_refl _) arguments
  · rw [referenceTree_of_ne none, referenceTree_of_ne (mt free.mp none)]
    exact same_applied_of (same_memberTree s denoted h) arguments

theorem same_singletonTree {pre pre' : Ty} {q q' : Tree} (s : SymbolId)
    (free : pre' = .noPrefix ↔ pre = .noPrefix) (h : q'.same q = true) :
    (W.singletonTree pre' q' s).same (W.singletonTree pre q s) = true := by
  by_cases none : pre = .noPrefix
  · obtain rfl := free.mpr none
    subst none
    exact Tree.same_refl _
  · rw [singletonTree_of_ne none, singletonTree_of_ne (mt free.mp none)]
    exact Tree.same_bare_singletonType.mpr
      (Tree.same_bare_select.mpr ⟨rfl, Tree.same_selected h⟩)

theorem same_writtenAs {t : Ty} (ends : W.symbols.writing.Ends t) (shown : Ty) :
    (W.writtenAs shown t).same (W.writtenType t) = true := by
  obtain equal | ⟨left, right⟩ := writtenAs_shown ends shown
  · rw [equal]
    exact Tree.same_refl _
  · rw [left, right]
    exact Tree.same_resolved _ _

theorem forall₂_map_writtenType {l l' : List Ty} (h : List.Forall₂ W.symbols.Unaliased l l')
    (same : ∀ p ∈ l, ∀ p', W.symbols.Unaliased p p' →
      (W.writtenType p').same (W.writtenType p) = true) :
    List.Forall₂ (fun a b => a.same b = true) (l'.map W.writtenType) (l.map W.writtenType) := by
  rw [List.forall₂_map_left_iff, List.forall₂_map_right_iff]
  exact ((forall₂_with_mem h).imp fun p p' hp => same p hp.1 p' hp.2).flip

theorem same_existential (acyclic : W.symbols.Acyclic) {qs : List SymbolId} {u u' : Ty}
    (h : (W.writtenType u').same (W.writtenType u) = true) :
    (W.writtenType (.existential qs u')).same (W.writtenType (.existential qs u)) = true := by
  -- whether the type can be written depends on its quantified symbols only
  by_cases unwritable : W.Unwritable (.existential qs u)
  · rw [writtenType_of_unwritable (acyclic.ends _) unwritable,
      writtenType_of_unwritable (t := .existential qs u') (acyclic.ends _) unwritable]
    exact Tree.same_resolved _ _
  · obtain ⟨clauses, declared, -⟩ := writtenAs_existential (acyclic.ends _) unwritable .noPrefix
    have written (v : Ty) : W.writtenType (.existential qs v) = _ :=
      writtenAs_of_clauses (acyclic.ends _) (mapM_eq_some_iff.mpr declared) _
    rw [written, written]
    exact Tree.same_bare_existentialType (Tree.same_nameSingletons _ h)

theorem same_refined (acyclic : W.symbols.Acyclic) {ps ps' : List Ty} {ds : List SymbolId}
    (h : List.Forall₂ (fun a b => a.same b = true) (ps'.map W.writtenType)
      (ps.map W.writtenType)) :
    (W.writtenType (.refined ps' ds)).same (W.writtenType (.refined ps ds)) = true := by
  by_cases unwritable : W.Unwritable (.refined ps ds)
  · rw [writtenType_of_unwritable (acyclic.ends _) unwritable,
      writtenType_of_unwritable (t := .refined ps' ds) (acyclic.ends _) unwritable]
    exact Tree.same_resolved _ _
  · obtain ⟨members, declared, written⟩ :=
      writtenAs_refined (acyclic.ends _) unwritable (.refined ps ds)
    obtain ⟨members', declared', written'⟩ :=
      writtenAs_refined (acyclic.ends (.refined ps' ds)) unwritable (.refined ps' ds)
    obtain rfl := Option.some.inj
      ((mapM_eq_some_iff.mpr declared').symm.trans (mapM_eq_some_iff.mpr declared))
    change (W.writtenAs _ _).same (W.writtenAs _ _) = true
    rw [written, written']
    exact Tree.same_bare_compoundType h

end Setting

/-- An alias `Row` of an alias of a list of keys, where `Key` is an alias too, and an alias `Table`
of a class with a member. -/
def rowSetting : Setting where
  symbols.entries :=
    [(⟨"C"⟩, { name := .type "C", kind := .plainClass }),
     (⟨"List"⟩, { name := .type "List", kind := .plainClass }),
     (⟨"Entry"⟩, { name := .type "Entry", kind := .plainClass, owner := some ⟨"C"⟩ }),
     (⟨"Table"⟩, { name := .type "Table", kind := .alias, info := some (.ref .noPrefix ⟨"C"⟩ []) }),
     (⟨"Key"⟩, { name := .type "Key", kind := .alias,
                 info := some (.single .noPrefix ⟨"k"⟩) }),
     (⟨"Keys"⟩, { name := .type "Keys", kind := .alias,
                  info := some (.ref .noPrefix ⟨"List"⟩ [.ref .noPrefix ⟨"Key"⟩ []]) }),
     (⟨"Row"⟩, { name := .type "Row", kind := .alias, info := some (.ref .noPrefix ⟨"Keys"⟩ []) }),
     (⟨"k"⟩, { name := .term "k", kind := .term, info := some (.ref .noPrefix ⟨"C"⟩ []) })]
  builtins.rootClass := ⟨"root"⟩
  builtins.nothingType := .unspecified
  builtins.anyType := .unspecified
  builtins.anyRefType := .unspecified

theorem rowSetting_acyclic : rowSetting.symbols.Acyclic := by
  refine SymbolTable.acyclic_of_rank
    (fun k => if k ∈ [.expanded ⟨"Row"⟩, .declared ⟨"Row"⟩] then 2
      else if k ∈ [.expanded ⟨"Keys"⟩, .declared ⟨"Keys"⟩] then 1 else 0) ?_
  decide

/-- The member of the table that is applied to a row, and the same with all its aliases expanded. -/
def entryOfRow : Ty := .ref (.ref .noPrefix ⟨"Table"⟩ []) ⟨"Entry"⟩ [.ref .noPrefix ⟨"Row"⟩ []]

def entryOfKeys : Ty :=
  .ref (.ref .noPrefix ⟨"C"⟩ []) ⟨"Entry"⟩
    [.ref .noPrefix ⟨"List"⟩ [.single .noPrefix ⟨"k"⟩]]

theorem entryOfRow_unaliased : rowSetting.symbols.Unaliased entryOfRow entryOfKeys := by
  have key : rowSetting.symbols.Unaliased (.ref .noPrefix ⟨"Key"⟩ []) (.single .noPrefix ⟨"k"⟩) :=
    .expanded rfl (.single (.kept rfl))
  have row : rowSetting.symbols.Unaliased (.ref .noPrefix ⟨"Row"⟩ [])
      (.ref .noPrefix ⟨"List"⟩ [.single .noPrefix ⟨"k"⟩]) :=
    .expanded rfl (.expanded rfl (.ref rfl (.kept rfl) (.cons key .nil)))
  exact .ref rfl (.expanded rfl (.ref rfl (.kept rfl) .nil)) (.cons row .nil)

end TreeRepair
