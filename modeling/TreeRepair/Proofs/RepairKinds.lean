import TreeRepair.Proofs.InertAnnotations
import TreeRepair.Proofs.LostAccessors

namespace TreeRepair

open Relation

theorem Flags.inter_inter_self (fs gs : Flags) : (fs.inter gs).inter gs = fs.inter gs := by
  simp [inter, BitVec.and_assoc]

theorem Setting.isDefaultHelper_mono (W : Setting) {i j : Info} {m m' : Modifiers Tree}
    {name : Name} {tparams tparams' : List Tree} {vparamss vparamss' : List (List Tree)}
    {tpt tpt' rhs rhs' : Tree} (flags : ∀ f, m.has f = true → m'.has f = true)
    (symbol : ∀ s, i.symbol = some s → j.symbol = some s)
    (h : W.isDefaultHelper ⟨i, .defDef m name tparams vparamss tpt rhs⟩ = true) :
    W.isDefaultHelper ⟨j, .defDef m' name tparams' vparamss' tpt' rhs'⟩ = true := by
  cases resolved : i.symbol with
  | none => simp [isDefaultHelper, Tree.symbol, resolved] at h
  | some s =>
    have := symbol s resolved
    simp only [isDefaultHelper, Tree.symbol, resolved, this] at h ⊢
    split at h
    next => simp at h
    next =>
      simp only [Bool.and_eq_true, Bool.or_eq_true] at h ⊢
      have := flags .synthetic
      have := flags .defaultParam
      tauto

/-- The kinds of nodes that a repair tells apart by what becomes of them. -/
inductive Kind where
  | name
  | selection
  | type
  | gap
  | value
  | method
  | other

def Tree.kind (t : Tree) : Kind :=
  match t.shape with
  | .ident _ => .name
  | .select _ _ => .selection
  | .typeTree _ => .type
  | .empty => .gap
  | .valDef _ _ _ _ => .value
  | .defDef _ _ _ _ _ _ => .method
  | _ => .other

theorem Tree.kind_eq_method {t : Tree} (h : t.kind = .method) : ∃ m : Method, t = m.toTree := by
  obtain ⟨i, s⟩ := t
  cases s <;> simp [kind] at h
  case defDef mods name tparams vparamss tpt rhs =>
    exact ⟨⟨i, mods, name, tparams, vparamss, tpt, rhs⟩, rfl⟩

theorem Tree.isEmpty_iff_kind {t : Tree} : t.isEmpty = true ↔ t.kind = .gap := by
  obtain ⟨i, s⟩ := t
  cases s <;> simp [kind, isEmpty]

theorem kind_path (W : Setting) (n : Nat) (v : SymbolId) :
    (W.pathWithin n v).kind = .name ∨ (W.pathWithin n v).kind = .selection := by
  cases n with
  | zero => exact .inl rfl
  | succ n =>
    simp only [Setting.pathWithin]
    split
    · exact .inl rfl
    · split
      · exact .inl rfl
      · exact .inr rfl

namespace Repair

variable {R : Repair}

theorem has_of_has_keptFlags {mods : Modifiers Tree} {f : Flag}
    (h : (R.keptFlags mods).has f = true) : mods.has f = true := by
  rw [keptFlags, Modifiers.restrict, Flags.has_inter, Bool.and_eq_true] at h
  exact h.1

/-- What a repair turns into what: names into paths, values and methods into values and gaps. -/
theorem kind_tree {x : Tree} (ends : R.descent.Ends x) : (R.tree x).kind = x.kind ∨
    x.kind = .name ∧ (R.tree x).kind = .selection ∨
    (x.kind = .value ∨ x.kind = .method) ∧
      ((R.tree x).kind = .gap ∨ (R.tree x).kind = .value) := by
  rw [R.tree_eq_node ends]
  obtain ⟨i, shape⟩ := x
  cases shape with
  | typeTree w => cases w <;> exact .inl rfl
  | ident name =>
    simp only [node, identifier]
    split
    next s _ =>
      split
      · rcases kind_path R.setting R.setting.symbols.bound s with short | long
        · exact .inl short
        · exact .inr (.inl ⟨rfl, long⟩)
      · exact .inl rfl
    next => exact .inl rfl
  | unapply fn args =>
    simp only [node]
    split <;> exact .inl rfl
  | valDef mods name tpt rhs =>
    simp only [node]
    split
    next => exact .inr (.inr ⟨.inl rfl, .inl rfl⟩)
    next => split <;> exact .inl rfl
  | defDef mods name tparams vparamss tpt rhs =>
    simp only [node]
    split
    next => exact .inr (.inr ⟨.inr rfl, .inl rfl⟩)
    next => exact .inr (.inr ⟨.inr rfl, .inr rfl⟩)
    next => exact .inr (.inr ⟨.inr rfl, .inr rfl⟩)
    next => exact .inl rfl
    next => exact .inl rfl
  | block stats expr =>
    simp only [node, Setting.settleShape]
    split <;> exact .inl rfl
  | _ => exact .inl rfl

/-- A method in a repaired tree was one before, with no other flags and under no other symbol. -/
theorem method_of_tree {x : Tree} {m : Method} (ends : R.descent.Ends x) (h : R.tree x = m.toTree) :
    ∃ w : Method, x = w.toTree ∧ w.name = m.name ∧ (∀ f, m.mods.has f = true → w.mods.has f = true) ∧
      ∀ s, m.info.symbol = some s → w.info.symbol = some s := by
  have kept := R.kind_tree ends
  rw [h] at kept
  obtain ⟨w, rfl⟩ : ∃ w : Method, x = w.toTree :=
    Tree.kind_eq_method (by simpa [Method.toTree, Tree.kind, eq_comm] using kept)
  refine ⟨w, rfl, ?_⟩
  rw [R.tree_eq_node ends] at h
  obtain ⟨i, mods, name, tparams, vparamss, tpt, rhs⟩ := w
  simp only [Method.toTree, node] at h
  split at h
  next => simp [Tree.empty, Tree.bare] at h
  next => simp [accessedField] at h
  next => simp [lazyValue] at h
  next g role =>
    have carried := (R.role_eq_method.mp role).1
    simp only [Tree.mk.injEq, Shape.defDef.injEq] at h
    obtain ⟨info, mods, rfl, -⟩ := h
    rw [← info, ← mods]
    refine ⟨rfl, fun f hf => has_of_has_keptFlags hf, fun s hs => ?_⟩
    simp only [methodParts] at hs
    split at hs
    · simp at hs
    · exact carried.trans hs
  next =>
    simp only [Shape.mapChildren, Tree.mk.injEq, Shape.defDef.injEq] at h
    obtain ⟨rfl, mods, rfl, -⟩ := h
    rw [← mods]
    exact ⟨rfl, fun f hf => hf, fun s hs => hs⟩

/-- A helper in a repaired tree was one before, under the same symbol and name. -/
theorem isDefaultHelper_of_tree {x : Tree} (ends : R.descent.Ends x)
    (h : R.setting.isDefaultHelper (R.tree x) = true) :
    R.setting.isDefaultHelper x = true ∧ (R.tree x).symbol = x.symbol ∧
      (R.tree x).declaredText = x.declaredText := by
  obtain ⟨m, s, repaired, symbol⟩ := R.setting.method_of_isDefaultHelper h
  obtain ⟨w, rfl, name, flags, carried⟩ := method_of_tree ends repaired
  rw [repaired] at h ⊢
  refine ⟨?_, symbol.trans (carried s symbol).symm, ?_⟩
  · rw [Method.toTree, name]
    exact R.setting.isDefaultHelper_mono flags carried h
  · simp [Tree.declaredText, Tree.declaredName?, Method.toTree, name]

theorem identifier_path {i : Info} {name : Name} (h : R.identifier i name ≠ ⟨i, .ident name⟩) :
    ∃ s, i.symbol = some s ∧
      R.identifier i name = (R.setting.path s).takeInfo ⟨i, .ident name⟩ := by
  unfold identifier at h ⊢
  split at h
  next s symbol =>
    split at h
    next needed => exact ⟨s, symbol, if_pos needed⟩
    next => exact absurd rfl h
  next => exact absurd rfl h

theorem symbol_identifier (i : Info) (name : Name) :
    (R.identifier i name).symbol = i.symbol := by
  unfold identifier
  split
  next s symbol =>
    split
    · simp [Tree.symbol, Tree.takeInfo, Info.takeFrom, symbol]
    · rfl
  next => rfl

/-- A selection under a symbol in a repaired tree was one of another thing than a helper in use, or
a name that needed a path. -/
theorem selection_of_tree {x q : Tree} {j : Info} {name : Name} {s : SymbolId} (ends : R.descent.Ends x)
    (h : R.tree x = ⟨j, .select q name⟩) (symbol : j.symbol = some s) :
    (∃ i p n, x = ⟨i, .select p n⟩ ∧ i.symbol = some s ∧ s ∉ R.usedHelpers) ∨
      ∃ i n, x = ⟨i, .ident n⟩ ∧ i.symbol = some s ∧ R.identifier i n ≠ ⟨i, .ident n⟩ := by
  have kept := R.kind_tree ends
  rw [R.tree_eq_node ends] at h
  rw [R.tree_eq_node ends, h] at kept
  obtain ⟨i, shape⟩ := x
  cases shape <;> simp only [Tree.kind, reduceCtorEq, false_and, and_false, or_self] at kept
  case ident n =>
    have repaired : R.identifier i n = ⟨j, .select q name⟩ := h
    have carried := R.symbol_identifier i n
    rw [repaired] at carried
    refine .inr ⟨i, n, rfl, carried.symm.trans symbol, ?_⟩
    simp [repaired]
  case select p n =>
    obtain ⟨info, -⟩ : _ ∧ _ := by simpa [node] using h
    refine .inl ⟨i, p, n, rfl, ?_⟩
    rw [← info] at symbol
    cases resolved : i.symbol with
    | none => simp [selection, resolved] at symbol
    | some v =>
      by_cases used : v ∈ R.usedHelpers
      · simp [selection, resolved, used] at symbol
      · rw [selection_of_unused resolved used] at symbol
        obtain rfl := Option.some.inj (resolved.symm.trans symbol)
        exact ⟨rfl, used⟩

end Repair

end TreeRepair
