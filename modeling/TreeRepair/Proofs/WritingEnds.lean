import Mathlib.Data.List.Forall2
import TreeRepair.Proofs.Descent
import TreeRepair.Type.Lookup

namespace TreeRepair

open Relation

namespace SymbolTable

variable (T : SymbolTable)

/-- The types inside a type that are written where they stand. -/
def spelled : Ty → List Ty
  | .ref pre s args => if (T.expansion? s).isSome then [] else pre :: args
  | .single pre _ => [pre]
  | .bounds lo hi => [lo, hi]
  | .existential _ u => [u]
  | .refined ps _ => ps
  | _ => []

def lookups : Ty → List Lookup
  | .ref _ s _ => if (T.expansion? s).isSome then [.expanded s] else []
  | .existential qs _ => qs.map .quantified
  | .refined _ ds => (ds.flatMap T.signature).map .declared
  | _ => []

/-- The types that a lookup finds. A quantified value is written with its upper bound alone. -/
def found : Lookup → List Ty
  | .expanded s => (T.expansion? s).toList
  | .quantified s =>
    match (T.get s).info with
    | some (.bounds lo hi) => [.bounds lo hi, hi]
    | _ => []
  | .declared s => ((T.get s).info.map Ty.finalResult).toList

theorem sizeOf_lt_of_mem_spelled {t u : Ty} (h : u ∈ T.spelled t) : sizeOf u < sizeOf t := by
  cases t with
  | ref pre s args =>
    simp only [spelled] at h
    split at h
    · simp at h
    · rcases List.mem_cons.mp h with rfl | h
      · rw [Ty.ref.sizeOf_spec]
        omega
      · have := List.sizeOf_lt_of_mem h
        rw [Ty.ref.sizeOf_spec]
        omega
  | refined ps ds =>
    have := List.sizeOf_lt_of_mem (show u ∈ ps from h)
    rw [Ty.refined.sizeOf_spec]
    omega
  | single pre s =>
    obtain rfl := List.mem_singleton.mp h
    rw [Ty.single.sizeOf_spec]
    omega
  | bounds lo hi =>
    simp only [spelled, List.mem_cons, List.not_mem_nil, or_false] at h
    rw [Ty.bounds.sizeOf_spec]
    rcases h with rfl | rfl <;> omega
  | existential qs v =>
    obtain rfl := List.mem_singleton.mp h
    rw [Ty.existential.sizeOf_spec]
    omega
  | _ => simp [spelled] at h

/-- Writing a type goes on in the types inside it, and in those that are looked up for it. -/
def writing : Descent Ty Lookup where
  parts := T.spelled
  sources := T.lookups
  drawn := T.found
  smaller := Subrelation.wf (fun h => T.sizeOf_lt_of_mem_spelled h) (measure sizeOf).wf

/-- No type that is looked up for another one leads back to itself. -/
def Acyclic : Prop := ∀ k, ¬ TransGen T.writing.LeadsTo k k

/-- The lookups that find anything. -/
def known : Finset Lookup :=
  (T.entries.flatMap fun e => [.expanded e.1, .quantified e.1, .declared e.1]).toFinset

theorem card_known_lt : T.known.card < 3 * T.bound := by
  have card := List.toFinset_card_le
    (T.entries.flatMap fun e => [Lookup.expanded e.1, .quantified e.1, .declared e.1])
  have length (l : List (SymbolId × Symbol)) :
      (l.flatMap fun e => [Lookup.expanded e.1, .quantified e.1, .declared e.1]).length =
        3 * l.length := by
    induction l with
    | nil => rfl
    | cons e l ih =>
      simp only [List.flatMap_cons, List.length_append, ih, List.length_cons, List.length_nil]
      omega
  rw [length] at card
  simp only [known, bound]
  omega

theorem mem_known {k : Lookup} {u : Ty} (h : u ∈ T.found k) : k ∈ T.known := by
  have listed {s : SymbolId} {t : Ty} (info : (T.get s).info = some t) :
      ∃ e ∈ T.entries, e.1 = s := by
    unfold get at info
    cases entry : T.entries.lookup s with
    | none => simp [entry] at info
    | some symbol =>
      obtain ⟨l₁, l₂, entries, -⟩ := List.lookup_eq_some_iff.mp entry
      exact ⟨(s, symbol), by simp [entries], rfl⟩
  simp only [known, List.mem_toFinset, List.mem_flatMap]
  cases k with
  | expanded s =>
    have expands : T.expansion? s = some u := by simpa [found] using h
    simp only [expansion?] at expands
    split at expands
    · obtain ⟨e, he, rfl⟩ := listed expands
      exact ⟨e, he, by simp⟩
    · simp at expands
  | quantified s =>
    simp only [found] at h
    split at h
    next info =>
      obtain ⟨e, he, rfl⟩ := listed info
      exact ⟨e, he, by simp⟩
    next => simp at h
  | declared s =>
    obtain ⟨t, info, -⟩ : ∃ t, (T.get s).info = some t ∧ t.finalResult = u := by
      simpa [found] using h
    obtain ⟨e, he, rfl⟩ := listed info
    exact ⟨e, he, by simp⟩

mutual

/-- What is looked up for a type and for the types inside it. -/
def needs : Ty → List Lookup
  | .ref pre s args =>
    if (T.expansion? s).isSome then [.expanded s] else needs pre ++ needsAll args
  | .single pre _ => needs pre
  | .bounds lo hi => needs lo ++ needs hi
  | .existential qs u => qs.map .quantified ++ needs u
  | .refined ps ds => needsAll ps ++ (ds.flatMap T.signature).map .declared
  | _ => []

def needsAll : List Ty → List Lookup
  | [] => []
  | t :: ts => needs t ++ needsAll ts

end

variable {T}

theorem Acyclic.ends (h : T.Acyclic) (t : Ty) : T.writing.Ends t := fun _ _ _ _ =>
  Descent.acc_of_acyclic T.known h fun _ _ ⟨_, hy⟩ => T.mem_known hy

/-- If nothing that is looked up is made up of other types, no lookup leads anywhere. -/
theorem acyclic_of_leaves (leaves : ∀ k, ∀ u ∈ T.found k, T.spelled u = [] ∧ T.lookups u = []) :
    T.Acyclic := by
  intro k loop
  obtain ⟨j, -, u, hu, x, visited, hj⟩ := (TransGen.tail'_iff).mp loop
  obtain ⟨parts, sources⟩ := leaves k u hu
  rcases visited.cases_head with rfl | ⟨p, hp, -⟩
  · simp [writing, sources] at hj
  · simp [writing, parts] at hp

theorem mem_needsAll {ts : List Ty} {j : Lookup} : j ∈ T.needsAll ts ↔ ∃ t ∈ ts, j ∈ T.needs t := by
  induction ts with
  | nil => simp [needsAll]
  | cons t ts ih => simp [needsAll, ih]

theorem mem_needs_of_mem_lookups {t : Ty} {j : Lookup} (h : j ∈ T.lookups t) : j ∈ T.needs t := by
  cases t with
  | ref pre s args =>
    simp only [lookups] at h
    split at h
    next expands => simpa [needs, expands] using h
    next => simp at h
  | existential qs u => exact List.mem_append_left _ h
  | refined ps ds => exact List.mem_append_right _ h
  | _ => simp [lookups] at h

theorem mem_needs_of_mem_spelled {t p : Ty} {j : Lookup} (hp : p ∈ T.spelled t)
    (h : j ∈ T.needs p) : j ∈ T.needs t := by
  cases t with
  | ref pre s args =>
    simp only [spelled] at hp
    split at hp
    next => simp at hp
    next unexpanded =>
      rw [needs, if_neg unexpanded, List.mem_append, mem_needsAll]
      rcases List.mem_cons.mp hp with rfl | hp
      · exact .inl h
      · exact .inr ⟨p, hp, h⟩
  | single pre s =>
    obtain rfl := List.mem_singleton.mp hp
    exact h
  | bounds lo hi =>
    rw [needs, List.mem_append]
    rcases List.mem_pair.mp hp with rfl | rfl
    · exact .inl h
    · exact .inr h
  | existential qs u =>
    obtain rfl := List.mem_singleton.mp hp
    exact List.mem_append_right _ h
  | refined ps ds => exact List.mem_append_left _ (mem_needsAll.mpr ⟨p, hp, h⟩)
  | _ => simp [spelled] at hp

theorem mem_needs_of_visits {t x : Ty} {j : Lookup} (visited : T.writing.Visits t x)
    (h : j ∈ T.lookups x) : j ∈ T.needs t := by
  induction visited using ReflTransGen.head_induction_on with
  | refl => exact mem_needs_of_mem_lookups h
  | head hp _ ih => exact mem_needs_of_mem_spelled hp ih

/-- If lookups can be ranked so that each of them needs only lower ones, none leads back to
itself. -/
theorem acyclic_of_rank (rank : Lookup → Nat)
    (lower : ∀ k ∈ T.known, ∀ u ∈ T.found k, ∀ j ∈ T.needs u, rank j < rank k) : T.Acyclic := by
  refine not_transGen_self_of_rank rank fun j k leads => ?_
  obtain ⟨u, hu, x, visited, hj⟩ := leads
  exact lower k (T.mem_known hu) u hu j (mem_needs_of_visits visited hj)

end SymbolTable

theorem mapM_eq_some_iff {α β : Type} {f : α → Option β} {l : List α} {k : List β} :
    l.mapM f = some k ↔ List.Forall₂ (fun a b => f a = some b) l k := by
  induction l generalizing k with
  | nil => simp [eq_comm]
  | cons a l ih =>
    simp only [List.mapM_cons, Option.bind_eq_bind, Option.bind_eq_some_iff, Option.pure_def,
      Option.some.injEq, ih, List.forall₂_cons_left_iff]
    constructor
    · rintro ⟨b, hb, k', hk', rfl⟩
      exact ⟨b, k', hb, hk', rfl⟩
    · rintro ⟨b, k', hb, hk', rfl⟩
      exact ⟨b, hb, k', hk', rfl⟩

theorem mapM_eq_none_iff {α β : Type} {f : α → Option β} {l : List α} :
    l.mapM f = none ↔ ∃ a ∈ l, f a = none := by
  induction l with
  | nil => simp
  | cons a l ih =>
    cases found : f a with
    | none => simp [List.mapM_cons, found]
    | some b =>
      have rest : (a :: l).mapM f = none ↔ l.mapM f = none := by
        cases remaining : l.mapM f <;> simp [List.mapM_cons, found, remaining]
      rw [rest, ih, List.exists_mem_cons_iff, found]
      simp

theorem exists_of_mapM_eq_some {α β : Type} {f : α → Option β} {l : List α} {k : List β}
    (h : l.mapM f = some k) {b : β} (hb : b ∈ k) : ∃ a ∈ l, f a = some b := by
  obtain ⟨n, hn, rfl⟩ := List.mem_iff_getElem.mp hb
  have pairs := List.forall₂_iff_get.mp (mapM_eq_some_iff.mp h)
  exact ⟨_, List.get_mem .., pairs.2 n (pairs.1 ▸ hn) hn⟩

theorem mapM_congr {α β : Type} {f g : α → Option β} {l : List α} (h : ∀ a ∈ l, f a = g a) :
    l.mapM f = l.mapM g := by
  induction l with
  | nil => rfl
  | cons a l ih =>
    rw [List.mapM_cons, List.mapM_cons, h a (by simp), ih fun b hb => h b (by simp [hb])]

namespace Setting

variable (W : Setting)

theorem writtenAllWith_eq_map (deeper : Ty → Ty → Tree) (ts : List Ty) :
    W.writtenAllWith deeper ts = ts.map fun t => W.writtenWith deeper t t := by
  induction ts with
  | nil => rfl
  | cons t ts ih => rw [writtenAllWith, ih, List.map_cons]

variable {render render' : Ty → Tree}

theorem resultTree_congr {s : SymbolId}
    (h : ∀ u ∈ W.symbols.found (.declared s), render u = render' u) :
    W.resultTree render s = W.resultTree render' s := by
  unfold resultTree
  split
  next => rfl
  next t info => exact h _ (by simp [SymbolTable.found, info])

theorem typeMember_congr {n : Nat} {s : SymbolId}
    (h : ∀ p ∈ W.symbols.typeParameters n s, ∀ u ∈ W.symbols.found (.declared p),
      render u = render' u) :
    W.typeMember render n s = W.typeMember render' n s := by
  induction n generalizing s with
  | zero =>
    rw [typeMember, typeMember, W.resultTree_congr (h s (by simp [SymbolTable.typeParameters]))]
  | succ n ih =>
    have parameters : (W.symbols.get s).typeParams.map (W.typeMember render n) =
        (W.symbols.get s).typeParams.map (W.typeMember render' n) := by
      refine List.map_congr_left fun p hp => ih fun q hq => h q ?_
      exact List.mem_cons_of_mem _ (List.mem_flatMap.mpr ⟨p, hp, hq⟩)
    rw [typeMember, typeMember, parameters,
      W.resultTree_congr (h s (by simp [SymbolTable.typeParameters]))]

theorem valueMember_congr {s : SymbolId}
    (h : ∀ u ∈ W.symbols.found (.declared s), render u = render' u) :
    W.valueMember render s = W.valueMember render' s := by
  rw [valueMember, valueMember, W.resultTree_congr h]

theorem methodMember_congr {s : SymbolId}
    (h : ∀ p ∈ s :: ((W.symbols.get s).typeParams.flatMap
        (W.symbols.typeParameters W.symbols.bound) ++ (W.symbols.get s).paramLists.flatten),
      ∀ u ∈ W.symbols.found (.declared p), render u = render' u) :
    W.methodMember render s = W.methodMember render' s := by
  have types : (W.symbols.get s).typeParams.map (W.typeMember render W.symbols.bound) =
      (W.symbols.get s).typeParams.map (W.typeMember render' W.symbols.bound) := by
    refine List.map_congr_left fun p hp => W.typeMember_congr fun q hq => h q ?_
    exact List.mem_cons_of_mem _ (List.mem_append_left _ (List.mem_flatMap.mpr ⟨p, hp, hq⟩))
  have values : ((W.symbols.get s).paramLists.map fun ps => ps.map (W.valueMember render)) =
      (W.symbols.get s).paramLists.map fun ps => ps.map (W.valueMember render') := by
    refine List.map_congr_left fun ps hps => List.map_congr_left fun p hp => ?_
    refine W.valueMember_congr (h p ?_)
    exact List.mem_cons_of_mem _ (List.mem_append_right _ (List.mem_flatten.mpr ⟨ps, hps, hp⟩))
  rw [methodMember, methodMember, types, values, W.resultTree_congr (h s (by simp))]

theorem member?_congr {s : SymbolId}
    (h : ∀ p ∈ W.symbols.signature s, ∀ u ∈ W.symbols.found (.declared p), render u = render' u) :
    W.member? render s = W.member? render' s := by
  unfold SymbolTable.signature at h
  simp only [member?]
  by_cases method : (W.symbols.get s).isMethod = true
  · by_cases stable : (W.symbols.get s).isStable = true
    · rw [if_pos method, if_pos stable] at h
      rw [if_pos method, if_pos method, if_pos stable, if_pos stable,
        W.valueMember_congr (h s (by simp))]
    · rw [if_pos method, if_neg stable] at h
      rw [if_pos method, if_pos method, if_neg stable, if_neg stable, W.methodMember_congr h]
  · rw [if_neg method] at h
    rw [if_neg method, if_neg method, W.typeMember_congr h]

theorem quantifiable?_eq_some {s : SymbolId} {u : Ty} (h : W.quantifiable? s = some u) :
    ∃ lo hi, (W.symbols.get s).info = some (.bounds lo hi) ∧ (u = .bounds lo hi ∨ u = hi) := by
  unfold quantifiable? at h
  split at h
  next lo hi info =>
    refine ⟨lo, hi, info, ?_⟩
    grind
  next => simp at h

theorem clause?_congr {s : SymbolId} (h : ∀ u, W.quantifiable? s = some u → render u = render' u) :
    W.clause? render s = W.clause? render' s := by
  simp only [clause?]
  split
  next lo hi info =>
    simp only [quantifiable?, info] at h
    by_cases plain : (!Text.endsWith (W.nameOf s).text W.conventions.singletonEnding) = true
    · rw [if_pos plain, if_pos plain, h _ (if_pos plain)]
    · rw [if_neg plain, if_neg plain]
      refine ite_congr rfl (fun low => ?_) fun _ => rfl
      rw [h hi (by rw [if_neg plain, if_pos low])]
  next => rfl

theorem isSome_clause? (render : Ty → Tree) (s : SymbolId) :
    (W.clause? render s).isSome = (W.quantifiable? s).isSome := by
  cases info : (W.symbols.get s).info with
  | none => simp only [clause?, quantifiable?, info, Option.isSome_none]
  | some t =>
    cases t with
    | bounds lo hi =>
      simp only [clause?, quantifiable?, info]
      cases Text.endsWith (W.nameOf s).text W.conventions.singletonEnding <;>
        cases lo.same W.builtins.nothingType <;> rfl
    | _ => simp only [clause?, quantifiable?, info, Option.isSome_none]

theorem isSome_member? (render : Ty → Tree) (s : SymbolId) :
    (W.member? render s).isSome = W.declarable s := by
  simp only [member?, declarable]
  cases (W.symbols.get s).info <;> cases (W.symbols.get s).isMethod <;>
    cases (W.symbols.get s).isType <;> rfl

theorem renderedParts_existential {qs : List SymbolId} {u : Ty} {clauses : List Tree}
    (h : qs.mapM (W.clause? render) = some clauses) :
    W.renderedParts (.existential qs u) = [u] := by
  refine if_pos (List.all_eq_true.mpr fun q hq => ?_)
  rw [← W.isSome_clause? render, Option.isSome_iff_ne_none]
  intro failed
  rw [mapM_eq_none_iff.mpr ⟨q, hq, failed⟩] at h
  cases h

theorem renderedParts_refined {ps : List Ty} {ds : List SymbolId} {members : List Tree}
    (h : ds.mapM (W.member? render) = some members) : W.renderedParts (.refined ps ds) = ps := by
  refine if_pos (List.all_eq_true.mpr fun d hd => ?_)
  rw [← W.isSome_member? render, Option.isSome_iff_ne_none]
  intro failed
  rw [mapM_eq_none_iff.mpr ⟨d, hd, failed⟩] at h
  cases h

theorem mem_sources_refined {ps : List Ty} {ds : List SymbolId} {d p : SymbolId} (hd : d ∈ ds)
    (declarable : W.declarable d = true) (hp : p ∈ W.symbols.signature d) :
    .declared p ∈ W.rendering.sources (.refined ps ds) :=
  List.mem_map_of_mem (List.mem_flatMap.mpr ⟨d, List.mem_filter.mpr ⟨hd, declarable⟩, hp⟩)

/-- The written form of a type depends on how other types are written only where these become part
of it. -/
theorem writtenWith_congr {deeper deeper' : Ty → Ty → Tree} {t : Ty}
    (h : ∀ x, W.rendering.Visits t x → ∀ k ∈ W.rendering.sources x, ∀ u ∈ W.rendering.drawn k,
      ∀ shown, deeper shown u = deeper' shown u) (shown : Ty) :
    W.writtenWith deeper shown t = W.writtenWith deeper' shown t := by
  induction t using W.rendering.parts_induct generalizing shown with
  | step t ih =>
    have inside {p : Ty} (hp : p ∈ W.renderedParts t) (shown : Ty) :
        W.writtenWith deeper shown p = W.writtenWith deeper' shown p :=
      ih p hp (fun x hx => h x (.head hp hx)) shown
    have here := h t .refl
    have lists (ts : List Ty) (hts : ∀ p ∈ ts, p ∈ W.renderedParts t) :
        W.writtenAllWith deeper ts = W.writtenAllWith deeper' ts := by
      rw [writtenAllWith_eq_map, writtenAllWith_eq_map]
      exact List.map_congr_left fun p hp => inside (hts p hp) p
    cases t with
    | ref pre s args =>
      simp only [writtenWith]
      cases expands : W.symbols.expansion? s with
      | some u =>
        exact here (.expanded s) (by simp [rendering, expands]) u (by simp [rendering, expands])
          shown
      | none =>
        have parts : W.renderedParts (.ref pre s args) = pre :: args := by
          simp [renderedParts, expands]
        rw [inside (parts ▸ by simp), lists args fun p hp => parts ▸ List.mem_cons_of_mem _ hp]
    | single pre s =>
      rw [writtenWith, writtenWith, inside (by simp [renderedParts])]
    | bounds lo hi =>
      have lower : ¬ lo.same W.builtins.nothingType = true →
          W.writtenWith deeper lo lo = W.writtenWith deeper' lo lo :=
        fun low => inside (by simp [renderedParts, low]) lo
      have upper : ¬ hi.same W.builtins.anyType = true →
          W.writtenWith deeper hi hi = W.writtenWith deeper' hi hi :=
        fun high => inside (by simp [renderedParts, high]) hi
      rw [writtenWith, writtenWith, ite_congr rfl (fun _ => rfl) lower,
        ite_congr rfl (fun _ => rfl) upper]
    | existential qs u =>
      have clauses : qs.mapM (W.clause? fun t => deeper t t) =
          qs.mapM (W.clause? fun t => deeper' t t) := by
        refine mapM_congr fun q hq => W.clause?_congr fun v hv => ?_
        exact here (.quantified q) (List.mem_map_of_mem hq) v (by simp [rendering, hv]) v
      rw [writtenWith, writtenWith, clauses]
      split
      next written =>
        rw [inside (W.renderedParts_existential written ▸ List.mem_singleton_self u)]
      next => rfl
    | refined ps ds =>
      have members : ds.mapM (W.member? fun t => deeper t t) =
          ds.mapM (W.member? fun t => deeper' t t) := by
        refine mapM_congr fun d hd => ?_
        cases declarable : W.declarable d with
        | true =>
          refine W.member?_congr fun p hp v hv => ?_
          exact here (.declared p) (W.mem_sources_refined hd declarable hp) v hv v
        | false =>
          have failed (render : Ty → Tree) : W.member? render d = none := by
            rw [← Option.not_isSome_iff_eq_none, isSome_member?, declarable]
            exact Bool.false_ne_true
          rw [failed, failed]
      rw [writtenWith, writtenWith, members]
      split
      next written => rw [lists ps fun p hp => W.renderedParts_refined written ▸ hp]
      next => rfl
    | _ => simp only [writtenWith]

theorem mem_found_of_mem_drawn {k : Lookup} {u : Ty} (h : u ∈ W.rendering.drawn k) :
    u ∈ W.symbols.found k := by
  cases k with
  | quantified s =>
    obtain ⟨lo, hi, info, same⟩ := W.quantifiable?_eq_some (Option.mem_toList.mp h)
    simpa [SymbolTable.found, info] using same
  | _ => exact h

/-- Only types that are spelled or looked up become part of a written form. -/
theorem rendering_ends {t : Ty} (ends : W.symbols.writing.Ends t) : W.rendering.Ends t := by
  refine ends.of_sub (fun x p hp => ?_) (fun x k hk => ?_) fun k u => W.mem_found_of_mem_drawn
  · change p ∈ W.renderedParts x at hp
    change p ∈ W.symbols.spelled x
    cases x <;> simp only [renderedParts, SymbolTable.spelled] at hp ⊢ <;> grind
  · cases x with
    | refined ps ds =>
      obtain ⟨q, hq, rfl⟩ := List.mem_map.mp hk
      obtain ⟨d, hd, hq⟩ := List.mem_flatMap.mp hq
      exact List.mem_map_of_mem (List.mem_flatMap.mpr ⟨d, (List.mem_filter.mp hd).1, hq⟩)
    | _ => exact hk

/-- The written form of a type that stands for another one, shown if there is no written form. -/
def writtenAs (shown t : Ty) : Tree := W.writtenWithin (3 * W.symbols.bound) shown t

/-- Where writing a type comes to an end, the types that are looked up for it are written like
types of their own. -/
theorem writtenAs_unfold {t : Ty} (ends : W.rendering.Ends t) (shown : Ty) :
    W.writtenAs shown t = W.writtenWith W.writtenAs shown t := by
  have stable := Descent.Ends.within_succ (D := W.rendering)
    (fun _ _ hu => W.symbols.mem_known (W.mem_found_of_mem_drawn hu)) W.symbols.card_known_lt
    (fun n t shown => W.writtenWithin n shown t)
    (fun m n t h => funext fun shown => W.writtenWith_congr
      (fun x hx k hk u hu shown => congrFun (h x hx k hk u hu) shown) shown) ends
  exact congrFun stable shown

theorem writtenAs_eq {t : Ty} (ends : W.symbols.writing.Ends t) (shown : Ty) :
    W.writtenAs shown t = W.writtenWith W.writtenAs shown t :=
  W.writtenAs_unfold (W.rendering_ends ends) shown

variable {W}

theorem writtenWith_part {t p : Ty} (ends : W.symbols.writing.Ends t)
    (hp : p ∈ W.symbols.spelled t) :
    W.writtenWith W.writtenAs p p = W.writtenType p :=
  (W.writtenAs_eq (ends.of_visits (.single hp)) p).symm

theorem writtenAllWith_parts {t : Ty} {ps : List Ty} (ends : W.symbols.writing.Ends t)
    (hps : ∀ p ∈ ps, p ∈ W.symbols.spelled t) :
    W.writtenAllWith W.writtenAs ps = ps.map W.writtenType := by
  rw [writtenAllWith_eq_map]
  exact List.map_congr_left fun p hp => writtenWith_part ends (hps p hp)

theorem writtenType_this {s : SymbolId} (ends : W.symbols.writing.Ends (.this s)) :
    W.writtenType (.this s) =
      if W.isPlainClass (some s) then .bare (.this (W.nameOf s).toType) else W.path s := by
  have unfolded := W.writtenAs_eq ends (.this s)
  rwa [writtenWith] at unfolded

theorem writtenType_ref {pre : Ty} {s : SymbolId} {args : List Ty}
    (ends : W.symbols.writing.Ends (.ref pre s args)) (plain : W.symbols.expansion? s = none) :
    W.writtenType (.ref pre s args) =
      W.referenceTree pre (W.writtenType pre) s (args.map W.writtenType) := by
  have spelled : W.symbols.spelled (.ref pre s args) = pre :: args := by
    simp [SymbolTable.spelled, plain]
  have qualifier := writtenWith_part ends (p := pre) (spelled ▸ List.mem_cons_self ..)
  have arguments : W.writtenAllWith W.writtenAs args = args.map W.writtenType :=
    writtenAllWith_parts ends fun p hp => spelled ▸ List.mem_cons_of_mem _ hp
  have unfolded := W.writtenAs_eq ends (.ref pre s args)
  simp only [writtenWith, plain, qualifier, arguments] at unfolded
  exact unfolded

theorem writtenType_single {pre : Ty} {s : SymbolId}
    (ends : W.symbols.writing.Ends (.single pre s)) :
    W.writtenType (.single pre s) = W.singletonTree pre (W.writtenType pre) s := by
  have qualifier := writtenWith_part ends (p := pre) (List.mem_singleton.mpr rfl)
  have unfolded := W.writtenAs_eq ends (.single pre s)
  rwa [writtenWith, qualifier] at unfolded

theorem writtenType_bounds {lo hi : Ty} (ends : W.symbols.writing.Ends (.bounds lo hi)) :
    W.writtenType (.bounds lo hi) =
      .bare (.typeBounds
        (if lo.same W.builtins.nothingType then .empty else W.writtenType lo)
        (if hi.same W.builtins.anyType then .empty else W.writtenType hi)) := by
  have lower := writtenWith_part ends (p := lo) (List.mem_pair.mpr (.inl rfl))
  have upper := writtenWith_part ends (p := hi) (List.mem_pair.mpr (.inr rfl))
  have unfolded := W.writtenAs_eq ends (.bounds lo hi)
  rwa [writtenWith, lower, upper] at unfolded

end Setting

end TreeRepair
