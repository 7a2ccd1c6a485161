import TreeRepair.Proofs.OwnerPaths
import TreeRepair.Type.Lookup

namespace TreeRepair.SymbolTable

variable {T : SymbolTable}

/-- The class or type that a type denotes: that of an alias is the one of what it stands for, and
that of a value is its module class or the one of its type. -/
inductive Denotes (T : SymbolTable) : Ty → SymbolId → Prop
  | expanded {pre u : Ty} {s c : SymbolId} {args : List Ty} (expands : T.expansion? s = some u)
      (further : Denotes T u c) : Denotes T (.ref pre s args) c
  | ref {pre : Ty} {s : SymbolId} {args : List Ty} (plain : T.expansion? s = none) :
      Denotes T (.ref pre s args) s
  | this {s : SymbolId} : Denotes T (.this s) s
  | ofModule {pre : Ty} {v c : SymbolId} (known : (T.get v).moduleClass = some c) :
      Denotes T (.single pre v) c
  | ofValue {pre u : Ty} {v c : SymbolId} (unknown : (T.get v).moduleClass = none)
      (info : (T.get v).info = some u) (further : Denotes T u c) : Denotes T (.single pre v) c
  | existential {qs : List SymbolId} {u : Ty} {c : SymbolId} (underlying : Denotes T u c) :
      Denotes T (.existential qs u) c

theorem info_of_expansion {s : SymbolId} {u : Ty} (h : T.expansion? s = some u) :
    (T.get s).info = some u := by
  unfold expansion? at h
  split at h
  · exact h
  · cases h

theorem denoting_ends_of_info {t u : Ty} {s : SymbolId} (leaf : T.denoting.parts t = [])
    (source : ∀ k ∈ T.denoting.sources t, k = s) (info : (T.get s).info = some u)
    (ends : T.denoting.Ends u) : T.denoting.Ends t := by
  refine .intro (by simp [leaf]) fun k hk y hy => ?_
  obtain rfl := source k hk
  obtain rfl : y = u := by simpa [denoting, info] using hy
  exact ends

/-- The search for what a type denotes ends where there is something to find. -/
theorem Denotes.ends {t : Ty} {c : SymbolId} (h : T.Denotes t c) : T.denoting.Ends t := by
  induction h with
  | expanded expands _ ih =>
    exact denoting_ends_of_info rfl (by simp [denoting, expands]) (info_of_expansion expands) ih
  | ref plain => exact .intro (by simp [denoting]) (by simp [denoting, plain])
  | this => exact .intro (by simp [denoting]) (by simp [denoting])
  | ofModule known => exact .intro (by simp [denoting]) (by simp [denoting, known])
  | ofValue unknown info _ ih =>
    exact denoting_ends_of_info rfl (by simp [denoting, unknown]) info ih
  | existential _ ih => exact .intro (by simpa [denoting] using ih) (by simp [denoting])

theorem denotes_of_denotedWith {deeper : Ty → Option SymbolId} {t : Ty} {c : SymbolId}
    (sound : ∀ u, deeper u = some c → T.Denotes u c) (h : T.denotedWith deeper t = some c) :
    T.Denotes t c := by
  fun_induction denotedWith T deeper t with
  | case1 pre s args u expands => exact .expanded expands (sound u h)
  | case2 pre s args plain =>
    obtain rfl := Option.some.inj h
    exact .ref plain
  | case3 s =>
    obtain rfl := Option.some.inj h
    exact .this
  | case4 pre v =>
    cases known : (T.get v).moduleClass with
    | some d =>
      rw [known] at h
      obtain rfl := Option.some.inj h
      exact .ofModule known
    | none =>
      rw [known, Option.none_or] at h
      obtain ⟨u, info, found⟩ := Option.bind_eq_some_iff.mp h
      exact .ofValue known info (sound u found)
  | case5 qs u ih => exact .existential (ih h)
  | case6 => cases h

theorem denotes_of_denotedWithin {n : Nat} {t : Ty} {c : SymbolId}
    (h : T.denotedWithin n t = some c) : T.Denotes t c := by
  induction n generalizing t with
  | zero => cases h
  | succ n ih => exact denotes_of_denotedWith (fun u found => ih found) h

theorem denotedWith_congr {deeper deeper' : Ty → Option SymbolId} {t : Ty}
    (h : ∀ x, T.denoting.Visits t x → ∀ k ∈ T.denoting.sources x, ∀ y ∈ T.denoting.drawn k,
      deeper y = deeper' y) : T.denotedWith deeper t = T.denotedWith deeper' t := by
  fun_induction denotedWith T deeper t with
  | case1 pre s args u expands =>
    simp only [denotedWith, expands]
    exact h _ .refl s (by simp [denoting, expands]) u
      (by simp [denoting, info_of_expansion expands])
  | case2 pre s args plain => simp only [denotedWith, plain]
  | case3 s => rfl
  | case4 pre v =>
    rw [denotedWith]
    cases known : (T.get v).moduleClass with
    | some d => rfl
    | none =>
      cases info : (T.get v).info with
      | none => rfl
      | some u => exact h _ .refl v (by simp [denoting, known]) u (by simp [denoting, info])
  | case5 qs u ih => exact ih fun x visited => h x (.head (List.mem_singleton.mpr rfl) visited)
  | case6 t => cases t <;> simp_all [denotedWith]

theorem denoted_eq {t : Ty} (ends : T.denoting.Ends t) :
    T.denoted t = T.denotedWith T.denoted t := by
  have enough : T.listed.card < 2 * T.bound := by
    have := T.card_listed_lt
    omega
  exact Descent.Ends.within_succ (fun k y hy => mem_listed_of_info (by simpa [denoting] using hy))
    enough T.denotedWithin (fun _ _ _ same => denotedWith_congr same) ends

/-- The search for what a type denotes finds it wherever there is something to find. -/
theorem denoted_eq_some_iff {t : Ty} {c : SymbolId} : T.denoted t = some c ↔ T.Denotes t c := by
  refine ⟨denotes_of_denotedWithin, fun h => ?_⟩
  -- the search can be unfolded where it ends, and it ends along a derivation
  have unfolded := denoted_eq h.ends
  induction h with
  | expanded expands further ih =>
    rw [unfolded, denotedWith, expands]
    exact ih (denoted_eq further.ends)
  | ref plain => simp only [unfolded, denotedWith, plain]
  | this => exact unfolded
  | ofModule known => rw [unfolded, denotedWith, known, Option.some_or]
  | ofValue unknown info further ih =>
    rw [unfolded, denotedWith, unknown, info]
    exact ih (denoted_eq further.ends)
  | existential underlying ih =>
    have below := denoted_eq underlying.ends
    rw [unfolded, denotedWith, ← below]
    exact ih below

theorem denotes_of_expansion {pre u : Ty} {s c : SymbolId} {args : List Ty}
    (expands : T.expansion? s = some u) : T.Denotes (.ref pre s args) c ↔ T.Denotes u c := by
  refine ⟨fun h => ?_, .expanded expands⟩
  cases h with
  | expanded expands' further =>
    obtain rfl := Option.some.inj (expands.symm.trans expands')
    exact further
  | ref plain => simp [plain] at expands

theorem denotes_single_iff {pre pre' : Ty} {v c : SymbolId} :
    T.Denotes (.single pre v) c ↔ T.Denotes (.single pre' v) c := by
  constructor <;> intro h <;> cases h with
  | ofModule known => exact .ofModule known
  | ofValue unknown info further => exact .ofValue unknown info further

theorem denotes_ref_iff {pre : Ty} {s c : SymbolId} {args : List Ty}
    (plain : T.expansion? s = none) : T.Denotes (.ref pre s args) c ↔ c = s := by
  constructor
  · intro h
    cases h with
    | expanded expands => simp [plain] at expands
    | ref => rfl
  · rintro rfl
    exact .ref plain

theorem denotes_existential_iff {qs : List SymbolId} {u : Ty} {c : SymbolId} :
    T.Denotes (.existential qs u) c ↔ T.Denotes u c := by
  refine ⟨fun h => ?_, .existential⟩
  cases h with
  | existential underlying => exact underlying

end TreeRepair.SymbolTable
