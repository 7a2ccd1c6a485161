import Mathlib.Data.Finset.Card
import Mathlib.Logic.Relation
import TreeRepair.Descent

namespace TreeRepair

open Relation

/-- Where each step leads to a lower rank, nothing leads back to itself. -/
theorem not_transGen_self_of_rank {K : Type} {r : K → K → Prop} (rank : K → Nat)
    (lower : ∀ j k, r j k → rank j < rank k) (k : K) : ¬ TransGen r k k := by
  intro loop
  have descending : TransGen (· < ·) (rank k) (rank k) := loop.lift rank lower
  rw [transGen_eq_self] at descending
  exact Nat.lt_irrefl _ descending

namespace Descent

variable {X K : Type} (D : Descent X K)

/-- What a recursion comes to without using a source. -/
def Visits : X → X → Prop := ReflTransGen fun t p => p ∈ D.parts t

/-- What a recursion comes to, with all that its sources give. -/
def Comes : X → X → Prop :=
  ReflTransGen fun t y => y ∈ D.parts t ∨ ∃ k ∈ D.sources t, y ∈ D.drawn k

/-- What one source gives makes use of another source. -/
def LeadsTo (j k : K) : Prop := ∃ y ∈ D.drawn k, ∃ x, D.Visits y x ∧ j ∈ D.sources x

/-- No source that the recursion uses leads back to itself. -/
def Ends (t : X) : Prop := ∀ x, D.Visits t x → ∀ k ∈ D.sources x, Acc D.LeadsTo k

theorem parts_induct {motive : X → Prop}
    (step : ∀ t, (∀ p ∈ D.parts t, motive p) → motive t) (t : X) : motive t :=
  D.smaller.induction t step

variable {D}

theorem Visits.eq_of_parts_nil {t x : X} (h : D.Visits t x) (leaf : D.parts t = []) : x = t := by
  rcases h.cases_head with rfl | ⟨p, hp, -⟩
  · rfl
  · rw [leaf] at hp
    exact absurd hp List.not_mem_nil

theorem Visits.comes {t x : X} (h : D.Visits t x) : D.Comes t x :=
  ReflTransGen.mono (fun _ _ => .inl) t x h

theorem Comes.drawn {t x y : X} {k : K} (h : D.Comes t x) (hk : k ∈ D.sources x)
    (hy : y ∈ D.drawn k) : D.Comes t y :=
  h.tail (.inr ⟨k, hk, hy⟩)

theorem Ends.of_visits {t x : X} (h : D.Ends t) (hx : D.Visits t x) : D.Ends x :=
  fun y hy => h y (hx.trans hy)

theorem Ends.of_drawn {t y : X} {k : K} (h : D.Ends t) (hk : k ∈ D.sources t)
    (hy : y ∈ D.drawn k) : D.Ends y :=
  fun x hx _ hj => (h t .refl k hk).inv ⟨y, hy, x, hx, hj⟩

/-- A recursion ends where it ends in the parts and in what the sources give. -/
theorem Ends.intro {t : X} (parts : ∀ p ∈ D.parts t, D.Ends p)
    (drawn : ∀ k ∈ D.sources t, ∀ y ∈ D.drawn k, D.Ends y) : D.Ends t := by
  intro x visited k hk
  rcases visited.cases_head with rfl | ⟨p, hp, further⟩
  · exact ⟨k, fun j ⟨y, hy, z, below, hj⟩ => drawn k hk y hy z below j hj⟩
  · exact parts p hp x further k hk

/-- Where a recursion ends, what is handed on from its parts and from what its sources give holds
of everything. -/
theorem Ends.induct {motive : X → Prop}
    (step : ∀ x, D.Ends x → (∀ p ∈ D.parts x, motive p) →
      (∀ k ∈ D.sources x, ∀ y ∈ D.drawn k, motive y) → motive x) {t : X} (h : D.Ends t) :
    motive t := by
  have inside (u : X) (ends : D.Ends u)
      (drawn : ∀ x, D.Visits u x → ∀ k ∈ D.sources x, ∀ y ∈ D.drawn k, motive y) : motive u := by
    induction u using D.parts_induct with
    | step u ih =>
      refine step u ends (fun p hp => ?_) (drawn u .refl)
      exact ih p hp (ends.of_visits (.single hp)) fun x hx => drawn x (.head hp hx)
  have drawn (k : K) (acc : Acc D.LeadsTo k) : ∀ y ∈ D.drawn k, motive y := by
    induction acc with
    | intro k acc ih =>
      intro y hy
      refine inside y (fun x hx j hj => acc j ⟨y, hy, x, hx, hj⟩) fun x hx j hj => ?_
      exact ih j ⟨y, hy, x, hx, hj⟩
  exact inside t h fun x hx k hk => drawn k (h x hx k hk)

theorem Ends.of_comes {t x : X} (h : D.Ends t) (hx : D.Comes t x) : D.Ends x := by
  induction hx with
  | refl => exact h
  | tail _ step ih =>
    rcases step with part | ⟨k, hk, hy⟩
    · exact ih.of_visits (.single part)
    · exact ih.of_drawn hk hy

/-- A recursion that goes on in less ends where the other one does. -/
theorem Ends.of_sub {D' : Descent X K} {t : X} (h : D.Ends t)
    (parts : ∀ x, ∀ p ∈ D'.parts x, p ∈ D.parts x)
    (sources : ∀ x, ∀ k ∈ D'.sources x, k ∈ D.sources x)
    (drawn : ∀ k, ∀ y ∈ D'.drawn k, y ∈ D.drawn k) : D'.Ends t := by
  refine Ends.induct (D := D) (motive := D'.Ends) ?_ h
  intro x _ inside given
  exact .intro (fun p hp => inside p (parts x p hp))
    fun k hk y hy => given k (sources x k hk) y (drawn k y hy)

theorem ends_of_leaf {t : X} (parts : D.parts t = []) (sources : D.sources t = []) : D.Ends t :=
  .intro (by simp [parts]) (by simp [sources])

/-- If nothing that is drawn on has parts or sources of its own, every recursion ends. -/
theorem ends_of_drawn_leaves
    (leaves : ∀ k, ∀ y ∈ D.drawn k, D.parts y = [] ∧ D.sources y = []) (t : X) : D.Ends t := by
  refine fun x _ k _ => ⟨k, fun j ⟨y, hy, z, visited, hj⟩ => ?_⟩
  obtain ⟨parts, sources⟩ := leaves k y hy
  exact ends_of_leaf parts sources z visited j hj

theorem not_leadsTo_self {k : K} (h : Acc D.LeadsTo k) : ¬ TransGen D.LeadsTo k k := by
  have acc := h.transGen
  clear h
  induction acc with
  | intro k _ ih => exact fun loop => ih k loop loop

/-- A recursion that uses a source which leads back to itself does not end. -/
theorem not_ends_of_loop {t : X} {k : K} (used : k ∈ D.sources t) (loop : D.LeadsTo k k) :
    ¬ D.Ends t :=
  fun ends => not_leadsTo_self (ends t .refl k used) (.single loop)

theorem along_leadsTo {next : K → List K} {j k : K} : (along next).LeadsTo j k ↔ j ∈ next k := by
  constructor
  · rintro ⟨y, hy, x, visited, hj⟩
    obtain rfl := visited.eq_of_parts_nil rfl
    obtain rfl : j = x := List.mem_singleton.mp hj
    exact hy
  · intro hj
    exact ⟨j, hj, j, .refl, List.mem_singleton.mpr rfl⟩

theorem passesWith_iff {check deeper : X → Bool} {t : X} :
    D.passesWith check deeper t = true ↔ ∀ x, D.Visits t x → check x = true ∧
      ∀ k ∈ D.sources x, ∀ y ∈ D.drawn k, deeper y = true := by
  induction t using D.parts_induct with
  | step t ih =>
    rw [passesWith]
    simp only [Bool.and_eq_true, List.all_eq_true, List.mem_attach, forall_const, Subtype.forall]
    constructor
    · rintro ⟨⟨here, parts⟩, drawn⟩ x visited
      rcases visited.cases_head with rfl | ⟨p, hp, further⟩
      · exact ⟨here, drawn⟩
      · exact (ih p hp).mp (parts p hp) x further
    · intro all
      refine ⟨⟨(all t .refl).1, fun p hp => ?_⟩, (all t .refl).2⟩
      exact (ih p hp).mpr fun x further => all x (.head hp further)

/-- Where a check passes within some depth, it passes on all that the recursion comes to. -/
theorem passesWithin_of_comes {check : X → Bool} {t x : X} {n : Nat}
    (passed : D.passesWithin check n t = true) (comes : D.Comes t x) :
    ∃ m, D.passesWithin check m x = true := by
  induction comes with
  | refl => exact ⟨n, passed⟩
  | tail _ step ih =>
    obtain ⟨m, passed⟩ := ih
    cases m with
    | zero => cases passed
    | succ m =>
      have visited := passesWith_iff.mp passed
      rcases step with part | ⟨k, hk, hy⟩
      · exact ⟨m + 1, passesWith_iff.mpr fun x further => visited x (.head part further)⟩
      · exact ⟨m, (visited _ .refl).2 k hk _ hy⟩

theorem check_of_passesWithin {check : X → Bool} {t : X} {n : Nat}
    (passed : D.passesWithin check n t = true) : check t = true := by
  cases n with
  | zero => cases passed
  | succ n => exact (passesWith_iff.mp passed t .refl).1

theorem ends_of_passesWithin {check : X → Bool} {t : X} {n : Nat}
    (passed : D.passesWithin check n t = true) : D.Ends t := by
  induction n generalizing t with
  | zero => cases passed
  | succ n ih =>
    intro x visited k hk
    have drawn := (passesWith_iff.mp passed x visited).2 k hk
    exact ⟨k, fun j ⟨y, hy, z, below, hj⟩ => ih (drawn y hy) z below j hj⟩

section Finite

variable [DecidableEq K]

/-- Among finitely many sources, one from which no source leads back to itself comes to an end. -/
theorem acc_of_acyclic (S : Finset K) {k : K} (acyclic : ∀ j, ¬ TransGen D.LeadsTo j j)
    (below : ∀ j, ReflTransGen D.LeadsTo j k → (∃ y, y ∈ D.drawn j) → j ∈ S) :
    Acc D.LeadsTo k := by
  induction hn : S.card generalizing S k with
  | zero =>
    refine ⟨k, fun j ⟨y, hy, _⟩ => ?_⟩
    have := Finset.card_eq_zero.mp hn ▸ below k .refl ⟨y, hy⟩
    simp at this
  | succ n ih =>
    refine ⟨k, fun j leads => ?_⟩
    have used : k ∈ S := below k .refl (leads.imp fun _ h => h.1)
    have card := Finset.card_erase_add_one used
    refine ih (S.erase k) (fun l hl drawn => ?_) (by omega)
    refine Finset.mem_erase.mpr ⟨?_, below l (hl.tail leads) drawn⟩
    rintro rfl
    exact acyclic l (TransGen.tail' hl leads)

/-- Sources that are used below each other are all different, so that their number bounds how deep
a recursion goes. -/
theorem holds_within {P : Nat → X → Prop}
    (step : ∀ n t, (∀ x, D.Visits t x → ∀ k ∈ D.sources x, ∀ y ∈ D.drawn k, P n y) → P (n + 1) t)
    {k : K} (acc : Acc D.LeadsTo k) (S : Finset K)
    (below : ∀ j, ReflTransGen D.LeadsTo j k → (∃ y, y ∈ D.drawn j) → j ∈ S) {n : Nat}
    (hn : S.card ≤ n) {y : X} (hy : y ∈ D.drawn k) : P n y := by
  induction acc generalizing S n y with
  | intro k acc ih =>
    have used : k ∈ S := below k .refl ⟨y, hy⟩
    have card := Finset.card_erase_add_one used
    obtain ⟨n, rfl⟩ : ∃ i, n = i + 1 := ⟨n - 1, by omega⟩
    refine step n y fun x hx j hj z hz => ?_
    have leads : D.LeadsTo j k := ⟨y, hy, x, hx, hj⟩
    -- no source leads back to itself, so below this one it is not needed any more
    refine ih j leads (S.erase k) (fun l hl drawn => ?_) (by omega) hz
    refine Finset.mem_erase.mpr ⟨?_, below l (hl.tail leads) drawn⟩
    rintro rfl
    exact not_leadsTo_self ⟨l, acc⟩ (TransGen.tail' hl leads)

/-- Where none leads back to itself, going on from one to the next comes to an end. -/
theorem along_ends {next : K → List K} {S : Finset K} (known : ∀ k, ∀ j ∈ next k, k ∈ S)
    (acyclic : ∀ k, ¬ TransGen (fun j k => j ∈ next k) k k) (k : K) : (along next).Ends k := by
  intro x _ j _
  have irreflexive (l : K) : ¬ TransGen (along next).LeadsTo l l := fun loop =>
    acyclic l (TransGen.mono (fun _ _ => along_leadsTo.mp) l l loop)
  exact acc_of_acyclic S irreflexive fun l _ ⟨y, hy⟩ => known l y hy

variable {S : Finset K} (known : ∀ k y, y ∈ D.drawn k → k ∈ S) {t : X} {n : Nat} (hn : S.card < n)
include known hn

theorem Ends.holds {P : Nat → X → Prop}
    (step : ∀ n t, (∀ x, D.Visits t x → ∀ k ∈ D.sources x, ∀ y ∈ D.drawn k, P n y) → P (n + 1) t)
    (ends : D.Ends t) : P n t := by
  obtain ⟨n, rfl⟩ : ∃ i, n = i + 1 := ⟨n - 1, by omega⟩
  refine step n t fun x hx k hk y hy => ?_
  exact holds_within step (ends x hx k hk) S (fun j _ ⟨z, hz⟩ => known j z hz) (by omega) hy

/-- One more level changes nothing once there are more levels than sources. -/
theorem Ends.within_succ {Y : Type} (within : Nat → X → Y)
    (congr : ∀ m n t, (∀ x, D.Visits t x → ∀ k ∈ D.sources x, ∀ y ∈ D.drawn k,
      within m y = within n y) → within (m + 1) t = within (n + 1) t) (ends : D.Ends t) :
    within n t = within (n + 1) t :=
  ends.holds known hn (P := fun n t => within n t = within (n + 1) t) fun n t => congr n (n + 1) t

/-- With more levels than sources it is found out whether a recursion ends. -/
theorem passesWithin_iff {check : X → Bool} :
    D.passesWithin check n t = true ↔ D.Ends t ∧ ∀ x, D.Comes t x → check x = true := by
  constructor
  · intro passed
    refine ⟨ends_of_passesWithin passed, fun x comes => ?_⟩
    obtain ⟨m, passed⟩ := passesWithin_of_comes passed comes
    exact check_of_passesWithin passed
  · rintro ⟨ends, checked⟩
    refine ends.holds known hn (P := fun n t =>
      (∀ x, D.Comes t x → check x = true) → D.passesWithin check n t = true) ?_ checked
    intro n t drawn checked
    refine passesWith_iff.mpr fun x visited => ⟨checked x visited.comes, fun k hk y hy => ?_⟩
    exact drawn x visited k hk y hy fun z further =>
      checked z ((visited.comes.drawn hk hy).trans further)

theorem endsWithin_iff : D.endsWithin n t = true ↔ D.Ends t := by
  simp [endsWithin, passesWithin_iff known hn]

end Finite

end Descent

end TreeRepair
