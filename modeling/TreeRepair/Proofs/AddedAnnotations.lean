import TreeRepair.Checked.Repair
import TreeRepair.Proofs.Same

namespace TreeRepair

/-- At this place of a list stands a tree that is not the same as any before it, or as any of those
that are present. -/
def NewAt (present source : List Tree) (k : Nat) : Prop :=
  ∃ a, source[k]? = some a ∧ ∀ b ∈ present ++ source.take k, b.same a = false

/-- The trees of a list that stand at new places, and these places, from left to right. -/
structure NewOnes (present source : List Tree) (places : List Nat) (added : List Tree) : Prop where
  sublist : added.Sublist source
  standing : List.Forall₂ (fun k a => source[k]? = some a) places added
  increasing : places.Pairwise (· < ·)
  mem_iff : ∀ k, k ∈ places ↔ NewAt present source k

section Step

variable {present source : List Tree} {a : Tree}

theorem addIfNew_of_present (h : ∃ b ∈ present, b.same a = true) :
    addIfNew present a = present := by
  simp only [addIfNew, List.any_eq_true, h, if_true]

theorem addIfNew_of_new (h : ∀ b ∈ present, b.same a = false) :
    addIfNew present a = present ++ [a] := by
  have absent : (present.any fun b => b.same a) = false := by simpa using h
  rw [addIfNew, absent]
  rfl

theorem newAt_zero : NewAt present (a :: source) 0 ↔ ∀ b ∈ present, b.same a = false := by
  simp [NewAt]

theorem newAt_succ {k : Nat} :
    NewAt present (a :: source) (k + 1) ↔ NewAt (present ++ [a]) source k := by
  simp only [NewAt, List.getElem?_cons_succ, List.take_succ_cons, List.append_assoc,
    List.singleton_append]

/-- No place stops being new because of a tree that is the same as one that is present. -/
theorem newAt_append_iff (h : ∃ b ∈ present, b.same a = true) {k : Nat} :
    NewAt (present ++ [a]) source k ↔ NewAt present source k := by
  obtain ⟨b, hb, same⟩ := h
  constructor
  · rintro ⟨c, hc, new⟩
    refine ⟨c, hc, fun d hd => new d ?_⟩
    rcases List.mem_append.mp hd with hd | hd <;> simp [hd]
  · rintro ⟨c, hc, new⟩
    refine ⟨c, hc, fun d hd => ?_⟩
    rw [List.append_assoc, List.singleton_append, List.mem_append, List.mem_cons] at hd
    rcases hd with hd | rfl | hd
    · exact new d (List.mem_append_left _ hd)
    · have apart := new b (List.mem_append_left _ hb)
      rwa [Tree.same_congr same (Tree.same_refl c)] at apart
    · exact new d (List.mem_append_right _ hd)

end Step

namespace NewOnes

variable {present source added : List Tree} {places : List Nat} {a : Tree}

theorem nil (present : List Tree) : NewOnes present [] [] [] where
  sublist := .slnil
  standing := .nil
  increasing := .nil
  mem_iff := by simp [NewAt]

theorem increasing_succ (h : NewOnes present source places added) :
    (places.map (· + 1)).Pairwise (· < ·) :=
  List.pairwise_map.mpr (h.increasing.imp fun less => Nat.succ_lt_succ less)

/-- A tree that is the same as one that is present is passed over. -/
theorem skip (found : ∃ b ∈ present, b.same a = true) (h : NewOnes present source places added) :
    NewOnes present (a :: source) (places.map (· + 1)) added where
  sublist := h.sublist.cons a
  standing := List.forall₂_map_left_iff.mpr h.standing
  increasing := h.increasing_succ
  mem_iff k := by
    cases k with
    | zero =>
      obtain ⟨b, hb, same⟩ := found
      have notNew : ¬ NewAt present (a :: source) 0 := fun new => by
        simp [newAt_zero.mp new b hb] at same
      simp [notNew]
    | succ k => simp [newAt_succ, newAt_append_iff found, h.mem_iff]

theorem take (fresh : ∀ b ∈ present, b.same a = false)
    (h : NewOnes (present ++ [a]) source places added) :
    NewOnes present (a :: source) (0 :: places.map (· + 1)) (a :: added) where
  sublist := h.sublist.cons_cons a
  standing := .cons rfl (List.forall₂_map_left_iff.mpr h.standing)
  increasing := List.pairwise_cons.mpr ⟨by simp, h.increasing_succ⟩
  mem_iff k := by
    cases k with
    | zero => simpa [newAt_zero] using fresh
    | succ k => simp [newAt_succ, h.mem_iff]

/-- Of the trees that are present and those that are new, no new one is the same as one before. -/
theorem apart (h : NewOnes present source places added) {before after : List Tree}
    (split : added = before ++ a :: after) : ∀ b ∈ present ++ before, b.same a = false := by
  have standing := h.standing
  rw [split] at standing
  obtain ⟨k, later, place, -, hk⟩ :=
    List.forall₂_cons_right_iff.mp (List.forall₂_drop_append _ _ _ standing)
  have increasing := h.increasing
  rw [← List.take_append_drop before.length places, hk, List.pairwise_append] at increasing
  obtain ⟨c, hc, new⟩ := (h.mem_iff k).mp (List.mem_of_mem_drop (hk ▸ List.mem_cons_self))
  obtain rfl := Option.some.inj (place.symm.trans hc)
  intro b hb
  rcases List.mem_append.mp hb with hb | hb
  · exact new b (List.mem_append_left _ hb)
  · -- a tree that was added earlier stands further to the left
    obtain ⟨n, hn, rfl⟩ := List.mem_iff_getElem.mp hb
    have earlier := List.forall₂_iff_get.mp (List.forall₂_take_append _ _ _ standing)
    have hn' : n < (places.take before.length).length := Nat.lt_of_lt_of_eq hn earlier.1.symm
    have left := increasing.2.2 _ (List.getElem_mem hn') k List.mem_cons_self
    have taken := (List.getElem?_take_of_lt left).trans (earlier.2 n hn' hn)
    exact new _ (List.mem_append_right _ (List.mem_of_getElem? taken))

end NewOnes

/-- Adding annotations one by one keeps those that are present, and appends the new ones. -/
theorem foldl_addIfNew_eq (present source : List Tree) :
    ∃ places added, source.foldl addIfNew present = present ++ added ∧
      NewOnes present source places added := by
  induction source generalizing present with
  | nil => exact ⟨[], [], by simp, .nil present⟩
  | cons a source ih =>
    rw [List.foldl_cons]
    by_cases found : ∃ b ∈ present, b.same a = true
    · obtain ⟨places, added, merged, new⟩ := ih present
      rw [addIfNew_of_present found]
      exact ⟨_, added, merged, new.skip found⟩
    · have fresh : ∀ b ∈ present, b.same a = false := by simpa using found
      obtain ⟨places, added, merged, new⟩ := ih (present ++ [a])
      rw [addIfNew_of_new fresh, merged, List.append_assoc, List.singleton_append]
      exact ⟨_, _, rfl, new.take fresh⟩

section Run

variable {present source : List Tree} {a : Tree}

theorem mem_foldl_addIfNew (h : a ∈ source.foldl addIfNew present) :
    a ∈ present ∨ a ∈ source := by
  obtain ⟨places, added, merged, new⟩ := foldl_addIfNew_eq present source
  rw [merged] at h
  exact (List.mem_append.mp h).imp_right fun ha => new.sublist.subset ha

theorem mem_foldl_addIfNew_of_mem (h : a ∈ present) :
    a ∈ source.foldl addIfNew present := by
  obtain ⟨places, added, merged, -⟩ := foldl_addIfNew_eq present source
  rw [merged]
  exact List.mem_append_left _ h

theorem exists_same_foldl_addIfNew (h : a ∈ source) :
    ∃ b ∈ source.foldl addIfNew present, b.same a = true := by
  induction source generalizing present with
  | nil => simp at h
  | cons c source ih =>
    rcases List.mem_cons.mp h with rfl | later
    · have found : ∃ b ∈ addIfNew present a, b.same a = true := by
        unfold addIfNew
        split
        next there => simpa using there
        next => exact ⟨a, by simp, a.same_refl⟩
      obtain ⟨b, hb, same⟩ := found
      rw [List.foldl_cons]
      exact ⟨b, mem_foldl_addIfNew_of_mem hb, same⟩
    · exact ih later

theorem foldl_addIfNew_of_present (h : ∀ a ∈ source, ∃ b ∈ present, b.same a = true) :
    source.foldl addIfNew present = present := by
  induction source with
  | nil => rfl
  | cons a source ih =>
    rw [List.foldl_cons, addIfNew_of_present (h a (by simp))]
    exact ih fun b hb => h b (by simp [hb])

theorem present_of_length_foldl_addIfNew
    (h : (source.foldl addIfNew present).length = present.length) :
    ∀ a ∈ source, ∃ b ∈ present, b.same a = true := by
  obtain ⟨places, added, merged, -⟩ := foldl_addIfNew_eq present source
  obtain rfl : added = [] := by
    rw [merged, List.length_append] at h
    exact List.length_eq_zero_iff.mp (by omega)
  intro a ha
  have found : ∃ b ∈ source.foldl addIfNew present, b.same a = true :=
    exists_same_foldl_addIfNew ha
  rwa [merged, List.append_nil] at found

end Run

theorem addAnnotations_eq_foldl (declared : List Tree) (recorded : List (List Tree)) :
    addAnnotations declared recorded = recorded.flatten.foldl addIfNew declared := by
  rw [addAnnotations, List.foldl_flatten]

theorem mem_addAnnotations {declared : List Tree} {recorded : List (List Tree)} {a : Tree}
    (h : a ∈ addAnnotations declared recorded) : a ∈ declared ∨ ∃ l ∈ recorded, a ∈ l := by
  rw [addAnnotations_eq_foldl] at h
  have taken := mem_foldl_addIfNew h
  exact taken.imp_right List.mem_flatten.mp

/-- Adding the same annotations again adds nothing. -/
theorem addAnnotations_idem (declared : List Tree) (recorded : List (List Tree)) :
    addAnnotations (addAnnotations declared recorded) recorded =
      addAnnotations declared recorded := by
  rw [addAnnotations_eq_foldl, addAnnotations_eq_foldl]
  exact foldl_addIfNew_of_present fun a ha => exists_same_foldl_addIfNew ha

/-- What one step adds is the same for trees that are the same. -/
theorem forall₂_addIfNew {present present' : List Tree}
    (h : List.Forall₂ (fun c d => c.same d = true) present present') {a a' : Tree}
    (same : a.same a' = true) :
    List.Forall₂ (fun c d => c.same d = true) (addIfNew present a)
      (addIfNew present' a') := by
  have found : (present.any fun b => b.same a) = present'.any fun b => b.same a' := by
    induction h with
    | nil => rfl
    | cons here _ ih => rw [List.any_cons, List.any_cons, ih, Tree.same_congr here same]
  unfold addIfNew
  rw [found]
  split
  · exact h
  · exact List.rel_append h (.cons same .nil)

/-- Trees that are the same may stand for one another when annotations are merged. -/
theorem forall₂_addAnnotations {declared declared' : List Tree}
    {recorded recorded' : List (List Tree)}
    (h : List.Forall₂ (fun c d => c.same d = true) declared declared')
    (k : List.Forall₂ (List.Forall₂ fun c d => c.same d = true) recorded recorded') :
    List.Forall₂ (fun c d => c.same d = true) (addAnnotations declared recorded)
      (addAnnotations declared' recorded') := by
  rw [addAnnotations_eq_foldl, addAnnotations_eq_foldl]
  have sources := List.rel_flatten k
  exact List.rel_foldl (P := List.Forall₂ fun c d : Tree => c.same d = true)
    (R := fun c d : Tree => c.same d = true)
    (fun _ _ present _ _ same => forall₂_addIfNew present same) h sources

end TreeRepair
