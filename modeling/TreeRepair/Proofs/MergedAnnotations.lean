import TreeRepair.Proofs.AddedAnnotations
import TreeRepair.Proofs.StandardForms

namespace TreeRepair

/-- Merging keeps the declared annotations and appends those of the recorded ones that stand at a
new place, in their order. None is lost, none is there twice, and merging again changes nothing.
Annotations are the same if they have the same standard form, in which nothing is attached to a
node and constants count by their value. -/
theorem annotations_merged_once (declared : List Tree) (recorded : List (List Tree)) :
    (∃ added places,
      addAnnotations declared recorded = declared ++ added ∧
      added.Sublist recorded.flatten ∧
      (∀ before a after, added = before ++ a :: after →
        ∀ b ∈ declared ++ before, b.same a = false) ∧
      List.Forall₂ (fun k a => recorded.flatten[k]? = some a) places added ∧
      places.Pairwise (· < ·) ∧
      ∀ k, k ∈ places ↔ NewAt declared recorded.flatten k) ∧
    (∀ a ∈ recorded.flatten, ∃ b ∈ addAnnotations declared recorded, b.same a = true) ∧
    addAnnotations (addAnnotations declared recorded) recorded =
      addAnnotations declared recorded ∧
    (∀ t u : Tree, t.same u = true ↔ t.standard = u.standard) ∧
    ∀ a b : Constant, a.canonical = b.canonical ↔ a.value = b.value := by
  refine ⟨?_, ?_, addAnnotations_idem declared recorded, fun _ _ => Tree.same_iff_standard,
    fun _ _ => Constant.canonical_eq_iff⟩
  · rw [addAnnotations_eq_foldl]
    obtain ⟨places, added, merged, new⟩ := foldl_addIfNew_eq declared recorded.flatten
    exact ⟨added, places, merged, new.sublist, fun _ _ _ split => new.apart split, new.standing,
      new.increasing, new.mem_iff⟩
  · intro a ha
    rw [addAnnotations_eq_foldl]
    exact exists_same_foldl_addIfNew ha

/-- The number one, written with a point. -/
def pointedOne : Constant := .number (.finite { digits := 10, exponent := -1 })

theorem canonical_pointedOne : pointedOne.canonical = .int 1 := by decide +kernel

def switchOn : Tree := .bare (.literal (.bool true))

/-- A switch given by a constant, with the place where it was recorded. -/
def recordedSwitch (c : Constant) : Tree :=
  ⟨{ pos := { source := "switch", line := 1 } }, .literal c⟩

def switchNote (text : String) : Tree := .bare (.ident (.term text))

def switchSources : List (List Tree) :=
  [[recordedSwitch (.int 1), switchNote "a"],
    [recordedSwitch pointedOne, switchNote "b", switchNote "a"]]

theorem switchOn_same {c : Constant} (h : c.canonical = .int 1) :
    switchOn.same (recordedSwitch c) = true := by
  refine Tree.same_mk.mpr ⟨?_, .nil⟩
  rw [Shape.outline, Shape.outline, h]
  rfl

theorem switchOn_note (text : String) : switchOn.same (switchNote text) = false := by
  rw [switchOn, switchNote, Tree.bare, Tree.bare, Tree.same]
  rfl

theorem switchNote_same (text text' : String) :
    (switchNote text).same (switchNote text') = decide (text = text') := by
  rw [Bool.eq_iff_iff, switchNote, switchNote, Tree.bare, Tree.bare, Tree.same_mk]
  simp [Shape.outline, Shape.subtrees, Shape.children, Shape.written]

theorem addAnnotations_switch :
    addAnnotations [switchOn] switchSources = [switchOn, switchNote "a", switchNote "b"] := by
  have one : switchOn.same (recordedSwitch (.int 1)) = true := switchOn_same rfl
  have pointed : switchOn.same (recordedSwitch pointedOne) = true :=
    switchOn_same canonical_pointedOne
  simp [addAnnotations, addIfNew, switchSources, one, pointed, switchOn_note, switchNote_same]

/-- Of three switches that are on only the declared one stays, and a note that is recorded twice is
there once. -/
theorem switch_merged :
    addAnnotations [switchOn] switchSources = [switchOn] ++ [switchNote "a", switchNote "b"] ∧
      (∃ b ∈ addAnnotations [switchOn] switchSources, b.same (recordedSwitch pointedOne) = true) ∧
      ∀ b ∈ [switchOn, switchNote "a"], b.same (switchNote "b") = false := by
  obtain ⟨⟨added, places, merged, -, apart, -⟩, present, -⟩ :=
    annotations_merged_once [switchOn] switchSources
  have notes : added = [switchNote "a"] ++ switchNote "b" :: [] := by
    rw [addAnnotations_switch] at merged
    exact (List.cons.inj merged).2.symm
  exact ⟨addAnnotations_switch, present _ (by simp [switchSources]), apart _ _ _ notes⟩

end TreeRepair
