import TreeRepair.Cleanup.InferredTypes
import TreeRepair.Proofs.WrittenParts

namespace TreeRepair

open Relation

namespace SymbolTable

variable {T : SymbolTable} {p : Ty → Bool} {t u : Ty}

/-- Looking through a type goes on in the types inside it, and in those of its parameters. -/
def searching (T : SymbolTable) : Descent Ty SymbolId where
  parts := Ty.parts
  sources := Ty.valueParams
  drawn s := (T.get s).info.toList
  smaller := Subrelation.wf Ty.sizeOf_lt_of_mem_parts (measure sizeOf).wf

theorem searching_ends_of_parts (noParams : t.valueParams = [])
    (parts : ∀ u ∈ t.parts, T.searching.Ends u) : T.searching.Ends t :=
  .intro parts (by simp [searching, noParams])

theorem mem_components :
    u ∈ T.components t ↔ u ∈ t.parts ∨ ∃ s ∈ t.valueParams, (T.get s).info = some u := by
  cases t <;> simp [components, Ty.parts, Ty.valueParams, or_comm]

theorem occursInWith_eq_any (deeper : Ty → Bool) (ts : List Ty) :
    T.occursInWith deeper p ts = ts.any (T.occursWith deeper p) := by
  induction ts with
  | nil => rfl
  | cons t ts ih => rw [occursInWith, ih, List.any_cons]

theorem occursWith_iff {deeper : Ty → Bool} :
    T.occursWith deeper p t = true ↔ p t = true ∨ (∃ u ∈ t.parts, T.occursWith deeper p u = true) ∨
      ∃ u, (∃ s ∈ t.valueParams, (T.get s).info = some u) ∧ deeper u = true := by
  cases t with
  | method ps r =>
    simp only [occursWith, Ty.parts, Ty.valueParams, Bool.or_eq_true, List.any_eq_true,
      List.mem_filterMap, List.mem_singleton, exists_eq_left, or_assoc]
    exact or_congr_right or_comm
  | _ => simp [occursWith, occursInWith_eq_any, Ty.parts, Ty.valueParams, or_assoc]

theorem occursWith_congr {deeper deeper' : Ty → Bool}
    (h : ∀ x, T.searching.Visits t x → ∀ s ∈ x.valueParams, ∀ v ∈ (T.get s).info.toList,
      deeper v = deeper' v) : T.occursWith deeper p t = T.occursWith deeper' p t := by
  induction t using T.searching.parts_induct with
  | step t ih =>
    rw [Bool.eq_iff_iff, occursWith_iff, occursWith_iff]
    refine or_congr_right (or_congr (exists_congr fun u => and_congr_right fun hu => ?_)
      (exists_congr fun v => and_congr_right ?_))
    · rw [ih u hu fun x hx => h x (.head hu hx)]
    · rintro ⟨s, hs, info⟩
      rw [h t .refl s hs v (by simp [info])]

/-- Where looking through a type comes to an end, all levels of parameters are looked through. -/
theorem occurs_eq (ends : T.searching.Ends t) :
    T.occurs p t = T.occursWith (T.occurs p) p t :=
  Descent.Ends.within_succ (D := T.searching)
    (fun _ _ hu => mem_listed_of_info (by simpa [searching] using hu)) T.card_listed_lt
    (T.occursWithin p) (fun _ _ _ h => occursWith_congr h) ends

theorem occurs_iff_components (ends : T.searching.Ends t) :
    T.occurs p t = true ↔ p t = true ∨ ∃ u ∈ T.components t, T.occurs p u = true := by
  have part {u : Ty} (hu : u ∈ t.parts) : T.occursWith (T.occurs p) p u = T.occurs p u :=
    (occurs_eq (ends.of_visits (.single hu))).symm
  rw [occurs_eq ends, occursWith_iff]
  simp only [mem_components, or_and_right, exists_or]
  refine or_congr_right (or_congr_left (exists_congr fun u => and_congr_right fun hu => ?_))
  rw [part hu]

theorem ends_of_mem_components (ends : T.searching.Ends t) (hu : u ∈ T.components t) :
    T.searching.Ends u := by
  rcases mem_components.mp hu with part | ⟨s, hs, info⟩
  · exact ends.of_visits (.single part)
  · exact ends.of_drawn hs (by simp [searching, info])

/-- The second type stands inside the first, at any depth. -/
def Contains (T : SymbolTable) : Ty → Ty → Prop := ReflTransGen fun t u => u ∈ T.components t

/-- A search finds a property exactly if some type inside has it. -/
theorem occurs_iff_contains (ends : T.searching.Ends t) :
    T.occurs p t = true ↔ ∃ u, T.Contains t u ∧ p u = true := by
  constructor
  · refine Descent.Ends.induct (D := T.searching) (motive := fun t =>
      T.occurs p t = true → ∃ u, T.Contains t u ∧ p u = true) ?_ ends
    intro t ends inside looked found
    rcases (occurs_iff_components ends).mp found with here | ⟨u, hu, found⟩
    · exact ⟨t, .refl, here⟩
    · have below : ∃ v, T.Contains u v ∧ p v = true := by
        rcases mem_components.mp hu with part | ⟨s, hs, info⟩
        · exact inside u part found
        · exact looked s hs u (by simp [searching, info]) found
      obtain ⟨v, contained, here⟩ := below
      exact ⟨v, .head hu contained, here⟩
  · rintro ⟨u, contained, here⟩
    induction contained using ReflTransGen.head_induction_on with
    | refl => exact (occurs_iff_components ends).mpr (.inl here)
    | head hu _ ih =>
      exact (occurs_iff_components ends).mpr (.inr ⟨_, hu, ih (ends_of_mem_components ends hu)⟩)

/-- What is written where it stands also stands inside. -/
theorem mem_components_of_mem_spelled (h : u ∈ T.spelled t) : u ∈ T.components t := by
  cases t with
  | ref pre s args =>
    simp only [spelled] at h
    split at h
    · simp at h
    · exact h
  | method ps r => simp [spelled] at h
  | nullary r => simp [spelled] at h
  | poly ps r => simp [spelled] at h
  | _ => exact h

theorem contains_of_visits (h : T.writing.Visits t u) : T.Contains t u :=
  ReflTransGen.mono (fun _ _ => mem_components_of_mem_spelled) _ _ h

theorem denoted_ref {pre : Ty} {s : SymbolId} {args : List Ty} (plain : T.expansion? s = none) :
    T.denoted (.ref pre s args) = some s := by
  simp [denoted, bound, Nat.mul_add, denotedWithin, denotedWith, plain]

end SymbolTable

/-- A type that does not outlive the given symbols: one that denotes one of them, or the self type
of an anonymous class. -/
def Setting.Outdated (W : Setting) (defined : List SymbolId) : Ty → Prop
  | .this s => Text.startsWith (W.nameOf s).text W.conventions.anonymousBeginning = true
  | u => ∃ s ∈ defined, W.symbols.denoted u = some s

/-- Types are looked through as they stand. What is found there is exactly what is mentioned, and a
reference that is written without looking anything up is found. -/
theorem declared_mention_found_iff (W : Setting) (defined : List SymbolId) {t : Ty}
    (ends : W.symbols.searching.Ends t) :
    (W.mentions defined t = true ↔ ∃ u, W.symbols.Contains t u ∧ W.Outdated defined u) ∧
      ∀ pre s args, W.symbols.writing.Visits t (.ref pre s args) →
        W.symbols.expansion? s = none → s ∈ defined → W.mentions defined t = true := by
  have found : W.mentions defined t = true ↔
      ∃ u, W.symbols.Contains t u ∧ W.Outdated defined u := by
    rw [Setting.mentions, SymbolTable.occurs_iff_contains ends]
    refine exists_congr fun u => and_congr_right fun _ => ?_
    cases u <;> simp [Setting.denotesAny, Setting.Outdated, Option.any_eq_true, and_comm]
  refine ⟨found, fun pre s args visited plain declared => ?_⟩
  rw [found]
  exact ⟨_, SymbolTable.contains_of_visits visited, s, declared, SymbolTable.denoted_ref plain⟩

/-- A class `Box`, and a quantified type that is bounded by a class `C`. -/
def boxSetting : Setting where
  symbols.entries :=
    [(⟨"C"⟩, { name := .type "C", kind := .plainClass }),
     (⟨"Box"⟩, { name := .type "Box", kind := .plainClass }),
     (⟨"T"⟩, { name := .type "T", kind := .type,
               info := some (.bounds .unspecified (.ref .noPrefix ⟨"C"⟩ [])) })]
  builtins.rootClass := ⟨"root"⟩
  builtins.nothingType := .unspecified
  builtins.anyType := .unspecified
  builtins.anyRefType := .unspecified

theorem boxSetting_acyclic : boxSetting.symbols.Acyclic := by
  refine SymbolTable.acyclic_of_rank (fun _ => 0) ?_
  decide

/-- A box for something, where the quantified type is known. -/
def someBox (content : String) : Ty :=
  .existential [⟨"T"⟩] (.ref .noPrefix ⟨"Box"⟩ [.ref .noPrefix ⟨content⟩ []])

theorem someBox_ends (content : String) : boxSetting.symbols.searching.Ends (someBox content) := by
  have free : boxSetting.symbols.searching.Ends .noPrefix :=
    SymbolTable.searching_ends_of_parts rfl (by simp [Ty.parts])
  have inner : boxSetting.symbols.searching.Ends (.ref .noPrefix ⟨content⟩ []) :=
    SymbolTable.searching_ends_of_parts rfl (by simpa [Ty.parts] using free)
  have box : boxSetting.symbols.searching.Ends
      (.ref .noPrefix ⟨"Box"⟩ [.ref .noPrefix ⟨content⟩ []]) :=
    SymbolTable.searching_ends_of_parts rfl (by simpa [Ty.parts] using ⟨free, inner⟩)
  exact SymbolTable.searching_ends_of_parts rfl (by simpa [someBox, Ty.parts] using box)

/-- A box for the class itself mentions the class. -/
theorem classBox_found :
    boxSetting.symbols.searching.Ends (someBox "C") ∧
      boxSetting.symbols.writing.Visits (someBox "C") (.ref .noPrefix ⟨"C"⟩ []) ∧
      boxSetting.mentions [⟨"C"⟩] (someBox "C") = true := by
  have visited : boxSetting.symbols.writing.Visits (someBox "C") (.ref .noPrefix ⟨"C"⟩ []) :=
    .head (b := .ref .noPrefix ⟨"Box"⟩ [.ref .noPrefix ⟨"C"⟩ []]) (List.mem_singleton.mpr rfl)
      (.single (List.mem_pair.mpr (.inr rfl)))
  have rendered := (declared_mention_found_iff boxSetting [⟨"C"⟩] (someBox_ends "C")).2
  exact ⟨someBox_ends "C", visited, rendered _ _ _ visited rfl (by decide)⟩

/-- A box for what the class bounds is written with the class, and is not found to mention it. -/
theorem boundedBox_missed :
    boxSetting.symbols.Acyclic ∧ boxSetting.symbols.searching.Ends (someBox "T") ∧
      ReflTransGen boxSetting.Renders (someBox "T") (.ref .noPrefix ⟨"C"⟩ []) ∧
      boxSetting.symbols.expansion? ⟨"C"⟩ = none ∧
      boxSetting.writtenType (someBox "T") =
        .bare (.existentialType
          (.bare (.appliedType (.bare (.ident (.type "Box"))) [.bare (.ident (.type "T"))]))
          [.bare (.typeDef { flags := .ofList [.deferred, .synthetic] } (.type "T") []
            (.bare (.typeBounds .empty (.bare (.ident (.type "C"))))))]) ∧
      boxSetting.mentions [⟨"C"⟩] (someBox "T") = false := by
  have clause : boxSetting.Exposes (someBox "T") (.bounds .unspecified (.ref .noPrefix ⟨"C"⟩ [])) :=
    ⟨by decide, ⟨"T"⟩, by decide, _, _, rfl, rfl⟩
  have upper : boxSetting.Exposes (.bounds .unspecified (.ref .noPrefix ⟨"C"⟩ []))
      (.ref .noPrefix ⟨"C"⟩ []) := .inr ⟨rfl, rfl⟩
  have box : boxSetting.writtenType (.ref .noPrefix ⟨"Box"⟩ [.ref .noPrefix ⟨"T"⟩ []]) =
      .bare (.appliedType (.bare (.ident (.type "Box"))) [.bare (.ident (.type "T"))]) := rfl
  have underlying :
      (boxSetting.writtenType (.ref .noPrefix ⟨"Box"⟩ [.ref .noPrefix ⟨"T"⟩ []])).nameSingletons
          ".type" =
        .bare (.appliedType (.bare (.ident (.type "Box"))) [.bare (.ident (.type "T"))]) := by
    have box' : Text.endsWith "Box" ".type" = false := by decide
    have content : Text.endsWith "T" ".type" = false := by decide
    rw [box]
    simp [Tree.bare, Tree.nameSingletons, Shape.mapChildren, box', content]
  have written : boxSetting.writtenType (someBox "T") = _ :=
    Setting.writtenAs_of_clauses (boxSetting_acyclic.ends _) rfl (someBox "T")
  exact ⟨boxSetting_acyclic, someBox_ends "T", .head (.inl clause) (.single (.inl upper)), rfl,
    underlying ▸ written, by decide⟩

end TreeRepair
