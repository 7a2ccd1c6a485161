import TreeRepair.Proofs.OwnerPaths

namespace TreeRepair

open Relation

/-- A path of names: the first one, and the others selected from it one after the other. -/
def Tree.selections (first : String) (rest : List String) : Tree :=
  rest.foldl (fun q name => .bare (.select q (.term name))) (.bare (.ident (.term first)))

theorem Tree.selections_concat (first : String) (rest : List String) (last : String) :
    selections first (rest ++ [last]) = .bare (.select (selections first rest) (.term last)) := by
  simp [selections]

namespace SymbolTable

variable {T : SymbolTable}

/-- No symbol is among its own owners. -/
def AcyclicOwners (T : SymbolTable) : Prop :=
  ∀ s, ¬ TransGen (fun o s => (T.get s).owner = some o) s s

/-- A symbol and all its owners, innermost first. -/
inductive OwnerChain (T : SymbolTable) : SymbolId → List SymbolId → Prop
  | top {s : SymbolId} (owner : (T.get s).owner = none) : OwnerChain T s [s]
  | member {s o : SymbolId} {chain : List SymbolId} (owner : (T.get s).owner = some o)
      (above : OwnerChain T o chain) : OwnerChain T s (s :: chain)

/-- Listing the owners of a symbol goes on in its owner. -/
def ascending (T : SymbolTable) : Descent SymbolId SymbolId :=
  .along fun s => (T.get s).owner.toList

theorem acyclicOwners_of_rank (rank : SymbolId → Nat)
    (lower : ∀ s ∈ T.listed, ∀ o, (T.get s).owner = some o → rank o < rank s) : T.AcyclicOwners :=
  not_transGen_self_of_rank rank fun o s owner => lower s (mem_listed_of_owner owner) o owner

theorem owners_of_top {s : SymbolId} (owner : (T.get s).owner = none) : T.owners s = [s] := by
  rw [owners, bound, ownersWithin, owner]

theorem mem_owners_self (s : SymbolId) : s ∈ T.owners s := by
  rw [owners, bound, ownersWithin]
  exact List.mem_cons_self

namespace AcyclicOwners

variable (acyclic : T.AcyclicOwners)
include acyclic

theorem ends (s : SymbolId) : T.ascending.Ends s := by
  have loops (k : SymbolId) : ¬ TransGen (fun o s => o ∈ (T.get s).owner.toList) k k := by
    simpa [Option.mem_def] using acyclic k
  exact Descent.along_ends (fun k o ho => mem_listed_of_owner (by simpa using ho)) loops s

/-- To prove a statement of all symbols, take it as known of the owner. -/
theorem induct {motive : SymbolId → Prop}
    (top : ∀ s, (T.get s).owner = none → motive s)
    (member : ∀ s o, (T.get s).owner = some o → motive o → motive s) (s : SymbolId) : motive s := by
  refine Descent.Ends.induct (D := T.ascending) ?_ (acyclic.ends s)
  intro s _ _ above
  cases owner : (T.get s).owner with
  | none => exact top s owner
  | some o =>
    exact member s o owner
      (above s (List.mem_singleton.mpr rfl) o (by simp [ascending, Descent.along, owner]))

theorem owners_of_owner {s o : SymbolId} (owner : (T.get s).owner = some o) :
    T.owners s = s :: T.owners o := by
  have congr (m n : Nat) (t : SymbolId)
      (h : ∀ x, T.ascending.Visits t x → ∀ k ∈ T.ascending.sources x, ∀ y ∈ T.ascending.drawn k,
        T.ownersWithin m y = T.ownersWithin n y) :
      T.ownersWithin (m + 1) t = T.ownersWithin (n + 1) t := by
    rw [ownersWithin, ownersWithin]
    cases found : (T.get t).owner with
    | none => rfl
    | some p =>
      simp only [h t .refl t (List.mem_singleton.mpr rfl) p
        (by simp [ascending, Descent.along, found])]
  have stable : T.owners s = T.ownersWithin (T.bound + 1) s :=
    Descent.Ends.within_succ
      (fun k y hy => mem_listed_of_owner (by simpa [ascending, Descent.along] using hy))
      T.card_listed_lt T.ownersWithin congr (acyclic.ends s)
  rw [stable, ownersWithin, owner, owners]

theorem ownerChain (s : SymbolId) : T.OwnerChain s (T.owners s) := by
  induction s using acyclic.induct with
  | top s owner =>
    rw [owners_of_top owner]
    exact .top owner
  | member s o owner ih =>
    rw [acyclic.owners_of_owner owner]
    exact .member owner ih

end AcyclicOwners

end SymbolTable

namespace Setting

variable {W : Setting}

/-- The owners of a symbol that are strictly below the root, the symbol itself first. -/
def ownersBelowRoot (W : Setting) (s : SymbolId) : List SymbolId :=
  (W.symbols.owners s).takeWhile (· ≠ W.builtins.rootClass)

theorem ownersBelowRoot_root : W.ownersBelowRoot W.builtins.rootClass = [] := by
  rw [ownersBelowRoot, SymbolTable.owners, SymbolTable.bound, SymbolTable.ownersWithin]
  simp

theorem exists_ownersBelowRoot {s : SymbolId} (below : s ≠ W.builtins.rootClass) :
    ∃ above, W.ownersBelowRoot s = s :: above := by
  rw [ownersBelowRoot, SymbolTable.owners, SymbolTable.bound, SymbolTable.ownersWithin,
    List.takeWhile_cons_of_pos (by simpa using below)]
  exact ⟨_, rfl⟩

theorem injectedAmong_root : W.injectedAmong (W.symbols.owners W.builtins.rootClass) = false := by
  rw [SymbolTable.owners, SymbolTable.bound, SymbolTable.ownersWithin, injectedAmong, if_pos rfl]

section AcyclicOwners

variable (acyclic : W.symbols.AcyclicOwners)
include acyclic

theorem owning_ends (s : SymbolId) : W.owning.Ends s := by
  induction s using acyclic.induct with
  | top s owner => exact .intro (by simp [owning]) (by simp +contextual [owning, owner])
  | member s o owner ih => exact owning_ends_of_owner owner ih

theorem root_mem_owners_iff {s o : SymbolId} (below : s ≠ W.builtins.rootClass)
    (owner : (W.symbols.get s).owner = some o) :
    W.builtins.rootClass ∈ W.symbols.owners s ↔ W.builtins.rootClass ∈ W.symbols.owners o := by
  rw [acyclic.owners_of_owner owner, List.mem_cons]
  exact or_iff_right (Ne.symm below)

theorem ownersBelowRoot_of_owner {s o : SymbolId} (below : s ≠ W.builtins.rootClass)
    (owner : (W.symbols.get s).owner = some o) :
    W.ownersBelowRoot s = s :: W.ownersBelowRoot o := by
  rw [ownersBelowRoot, acyclic.owners_of_owner owner,
    List.takeWhile_cons_of_pos (by simpa using below), ownersBelowRoot]

/-- The path of a symbol below the root starts at the root and names all owners on the way. -/
theorem path_of_root_mem {s : SymbolId} (h : W.builtins.rootClass ∈ W.symbols.owners s) :
    W.path s = .selections W.conventions.rootName
      ((W.ownersBelowRoot s).reverse.map fun o => (W.nameOf o).text) := by
  induction s using acyclic.induct with
  | top s owner =>
    rw [SymbolTable.owners_of_top owner, List.mem_singleton] at h
    subst h
    rw [path_root, ownersBelowRoot_root]
    rfl
  | member s o owner ih =>
    -- a root may have owners too, but its path does not go beyond it
    by_cases root : s = W.builtins.rootClass
    · subst root
      rw [path_root, ownersBelowRoot_root]
      rfl
    · have above := ih ((root_mem_owners_iff acyclic root owner).mp h)
      rw [path_of_owner root owner (owning_ends acyclic o), above,
        ownersBelowRoot_of_owner acyclic root owner, List.reverse_cons, List.map_append]
      exact (Tree.selections_concat _ _ _).symm

/-- The path of another symbol starts at its outermost owner. -/
theorem path_of_root_not_mem {s : SymbolId} (h : W.builtins.rootClass ∉ W.symbols.owners s) :
    ∃ first rest, (W.symbols.owners s).reverse.map (fun o => (W.nameOf o).text) = first :: rest ∧
      W.path s = .selections first rest := by
  have other {s : SymbolId} (h : W.builtins.rootClass ∉ W.symbols.owners s) :
      s ≠ W.builtins.rootClass := fun same => h (same ▸ SymbolTable.mem_owners_self s)
  induction s using acyclic.induct with
  | top s owner =>
    refine ⟨(W.nameOf s).text, [], by rw [SymbolTable.owners_of_top owner]; rfl, ?_⟩
    rw [path, SymbolTable.bound, pathWithin, if_neg (other h), owner]
    rfl
  | member s o owner ih =>
    have root := other h
    obtain ⟨first, rest, names, above⟩ := ih (mt (root_mem_owners_iff acyclic root owner).mpr h)
    refine ⟨first, rest ++ [(W.nameOf s).text], ?_, ?_⟩
    · rw [acyclic.owners_of_owner owner, List.reverse_cons, List.map_append, names]
      rfl
    · rw [path_of_owner root owner (owning_ends acyclic o), above]
      exact (Tree.selections_concat _ _ _).symm

/-- The search for the package comes to the outermost owner below the root, and looks at the name of
no other. -/
theorem isInjected_iff (s : SymbolId) :
    W.isInjected (some s) = true ↔ W.builtins.rootClass ∈ W.symbols.owners s ∧
      ∃ o, (W.ownersBelowRoot s).getLast? = some o ∧
        (W.nameOf o).text = W.conventions.injectedPackage := by
  rw [isInjected]
  induction s using acyclic.induct with
  | top s owner =>
    rw [SymbolTable.owners_of_top owner]
    by_cases root : s = W.builtins.rootClass
    · subst root
      simp [injectedAmong, ownersBelowRoot_root]
    · simp [injectedAmong, root, owner, Ne.symm root]
  | member s o owner ih =>
    by_cases root : s = W.builtins.rootClass
    · subst root
      rw [acyclic.owners_of_owner owner]
      simp [injectedAmong, ownersBelowRoot_root]
    · rw [root_mem_owners_iff acyclic root owner, ownersBelowRoot_of_owner acyclic root owner,
        acyclic.owners_of_owner owner, injectedAmong, if_neg root, owner]
      -- the search stops here if the owner is the root, and goes on with the owner otherwise
      by_cases top : o = W.builtins.rootClass
      · subst top
        simp [injectedAmong_root, ownersBelowRoot_root, SymbolTable.mem_owners_self]
      · obtain ⟨above, rest⟩ := exists_ownersBelowRoot top
        rw [rest, List.getLast?_cons_cons, ← rest, ← ih]
        simp [top]

end AcyclicOwners

end Setting

/-- The path of a symbol spells out the names of its owners: those below the root, starting at the
root, or all of them if the root is not among them, as its full name does. A symbol is in the
injected package if the second name of a path that starts at the root is the one of that package. -/
theorem path_spells_owners (W : Setting) (acyclic : W.symbols.AcyclicOwners) (s : SymbolId) :
    W.symbols.OwnerChain s (W.symbols.owners s) ∧
      ∃ first rest, W.path s = .selections first rest ∧
        (W.builtins.rootClass ∈ W.symbols.owners s →
          first = W.conventions.rootName ∧
            rest = (W.ownersBelowRoot s).reverse.map fun o => (W.nameOf o).text) ∧
        (W.builtins.rootClass ∉ W.symbols.owners s →
          first :: rest = (W.symbols.owners s).reverse.map (fun o => (W.nameOf o).text) ∧
            ".".intercalate (first :: rest) = W.symbols.fullName s) ∧
        (W.isInjected (some s) = true ↔
          W.builtins.rootClass ∈ W.symbols.owners s ∧ s ≠ W.builtins.rootClass ∧
            rest.head? = some W.conventions.injectedPackage) := by
  refine ⟨acyclic.ownerChain s, ?_⟩
  rw [Setting.isInjected_iff acyclic]
  by_cases reached : W.builtins.rootClass ∈ W.symbols.owners s
  · refine ⟨_, _, Setting.path_of_root_mem acyclic reached, fun _ => ⟨rfl, rfl⟩,
      fun missing => absurd reached missing, ?_⟩
    have below {o : SymbolId} (h : (W.ownersBelowRoot s).getLast? = some o) :
        s ≠ W.builtins.rootClass := by
      rintro rfl
      simp [Setting.ownersBelowRoot_root] at h
    rw [List.head?_map, List.head?_reverse, Option.map_eq_some_iff]
    exact and_congr_right fun _ =>
      ⟨fun ⟨o, last, name⟩ => ⟨below last, o, last, name⟩, fun ⟨_, found⟩ => found⟩
  · obtain ⟨first, rest, names, path⟩ := Setting.path_of_root_not_mem acyclic reached
    refine ⟨first, rest, path, fun h => absurd h reached, fun _ => ⟨names.symm, ?_⟩,
      iff_of_false (fun h => reached h.1) fun h => reached h.1⟩
    rw [← names]
    rfl

/-- A package `lang` in a module of the package `lang` below the root, which has an owner of its
own, and a value in a class outside of all packages. -/
def langSetting : Setting where
  symbols.entries :=
    [(⟨"world"⟩, { name := .type "world", kind := .packageClass }),
     (⟨"root"⟩, { name := .type "root", kind := .packageClass, owner := some ⟨"world"⟩ }),
     (⟨"lang"⟩, { name := .type "lang", kind := .packageClass, owner := some ⟨"root"⟩ }),
     (⟨"Base"⟩, { name := .type "Base", kind := .moduleClass, owner := some ⟨"lang"⟩ }),
     (⟨"inner"⟩, { name := .type "lang", kind := .packageClass, owner := some ⟨"Base"⟩ }),
     (⟨"C"⟩, { name := .type "C", kind := .plainClass }),
     (⟨"x"⟩, { name := .term "x", kind := .term, owner := some ⟨"C"⟩ })]
  builtins.rootClass := ⟨"root"⟩
  builtins.nothingType := .unspecified
  builtins.anyType := .unspecified
  builtins.anyRefType := .unspecified
  conventions.injectedPackage := "lang"

theorem langSetting_acyclicOwners : langSetting.symbols.AcyclicOwners := by
  refine SymbolTable.acyclicOwners_of_rank (fun s =>
    ([⟨"world"⟩, ⟨"C"⟩, ⟨"root"⟩, ⟨"lang"⟩, ⟨"Base"⟩, ⟨"inner"⟩, ⟨"x"⟩] : List SymbolId).idxOf s) ?_
  decide

/-- The inner package is found by the name of the outer one. -/
theorem langSetting_spelled :
    langSetting.symbols.AcyclicOwners ∧
      langSetting.path ⟨"inner"⟩ = .selections "_root_" ["lang", "Base", "lang"] ∧
      langSetting.isInjected (some ⟨"inner"⟩) = true ∧
      langSetting.path ⟨"x"⟩ = .selections "C" ["x"] ∧ langSetting.symbols.fullName ⟨"x"⟩ = "C.x" ∧
      langSetting.isInjected (some ⟨"x"⟩) = false := by
  have acyclic := langSetting_acyclicOwners
  obtain ⟨-, first, rest, path, reached, -, injected⟩ :=
    path_spells_owners langSetting acyclic ⟨"inner"⟩
  obtain ⟨rfl, rfl⟩ := reached (by decide)
  obtain ⟨-, first', rest', path', -, missing, injected'⟩ :=
    path_spells_owners langSetting acyclic ⟨"x"⟩
  obtain ⟨names, fullName⟩ := missing (by decide)
  obtain ⟨rfl, rfl⟩ : first' = "C" ∧ rest' = ["x"] := List.cons.inj names
  refine ⟨acyclic, path, injected.mpr (by decide), path', fullName.symm, ?_⟩
  rw [Bool.eq_false_iff, Ne, injected']
  decide

end TreeRepair
