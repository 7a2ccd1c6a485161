import TreeRepair.Cleanup.InferredTypes
import TreeRepair.Proofs.StaticTypes

namespace TreeRepair

theorem Tree.same_select {i j : Info} {q r : Tree} (h : q.same r = true) (name : Name) :
    (⟨i, .select q name⟩ : Tree).same ⟨j, .select r name⟩ = true :=
  same_mk.mpr ⟨rfl, .cons h .nil⟩

namespace Setting

variable {W : Setting}

/-- A path that names a symbol in full: it starts at a name right below the root and selects one
owner after the other. The last name may be of any kind. -/
inductive SpelledOut (W : Setting) : SymbolId → Name → Tree → Prop
  | top {s x : SymbolId} {name : Name} {i : Info}
      (owner : (W.symbols.get s).owner = some W.builtins.rootClass) (symbol : i.symbol = some x)
      (known : (W.symbols.get x).owner = some W.builtins.rootClass) :
      SpelledOut W s name ⟨i, .ident name⟩
  | member {s o : SymbolId} {name : Name} {i : Info} {q : Tree}
      (owner : (W.symbols.get s).owner = some o) (below : o ≠ W.builtins.rootClass)
      (path : SpelledOut W o (W.nameOf o).toTerm q) : SpelledOut W s name ⟨i, .select q name⟩

/-- A path that is spelled out is anchored by selecting its last name from the path of the owner. -/
theorem SpelledOut.anchor {s o : SymbolId} {name : Name} {p : Tree} (h : W.SpelledOut s name p)
    (owner : (W.symbols.get s).owner = some o) (static : W.Static o) :
    ∃ i q, W.anchor p = ⟨i, .select q name⟩ ∧ q.isPath = true ∧ q.same (W.path o) = true := by
  induction h generalizing o with
  | @top s x name i topmost symbol known =>
    obtain rfl := Option.some.inj (topmost.symm.trans owner)
    refine ⟨{ pos := i.pos }, .bare (.ident (.term W.conventions.rootName)), ?_, rfl, ?_⟩
    · simp only [Setting.anchor, symbol, Option.any_some, known, decide_true, if_true]
    · rw [path_root]
      exact Tree.same_refl _
  | member owned below path ih =>
    obtain rfl := Option.some.inj (owned.symm.trans owner)
    obtain root | ⟨above, staticAbove, ownerAbove, continued⟩ := static.path_cases
    · exact absurd root below
    · obtain ⟨i, q, anchored, isPath, same⟩ := ih ownerAbove staticAbove
      refine ⟨_, _, rfl, ?_, ?_⟩
      · rw [anchored]
        simp [Tree.isPath, Name.toTerm, Name.isTerm, Name.isType, isPath]
      · rw [anchored, continued]
        exact Tree.same_select same _

/-- Cleaning the types of a path releases symbols and changes nothing that is written. -/
theorem same_cleanTypes_of_isPath (defined : List SymbolId) {t : Tree} (path : t.isPath = true) :
    (W.cleanTypes defined t).same t = true := by
  induction t using Tree.mem_children_induct with
  | node i s ih =>
    obtain ⟨name, head⟩ | ⟨name, head⟩ | ⟨q, name, head⟩ := Tree.shape_of_isPath path
    · obtain rfl : s = .this name := head
      rw [cleanTypes]
      exact Tree.same_mk.mpr ⟨rfl, .nil⟩
    · obtain rfl : s = .ident name := head
      rw [cleanTypes]
      exact Tree.same_mk.mpr ⟨rfl, .nil⟩
    · obtain rfl : s = .select q name := head
      obtain ⟨-, below⟩ : name.isTerm = true ∧ q.isPath = true := by
        simpa [Tree.isPath] using path
      rw [cleanTypes]
      exact Tree.same_select (ih q (List.mem_singleton.mpr rfl) below) name

theorem writtenType_static_class {o s : SymbolId} (static : W.Static o)
    (kind : (W.symbols.get s).kind = .plainClass) :
    W.writtenType (.ref (.this o) s []) = .bare (.select (W.path o) (W.nameOf s).toType) := by
  have written := writtenWith_static_ref (W.writtenWithin (3 * W.symbols.bound - 1))
    (.ref (.this o) s []) [] static (List.mem_pair.mpr (.inl kind))
  have ofClass : W.isPlainClass (some s) = true := by simp [isPlainClass, Symbol.isPlainClass, kind]
  rw [ofClass, if_pos rfl] at written
  exact written

end Setting

/-- A class in static packages and modules that is written by its full path is anchored to what its
resolved type is written as, be it anchored alone or cleaned where the type was found out about. -/
theorem anchored_path_same_written (W : Setting) {s o : SymbolId} {p : Tree}
    (kind : (W.symbols.get s).kind = .plainClass) (owner : (W.symbols.get s).owner = some o)
    (static : W.Static o) (path : W.SpelledOut s (W.nameOf s).toType p) (i : Info) :
    (W.anchor p).same (W.writtenType (.ref (.this o) s [])) = true ∧
      (W.cleanInferredTypes ⟨i, .typeTree (some p)⟩).same
        (W.writtenType (.ref (.this o) s [])) = true := by
  obtain ⟨j, q, anchored, isPath, same⟩ := path.anchor owner static
  rw [Setting.writtenType_static_class static kind, Setting.cleanInferredTypes, Setting.cleanTypes,
    anchored, Setting.cleanTypes]
  refine ⟨Tree.same_select same _, Tree.same_select ?_ _⟩
  exact Tree.same_trans (Setting.same_cleanTypes_of_isPath _ isPath) same

/-- The class `Entry` as it is written in full. -/
def entryPath : Tree :=
  .bare (.select (.bare (.select ⟨{ symbol := some ⟨"p"⟩ }, .ident (.term "p")⟩ (.term "List")))
    (.type "Entry"))

theorem entryPath_spelledOut : listSetting.SpelledOut ⟨"Entry"⟩ (.type "Entry") entryPath := by
  have package : listSetting.SpelledOut ⟨"p"⟩ (.term "p")
      ⟨{ symbol := some ⟨"p"⟩ }, .ident (.term "p")⟩ := .top (by decide) rfl (by decide)
  have module : listSetting.SpelledOut ⟨"M"⟩ (.term "List")
      (.bare (.select ⟨{ symbol := some ⟨"p"⟩ }, .ident (.term "p")⟩ (.term "List"))) :=
    .member (o := ⟨"p"⟩) (by decide) (by decide) package
  exact .member (o := ⟨"M"⟩) (by decide) (by decide) module

/-- The class is written two levels below the root. -/
theorem entryPath_anchored :
    listSetting.Static ⟨"M"⟩ ∧ listSetting.SpelledOut ⟨"Entry"⟩ (.type "Entry") entryPath ∧
      (listSetting.anchor entryPath).same
        (listSetting.writtenType (.ref (.this ⟨"M"⟩) ⟨"Entry"⟩ [])) = true ∧
      (listSetting.cleanInferredTypes (.bare (.typeTree (some entryPath)))).same
        (listSetting.writtenType (.ref (.this ⟨"M"⟩) ⟨"Entry"⟩ [])) = true := by
  have static := listSetting_static.2
  exact ⟨static, entryPath_spelledOut, anchored_path_same_written listSetting (by decide)
    (by decide) static entryPath_spelledOut {}⟩

end TreeRepair
