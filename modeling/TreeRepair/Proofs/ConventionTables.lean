import TreeRepair.Proofs.ConventionFields

namespace TreeRepair

def keyNames (table : List (String × Toml.Value)) : List String := table.map Prod.fst

/-- A name that stands for no convention. -/
def IsUnknown (name : String) : Prop := ∀ key : ConventionKey, key.name ≠ name

/-- All entries of a table are set, and nothing else is changed. -/
structure Conventions.SetBy (table : List (String × Toml.Value)) (C D : Conventions) : Prop where
  given : ∀ key v, (ConventionKey.name key, v) ∈ table → key.kind.Describes v (D.field key)
  absent : ∀ key, ConventionKey.name key ∉ keyNames table → D.field key = C.field key

/-- The error is about the first entry of a table with a value that its key cannot be set to. -/
structure TableError.ReportsFirst (table : List (String × Toml.Value)) (key : ConventionKey)
    (v : Toml.Value) (e : TableError) : Prop where
  first : ∃ before after, table = before ++ (key.name, v) :: after ∧
    ∀ k w, (ConventionKey.name k, w) ∈ before → k.Accepts w
  refused : key.Refuses v key.kind e

namespace TableError.ReportsFirst

variable {table : List (String × Toml.Value)} {key : ConventionKey} {v : Toml.Value}
  {e : TableError}

theorem mem (h : e.ReportsFirst table key v) : (key.name, v) ∈ table := by
  obtain ⟨before, after, rfl, -⟩ := h.first
  simp

theorem not_accepts (h : e.ReportsFirst table key v) : ¬ key.Accepts v :=
  fun ⟨x, described⟩ => h.refused.not_describes x described

end TableError.ReportsFirst

namespace Conventions

/-- Entries are set one after the other up to the first value that is refused. -/
theorem setAll_cases {table : List (String × Toml.Value)} (distinct : (keyNames table).Nodup)
    (known : ∀ name ∈ keyNames table, ¬ IsUnknown name) (C : Conventions) :
    (∃ D, C.setAll table = .ok D ∧ C.SetBy table D) ∨
      ∃ key v e, C.setAll table = .error e ∧ e.ReportsFirst table key v := by
  induction table generalizing C with
  | nil => exact .inl ⟨C, rfl, by simp, fun _ _ => rfl⟩
  | cons entry rest ih =>
    obtain ⟨name, v⟩ := entry
    obtain ⟨key, rfl⟩ : ∃ key : ConventionKey, key.name = name := by
      simpa [IsUnknown] using known name List.mem_cons_self
    obtain ⟨fresh, distinct⟩ := List.nodup_cons.mp distinct
    have found : ConventionKey.ofName? key.name = some key :=
      ConventionKey.ofName?_eq_some_iff.mpr rfl
    simp only [setAll, found]
    obtain ⟨D, set, described, others⟩ | ⟨e, set, refused⟩ := C.set_cases key v
    · simp only [set, bind, Except.bind]
      obtain ⟨E, run, setBy⟩ | ⟨k, w, e, run, ⟨before, after, rfl, accepted⟩, refused⟩ :=
        ih distinct (fun name h => known name (List.mem_cons_of_mem _ h)) D
      · refine .inl ⟨E, run, fun k w h => ?_, fun k h => ?_⟩
        · rcases List.mem_cons.mp h with same | h
          · obtain ⟨name, rfl⟩ := Prod.mk.inj same
            obtain rfl := ConventionKey.name_inj.mp name
            -- no later entry has the same key
            rwa [setBy.absent k fresh]
          · exact setBy.given k w h
        · obtain ⟨other, missing⟩ := not_or.mp (mt List.mem_cons.mpr h)
          rw [setBy.absent k missing, others k fun same => other (congrArg _ same)]
      · refine .inr ⟨k, w, e, run, ⟨(key.name, v) :: before, after, rfl, fun k w h => ?_⟩, refused⟩
        rcases List.mem_cons.mp h with same | h
        · obtain ⟨name, rfl⟩ := Prod.mk.inj same
          obtain rfl := ConventionKey.name_inj.mp name
          exact ⟨_, described⟩
        · exact accepted k w h
    · simp only [set, bind, Except.bind]
      exact .inr ⟨key, v, e, rfl, ⟨[], rest, rfl, by simp⟩, refused⟩

end Conventions

namespace Text

theorem occursIn_append (before part after : List Char) :
    occursIn part (before ++ part ++ after) = true := by
  induction before with
  | nil =>
    cases part with
    | nil => cases after <;> simp [occursIn]
    | cons c part => simp [occursIn]
  | cons c before ih =>
    rw [List.cons_append, List.cons_append, occursIn, ih, Bool.or_true]

theorem contains_append (before part between after : String) :
    contains (before ++ part ++ between ++ after) part = true := by
  rw [contains, String.append_assoc, String.toList_append, String.toList_append]
  exact occursIn_append _ _ _

end Text

theorem Toml.Value.isShowable_ofStrings (l : List String) : (ofStrings l).isShowable = true := by
  have items : areShowable (l.map fun s => .constant (.string s)) = true := by
    induction l with
    | nil => rfl
    | cons s l ih => simp [areShowable, isShowable, ih]
  exact items

theorem Toml.Value.shownBehind_of_hidden {v : Toml.Value} (hidden : ¬ v.isShowable)
    (text : String) : v.shownBehind text = digitLimitText "" :=
  if_neg hidden

theorem contains_shownBehind {v : Toml.Value} (shown : v.isShowable = true) (key : ConventionKey)
    (rest : String) :
    Text.contains (v.shownBehind ("'" ++ key.name ++ rest)) key.name = true := by
  rw [Toml.Value.shownBehind, if_pos shown]
  exact Text.contains_append _ _ _ _

/-- The message about a refused value names its key, unless the value cannot be shown. -/
theorem ConventionKey.Refuses.contains_message {key : ConventionKey} {v : Toml.Value}
    {e : TableError} (h : key.Refuses v key.kind e) :
    if v.isShowable then Text.contains e.message key.name = true
    else e.message = Toml.digitLimitText "" := by
  have flags := @eq_keptFlags key
  generalize key.kind = kind at flags h
  split
  next shown =>
    cases h with
    | unknownFlags listed =>
      obtain rfl := flags rfl
      exact Text.contains_append "Unknown flags in '" _ "': " _
    | _ => exact contains_shownBehind shown key _
  next hidden =>
    cases h with
    | unknownFlags listed =>
      rw [listed] at hidden
      exact absurd (Toml.Value.isShowable_ofStrings _) hidden
    | _ => exact Toml.Value.shownBehind_of_hidden hidden _

namespace Conventions

variable {table : List (String × Toml.Value)}

theorem mem_keyNames {name : String} : name ∈ keyNames table ↔ ∃ v, (name, v) ∈ table := by
  simp [keyNames]

/-- What a table sets is determined by its entries. -/
theorem SetBy.unique {table' : List (String × Toml.Value)} {C D D' : Conventions}
    (h : C.SetBy table D) (h' : C.SetBy table' D')
    (same : ∀ entry, entry ∈ table ↔ entry ∈ table') : D = D' := by
  refine eq_of_field fun key => ?_
  by_cases listed : key.name ∈ keyNames table
  · obtain ⟨v, hv⟩ := mem_keyNames.mp listed
    exact (h.given key v hv).unique (h'.given key v ((same _).mp hv))
  · have unlisted : key.name ∉ keyNames table' := by
      simpa only [mem_keyNames, same] using listed
    rw [h.absent key listed, h'.absent key unlisted]

theorem isNone_ofName?_iff {name : String} :
    (ConventionKey.ofName? name).isNone = true ↔ IsUnknown name := by
  rw [Option.isNone_iff_eq_none, Option.eq_none_iff_forall_ne_some]
  exact forall_congr' fun key => not_congr ConventionKey.ofName?_eq_some_iff

theorem ofTable_of_unknown {name : String} (h : name ∈ keyNames table) (unknown : IsUnknown name) :
    ofTable table = .error (.unknownKeys
      ((keyNames table).filter fun name => (ConventionKey.ofName? name).isNone)) := by
  unfold ofTable
  split
  next none =>
    have known := List.filter_eq_nil_iff.mp none name h
    exact absurd (isNone_ofName?_iff.mpr unknown) known
  next => rfl

theorem ofTable_of_known (known : ∀ name ∈ keyNames table, ¬ IsUnknown name) :
    ofTable table = setAll {} table := by
  have none : (keyNames table).filter (fun name => (ConventionKey.ofName? name).isNone) = [] :=
    List.filter_eq_nil_iff.mpr fun name h => mt isNone_ofName?_iff.mp (known name h)
  unfold ofTable
  split
  next => rfl
  next found => exact absurd none found

/-- Where all keys are known, a table is read or its first bad value is reported. -/
theorem ofTable_run (distinct : (keyNames table).Nodup)
    (known : ∀ name ∈ keyNames table, ¬ IsUnknown name) :
    (∃ C, ofTable table = .ok C ∧ SetBy table {} C) ∨
      ∃ key v e, ofTable table = .error e ∧ e.ReportsFirst table key v := by
  rw [ofTable_of_known known]
  exact setAll_cases distinct known {}

theorem exists_unknownKeys_iff (distinct : (keyNames table).Nodup) :
    (∃ unknown, ofTable table = .error (.unknownKeys unknown)) ↔
      ∃ name ∈ keyNames table, IsUnknown name := by
  constructor
  · rintro ⟨unknown, refused⟩
    by_contra known
    obtain ⟨C, read, -⟩ | ⟨key, v, e, run, reported⟩ :=
      ofTable_run distinct fun name h unknown => known ⟨name, h, unknown⟩
    · rw [read] at refused
      cases refused
    · rw [run] at refused
      exact reported.refused.ne_unknownKeys unknown (Except.error.inj refused)
  · rintro ⟨name, h, unknown⟩
    exact ⟨_, ofTable_of_unknown h unknown⟩

/-- The message about unknown keys lists each of them once, in increasing order. -/
theorem exists_sorted_message (distinct : (keyNames table).Nodup) {unknown : List String}
    (refused : ofTable table = .error (.unknownKeys unknown)) :
    ∃ sorted : List String, sorted.Pairwise (· < ·) ∧
      (∀ name, name ∈ sorted ↔ name ∈ keyNames table ∧ IsUnknown name) ∧
      (TableError.unknownKeys unknown).message = "Unknown convention keys: " ++
        Text.quotedList sorted ++ ". Known keys: " ++
        Text.quotedList ((ConventionKey.all.map ConventionKey.name).mergeSort (· ≤ ·)) := by
  obtain ⟨name, h, missing⟩ := (exists_unknownKeys_iff distinct).mp ⟨unknown, refused⟩
  rw [ofTable_of_unknown h missing] at refused
  obtain rfl := TableError.unknownKeys.inj (Except.error.inj refused)
  refine ⟨_, ?_, fun name => ?_, rfl⟩
  · have perm := List.mergeSort_perm
      ((keyNames table).filter fun name => (ConventionKey.ofName? name).isNone) (· ≤ ·)
    have different := perm.nodup_iff.mpr (distinct.filter _)
    have ordered := List.pairwise_mergeSort' (· ≤ ·)
      ((keyNames table).filter fun name => (ConventionKey.ofName? name).isNone)
    exact (ordered.and different).imp fun ⟨le, ne⟩ =>
      String.not_le.mp fun ge => ne (String.le_antisymm le ge)
  · rw [List.mem_mergeSort, List.mem_filter, isNone_ofName?_iff]

section Known

variable (distinct : (keyNames table).Nodup) (known : ∀ name ∈ keyNames table, ¬ IsUnknown name)
include distinct known

theorem exists_error_iff :
    (∃ e, ofTable table = .error e) ↔
      ∃ key v, (ConventionKey.name key, v) ∈ table ∧ ¬ key.Accepts v := by
  obtain ⟨C, read, setBy⟩ | ⟨key, v, e, refused, reported⟩ := ofTable_run distinct known
  · refine iff_of_false (fun ⟨e, refused⟩ => ?_) fun ⟨key, v, h, bad⟩ => ?_
    · rw [read] at refused
      cases refused
    · exact bad ⟨_, setBy.given key v h⟩
  · exact iff_of_true ⟨e, refused⟩ ⟨key, v, reported.mem, reported.not_accepts⟩

theorem exists_reportsFirst {e : TableError} (refused : ofTable table = .error e) :
    ∃ key v, e.ReportsFirst table key v := by
  obtain ⟨C, read, -⟩ | ⟨key, v, e', run, reported⟩ := ofTable_run distinct known
  · rw [read] at refused
    cases refused
  · obtain rfl := Except.error.inj (run.symm.trans refused)
    exact ⟨key, v, reported⟩

/-- A table of which each value fits is read. -/
theorem exists_setBy (fits : ∀ key v, (ConventionKey.name key, v) ∈ table → key.Accepts v) :
    ∃ C, ofTable table = .ok C ∧ SetBy table {} C := by
  obtain read | ⟨key, v, e, -, reported⟩ := ofTable_run distinct known
  · exact read
  · exact absurd (fits key v reported.mem) reported.not_accepts

theorem setBy_of_ofTable {C : Conventions} (read : ofTable table = .ok C) : SetBy table {} C := by
  obtain ⟨D, run, setBy⟩ | ⟨key, v, e, refused, -⟩ := ofTable_run distinct known
  · obtain rfl := Except.ok.inj (run.symm.trans read)
    exact setBy
  · rw [refused] at read
    cases read

/-- The order of the entries does not matter. -/
theorem ofTable_perm {table' : List (String × Toml.Value)} {C : Conventions}
    (read : ofTable table = .ok C) (perm : table.Perm table') : ofTable table' = .ok C := by
  have setBy := setBy_of_ofTable distinct known read
  have names : (keyNames table).Perm (keyNames table') := perm.map Prod.fst
  obtain ⟨D, read', setBy'⟩ := exists_setBy (names.nodup_iff.mp distinct)
    (fun name h => known name (names.mem_iff.mpr h))
    fun key v h => ⟨_, setBy.given key v (perm.mem_iff.mpr h)⟩
  rw [read', setBy.unique setBy' fun entry => perm.mem_iff]

/-- A table that lists all conventions gives them back. -/
theorem ofTable_listing {C : Conventions}
    (listed : ∀ key, ∃ v, (ConventionKey.name key, v) ∈ table ∧
      key.kind.Describes v (C.field key)) : ofTable table = .ok C := by
  have described (key : ConventionKey) (v : Toml.Value) (h : (key.name, v) ∈ table) :
      key.kind.Describes v (C.field key) := by
    obtain ⟨w, hw, described⟩ := listed key
    have same := List.inj_on_of_nodup_map distinct hw h rfl
    exact (Prod.mk.inj same).2 ▸ described
  obtain ⟨D, read, setBy⟩ := exists_setBy distinct known fun key v h => ⟨_, described key v h⟩
  rw [read]
  congr
  refine eq_of_field fun key => ?_
  obtain ⟨v, hv, described⟩ := listed key
  exact (setBy.given key v hv).unique described

end Known

end Conventions

/-- A table is refused for its unknown keys, all of which are listed, and otherwise for the first
value that its key cannot be set to. If it is not refused, then each of its entries is set, whatever
their order, and all other conventions keep their defaults, so that a table that lists all of them
gives them back. -/
theorem table_checked_and_read (table : List (String × Toml.Value))
    (distinct : (keyNames table).Nodup) :
    ((∃ unknown, Conventions.ofTable table = .error (.unknownKeys unknown)) ↔
        ∃ name ∈ keyNames table, IsUnknown name) ∧
      (∀ unknown, Conventions.ofTable table = .error (.unknownKeys unknown) →
        ∃ sorted : List String, sorted.Pairwise (· < ·) ∧
          (∀ name, name ∈ sorted ↔ name ∈ keyNames table ∧ IsUnknown name) ∧
          (TableError.unknownKeys unknown).message = "Unknown convention keys: " ++
            Text.quotedList sorted ++ ". Known keys: " ++
            Text.quotedList ((ConventionKey.all.map ConventionKey.name).mergeSort (· ≤ ·))) ∧
      ((∀ name ∈ keyNames table, ¬ IsUnknown name) →
        ((∃ e, Conventions.ofTable table = .error e) ↔
            ∃ key v, (ConventionKey.name key, v) ∈ table ∧ ¬ key.Accepts v) ∧
          (∀ e, Conventions.ofTable table = .error e → ∃ key v, e.ReportsFirst table key v ∧
            if v.isShowable then Text.contains e.message key.name = true
            else e.message = Toml.digitLimitText "") ∧
          (∀ C, Conventions.ofTable table = .ok C → Conventions.SetBy table {} C ∧
            ∀ table', table.Perm table' → Conventions.ofTable table' = .ok C) ∧
          ∀ C : Conventions,
            (∀ key, ∃ v, (ConventionKey.name key, v) ∈ table ∧ key.kind.Describes v (C.field key)) →
              Conventions.ofTable table = .ok C) ∧
      ∀ (C : Conventions) (key : ConventionKey), ∃ v, key.kind.Describes v (C.field key) := by
  refine ⟨Conventions.exists_unknownKeys_iff distinct,
    fun unknown refused => Conventions.exists_sorted_message distinct refused,
    fun known => ⟨Conventions.exists_error_iff distinct known, fun e refused => ?_,
      fun C read => ⟨Conventions.setBy_of_ofTable distinct known read,
        fun table' perm => Conventions.ofTable_perm distinct known read perm⟩,
      fun C listed => Conventions.ofTable_listing distinct known listed⟩,
    fun C key => ConventionKind.exists_describes (C.field key)⟩
  obtain ⟨key, v, reported⟩ := Conventions.exists_reportsFirst distinct known refused
  exact ⟨key, v, reported, reported.refused.contains_message⟩

def sampleTable : List (String × Toml.Value) :=
  [("round_trip_flags", .ofStrings ["LAZY", "PRIVATE", "LAZY"]),
   ("injected_package", .constant (.string "demo"))]

theorem sampleTable_read_reversed :
    (keyNames sampleTable).Nodup ∧ ∃ C, Conventions.ofTable sampleTable = .ok C ∧
      Conventions.SetBy sampleTable {} C ∧ Conventions.ofTable sampleTable.reverse = .ok C := by
  have distinct : (keyNames sampleTable).Nodup := by decide
  have known : ∀ name ∈ keyNames sampleTable, ¬ IsUnknown name := by
    intro name h unknown
    simp only [keyNames, sampleTable, List.map_cons, List.map_nil, List.mem_cons, List.not_mem_nil,
      or_false] at h
    rcases h with rfl | rfl
    · exact unknown .keptFlags rfl
    · exact unknown .injectedPackage rfl
  obtain ⟨-, -, read, -⟩ := table_checked_and_read sampleTable distinct
  obtain ⟨-, -, read, -⟩ := read known
  refine ⟨distinct, _, rfl, ?_⟩
  obtain ⟨setBy, reordered⟩ := read _ rfl
  exact ⟨setBy, reordered _ (List.reverse_perm _).symm⟩

/-- A number that is too long to be shown is reported without its key. -/
theorem long_number_reported_without_key :
    ∃ e, Conventions.ofTable
        [("injected_package", .constant (.int (Nat.pow 10 Toml.digitLimit : Nat)))] = .error e ∧
      Text.contains e.message "injected_package" = false := by
  -- of the number no more is used than its size, so that nothing computes its digits
  have reported (n : Nat) (long : ¬ n < Nat.pow 10 Toml.digitLimit) :
      ∃ e, Conventions.ofTable [("injected_package", .constant (.int n))] = .error e ∧
        Text.contains e.message "injected_package" = false := by
    have hidden : ¬ (Toml.Value.constant (.int n)).isShowable := by
      simpa only [Toml.Value.isShowable, Int.natAbs_natCast, decide_eq_true_eq] using long
    refine ⟨.notString .injectedPackage (.constant (.int n)), rfl, ?_⟩
    have unnamed : (TableError.notString .injectedPackage (.constant (.int n))).message =
        Toml.digitLimitText "" := Toml.Value.shownBehind_of_hidden hidden _
    rw [unnamed]
    decide +kernel
  exact reported _ (Nat.lt_irrefl _)

end TreeRepair
