import TreeRepair.Setting

namespace TreeRepair

/-- A class or module around some place: its name as a type, and the names of its members. -/
structure Frame where
  name : Name
  members : List Name

namespace Setting

variable (W : Setting)

/-- The names of the members that a class or module inherits or declares. -/
def declaredNames (impl : Tree) : List Name :=
  match impl.shape with
  | .template parents _ body =>
    (parents.flatMap fun p =>
      match p.symbol with
      | some s => if (W.symbols.get s).isType then (W.symbols.get s).members.map W.nameOf else []
      | none => []) ++ body.filterMap Tree.declaredName?
  | _ => []

/-- Whether the innermost frame of a name has a member; no frame of an anonymous class has any, and
nothing is known without such a frame. -/
def selfMember? (frames : List Frame) (this selected : Name) : Option Bool :=
  if Text.startsWith this.text W.conventions.anonymousBeginning then some false
  else (frames.find? fun f => f.name = this).map fun f => f.members.contains selected

/-- A member of a class or module selected from its self reference: plain if the class does not
have the member, and selected from the module if the access is outside of it. -/
def selfAccess (frames : List Frame) (i j : Info) (this selected : Name) : Tree :=
  match W.selfMember? frames this selected with
  | some false =>
    ⟨{ type := i.type, pos := if i.pos.isDefined then i.pos else j.pos }, .ident selected⟩
  | some true => ⟨i, .select ⟨j, .this this⟩ selected⟩
  | none =>
    if j.symbol.any fun s => (W.symbols.get s).isModuleClass && !(W.symbols.get s).isPackage
        && !(W.symbols.get s).isPackageClass then
      .bare (.select (.bare (.ident this.toTerm)) selected)
    else ⟨i, .select ⟨j, .this this⟩ selected⟩

/-- Replaces self accesses that are not valid where they stand, below the given frames. -/
def fixSelfAccess (frames : List Frame) : Tree → Tree
  | ⟨i, .select ⟨j, .this this⟩ selected⟩ => W.selfAccess frames i j this selected
  | ⟨i, .classDef mods name tparams impl⟩ =>
    let inner := ⟨name.toType, W.declaredNames impl⟩ :: frames
    ⟨i, (Shape.classDef mods name tparams impl).pmapChildren fun c _ => fixSelfAccess inner c⟩
  | ⟨i, .moduleDef mods name impl⟩ =>
    let inner := ⟨name.toType, W.declaredNames impl⟩ :: frames
    ⟨i, (Shape.moduleDef mods name impl).pmapChildren fun c _ => fixSelfAccess inner c⟩
  | ⟨i, s⟩ => ⟨i, s.pmapChildren fun c _ => fixSelfAccess frames c⟩
termination_by t => t.size
decreasing_by all_goals exact Tree.size_lt_of_mem_children ‹_›

end Setting

end TreeRepair
