import TreeRepair.Symbol.Basic

namespace TreeRepair.SymbolTable

variable (T : SymbolTable)

def namesOf (ss : List SymbolId) : List String := ss.map fun s => (T.get s).name.text

/-- The text of a prefix, given the text of its type. -/
def prefixText (pre : Ty) (text : String) : String :=
  match pre with
  | .noPrefix => ""
  | _ => text ++ "#"

mutual

/-- A type in words for messages. -/
def typeText : Ty → String
  | .noPrefix => "<noprefix>"
  | .this s => (T.get s).name.text ++ ".this.type"
  | .ref pre s args =>
    prefixText pre (typeText pre) ++ (T.get s).name.text ++
      if args.isEmpty then "" else "[" ++ ", ".intercalate (typeTexts args) ++ "]"
  | .single pre s => prefixText pre (typeText pre) ++ (T.get s).name.text ++ ".type"
  | .bounds lo hi => ">: " ++ typeText lo ++ " <: " ++ typeText hi
  | .existential qs u =>
    typeText u ++ " forSome \x7b " ++ "; ".intercalate (T.namesOf qs) ++ " \x7d"
  | .refined ps ds =>
    " with ".intercalate (typeTexts ps) ++ " \x7b " ++ "; ".intercalate (T.namesOf ds) ++ " \x7d"
  | .method ps r => "(" ++ ", ".intercalate (T.namesOf ps) ++ ")" ++ typeText r
  | .nullary r => "=> " ++ typeText r
  | .poly ps r => "[" ++ ", ".intercalate (T.namesOf ps) ++ "]" ++ typeText r
  | .constant c => c.text ++ ".type"
  | .unspecified => "Type"

def typeTexts : List Ty → List String
  | [] => []
  | t :: ts => typeText t :: typeTexts ts

end

end TreeRepair.SymbolTable
