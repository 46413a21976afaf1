/-!
A plain way to write a value out in full: a record is its name and its named fields between braces,
a wrapped value its name and the value between parentheses, a list its items between brackets.
-/
namespace PieceIndex
namespace Record

def record (name : String) (fields : List (String × String)) : String :=
  name ++ " \x7b " ++ ", ".intercalate (fields.map fun (field, value) => field ++ ": " ++ value) ++
    " \x7d"

def wrapped (name value : String) : String := name ++ "(" ++ value ++ ")"

def optional {α : Type} (write : α → String) : Option α → String
  | none => "None"
  | some value => wrapped "Some" (write value)

def listing {α : Type} (write : α → String) (items : List α) : String :=
  "[" ++ ", ".intercalate (items.map write) ++ "]"

end Record
end PieceIndex
