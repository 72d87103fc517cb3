/-! # Records as text

A record is written as its name and its fields in braces. -/

namespace Nmos6502.Text

/-- The fields in order, separated by a comma and a blank. -/
def fields (items : List (String × String)) : String :=
  String.intercalate ", " (items.map fun (name, value) => name ++ ": " ++ value)

def record (name : String) (items : List (String × String)) : String :=
  name ++ " \x7b " ++ fields items ++ " \x7d"

/-- A record that has more fields than are shown. -/
def openRecord (name : String) (items : List (String × String)) : String :=
  name ++ " \x7b " ++ fields items ++ ", .. \x7d"

end Nmos6502.Text
