namespace Containment

/-! An outline shows a value for diagnosis: a number, or a named record of fields.
It is written on one line, or with a field on each line. -/

inductive Outline where
  | number (value : Nat)
  | record (name : String) (fields : List (String × Outline))

namespace Outline

mutual

def compact : Outline → String
  | .number value => value.repr
  | .record name fields =>
      name ++ " \x7b " ++ ", ".intercalate (compactFields fields) ++ " \x7d"

def compactFields : List (String × Outline) → List String
  | [] => []
  | (name, value) :: rest => (name ++ ": " ++ value.compact) :: compactFields rest

end

def indentation : Nat → String
  | 0 => ""
  | depth + 1 => "    " ++ indentation depth

mutual

/-- The closing line of a record stands at the given depth, its fields deeper. -/
def indented (depth : Nat) : Outline → String
  | .number value => value.repr
  | .record name fields =>
      name ++ " \x7b\n" ++ indentedFields (depth + 1) fields
        ++ indentation depth ++ "\x7d"

def indentedFields (depth : Nat) : List (String × Outline) → String
  | [] => ""
  | (name, value) :: rest =>
      indentation depth ++ name ++ ": " ++ value.indented depth ++ ",\n"
        ++ indentedFields depth rest

end

end Outline

end Containment
