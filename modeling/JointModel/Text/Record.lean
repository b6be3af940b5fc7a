/-!
# Written values

The layout of structured values in diagnostic texts: records with named
fields, constructors with one argument, lists, tables and optional values.
-/

namespace JointModel.Text

/-- A record with its name and fields.  An open record has fields that are not
shown. -/
def record (name : String) (fields : List (String × String)) (isOpen : Bool) : String :=
  let shown := fields.map fun field => field.1 ++ ": " ++ field.2
  name ++ " \x7b " ++ ", ".intercalate (shown ++ if isOpen then [".."] else []) ++ " \x7d"

/-- A constructor applied to one argument. -/
def applied (name argument : String) : String :=
  name ++ "(" ++ argument ++ ")"

/-- A list between brackets. -/
def list (items : List String) : String :=
  "[" ++ ", ".intercalate items ++ "]"

/-- A table of keys and values between braces. -/
def table (entries : List (String × String)) : String :=
  "\x7b" ++ ", ".intercalate (entries.map fun entry => entry.1 ++ ": " ++ entry.2) ++ "\x7d"

/-- A value that may be missing. -/
def optional : Option String → String
  | some value => applied "Some" value
  | none => "None"

/-- A truth value. -/
def truth (b : Bool) : String :=
  if b then "true" else "false"

end JointModel.Text
