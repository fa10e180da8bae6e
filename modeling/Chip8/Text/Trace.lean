/-! Text for diagnostics: a value is shown as its name and, in braces, its parts. -/

namespace Chip8.Trace

/-- A quotation mark or a backslash inside a text is marked by a backslash. The texts that are shown
hold printable characters only, so no other character needs a mark. -/
def escape : List Char → List Char
  | [] => []
  | c :: rest => if c = '"' ∨ c = '\\' then '\\' :: c :: escape rest else c :: escape rest

def quoted (s : String) : String := String.ofList ('"' :: escape s.toList ++ ['"'])

def record (name : String) (parts : List (String × String)) : String :=
  let shown := parts.map fun (part, value) => s!"{part}: {value}"
  String.join [name, " \x7b ", ", ".intercalate shown, " \x7d"]

end Chip8.Trace
