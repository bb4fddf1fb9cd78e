/-!
# Debug quoting

The `{:?}` form of a string: quoted, with the escapes of `str::escape_debug`.
Characters above ASCII are copied, so the form is exact on ASCII text; the
library's table of non-printable characters is not modelled.
-/
namespace MinMcp.Core.Text

def debugChar (c : Char) : List Char :=
  if c = '"' then ['\\', '"']
  else if c = '\\' then ['\\', '\\']
  else if c = '\n' then ['\\', 'n']
  else if c = '\r' then ['\\', 'r']
  else if c = '\t' then ['\\', 't']
  else if c.toNat = 0 then ['\\', '0']
  else if c.toNat < 0x20 ∨ c.toNat = 0x7f then
    ['\\', 'u', '{'] ++ Nat.toDigits 16 c.toNat ++ ['}']
  else [c]

def debugStr (cs : List Char) : List Char := '"' :: cs.flatMap debugChar ++ ['"']

/-- A list of strings. -/
def debugStrs (ss : List String) : String :=
  "[" ++ ", ".intercalate (ss.map fun s => String.ofList (debugStr s.toList)) ++ "]"

end MinMcp.Core.Text
