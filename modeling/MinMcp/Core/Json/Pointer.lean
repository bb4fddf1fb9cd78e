import MinMcp.Core.Json.Read

/-!
# Pointers into a value

A reference into the document it stands in is a fragment: percent escapes are decoded, and the
parts of the pointer are separated by slashes, with `~1` for a slash in a part and `~0` for a
tilde. A part names a field of an object or an element of an array.
-/
namespace MinMcp.Core

namespace Pointer

/-- A part of a pointer, its escapes decoded. -/
def unescape : List Char → List Char
  | '~' :: '1' :: cs => '/' :: unescape cs
  | '~' :: '0' :: cs => '~' :: unescape cs
  | c :: cs => c :: unescape cs
  | [] => []

/-- The bytes of a fragment. -/
def fragmentBytes : List Char → List UInt8
  | '%' :: a :: b :: cs =>
    match JsonReader.hexValue a, JsonReader.hexValue b with
    | some x, some y => UInt8.ofNat (16 * x + y) :: fragmentBytes cs
    | _, _ => String.utf8EncodeChar '%' ++ fragmentBytes (a :: b :: cs)
  | c :: cs => String.utf8EncodeChar c ++ fragmentBytes cs
  | [] => []

/-- The parts of a decoded fragment. -/
def parts (fragment : String) : Option (List String) :=
  match fragment.toList with
  | [] => some []
  | '/' :: path => some ((path.splitOn '/').map fun part => String.ofList (unescape part))
  | _ => none

/-- The pointer a reference into its own document holds, `none` for any other reference. -/
def parse (r : String) : Option (List String) :=
  match r.toList with
  | '#' :: fragment => (String.fromUTF8? ⟨(fragmentBytes fragment).toArray⟩).bind parts
  | _ => none

/-- Digits only, and no leading zero. -/
def index (part : String) : Option Nat :=
  let n := Nat.ofDigitChars 10 part.toList 0
  if String.ofList (Nat.toDigits 10 n) = part then some n else none

def child : Json → String → Option Json
  | .obj es, part => es.lookup part
  | .arr xs, part => (index part).bind fun i => xs[i]?
  | _, _ => none

/-- What a reference refers to in its document. -/
def target (root : Json) (r : String) : Option Json := (parse r).bind fun ps => ps.foldlM child root

end Pointer

end MinMcp.Core
