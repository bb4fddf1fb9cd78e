import MinMcp.Core.Json.Compare
import MinMcp.Core.Json.Read
import Mathlib.Algebra.Group.Int.Defs

/-!
# The JSON-RPC envelope

The id of an upstream's answer, by the one rule both client transports use
(src/jsonrpc.rs): an integer literal, else a number as a float cut to an integer, else
a string that parses as an integer.
-/
namespace MinMcp.L3.JsonRpc

open MinMcp.Core

/-- mirrors src/jsonrpc.rs:6 -/
def methodNotFound : Int := -32601

/-- `text.parse::<i64>()`. -/
def parseI64 (text : List Char) : Option Int64 :=
  let (neg, digits) : Bool × List Char := match text with
    | '-' :: ds => (true, ds)
    | '+' :: ds => (false, ds)
    | ds => (false, ds)
  let n : Int := Nat.ofDigitChars 10 digits 0
  let i := if neg then -n else n
  if digits ≠ [] ∧ digits.all Char.isDigit ∧ -2 ^ 63 ≤ i ∧ i < 2 ^ 63 then some (Int64.ofInt i) else none

/-- `f as i64`: towards zero, and to the nearest bound where it does not fit. -/
def f64AsI64 (f : Rat) : Int64 :=
  let t := if f < 0 then -(-f).floor else f.floor
  Int64.ofInt (max (-2 ^ 63) (min t (2 ^ 63 - 1)))

/-- `value.as_i64()`: the literal parsed. -/
def asI64 : Json → Option Int64
  | .num n => parseI64 n.text.toList
  | _ => none

/-- mirrors src/jsonrpc.rs:11-16 -/
def responseId (v : Json) : Option Int64 :=
  (v.get "id").bind fun id =>
    (asI64 id).or ((id.asF64.map f64AsI64).or (id.asStr.bind fun s => parseI64 s.toList))

/-- mirrors src/jsonrpc.rs:18-20 -/
def result (id result : Json) : Json :=
  .obj [("jsonrpc", .str "2.0"), ("id", id), ("result", result)]

/-- mirrors src/jsonrpc.rs:22-24 -/
def error (id : Json) (code : Int) (message : String) : Json :=
  .obj [("jsonrpc", .str "2.0"), ("id", id),
    ("error", .obj [("code", .num (Num.ofInt code)), ("message", .str message)])]

/-- A message that is no request or notification. -/
def IsResponse (v : Json) : Prop := v.get "method" = none

/-- The echoes of an id that some servers make. -/
example : ["7", "7.0", "\"7\"", "7.9", "1e400", "null"].map (fun t =>
    ((JsonReader.read t.toList).bind fun id => responseId (.obj [("id", id)]))) =
      [some 7, some 7, some 7, some 7, none, none] := by decide +kernel

end MinMcp.L3.JsonRpc
