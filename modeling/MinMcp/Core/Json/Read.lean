import MinMcp.Core.Json.Print

/-!
# Reading JSON text

The reader of a JSON document as an automaton with a stack of open containers:
one `step` for each character, so reading a concatenation is reading the parts
in turn (`run_append`) and no fuel is needed. It refuses what the library
refuses: a container opened inside `depthLimit` others, a control character in a
string, a lone surrogate escape, a number with a leading zero, anything but
blanks after the document. A key that occurs twice keeps its first place and its
last value, and a number keeps its text but for the exponent (`Num.ofLiteral`).

Not modelled: the library's private marker key for numbers, and byte order marks.

Results (in the round-trip module):
* `read_print`: reading back what `Json.print` wrote gives the value.
* `read_blank_append`: blanks in front of a document change nothing.
* `read_append_eq_none`: after a complete object only blanks can follow.
-/
namespace MinMcp.Core.JsonReader

/-- Containers that may be open at once. -/
def depthLimit : Nat := 127

/-- An open container around the value being read. -/
inductive Frame where
  | arr (xs : List Json)
  | obj (es : List (String × Json)) (key : String)
  deriving DecidableEq

/-- What a string is read for: a value, or the next key of an object. -/
inductive StrFor where
  | value
  | key (es : List (String × Json))
  deriving DecidableEq

inductive Mode where
  | value
  | arrFirst
  | arrNext (xs : List Json)
  | objFirst
  | objKey (es : List (String × Json))
  | colon (es : List (String × Json)) (key : String)
  | objNext (es : List (String × Json))
  | str (f : StrFor) (acc : List Char)
  | esc (f : StrFor) (acc : List Char)
  /-- After `\u`: `n` digits with value `val` read; `high` is the leading surrogate
  this escape must complete. -/
  | hex (f : StrFor) (acc : List Char) (high : Option Nat) (n val : Nat)
  | low (f : StrFor) (acc : List Char) (high : Nat)
  | lowU (f : StrFor) (acc : List Char) (high : Nat)
  | word (rest : List Char) (v : Json)
  | num (text : List Char) (s : NumState)
  | done (v : Json)
  deriving DecidableEq

structure Reader where
  stack : List Frame
  mode : Mode
  deriving DecidableEq

def init : Reader := ⟨[], .value⟩

def isBlank (c : Char) : Bool := c = ' ' || c = '\n' || c = '\t' || c = '\r'

/-- A value is complete: hand it to the container around it. -/
def complete (v : Json) : List Frame → Reader
  | [] => ⟨[], .done v⟩
  | .arr xs :: st => ⟨st, .arrNext (xs ++ [v])⟩
  | .obj es k :: st => ⟨st, .objNext (OrderedMap.insert k v es)⟩

/-- The first character of a value. -/
def startValue (st : List Frame) (c : Char) : Option Reader :=
  if c = '"' then some ⟨st, .str .value []⟩
  else if c = '[' then if st.length < depthLimit then some ⟨st, .arrFirst⟩ else none
  else if c = '{' then if st.length < depthLimit then some ⟨st, .objFirst⟩ else none
  else if c = 't' then some ⟨st, .word "rue".toList (.bool true)⟩
  else if c = 'f' then some ⟨st, .word "alse".toList (.bool false)⟩
  else if c = 'n' then some ⟨st, .word "ull".toList .null⟩
  else (NumState.start.step c).map fun s => ⟨st, .num [c] s⟩

/-- The next character after a complete value. -/
def next (r : Reader) (c : Char) : Option Reader :=
  if isBlank c then some r
  else match r.mode with
    | .arrNext xs =>
      if c = ',' then some ⟨.arr xs :: r.stack, .value⟩
      else if c = ']' then some (complete (.arr xs) r.stack) else none
    | .objNext es =>
      if c = ',' then some ⟨r.stack, .objKey es⟩
      else if c = '}' then some (complete (.obj es) r.stack) else none
    | _ => none

def endString (st : List Frame) (acc : List Char) : StrFor → Reader
  | .value => complete (.str (String.ofList acc)) st
  | .key es => ⟨st, .colon es (String.ofList acc)⟩

def unescape (c : Char) : Option Char :=
  if c = '"' then some '"'
  else if c = '\\' then some '\\'
  else if c = '/' then some '/'
  else if c = 'b' then some '\x08'
  else if c = 'f' then some '\x0c'
  else if c = 'n' then some '\n'
  else if c = 'r' then some '\r'
  else if c = 't' then some '\t'
  else none

def hexValue (c : Char) : Option Nat :=
  if c.isDigit then some (c.toNat - '0'.toNat)
  else if 'a'.toNat ≤ c.toNat ∧ c.toNat ≤ 'f'.toNat then some (c.toNat - 'a'.toNat + 10)
  else if 'A'.toNat ≤ c.toNat ∧ c.toNat ≤ 'F'.toNat then some (c.toNat - 'A'.toNat + 10)
  else none

def isHighSurrogate (n : Nat) : Bool := 0xD800 ≤ n && n ≤ 0xDBFF

def isLowSurrogate (n : Nat) : Bool := 0xDC00 ≤ n && n ≤ 0xDFFF

/-- The four digits of a `\u` escape are read. -/
def endHex (f : StrFor) (acc : List Char) (high : Option Nat) (val : Nat) : Option Mode :=
  match high with
  | none =>
    if isHighSurrogate val then some (.low f acc val)
    else if isLowSurrogate val then none
    else some (.str f (acc ++ [Char.ofNat val]))
  | some h =>
    if isLowSurrogate val then
      some (.str f (acc ++ [Char.ofNat (0x10000 + (h - 0xD800) * 0x400 + (val - 0xDC00))]))
    else none

/-- A number literal ends where it cannot go on. -/
def closeNum (st : List Frame) (text : List Char) (s : NumState) : Option Reader :=
  if s.accepting then (Num.ofLiteral text).map fun n => complete (.num n) st else none

def step (r : Reader) (c : Char) : Option Reader :=
  match r.mode with
  | .value => if isBlank c then some r else startValue r.stack c
  | .arrFirst =>
    if isBlank c then some r
    else if c = ']' then some (complete (.arr []) r.stack)
    else startValue (.arr [] :: r.stack) c
  | .objFirst =>
    if isBlank c then some r
    else if c = '}' then some (complete (.obj []) r.stack)
    else if c = '"' then some ⟨r.stack, .str (.key []) []⟩ else none
  | .objKey es =>
    if isBlank c then some r
    else if c = '"' then some ⟨r.stack, .str (.key es) []⟩ else none
  | .colon es k =>
    if isBlank c then some r
    else if c = ':' then some ⟨.obj es k :: r.stack, .value⟩ else none
  | .str f acc =>
    if c = '"' then some (endString r.stack acc f)
    else if c = '\\' then some ⟨r.stack, .esc f acc⟩
    else if c.toNat < 0x20 then none
    else some ⟨r.stack, .str f (acc ++ [c])⟩
  | .esc f acc =>
    if c = 'u' then some ⟨r.stack, .hex f acc none 0 0⟩
    else (unescape c).map fun d => ⟨r.stack, .str f (acc ++ [d])⟩
  | .hex f acc high n val =>
    (hexValue c).bind fun d =>
      if n < 3 then some ⟨r.stack, .hex f acc high (n + 1) (16 * val + d)⟩
      else (endHex f acc high (16 * val + d)).map fun m => ⟨r.stack, m⟩
  | .low f acc h => if c = '\\' then some ⟨r.stack, .lowU f acc h⟩ else none
  | .lowU f acc h => if c = 'u' then some ⟨r.stack, .hex f acc (some h) 0 0⟩ else none
  | .word [] _ => none
  | .word [d] v => if c = d then some (complete v r.stack) else none
  | .word (d :: ds) v => if c = d then some ⟨r.stack, .word ds v⟩ else none
  | .num text s =>
    match s.step c with
    | some s' => some ⟨r.stack, .num (text ++ [c]) s'⟩
    | none => (closeNum r.stack text s).bind fun r' => next r' c
  | .arrNext _ | .objNext _ | .done _ => next r c

def run (r : Reader) : List Char → Option Reader
  | [] => some r
  | c :: cs => (step r c).bind fun r' => run r' cs

def result (r : Reader) : Option Json :=
  match r.mode with
  | .done v => some v
  | _ => none

/-- The end of the text. -/
def finish (r : Reader) : Option Json :=
  match r.mode with
  | .num text s => (closeNum r.stack text s).bind result
  | _ => result r

/-- The document read from `r` on. -/
def outcome (r : Reader) (cs : List Char) : Option Json := (run r cs).bind finish

/-- `from_str`. -/
def read (cs : List Char) : Option Json := outcome init cs

theorem run_append (r : Reader) (xs ys : List Char) :
    run r (xs ++ ys) = (run r xs).bind fun r' => run r' ys := by
  induction xs generalizing r with
  | nil => rfl
  | cons c cs ih =>
    simp only [List.cons_append, run]
    cases step r c with
    | none => rfl
    | some r' => exact ih r'

theorem outcome_append {r s : Reader} {xs : List Char} (h : run r xs = some s) (ys : List Char) :
    outcome r (xs ++ ys) = outcome s ys := by
  rw [outcome, run_append, h]; rfl

theorem outcome_cons {r s : Reader} {c : Char} (h : step r c = some s) (cs : List Char) :
    outcome r (c :: cs) = outcome s cs := by
  rw [outcome, run, h]; rfl

end MinMcp.Core.JsonReader
