import PhraseGraph.Json.Scan

/-!
# PhraseGraph.Json.Reader

Readers for JSON texts of a known shape: strings, names out of a list, and records.

A record is an object in which each field stands at most once and unknown fields are passed
over, or a list of the fields in order of which the last ones may be missing. A name is a string,
or an object with that name as its only key and `null` as its value.

The first fault from the left is the one that is reported. A field that comes a second time, a
name that is not in the list and a required field that is missing are mismatches, found where the
text has said enough to tell.
-/

namespace PhraseGraph.Json

/-- Reads a value from the front of a text. -/
abbrev Reader (α : Type) := List Char → Except Fault (α × List Char)

/-- The fault where a value stands that is not of the expected kind: a mismatch, unless reading
it finds a fault first. -/
def otherKind (cs : List Char) : Fault :=
  let outcome : Except Fault Unit := match cs with
    | [] => .error .truncated
    | 'n' :: cs => (expect "ull".toList cs).map fun _ => ()
    | 't' :: cs => (expect "rue".toList cs).map fun _ => ()
    | 'f' :: cs => (expect "alse".toList cs).map fun _ => ()
    | '"' :: cs => (stringBody cs).map fun _ => ()
    -- lists and objects are told by their bracket alone
    | '[' :: _ => .ok ()
    | '\x7b' :: _ => .ok ()
    | c :: cs => if c = '-' ∨ c.isDigit then checkNumber (c :: cs) else .error .malformed
  match outcome with
  | .ok () => .mismatched
  | .error fault => fault

def readString : Reader String := fun cs =>
  match dropSpace cs with
  | '"' :: cs => (stringBody cs).map fun (text, rest) => (String.ofList text, rest)
  | cs => .error (otherKind cs)

def readNull (cs : List Char) : Except Fault (List Char) :=
  match dropSpace cs with
  | 'n' :: cs => expect "ull".toList cs
  | cs => .error (otherKind cs)

/-! ### Names -/

/-- Reads a string that is one of the given names. -/
def readKnown {α : Type} (names : List (String × α)) : Reader α := fun cs => do
  let (name, rest) ← readString cs
  match names.lookup name with
  | some a => .ok (a, rest)
  | none => .error .mismatched

def readName {α : Type} (names : List (String × α)) : Reader α := fun cs =>
  match dropSpace cs with
  | '"' :: cs => readKnown names ('"' :: cs)
  | '\x7b' :: cs => do
    let cs ← expectMark '"' cs
    let (a, cs) ← readKnown names ('"' :: cs)
    let cs ← expectMark ':' cs
    let cs ← readNull cs
    let cs ← expectMark '\x7d' cs
    .ok (a, cs)
  | cs => .error (unexpected cs)

/-! ### Records -/

section Record

variable {φ α : Type} [DecidableEq φ] (field? : String → Option φ) (value : φ → Reader α)

/-- Reads a key, a colon and a value. -/
def readMember (known : List (φ × α)) : Reader (List (φ × α)) := fun cs => do
  let cs ← expectMark '"' cs
  let (key, cs) ← stringBody cs
  match field? (String.ofList key) with
  -- an unknown field is passed over, whatever its value is
  | none => do
    let cs ← expectMark ':' cs
    let cs ← skipValue cs
    .ok (known, cs)
  | some field =>
    -- a field stands once
    if (known.lookup field).isSome then .error .mismatched
    else do
      let cs ← expectMark ':' cs
      let (a, cs) ← value field cs
      .ok (known ++ [(field, a)], cs)

/-- Reads the members of an object and its last bracket. -/
def readMembers : Nat → Bool → List (φ × α) → Reader (List (φ × α))
  | 0, _, _, _ => .error .truncated
  | fuel + 1, first, known, cs =>
    match dropSpace cs with
    | [] => .error .truncated
    | '\x7d' :: cs => .ok (known, cs)
    | c :: cs =>
      if first || c = ',' then do
        let (known, cs) ← readMember field? value known (if first then c :: cs else cs)
        readMembers fuel false known cs
      else .error .malformed

/-- Reads the given fields as elements of a list, up to the last bracket or the last field. -/
def readElements : List φ → Bool → List (φ × α) → Reader (List (φ × α))
  | [], _, known, cs => .ok (known, cs)
  | field :: fields, first, known, cs =>
    match dropSpace cs with
    | [] => .error .truncated
    | ']' :: cs => .ok (known, ']' :: cs)
    | c :: cs =>
      let start := if first then some (c :: cs) else if c = ',' then some cs else none
      -- a comma is followed by an element
      match start.map dropSpace with
      | none => .error .malformed
      | some [] => .error .truncated
      | some (']' :: _) => .error .malformed
      | some cs => do
        let (a, cs) ← value field cs
        readElements fields false (known ++ [(field, a)]) cs

/-- Reads a record with the given fields, all of them if they are required. -/
def readRecord (fields : List φ) (required : Bool) : Reader (List (φ × α)) := fun cs =>
  let complete (known : List (φ × α)) : Bool :=
    !required || fields.all fun field => (known.lookup field).isSome
  match dropSpace cs with
  | '\x7b' :: cs => do
    let (known, cs) ← readMembers field? value (cs.length + 1) true [] cs
    if complete known then .ok (known, cs) else .error .mismatched
  | '[' :: cs => do
    let (known, cs) ← readElements value fields true [] cs
    if complete known then do
      let cs ← expectMark ']' cs
      .ok (known, cs)
    else .error .mismatched
  | cs => .error (otherKind cs)

end Record

def decode {α : Type} (read : Reader α) (text : String) : Except Fault α := do
  let (a, rest) ← read text.toList
  -- nothing but white space may follow the value
  if (dropSpace rest).isEmpty then .ok a else .error .malformed

end PhraseGraph.Json
