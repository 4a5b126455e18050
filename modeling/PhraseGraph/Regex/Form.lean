import PhraseGraph.Regex.Basic

/-!
# PhraseGraph.Regex.Form

Regular expressions as they are written, and a reader of the written text.

The reader goes through the text once, character by character. A backslash takes away the meaning
that the next character has, or names a character by its code. Everything else is read by the place
that it stands in: in a row of items, behind a bracket that opens a group or a set, within a set,
or within the bounds of a repetition. Rows that are not ended yet are kept beneath the one that is
read.

Only a part of what can be written is read: groups that capture nothing, sets of all characters but
some, greedy repetitions, and the two ends of the text. For anything else there is no form.
-/

namespace PhraseGraph

namespace Regex

/-- What a set names: a character, or all characters between two. -/
inductive SetMember where
  | only (c : Char)
  | range (first last : Char)
  deriving DecidableEq

def SetMember.contains : SetMember → Char → Bool
  | .only d, c => c == d
  | .range first last, c => decide (first ≤ c) && decide (c ≤ last)

/-- An expression as it is written. -/
inductive Form where
  | literal (c : Char)
  /-- Any character but those that are named. -/
  | except (members : List SetMember)
  | textStart
  | textEnd
  | group (body : Form)
  | concat (items : List Form)
  | alternation (branches : List Form)
  | repetition (body : Form) (least : Nat) (most : Option Nat)

namespace Form

/-- Items in a row. A single one stands for itself. -/
def ofItems : List Form → Form
  | [e] => e
  | es => .concat es

def ofBranches : List Form → Form
  | [e] => e
  | es => .alternation es

end Form

/-! ### Characters -/

/-- The characters that have a meaning of their own, somewhere in an expression. -/
def metacharacters : List Char :=
  ['\\', '.', '+', '*', '?', '(', ')', '|', '[', ']', '\x7b', '\x7d', '^', '$', '#', '&', '-', '~']

/-- A text in which every character stands for itself. -/
def escape (cs : List Char) : List Char :=
  cs.flatMap fun c => if c ∈ metacharacters then ['\\', c] else [c]

def hexDigit? (c : Char) : Option Nat :=
  if c.isDigit then some (c.toNat - '0'.toNat)
  else if 'a' ≤ c ∧ c ≤ 'f' then some (c.toNat - 'a'.toNat + 10)
  else if 'A' ≤ c ∧ c ≤ 'F' then some (c.toNat - 'A'.toNat + 10)
  else none

/-! ### Reader -/

/-- A row of items, and the branches that stand before it. The last ones come first. -/
structure Row where
  branches : List Form := []
  items : List Form := []

namespace Row

def push (row : Row) (e : Form) : Row := { row with items := e :: row.items }

/-- The row is ended by a bar, and another branch begins. -/
def bar (row : Row) : Row := ⟨.ofItems row.items.reverse :: row.branches, []⟩

def form (row : Row) : Form := .ofBranches row.bar.branches.reverse

end Row

/-- Where the next character stands, if it has not been escaped. -/
inductive Reader.Place where
  | row
  /-- Behind `(`. -/
  | opening
  /-- Behind `(?`. -/
  | kind
  /-- Behind `[`. -/
  | set
  /-- Behind the members of a set of other characters, the last one first. -/
  | members (ms : List SetMember)
  /-- Behind the first character of a range and a hyphen. -/
  | range (ms : List SetMember) (first : Char)
  /-- Behind digits of the lower bound of a repetition. -/
  | least (n : Option Nat)
  | most (least : Nat) (n : Option Nat)

/-- How far an escape has been read. -/
inductive Reader.Escape where
  | no
  | begun
  /-- Behind the letter that announces a code. -/
  | code
  | digit (n : Nat)
  /-- Behind digits of a code in brackets. -/
  | digits (n : Option Nat)

structure Reader where
  escape : Reader.Escape := .no
  place : Reader.Place := .row
  row : Row := {}
  /-- The rows around the row that is read, the inmost first. -/
  outer : List Row := []

namespace Reader

def item (r : Reader) (e : Form) : Reader := { r with place := .row, row := r.row.push e }

/-- A group begins. -/
def opened (r : Reader) : Reader := { r with place := .row, row := {}, outer := r.row :: r.outer }

def close (r : Reader) : Option Reader :=
  match r.outer with
  | [] => none
  | row :: outer => some { r with row := row.push (.group r.row.form), outer }

/-- The last item is repeated. -/
def repeated (r : Reader) (least : Nat) (most : Option Nat) : Option Reader :=
  match r.row.items with
  | [] => none
  -- a second sign would change how the first one is meant
  | .repetition _ _ _ :: _ => none
  | e :: es =>
    if most.all (least ≤ ·) then
      some { r with place := .row, row := { r.row with items := .repetition e least most :: es } }
    else none

/-- A character that stands for itself. -/
def exact (r : Reader) (c : Char) : Option Reader :=
  match r.place with
  | .row => some (r.item (.literal c))
  | .members ms => some { r with place := .members (.only c :: ms) }
  | .range ms first =>
    if first ≤ c then some { r with place := .members (.range first c :: ms) } else none
  | _ => none

def anchor (r : Reader) (e : Form) : Option Reader :=
  match r.place with
  | .row => some (r.item e)
  | _ => none

/-- A character that has not been escaped, in a row. -/
def rowChar (r : Reader) : Char → Option Reader
  | '(' => some { r with place := .opening }
  | ')' => r.close
  | '|' => some { r with row := r.row.bar }
  | '[' => some { r with place := .set }
  | '?' => r.repeated 0 (some 1)
  | '*' => r.repeated 0 none
  | '+' => r.repeated 1 none
  | '\x7b' => some { r with place := .least none }
  | '.' => none
  | '^' => none
  | '$' => none
  | c => some (r.item (.literal c))

def nextDigit (n : Option Nat) (c : Char) : Nat := 10 * n.getD 0 + (c.toNat - '0'.toNat)

/-- A character that has not been escaped. -/
def plain (r : Reader) (c : Char) : Option Reader :=
  match r.place with
  | .row => r.rowChar c
  | .opening => if c = '?' then some { r with place := .kind } else none
  | .kind => if c = ':' then some r.opened else none
  | .set => if c = '^' then some { r with place := .members [] } else none
  | .members [] => none
  | .members (m :: ms) =>
    if c = ']' then some (r.item (.except (m :: ms).reverse))
    else if c = '-' then
      match m with
      | .only first => some { r with place := .range ms first }
      | .range _ _ => none
    else none
  | .range _ _ => none
  | .least n =>
    if c.isDigit then some { r with place := .least (some (nextDigit n c)) }
    else if c = ',' then n.map fun least => { r with place := .most least none }
    else none
  | .most least n =>
    if c.isDigit then some { r with place := .most least (some (nextDigit n c)) }
    else if c = '\x7d' then r.repeated least n
    else none

/-- The character with a code, if there is one. -/
def coded (r : Reader) (n : Nat) : Option Reader :=
  if n.isValidChar then { r with escape := .no }.exact (Char.ofNat n) else none

def step (r : Reader) (c : Char) : Option Reader :=
  match r.escape with
  | .no => if c = '\\' then some { r with escape := .begun } else r.plain c
  | .begun =>
    if c ∈ metacharacters then { r with escape := .no }.exact c
    else if c = 'x' then some { r with escape := .code }
    else if c = 'A' then { r with escape := .no }.anchor .textStart
    else if c = 'z' then { r with escape := .no }.anchor .textEnd
    else none
  | .code =>
    if c = '\x7b' then some { r with escape := .digits none }
    else (hexDigit? c).map fun d => { r with escape := .digit d }
  | .digit n => (hexDigit? c).bind fun d => r.coded (16 * n + d)
  | .digits n =>
    if c = '\x7d' then n.bind r.coded
    else (hexDigit? c).map fun d => { r with escape := .digits (some (16 * n.getD 0 + d)) }

/-- What has been read if the text ends here: nothing may be left open. -/
def form? (r : Reader) : Option Form :=
  match r.escape, r.place, r.outer with
  | .no, .row, [] => some r.row.form
  | _, _, _ => none

end Reader

/-- The form of an expression that is written as a text. -/
def Form.read? (cs : List Char) : Option Form := (cs.foldlM Reader.step {}).bind Reader.form?

end Regex

end PhraseGraph
