import PhraseGraph.Numeral.Estimate

/-!
# PhraseGraph.Json.Scan

The parts of a JSON text, read from the left.

A scan takes the characters that are left and returns what it has read with the rest, or the
first fault it meets. A text that stops where more has to follow has a fault of its own.
-/

namespace PhraseGraph.Json

/-- Why a text is not the JSON text of a value of the expected kind. -/
inductive Fault where
  | malformed
  /-- It is JSON as far as it has been read, but not of the expected kind. -/
  | mismatched
  | truncated
  deriving DecidableEq

def Fault.category : Fault → String
  | .malformed => "syntax"
  | .mismatched => "data"
  | .truncated => "eof"

def isSpace (c : Char) : Bool := c == ' ' || c == '\t' || c == '\n' || c == '\r'

def dropSpace (cs : List Char) : List Char := cs.dropWhile isSpace

/-- The fault where something else should stand: what is there, or that nothing is. -/
def unexpected : List Char → Fault
  | [] => .truncated
  | _ => .malformed

def expect : List Char → List Char → Except Fault (List Char)
  | [], cs => .ok cs
  | _ :: _, [] => .error .truncated
  | w :: ws, c :: cs => if c = w then expect ws cs else .error .malformed

/-- Reads one character after white space. -/
def expectMark (mark : Char) (cs : List Char) : Except Fault (List Char) :=
  match dropSpace cs with
  | [] => .error .truncated
  | c :: rest => if c = mark then .ok rest else .error .malformed

/-! ### Strings -/

def hexValue? (c : Char) : Option Nat :=
  if '0' ≤ c ∧ c ≤ '9' then some (c.toNat - '0'.toNat)
  else if 'a' ≤ c ∧ c ≤ 'f' then some (c.toNat - 'a'.toNat + 10)
  else if 'A' ≤ c ∧ c ≤ 'F' then some (c.toNat - 'A'.toNat + 10)
  else none

/-- The number of bytes of a text in UTF-8. -/
def byteCount (cs : List Char) : Nat := cs.foldr (fun c count => c.utf8Size + count) 0

/-- Reads four hexadecimal digits. -/
def fourHex (cs : List Char) : Except Fault (Nat × List Char) :=
  match cs with
  | a :: b :: c :: d :: rest =>
    match hexValue? a, hexValue? b, hexValue? c, hexValue? d with
    | some a, some b, some c, some d => .ok (((a * 16 + b) * 16 + c) * 16 + d, rest)
    | _, _, _, _ => .error .malformed
  -- with less than four bytes left the text stops too early, whatever they are
  | short => .error (if byteCount short < 4 then .truncated else .malformed)

def shortEscapes : List (Char × Char) :=
  [('"', '"'), ('\\', '\\'), ('/', '/'), ('b', '\x08'), ('f', '\x0c'), ('n', '\n'), ('r', '\r'),
   ('t', '\t')]

/-- Reads what follows `\u`: a character, or the two halves of one beyond the first 65536. -/
def codePoint (cs : List Char) : Except Fault (Char × List Char) := do
  let (unit, rest) ← fourHex cs
  -- a second half without a first
  if 0xDC00 ≤ unit ∧ unit ≤ 0xDFFF then .error .malformed
  else if unit < 0xD800 ∨ 0xDBFF < unit then .ok (Char.ofNat unit, rest)
  -- a first half has to be followed by a second one
  else match rest with
    | [] => .error .truncated
    | ['\\'] => .error .truncated
    | '\\' :: 'u' :: rest => do
      let (low, rest) ← fourHex rest
      if 0xDC00 ≤ low ∧ low ≤ 0xDFFF then
        .ok (Char.ofNat (0x10000 + (unit - 0xD800) * 0x400 + (low - 0xDC00)), rest)
      else .error .malformed
    | _ => .error .malformed

def escaped : List Char → Except Fault (Char × List Char)
  | [] => .error .truncated
  | 'u' :: cs => codePoint cs
  | c :: cs => match shortEscapes.lookup c with
    | some d => .ok (d, cs)
    | none => .error .malformed

/-- Reads over what follows a backslash, whatever character it stands for. -/
def skipEscaped : List Char → Except Fault (List Char)
  | [] => .error .truncated
  | 'u' :: cs => (fourHex cs).map (·.2)
  | c :: cs => if (shortEscapes.lookup c).isSome then .ok cs else .error .malformed

theorem fourHex_length {cs rest : List Char} {n : Nat} (read : fourHex cs = .ok (n, rest)) :
    rest.length < cs.length := by
  unfold fourHex at read
  split at read
  · split at read
    · simp only [Except.ok.injEq, Prod.mk.injEq] at read
      simp only [← read.2, List.length_cons]
      omega
    · cases read
  · cases read

theorem codePoint_length {cs rest : List Char} {c : Char} (read : codePoint cs = .ok (c, rest)) :
    rest.length < cs.length := by
  unfold codePoint at read
  cases first : fourHex cs with
  | error e => simp [first, bind, Except.bind] at read
  | ok unit =>
    have shorter := fourHex_length first
    simp only [first, bind, Except.bind] at read
    split at read
    · cases read
    · split at read
      · cases read
        exact shorter
      · split at read
        · cases read
        · cases read
        · next tail shape =>
          cases second : fourHex tail with
          | error e => simp [second] at read
          | ok low =>
            have shorter' := fourHex_length second
            simp only [second] at read
            split at read
            · simp only [Except.ok.injEq, Prod.mk.injEq] at read
              simp only [shape, List.length_cons] at shorter
              rw [← read.2]
              omega
            · cases read
        · cases read

theorem escaped_length {cs rest : List Char} {c : Char} (read : escaped cs = .ok (c, rest)) :
    rest.length < cs.length := by
  unfold escaped at read
  split at read
  · cases read
  · have := codePoint_length read
    simp only [List.length_cons]
    omega
  · split at read <;> cases read
    simp

theorem skipEscaped_length {cs rest : List Char} (read : skipEscaped cs = .ok rest) :
    rest.length < cs.length := by
  unfold skipEscaped at read
  split at read
  · cases read
  · next cs =>
    cases four : fourHex cs with
    | error e => simp [four, Except.map] at read
    | ok found =>
      have := fourHex_length four
      simp only [four, Except.map, Except.ok.injEq] at read
      simp only [← read, List.length_cons]
      omega
  · split at read <;> cases read
    simp

/-- Reads the characters of a string behind its first quote, and its last quote. -/
def stringBody (cs : List Char) : Except Fault (List Char × List Char) :=
  match cs with
  | [] => .error .truncated
  | '"' :: cs => .ok ([], cs)
  | '\\' :: cs =>
    match read : escaped cs with
    | .error e => .error e
    | .ok (c, rest) =>
      have := escaped_length read
      (stringBody rest).map fun (text, rest) => (c :: text, rest)
  | c :: cs =>
    -- control characters have to be escaped
    if c.toNat < 0x20 then .error .malformed
    else (stringBody cs).map fun (text, rest) => (c :: text, rest)
termination_by cs.length
decreasing_by all_goals simp only [List.length_cons]; omega

def skipString (cs : List Char) : Except Fault (List Char) :=
  match cs with
  | [] => .error .truncated
  | '"' :: cs => .ok cs
  | '\\' :: cs =>
    match read : skipEscaped cs with
    | .error e => .error e
    | .ok rest =>
      have := skipEscaped_length read
      skipString rest
  | c :: cs => if c.toNat < 0x20 then .error .malformed else skipString cs
termination_by cs.length
decreasing_by all_goals simp only [List.length_cons]; omega

/-! ### Numbers -/

/-- Reads over digits, at least one. `atEnd` is the fault if the text stops before. -/
def skipDigits (atEnd : Fault) : List Char → Except Fault (List Char)
  | [] => .error atEnd
  | c :: cs => if c.isDigit then .ok (cs.dropWhile Char.isDigit) else .error .malformed

/-- Reads over a power of ten, if there is one. -/
def skipExponent (atEnd : Fault) : List Char → Except Fault (List Char)
  | [] => .ok []
  | e :: cs =>
    if e == 'e' || e == 'E' then
      match cs with
      | '+' :: cs => skipDigits atEnd cs
      | '-' :: cs => skipDigits atEnd cs
      | cs => skipDigits atEnd cs
    else .ok (e :: cs)

/-- Reads over a point with digits behind it, if there is one, and a power of ten. -/
def skipFraction (atEnd : Fault) : List Char → Except Fault (List Char)
  | '.' :: cs => skipDigits atEnd cs >>= skipExponent atEnd
  | cs => skipExponent atEnd cs

/-- Reads over a number without its sign. -/
def skipUnsigned (atEnd : Fault) : List Char → Except Fault (List Char)
  | [] => .error atEnd
  | '0' :: cs =>
    match cs with
    -- no digit follows a leading zero
    | c :: _ => if c.isDigit then .error .malformed else skipFraction atEnd cs
    | [] => .ok []
  | c :: cs =>
    if c.isDigit then skipFraction atEnd (cs.dropWhile Char.isDigit) else .error .malformed

/-- Reads over a number. `atEnd` is the fault if the text stops within. -/
def skipNumber (atEnd : Fault) : List Char → Except Fault (List Char)
  | '-' :: cs => skipUnsigned atEnd cs
  | cs => skipUnsigned atEnd cs

/-- Reads a number where something else should stand: one that is estimated to be beyond all
finite numbers is a fault. -/
def checkNumber (cs : List Char) : Except Fault Unit := do
  let rest ← skipNumber .truncated cs
  if Estimate.isBeyondFinite (cs.take (cs.length - rest.length)) then .error .malformed else .ok ()

/-! ### Values -/

mutual

def skipWithin : Nat → List Char → Except Fault (List Char)
  | 0, _ => .error .truncated
  | fuel + 1, cs =>
    match dropSpace cs with
    | [] => .error .truncated
    | 'n' :: cs => expect "ull".toList cs
    | 't' :: cs => expect "rue".toList cs
    | 'f' :: cs => expect "alse".toList cs
    | '"' :: cs => skipString cs
    | '[' :: cs => skipElements fuel true cs
    | '\x7b' :: cs => skipMembers fuel true cs
    | c :: cs =>
      if c = '-' ∨ c.isDigit then skipNumber .malformed (c :: cs) else .error .malformed

/-- Reads over the elements of a list and its last bracket. -/
def skipElements : Nat → Bool → List Char → Except Fault (List Char)
  | 0, _, _ => .error .truncated
  | fuel + 1, first, cs =>
    match dropSpace cs with
    | [] => .error .truncated
    | ']' :: cs => .ok cs
    | c :: cs =>
      -- elements but the first stand behind a comma
      if first then skipWithin fuel (c :: cs) >>= skipElements fuel false
      else if c = ',' then skipWithin fuel cs >>= skipElements fuel false
      else .error .malformed

/-- Reads over the members of an object and its last bracket. -/
def skipMembers : Nat → Bool → List Char → Except Fault (List Char)
  | 0, _, _ => .error .truncated
  | fuel + 1, first, cs =>
    match dropSpace cs with
    | [] => .error .truncated
    | '\x7d' :: cs => .ok cs
    | c :: cs =>
      if first then skipMember fuel (c :: cs) >>= skipMembers fuel false
      else if c = ',' then skipMember fuel cs >>= skipMembers fuel false
      else .error .malformed

def skipMember : Nat → List Char → Except Fault (List Char)
  | 0, _ => .error .truncated
  | fuel + 1, cs => do
    let cs ← expectMark '"' cs
    let cs ← skipString cs
    let cs ← expectMark ':' cs
    skipWithin fuel cs

end

def skipValue (cs : List Char) : Except Fault (List Char) :=
  -- the steps are never used up: a member takes one for itself, its value and what follows
  skipWithin (4 * cs.length + 4) cs

end PhraseGraph.Json
