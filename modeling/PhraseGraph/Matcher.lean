import PhraseGraph.Pattern.Encoding
import PhraseGraph.Pattern.Nesting
import PhraseGraph.Regex.Search
import PhraseGraph.Regex.Size

/-!
# PhraseGraph.Matcher

Sets of patterns, each with a result, that are matched against the same tokens.
-/

namespace PhraseGraph

/-- How much of the tokens a pattern has to cover. -/
inductive MatchMode where
  | full
  | leading
  deriving DecidableEq

structure TokenMatch (ρ : Type) where
  result : ρ
  length : Nat
  deriving DecidableEq

inductive BuildError where
  /-- The pattern at this place is not well formed, and none before it. -/
  | malformed (index : Nat)
  /-- All patterns are well formed, but a program for them is too large. -/
  | tooLarge
  deriving DecidableEq

def BuildError.message (e : BuildError) : String :=
  "pattern could not be compiled: " ++
    match e with
    | .malformed index => "error parsing pattern " ++ toString index
    | .tooLarge => "error building NFA"

/-- A set of compiled patterns, in order of declaration. -/
structure Matcher (ρ : Type) where
  mode : MatchMode
  entries : List (Regex × ρ)

namespace Matcher

variable {ρ : Type}

/-- The most bytes that a program of a set of patterns may take. -/
def sizeLimit : Nat := 10 <<< 20

/-- Whether the programs of a set of expressions, forwards and backwards, stay within the limit. -/
def fits (mode : MatchMode) (es : List Regex) : Bool :=
  [.forward, .backward].all fun reading =>
    Regex.programSize reading (mode = .full) es ≤ sizeLimit

/-- Compiles patterns with their results. -/
def compile (mode : MatchMode) (entries : List (Pattern × ρ)) : Except BuildError (Matcher ρ) :=
  -- the form of all patterns is looked at before the sizes of the programs
  match entries.findIdx? fun entry => !entry.1.isWellFormed with
  | some index => .error (.malformed index)
  | none =>
    let compiled := entries.map fun entry => (entry.1.regex, entry.2)
    if fits mode (compiled.map (·.1)) then .ok ⟨mode, compiled⟩
    else .error .tooLarge

def size (m : Matcher ρ) : Nat := m.entries.length

def isEmpty (m : Matcher ρ) : Bool := m.entries.isEmpty

/-- The number of tokens that an expression covers, if it matches the text of the tokens. -/
def coverage (mode : MatchMode) (ts : List Token) (text : List Char) (e : Regex) : Option Nat :=
  match mode with
  | .full => if e.matchesWhole text then some ts.length else none
  | .leading =>
    if e.matchesStart text then (e.matchLength? text).map fun n => tokenCount (text.take n)
    else none

variable [DecidableEq ρ]

/-- Every result whose pattern matches, with the number of tokens covered, in order of
declaration and each once. -/
def hits (m : Matcher ρ) (ts : List Token) : List (TokenMatch ρ) :=
  let text := encode ts
  (m.entries.filterMap fun entry =>
    (coverage m.mode ts text entry.1).map fun length => ⟨entry.2, length⟩).eraseDups

/-- Every result whose pattern matches, in order of declaration and each once. -/
def results (m : Matcher ρ) (ts : List Token) : List ρ :=
  ((m.hits ts).map (·.result)).eraseDups

end Matcher

end PhraseGraph
