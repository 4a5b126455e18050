import PhraseGraph.Regex.Threads

/-!
# PhraseGraph.Regex.Search

Matching a text from its start on: whether an expression matches the whole text, whether it
matches some leading part, and where the preferred match ends.

All threads read the text side by side, the preferred ones first. Where a thread is done, the
threads behind it are given up, because whatever they find is liked less.
-/

namespace PhraseGraph.Regex

open Sweep

/-- The sweep of the tasks that a thread has left after it has read a character. -/
def Thread.sweepAfter (c : Char) : Thread → Sweep
  | .done => nothing
  | .reading set rest => if set.accepts c then sweepPlace rest else nothing

def sweepAfter (c : Char) : List Thread → Sweep
  | [] => nothing
  | t :: ts => (t.sweepAfter c).andThen (sweepAfter c ts)

/-- All threads read a character. A place that several of them come to belongs to the first. -/
def advance (c : Char) (ts : List Thread) : List Thread := (sweepAfter c ts {}).1

/-- Whether some thread is done at the end of the text. -/
def endsDone : List Thread → List Char → Bool
  | ts, [] => ts.contains .done
  | ts, c :: cs => endsDone (advance c ts) cs

def getsDone : List Thread → List Char → Bool
  | ts, [] => ts.contains .done
  | ts, c :: cs => ts.contains .done || getsDone (advance c ts) cs

/-- The number of characters that the preferred thread reads until it is done. -/
def preferredLength : List Thread → List Char → Option Nat
  | ts, [] => if ts.contains .done then some 0 else none
  | ts, c :: cs =>
    -- threads that are preferred to stopping go on; if they all fail, the match ends here
    match preferredLength (advance c (ts.takeWhile (· ≠ .done))) cs with
    | some n => some (n + 1)
    | none => if ts.contains .done then some 0 else none

def matchesWhole (e : Regex) (cs : List Char) : Bool := endsDone (threads (.start e)) cs

/-- Whether the expression matches some leading part of the text. -/
def matchesStart (e : Regex) (cs : List Char) : Bool := getsDone (threads (.start e)) cs

/-- The length of the preferred match at the start of the text. -/
def matchLength? (e : Regex) (cs : List Char) : Option Nat :=
  preferredLength (threads (.start e)) cs

end PhraseGraph.Regex
