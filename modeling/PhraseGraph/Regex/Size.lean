import PhraseGraph.Regex.Basic
import PhraseGraph.Regex.Trie

/-!
# PhraseGraph.Regex.Size

The sizes of the programs that a set of expressions stands for.

There are two programs, one that reads a text forwards and one that reads it backwards. They
consist of states. A state takes some bytes, and each of its ways out and each range of bytes that
it reads among several takes some more.

## Main definitions

`Regex.size` is the size of the part of a program that is made from an expression, and
`Regex.programSize` the size of a whole program.
-/

namespace PhraseGraph.Regex

inductive Reading where
  | forward
  | backward
  deriving DecidableEq

/-- The bytes of a text in the order in which they are read. -/
def Reading.bytes (reading : Reading) (cs : List Char) : List UInt8 :=
  let bytes := cs.flatMap String.utf8EncodeChar
  match reading with
  | .forward => bytes
  | .backward => bytes.reverse

/-! ### States -/

def stateSize : Nat := 32

/-- The bytes for each way out of a state that has several. -/
def waySize : Nat := 4

/-- The bytes for each range of a state that reads several. -/
def rangeSize : Nat := 8

def forkSize : Nat := stateSize + 2 * waySize

/-- The bytes for a state with so many ways out and for a state where they meet again. -/
def branchingSize (ways : Nat) : Nat := 2 * stateSize + waySize * ways

/-- The bytes for the set of all characters but two control characters. In UTF-8 its characters
fall into ten rows of byte ranges with 28 ranges altogether. Backwards each range takes a state,
and the rows are ways out of one state. Forwards the first bytes of all rows are read by one
state, and rows that end alike share seven states for what comes then. -/
def exceptSize : Reading → Nat
  | .forward => 2 * stateSize + 10 * rangeSize + 7 * (stateSize + rangeSize)
  | .backward => branchingSize 10 + 28 * stateSize

/-- The bytes for the empty set: a state without a way out, and one that it would lead to. -/
def neverSize : Nat := 2 * stateSize

/-! ### Choices among texts -/

/-- The bytes for as many bytes that are read side by side, with the way to them. -/
def besideSize : Nat → Nat
  | 0 => 0
  | 1 => waySize + stateSize
  | n => waySize + stateSize + n * rangeSize

/-- The bytes for what can follow a state of a trie, behind so many bytes side by side. -/
def trieSize (beside : Nat) : Trie → Nat
  | .nil => besideSize beside
  | .stop later => besideSize beside + waySize + trieSize 0 later
  | .step _ below later =>
    -- all ends are one, so an end needs no state of its own
    (if below.isLeaf then 0 else stateSize + trieSize 0 below) + trieSize (beside + 1) later

def letter? : Regex → Option Char
  | .char (.only c) => some c
  | _ => none

def text? : Regex → Option (List Char)
  | .char (.only c) => some [c]
  | .concat (e :: es) => (e :: es).mapM letter?
  | _ => none

/-! ### Expressions -/

mutual

/-- Whether the expression is known to read a character: it does not match the empty text, and
none of its parts matches nothing at all. -/
def reads : Regex → Bool
  | .char .none => false
  | .char _ => true
  | .concat es => isPossibleAll es && someReads es
  | .choice es => allRead es
  | .repeated e least _ => reads e && least != 0

def isPossible : Regex → Bool
  | .char .none => false
  | .char _ => true
  | .concat es => isPossibleAll es
  | .choice es => isPossibleAll es
  | .repeated e _ _ => isPossible e

def isPossibleAll : List Regex → Bool
  | [] => true
  | e :: es => isPossible e && isPossibleAll es

def someReads : List Regex → Bool
  | [] => false
  | e :: es => reads e || someReads es

def allRead : List Regex → Bool
  | [] => true
  | e :: es => reads e && allRead es

end

/-- The bytes for so many copies, each of the given size. None at all still take a state. -/
def copiesSize (n bytes : Nat) : Nat := if n = 0 then stateSize else n * bytes

mutual

/-- The bytes for an expression. -/
def size (reading : Reading) : Regex → Nat
  | .char .none => neverSize
  -- a state for each byte in UTF-8
  | .char (.only c) => c.utf8Size * stateSize
  | .char (.except _) => exceptSize reading
  | .concat [] => stateSize
  | .concat es => sizeAll reading es
  | .choice es =>
    match es.mapM text? with
    -- a choice among texts is a trie
    | some texts => 2 * stateSize + trieSize 0 (.ofTexts (texts.map reading.bytes))
    | none => branchingSize es.length + sizeAll reading es
  | .repeated e 0 (some 1) => size reading e + forkSize + stateSize
  | .repeated e least (some most) =>
    -- every copy is written out
    let bytes := size reading e
    copiesSize least bytes +
      (if least = most then 0 else stateSize + (most - least) * (bytes + forkSize))
  | .repeated e 0 none =>
    -- the start of a repetition that may read nothing takes a way out of its own
    size reading e + forkSize + (if e.reads then 0 else forkSize + stateSize)
  | .repeated e (least + 1) none => (least + 1) * size reading e + forkSize

def sizeAll (reading : Reading) : List Regex → Nat
  | [] => 0
  | e :: es => size reading e + sizeAll reading es

end

/-! ### Programs -/

/-- The bytes for the start of a program. -/
def startSize (reading : Reading) (toEnd : Bool) : Nat :=
  -- backwards there may be any bytes in front of a match that need not start at the end
  match reading, toEnd with
  | .backward, false => forkSize + 2 * stateSize + rangeSize
  | _, _ => stateSize

/-- The bytes for an expression with the states around it. Beside these the empty text takes
none. -/
def memberSize (reading : Reading) (toEnd : Bool) (e : Regex) : Nat :=
  -- forwards there is a state at each bound of the match
  let bounds := match reading with
    | .forward => 2
    | .backward => 0
  -- one for a match, one for the start of the text, and one for its end if the match goes there
  let around := 2 + (if toEnd then 1 else 0) + bounds
  around * stateSize + if e = empty then 0 else size reading e

/-- The bytes of the program for a set of expressions that match from the start of a text on, and
`toEnd` if they match all of it. -/
def programSize (reading : Reading) (toEnd : Bool) (es : List Regex) : Nat :=
  startSize reading toEnd + (if es.length ≤ 1 then 0 else branchingSize es.length) +
    es.foldr (fun e bytes => memberSize reading toEnd e + bytes) 0

end PhraseGraph.Regex
