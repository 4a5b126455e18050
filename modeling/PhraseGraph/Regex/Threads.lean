import PhraseGraph.Regex.Basic
import Std.Data.TreeMap

/-!
# PhraseGraph.Regex.Threads

The ways in which an expression can read its next character, preferred ways first.

A *task* is a piece of an expression that is still to be matched, and a *place* is the stack of
tasks that are still to be done there. A *sweep* goes from a place through everything that needs
no character and collects a thread for each way to read one, or for having nothing left to do.
A sweep looks at every place once: whoever comes to a place a second time finds nothing new, and
in particular a repetition whose body matched the empty text does not start over.

## Main definitions

`Regex.sweep` follows the shape of an expression. Its argument `next` is the sweep of the tasks
that remain when the expression has matched the empty text. `threads` sweeps a place. `Places` is
a set of places; all that matters of it are `Places.contains_empty` and `Places.contains_insert`.
-/

namespace PhraseGraph.Regex

/-- A piece of an expression that is still to be matched. -/
inductive Task where
  | once (e : Regex)
  | times (n : Nat) (e : Regex)
  | upTo (n : Nat) (e : Regex)
  /-- A round of an endless repetition is over: another one, or none. -/
  | again (e : Regex)
  /-- The end of a branch, by its number. It tells apart the same tasks in two branches. -/
  | joined (branch : Nat)
  deriving DecidableEq

/-- A number that says something of an expression without looking into its parts. -/
def shape : Regex → Nat
  | .char .none => 1
  | .char (.only c) => 5 * c.toNat + 2
  | .char (.except cs) => 5 * cs.length + 3
  | .concat es => 5 * es.length + 4
  | .choice es => 5 * es.length + 5
  | .repeated _ least most => 5 * (least + 2 * most.getD 0) + 6

def Task.shape : Task → Nat
  | .once e => 5 * Regex.shape e
  | .times n e => 5 * (n + 64 * Regex.shape e) + 1
  | .upTo n e => 5 * (n + 64 * Regex.shape e) + 2
  | .again e => 5 * Regex.shape e + 3
  | .joined branch => 5 * branch + 4

/-- The tasks that are still to be done, the next one first. A place that is not the end holds a
number by which most places are told apart at once; places are made with `Place.push`. -/
inductive Place where
  | finish
  | stage (fingerprint : Nat) (task : Task) (rest : Place)

namespace Place

def fingerprint : Place → Nat
  | .finish => 0
  | .stage n _ _ => n

def push (rest : Place) (task : Task) : Place :=
  .stage ((31 * rest.fingerprint + task.shape) % (1 <<< 31)) task rest

def pushAll (rest : Place) (tasks : List Task) : Place :=
  tasks.foldr (fun task place => place.push task) rest

/-- The place where all of an expression is still to be matched and nothing more. -/
def start (e : Regex) : Place := .push .finish (.once e)

protected def decEq : (p q : Place) → Decidable (p = q)
  | .finish, .finish => isTrue rfl
  | .finish, .stage .. => isFalse nofun
  | .stage .., .finish => isFalse nofun
  | .stage m task rest, .stage n task' rest' =>
    if same : m = n ∧ task = task' then
      -- common ends are one object in memory
      match withPtrEqDecEq rest rest' fun _ => rest.decEq rest' with
      | isTrue equal => isTrue (by rw [same.1, same.2, equal])
      | isFalse unequal => isFalse fun equal => unequal (Place.stage.inj equal).2.2
    else isFalse fun equal =>
      same ⟨(Place.stage.inj equal).1, (Place.stage.inj equal).2.1⟩

instance : DecidableEq Place := Place.decEq

end Place

/-- One way to go on: there is nothing left to do, or a character of a set is to be read and
then the tasks remain. -/
inductive Thread where
  | done
  | reading (set : CharSet) (rest : Place)
  deriving DecidableEq

/-! ### Places that have been looked at -/

/-- A set of places, found by their fingerprints. -/
structure Places where
  byFingerprint : Std.TreeMap Nat (List Place) := {}

namespace Places

def marked (ps : Places) (fingerprint : Nat) : List Place := ps.byFingerprint.getD fingerprint []

def contains (ps : Places) (place : Place) : Bool :=
  (ps.marked place.fingerprint).contains place

def insert (ps : Places) (place : Place) : Places :=
  ⟨ps.byFingerprint.insert place.fingerprint (place :: ps.marked place.fingerprint)⟩

@[simp] theorem contains_empty (place : Place) : ({} : Places).contains place = false := by
  simp [contains, Places.marked]

@[simp] theorem contains_insert (ps : Places) (place other : Place) :
    (ps.insert other).contains place = (place == other || ps.contains place) := by
  simp only [contains, Places.marked, insert, Std.TreeMap.getD_insert]
  by_cases same : other.fingerprint = place.fingerprint
  · rw [Bool.eq_iff_iff]
    simp [same]
  · have different : place ≠ other := fun equal => same (by rw [equal])
    simp [same, different]

end Places

/-! ### Sweeps -/

/-- What a sweep finds, given the places that have been looked at, with the places looked at
thereafter. -/
abbrev Sweep := Places → List Thread × Places

namespace Sweep

def nothing : Sweep := fun seen => ([], seen)

def found (t : Thread) : Sweep := fun seen => ([t], seen)

def andThen (first second : Sweep) : Sweep := fun seen =>
  let (ts, seen) := first seen
  let (us, seen) := second seen
  (ts ++ us, seen)

/-- The sweep of a place, unless the place has been looked at. -/
def visit (place : Place) (sweep : Sweep) : Sweep := fun seen =>
  if seen.contains place then ([], seen) else sweep (seen.insert place)

end Sweep

open Sweep

/-- The sweep of a body in front of the tasks `rest`, whose own sweep is `next`. -/
abbrev Body := (rest : Place) → (next : Sweep) → Sweep

def sweepTimes (e : Regex) (body : Body) : Nat → Body
  | 0, rest, next => visit (rest.push (.times 0 e)) next
  | n + 1, rest, next =>
    visit (rest.push (.times (n + 1) e))
      (body (rest.push (.times n e)) (sweepTimes e body n rest next))

/-- At most so many copies of a body, as many as possible: each copy contains the next one. -/
def sweepUpTo (e : Regex) (body : Body) : Nat → Body
  | 0, rest, next => visit (rest.push (.upTo 0 e)) next
  | n + 1, rest, next =>
    visit (rest.push (.upTo (n + 1) e))
      ((body (rest.push (.upTo n e)) (sweepUpTo e body n rest next)).andThen next)

/-- Another round of an endless repetition, or none. -/
def sweepAgain (e : Regex) (body : Body) : Body := fun rest next =>
  -- a round that reads nothing comes back to this very place, where there is nothing new
  visit (rest.push (.again e)) ((body (rest.push (.again e)) nothing).andThen next)

/-- The first round of an endless repetition. -/
def sweepRounds (e : Regex) (body : Body) : Body := fun rest next =>
  -- if it reads nothing, then a second round would start where this one did
  body (rest.push (.again e)) (visit (rest.push (.again e)) next)

mutual

/-- The sweep of an expression in front of the tasks `rest`, whose own sweep is `next`. -/
def sweep : Regex → Body
  | .char set, rest, _ => visit (rest.push (.once (.char set))) (found (.reading set rest))
  | .concat es, rest, next => visit (rest.push (.once (.concat es))) (sweepAll es rest next)
  | .choice es, rest, next => visit (rest.push (.once (.choice es))) (sweepEach es 0 rest next)
  | .repeated e least (some most), rest, next =>
    visit (rest.push (.once (.repeated e least (some most))))
      (sweepTimes e (sweep e) least (rest.push (.upTo (most - least) e))
        (sweepUpTo e (sweep e) (most - least) rest next))
  | .repeated e 0 none, rest, next =>
    visit (rest.push (.once (.repeated e 0 none)))
      ((sweepRounds e (sweep e) rest next).andThen next)
  | .repeated e 1 none, rest, next =>
    visit (rest.push (.once (.repeated e 1 none))) (sweepRounds e (sweep e) rest next)
  | .repeated e (least + 2) none, rest, next =>
    -- all copies but the last, which is the one that is repeated
    let onward := rest.push (.once (.repeated e 1 none))
    visit (rest.push (.once (.repeated e (least + 2) none)))
      (sweepTimes e (sweep e) (least + 1) onward
        (visit onward (sweepRounds e (sweep e) rest next)))

def sweepAll : List Regex → Body
  | [], _, next => next
  | e :: es, rest, next => sweep e (rest.pushAll (es.map .once)) (sweepAll es rest next)

/-- The branches of a choice in order, numbered from the given number on. -/
def sweepEach : List Regex → Nat → Body
  | [], _, _, _ => nothing
  | e :: es, branch, rest, next =>
    (sweep e (rest.push (.joined branch)) (visit (rest.push (.joined branch)) next)).andThen
      (sweepEach es (branch + 1) rest next)

end

/-- The sweep of a task in front of the tasks `rest`, whose own sweep is `next`. -/
def Task.sweep : Task → Body
  | .once e => e.sweep
  | .times n e => sweepTimes e e.sweep n
  | .upTo n e => sweepUpTo e e.sweep n
  | .again e => sweepAgain e e.sweep
  | .joined branch => fun rest next => visit (rest.push (.joined branch)) next

def sweepPlace : Place → Sweep
  | .finish => visit .finish (found .done)
  | .stage _ task rest => task.sweep rest (sweepPlace rest)

/-- The ways to go on at a place, preferred ways first. -/
def threads (place : Place) : List Thread := (sweepPlace place {}).1

end PhraseGraph.Regex
