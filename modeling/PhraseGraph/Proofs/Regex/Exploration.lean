import PhraseGraph.Regex.Threads

/-!
# PhraseGraph.Proofs.Regex.Exploration

Sweeps are depth-first searches.

A place leads to threads and to other places without a character being read; these are its moves.
`Explored` says what a depth-first search along moves finds. Every sweep is such a search, so that
what is found at a place can be derived from the moves alone.

## Main statements

`Regex.explored_threads`: the threads at a place are what a depth-first search from there finds.
-/

namespace PhraseGraph.Regex

open Sweep

/-! ### Moves -/

/-- A step without reading: to a thread, or to another place. -/
inductive Move where
  | stop (t : Thread)
  | go (place : Place)

/-- The moves into the branches of a choice, numbered from the given number on. -/
def branchMoves : List Regex → Nat → Place → List Move
  | [], _, _ => []
  | e :: es, branch, rest =>
    .go ((rest.push (.joined branch)).push (.once e)) :: branchMoves es (branch + 1) rest

/-- The moves of a task in front of the tasks `rest`, preferred ones first. -/
def Task.moves : Task → Place → List Move
  | .once (.char set), rest => [.stop (.reading set rest)]
  | .once (.concat es), rest => [.go (rest.pushAll (es.map .once))]
  | .once (.choice es), rest => branchMoves es 0 rest
  | .once (.repeated e least (some most)), rest =>
    [.go ((rest.push (.upTo (most - least) e)).push (.times least e))]
  | .once (.repeated e 0 none), rest => [.go ((rest.push (.again e)).push (.once e)), .go rest]
  | .once (.repeated e 1 none), rest => [.go ((rest.push (.again e)).push (.once e))]
  | .once (.repeated e (least + 2) none), rest =>
    [.go ((rest.push (.once (.repeated e 1 none))).push (.times (least + 1) e))]
  | .times 0 _, rest => [.go rest]
  | .times (n + 1) e, rest => [.go ((rest.push (.times n e)).push (.once e))]
  | .upTo 0 _, rest => [.go rest]
  | .upTo (n + 1) e, rest => [.go ((rest.push (.upTo n e)).push (.once e)), .go rest]
  | .again e, rest => [.go ((rest.push (.again e)).push (.once e)), .go rest]
  | .joined _, rest => [.go rest]

def Place.moves : Place → List Move
  | .finish => [.stop .done]
  | .stage _ task rest => task.moves rest

/-! ### Depth-first search -/

theorem Places.contains_insert_iff {ps : Places} {place other : Place} :
    (ps.insert other).contains place = true ↔ place = other ∨ ps.contains place = true := by
  rw [Places.contains_insert, Bool.or_eq_true, beq_iff_eq]

/-- What a depth-first search along the moves finds, given the places that have been looked at,
with the places looked at thereafter. -/
inductive Explored : List Move → Places → List Thread → Places → Prop
  | nil (seen : Places) : Explored [] seen [] seen
  | stop {ms seen ts seen'} (t : Thread) :
    Explored ms seen ts seen' → Explored (.stop t :: ms) seen (t :: ts) seen'
  | known {ms seen ts seen'} {place : Place} : seen.contains place = true →
    Explored ms seen ts seen' → Explored (.go place :: ms) seen ts seen'
  | fresh {ms seen ts mid us seen'} {place : Place} : seen.contains place = false →
    Explored place.moves (seen.insert place) ts mid → Explored ms mid us seen' →
    Explored (.go place :: ms) seen (ts ++ us) seen'

theorem Explored.grows {ms seen ts seen'} (found : Explored ms seen ts seen') {place : Place}
    (old : seen.contains place = true) : seen'.contains place = true := by
  induction found with
  | nil => exact old
  | stop _ _ ih => exact ih old
  | known _ _ ih => exact ih old
  | fresh _ _ _ ihInner ihOuter =>
    exact ihOuter (ihInner (Places.contains_insert_iff.mpr (Or.inr old)))

theorem Explored.append {ms ms' seen ts mid us seen'} (first : Explored ms seen ts mid)
    (second : Explored ms' mid us seen') : Explored (ms ++ ms') seen (ts ++ us) seen' := by
  induction first with
  | nil => exact second
  | stop t _ ih => exact (ih second).stop t
  | known old _ ih => exact (ih second).known old
  | fresh new inner _ _ ih =>
    rw [List.append_assoc]
    exact .fresh new inner (ih second)

/-! ### Sweeps explore -/

/-- The sweep explores the moves, if the guarding places have been looked at. -/
def Explores (s : Sweep) (ms : List Move) (guard : List Place) : Prop :=
  ∀ seen : Places, (∀ place ∈ guard, seen.contains place = true) →
    Explored ms seen (s seen).1 (s seen).2

variable {s s' next : Sweep} {ms ms' : List Move} {guard guard' : List Place} {rest : Place}

theorem Explores.mono (explores : Explores s ms guard) (more : guard ⊆ guard') :
    Explores s ms guard' :=
  fun seen guarded => explores seen fun place member => guarded place (more member)

theorem explores_nothing : Explores nothing [] guard := fun seen _ => .nil seen

theorem explores_found (t : Thread) : Explores (found t) [.stop t] guard :=
  fun seen _ => (Explored.nil seen).stop t

/-- At a place that guards, a search finds nothing. -/
theorem explores_nothing_of_mem {place : Place} (member : place ∈ guard) :
    Explores nothing [.go place] guard :=
  fun seen guarded => (Explored.nil seen).known (guarded place member)

/-- A move to a place that guards can be left out. -/
theorem Explores.cons_of_mem {place : Place} (member : place ∈ guard)
    (explores : Explores s ms guard) : Explores s (.go place :: ms) guard :=
  fun seen guarded => (explores seen guarded).known (guarded place member)

theorem Explores.andThen (first : Explores s ms guard) (second : Explores s' ms' guard) :
    Explores (s.andThen s') (ms ++ ms') guard := by
  intro seen guarded
  have one := first seen guarded
  exact one.append (second _ fun place member => one.grows (guarded place member))

theorem Explores.cons {place : Place} (first : Explores s [.go place] guard)
    (second : Explores s' ms guard) : Explores (s.andThen s') (.go place :: ms) guard :=
  first.andThen second

theorem explores_visit {place : Place} (inner : Explores s place.moves (place :: guard)) :
    Explores (visit place s) [.go place] guard := by
  intro seen guarded
  unfold visit
  split
  · next old => exact (Explored.nil seen).known old
  · next new =>
    -- from here on the place itself guards
    have guardedHere : ∀ other ∈ place :: guard, (seen.insert place).contains other = true := by
      intro other member
      apply Places.contains_insert_iff.mpr
      exact (List.mem_cons.mp member).imp_right (guarded other)
    have found := inner (seen.insert place) guardedHere
    simpa using Explored.fresh (by simpa using new) found (.nil _)

/-- A body for an expression: if what follows explores the rest, then the body in front of it
explores the expression in front of the rest. The place of the expression itself may guard. -/
def BodyExplores (e : Regex) (body : Body) : Prop :=
  ∀ (guard : List Place) (rest : Place) (next : Sweep),
    Explores next [.go rest] (rest.push (.once e) :: guard) →
      Explores (body rest next) [.go (rest.push (.once e))] guard

section Rounds

variable {e : Regex} {body : Body}

theorem explores_sweepTimes (inner : BodyExplores e body) (n : Nat)
    (follows : Explores next [.go rest] guard) :
    Explores (sweepTimes e body n rest next) [.go (rest.push (.times n e))] guard := by
  induction n generalizing guard with
  | zero => exact explores_visit (follows.mono (List.subset_cons_self _ _))
  | succ n ih =>
    apply explores_visit
    apply inner
    apply ih
    exact follows.mono (List.subset_cons_of_subset _ (List.subset_cons_self _ _))

theorem explores_sweepUpTo (inner : BodyExplores e body) (n : Nat)
    (follows : Explores next [.go rest] guard) :
    Explores (sweepUpTo e body n rest next) [.go (rest.push (.upTo n e))] guard := by
  induction n generalizing guard with
  | zero => exact explores_visit (follows.mono (List.subset_cons_self _ _))
  | succ n ih =>
    apply explores_visit
    apply Explores.cons
    · apply inner
      apply ih
      exact follows.mono (List.subset_cons_of_subset _ (List.subset_cons_self _ _))
    · exact follows.mono (List.subset_cons_self _ _)

theorem explores_sweepAgain (inner : BodyExplores e body)
    (follows : Explores next [.go rest] guard) :
    Explores (sweepAgain e body rest next) [.go (rest.push (.again e))] guard := by
  apply explores_visit
  apply Explores.cons
  · apply inner
    -- a round that reads nothing comes back to a place that is being looked at
    exact explores_nothing_of_mem (List.mem_cons_of_mem _ List.mem_cons_self)
  · exact follows.mono (List.subset_cons_self _ _)

/-- A round that reads nothing comes to where another round starts, which is where it started
itself, so that leaving is the only move that is new. -/
theorem explores_sweepRounds (inner : BodyExplores e body)
    (follows : Explores next [.go rest] guard) :
    Explores (sweepRounds e body rest next)
      [.go ((rest.push (.again e)).push (.once e))] guard := by
  apply inner
  apply explores_visit
  apply Explores.cons_of_mem
  · exact List.mem_cons_of_mem _ List.mem_cons_self
  · exact follows.mono (List.subset_cons_of_subset _ (List.subset_cons_self _ _))

end Rounds

mutual

theorem explores_sweep : ∀ e : Regex, BodyExplores e (sweep e)
  | .char set => by
    intro guard rest next _
    rw [sweep]
    exact explores_visit (explores_found _)
  | .concat es => by
    intro guard rest next follows
    rw [sweep]
    exact explores_visit (explores_sweepAll es _ _ _ follows)
  | .choice es => by
    intro guard rest next follows
    rw [sweep]
    exact explores_visit (explores_sweepEach es 0 _ _ _ follows)
  | .repeated e least (some most) => by
    intro guard rest next follows
    rw [sweep]
    have inner := explores_sweep e
    exact explores_visit (explores_sweepTimes inner least
      (explores_sweepUpTo inner (most - least) follows))
  | .repeated e 0 none => by
    intro guard rest next follows
    rw [sweep]
    exact explores_visit (.andThen (explores_sweepRounds (explores_sweep e) follows) follows)
  | .repeated e 1 none => by
    intro guard rest next follows
    rw [sweep]
    exact explores_visit (explores_sweepRounds (explores_sweep e) follows)
  | .repeated e (least + 2) none => by
    intro guard rest next follows
    rw [sweep]
    -- all copies but the last are written out, the last one is the first round
    have inner := explores_sweep e
    apply explores_visit
    apply explores_sweepTimes inner (least + 1)
    apply explores_visit
    exact explores_sweepRounds inner (follows.mono (List.subset_cons_self _ _))

theorem explores_sweepAll : ∀ (es : List Regex) (guard : List Place) (rest : Place) (next : Sweep),
    Explores next [.go rest] guard →
      Explores (sweepAll es rest next) [.go (rest.pushAll (es.map .once))] guard
  | [], guard, rest, next, follows => follows
  | e :: es, guard, rest, next, follows => by
    rw [sweepAll]
    apply explores_sweep e
    apply explores_sweepAll es
    exact follows.mono (List.subset_cons_self _ _)

theorem explores_sweepEach : ∀ (es : List Regex) (branch : Nat) (guard : List Place)
    (rest : Place) (next : Sweep), Explores next [.go rest] guard →
      Explores (sweepEach es branch rest next) (branchMoves es branch rest) guard
  | [], _, _, _, _, _ => explores_nothing
  | e :: es, branch, guard, rest, next, follows => by
    rw [sweepEach]
    apply Explores.cons
    · apply explores_sweep e
      apply explores_visit
      exact follows.mono (List.subset_cons_of_subset _ (List.subset_cons_self _ _))
    · exact explores_sweepEach es (branch + 1) _ _ _ follows

end

theorem explores_task (task : Task) (follows : Explores next [.go rest] guard) :
    Explores (task.sweep rest next) [.go (rest.push task)] guard := by
  cases task with
  | once e => exact explores_sweep e _ _ _ (follows.mono (List.subset_cons_self _ _))
  | times n e => exact explores_sweepTimes (explores_sweep e) n follows
  | upTo n e => exact explores_sweepUpTo (explores_sweep e) n follows
  | again e => exact explores_sweepAgain (explores_sweep e) follows
  | joined branch => exact explores_visit (follows.mono (List.subset_cons_self _ _))

/-- Places with the right fingerprints. -/
inductive Place.Made : Place → Prop
  | finish : Made .finish
  | push {rest : Place} (task : Task) : Made rest → Made (rest.push task)

theorem Place.made_start (e : Regex) : (Place.start e).Made := .push _ .finish

theorem explores_sweepPlace {place : Place} (made : place.Made) :
    Explores (sweepPlace place) [.go place] guard := by
  induction made generalizing guard with
  | finish => exact explores_visit (explores_found _)
  | push task _ ih => exact explores_task task ih

/-- The threads at a place are what a search from there finds. -/
theorem explored_threads {place : Place} (made : place.Made) :
    ∃ seen, Explored [.go place] {} (threads place) seen := by
  have explores : Explores (sweepPlace place) [.go place] [] := explores_sweepPlace made
  exact ⟨_, explores {} (by simp)⟩

end PhraseGraph.Regex
