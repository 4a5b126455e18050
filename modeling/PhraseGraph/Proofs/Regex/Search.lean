import Mathlib.Data.List.TakeWhile
import PhraseGraph.Proofs.Regex.Threads
import PhraseGraph.Regex.Search

/-!
# PhraseGraph.Proofs.Regex.Search

What the searches say of an expression and a text.

## Main statements

`Regex.matchesWhole_iff`, `Regex.matchesStart_iff`: a text, or some leading part of it, belongs to
the language of the expression. `Regex.matchLength?_sound` and `Regex.isSome_matchLength?`: the
preferred match is a match, and there is one if anything matches. `Regex.matchLength?_take`: it
stays the preferred one if the text ends earlier, but not before the match.
-/

namespace PhraseGraph.Regex

variable {c : Char} {ts : List Thread} {w : List Char}

/-! ### Made threads -/

def Thread.Made : Thread → Prop
  | .done => True
  | .reading _ rest => rest.Made

def Move.Made : Move → Prop
  | .stop t => t.Made
  | .go place => place.Made

theorem Place.Made.pushAll {rest : Place} (made : rest.Made) (tasks : List Task) :
    (rest.pushAll tasks).Made := by
  induction tasks with
  | nil => exact made
  | cons task tasks ih => exact .push task ih

theorem made_branchMoves {rest : Place} (made : rest.Made) (es : List Regex) (branch : Nat) :
    ∀ m ∈ branchMoves es branch rest, m.Made := by
  induction es generalizing branch with
  | nil => simp [branchMoves]
  | cons e es ih =>
    intro m member
    rcases List.mem_cons.mp member with rfl | later
    · exact .push _ (.push _ made)
    · exact ih (branch + 1) m later

theorem made_taskMoves {rest : Place} (made : rest.Made) (task : Task) :
    ∀ m ∈ task.moves rest, m.Made := by
  fun_cases Task.moves task rest
  case case2 es => simpa [Move.Made] using made.pushAll (es.map .once)
  case case3 es => exact made_branchMoves made es 0
  all_goals simp [Move.Made, Thread.Made, made, Place.Made.push]

theorem Place.Made.moves {place : Place} (made : place.Made) : ∀ m ∈ place.moves, m.Made := by
  cases made with
  | finish => simp [Place.moves, Move.Made, Thread.Made]
  | push task made => exact made_taskMoves made task

theorem Place.Reaches.made {place : Place} {t : Thread} (reaches : place.Reaches t)
    (made : place.Made) : t.Made := by
  induction reaches with
  | stop step => exact made.moves _ step
  | go step _ ih => exact ih (made.moves _ step)

theorem made_threads {place : Place} (made : place.Made) : ∀ t ∈ threads place, t.Made :=
  fun t member => ((mem_threads made t).mp member).made made

/-! ### Reading a character -/

/-- Where a thread goes on after it has read a character. -/
def Thread.movesAfter (c : Char) : Thread → List Move
  | .done => []
  | .reading set rest => if set.accepts c then [.go rest] else []

theorem explores_sweepAfter (made : ∀ t ∈ ts, t.Made) :
    Explores (sweepAfter c ts) (ts.flatMap (Thread.movesAfter c)) [] := by
  induction ts with
  | nil => exact explores_nothing
  | cons t ts ih =>
    refine Explores.andThen ?_ (ih fun u later => made u (List.mem_cons_of_mem t later))
    have first := made t List.mem_cons_self
    cases t with
    | done => exact explores_nothing
    | reading set rest =>
      simp only [Thread.sweepAfter, Thread.movesAfter]
      split
      · exact explores_sweepPlace first
      · exact explores_nothing

theorem explored_advance (made : ∀ t ∈ ts, t.Made) :
    ∃ seen, Explored (ts.flatMap (Thread.movesAfter c)) {} (advance c ts) seen :=
  ⟨_, explores_sweepAfter made {} (by simp)⟩

theorem mem_movesAfter {m : Move} : m ∈ ts.flatMap (Thread.movesAfter c) ↔
    ∃ set rest, .reading set rest ∈ ts ∧ set.accepts c = true ∧ m = .go rest := by
  rw [List.mem_flatMap]
  constructor
  · rintro ⟨t, member, after⟩
    cases t with
    | done => simp [Thread.movesAfter] at after
    | reading set rest =>
      simp only [Thread.movesAfter] at after
      split at after
      · next accepts => exact ⟨set, rest, member, accepts, List.mem_singleton.mp after⟩
      · simp at after
  · rintro ⟨set, rest, member, accepts, rfl⟩
    exact ⟨.reading set rest, member, by simp [Thread.movesAfter, accepts]⟩

theorem made_advance (made : ∀ t ∈ ts, t.Made) : ∀ t ∈ advance c ts, t.Made := by
  intro t member
  obtain ⟨_, found⟩ := explored_advance (c := c) made
  obtain ⟨m, after, reaches⟩ := found.sound t member
  obtain ⟨set, rest, inside, -, rfl⟩ := mem_movesAfter.mp after
  exact Place.Reaches.made reaches (made _ inside)

theorem mem_language_reading {set : CharSet} {rest : Place} :
    c :: w ∈ (Thread.reading set rest).language ↔ set.accepts c = true ∧ w ∈ rest.language := by
  rw [Thread.language, Language.mem_mul]
  constructor
  · rintro ⟨u, hu, v, hv, equal⟩
    obtain ⟨d, accepts, rfl⟩ := mem_language_char.mp hu
    obtain ⟨rfl, rfl⟩ := List.cons.inj equal
    exact ⟨accepts, hv⟩
  · rintro ⟨accepts, hw⟩
    exact ⟨[c], mem_language_char.mpr ⟨c, accepts, rfl⟩, w, hw, rfl⟩

theorem nil_mem_language_thread {t : Thread} : [] ∈ t.language ↔ t = .done := by
  cases t with
  | done => simp [Thread.language]
  | reading set rest =>
    simp only [Thread.language, Language.mem_mul, reduceCtorEq, iff_false]
    rintro ⟨u, hu, v, -, equal⟩
    obtain ⟨d, -, rfl⟩ := mem_language_char.mp hu
    simp at equal

/-- After a character has been read, the threads match what was left of the text. -/
theorem mem_language_advance (made : ∀ t ∈ ts, t.Made) :
    (∃ t ∈ advance c ts, w ∈ t.language) ↔ ∃ t ∈ ts, c :: w ∈ t.language := by
  obtain ⟨_, found⟩ := explored_advance (c := c) made
  constructor
  · rintro ⟨t, member, matched⟩
    obtain ⟨m, after, reaches⟩ := (found.mem_iff t).mp member
    obtain ⟨set, rest, inside, accepts, rfl⟩ := mem_movesAfter.mp after
    exact ⟨_, inside, mem_language_reading.mpr
      ⟨accepts, Place.Reaches.mem_language reaches matched⟩⟩
  · rintro ⟨t, inside, matched⟩
    cases t with
    | done => simp [Thread.language] at matched
    | reading set rest =>
      obtain ⟨accepts, matched⟩ := mem_language_reading.mp matched
      obtain ⟨t, reaches, matched⟩ := Place.Made.finds (made _ inside) matched
      exact ⟨t, (found.mem_iff t).mpr
        ⟨.go rest, mem_movesAfter.mpr ⟨set, rest, inside, accepts, rfl⟩, reaches⟩, matched⟩

/-! ### Searches -/

theorem contains_done_iff : ts.contains .done = true ↔ ∃ t ∈ ts, [] ∈ t.language := by
  simp [nil_mem_language_thread]

theorem endsDone_iff (made : ∀ t ∈ ts, t.Made) :
    endsDone ts w = true ↔ ∃ t ∈ ts, w ∈ t.language := by
  induction w generalizing ts with
  | nil => exact contains_done_iff
  | cons c w ih => rw [endsDone, ih (made_advance made), mem_language_advance made]

theorem getsDone_iff (made : ∀ t ∈ ts, t.Made) :
    getsDone ts w = true ↔ ∃ n ≤ w.length, ∃ t ∈ ts, w.take n ∈ t.language := by
  induction w generalizing ts with
  | nil =>
    have now : ts.contains .done = true ↔ ∃ t ∈ ts, [] ∈ t.language := contains_done_iff
    simpa [getsDone] using now
  | cons c w ih =>
    rw [getsDone, Bool.or_eq_true, contains_done_iff, ih (made_advance made)]
    simp only [mem_language_advance made]
    constructor
    · rintro (now | ⟨n, bound, later⟩)
      · exact ⟨0, Nat.zero_le _, now⟩
      · exact ⟨n + 1, Nat.succ_le_succ bound, later⟩
    · rintro ⟨n, bound, matched⟩
      cases n with
      | zero => exact Or.inl matched
      | succ n => exact Or.inr ⟨n, Nat.le_of_succ_le_succ bound, matched⟩

/-- A search that stops where it stands has a thread that is done. -/
theorem done_of_stop {n : Nat} (stop : (if ts.contains .done then some 0 else none) = some n) :
    n = 0 ∧ ∃ t ∈ ts, [] ∈ t.language := by
  split at stop
  · next done => exact ⟨(Option.some.inj stop).symm, contains_done_iff.mp done⟩
  · simp at stop

theorem preferredLength_sound (made : ∀ t ∈ ts, t.Made) {n : Nat}
    (found : preferredLength ts w = some n) :
    n ≤ w.length ∧ ∃ t ∈ ts, w.take n ∈ t.language := by
  induction w generalizing ts n with
  | nil =>
    obtain ⟨rfl, matched⟩ := done_of_stop found
    exact ⟨le_rfl, matched⟩
  | cons c w ih =>
    rw [preferredLength] at found
    split at found
    · next m inner =>
      cases found
      -- a thread in front of all that are done reads on
      have before : ts.takeWhile (· ≠ .done) ⊆ ts := (List.takeWhile_sublist _).subset
      have madeBefore : ∀ t ∈ ts.takeWhile (· ≠ .done), t.Made :=
        fun t inside => made t (before inside)
      obtain ⟨bound, matched⟩ := ih (made_advance madeBefore) inner
      obtain ⟨t, inside, matched⟩ := (mem_language_advance madeBefore).mp matched
      exact ⟨Nat.succ_le_succ bound, t, before inside, matched⟩
    · obtain ⟨rfl, matched⟩ := done_of_stop found
      exact ⟨Nat.zero_le _, matched⟩

theorem takeWhile_of_not_done (running : ts.contains .done = false) :
    ts.takeWhile (· ≠ .done) = ts := by
  rw [List.takeWhile_eq_self_iff]
  intro t member
  have different : t ≠ .done := by
    rintro rfl
    simp [member] at running
  exact decide_eq_true different

/-- Whenever some leading part matches, some length is preferred. -/
theorem isSome_preferredLength (ts : List Thread) (w : List Char) :
    (preferredLength ts w).isSome = getsDone ts w := by
  induction w generalizing ts with
  | nil => rw [preferredLength, getsDone]; cases ts.contains .done <;> rfl
  | cons c w ih =>
    rw [preferredLength, getsDone]
    cases done : ts.contains .done with
    -- whatever the preferred threads come to, there is a match here
    | true => split <;> simp
    | false =>
      rw [takeWhile_of_not_done done, Bool.false_or, ← ih]
      cases preferredLength (advance c ts) w <;> simp

theorem getsDone_append (started : getsDone ts w = true) (v : List Char) :
    getsDone ts (w ++ v) = true := by
  induction w generalizing ts with
  | nil => cases v <;> simp_all [getsDone]
  | cons c w ih =>
    rw [getsDone, Bool.or_eq_true] at started
    rw [List.cons_append, getsDone, Bool.or_eq_true]
    exact started.imp_right ih

/-- The text behind a match does not bear on it. -/
theorem preferredLength_take {n m : Nat} (found : preferredLength ts w = some n)
    (reached : n ≤ m) : preferredLength ts (w.take m) = some n := by
  induction w generalizing ts n m with
  | nil => rwa [List.take_nil]
  | cons c w ih =>
    rw [preferredLength] at found
    split at found
    · next k inner =>
      cases found
      obtain _ | m := m
      · simp at reached
      · rw [List.take_succ_cons, preferredLength, ih inner (Nat.le_of_succ_le_succ reached)]
    · next inner =>
      obtain ⟨rfl, -⟩ := done_of_stop found
      obtain _ | m := m
      · exact found
      -- threads that fail on the whole text fail on each start of it
      · have fails : preferredLength (advance c (ts.takeWhile (· ≠ .done))) (w.take m) = none := by
          rw [← Option.not_isSome_iff_eq_none, isSome_preferredLength] at inner ⊢
          intro started
          have whole := getsDone_append started (w.drop m)
          rw [List.take_append_drop] at whole
          exact inner whole
        rw [List.take_succ_cons, preferredLength, fails]
        exact found

theorem mem_language_threads_start (e : Regex) (w : List Char) :
    (∃ t ∈ threads (.start e), w ∈ t.language) ↔ w ∈ e.language := by
  rw [← mem_language_place (Place.made_start e), Place.language_start]

theorem matchesWhole_iff (e : Regex) (w : List Char) : e.matchesWhole w = true ↔ w ∈ e.language := by
  rw [matchesWhole, endsDone_iff (made_threads (Place.made_start e)), mem_language_threads_start]

theorem matchesStart_iff (e : Regex) (w : List Char) :
    e.matchesStart w = true ↔ ∃ n ≤ w.length, w.take n ∈ e.language := by
  simp only [matchesStart, getsDone_iff (made_threads (Place.made_start e)),
    mem_language_threads_start]

theorem matchLength?_sound {e : Regex} {n : Nat} (found : e.matchLength? w = some n) :
    n ≤ w.length ∧ w.take n ∈ e.language := by
  have sound := preferredLength_sound (made_threads (Place.made_start e)) found
  rwa [mem_language_threads_start] at sound

theorem isSome_matchLength? (e : Regex) (w : List Char) :
    (e.matchLength? w).isSome = e.matchesStart w :=
  isSome_preferredLength _ w

theorem matchLength?_take {e : Regex} {n m : Nat} (found : e.matchLength? w = some n)
    (reached : n ≤ m) : e.matchLength? (w.take m) = some n :=
  preferredLength_take found reached

end PhraseGraph.Regex
