import PhraseGraph.Proofs.Regex.Repetitions
import PhraseGraph.Proofs.Regex.Search
import PhraseGraph.Proofs.Ways

/-!
# PhraseGraph.Proofs.Regex.Priority

The preferred match of an expression is the first one in the order of backtracking.

The threads of a search share the places that they come to, and a place that has been looked at is
not looked at again. That changes no first success: what was looked at has failed, or else the
search would be over, unless it is a place on the way to the present one. If every round of an
endless repetition takes something, then places on one way have falling ranks, so that none occurs
twice.

## Main statements

`Explored.head?_ways`: sharing places does not change what is found first.
`Regex.matchLength?_eq_head?`: the search for the preferred match finds the first way.
-/

namespace PhraseGraph.Regex

open Computability

/-! ### Ways of expressions and places -/

mutual

/-- The ways in which an expression matches, in the order of backtracking. -/
def ways : Regex → Ways Char
  | .char set => .one set.accepts
  | .concat es => .inOrder (waysOfEach es)
  | .choice es => .oneOf (waysOfEach es)
  | .repeated e least most => (ways e).copies least most

def waysOfEach : List Regex → List (Ways Char)
  | [] => []
  | e :: es => ways e :: waysOfEach es

end

theorem waysOfEach_eq_map (es : List Regex) : waysOfEach es = es.map ways := by
  induction es with
  | nil => rfl
  | cons e es ih => simp [waysOfEach, ih]

@[simp] theorem ways_char (set : CharSet) : (char set).ways = .one set.accepts := by
  rw [ways]

@[simp] theorem ways_concat (es : List Regex) : (concat es).ways = .inOrder (es.map ways) := by
  rw [ways, waysOfEach_eq_map]

@[simp] theorem ways_choice (es : List Regex) : (choice es).ways = .oneOf (es.map ways) := by
  rw [ways, waysOfEach_eq_map]

@[simp] theorem ways_repeated (e : Regex) (least : Nat) (most : Option Nat) :
    (repeated e least most).ways = e.ways.copies least most := by
  rw [ways]

mutual

theorem matches_ways : ∀ e : Regex, Ways.Matches e.ways e.language
  | .char set => by
    rw [ways_char, language]
    exact Ways.matches_one set.accepts
  | .concat es => by
    rw [ways_concat, language_concat]
    exact matches_inOrder es
  | .choice es => by
    rw [ways_choice, language_choice]
    exact matches_oneOf es
  | .repeated e least most => by
    rw [ways_repeated, language_repeated]
    exact (matches_ways e).copies least most

theorem matches_inOrder : ∀ es : List Regex,
    Ways.Matches (.inOrder (es.map ways)) (es.map language).prod
  | [] => Ways.matches_stay
  | e :: es => (matches_ways e).andThen (matches_inOrder es)

theorem matches_oneOf : ∀ es : List Regex,
    Ways.Matches (.oneOf (es.map ways)) (es.map language).sum
  | [] => Ways.matches_fail
  | e :: es => (matches_ways e).orElse (matches_oneOf es)

end

def Task.ways : Task → Ways Char
  | .once e => e.ways
  | .times n e => e.ways.times n
  | .upTo n e => e.ways.upTo n
  | .again e => e.ways.again
  | .joined _ => .stay

def Place.ways : Place → Ways Char
  | .finish => .stay
  | .stage _ task rest => task.ways.andThen rest.ways

def Thread.ways : Thread → Ways Char
  | .done => .stay
  | .reading set rest => (Ways.one set.accepts).andThen rest.ways

def Move.ways : Move → Ways Char
  | .stop t => t.ways
  | .go place => place.ways

@[simp] theorem Place.ways_push (rest : Place) (task : Task) :
    (rest.push task).ways = task.ways.andThen rest.ways := rfl

theorem Place.ways_pushAll (rest : Place) (es : List Regex) :
    (rest.pushAll (es.map .once)).ways = (Ways.inOrder (es.map Regex.ways)).andThen rest.ways := by
  induction es with
  | nil => exact (Ways.stay_andThen _).symm
  | cons e es ih =>
    change e.ways.andThen (rest.pushAll (es.map .once)).ways = _
    rw [ih, List.map_cons, Ways.inOrder_cons, Ways.andThen_assoc]

theorem oneOf_branchMoves (es : List Regex) (branch : Nat) (rest : Place) :
    Ways.oneOf ((branchMoves es branch rest).map Move.ways) =
      (Ways.oneOf (es.map Regex.ways)).andThen rest.ways := by
  induction es generalizing branch with
  | nil => rfl
  | cons e es ih =>
    rw [branchMoves, List.map_cons, Ways.oneOf_cons, ih, List.map_cons, Ways.oneOf_cons,
      Ways.orElse_andThen]
    change (e.ways.andThen (Ways.stay.andThen rest.ways)).orElse _ = _
    rw [Ways.stay_andThen]

/-! ### Rounds that take something -/

/-- Every round of an endless repetition takes something. -/
def RoundsTake (e : Regex) : Prop :=
  e.EachRepetition fun body _ most => most = none → [] ∉ body.language

def Task.RoundsTake : Task → Prop
  | .once e => e.RoundsTake
  | .times _ e => e.RoundsTake
  | .upTo _ e => e.RoundsTake
  | .again e => e.RoundsTake ∧ [] ∉ e.language
  | .joined _ => True

def Place.RoundsTake : Place → Prop
  | .finish => True
  | .stage _ task rest => task.RoundsTake ∧ rest.RoundsTake

def Thread.RoundsTake : Thread → Prop
  | .done => True
  | .reading _ rest => rest.RoundsTake

def Move.RoundsTake : Move → Prop
  | .stop t => t.RoundsTake
  | .go place => place.RoundsTake

@[simp] theorem Place.roundsTake_push {rest : Place} {task : Task} :
    (rest.push task).RoundsTake ↔ task.RoundsTake ∧ rest.RoundsTake := Iff.rfl

theorem roundsTake_repeated {e : Regex} {least : Nat} {most : Option Nat} :
    (repeated e least most).RoundsTake ↔ (most = none → [] ∉ e.language) ∧ e.RoundsTake :=
  eachRepetition_repeated

theorem roundsTake_pushAll {rest : Place} {es : List Regex} (each : ∀ e ∈ es, e.RoundsTake)
    (after : rest.RoundsTake) : (rest.pushAll (es.map .once)).RoundsTake := by
  induction es with
  | nil => exact after
  | cons e es ih =>
    exact ⟨each e List.mem_cons_self, ih fun f later => each f (List.mem_cons_of_mem e later)⟩

theorem roundsTake_branchMoves {rest : Place} {es : List Regex} (each : ∀ e ∈ es, e.RoundsTake)
    (after : rest.RoundsTake) (branch : Nat) :
    ∀ m ∈ branchMoves es branch rest, m.RoundsTake := by
  induction es generalizing branch with
  | nil => simp [branchMoves]
  | cons e es ih =>
    refine List.forall_mem_cons.mpr ⟨⟨each e List.mem_cons_self, trivial, after⟩, ?_⟩
    exact ih (fun f later => each f (List.mem_cons_of_mem e later)) (branch + 1)

theorem roundsTake_taskMoves {task : Task} {rest : Place} (takes : task.RoundsTake)
    (after : rest.RoundsTake) : ∀ m ∈ task.moves rest, m.RoundsTake := by
  fun_cases Task.moves task rest
  case case2 es =>
    simpa [Move.RoundsTake] using roundsTake_pushAll (eachRepetition_concat.mp takes) after
  case case3 es => exact roundsTake_branchMoves (eachRepetition_choice.mp takes) after 0
  all_goals simp_all [Task.RoundsTake, Move.RoundsTake, Thread.RoundsTake, roundsTake_repeated]

theorem Place.RoundsTake.moves {place : Place} (takes : place.RoundsTake) :
    ∀ m ∈ place.moves, m.RoundsTake := by
  cases place with
  | finish => simp [Place.moves, Move.RoundsTake, Thread.RoundsTake]
  | stage _ task rest => exact roundsTake_taskMoves takes.1 takes.2

/-- A task in front of others has the ways of its moves, in order. -/
theorem Task.ways_andThen {task : Task} (takes : task.RoundsTake) (rest : Place) :
    task.ways.andThen rest.ways = Ways.oneOf ((task.moves rest).map Move.ways) := by
  revert takes
  fun_cases Task.moves task rest <;> intro takes
  case case2 es => simp [Task.ways, Move.ways, Place.ways_pushAll, Ways.oneOf]
  case case3 es => rw [oneOf_branchMoves, Task.ways, ways_choice]
  all_goals simp only [List.map_cons, List.map_nil, Ways.oneOf, List.foldr, Ways.orElse_fail,
    Task.ways, Move.ways, Thread.ways, Place.ways_push, ways_char, ways_repeated, Ways.copies,
    Ways.times, Ways.upTo, Ways.stay_andThen, Ways.andThen_assoc, Ways.andThen_stay,
    Ways.orElse_andThen]
  case case5 e =>
    have takes := (roundsTake_repeated.mp takes).1 rfl
    exact Ways.again_andThen (matches_ways e) takes rest.ways
  case case7 e least =>
    rw [← Ways.andThen_assoc (e.ways.times least) e.ways, ← Ways.times_comm, Ways.andThen_assoc]
  case case12 e => exact Ways.again_andThen (matches_ways e) takes.2 rest.ways

theorem Place.ways_eq {place : Place} (takes : place.RoundsTake) :
    place.ways = Ways.oneOf (place.moves.map Move.ways) := by
  cases place with
  | finish => simp [Place.moves, Place.ways, Move.ways, Thread.ways, Ways.oneOf]
  | stage _ task rest => exact task.ways_andThen takes.1 rest

/-! ### Ranks -/

mutual

/-- A bound on the moves within an expression. -/
def weight : Regex → Nat
  | .char _ => 0
  | .concat es => 1 + weightAll es
  | .choice es => 1 + weightAll es
  | .repeated e least most => 3 + (least + most.getD 0 + 1) * (weight e + 1)

def weightAll : List Regex → Nat
  | [] => 0
  | e :: es => weight e + 1 + weightAll es

end

def Task.weight : Task → Nat
  | .once e => e.weight
  | .times n e => 1 + n * (e.weight + 1)
  | .upTo n e => 1 + n * (e.weight + 1)
  | .again e => e.weight + 1
  | .joined _ => 1

open Classical in
/-- The bound on what comes behind, if the empty text leads there. -/
noncomputable def through (l : Language Char) (bound : Nat) : Nat := if [] ∈ l then bound else 0

/-- A bound on the moves from a place: behind a task that matches the empty text they go on. -/
noncomputable def Place.rank : Place → Nat
  | .finish => 0
  | .stage _ task rest => task.weight + through task.language rest.rank

theorem Place.rank_push (rest : Place) (task : Task) :
    (rest.push task).rank = task.weight + through task.language rest.rank := rfl

section Through

variable {l m : Language Char} {a b : Nat}

theorem nil_mem_mul : [] ∈ l * m ↔ [] ∈ l ∧ [] ∈ m := by
  simp [Language.mem_mul]

theorem through_of_mem (empty : [] ∈ l) (a : Nat) : through l a = a := if_pos empty

theorem through_of_notMem (nonempty : [] ∉ l) (a : Nat) : through l a = 0 := if_neg nonempty

theorem through_le (l : Language Char) (a : Nat) : through l a ≤ a := by
  by_cases empty : [] ∈ l
  · exact (through_of_mem empty a).le
  · exact (through_of_notMem empty a).le.trans (Nat.zero_le a)

theorem through_mul (l m : Language Char) (a : Nat) :
    through (l * m) a = through l (through m a) := by
  by_cases first : [] ∈ l
  · by_cases second : [] ∈ m
    · simp [through, nil_mem_mul, first, second]
    · simp [through, nil_mem_mul, second]
  · simp [through, nil_mem_mul, first]

theorem through_add_le (l : Language Char) (a b : Nat) : through l (a + b) ≤ a + through l b := by
  by_cases empty : [] ∈ l <;> simp [through, empty]

theorem through_mono (smaller : a ≤ b) (empty : [] ∈ l → [] ∈ m) : through l a ≤ through m b := by
  by_cases member : [] ∈ l
  · rwa [through_of_mem member, through_of_mem (empty member)]
  · rw [through_of_notMem member]
    exact Nat.zero_le _

end Through

theorem nil_mem_atMost (l : Language Char) (n : Nat) : [] ∈ atMost l n :=
  mem_atMost.mpr ⟨0, Nat.zero_le n, by simp⟩

theorem rank_pushAll (rest : Place) (es : List Regex) :
    (rest.pushAll (es.map .once)).rank ≤
      weightAll es + through (es.map language).prod rest.rank := by
  induction es with
  | nil => simp [Place.pushAll, weightAll, through]
  | cons e es ih =>
    change e.weight + through e.language (rest.pushAll (es.map .once)).rank ≤ _
    have behind := (through_mono ih id).trans
      (through_add_le e.language (weightAll es) (through (es.map language).prod rest.rank))
    rw [weightAll, List.map_cons, List.prod_cons, through_mul]
    omega

theorem rank_branchMoves (rest : Place) {es : List Regex} {branch : Nat} {other : Place}
    (step : .go other ∈ branchMoves es branch rest) :
    other.rank ≤ weightAll es + through (es.map language).sum rest.rank := by
  induction es generalizing branch with
  | nil => simp [branchMoves] at step
  | cons e es ih =>
    rw [weightAll, List.map_cons, List.sum_cons]
    rcases List.mem_cons.mp step with first | later
    · obtain rfl := Move.go.inj first
      have joined : (rest.push (.joined branch)).rank ≤ 1 + rest.rank :=
        Nat.add_le_add_left (through_le _ _) 1
      have behind := (through_mono joined id).trans (through_add_le e.language 1 rest.rank)
      have more : through e.language rest.rank ≤
          through (e.language + (es.map language).sum) rest.rank := through_mono le_rfl Or.inl
      rw [Place.rank_push, Task.language, Task.weight]
      omega
    · have rank := ih later
      have more : through (es.map language).sum rest.rank ≤
          through (e.language + (es.map language).sum) rest.rank := through_mono le_rfl Or.inr
      omega

theorem nil_mem_pow {l : Language Char} {n : Nat} : [] ∈ l ^ n ↔ n = 0 ∨ [] ∈ l := by
  induction n with
  | zero => simp
  | succ n ih => rw [pow_succ, nil_mem_mul, ih]; tauto

/-- Moves lead to places of smaller rank. -/
theorem rank_lt {task : Task} (takes : task.RoundsTake) (rest : Place) {other : Place}
    (step : .go other ∈ task.moves rest) : other.rank < (rest.push task).rank := by
  revert takes step
  -- what comes behind a task counts only where the task can be passed without reading
  fun_cases Task.moves task rest <;> intro takes step
  case case3 es =>
    have bound := rank_branchMoves rest step
    rw [Place.rank_push, Task.weight, weight, Task.language, language_choice]
    omega
  all_goals simp only [List.mem_cons, List.not_mem_nil, or_false, Move.go.injEq, reduceCtorEq] at step
  case case2 es =>
    subst step
    have bound := rank_pushAll rest es
    rw [Place.rank_push, Task.weight, weight, Task.language, language_concat]
    omega
  case case4 e least most =>
    subst step
    by_cases empty : [] ∈ e.language <;> by_cases none_needed : least = 0
    all_goals simp [Place.rank_push, Task.weight, weight, Task.language, copies, through,
      nil_mem_mul, nil_mem_pow, nil_mem_atMost, empty, none_needed, Nat.add_mul, Nat.sub_mul]
    all_goals omega
  case case7 e least =>
    subst step
    have takes := (roundsTake_repeated.mp takes).1 rfl
    simp [Place.rank_push, Task.weight, weight, Task.language, copies, through,
      nil_mem_mul, nil_mem_pow, takes, Nat.add_mul]
    omega
  case case11 n e =>
    rcases step with rfl | rfl
    all_goals by_cases empty : [] ∈ e.language
    all_goals simp [Place.rank_push, Task.weight, Task.language, through, nil_mem_atMost, empty,
      Nat.add_mul]
    all_goals omega
  case case9 n e =>
    subst step
    by_cases empty : [] ∈ e.language
    all_goals simp [Place.rank_push, Task.weight, Task.language, through, nil_mem_pow, empty,
      Nat.add_mul]
    all_goals omega
  case case5 e =>
    have takes := (roundsTake_repeated.mp takes).1 rfl
    rcases step with rfl | rfl
    all_goals simp [Place.rank_push, Task.weight, weight, Task.language, copies, through, takes,
      Language.nil_mem_kstar]
    all_goals omega
  case case6 e =>
    subst step
    have takes := (roundsTake_repeated.mp takes).1 rfl
    simp [Place.rank_push, Task.weight, weight, Task.language, copies, through, nil_mem_mul, takes]
    omega
  case case12 e =>
    rcases step with rfl | rfl
    all_goals simp [Place.rank_push, Task.weight, Task.language, through, takes.2,
      Language.nil_mem_kstar]
    omega
  all_goals
    subst step
    simp [Place.rank_push, Task.weight, Task.language, through, nil_mem_atMost]

theorem Place.rank_lt {place : Place} (takes : place.RoundsTake) {other : Place}
    (step : .go other ∈ place.moves) : other.rank < place.rank := by
  cases place with
  | finish => simp [Place.moves] at step
  | stage _ task rest => exact Regex.rank_lt takes.1 rest step

/-! ### First successes of a search -/

theorem Explored.roundsTake {ms seen ts seen'} (found : Explored ms seen ts seen')
    (takes : ∀ m ∈ ms, m.RoundsTake) : ∀ t ∈ ts, t.RoundsTake := by
  induction found with
  | nil => simp
  | stop t _ ih =>
    have takes := List.forall_mem_cons.mp takes
    exact List.forall_mem_cons.mpr ⟨takes.1, ih takes.2⟩
  | known _ _ ih => exact ih (List.forall_mem_cons.mp takes).2
  | fresh _ _ _ ihInner ihOuter =>
    have takes := List.forall_mem_cons.mp takes
    exact List.forall_mem_append.mpr ⟨ihInner (Place.RoundsTake.moves takes.1), ihOuter takes.2⟩

theorem head?_append_congr {as bs cs ds : List Nat} (first : as.head? = cs.head?)
    (second : cs = [] → bs.head? = ds.head?) : (as ++ bs).head? = (cs ++ ds).head? := by
  cases cs with
  | nil =>
    have none : as = [] := List.head?_eq_none_iff.mp first
    rw [none, List.nil_append, List.nil_append, second rfl]
  | cons c cs =>
    cases as with
    | nil => simp at first
    | cons a as => simpa using first

/-- A search finds what its moves find, in the same order up to the first success, if all places
that it passes over have failed. They are those of a rank that it can come to; a place of a higher
rank may still be under way. If the search fails, then so do all places that it has looked at. -/
theorem Explored.head?_ways {ms seen ts seen'} (found : Explored ms seen ts seen') (w : List Char)
    (takes : ∀ m ∈ ms, m.RoundsTake)
    (failed : ∀ place, seen.contains place = true →
      ∀ other, .go other ∈ ms → place.rank ≤ other.rank → place.ways w = []) :
    (Ways.oneOf (ts.map Thread.ways) w).head? = (Ways.oneOf (ms.map Move.ways) w).head? ∧
      (Ways.oneOf (ms.map Move.ways) w = [] → ∀ place, seen'.contains place = true →
        seen.contains place = true ∨ place.ways w = []) := by
  induction found with
  | nil => exact ⟨rfl, fun _ place looked => Or.inl looked⟩
  | stop t _ ih =>
    have rest := ih (List.forall_mem_cons.mp takes).2 fun place looked other step =>
      failed place looked other (List.mem_cons_of_mem _ step)
    refine ⟨head?_append_congr rfl fun _ => rest.1, fun none => rest.2 ?_⟩
    exact (List.append_eq_nil_iff.mp none).2
  | @known ms _ _ _ place old _ ih =>
    -- the place is at hand itself, so its rank is one that the search can come to
    have rest := ih (List.forall_mem_cons.mp takes).2 fun place looked other step =>
      failed place looked other (List.mem_cons_of_mem _ step)
    have known_failed : place.ways w = [] := failed place old place List.mem_cons_self le_rfl
    have same : Ways.oneOf ((Move.go place :: ms).map Move.ways) w =
        Ways.oneOf (ms.map Move.ways) w := by
      rw [List.map_cons, Ways.oneOf_cons, Ways.orElse, Move.ways, known_failed, List.nil_append]
    rw [same]
    exact rest
  | @fresh ms seen ts mid us seen' place new _ _ ihInner ihOuter =>
    obtain ⟨here, later⟩ := List.forall_mem_cons.mp takes
    -- behind the place ranks are smaller, so that the search there never comes back to it
    have inner := ihInner here.moves fun other looked next step lower => by
      have lower : other.rank < place.rank := lower.trans_lt (Place.rank_lt here step)
      rcases Places.contains_insert_iff.mp looked with rfl | old
      · exact absurd lower (lt_irrefl _)
      · exact failed other old place List.mem_cons_self lower.le
    rw [← Place.ways_eq here] at inner
    -- if the place fails, then so has everything that was looked at from there
    have outer (none : place.ways w = []) := ihOuter later fun other looked next step lower => by
      rcases inner.2 none other looked with old | failure
      · rcases Places.contains_insert_iff.mp old with rfl | old
        · exact none
        · exact failed other old next (List.mem_cons_of_mem _ step) lower
      · exact failure
    rw [List.map_append, Ways.oneOf_append]
    constructor
    · exact head?_append_congr inner.1 fun none => (outer none).1
    · intro none other looked
      obtain ⟨none, noneLater⟩ := List.append_eq_nil_iff.mp none
      rcases (outer none).2 noneLater other looked with early | failure
      · rcases inner.2 none other early with old | failure
        · rcases Places.contains_insert_iff.mp old with rfl | old
          · exact Or.inr none
          · exact Or.inl old
        · exact Or.inr failure
      · exact Or.inr failure

/-! ### Searches -/

variable {c : Char} {ts : List Thread} {w : List Char}

theorem roundsTake_movesAfter (takes : ∀ t ∈ ts, t.RoundsTake) :
    ∀ m ∈ ts.flatMap (Thread.movesAfter c), m.RoundsTake := by
  intro m member
  obtain ⟨set, rest, inside, -, rfl⟩ := mem_movesAfter.mp member
  exact takes _ inside

theorem roundsTake_advance (made : ∀ t ∈ ts, t.Made) (takes : ∀ t ∈ ts, t.RoundsTake) :
    ∀ t ∈ advance c ts, t.RoundsTake := by
  obtain ⟨_, found⟩ := explored_advance (c := c) made
  exact found.roundsTake (roundsTake_movesAfter takes)

theorem head?_ways_advance (made : ∀ t ∈ ts, t.Made) (takes : ∀ t ∈ ts, t.RoundsTake) :
    (Ways.oneOf ((advance c ts).map Thread.ways) w).head? =
      (Ways.oneOf ((ts.flatMap (Thread.movesAfter c)).map Move.ways) w).head? := by
  obtain ⟨_, found⟩ := explored_advance (c := c) made
  exact (found.head?_ways w (roundsTake_movesAfter takes) (by simp)).1

/-- Threads that are not done go on with the next character. -/
theorem ways_running (running : ∀ t ∈ ts, t ≠ .done) :
    Ways.oneOf (ts.map Thread.ways) [] = [] ∧
      Ways.oneOf (ts.map Thread.ways) (c :: w) =
        (Ways.oneOf ((ts.flatMap (Thread.movesAfter c)).map Move.ways) w).map (1 + ·) := by
  induction ts with
  | nil => exact ⟨rfl, rfl⟩
  | cons t ts ih =>
    obtain ⟨atEnd, further⟩ := ih (List.forall_mem_cons.mp running).2
    cases t with
    | done => exact absurd rfl (running _ List.mem_cons_self)
    | reading set rest =>
      -- at the end of the text no character can be read
      rw [List.map_cons, Ways.oneOf_cons, Ways.orElse, atEnd, Ways.orElse, further,
        List.flatMap_cons, List.map_append, Ways.oneOf_append, Ways.orElse, List.map_append]
      refine ⟨rfl, congrArg (· ++ _) ?_⟩
      by_cases accepts : set.accepts c = true
      · simp [Thread.ways, Ways.andThen, Ways.one, Thread.movesAfter, accepts, Ways.oneOf, Move.ways]
      · simp [Thread.ways, Ways.andThen, Ways.one, Thread.movesAfter, accepts, Ways.oneOf, Ways.fail]

/-- The first success of threads is that of the threads in front of the first one that is done, or
else where that one stands. -/
theorem head?_ways_threads (ts : List Thread) (w : List Char) :
    (Ways.oneOf (ts.map Thread.ways) w).head? =
      (Ways.oneOf ((ts.takeWhile (· ≠ .done)).map Thread.ways) w).head?.or
        (if ts.contains .done then some 0 else none) := by
  induction ts with
  | nil => rfl
  | cons t ts ih =>
    by_cases done : t = .done
    · subst done
      simp [Ways.oneOf, Ways.orElse, Thread.ways, Ways.stay, Ways.fail]
    · have different : (Thread.done == t) = false := by simpa using Ne.symm done
      rw [List.takeWhile_cons_of_pos (by simpa using done), List.map_cons, List.map_cons,
        Ways.oneOf_cons, Ways.oneOf_cons, Ways.orElse, Ways.orElse, List.head?_append,
        List.head?_append, ih, List.contains_cons, different, Bool.false_or, Option.or_assoc]

theorem takeWhile_running (ts : List Thread) : ∀ t ∈ ts.takeWhile (· ≠ .done), t ≠ .done := by
  intro t member
  simpa using List.mem_takeWhile_imp member

/-- The preferred length is the first way of the threads, in their order. -/
theorem preferredLength_eq (made : ∀ t ∈ ts, t.Made) (takes : ∀ t ∈ ts, t.RoundsTake) :
    preferredLength ts w = (Ways.oneOf (ts.map Thread.ways) w).head? := by
  induction w generalizing ts with
  | nil =>
    have running := ways_running (c := ' ') (w := []) (takeWhile_running ts)
    rw [head?_ways_threads, running.1, preferredLength]
    rfl
  | cons c w ih =>
    -- the threads behind the first one that is done are given up
    have before : ts.takeWhile (· ≠ .done) ⊆ ts := (List.takeWhile_sublist _).subset
    have madeBefore := fun t member => made t (before member)
    have takesBefore := fun t member => takes t (before member)
    have later := ih (made_advance (c := c) madeBefore) (roundsTake_advance madeBefore takesBefore)
    rw [head?_ways_threads, (ways_running (takeWhile_running ts)).2, List.head?_map,
      ← head?_ways_advance madeBefore takesBefore, ← later, preferredLength]
    cases preferredLength (advance c (ts.takeWhile (· ≠ .done))) w with
    | none => rfl
    | some n => simp [Nat.add_comm]

/-- The preferred match is the first one in the order of backtracking. -/
theorem matchLength?_eq_head? {e : Regex} (takes : e.RoundsTake) (w : List Char) :
    e.matchLength? w = (e.ways w).head? := by
  have made := Place.made_start e
  obtain ⟨_, found⟩ := explored_threads made
  have startTakes : ∀ m ∈ [Move.go (Place.start e)], m.RoundsTake :=
    List.forall_mem_singleton.mpr ⟨takes, trivial⟩
  have first := (found.head?_ways w startTakes (by simp)).1
  have start : Ways.oneOf ([Move.go (Place.start e)].map Move.ways) = e.ways := by
    change (e.ways.andThen Ways.stay).orElse Ways.fail = e.ways
    rw [Ways.orElse_fail, Ways.andThen_stay]
  rw [start] at first
  rw [matchLength?, ← first]
  exact preferredLength_eq (made_threads made) (found.roundsTake startTakes)

end PhraseGraph.Regex
