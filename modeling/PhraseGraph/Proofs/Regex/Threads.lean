import PhraseGraph.Proofs.Regex.Exploration
import PhraseGraph.Proofs.Regex.Language

/-!
# PhraseGraph.Proofs.Regex.Threads

What the threads at a place match.

## Main statements

`Regex.mem_threads`: the threads at a place are those that moves lead to. `Regex.mem_language_place`:
between them they match what the tasks at the place match, one after another.
-/

namespace PhraseGraph.Regex

open Computability

/-! ### Reaching threads -/

inductive Place.Reaches : Place → Thread → Prop
  | stop {place : Place} {t : Thread} : .stop t ∈ place.moves → Reaches place t
  | go {place other : Place} {t : Thread} : .go other ∈ place.moves → Reaches other t →
    Reaches place t

def Move.Reaches : Move → Thread → Prop
  | .stop t, u => u = t
  | .go place, u => place.Reaches u

/-- The search has followed the move: the thread has been found or the place looked at. -/
def Move.Followed (ts : List Thread) (seen : Places) : Move → Prop
  | .stop t => t ∈ ts
  | .go place => seen.contains place = true

theorem Move.Reaches.step {place : Place} {m : Move} {t : Thread} (member : m ∈ place.moves)
    (reaches : m.Reaches t) : place.Reaches t := by
  cases m with
  | stop u =>
    have same : t = u := reaches
    exact .stop (same ▸ member)
  | go other => exact .go member reaches

variable {ms : List Move} {seen seen' : Places} {ts : List Thread}

theorem Explored.sound (found : Explored ms seen ts seen') :
    ∀ t ∈ ts, ∃ m ∈ ms, m.Reaches t := by
  induction found with
  | nil => simp
  | stop t _ ih =>
    intro u member
    rcases List.mem_cons.mp member with rfl | member
    · exact ⟨.stop u, List.mem_cons_self, rfl⟩
    · obtain ⟨m, inside, reaches⟩ := ih u member
      exact ⟨m, List.mem_cons_of_mem _ inside, reaches⟩
  | known _ _ ih =>
    intro u member
    obtain ⟨m, inside, reaches⟩ := ih u member
    exact ⟨m, List.mem_cons_of_mem _ inside, reaches⟩
  | @fresh _ _ _ _ _ _ place _ _ _ ihInner ihOuter =>
    intro u member
    rcases List.mem_append.mp member with member | member
    · obtain ⟨m, inside, reaches⟩ := ihInner u member
      exact ⟨.go place, List.mem_cons_self, reaches.step inside⟩
    · obtain ⟨m, inside, reaches⟩ := ihOuter u member
      exact ⟨m, List.mem_cons_of_mem _ inside, reaches⟩

theorem Move.Followed.mono {m : Move} {us : List Thread} (followed : m.Followed ts seen)
    (threads : ts ⊆ us) (places : ∀ place, seen.contains place = true → seen'.contains place = true) :
    m.Followed us seen' := by
  cases m with
  | stop t => exact threads followed
  | go place => exact places place followed

/-- A search follows the moves that it is given. -/
theorem Explored.follows (found : Explored ms seen ts seen') : ∀ m ∈ ms, m.Followed ts seen' := by
  induction found with
  | nil => simp
  | stop t _ ih =>
    intro m member
    rcases List.mem_cons.mp member with rfl | member
    · exact List.mem_cons_self
    · exact (ih m member).mono (List.subset_cons_self _ _) fun _ old => old
  | known old rest ih =>
    intro m member
    rcases List.mem_cons.mp member with rfl | member
    · exact rest.grows old
    · exact ih m member
  | fresh _ inner outer _ ih =>
    intro m member
    rcases List.mem_cons.mp member with rfl | member
    · exact outer.grows (inner.grows (by simp))
    · exact (ih m member).mono (List.subset_append_right _ _) fun _ old => old

/-- A search follows all moves at every place that it has newly looked at. -/
theorem Explored.closed (found : Explored ms seen ts seen') (place : Place)
    (looked : seen'.contains place = true) :
    seen.contains place = true ∨ ∀ m ∈ place.moves, m.Followed ts seen' := by
  -- a place that is looked at on the way is either old or has its moves followed by then
  induction found with
  | nil => exact Or.inl looked
  | stop t _ ih =>
    apply (ih looked).imp_right
    intro followed m member
    exact (followed m member).mono (List.subset_cons_self _ _) fun _ old => old
  | known _ _ ih => exact ih looked
  | @fresh _ _ ts mid us seen' _ _ inner outer ihInner ihOuter =>
    rcases ihOuter looked with early | followed
    · have first (m : Move) (followed : m.Followed ts mid) : m.Followed (ts ++ us) seen' :=
        followed.mono (List.subset_append_left _ _) fun _ old => outer.grows old
      rcases ihInner early with old | followed
      · rcases Places.contains_insert_iff.mp old with rfl | old
        · exact Or.inr fun m member => first m (inner.follows m member)
        · exact Or.inl old
      · exact Or.inr fun m member => first m (followed m member)
    · refine Or.inr fun m member => ?_
      exact (followed m member).mono (List.subset_append_right _ _) fun _ old => old

/-- From no places looked at, a search finds the threads that its moves lead to. -/
theorem Explored.mem_iff (found : Explored ms {} ts seen') (t : Thread) :
    t ∈ ts ↔ ∃ m ∈ ms, m.Reaches t := by
  -- the induction is on the way to the thread; all places on it have been looked at
  have complete {place : Place} {u : Thread} (reached : place.Reaches u) :
      seen'.contains place = true → u ∈ ts := by
    induction reached with
    | stop step => exact fun looked => (found.closed _ looked).resolve_left (by simp) _ step
    | go step _ ih => exact fun looked => ih ((found.closed _ looked).resolve_left (by simp) _ step)
  refine ⟨found.sound t, fun ⟨m, member, reaches⟩ => ?_⟩
  have followed := found.follows m member
  cases m with
  | stop u => exact (show t = u from reaches) ▸ followed
  | go place => exact complete reaches followed

theorem mem_threads {place : Place} (made : place.Made) (t : Thread) :
    t ∈ threads place ↔ place.Reaches t := by
  obtain ⟨_, found⟩ := explored_threads made
  rw [found.mem_iff]
  simp [Move.Reaches]

/-! ### Languages of places -/

def Task.language : Task → Language Char
  | .once e => e.language
  | .times n e => e.language ^ n
  | .upTo n e => atMost e.language n
  | .again e => e.language∗
  | .joined _ => 1

/-- The texts that the tasks at a place match one after another. -/
def Place.language : Place → Language Char
  | .finish => 1
  | .stage _ task rest => task.language * rest.language

/-- The texts that a thread can still read. -/
def Thread.language : Thread → Language Char
  | .done => 1
  | .reading set rest => (char set).language * rest.language

def Move.language : Move → Language Char
  | .stop t => t.language
  | .go place => place.language

@[simp] theorem Place.language_push (rest : Place) (task : Task) :
    (rest.push task).language = task.language * rest.language := rfl

theorem Place.language_pushAll (rest : Place) (es : List Regex) :
    (rest.pushAll (es.map .once)).language = (es.map Regex.language).prod * rest.language := by
  induction es with
  | nil => simp [pushAll]
  | cons e es ih =>
    change e.language * (rest.pushAll (es.map .once)).language = _
    rw [ih, List.map_cons, List.prod_cons, mul_assoc]

theorem Place.language_start (e : Regex) : (Place.start e).language = e.language :=
  mul_one e.language

theorem sum_branchMoves (es : List Regex) (branch : Nat) (rest : Place) :
    ((branchMoves es branch rest).map Move.language).sum =
      (es.map Regex.language).sum * rest.language := by
  induction es generalizing branch with
  | nil => simp [branchMoves]
  | cons e es ih =>
    rw [branchMoves, List.map_cons, List.sum_cons, ih, List.map_cons, List.sum_cons, add_mul]
    change e.language * (1 * rest.language) + _ = _
    rw [one_mul]

theorem kstar_mul_unfold {α : Type} (l m : Language α) : l∗ * m = l * (l∗ * m) + m := by
  rw [← mul_assoc, add_comm, ← one_add_mul, Language.one_add_self_mul_kstar_eq_kstar]

/-- A task in front of others matches what its moves match between them. -/
theorem Task.language_mul (task : Task) (rest : Place) :
    task.language * rest.language = ((task.moves rest).map Move.language).sum := by
  fun_cases Task.moves task rest
  case case2 es => simp [Task.language, Move.language, Place.language_pushAll]
  case case3 es => rw [sum_branchMoves, Task.language, language_choice]
  all_goals simp only [List.map_cons, List.map_nil, List.sum_cons, List.sum_nil, add_zero,
    Task.language, Move.language, Thread.language, Place.language_push, language_repeated, copies,
    atMost, pow_zero, pow_one, one_mul]
  case case4 => rw [mul_assoc]
  case case5 => rw [← kstar_mul_unfold]
  case case6 => rw [mul_assoc]
  case case7 => rw [pow_succ, mul_assoc, mul_assoc, mul_assoc]
  case case9 => rw [pow_succ', mul_assoc]
  case case11 => rw [add_mul, one_mul, mul_assoc]
  case case12 => rw [← kstar_mul_unfold]

theorem Place.language_eq_sum (place : Place) :
    place.language = (place.moves.map Move.language).sum := by
  cases place with
  | finish => simp [moves, Move.language, Thread.language, Place.language]
  | stage _ task rest => exact task.language_mul rest

/-- A thread that moves lead to matches nothing that its place does not match. -/
theorem Place.Reaches.mem_language {place : Place} {t : Thread} (reaches : place.Reaches t)
    {w : List Char} (member : w ∈ t.language) : w ∈ place.language := by
  induction reaches with
  | stop step =>
    rw [Place.language_eq_sum, mem_sum_map]
    exact ⟨_, step, member⟩
  | go step _ ih =>
    rw [Place.language_eq_sum, mem_sum_map]
    exact ⟨_, step, ih member⟩

/-! ### Finding what a place matches

A text that a place matches is found without going round in circles: if a copy of a body is empty,
the search goes on behind the body, and copies of an endless repetition can be taken non-empty. -/

/-- Some thread that moves lead to matches the text. -/
def Place.Finds (place : Place) (w : List Char) : Prop :=
  ∃ t, place.Reaches t ∧ w ∈ t.language

theorem Place.Finds.go {place other : Place} {w : List Char} (step : .go other ∈ place.moves) :
    other.Finds w → place.Finds w :=
  fun ⟨t, reaches, member⟩ => ⟨t, .go step reaches, member⟩

/-- The task can be gone through: whatever it and the rest match is found at the task, if what the
rest matches is found there in case that the task reads nothing. -/
def Task.Passes (task : Task) : Prop :=
  ∀ (rest : Place) (u v : List Char), u ∈ task.language → v ∈ rest.language →
    (u = [] → rest.Finds v) → (rest.push task).Finds (u ++ v)

/-- A task in front of others is gone through before them. -/
theorem Task.Passes.before {task : Task} (passes : task.Passes) {rest other : Place}
    {l : Language Char} {u v : List Char} (onward : rest.language = l * other.language)
    (hu : u ∈ task.language * l) (hv : v ∈ other.language)
    (others : ∀ u' ∈ l, (u' = [] → other.Finds v) → rest.Finds (u' ++ v))
    (finds : u = [] → other.Finds v) : (rest.push task).Finds (u ++ v) := by
  obtain ⟨w, hw, u', hu', rfl⟩ := Language.mem_mul.mp hu
  have matched : u' ++ v ∈ rest.language := onward ▸ Language.append_mem_mul hu' hv
  rw [List.append_assoc]
  apply passes rest w (u' ++ v) hw matched
  -- if the task reads nothing, then what it and the others read is read by the others
  rintro rfl
  exact others u' hu' finds

section Passes

variable {e : Regex}

theorem passes_times (inner : (Task.once e).Passes) (n : Nat) : (Task.times n e).Passes := by
  intro rest u v hu hv finds
  induction n generalizing u with
  | zero =>
    have empty : u = [] := by simpa [Task.language] using hu
    subst empty
    exact .go List.mem_cons_self (finds rfl)
  | succ n ih =>
    rw [Task.language, pow_succ'] at hu
    exact .go List.mem_cons_self (inner.before rfl hu hv ih finds)

theorem passes_upTo (inner : (Task.once e).Passes) (n : Nat) : (Task.upTo n e).Passes := by
  intro rest u v hu hv finds
  induction n generalizing u with
  | zero =>
    have empty : u = [] := by simpa [Task.language, atMost] using hu
    subst empty
    exact .go List.mem_cons_self (finds rfl)
  | succ n ih =>
    rw [Task.language, atMost, Language.mem_add, Language.mem_one] at hu
    rcases hu with hu | rfl
    · exact .go List.mem_cons_self (inner.before rfl hu hv ih finds)
    · exact .go (List.mem_cons_of_mem _ List.mem_cons_self) (finds rfl)

/-- A round that reads something leads to all that an endless repetition matches. -/
theorem finds_round (inner : (Task.once e).Passes) {rest : Place} {u v : List Char}
    (hu : u ∈ e.language∗) (hv : v ∈ rest.language) (reads : u ≠ []) :
    ((rest.push (.again e)).push (.once e)).Finds (u ++ v) := by
  obtain ⟨rounds, rfl, each⟩ := Language.mem_kstar_iff_exists_nonempty.mp hu
  cases rounds with
  | nil => exact absurd rfl reads
  | cons w rounds =>
    -- the first round is not empty, so nothing has to be found behind it without reading
    obtain ⟨matched, nonempty⟩ := each w List.mem_cons_self
    have others : rounds.flatten ∈ e.language∗ :=
      Language.join_mem_kstar fun x later => (each x (List.mem_cons_of_mem w later)).1
    rw [List.flatten_cons, List.append_assoc]
    exact inner _ w _ matched (Language.append_mem_mul others hv) fun empty => absurd empty nonempty

theorem passes_again (inner : (Task.once e).Passes) : (Task.again e).Passes := by
  intro rest u v hu hv finds
  by_cases empty : u = []
  · subst empty
    exact .go (List.mem_cons_of_mem _ List.mem_cons_self) (finds rfl)
  · exact .go List.mem_cons_self (finds_round inner hu hv empty)

theorem finds_rounds (inner : (Task.once e).Passes) {rest : Place} {u v : List Char}
    (hu : u ∈ e.language * e.language∗) (hv : v ∈ rest.language) (finds : u = [] → rest.Finds v) :
    ((rest.push (.again e)).push (.once e)).Finds (u ++ v) :=
  inner.before rfl hu hv (fun u' hu' => passes_again inner rest u' v hu' hv) finds

theorem finds_pushAll {es : List Regex} (each : ∀ e ∈ es, (Task.once e).Passes) {rest : Place}
    {u v : List Char} (hu : u ∈ (es.map Regex.language).prod) (hv : v ∈ rest.language)
    (finds : u = [] → rest.Finds v) : (rest.pushAll (es.map .once)).Finds (u ++ v) := by
  induction es generalizing u with
  | nil =>
    have empty : u = [] := by simpa using hu
    subst empty
    exact finds rfl
  | cons e es ih =>
    rw [List.map_cons, List.prod_cons] at hu
    have later := fun f inside => each f (List.mem_cons_of_mem e inside)
    apply (each e List.mem_cons_self).before (Place.language_pushAll rest es) hu hv _ finds
    exact fun u' hu' finds => ih later hu' finds

theorem branchMoves_of_mem {es : List Regex} (member : e ∈ es) (branch : Nat) (rest : Place) :
    ∃ number, .go ((rest.push (.joined number)).push (.once e)) ∈ branchMoves es branch rest := by
  induction es generalizing branch with
  | nil => simp at member
  | cons f es ih =>
    rcases List.mem_cons.mp member with rfl | later
    · exact ⟨branch, List.mem_cons_self⟩
    · obtain ⟨number, step⟩ := ih later (branch + 1)
      exact ⟨number, List.mem_cons_of_mem _ step⟩

end Passes

mutual

theorem passes_once : ∀ e : Regex, (Task.once e).Passes
  | .char set => by
    intro rest u v hu hv _
    exact ⟨.reading set rest, .stop List.mem_cons_self, Language.append_mem_mul hu hv⟩
  | .concat es => by
    intro rest u v hu hv finds
    rw [Task.language, language_concat] at hu
    exact .go List.mem_cons_self (finds_pushAll (passes_each es) hu hv finds)
  | .choice es => by
    intro rest u v hu hv finds
    obtain ⟨e, member, hu⟩ := mem_language_choice.mp hu
    obtain ⟨number, step⟩ := branchMoves_of_mem member 0 rest
    have onward : v ∈ (rest.push (.joined number)).language :=
      Language.append_mem_mul Language.nil_mem_one hv
    apply Place.Finds.go step
    apply passes_each es e member _ u v hu onward
    exact fun empty => .go List.mem_cons_self (finds empty)
  | .repeated e least (some most) => by
    intro rest u v hu hv finds
    rw [Task.language, language_repeated, copies] at hu
    have first := passes_times (passes_once e) least
    have extra := passes_upTo (passes_once e) (most - least)
    exact .go List.mem_cons_self
      (first.before rfl hu hv (fun u' hu' => extra rest u' v hu' hv) finds)
  | .repeated e 0 none => by
    intro rest u v hu hv finds
    rw [Task.language, language_repeated, copies, pow_zero, one_mul] at hu
    by_cases empty : u = []
    · subst empty
      exact .go (List.mem_cons_of_mem _ List.mem_cons_self) (finds rfl)
    · exact .go List.mem_cons_self (finds_round (passes_once e) hu hv empty)
  | .repeated e 1 none => by
    intro rest u v hu hv finds
    rw [Task.language, language_repeated, copies, pow_one] at hu
    exact .go List.mem_cons_self (finds_rounds (passes_once e) hu hv finds)
  | .repeated e (least + 2) none => by
    intro rest u v hu hv finds
    rw [Task.language, language_repeated, copies, pow_succ, mul_assoc] at hu
    have first := passes_times (passes_once e) (least + 1)
    have onward : (rest.push (.once (.repeated e 1 none))).language =
        e.language * e.language∗ * rest.language := by
      rw [Place.language_push, Task.language, language_repeated, copies, pow_one]
    apply Place.Finds.go List.mem_cons_self
    apply first.before onward hu hv _ finds
    intro u' hu' finds
    exact .go List.mem_cons_self (finds_rounds (passes_once e) hu' hv finds)

theorem passes_each : ∀ (es : List Regex), ∀ e ∈ es, (Task.once e).Passes
  | [], _, member => absurd member List.not_mem_nil
  | e :: es, f, member => by
    rcases List.mem_cons.mp member with same | later
    · exact same ▸ passes_once e
    · exact passes_each es f later

end

theorem Place.Made.finds {place : Place} (made : place.Made) {w : List Char}
    (member : w ∈ place.language) : place.Finds w := by
  induction made generalizing w with
  | finish => exact ⟨.done, .stop List.mem_cons_self, member⟩
  | push task _ ih =>
    obtain ⟨u, hu, v, hv, rfl⟩ := Language.mem_mul.mp member
    cases task with
    | once e => exact passes_once e _ u v hu hv fun _ => ih hv
    | times n e => exact passes_times (passes_once e) n _ u v hu hv fun _ => ih hv
    | upTo n e => exact passes_upTo (passes_once e) n _ u v hu hv fun _ => ih hv
    | again e => exact passes_again (passes_once e) _ u v hu hv fun _ => ih hv
    | joined branch =>
      have empty : u = [] := by simpa [Task.language] using hu
      subst empty
      exact .go List.mem_cons_self (ih hv)

/-- The threads at a place match what its tasks match. -/
theorem mem_language_place {place : Place} (made : place.Made) (w : List Char) :
    w ∈ place.language ↔ ∃ t ∈ threads place, w ∈ t.language := by
  simp only [mem_threads made]
  exact ⟨made.finds, fun ⟨t, reaches, member⟩ => reaches.mem_language member⟩

end PhraseGraph.Regex
