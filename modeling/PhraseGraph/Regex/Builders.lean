import PhraseGraph.Regex.Basic

/-!
# PhraseGraph.Regex.Builders

Functions that build expressions in a simple form.

`Regex.inOrder` and `Regex.oneOf` open expressions of their own kind, and a single part stands for
itself. `Regex.repeating` writes out the repetitions that repeat nothing.

If all branches of a choice are concatenations that start alike, then `Regex.oneOf` takes what
they share out of the choice: `xa` or `xb` becomes `x`, then `a` or `b`. That does not change what
is matched, but it may change what is preferred, since now every branch is tried with the first
way to match `x` before any is tried with the second. Adjacent characters are one run there,
which is shared as a whole or not at all.
-/

namespace PhraseGraph.Regex

def inOrder (es : List Regex) : Regex :=
  match es.flatMap parts with
  | [e] => e
  | es => .concat es

/-! ### Choices -/

def isLetter : Regex → Bool
  | .char (.only _) => true
  | _ => false

/-- The parts of a concatenation in runs: characters that stand side by side make one run, and
everything else is a run of its own. -/
def runs : List Regex → List (List Regex)
  | [] => []
  | e :: es =>
    match runs es with
    -- a character joins a run of characters behind it
    | (d :: run) :: rest =>
      if e.isLetter && d.isLetter then (e :: d :: run) :: rest else [e] :: (d :: run) :: rest
    | rest => [e] :: rest

/-- The longest list that two lists start with. -/
def commonStart {α : Type} [DecidableEq α] : List α → List α → List α
  | a :: as, b :: bs => if a = b then a :: commonStart as bs else []
  | _, _ => []

/-- The runs that all rows start with. There are none if a row has less than two runs. -/
def sharedRuns : List (List (List Regex)) → List (List Regex)
  | [] => []
  | row :: rows =>
    if (row :: rows).all fun row => 1 < row.length then rows.foldl commonStart row else []

/-- The number of parts that all of the expressions start with. -/
def sharedCount (es : List Regex) : Nat :=
  (sharedRuns (es.map fun e => runs e.parts)).flatten.length

def dropParts (n : Nat) (e : Regex) : Regex := inOrder (e.parts.drop n)

/-! ### Taking out what is shared makes branches smaller -/

theorem length_runs (es : List Regex) : (runs es).length ≤ es.length := by
  induction es with
  | nil => simp [runs]
  | cons e es ih =>
    unfold runs
    split
    · next d run rest shape =>
      rw [shape] at ih
      split <;> simp only [List.length_cons] at ih ⊢ <;> omega
    · simp only [List.length_cons]
      omega

theorem several_parts {es : List Regex} (shares : sharedCount es ≠ 0) :
    ∀ e ∈ es, 1 < e.parts.length := by
  intro e member
  unfold sharedCount sharedRuns at shares
  split at shares
  · simp at shares
  · next row rows shape =>
    split at shares
    · next several =>
      rw [← shape, List.all_eq_true] at several
      have runs_of_e := several (runs e.parts) (List.mem_map_of_mem member)
      have := length_runs e.parts
      simp only [decide_eq_true_eq] at runs_of_e
      omega
    · simp at shares

theorem sizeOf_append (es fs : List Regex) :
    sizeOf (es ++ fs) + 1 = sizeOf es + sizeOf fs := by
  induction es with
  | nil => simp [Nat.add_comm]
  | cons e es ih =>
    simp only [List.cons_append, List.cons.sizeOf_spec]
    omega

theorem sizeOf_flatMap {members : Regex → List Regex}
    (small : ∀ e, sizeOf (members e) ≤ sizeOf e + 2) (es : List Regex) :
    sizeOf (es.flatMap members) ≤ sizeOf es := by
  induction es with
  | nil => simp
  | cons e es ih =>
    have split := sizeOf_append (members e) (es.flatMap members)
    have := small e
    simp only [List.flatMap_cons, List.cons.sizeOf_spec]
    omega

theorem sizeOf_parts (e : Regex) : sizeOf e.parts ≤ sizeOf e + 2 := by
  cases e <;> simp only [parts, List.cons.sizeOf_spec, List.nil.sizeOf_spec,
    concat.sizeOf_spec] <;> omega

theorem sizeOf_branches (e : Regex) : sizeOf e.branches ≤ sizeOf e + 2 := by
  cases e <;> simp only [branches, List.cons.sizeOf_spec, List.nil.sizeOf_spec,
    choice.sizeOf_spec] <;> omega

theorem sizeOf_inOrder (es : List Regex) : sizeOf (inOrder es) ≤ sizeOf es + 1 := by
  have small := sizeOf_flatMap sizeOf_parts es
  unfold inOrder
  split
  · next single =>
    rw [single] at small
    simp only [List.cons.sizeOf_spec, List.nil.sizeOf_spec] at small
    omega
  · simp only [concat.sizeOf_spec]
    omega

theorem sizeOf_drop (n : Nat) (e : Regex) (es : List Regex) :
    sizeOf ((e :: es).drop (n + 1)) < sizeOf (e :: es) := by
  induction n generalizing e es with
  | zero =>
    simp only [Nat.zero_add, List.drop_succ_cons, List.drop_zero, List.cons.sizeOf_spec]
    omega
  | succ n ih =>
    cases es with
    | nil =>
      simp only [List.drop_succ_cons, List.drop_nil, List.cons.sizeOf_spec,
        List.nil.sizeOf_spec]
      omega
    | cons f es =>
      have := ih f es
      simp only [List.drop_succ_cons, List.cons.sizeOf_spec] at this ⊢
      omega

theorem sizeOf_dropParts {n : Nat} {e : Regex} (some_dropped : n ≠ 0)
    (several : 1 < e.parts.length) : sizeOf (dropParts n e) < sizeOf e := by
  obtain ⟨n, rfl⟩ := Nat.exists_eq_succ_of_ne_zero some_dropped
  have bound := sizeOf_inOrder (e.parts.drop (n + 1))
  cases e with
  | concat es =>
    cases es with
    | nil => simp [parts] at several
    | cons e es =>
      have := sizeOf_drop n e es
      simp only [dropParts, parts, concat.sizeOf_spec, Nat.succ_eq_add_one] at bound ⊢
      omega
  | char => simp [parts] at several
  | choice => simp [parts] at several
  | repeated => simp [parts] at several

theorem sizeOf_map_dropParts {n : Nat} {e : Regex} {es : List Regex} (some_dropped : n ≠ 0)
    (several : ∀ f ∈ e :: es, 1 < f.parts.length) :
    sizeOf ((e :: es).map (dropParts n)) < sizeOf (e :: es) := by
  have first := sizeOf_dropParts some_dropped (several e List.mem_cons_self)
  have others : sizeOf (es.map (dropParts n)) ≤ sizeOf es := by
    replace several : ∀ f ∈ es, 1 < f.parts.length := fun f member =>
      several f (List.mem_cons_of_mem e member)
    induction es with
    | nil => simp
    | cons f es ih =>
      have := sizeOf_dropParts some_dropped (several f List.mem_cons_self)
      have := ih fun g member => several g (List.mem_cons_of_mem f member)
      simp only [List.map_cons, List.cons.sizeOf_spec]
      omega
  simp only [List.map_cons, List.cons.sizeOf_spec]
  omega

def oneOf (es : List Regex) : Regex :=
  match flat : es.flatMap branches with
  | [] => never
  | [e] => e
  | e :: others =>
    -- branches that all match nothing are no better than one
    if (e :: others).all (· = never) then never
    else if shares : sharedCount (e :: others) = 0 then .choice (e :: others)
    else
      -- what is left behind the shared parts may share more
      let shared := sharedCount (e :: others)
      have : sizeOf ((e :: others).map (dropParts shared)) < sizeOf es :=
        Nat.lt_of_lt_of_le (sizeOf_map_dropParts shares (several_parts shares))
          (flat ▸ sizeOf_flatMap sizeOf_branches es)
      inOrder (e.parts.take shared ++ [oneOf ((e :: others).map (dropParts shared))])
termination_by sizeOf es

/-! ### Repetitions -/

mutual

/-- Whether the expression matches, but nothing longer than the empty text. -/
def onlyEmpty : Regex → Bool
  | .char _ => false
  | .concat es => onlyEmptyAll es
  | .choice es => onlyEmptyAll es
  | .repeated e _ most => onlyEmpty e || most == some 0

def onlyEmptyAll : List Regex → Bool
  | [] => true
  | e :: es => onlyEmpty e && onlyEmptyAll es

end

/-- The body as often as the bounds say, written out where that is trivial. -/
def repeating (e : Regex) (least : Nat) (most : Option Nat) : Regex :=
  -- more than one copy of an empty body is no more than one
  let (least, most) :=
    if e.onlyEmpty then (min least 1, some (min (most.getD 1) 1)) else (least, most)
  if least = 0 ∧ most = some 0 then empty
  else if least = 1 ∧ most = some 1 then e
  else .repeated e least most

end PhraseGraph.Regex
