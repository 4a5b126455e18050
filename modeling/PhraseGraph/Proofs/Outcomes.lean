import Mathlib.Data.List.Forall2

/-!
# PhraseGraph.Proofs.Outcomes

Steps that may fail, taken apart when they have succeeded, and what they report when they fail.

## Main statements

`bind_eq_ok`: if a step and what follows it succeed together, then each of them does.
`mapM_eq_ok`: if a step succeeds for all elements of a list, then its values are those of a
function.
`FailsWith.bind`, `FailsWith.mapM`: steps one after another report what the first of them reports
that fails.
-/

namespace PhraseGraph

variable {ε ε' α β : Type} {x : Except ε α} {b : β}

theorem bind_eq_ok {f : α → Except ε β} :
    x >>= f = .ok b ↔ ∃ a, x = .ok a ∧ f a = .ok b := by
  cases x with
  | error e => exact ⟨nofun, nofun⟩
  | ok a =>
    constructor
    · intro returned
      exact ⟨a, rfl, returned⟩
    · rintro ⟨a, ⟨⟩, returned⟩
      exact returned

theorem map_eq_ok {f : α → β} : x.map f = .ok b ↔ ∃ a, x = .ok a ∧ f a = b := by
  cases x with
  | error e => exact ⟨nofun, nofun⟩
  | ok a =>
    constructor
    · intro returned
      exact ⟨a, rfl, Except.ok.inj returned⟩
    · rintro ⟨a, ⟨⟩, rfl⟩
      rfl

/-- A step behind a check. -/
theorem guard_eq_ok {c : Prop} [Decidable c] {a : α} {e : ε} :
    (if c then x else .error e) = .ok a ↔ c ∧ x = .ok a := by
  by_cases check : c
  · rw [if_pos check]
    exact (and_iff_right check).symm
  · rw [if_neg check]
    exact ⟨nofun, fun passed => absurd passed.1 check⟩

theorem mapError_eq_ok {f : ε → ε'} {a : α} : x.mapError f = .ok a ↔ x = .ok a := by
  cases x with
  | error e => exact ⟨nofun, nofun⟩
  | ok _ => exact ⟨fun returned => congrArg _ (Except.ok.inj returned),
      fun returned => congrArg _ (Except.ok.inj returned)⟩

theorem isSome_toOption : x.toOption.isSome = true ↔ ∃ a, x = .ok a := by
  cases x with
  | error e => exact ⟨nofun, nofun⟩
  | ok a => exact ⟨fun _ => ⟨a, rfl⟩, fun _ => rfl⟩

theorem map_toOption_eq_some {f : α → β} :
    x.toOption.map f = some b ↔ ∃ a, x = .ok a ∧ f a = b := by
  cases x with
  | error e => exact ⟨nofun, nofun⟩
  | ok a =>
    constructor
    · intro computed
      exact ⟨a, rfl, Option.some.inj computed⟩
    · rintro ⟨a, ⟨⟩, rfl⟩
      rfl

/-- If every element yields a list, then these lists are the values of a function. -/
theorem mapM_eq_ok {f : α → Except ε (List β)} {as : List α} {bs : List (List β)}
    (returned : as.mapM f = .ok bs) : ∃ g, (∀ a ∈ as, f a = .ok (g a)) ∧ bs = as.map g := by
  refine ⟨fun a => (f a).toOption.getD [], ?_⟩
  induction as generalizing bs with
  | nil =>
    rw [List.mapM_nil] at returned
    cases returned
    exact ⟨by simp, rfl⟩
  | cons a as ih =>
    rw [List.mapM_cons] at returned
    obtain ⟨b, first, returned⟩ := bind_eq_ok.mp returned
    obtain ⟨rest, later, returned⟩ := bind_eq_ok.mp returned
    cases returned
    obtain ⟨each, rfl⟩ := ih later
    -- the function is the one that reads off what each element yields
    have value : (f a).toOption.getD [] = b := by rw [first]; rfl
    have here : f a = .ok ((f a).toOption.getD []) := first.trans (congrArg _ value.symm)
    exact ⟨List.forall_mem_cons.mpr ⟨here, each⟩, by rw [List.map_cons, value]⟩

/-- A list of steps succeeds if each of them does, and its values are theirs in order. -/
theorem mapM_eq_ok_iff {f : α → Except ε β} {as : List α} {bs : List β} :
    as.mapM f = .ok bs ↔ List.Forall₂ (fun a b => f a = .ok b) as bs := by
  induction as generalizing bs with
  | nil =>
    rw [List.mapM_nil, List.forall₂_nil_left_iff]
    exact ⟨fun returned => (Except.ok.inj returned).symm, fun none => none ▸ rfl⟩
  | cons a as ih =>
    rw [List.mapM_cons, List.forall₂_cons_left_iff, bind_eq_ok]
    simp only [bind_eq_ok, ih]
    constructor
    · rintro ⟨b, first, bs, later, ⟨⟩⟩
      exact ⟨b, bs, first, later, rfl⟩
    · rintro ⟨b, bs, first, later, rfl⟩
      exact ⟨b, first, bs, later, rfl⟩

/-! ### Reports -/

/-- What is reported by the first of several checks that reports anything. -/
def FirstOf : List (ε → Prop) → ε → Prop
  | [], _ => False
  | report :: reports, e => report e ∨ (∀ e', ¬report e') ∧ FirstOf reports e

variable {report : ε → Prop} {reports : List (ε → Prop)} {e : ε}

@[simp] theorem firstOf_nil : ¬FirstOf [] e := id

@[simp] theorem firstOf_singleton : FirstOf [report] e ↔ report e := by
  rw [FirstOf]
  exact or_iff_left fun ⟨_, nothing⟩ => nothing

/-- Nothing is reported if every check keeps silent. -/
theorem forall_not_firstOf : (∀ e, ¬FirstOf reports e) ↔ ∀ report ∈ reports, ∀ e, ¬report e := by
  induction reports with
  | nil => simp
  | cons report reports ih =>
    rw [List.forall_mem_cons, ← ih]
    constructor
    · intro silent
      have first : ∀ e, ¬report e := fun e reported => silent e (Or.inl reported)
      exact ⟨first, fun e reported => silent e (Or.inr ⟨first, reported⟩)⟩
    · rintro ⟨first, later⟩ e (reported | ⟨-, reported⟩)
      · exact first e reported
      · exact later e reported

/-- Checks that each find at most one fault report the first of these. -/
theorem firstOf_map_iff {fault? : α → Option ε} {as : List α} :
    FirstOf (as.map fun a e => fault? a = some e) e ↔ as.findSome? fault? = some e := by
  induction as with
  | nil => simp
  | cons a as ih =>
    rw [List.map_cons, FirstOf, ih, List.findSome?_cons]
    cases fault? a <;> simp

/-- The step fails if there is a report, and with what is reported. -/
def FailsWith (x : Except ε α) (report : ε → Prop) : Prop := ∀ e, x = .error e ↔ report e

namespace FailsWith

theorem ok {a : α} : FailsWith (.ok a) (FirstOf ([] : List (ε → Prop))) :=
  fun _ => ⟨nofun, nofun⟩

theorem exists_ok_iff (fails : FailsWith x report) : (∃ a, x = .ok a) ↔ ∀ e, ¬report e := by
  cases x with
  | error e => exact ⟨nofun, fun silent => absurd ((fails e).mp rfl) (silent e)⟩
  | ok a =>
    refine ⟨fun _ e reported => ?_, fun _ => ⟨a, rfl⟩⟩
    cases (fails e).mpr reported

theorem map (fails : FailsWith x report) (f : α → β) : FailsWith (x.map f) report := by
  intro e
  rw [← fails]
  cases x with
  | error e' => rw [Except.map, Except.error.injEq, Except.error.injEq]
  | ok a => exact ⟨nofun, nofun⟩

theorem mapError (fails : FailsWith x report) (g : ε → ε') :
    FailsWith (x.mapError g) fun e => ∃ cause, report cause ∧ e = g cause := by
  intro e
  cases x with
  | error e' =>
    constructor
    · intro failed
      exact ⟨e', (fails e').mp rfl, (Except.error.inj failed).symm⟩
    · rintro ⟨cause, reported, rfl⟩
      cases (fails cause).mpr reported
      rfl
  | ok a =>
    constructor
    · intro failed
      cases failed
    · rintro ⟨cause, reported, -⟩
      cases (fails cause).mpr reported

/-- What follows a step is reached if the step does not fail. -/
theorem bind {f : α → Except ε β} (first : FailsWith x report)
    (later : ∀ a, x = .ok a → FailsWith (f a) (FirstOf reports)) :
    FailsWith (x >>= f) (FirstOf (report :: reports)) := by
  intro e
  have silent := first.exists_ok_iff
  rw [FirstOf, ← silent, ← first]
  cases x with
  | error e' =>
    have stopped : (Except.error e' : Except ε α) >>= f = .error e' := rfl
    rw [stopped, Except.error.injEq, Except.error.injEq]
    constructor
    · exact Or.inl
    · rintro (failed | ⟨⟨a, ⟨⟩⟩, -⟩)
      exact failed
  | ok a =>
    constructor
    · intro failed
      exact Or.inr ⟨⟨a, rfl⟩, (later a rfl e).mp failed⟩
    · rintro (⟨⟨⟩⟩ | ⟨-, reported⟩)
      exact (later a rfl e).mpr reported

/-- The elements are gone through in order, up to the first that fails. -/
theorem mapM {f : α → Except ε β} {reportOf : α → ε → Prop} {as : List α}
    (each : ∀ a ∈ as, FailsWith (f a) (reportOf a)) :
    FailsWith (as.mapM f) (FirstOf (as.map reportOf)) := by
  induction as with
  | nil => exact ok
  | cons a as ih =>
    obtain ⟨first, later⟩ := List.forall_mem_cons.mp each
    rw [List.mapM_cons, List.map_cons]
    refine bind first fun b _ => ?_
    exact (ih later).map (b :: ·)

end FailsWith

end PhraseGraph
