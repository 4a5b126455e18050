import Mathlib.Data.List.Basic
import PhraseGraph.Provider

/-!
# PhraseGraph.Proofs.Provider.Plans

Makings, told without a supply.

The supply only decides which variables a making gets. How many it takes, what it makes of them,
and whether it fails, is settled before: this is its plan. The rules below tell how the plans of
makings are put together when these follow one another.

## Main statements

`Follows.bind`, `Follows.mapM`: makings one after another get variables one after another.
`Follows.disjunction`: alternatives, each with variables of its own, are one making. It fails if
there are none, before a variable has been taken.
-/

namespace PhraseGraph

variable {κ : KnowledgeBase} {α β γ : Type}

/-! ### Alternatives -/

namespace Edge

/-- Edges as alternatives, a single one as it is. -/
def alternatives : List (Edge κ) → Edge κ
  | [e] => e
  | es => .disjunction es

/-- Edges none of which is a disjunction are not opened. -/
theorem anyOf_eq_alternatives {es : List (Edge κ)} (nonempty : es ≠ [])
    (simple : ∀ e ∈ es, e.disjuncts = [e]) : anyOf es = some (alternatives es) := by
  rw [anyOf, List.flatMap_congr simple, List.flatMap_singleton']
  match es with
  | [] => exact absurd rfl nonempty
  | [e] => rfl
  | e :: f :: es => rfl

end Edge

/-! ### Allotments -/

/-- Something made of the next variables of a supply. -/
structure Allotment (α : Type) where
  count : Nat
  /-- What is made if this is the first of the variables. -/
  made : Nat → α

namespace Allotment

def const (a : α) : Allotment α := ⟨0, fun _ => a⟩

def fresh : Allotment (Node κ) := ⟨1, Node.var⟩

def map (f : α → β) (a : Allotment α) : Allotment β := ⟨a.count, fun n => f (a.made n)⟩

@[simp] theorem count_map (f : α → β) (a : Allotment α) : (a.map f).count = a.count := rfl

@[simp] theorem made_map (f : α → β) (a : Allotment α) (n : Nat) :
    (a.map f).made n = f (a.made n) := rfl

/-- Two things made one after the other, put together. -/
def map₂ (f : α → β → γ) (a : Allotment α) (b : Allotment β) : Allotment γ :=
  ⟨a.count + b.count, fun n => f (a.made n) (b.made (n + a.count))⟩

@[simp] theorem count_map₂ (f : α → β → γ) (a : Allotment α) (b : Allotment β) :
    (a.map₂ f b).count = a.count + b.count := rfl

@[simp] theorem made_map₂ (f : α → β → γ) (a : Allotment α) (b : Allotment β) (n : Nat) :
    (a.map₂ f b).made n = f (a.made n) (b.made (n + a.count)) := rfl

/-- Things made one after the other. -/
def traverse (f : α → Allotment β) : List α → Allotment (List β)
  | [] => const []
  | a :: as => map₂ List.cons (f a) (traverse f as)

variable {f : α → Allotment β}

theorem count_traverse {count : Nat} (each : ∀ a, (f a).count = count) (as : List α) :
    (traverse f as).count = as.length * count := by
  induction as with
  | nil => exact (Nat.zero_mul count).symm
  | cons a as ih =>
    rw [traverse, count_map₂, each, ih, List.length_cons, Nat.succ_mul, Nat.add_comm]

/-- Whatever is made is made by one of the allotments. -/
theorem forall_mem_traverse {p : β → Prop} {as : List α} (each : ∀ a ∈ as, ∀ n, p ((f a).made n))
    (n : Nat) : ∀ b ∈ (traverse f as).made n, p b := by
  induction as generalizing n with
  | nil => exact nofun
  | cons a as ih =>
    obtain ⟨first, later⟩ := List.forall_mem_cons.mp each
    exact List.forall_mem_cons.mpr ⟨first n, ih later (n + (f a).count)⟩

/-- A node itself, or a variable that is compared with it. -/
def compared (node : Node κ) : Option Comparison → Allotment (Node κ)
  | some comparison => fresh.map fun v => v.filtered comparison node
  | none => const node

end Allotment

/-! ### Plans -/

/-- What a making comes to, whatever the supply. -/
inductive Plan (α : Type) where
  | makes (a : Allotment α)
  /-- Fails after some variables have been taken. -/
  | fails (lost : Nat) (e : ProviderError)

namespace Plan

/-- The variables that are taken, be it in vain. -/
def count : Plan α → Nat
  | makes a => a.count
  | fails lost _ => lost

/-- What comes of the plan if this is the first variable. -/
def result : Plan α → Nat → Except ProviderError α
  | makes a, n => .ok (a.made n)
  | fails _ e, _ => .error e

def map (f : α → β) : Plan α → Plan β
  | makes a => makes (a.map f)
  | fails lost e => fails lost e

/-- Something that is there, or else is not available. -/
def ofOption : Option α → Plan α
  | some a => makes (.const a)
  | none => fails 0 .notAvailable

/-- Alternatives with variables of their own. Without any there is nothing to take variables for. -/
def disjunction (f : α → Allotment (Edge κ)) : List α → Plan (Edge κ)
  | [] => fails 0 .notAvailable
  | a :: as => makes ((Allotment.traverse f (a :: as)).map Edge.alternatives)

end Plan

namespace Making

/-- What a making returns, and the supply that it leaves. -/
def outcome (x : Making α) (s : Supply) : Except ProviderError α × Supply := x.run.run s

theorem outcome_bind (x : Making α) (f : α → Making β) (s : Supply) :
    outcome (x >>= f) s =
      match outcome x s with
      | (.ok a, s') => outcome (f a) s'
      | (.error e, s') => (.error e, s') := by
  change (match outcome x s with | (r, s') => ExceptT.bindCont f r s') = _
  obtain ⟨r, s'⟩ := outcome x s
  cases r <;> rfl

end Making

open Making

/-- Whatever the supply, the making does as planned. -/
def Follows (x : Making α) (plan : Plan α) : Prop :=
  ∀ s : Supply, outcome x s = (plan.result s.next, ⟨s.next + plan.count⟩)

namespace Follows

theorem pure (a : α) : Follows (Pure.pure a) (.makes (.const a)) := fun _ => rfl

theorem fail (e : ProviderError) : Follows (Making.fail e : Making α) (.fails 0 e) := fun _ => rfl

theorem fresh : Follows (Making.fresh : Making (Node κ)) (.makes .fresh) := fun _ => rfl

theorem available (a : Option α) : Follows (Making.available a) (.ofOption a) := by
  cases a with
  | none => exact fail .notAvailable
  | some a => exact pure a

variable {x : Making α} {f : α → Making β} {a : Allotment α}

/-- A making that fails is the end of it. -/
theorem stop {lost : Nat} {e : ProviderError} (first : Follows x (.fails lost e)) :
    Follows (x >>= f) (.fails lost e) := by
  intro s
  rw [outcome_bind, first]
  rfl

/-- What is made first gets the first variables. What is made later gets those after them, and
may depend on what was made first. -/
theorem bind (first : Follows x (.makes a)) (count : Nat) (made : Nat → Nat → β)
    (later : ∀ n, Follows (f (a.made n)) (.makes ⟨count, made n⟩)) :
    Follows (x >>= f) (.makes ⟨a.count + count, fun n => made n (n + a.count)⟩) := by
  intro s
  have rest := later s.next ⟨s.next + a.count⟩
  rw [outcome_bind, first]
  exact rest.trans (congrArg _ (congrArg Supply.mk (Nat.add_assoc s.next a.count count)))

/-- What fails later has already taken what was taken first. -/
theorem bind_fails {e : ProviderError} (first : Follows x (.makes a))
    (later : ∀ n, Follows (f (a.made n)) (.fails 0 e)) :
    Follows (x >>= f) (.fails a.count e) := by
  intro s
  rw [outcome_bind, first]
  exact later s.next ⟨s.next + a.count⟩

/-- What takes no variable and does not fail might as well be known. -/
theorem bind_const {a : α} {plan : Plan β} (first : Follows x (.makes (.const a)))
    (later : Follows (f a) plan) : Follows (x >>= f) plan := by
  intro s
  rw [outcome_bind, first]
  exact later s

theorem map {plan : Plan α} (f : α → β) (first : Follows x plan) :
    Follows (x >>= fun a => Pure.pure (f a)) (plan.map f) := by
  intro s
  rw [outcome_bind, first]
  cases plan <;> rfl

theorem map₂ {y : Making β} {b : Allotment β} (f : α → β → γ) (first : Follows x (.makes a))
    (second : Follows y (.makes b)) :
    Follows (x >>= fun u => y >>= fun v => Pure.pure (f u v)) (.makes (a.map₂ f b)) :=
  first.bind b.count (fun n m => f (a.made n) (b.made m)) fun n => second.map (f (a.made n))

theorem mapM {plan : α → Allotment β} {as : List α}
    (each : ∀ a ∈ as, Follows (f a) (.makes (plan a))) :
    Follows (as.mapM f) (.makes (.traverse plan as)) := by
  induction as with
  | nil => exact pure []
  | cons a as ih =>
    obtain ⟨first, later⟩ := List.forall_mem_cons.mp each
    rw [List.mapM_cons]
    exact first.map₂ List.cons (ih later)

theorem compared (node : Node κ) (comparison : Option Comparison) :
    Follows (Making.compared node comparison) (.makes (.compared node comparison)) := by
  cases comparison with
  | none => exact pure node
  | some comparison => exact fresh.map fun v => v.filtered comparison node

/-- Alternatives that are not disjunctions themselves. -/
theorem disjunction {edge : α → Making (Edge κ)} {plan : α → Allotment (Edge κ)} {as : List α}
    (each : ∀ a ∈ as, Follows (edge a) (.makes (plan a)))
    (simple : ∀ a ∈ as, ∀ n, ((plan a).made n).disjuncts = [(plan a).made n]) :
    Follows (as.mapM edge >>= Making.disjunction) (.disjunction plan as) := by
  have edges := mapM each
  have alone := Allotment.forall_mem_traverse (p := fun e : Edge κ => e.disjuncts = [e]) simple
  cases as with
  | nil => exact edges.bind_const (available none)
  | cons a as =>
    let made (n : Nat) : List (Edge κ) := (Allotment.traverse plan (a :: as)).made n
    refine edges.bind 0 (fun n _ => Edge.alternatives (made n)) fun n => ?_
    have some_alternative : Edge.anyOf (made n) = some (Edge.alternatives (made n)) :=
      Edge.anyOf_eq_alternatives (List.cons_ne_nil _ _) (alone n)
    change Follows (Making.available (Edge.anyOf (made n))) _
    rw [some_alternative]
    exact available (some _)

end Follows

end PhraseGraph
