import Mathlib.Data.Nat.Find
import PhraseGraph.Proofs.FirstOccurrences
import PhraseGraph.Proofs.Ontology.Catalog
import PhraseGraph.Ontology.Ancestry

/-!
# PhraseGraph.Proofs.Ontology.Ancestry

The ancestors that a class has, met breadth first.

`Ontology.generation` lists the classes a number of steps above a class, without a memory of what
has been met. The breadth-first walk goes through the same generations and leaves out what it has
met, which is never the first of its kind.

## Main statements

`Ontology.Level` is what one generation of the walk keeps, `Ontology.Level.next` its step.
`Ontology.Inherits` says what the relations of a class are, and in which order.
`Ontology.relations_closure`: the relations of a class are those declared on its ancestors, in the
order of generations, and what is reported otherwise is the first superclass that is no class.
-/

namespace PhraseGraph

variable {κ : KnowledgeBase}

namespace Ontology

variable (o : Ontology κ) (c : Class κ)

/-- The classes so many steps above a class, one for each way up. -/
def generation : Nat → List (Class κ)
  | 0 => [c]
  | n + 1 => ((generation n).flatMap Class.superclasses).filterMap o.class?

def isUndefined (id : String) : Bool := (o.class? id).isNone

variable {o c}

theorem isUndefined_eq_false {id : String} :
    o.isUndefined id = false ↔ ∃ d, o.class? id = some d := by
  rw [isUndefined, ← Option.isSome_iff_exists]
  cases o.class? id <;> simp

theorem mem_generation_succ {n : Nat} {d : Class κ} :
    d ∈ o.generation c (n + 1) ↔
      ∃ e ∈ o.generation c n, ∃ id ∈ e.superclasses, o.class? id = some d := by
  simp only [generation, List.mem_filterMap, List.mem_flatMap]
  constructor
  · rintro ⟨id, ⟨e, member, declared⟩, found⟩
    exact ⟨e, member, id, declared, found⟩
  · rintro ⟨e, member, id, declared, found⟩
    exact ⟨id, ⟨e, member, declared⟩, found⟩

/-! ### Meeting superclasses -/

section Meet

variable {ids met met' : List String} {next : List (Class κ)}

/-- What is newly met has been asked for, and comes up wherever something not met before does. -/
theorem meet_ok (returned : o.meet ids met = .ok (next, met'))
    (known : ∀ id ∈ met, o.isUndefined id = false) :
    (∀ id ∈ ids, o.isUndefined id = false) ∧
      (∀ d ∈ next, ∃ id ∈ ids, o.class? id = some d) ∧
      (∀ id ∈ met', id ∈ met ∨ id ∈ ids) ∧
      ∀ f : Class κ → Option String, (∀ id ∈ met, (o.class? id).bind f = none) →
        ids.findSome? (fun id => (o.class? id).bind f) = next.findSome? f := by
  induction ids generalizing met next with
  | nil =>
    simp only [meet, Except.ok.injEq, Prod.mk.injEq] at returned
    obtain ⟨rfl, rfl⟩ := returned
    exact ⟨by simp, by simp, fun id old => Or.inl old, fun f _ => rfl⟩
  | cons id ids ih =>
    unfold meet at returned
    split at returned
    · next old =>
      -- a superclass that has been met is passed over
      obtain ⟨defined, asked, grown, first⟩ := ih returned known
      refine ⟨List.forall_mem_cons.mpr ⟨known id old, defined⟩, fun d member => ?_,
        fun other member => ?_, fun f fails => ?_⟩
      · obtain ⟨other, inside, found⟩ := asked d member
        exact ⟨other, List.mem_cons_of_mem id inside, found⟩
      · exact (grown other member).imp_right (List.mem_cons_of_mem id)
      · rw [List.findSome?_cons, fails id old]
        exact first f fails
    · next fresh =>
      split at returned
      · cases returned
      · next d found =>
        split at returned
        · cases returned
        · next more met'' inner =>
          simp only [Except.ok.injEq, Prod.mk.injEq] at returned
          obtain ⟨rfl, rfl⟩ := returned
          -- a superclass that is new comes before all that are met after it
          have here : o.isUndefined id = false := isUndefined_eq_false.mpr ⟨d, found⟩
          have knownThen : ∀ other ∈ id :: met, o.isUndefined other = false :=
            List.forall_mem_cons.mpr ⟨here, known⟩
          obtain ⟨defined, asked, grown, first⟩ := ih inner knownThen
          refine ⟨List.forall_mem_cons.mpr ⟨here, defined⟩, ?_, fun other member => ?_,
            fun f fails => ?_⟩
          · refine List.forall_mem_cons.mpr ⟨⟨id, List.mem_cons_self, found⟩, fun e member => ?_⟩
            obtain ⟨other, inside, found⟩ := asked e member
            exact ⟨other, List.mem_cons_of_mem id inside, found⟩
          · rcases grown other member with old | later
            · rcases List.mem_cons.mp old with rfl | old
              · exact Or.inr List.mem_cons_self
              · exact Or.inl old
            · exact Or.inr (List.mem_cons_of_mem id later)
          · rw [List.findSome?_cons, List.findSome?_cons, found, Option.bind_some]
            cases success : f d with
            | some _ => rfl
            | none =>
              refine first f (List.forall_mem_cons.mpr ⟨?_, fails⟩)
              rw [found, Option.bind_some, success]

/-- What is reported is the first superclass that is no class. -/
theorem meet_error {e : UndefinedClass} (failed : o.meet ids met = .error e)
    (known : ∀ id ∈ met, o.isUndefined id = false) : ids.find? o.isUndefined = some e.id := by
  induction ids generalizing met with
  | nil => simp [meet] at failed
  | cons id ids ih =>
    unfold meet at failed
    split at failed
    · next old =>
      rw [List.find?_cons, known id old]
      exact ih failed known
    · split at failed
      · next missing =>
        -- everything before has been found
        cases failed
        rw [List.find?_cons_of_pos]
        rw [isUndefined, missing]
        rfl
      · next d found =>
        have here : o.isUndefined id = false := isUndefined_eq_false.mpr ⟨d, found⟩
        split at failed
        · next inner =>
          cases failed
          rw [List.find?_cons, here]
          exact ih inner (List.forall_mem_cons.mpr ⟨here, known⟩)
        · cases failed

theorem meet_append (ids more met : List String) :
    o.meet (ids ++ more) met = (o.meet ids met).bind fun first =>
      (o.meet more first.2).map fun second => (first.1 ++ second.1, second.2) := by
  induction ids generalizing met with
  | nil =>
    rw [List.nil_append, meet, Except.bind]
    cases o.meet more met <;> rfl
  | cons id ids ih =>
    rw [List.cons_append, meet, meet]
    split
    · exact ih met
    · split
      · rfl
      · rw [ih]
        cases o.meet ids (id :: met) with
        | error e => rfl
        | ok first =>
          simp only [Except.bind]
          cases o.meet more first.2 <;> rfl

end Meet

/-! ### Generations of the walk -/

theorem ancestryFrom_cons (c : Class κ) (waiting : List (Class κ)) (met : List String) :
    o.ancestryFrom (c :: waiting) met = (o.meet c.superclasses met).bind fun next =>
      (o.ancestryFrom (waiting ++ next.1) next.2).map (c :: ·) := by
  rw [ancestryFrom]
  split
  · next failed => simp only [failed, Except.bind]
  · next more met' returned =>
    simp only [returned, Except.bind]
    cases o.ancestryFrom (waiting ++ more) met' <;> rfl

/-- The classes that wait are passed before the superclasses of any of them. -/
theorem ancestryFrom_append (ws vs : List (Class κ)) (met : List String) :
    o.ancestryFrom (ws ++ vs) met =
      (o.meet (ws.flatMap Class.superclasses) met).bind fun next =>
        (o.ancestryFrom (vs ++ next.1) next.2).map (ws ++ ·) := by
  induction ws generalizing vs met with
  | nil =>
    simp only [List.flatMap_nil, meet, Except.bind, List.append_nil, List.nil_append]
    cases o.ancestryFrom vs met <;> rfl
  | cons c ws ih =>
    rw [List.cons_append, ancestryFrom_cons, List.flatMap_cons, meet_append]
    cases o.meet c.superclasses met with
    | error e => rfl
    | ok next =>
      -- the superclasses of the first class wait behind all others
      simp only [Except.bind, List.append_assoc, ih]
      cases o.meet (ws.flatMap Class.superclasses) next.2 with
      | error e => rfl
      | ok more =>
        simp only [Except.map]
        cases o.ancestryFrom (vs ++ (next.1 ++ more.1)) more.2 <;> rfl

variable (o c) in
/-- What the walk keeps from generation to generation: all superclasses so far are defined, the
classes that wait come from the generation, and whatever comes up for the first time in the
generation comes up first among those that wait. -/
structure Level (n : Nat) (ws : List (Class κ)) (met : List String) : Prop where
  defined : ∀ k < n, ∀ d ∈ o.generation c k, ∀ id ∈ d.superclasses, o.isUndefined id = false
  waiting : ∀ d ∈ ws, d ∈ o.generation c n
  met : ∀ id ∈ met, ∃ k ≤ n, ∃ d ∈ o.generation c k, o.class? id = some d
  first : ∀ f : Class κ → Option String, (∀ k < n, ∀ d ∈ o.generation c k, f d = none) →
    (o.generation c n).findSome? f = ws.findSome? f

variable {n : Nat} {ws more : List (Class κ)} {met met' : List String}

theorem level_zero (declared : o.class? c.id = some c) : o.Level c 0 [c] [c.id] where
  defined := fun k less => absurd less (Nat.not_lt_zero k)
  waiting := fun d member => member
  met := fun id member => by
    rw [List.mem_singleton] at member
    exact ⟨0, Nat.le_refl 0, c, List.mem_singleton_self c, member ▸ declared⟩
  first := fun f _ => rfl

namespace Level

theorem known (level : o.Level c n ws met) : ∀ id ∈ met, o.isUndefined id = false := by
  intro id member
  obtain ⟨k, -, d, -, found⟩ := level.met id member
  exact isUndefined_eq_false.mpr ⟨d, found⟩

/-- The first superclass of a generation that is no class waits to be looked up. -/
theorem find?_undefined (level : o.Level c n ws met) :
    ((o.generation c n).flatMap Class.superclasses).find? o.isUndefined =
      (ws.flatMap Class.superclasses).find? o.isUndefined := by
  rw [List.find?_flatMap, List.find?_flatMap]
  apply level.first
  intro k less d member
  rw [List.find?_eq_none]
  intro id declared
  simp [level.defined k less d member id declared]

theorem next (level : o.Level c n ws met)
    (returned : o.meet (ws.flatMap Class.superclasses) met = .ok (more, met')) :
    o.Level c (n + 1) more met' := by
  obtain ⟨defined, asked, grown, first⟩ := meet_ok returned level.known
  refine ⟨?_, ?_, ?_, ?_⟩
  · intro k less d member id declared
    rcases Nat.lt_succ_iff_lt_or_eq.mp less with earlier | rfl
    · exact level.defined k earlier d member id declared
    · have none_undefined : (ws.flatMap Class.superclasses).find? o.isUndefined = none :=
        List.find?_eq_none.mpr fun id inside => by simp [defined id inside]
      rw [← level.find?_undefined, List.find?_eq_none] at none_undefined
      simpa using none_undefined id (List.mem_flatMap.mpr ⟨d, member, declared⟩)
  · intro d member
    obtain ⟨id, inside, found⟩ := asked d member
    obtain ⟨e, waits, declared⟩ := List.mem_flatMap.mp inside
    exact mem_generation_succ.mpr ⟨e, level.waiting e waits, id, declared, found⟩
  · intro id member
    rcases grown id member with old | new
    · obtain ⟨k, bound, d, inside, found⟩ := level.met id old
      exact ⟨k, Nat.le_succ_of_le bound, d, inside, found⟩
    · obtain ⟨e, waits, declared⟩ := List.mem_flatMap.mp new
      obtain ⟨d, found⟩ := isUndefined_eq_false.mp (defined id new)
      exact ⟨n + 1, Nat.le_refl _, d,
        mem_generation_succ.mpr ⟨e, level.waiting e waits, id, declared, found⟩, found⟩
  · intro f fails
    -- looking for `f` one generation up is looking for it among the superclasses
    have above (k : Nat) (less : k < n + 1) (id : String) (d : Class κ)
        (inside : d ∈ o.generation c k) (found : o.class? id = some d) :
        (o.class? id).bind f = none := by
      rw [found, Option.bind_some]
      exact fails k less d inside
    have passed : ∀ id ∈ met, (o.class? id).bind f = none := by
      intro id member
      obtain ⟨k, bound, d, inside, found⟩ := level.met id member
      exact above k (Nat.lt_succ_of_le bound) id d inside found
    rw [← first f passed, generation, findSome?_filterMap, findSome?_flatMap,
      findSome?_flatMap]
    apply level.first
    intro k less d member
    rw [List.findSome?_eq_none_iff]
    intro id declared
    cases found : o.class? id with
    | none => rfl
    | some e =>
      have inside : e ∈ o.generation c (k + 1) :=
        mem_generation_succ.mpr ⟨d, member, id, declared, found⟩
      exact fails (k + 1) (Nat.succ_lt_succ less) e inside

/-- A class that has not come up in an earlier generation waits. -/
theorem mem_waiting (level : o.Level c n ws met) {d : Class κ} (member : d ∈ o.generation c n)
    (new : ∀ k < n, d ∉ o.generation c k) : d ∈ ws := by
  classical
  -- a search for the class succeeds in the generation, hence among those that wait
  let isIt (e : Class κ) : Option String := if e = d then some "" else none
  have found : (o.generation c n).findSome? isIt = ws.findSome? isIt := by
    apply level.first
    intro k less e earlier
    have different : e ≠ d := fun same => new k less (same ▸ earlier)
    exact if_neg different
  by_contra absent
  have missed : ws.findSome? isIt = none := by
    rw [List.findSome?_eq_none_iff]
    intro e waits
    have different : e ≠ d := fun same => absent (same ▸ waits)
    exact if_neg different
  rw [missed, List.findSome?_eq_none_iff] at found
  simpa [isIt] using found d member

/-- If no class waits, then there is nothing but earlier generations. -/
theorem exhausted (level : o.Level c n [] met) (k : Nat) :
    ∀ d ∈ o.generation c k, ∃ j < n, d ∈ o.generation c j := by
  have last : ∀ d ∈ o.generation c n, ∃ j < n, d ∈ o.generation c j := by
    intro d member
    by_contra new
    push Not at new
    exact List.not_mem_nil (level.mem_waiting member new)
  -- the superclasses of an earlier generation are in the next one, which is the last at most
  induction k with
  | zero =>
    intro d member
    cases n with
    | zero => exact last d member
    | succ n => exact ⟨0, Nat.succ_pos n, member⟩
  | succ k ih =>
    intro d member
    obtain ⟨e, inside, id, declared, found⟩ := mem_generation_succ.mp member
    obtain ⟨j, less, earlier⟩ := ih e inside
    have above := mem_generation_succ.mpr ⟨e, earlier, id, declared, found⟩
    by_cases further : j + 1 < n
    · exact ⟨j + 1, further, above⟩
    · have same : j + 1 = n := by omega
      exact last d (same ▸ above)

end Level

variable (o c) in
/-- What a finished walk from a generation on has passed: classes that come from the generations, in
their order, and every class where it first comes up. -/
structure Walked (n : Nat) (cs : List (Class κ)) : Prop where
  defined : ∀ k, ∀ d ∈ o.generation c k, ∀ id ∈ d.superclasses, o.isUndefined id = false
  ancestors : ∀ d ∈ cs, ∃ k, d ∈ o.generation c k
  split : ∀ m, ∃ before after, cs = before ++ after ∧
    (∀ d ∈ before, ∃ k ≤ m, d ∈ o.generation c k) ∧
    ∀ k, n ≤ k → k ≤ m → ∀ d ∈ o.generation c k, (∀ j < k, d ∉ o.generation c j) → d ∈ before

theorem walked_nil (level : o.Level c n [] met) : o.Walked c n [] where
  defined := fun k d member => by
    obtain ⟨j, less, earlier⟩ := level.exhausted k d member
    exact level.defined j less d earlier
  ancestors := by simp
  split := fun m => by
    refine ⟨[], [], rfl, by simp, fun k later _ d member new => ?_⟩
    obtain ⟨j, less, earlier⟩ := level.exhausted k d member
    exact absurd earlier (new j (Nat.lt_of_lt_of_le less later))

theorem Walked.append {cs : List (Class κ)} (level : o.Level c n ws met)
    (walked : o.Walked c (n + 1) cs) : o.Walked c n (ws ++ cs) where
  defined := walked.defined
  ancestors := List.forall_mem_append.mpr
    ⟨fun d waits => ⟨n, level.waiting d waits⟩, walked.ancestors⟩
  split := fun m => by
    -- up to an earlier generation than this one nothing has been passed
    by_cases reached : n ≤ m
    · obtain ⟨before, after, rfl, inside, complete⟩ := walked.split m
      refine ⟨ws ++ before, after, (List.append_assoc ..).symm, ?_, ?_⟩
      · exact List.forall_mem_append.mpr
          ⟨fun d waits => ⟨n, reached, level.waiting d waits⟩, inside⟩
      · intro k later bound d member new
        rcases Nat.eq_or_lt_of_le later with rfl | later
        -- what first comes up in this generation waits, what comes up later is passed later
        · exact List.mem_append_left _ (level.mem_waiting member new)
        · exact List.mem_append_right _ (complete k later bound d member new)
    · exact ⟨[], ws ++ cs, rfl, by simp, fun k later bound => by omega⟩

/-- From every generation on the walk comes to an end, with a list of ancestors or with the first
superclass that is no class. -/
theorem Level.outcome (level : o.Level c n ws met) :
    (∃ cs, o.ancestryFrom ws met = .ok cs ∧ o.Walked c n cs) ∨
      ∃ e, o.ancestryFrom ws met = .error e ∧ ∃ m,
        (∀ k < m, ∀ d ∈ o.generation c k, ∀ id ∈ d.superclasses, o.isUndefined id = false) ∧
        ((o.generation c m).flatMap Class.superclasses).find? o.isUndefined = some e.id := by
  -- every generation that meets a class leaves less classes unmet
  induction size : o.unmet met using Nat.strongRecOn generalizing n ws met with
  | ind size ih =>
  subst size
  have walk := o.ancestryFrom_append ws [] met
  simp only [List.append_nil, List.nil_append] at walk
  rw [walk]
  cases returned : o.meet (ws.flatMap Class.superclasses) met with
  | error e =>
    refine Or.inr ⟨e, rfl, n, level.defined, ?_⟩
    rw [level.find?_undefined]
    exact meet_error returned level.known
  | ok next =>
    obtain ⟨more, met'⟩ := next
    have above := level.next returned
    have fewer := o.unmet_of_meet returned
    simp only [Except.bind]
    cases more with
    | nil =>
      -- nothing is met any more, so the walk ends with those that waited
      refine Or.inl ⟨ws, ?_, by simpa using Walked.append level (walked_nil above)⟩
      simp [ancestryFrom, Except.map]
    | cons d more =>
      rw [List.length_cons] at fewer
      rcases ih (o.unmet met') (by omega) above rfl with ⟨cs, ok, walked⟩ | ⟨e, failed, report⟩
      · exact Or.inl ⟨ws ++ cs, by rw [ok]; rfl, Walked.append level walked⟩
      · exact Or.inr ⟨e, by rw [failed]; rfl, report⟩

/-! ### Relations -/

theorem class?_of_mem (declared : c ∈ o.classes.toList) : o.class? c.id = some c :=
  Catalog.find?_of_mem declared

theorem exists_first_generation {d : Class κ} (member : d ∈ o.generation c n) :
    ∃ k ≤ n, d ∈ o.generation c k ∧ ∀ j < k, d ∉ o.generation c j := by
  classical
  have some : ∃ k, d ∈ o.generation c k := ⟨n, member⟩
  exact ⟨Nat.find some, Nat.find_min' some member, Nat.find_spec some, fun j => Nat.find_min some⟩

theorem relations_of_ancestry {rs : List Relation} (returned : o.relations c = .ok rs) :
    ∃ cs, o.ancestry c = .ok (c :: cs) ∧ rs = ((c :: cs).flatMap Class.relations).eraseDups := by
  rw [relations, ancestry, ancestryFrom_cons] at returned
  rw [ancestry, ancestryFrom_cons]
  cases met : o.meet c.superclasses [c.id] with
  | error e => rw [met] at returned; cases returned
  | ok next =>
    rw [met] at returned
    simp only [Except.bind] at returned ⊢
    cases walked : o.ancestryFrom ([] ++ next.1) next.2 with
    | error e => rw [walked] at returned; cases returned
    | ok cs =>
      rw [walked] at returned
      cases returned
      exact ⟨cs, rfl, rfl⟩

/-- The relations of an ancestor come before those that no ancestor up to its generation has. -/
theorem Walked.sublist {cs : List (Class κ)} (walked : o.Walked c 0 cs) {r s : Relation}
    {d : Class κ} (member : d ∈ o.generation c n) (own : r ∈ d.relations)
    (other : s ∈ cs.flatMap Class.relations)
    (further : ∀ k ≤ n, ∀ e ∈ o.generation c k, s ∉ e.relations) :
    [r, s].Sublist (cs.flatMap Class.relations).eraseDups := by
  -- the walk is cut behind generation `n`: in front of the cut there is `r`, and `s` is not
  obtain ⟨before, after, rfl, inside, complete⟩ := walked.split n
  obtain ⟨k, bound, first, new⟩ := exists_first_generation member
  rw [List.flatMap_append] at other ⊢
  have early : r ∈ before.flatMap Class.relations :=
    List.mem_flatMap.mpr ⟨d, complete k (Nat.zero_le k) bound d first new, own⟩
  have absent : s ∉ before.flatMap Class.relations := by
    intro present
    obtain ⟨e, passed, has⟩ := List.mem_flatMap.mp present
    obtain ⟨j, bound, generation⟩ := inside e passed
    exact further j bound e generation has
  exact sublist_eraseDups early ((List.mem_append.mp other).resolve_left absent) absent

theorem Walked.mem_relations {cs : List (Class κ)} (walked : o.Walked c 0 cs) {r : Relation} :
    r ∈ cs.flatMap Class.relations ↔ ∃ n, ∃ d ∈ o.generation c n, r ∈ d.relations := by
  rw [List.mem_flatMap]
  constructor
  · rintro ⟨d, passed, own⟩
    obtain ⟨n, generation⟩ := walked.ancestors d passed
    exact ⟨n, d, generation, own⟩
  · rintro ⟨n, d, generation, own⟩
    obtain ⟨before, after, rfl, -, complete⟩ := walked.split n
    obtain ⟨k, bound, first, new⟩ := exists_first_generation generation
    exact ⟨d, List.mem_append_left _ (complete k (Nat.zero_le k) bound d first new), own⟩

variable (o c) in
/-- The relations of all ancestors of a class: each once, its own ones in front, and those of nearer
ancestors before those of further ones. -/
structure Inherits (rs : List Relation) : Prop where
  mem_iff : ∀ r, r ∈ rs ↔ ∃ n, ∃ d ∈ o.generation c n, r ∈ d.relations
  nodup : rs.Nodup
  own : c.relations.eraseDups <+: rs
  nearest : ∀ r s n, (∃ d ∈ o.generation c n, r ∈ d.relations) → s ∈ rs →
    (∀ k ≤ n, ∀ d ∈ o.generation c k, s ∉ d.relations) → [r, s].Sublist rs

theorem relations_of_walk {cs : List (Class κ)} (walk : o.ancestryFrom [c] [c.id] = .ok cs) :
    o.relations c = .ok (cs.flatMap Class.relations).eraseDups := by
  rw [relations, ancestry, walk]
  rfl

theorem relations_of_failed_walk {e : UndefinedClass}
    (walk : o.ancestryFrom [c] [c.id] = .error e) : o.relations c = .error e := by
  rw [relations, ancestry, walk]
  rfl

theorem Walked.inherits {cs : List (Class κ)} (walked : o.Walked c 0 cs)
    (walk : o.ancestryFrom [c] [c.id] = .ok cs) :
    o.Inherits c (cs.flatMap Class.relations).eraseDups where
  mem_iff := fun r => by rw [List.mem_eraseDups, walked.mem_relations]
  nodup := nodup_eraseDups _
  own := by
    obtain ⟨others, -, same⟩ := relations_of_ancestry (relations_of_walk walk)
    rw [same, List.flatMap_cons, List.eraseDups_append]
    exact List.prefix_append _ _
  nearest := by
    rintro r s n ⟨d, generation, own⟩ member further
    exact walked.sublist generation own (List.mem_eraseDups.mp member) further

theorem inherits_of_relations (declared : c ∈ o.classes.toList) {rs : List Relation}
    (returned : o.relations c = .ok rs) : o.Inherits c rs := by
  rcases (level_zero (class?_of_mem declared)).outcome with ⟨cs, walk, walked⟩ | ⟨e, walk, -⟩
  · rw [relations_of_walk walk] at returned
    cases returned
    exact walked.inherits walk
  · rw [relations_of_failed_walk walk] at returned
    cases returned

/-- The relations of a class, or the first superclass in the order of generations that is no class
of the ontology. -/
theorem relations_closure (declared : c ∈ o.classes.toList) :
    ((∃ rs, o.relations c = .ok rs) ↔
      ∀ n, ∀ d ∈ o.generation c n, ∀ id ∈ d.superclasses, o.isUndefined id = false) ∧
    (∀ rs, o.relations c = .ok rs → o.Inherits c rs) ∧
    ∀ e, o.relations c = .error e → ∃ n,
      (∀ k < n, ∀ d ∈ o.generation c k, ∀ id ∈ d.superclasses, o.isUndefined id = false) ∧
      ((o.generation c n).flatMap Class.superclasses).find? o.isUndefined = some e.id := by
  refine ⟨?_, fun rs => inherits_of_relations declared, ?_⟩
  all_goals
    rcases (level_zero (class?_of_mem declared)).outcome with
      ⟨cs, walk, walked⟩ | ⟨e, walk, n, earlier, report⟩
  · exact ⟨fun _ => walked.defined, fun _ => ⟨_, relations_of_walk walk⟩⟩
  · -- the reported superclass is declared in one of the generations
    have missing := List.find?_some report
    obtain ⟨d, generation, named⟩ := List.mem_flatMap.mp (List.mem_of_find?_eq_some report)
    constructor
    · rintro ⟨rs, returned⟩
      rw [relations_of_failed_walk walk] at returned
      cases returned
    · intro defined
      rw [defined n d generation e.id named] at missing
      cases missing
  · intro e failed
    rw [relations_of_walk walk] at failed
    cases failed
  · intro e' failed
    rw [relations_of_failed_walk walk] at failed
    cases failed
    exact ⟨n, earlier, report⟩

def outgoing (property : String) : Relation := { property, direction := .outgoing }

def mule : Class .numbered :=
  { id := "Mule", relations := [outgoing "carries"], superclasses := ["Horse", "Donkey"] }

/-- Two superclasses that share one, with two cycles. -/
def stable : Ontology .numbered :=
  .ofDeclarations [.ofClass mule,
    .ofClass { id := "Horse", relations := [outgoing "pulls"], superclasses := ["Animal"] },
    .ofClass
      { id := "Donkey", relations := [outgoing "carries"], superclasses := ["Animal", "Mule"] },
    .ofClass { id := "Animal", relations := [outgoing "eats"], superclasses := ["Animal"] }]

theorem relations_closure_stable : mule ∈ stable.classes.toList ∧
    ∃ rs, stable.relations mule = .ok rs ∧ rs.Nodup ∧ outgoing "eats" ∈ rs ∧
      [outgoing "pulls", outgoing "eats"].Sublist rs := by
  have declared : mule ∈ stable.classes.toList := List.mem_cons_self
  have walk : stable.relations mule =
      .ok [outgoing "carries", outgoing "pulls", outgoing "eats"] := by cbv
  have inherits := (relations_closure declared).2.1 _ walk
  have root : outgoing "eats" ∈ [outgoing "carries", outgoing "pulls", outgoing "eats"] :=
    (inherits.mem_iff _).mpr ⟨2, _, List.mem_cons_self, List.mem_cons_self⟩
  refine ⟨declared, _, walk, inherits.nodup, root, inherits.nearest _ _ 1 ?_ root ?_⟩
  · exact ⟨_, List.mem_cons_self, List.mem_cons_self⟩
  · intro k few
    have cases_of_few : k = 0 ∨ k = 1 := by omega
    rcases cases_of_few with rfl | rfl
    · decide
    · decide

end Ontology

end PhraseGraph
