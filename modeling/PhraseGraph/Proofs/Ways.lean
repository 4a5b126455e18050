import PhraseGraph.Proofs.FirstOccurrences
import PhraseGraph.Proofs.Regex.Language

/-!
# PhraseGraph.Proofs.Ways

Ordered choice: the ways to match a leading part of a list, preferred ways first.

A way is the number of elements that it takes. The ways of a sequence go through all ways of what
comes last before they change what comes first, as backtracking does.

## Main statements

`Ways.Matches` relates ways to a language, and `Ways.matches_copies` and its like say that the
operations on ways are those on languages. `SameFirst` holds of lists of ways in which every search
meets the same first success, and `SameWays` of functions that give such lists.
-/

namespace PhraseGraph

open Computability

variable {α : Type}

/-- For every list the numbers of its elements that can be taken, preferred ones first. -/
abbrev Ways (α : Type) := List α → List Nat

namespace Ways

def fail : Ways α := fun _ => []

def stay : Ways α := fun _ => [0]

def one (accepts : α → Bool) : Ways α
  | [] => []
  | a :: _ => if accepts a then [1] else []

/-- One after the other. -/
def andThen (f g : Ways α) : Ways α := fun w => (f w).flatMap fun n => (g (w.drop n)).map (n + ·)

/-- One or the other, the first one preferred. -/
def orElse (f g : Ways α) : Ways α := fun w => f w ++ g w

def inOrder (fs : List (Ways α)) : Ways α := fs.foldr andThen stay

def oneOf (fs : List (Ways α)) : Ways α := fs.foldr orElse fail

def times (f : Ways α) : Nat → Ways α
  | 0 => stay
  | n + 1 => f.andThen (times f n)

/-- At most so many copies, rather more than less: each copy contains the next one. -/
def upTo (f : Ways α) : Nat → Ways α
  | 0 => stay
  | n + 1 => (f.andThen (upTo f n)).orElse stay

/-- Any number of copies, rather more than less. A copy takes at least one element. -/
def again (f : Ways α) (w : List α) : List Nat :=
  if more : w = [] then [0]
  else
    (f w).flatMap (fun n => if _ : n = 0 then [] else (again f (w.drop n)).map (n + ·)) ++ [0]
termination_by w.length
decreasing_by
  have := List.length_pos_iff.mpr more
  rw [List.length_drop]
  omega

/-- At least `least` copies and at most `most`, without end if that is absent. -/
def copies (f : Ways α) (least : Nat) (most : Option Nat) : Ways α :=
  (f.times least).andThen (match most with
    | some most => f.upTo (most - least)
    | none => f.again)

variable {f g h : Ways α} {fs gs : List (Ways α)}

/-! ### Equations -/

theorem andThen_assoc (f g h : Ways α) : (f.andThen g).andThen h = f.andThen (g.andThen h) := by
  funext w
  simp only [andThen, List.flatMap_assoc, List.flatMap_map, List.map_flatMap, List.map_map,
    List.drop_drop, Function.comp_def, Nat.add_assoc]

@[simp] theorem stay_andThen (f : Ways α) : stay.andThen f = f := by
  funext w
  simp [andThen, stay]

@[simp] theorem andThen_stay (f : Ways α) : f.andThen stay = f := by
  funext w
  simp [andThen, stay]

@[simp] theorem orElse_fail (f : Ways α) : f.orElse fail = f := by
  funext w
  simp [orElse, fail]

theorem orElse_assoc (f g h : Ways α) : (f.orElse g).orElse h = f.orElse (g.orElse h) := by
  funext w
  simp [orElse]

theorem orElse_andThen (f g h : Ways α) :
    (f.orElse g).andThen h = (f.andThen h).orElse (g.andThen h) := by
  funext w
  simp [orElse, andThen]

theorem times_comm (f : Ways α) (n : Nat) : f.andThen (f.times n) = (f.times n).andThen f := by
  induction n with
  | zero => rw [times, andThen_stay, stay_andThen]
  | succ n ih => rw [times, andThen_assoc, ← ih]

theorem inOrder_cons : inOrder (f :: fs) = f.andThen (inOrder fs) := rfl

theorem oneOf_cons : oneOf (f :: fs) = f.orElse (oneOf fs) := rfl

theorem inOrder_append (fs gs : List (Ways α)) :
    inOrder (fs ++ gs) = (inOrder fs).andThen (inOrder gs) := by
  induction fs with
  | nil => exact (stay_andThen _).symm
  | cons f fs ih => rw [List.cons_append, inOrder_cons, inOrder_cons, ih, andThen_assoc]

theorem oneOf_append (fs gs : List (Ways α)) :
    oneOf (fs ++ gs) = (oneOf fs).orElse (oneOf gs) := by
  induction fs with
  | nil => rfl
  | cons f fs ih => rw [List.cons_append, oneOf_cons, oneOf_cons, ih, orElse_assoc]

theorem oneOf_apply (fs : List (Ways α)) (w : List α) : oneOf fs w = fs.flatMap fun f => f w := by
  induction fs with
  | nil => rfl
  | cons f fs ih => rw [List.flatMap_cons, ← ih]; rfl

@[simp] theorem again_nil (f : Ways α) : f.again [] = [0] := by
  rw [again, dif_pos rfl]

theorem again_of_ne_nil {w : List α} (more : w ≠ []) :
    f.again w =
      (f w).flatMap (fun n => if n = 0 then [] else (f.again (w.drop n)).map (n + ·)) ++ [0] := by
  rw [again, dif_neg more]
  rfl

/-! ### Ways and languages -/

/-- The ways lead to the ends of the leading parts that belong to the language. -/
def Matches (f : Ways α) (l : Language α) : Prop :=
  ∀ (w : List α) (n : Nat), n ∈ f w ↔ n ≤ w.length ∧ w.take n ∈ l

variable {l m : Language α}

theorem matches_fail : Matches (fail : Ways α) 0 := by
  intro w n
  simp [fail]

theorem matches_stay : Matches (stay : Ways α) 1 := by
  intro w n
  rw [stay, List.mem_singleton, Language.mem_one, List.take_eq_nil_iff]
  constructor
  · rintro rfl
    exact ⟨Nat.zero_le _, Or.inl rfl⟩
  · rintro ⟨bound, none | rfl⟩
    · exact none
    · exact Nat.le_zero.mp bound

theorem matches_one (accepts : α → Bool) :
    Matches (one accepts) ({w | ∃ a, accepts a = true ∧ w = [a]} : Set (List α)) := by
  intro w n
  change n ∈ one accepts w ↔ n ≤ w.length ∧ ∃ a, accepts a = true ∧ w.take n = [a]
  cases w with
  | nil => simp [one]
  | cons a w =>
    rw [one]
    constructor
    · intro member
      split at member
      · next accepted =>
        obtain rfl := List.mem_singleton.mp member
        exact ⟨by simp, a, accepted, rfl⟩
      · simp at member
    · rintro ⟨bound, b, accepted, single⟩
      -- a leading part of one element takes just the head
      cases n with
      | zero => simp at single
      | succ n =>
        obtain ⟨rfl, rest⟩ := List.cons.inj single
        have none_left := congrArg List.length rest
        simp only [List.length_cons, List.length_take, List.length_nil] at bound none_left
        rw [if_pos accepted, List.mem_singleton]
        omega

theorem Matches.orElse (first : Matches f l) (second : Matches g m) :
    Matches (f.orElse g) (l + m) := by
  intro w n
  rw [Ways.orElse, List.mem_append, first w n, second w n, Language.mem_add, ← and_or_left]

/-- A leading part that is cut in two. -/
theorem take_eq_append {w u v : List α} {n : Nat} (bound : n ≤ w.length) (cut : w.take n = u ++ v) :
    u.length + v.length = n ∧ w.take u.length = u ∧ (w.drop u.length).take v.length = v := by
  have lengths : u.length + v.length = n := by
    rw [← List.length_append, ← cut, List.length_take, Nat.min_eq_left bound]
  refine ⟨lengths, ?_, ?_⟩
  · have taken := congrArg (List.take u.length) cut
    rwa [List.take_left, List.take_take, Nat.min_eq_left (by omega)] at taken
  · have dropped := congrArg (List.drop u.length) cut
    rwa [List.drop_left, List.drop_take, ← lengths, Nat.add_sub_cancel_left] at dropped

theorem Matches.andThen (first : Matches f l) (second : Matches g m) :
    Matches (f.andThen g) (l * m) := by
  intro w n
  rw [Ways.andThen, List.mem_flatMap, Language.mem_mul]
  constructor
  · rintro ⟨i, start, member⟩
    -- the first way ends at `i`, the second one `j` elements later
    obtain ⟨j, rest, rfl⟩ := List.mem_map.mp member
    obtain ⟨startBound, start⟩ := (first w i).mp start
    obtain ⟨restBound, rest⟩ := (second _ j).mp rest
    rw [List.length_drop] at restBound
    exact ⟨by omega, _, start, _, rest, List.take_add.symm⟩
  · rintro ⟨bound, u, hu, v, hv, cut⟩
    obtain ⟨rfl, start, rest⟩ := take_eq_append bound cut.symm
    refine ⟨u.length, (first w _).mpr ⟨by omega, start.symm ▸ hu⟩, ?_⟩
    refine List.mem_map.mpr ⟨v.length, (second _ _).mpr ⟨?_, rest.symm ▸ hv⟩, rfl⟩
    rw [List.length_drop]
    omega

theorem Matches.times (inner : Matches f l) (n : Nat) : Matches (f.times n) (l ^ n) := by
  induction n with
  | zero => exact matches_stay
  | succ n ih => rw [pow_succ']; exact inner.andThen ih

theorem Matches.upTo (inner : Matches f l) (n : Nat) : Matches (f.upTo n) (atMost l n) := by
  induction n with
  | zero => exact matches_stay
  | succ n ih => exact (inner.andThen ih).orElse matches_stay

/-- Copies that take something are enough for all copies. -/
theorem Matches.again (inner : Matches f l) : Matches f.again l∗ := by
  intro w
  -- the induction is on what is left: every copy that counts takes something
  induction size : w.length using Nat.strongRecOn generalizing w with
  | ind size ih =>
  intro n
  subst size
  by_cases more : w = []
  · subst more
    have empty := Language.nil_mem_kstar l
    simp [empty]
  have step (i : Nat) (taken : i ≠ 0) (bound : i ≤ w.length) :=
    ih (w.drop i).length (by rw [List.length_drop]; omega) (w.drop i) rfl
  rw [again_of_ne_nil more, List.mem_append, List.mem_flatMap, List.mem_singleton]
  constructor
  · rintro (⟨i, start, member⟩ | rfl)
    · by_cases taken : i = 0
      · simp [taken] at member
      rw [if_neg taken] at member
      obtain ⟨j, rest, rfl⟩ := List.mem_map.mp member
      obtain ⟨startBound, start⟩ := (inner w i).mp start
      obtain ⟨restBound, rest⟩ := (step i taken startBound j).mp rest
      rw [List.length_drop] at restBound
      refine ⟨by omega, ?_⟩
      rw [List.take_add]
      exact (mul_kstar_le_kstar : l * l∗ ≤ l∗) (Language.append_mem_mul start rest)
    · exact ⟨Nat.zero_le _, Language.nil_mem_kstar l⟩
  · rintro ⟨bound, member⟩
    by_cases taken : n = 0
    · exact Or.inr taken
    -- a word of the star is made of copies that are not empty; the first one is the first round
    obtain ⟨rounds, cut, each⟩ := Language.mem_kstar_iff_exists_nonempty.mp member
    cases rounds with
    | nil =>
      have none_or := List.take_eq_nil_iff.mp cut
      exact absurd none_or (by simp [taken, more])
    | cons u rounds =>
      obtain ⟨matched, nonempty⟩ := each u List.mem_cons_self
      have others : rounds.flatten ∈ l∗ :=
        Language.join_mem_kstar fun v later => (each v (List.mem_cons_of_mem u later)).1
      obtain ⟨rfl, start, rest⟩ := take_eq_append bound cut
      have some : u.length ≠ 0 := mt List.length_eq_zero_iff.mp nonempty
      refine Or.inl ⟨u.length, (inner w _).mpr ⟨by omega, start.symm ▸ matched⟩, ?_⟩
      rw [if_neg some]
      refine List.mem_map.mpr ⟨_, (step _ some (by omega) _).mpr ⟨?_, rest.symm ▸ others⟩, rfl⟩
      rw [List.length_drop]
      omega

theorem Matches.copies (inner : Matches f l) (least : Nat) (most : Option Nat) :
    Matches (f.copies least most) (PhraseGraph.copies l least most) := by
  cases most with
  | none => exact (inner.times least).andThen inner.again
  | some most => exact (inner.times least).andThen (inner.upTo (most - least))

/-- Copies of what always takes something: another copy first, or none. -/
theorem again_eq (inner : Matches f l) (takes : [] ∉ l) :
    f.again = (f.andThen f.again).orElse stay := by
  have positive (w : List α) : ∀ n ∈ f w, n ≠ 0 := by
    rintro n member rfl
    exact takes ((inner w 0).mp member).2
  funext w
  by_cases more : w = []
  · subst more
    -- nothing is left for a copy to take
    have none : f [] = [] := by
      rw [List.eq_nil_iff_forall_not_mem]
      intro n member
      exact positive [] n member (Nat.le_zero.mp ((inner [] n).mp member).1)
    simp [orElse, andThen, none, stay]
  · -- no round is left out for taking nothing
    rw [again_of_ne_nil more, orElse, andThen]
    congr 1
    apply List.flatMap_congr
    intro n member
    rw [if_neg (positive w n member)]

theorem again_andThen (inner : Matches f l) (takes : [] ∉ l) (g : Ways α) :
    andThen f.again g = (f.andThen (andThen f.again g)).orElse g := by
  rw [← andThen_assoc]
  nth_rewrite 1 [again_eq inner takes]
  rw [orElse_andThen, stay_andThen]

end Ways

/-! ### First successes -/

/-- Every search meets the same first success in both lists. -/
def SameFirst (ns ms : List Nat) : Prop :=
  ∀ succeeds : Nat → Option Nat, ns.findSome? succeeds = ms.findSome? succeeds

namespace SameFirst

variable {ns ms ns' ms' : List Nat}

theorem refl (ns : List Nat) : SameFirst ns ns := fun _ => rfl

theorem of_eq (equal : ns = ms) : SameFirst ns ms := equal ▸ refl ns

theorem symm (same : SameFirst ns ms) : SameFirst ms ns := fun succeeds => (same succeeds).symm

theorem trans (first : SameFirst ns ms) (second : SameFirst ms ms') : SameFirst ns ms' :=
  fun succeeds => (first succeeds).trans (second succeeds)

theorem head? (same : SameFirst ns ms) : ns.head? = ms.head? := by
  have first (ns : List Nat) : ns.findSome? some = ns.head? := by cases ns <;> rfl
  rw [← first, ← first, same some]

theorem append (first : SameFirst ns ms) (second : SameFirst ns' ms') :
    SameFirst (ns ++ ns') (ms ++ ms') := by
  intro succeeds
  rw [List.findSome?_append, List.findSome?_append, first succeeds, second succeeds]

theorem flatMap (same : SameFirst ns ms) {f g : Nat → List Nat}
    (inner : ∀ n, SameFirst (f n) (g n)) : SameFirst (ns.flatMap f) (ms.flatMap g) := by
  intro succeeds
  simp only [findSome?_flatMap, inner _ succeeds]
  exact same _

theorem map (same : SameFirst ns ms) (f : Nat → Nat) : SameFirst (ns.map f) (ms.map f) := by
  intro succeeds
  rw [List.findSome?_map, List.findSome?_map]
  exact same _

theorem flatMap_congr {ι : Type} {as : List ι} {f g : ι → List Nat}
    (inner : ∀ a ∈ as, SameFirst (f a) (g a)) : SameFirst (as.flatMap f) (as.flatMap g) := by
  induction as with
  | nil => exact refl []
  | cons a as ih =>
    have inner := List.forall_mem_cons.mp inner
    exact inner.1.append (ih inner.2)

/-- If all of a list leads to nothing but one element, then the others may be left out. -/
theorem flatMap_of_unique {n : Nat} {f : Nat → List Nat} (member : n ∈ ns)
    (others : ∀ m ∈ ns, m ≠ n → f m = []) : SameFirst (ns.flatMap f) (f n) := by
  intro succeeds
  rw [findSome?_flatMap]
  induction ns with
  | nil => simp at member
  | cons m ns ih =>
    obtain ⟨here, later⟩ := List.forall_mem_cons.mp others
    rw [List.findSome?_cons]
    by_cases same : m = n
    · subst same
      cases found : (f m).findSome? succeeds with
      | some k => rfl
      | none =>
        -- what comes later is empty or fails just like this
        rw [List.findSome?_eq_none_iff]
        intro k inside
        by_cases same : k = m
        · rwa [same]
        · rw [later k inside same]
          rfl
    · have inside : n ∈ ns := (List.mem_cons.mp member).resolve_left (Ne.symm same)
      rw [here same]
      exact ih inside later

/-- Lists of one and the same way agree if they are both empty or neither is. -/
theorem of_unique {n : Nat} (only : ∀ m ∈ ns, m = n) (only' : ∀ m ∈ ms, m = n)
    (both : ns = [] ↔ ms = []) : SameFirst ns ms := by
  -- repetitions of the only way meet no success that the way itself does not meet
  have single (ks : List Nat) (only : ∀ m ∈ ks, m = n) (some : ks ≠ []) : SameFirst ks [n] := by
    obtain ⟨m, inside⟩ := List.exists_mem_of_ne_nil ks some
    have first := flatMap_of_unique (f := fun m => [m]) (only m inside ▸ inside)
      fun k other different => absurd (only k other) different
    rwa [List.flatMap_singleton'] at first
  by_cases none : ns = []
  · rw [none, both.mp none]
    exact refl []
  · exact (single ns only none).trans (single ms only' (mt both.mpr none)).symm

end SameFirst

/-! ### Ways with the same first successes -/

/-- For every list the ways meet the same first success in every search. -/
def SameWays (f g : Ways α) : Prop := ∀ w, SameFirst (f w) (g w)

namespace SameWays

variable {f f' g g' : Ways α}

theorem refl (f : Ways α) : SameWays f f := fun w => SameFirst.refl (f w)

theorem of_eq (equal : f = g) : SameWays f g := equal ▸ refl f

theorem symm (same : SameWays f g) : SameWays g f := fun w => (same w).symm

theorem trans {h : Ways α} (first : SameWays f g) (second : SameWays g h) : SameWays f h :=
  fun w => (first w).trans (second w)

theorem orElse (first : SameWays f g) (second : SameWays f' g') :
    SameWays (f.orElse f') (g.orElse g') :=
  fun w => (first w).append (second w)

theorem andThen (first : SameWays f g) (second : SameWays f' g') :
    SameWays (f.andThen f') (g.andThen g') :=
  fun w => (first w).flatMap fun n => (second (w.drop n)).map (n + ·)

theorem times (inner : SameWays f g) (n : Nat) : SameWays (f.times n) (g.times n) := by
  induction n with
  | zero => exact refl _
  | succ n ih => exact inner.andThen ih

theorem upTo (inner : SameWays f g) (n : Nat) : SameWays (f.upTo n) (g.upTo n) := by
  induction n with
  | zero => exact refl _
  | succ n ih => exact (inner.andThen ih).orElse (refl _)

theorem again (inner : SameWays f g) : SameWays f.again g.again := by
  intro w
  -- the induction is on what is left, since every round that counts takes something
  induction size : w.length using Nat.strongRecOn generalizing w with
  | ind size ih =>
  subst size
  by_cases more : w = []
  · rw [more, Ways.again_nil, Ways.again_nil]
    exact SameFirst.refl [0]
  rw [Ways.again_of_ne_nil more, Ways.again_of_ne_nil more]
  refine SameFirst.append ((inner w).flatMap fun n => ?_) (SameFirst.refl [0])
  by_cases none : n = 0
  · rw [if_pos none, if_pos none]
    exact SameFirst.refl []
  · rw [if_neg none, if_neg none]
    have shorter : (w.drop n).length < w.length := by
      have some := List.length_pos_iff.mpr more
      rw [List.length_drop]
      omega
    exact (ih _ shorter (w.drop n) rfl).map (n + ·)

theorem copies (inner : SameWays f g) (least : Nat) (most : Option Nat) :
    SameWays (f.copies least most) (g.copies least most) := by
  cases most with
  | none => exact (inner.times least).andThen inner.again
  | some most => exact (inner.times least).andThen (inner.upTo (most - least))

variable {fs gs : List (Ways α)}

theorem inOrder (inner : SameWays f g) :
    SameWays (.inOrder (fs ++ f :: gs)) (.inOrder (fs ++ g :: gs)) := by
  rw [Ways.inOrder_append, Ways.inOrder_append, Ways.inOrder_cons, Ways.inOrder_cons]
  exact (refl _).andThen (inner.andThen (refl _))

theorem oneOf (inner : SameWays f g) :
    SameWays (.oneOf (fs ++ f :: gs)) (.oneOf (fs ++ g :: gs)) := by
  rw [Ways.oneOf_append, Ways.oneOf_append, Ways.oneOf_cons, Ways.oneOf_cons]
  exact (refl _).orElse (inner.orElse (refl _))

end SameWays

end PhraseGraph
