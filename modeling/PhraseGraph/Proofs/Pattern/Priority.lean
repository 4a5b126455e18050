import PhraseGraph.Proofs.Pattern.Language
import PhraseGraph.Proofs.Regex.Sharing

/-!
# PhraseGraph.Proofs.Pattern.Priority

The order in which a pattern tries the leading parts of a list of tokens, and that its expression
tries their texts in the same order.

## Main statements

`Pattern.ways` says in which order leading parts are tried. `Pattern.renders_ways`: as far as first
successes go, the expression of the pattern tries their texts in this order, if what alternatives
share settles where they go on.
-/

namespace PhraseGraph

namespace Pattern

mutual

/-- The numbers of leading tokens that a pattern matches, in the order of backtracking. -/
def ways : Pattern → Ways Token
  | .token p => .one p.accepts
  | .sequence ps => .inOrder (waysOfEach ps)
  | .anyOf ps => .oneOf (waysOfEach ps)
  | .optional p => (ways p).orElse .stay
  | .repeated p least most => (ways p).copies least most

def waysOfEach : List Pattern → List (Ways Token)
  | [] => []
  | p :: ps => ways p :: waysOfEach ps

end

theorem waysOfEach_eq_map (ps : List Pattern) : waysOfEach ps = ps.map ways := by
  induction ps with
  | nil => rfl
  | cons p ps ih => simp [waysOfEach, ih]

mutual

theorem matches_ways : ∀ p : Pattern, p.isBounded = true → Ways.Matches p.ways p.language
  | .token p, _ => by
    rw [ways, language]
    exact Ways.matches_one p.accepts
  | .sequence ps, bounded => by
    rw [ways, language, waysOfEach_eq_map, languages_eq_map]
    exact (matches_each ps (by simpa only [isBounded] using bounded)).1
  | .anyOf ps, bounded => by
    rw [ways, language, waysOfEach_eq_map, languages_eq_map]
    exact (matches_each ps (by simpa only [isBounded] using bounded)).2
  | .optional p, bounded => by
    rw [ways, language]
    exact (matches_ways p (by simpa only [isBounded] using bounded)).orElse Ways.matches_stay
  | .repeated p least most, bounded => by
    obtain ⟨inOrder, inside⟩ := isBounded_repeated.mp bounded
    have counted : (repeated p least most).language = copies p.language least most := by
      ext ts
      rw [language, mem_copies inOrder]
      rfl
    rw [ways, counted]
    exact (matches_ways p inside).copies least most

theorem matches_each : ∀ ps : List Pattern, areBounded ps = true →
    Ways.Matches (.inOrder (ps.map ways)) (ps.map language).prod ∧
      Ways.Matches (.oneOf (ps.map ways)) (ps.map language).sum
  | [], _ => ⟨Ways.matches_stay, Ways.matches_fail⟩
  | p :: ps, bounded => by
    simp only [areBounded, Bool.and_eq_true] at bounded
    have first := matches_ways p bounded.1
    have rest := matches_each ps bounded.2
    exact ⟨first.andThen rest.1, first.orElse rest.2⟩

end

mutual

/-- The pattern and all patterns inside it. -/
def subpatterns : Pattern → List Pattern
  | .token t => [.token t]
  | .sequence ps => .sequence ps :: subpatternsOfEach ps
  | .anyOf ps => .anyOf ps :: subpatternsOfEach ps
  | .optional p => .optional p :: subpatterns p
  | .repeated p least most => .repeated p least most :: subpatterns p

def subpatternsOfEach : List Pattern → List Pattern
  | [] => []
  | p :: ps => subpatterns p ++ subpatternsOfEach ps

end

theorem subpatternsOfEach_eq_flatMap (ps : List Pattern) :
    subpatternsOfEach ps = ps.flatMap subpatterns := by
  induction ps with
  | nil => rfl
  | cons p ps ih => simp [subpatternsOfEach, ih]

/-- No body of an endless repetition matches the empty list. -/
def RoundsTake (p : Pattern) : Prop :=
  ∀ body least, .repeated body least none ∈ p.subpatterns → [] ∉ body.language

/-- Whatever the alternatives at some place share in their expressions settles where they go on. -/
def SharesSettled (p : Pattern) : Prop :=
  ∀ ps, .anyOf ps ∈ p.subpatterns → Regex.SharesSettled (regexes ps)

end Pattern

/-! ### Ways over tokens and over their text -/

/-- As far as first successes go, the ways over the text of tokens are those over the tokens. -/
def Renders (f : Ways Token) (g : Ways Char) : Prop :=
  ∀ ts, SameFirst (g (encode ts)) ((f ts).map (offset ts))

namespace Renders

variable {f f' : Ways Token} {g g' : Ways Char}

theorem stay : Renders .stay .stay := fun _ => SameFirst.refl [0]

theorem fail : Renders .fail .fail := fun _ => SameFirst.refl []

theorem orElse (first : Renders f g) (second : Renders f' g') :
    Renders (f.orElse f') (g.orElse g') := by
  intro ts
  rw [Ways.orElse, Ways.orElse, List.map_append]
  exact (first ts).append (second ts)

theorem andThen (first : Renders f g) (second : Renders f' g') :
    Renders (f.andThen f') (g.andThen g') := by
  intro ts
  -- first exchange what comes first, and then what comes behind each of its ways
  have start := (first ts).flatMap fun n =>
    SameFirst.refl ((g' ((encode ts).drop n)).map (n + ·))
  apply start.trans
  rw [List.flatMap_map, Ways.andThen, List.map_flatMap]
  apply SameFirst.flatMap_congr
  intro k _
  have rest := (second (ts.drop k)).map (offset ts k + ·)
  simpa only [drop_offset, List.map_map, Function.comp_def, offset_add] using rest

theorem times (inner : Renders f g) (n : Nat) : Renders (f.times n) (g.times n) := by
  induction n with
  | zero => exact stay
  | succ n ih => exact inner.andThen ih

theorem upTo (inner : Renders f g) (n : Nat) : Renders (f.upTo n) (g.upTo n) := by
  induction n with
  | zero => exact stay
  | succ n ih => exact (inner.andThen ih).orElse stay

theorem again (inner : Renders f g) : Renders f.again g.again := by
  intro ts
  induction size : ts.length using Nat.strongRecOn generalizing ts with
  | ind size ih =>
  subst size
  by_cases more : ts = []
  · subst more
    rw [encode_nil, Ways.again_nil, Ways.again_nil]
    exact SameFirst.refl [0]
  rw [Ways.again_of_ne_nil (mt encode_eq_nil.mp more), Ways.again_of_ne_nil more, List.map_append]
  refine SameFirst.append ?_ (SameFirst.refl [0])
  have start := (inner ts).flatMap fun n => SameFirst.refl
    (if n = 0 then [] else (g.again ((encode ts).drop n)).map (n + ·))
  apply start.trans
  rw [List.flatMap_map, List.map_flatMap]
  apply SameFirst.flatMap_congr
  intro k _
  by_cases none : k = 0
  · subst none
    exact SameFirst.refl []
  · -- what takes tokens takes characters, so both go on to another round
    have taken : offset ts k ≠ 0 := fun equal => (offset_eq_zero.mp equal).elim none more
    have shorter : (ts.drop k).length < ts.length := by
      have some := List.length_pos_iff.mpr more
      rw [List.length_drop]
      omega
    rw [if_neg none, if_neg taken, drop_offset]
    have rest := (ih _ shorter (ts.drop k) rfl).map (offset ts k + ·)
    simpa only [List.map_map, Function.comp_def, offset_add] using rest

theorem copies (inner : Renders f g) (least : Nat) (most : Option Nat) :
    Renders (f.copies least most) (g.copies least most) := by
  cases most with
  | none => exact (inner.times least).andThen inner.again
  | some most => exact (inner.times least).andThen (inner.upTo (most - least))

end Renders

namespace Pattern

/-! ### Lowered patterns -/

/-- The expression of a token matches the text of a first token that meets the condition. -/
theorem mem_ways_tokenRegex {p : TokenPattern} {ts : List Token} {n : Nat} :
    n ∈ (tokenRegex p).ways (encode ts) ↔
      ∃ t us, ts = t :: us ∧ p.accepts t = true ∧ n = offset ts 1 := by
  rw [Regex.matches_ways (tokenRegex p)]
  constructor
  · rintro ⟨bound, member⟩
    obtain ⟨k, -, start, -⟩ := encode_eq_append (List.take_append_drop n (encode ts)).symm
      (wholeTokens_tokenRegex p _ member)
    rw [start, ← mem_decoded, decoded_tokenRegex] at member
    obtain ⟨t, accepted, single⟩ := member
    -- the match is the text of the first `k` tokens, and the condition is on a single one
    have count : n = (encode (ts.take k)).length := by
      rw [← start, List.length_take, Nat.min_eq_left bound]
    cases ts with
    | nil => simp at single
    | cons u us =>
      cases k with
      | zero => simp at single
      | succ k =>
        rw [List.take_succ_cons] at single
        obtain ⟨rfl, none⟩ := List.cons.inj single
        refine ⟨u, us, rfl, accepted, ?_⟩
        rw [count, List.take_succ_cons, none]
        rfl
  · rintro ⟨t, us, rfl, accepted, rfl⟩
    constructor
    · exact offset_le (t :: us) 1
    · rw [take_offset, ← mem_decoded, decoded_tokenRegex]
      exact ⟨t, accepted, rfl⟩

theorem renders_tokenRegex (p : TokenPattern) : Renders (.one p.accepts) (tokenRegex p).ways := by
  intro ts
  have own {n : Nat} : n ∈ (Ways.one p.accepts ts).map (offset ts) ↔
      ∃ t us, ts = t :: us ∧ p.accepts t = true ∧ n = offset ts 1 := by
    cases ts with
    | nil => simp [Ways.one]
    | cons t us =>
      by_cases accepted : p.accepts t = true
      · simp [Ways.one, accepted]
      · simp [Ways.one, accepted]
  have only {n : Nat} : (∃ t us, ts = t :: us ∧ p.accepts t = true ∧ n = offset ts 1) →
      n = offset ts 1 := by
    rintro ⟨_, _, _, _, equal⟩
    exact equal
  -- no way but to the end of the first token
  refine SameFirst.of_unique (fun n member => only (mem_ways_tokenRegex.mp member))
    (fun n member => only (own.mp member)) ?_
  simp only [List.eq_nil_iff_forall_not_mem, mem_ways_tokenRegex, own]

variable {p : Pattern} {ps : List Pattern}

theorem SharesSettled.of_mem (settled : ∀ qs, .anyOf qs ∈ subpatternsOfEach ps →
    Regex.SharesSettled (regexes qs)) : ∀ p ∈ ps, p.SharesSettled := by
  intro p member qs inside
  rw [subpatternsOfEach_eq_flatMap] at settled
  exact settled qs (List.mem_flatMap.mpr ⟨p, member, inside⟩)

theorem RoundsTake.of_mem (takes : ∀ body least, .repeated body least none ∈ subpatternsOfEach ps →
    [] ∉ body.language) : ∀ p ∈ ps, p.RoundsTake := by
  intro p member body least inside
  rw [subpatternsOfEach_eq_flatMap] at takes
  exact takes body least (List.mem_flatMap.mpr ⟨p, member, inside⟩)

mutual

/-- The expression of a pattern tries the texts of leading tokens in the order of the pattern. -/
theorem renders_ways : ∀ p : Pattern, p.isBounded = true → p.SharesSettled →
    Renders p.ways p.regex.ways
  | .token p, _, _ => by
    rw [ways, regex]
    exact renders_tokenRegex p
  | .sequence ps, bounded, settled => by
    rw [ways, regex, waysOfEach_eq_map, Regex.ways_inOrder]
    refine (renders_each ps (by simpa only [isBounded] using bounded) ?_).1
    exact SharesSettled.of_mem fun qs inside => settled qs (List.mem_cons_of_mem _ inside)
  | .anyOf ps, bounded, settled => by
    rw [ways, regex, waysOfEach_eq_map]
    have each := renders_each ps (by simpa only [isBounded] using bounded)
      (SharesSettled.of_mem fun qs inside => settled qs (List.mem_cons_of_mem _ inside))
    have shares := settled ps List.mem_cons_self
    exact fun ts => (Regex.ways_oneOf shares (encode ts)).trans (each.2 ts)
  | .optional p, bounded, settled => by
    have inside : p.isBounded = true := by simpa only [isBounded] using bounded
    have inner := renders_ways p inside fun qs member => settled qs (List.mem_cons_of_mem _ member)
    rw [ways, regex]
    have once : p.regex.ways.copies 0 (some 1) = p.regex.ways.orElse .stay := by
      simp [Ways.copies, Ways.times, Ways.upTo]
    intro ts
    have written := Regex.ways_repeating (isBounded_regex p inside) 0 (some 1) (encode ts)
    rw [once] at written
    exact written.trans (inner.orElse .stay ts)
  | .repeated p least most, bounded, settled => by
    obtain ⟨-, inside⟩ := isBounded_repeated.mp bounded
    have inner := renders_ways p inside fun qs member => settled qs (List.mem_cons_of_mem _ member)
    rw [ways, regex]
    intro ts
    have written := Regex.ways_repeating (isBounded_regex p inside) least most (encode ts)
    exact written.trans (inner.copies least most ts)

theorem renders_each : ∀ ps : List Pattern, areBounded ps = true → (∀ p ∈ ps, p.SharesSettled) →
    Renders (.inOrder (ps.map ways)) (.inOrder ((regexes ps).map Regex.ways)) ∧
      Renders (.oneOf (ps.map ways)) (.oneOf ((regexes ps).map Regex.ways))
  | [], _, _ => ⟨.stay, .fail⟩
  | p :: ps, bounded, settled => by
    simp only [areBounded, Bool.and_eq_true] at bounded
    obtain ⟨here, later⟩ := List.forall_mem_cons.mp settled
    have first := renders_ways p bounded.1 here
    have rest := renders_each ps bounded.2 later
    rw [regexes]
    exact ⟨first.andThen rest.1, first.orElse rest.2⟩

end

/-! ### Rounds -/

theorem nil_mem_language_regex (bounded : p.isBounded = true) :
    [] ∈ p.regex.language ↔ [] ∈ p.language := by
  rw [← encode_mem_language bounded, encode_nil]

mutual

theorem roundsTake_regex : ∀ p : Pattern, p.isBounded = true → p.RoundsTake → p.regex.RoundsTake
  | .token p, _, _ => by
    rw [regex]
    -- a repetition within a field takes a character each round
    refine eachRepetition_tokenRegex (fun _ empty => ?_) p
    obtain ⟨c, -, single⟩ := Regex.mem_language_char.mp empty
    simp at single
  | .sequence ps, bounded, takes => by
    rw [regex, Regex.RoundsTake, Regex.eachRepetition_inOrder]
    apply roundsTake_regexes ps (by simpa only [isBounded] using bounded)
    exact RoundsTake.of_mem fun body least inside => takes body least (List.mem_cons_of_mem _ inside)
  | .anyOf ps, bounded, takes => by
    rw [regex]
    refine Regex.eachRepetition_oneOf
      (roundsTake_regexes ps (by simpa only [isBounded] using bounded) ?_)
    exact RoundsTake.of_mem fun body least inside => takes body least (List.mem_cons_of_mem _ inside)
  | .optional p, bounded, takes => by
    have inner := roundsTake_regex p (by simpa only [isBounded] using bounded)
      fun body least inside => takes body least (List.mem_cons_of_mem _ inside)
    rw [regex]
    exact Regex.eachRepetition_repeating inner (by simp) (by simp)
  | .repeated p least most, bounded, takes => by
    obtain ⟨-, inside⟩ := isBounded_repeated.mp bounded
    have inner := roundsTake_regex p inside
      fun body least inside => takes body least (List.mem_cons_of_mem _ inside)
    rw [regex]
    refine Regex.eachRepetition_repeating inner (fun _ endless => ?_) (by simp)
    subst endless
    rw [nil_mem_language_regex inside]
    exact takes p least List.mem_cons_self

theorem roundsTake_regexes : ∀ ps : List Pattern, areBounded ps = true →
    (∀ p ∈ ps, p.RoundsTake) → ∀ e ∈ regexes ps, e.RoundsTake
  | [], _, _ => by simp
  | p :: ps, bounded, takes => by
    simp only [areBounded, Bool.and_eq_true] at bounded
    obtain ⟨here, later⟩ := List.forall_mem_cons.mp takes
    rw [regexes]
    exact List.forall_mem_cons.mpr
      ⟨roundsTake_regex p bounded.1 here, roundsTake_regexes ps bounded.2 later⟩

end

end Pattern

end PhraseGraph
