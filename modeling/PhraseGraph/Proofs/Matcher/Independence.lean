import PhraseGraph.Proofs.Matcher.Full

/-!
# PhraseGraph.Proofs.Matcher.Independence

Patterns that are matched together do not disturb each other.

All patterns of a matcher are put into one program, whose size is limited. Apart from that each of
them matches as it does alone: whatever stands beside it, and however often it is repeated.

## Main statements

`Matcher.independent`: what a matcher reports is what its entries report one by one, and what two
matchers report, put one after the other, is what is reported for both lists of entries.
-/

namespace PhraseGraph

/-! ### Parts of a set -/

namespace Regex

/-- A part of a set of expressions needs a smaller program. -/
theorem programSize_le_of_sublist {es fs : List Regex} (part : es.Sublist fs) (reading : Reading)
    (toEnd : Bool) : programSize reading toEnd es ≤ programSize reading toEnd fs := by
  have branching : (if es.length ≤ 1 then 0 else branchingSize es.length) ≤
      if fs.length ≤ 1 then 0 else branchingSize fs.length := by
    have fewer := part.length_le
    have ways := Nat.mul_le_mul_left waySize fewer
    rw [branchingSize, branchingSize]
    split <;> split <;> omega
  have members : es.foldr (fun e bytes => memberSize reading toEnd e + bytes) 0 ≤
      fs.foldr (fun e bytes => memberSize reading toEnd e + bytes) 0 := by
    clear branching
    induction part with
    | slnil => exact le_rfl
    | cons e _ ih => exact ih.trans (Nat.le_add_left _ _)
    | cons_cons e _ ih => exact Nat.add_le_add_left ih _
  exact Nat.add_le_add (Nat.add_le_add_left branching _) members

end Regex

namespace Matcher

variable {ρ : Type} {mode : MatchMode} {entries part a b : List (Pattern × ρ)}
  {m n both : Matcher ρ}

/-- What remains of a set that compiles still does. -/
theorem compile_of_sublist (compiled : compile mode entries = .ok m) (remains : part.Sublist entries) :
    compile mode part = .ok ⟨mode, part.map fun entry => (entry.1.regex, entry.2)⟩ := by
  obtain ⟨-, wellFormed, small⟩ := compile_eq_ok_iff.mp compiled
  refine compile_eq_ok_iff.mpr ⟨rfl, fun entry kept => wellFormed entry (remains.subset kept), ?_⟩
  simp only [fits, List.all_eq_true, decide_eq_true_eq] at small ⊢
  exact fun reading which =>
    (Regex.programSize_le_of_sublist (remains.map _) _ _).trans (small reading which)

/-- The matcher of a single entry. -/
def single (mode : MatchMode) (entry : Pattern × ρ) : Matcher ρ :=
  ⟨mode, [(entry.1.regex, entry.2)]⟩

theorem compile_single (compiled : compile mode entries = .ok m) {entry : Pattern × ρ}
    (member : entry ∈ entries) : compile mode [entry] = .ok (single mode entry) :=
  compile_of_sublist compiled (List.singleton_sublist.mpr member)

variable [DecidableEq ρ]

theorem hits_single (mode : MatchMode) (entry : Pattern × ρ) (ts : List Token) :
    (single mode entry).hits ts =
      ((coverage mode ts (encode ts) entry.1.regex).map fun length => ⟨entry.2, length⟩).toList := by
  rw [hits, single, List.filterMap_cons, List.filterMap_nil]
  cases coverage mode ts (encode ts) entry.1.regex <;> rfl

/-- A matcher reports what its entries report one by one. -/
theorem hits_eq_single (compiled : compile mode entries = .ok m) (ts : List Token) :
    m.hits ts = (entries.flatMap fun entry => (single mode entry).hits ts).eraseDups := by
  rw [hits_of_compile compiled, List.filterMap_eq_flatMap_toList]
  simp only [hits_single]

theorem filter_hits_single (mode : MatchMode) (entry : Pattern × ρ) (ts : List Token) (r : ρ) :
    ((single mode entry).hits ts).filter (·.result = r) =
      if entry.2 = r then (single mode entry).hits ts else [] := by
  rw [hits_single]
  cases coverage mode ts (encode ts) entry.1.regex with
  | none => simp
  | some length => by_cases same : entry.2 = r <;> simp [same]

/-- What is reported with a result comes from the entries with this result. -/
theorem filter_hits (compiled : compile mode entries = .ok m) (ts : List Token) (r : ρ) :
    (m.hits ts).filter (·.result = r) =
      ((entries.filter (·.2 = r)).eraseDups.flatMap fun entry =>
        (single mode entry).hits ts).eraseDups := by
  rw [hits_eq_single compiled, filter_eraseDups, List.filter_flatMap, eraseDups_flatMap_eraseDups]
  simp only [filter_hits_single]
  congr 1
  clear compiled
  induction entries with
  | nil => rfl
  | cons entry entries ih =>
    by_cases same : entry.2 = r <;> simp [same, ih]

theorem hits_append (first : compile mode a = .ok m) (second : compile mode b = .ok n)
    (together : compile mode (a ++ b) = .ok both) (ts : List Token) :
    both.hits ts = (m.hits ts ++ n.hits ts).eraseDups := by
  rw [hits_eq_single first, hits_eq_single second, hits_eq_single together,
    eraseDups_append_eraseDups, List.flatMap_append]

theorem results_append (first : compile mode a = .ok m) (second : compile mode b = .ok n)
    (together : compile mode (a ++ b) = .ok both) (ts : List Token) :
    both.results ts = (m.results ts ++ n.results ts).eraseDups := by
  rw [results, hits_append first second together, eraseDups_map_eraseDups, List.map_append,
    results, results, eraseDups_append_eraseDups]

theorem mem_hits_iff (compiled : compile mode entries = .ok m) {ts : List Token}
    {hit : TokenMatch ρ} :
    hit ∈ m.hits ts ↔ ∃ entry ∈ entries, (single mode entry).hits ts = [hit] := by
  rw [hits_eq_single compiled, List.mem_eraseDups, List.mem_flatMap]
  refine exists_congr fun entry => and_congr_right fun _ => ?_
  rw [hits_single, Option.mem_toList, Option.toList_eq_singleton_iff]

theorem mem_results {ts : List Token} {r : ρ} :
    r ∈ m.results ts ↔ ∃ hit ∈ m.hits ts, hit.result = r := by
  rw [results, List.mem_eraseDups, List.mem_map]

/-- Results come in the order in which they are first reported. -/
theorem sublist_results {ts : List Token} {before after : List (TokenMatch ρ)}
    (reported : m.hits ts = before ++ after) {first later : TokenMatch ρ} (early : first ∈ before)
    (late : later ∈ after) (new : ∀ hit ∈ before, hit.result ≠ later.result) :
    [first.result, later.result].Sublist (m.results ts) := by
  rw [results, reported, List.map_append]
  refine sublist_eraseDups (List.mem_map_of_mem early) (List.mem_map_of_mem late) ?_
  rintro known
  obtain ⟨hit, inside, same⟩ := List.mem_map.mp known
  exact new hit inside same

/-- Entries are matched one by one. What two lists of entries report is reported, once and in order,
for both together. Each entry of a set also compiles alone, and the set reports what its entries do
alone; so what is reported with a result depends on the different entries with this result and on
their order, but on no others. The results are those of what is reported, once and in order. -/
theorem independent (mode : MatchMode) (ts : List Token) :
    (∀ (a b : List (Pattern × ρ)) (m n both : Matcher ρ), compile mode a = .ok m →
      compile mode b = .ok n → compile mode (a ++ b) = .ok both →
      both.hits ts = (m.hits ts ++ n.hits ts).eraseDups ∧
      both.results ts = (m.results ts ++ n.results ts).eraseDups) ∧
    (∀ (entries : List (Pattern × ρ)) (m : Matcher ρ), compile mode entries = .ok m →
      (∀ part : List (Pattern × ρ), part.Sublist entries → ∃ n, compile mode part = .ok n) ∧
      (∀ entry ∈ entries, compile mode [entry] = .ok (single mode entry)) ∧
      (∀ hit, hit ∈ m.hits ts ↔ ∃ entry ∈ entries, (single mode entry).hits ts = [hit]) ∧
      m.hits ts = (entries.flatMap fun entry => (single mode entry).hits ts).eraseDups) ∧
    (∀ (entries others : List (Pattern × ρ)) (m n : Matcher ρ) (r : ρ),
      compile mode entries = .ok m → compile mode others = .ok n →
      (entries.filter (·.2 = r)).eraseDups = (others.filter (·.2 = r)).eraseDups →
      (m.hits ts).filter (·.result = r) = (n.hits ts).filter (·.result = r)) ∧
    ∀ m : Matcher ρ, m.results ts = ((m.hits ts).map (·.result)).eraseDups ∧
      (m.results ts).Nodup ∧ (∀ r, r ∈ m.results ts ↔ ∃ hit ∈ m.hits ts, hit.result = r) ∧
      ∀ before after, m.hits ts = before ++ after → ∀ first ∈ before, ∀ later ∈ after,
        (∀ hit ∈ before, hit.result ≠ later.result) →
        [first.result, later.result].Sublist (m.results ts) := by
  refine ⟨fun a b m n both first second together =>
      ⟨hits_append first second together ts, results_append first second together ts⟩,
    fun entries m compiled => ⟨fun part remains => ⟨_, compile_of_sublist compiled remains⟩,
      fun entry => compile_single compiled, fun hit => mem_hits_iff compiled,
      hits_eq_single compiled ts⟩,
    fun entries others m n r first second same => ?_,
    fun m => ⟨rfl, nodup_eraseDups _, fun r => mem_results, fun before after reported first early
      later late => sublist_results reported early late⟩⟩
  rw [filter_hits first, filter_hits second, same]

/-- A leading token, and as many of them as there are. -/
def tokenAndAll : List (Pattern × Nat) := [(.any, 1), (.repeated .any 0 none, 1)]

def tokenAgain : List (Pattern × Nat) := [(.any, 2), (.any, 1)]

/-- A pattern that occurs again, for the same result and for another one, is matched again but
reported once for each of them. -/
theorem independent_again : ∃ m n both,
    compile .leading tokenAndAll = .ok m ∧ compile .leading tokenAgain = .ok n ∧
    compile .leading (tokenAndAll ++ tokenAgain) = .ok both ∧
    both.hits [⟨"a", "X", "a"⟩, ⟨"b", "X", "b"⟩] = [⟨1, 1⟩, ⟨1, 2⟩, ⟨2, 1⟩] ∧
    both.results [⟨"a", "X", "a"⟩, ⟨"b", "X", "b"⟩] = [1, 2] ∧
    (both.hits [⟨"a", "X", "a"⟩, ⟨"b", "X", "b"⟩]).filter (·.result = 1) =
      (m.hits [⟨"a", "X", "a"⟩, ⟨"b", "X", "b"⟩]).filter (·.result = 1) := by
  have first : compile .leading tokenAndAll =
      .ok ⟨.leading, tokenAndAll.map fun entry => (entry.1.regex, entry.2)⟩ := by rfl
  have second : compile .leading tokenAgain =
      .ok ⟨.leading, tokenAgain.map fun entry => (entry.1.regex, entry.2)⟩ := by rfl
  have together : compile .leading (tokenAndAll ++ tokenAgain) =
      .ok ⟨.leading, (tokenAndAll ++ tokenAgain).map fun entry => (entry.1.regex, entry.2)⟩ := by
    rfl
  obtain ⟨append, -, kept, -⟩ :=
    independent (ρ := Nat) .leading [⟨"a", "X", "a"⟩, ⟨"b", "X", "b"⟩]
  obtain ⟨hits, results⟩ := append _ _ _ _ _ first second together
  refine ⟨_, _, _, first, second, together, hits.trans ?_, results.trans ?_,
    kept _ _ _ _ 1 together first (by decide)⟩
  · decide +kernel
  · decide +kernel

end Matcher

end PhraseGraph
