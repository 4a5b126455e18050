import Mathlib.Order.Basic
import PhraseGraph.Pattern.Encoding

/-!
# PhraseGraph.Proofs.Pattern.Encoding

The text of tokens tells where each token ends.

## Main statements

`encode_eq_append`: if the text of tokens is cut behind the end of a token, then the two parts are
the texts of the tokens before and after the cut. `tokenCount_encode`: counting ends of tokens
counts tokens.
-/

namespace PhraseGraph

variable {α : Type}

/-! ### Fields -/

/-- A text that can stand between two ends: none of its characters ends a field. -/
def IsField (cs : List Char) : Prop := ∀ c ∈ cs, c ≠ tagEnd ∧ c ≠ tokenEnd

theorem isField_fieldText (text : String) : IsField (fieldText text) := by
  intro c member
  simpa using (List.mem_filter.mp member).2

theorem IsField.tagEnd_notMem {cs : List Char} (field : IsField cs) : tagEnd ∉ cs :=
  fun member => (field _ member).1 rfl

theorem IsField.tokenEnd_notMem {cs : List Char} (field : IsField cs) : tokenEnd ∉ cs :=
  fun member => (field _ member).2 rfl

theorem IsField.append {cs ds : List Char} (first : IsField cs) (second : IsField ds) :
    IsField (cs ++ ds) :=
  List.forall_mem_append.mpr ⟨first, second⟩

/-- Texts that are cut at the first occurrence of a character are cut alike. -/
theorem append_cons_inj {x : α} {as bs cs ds : List α} (left : x ∉ as) (right : x ∉ cs) :
    as ++ x :: bs = cs ++ x :: ds ↔ as = cs ∧ bs = ds := by
  refine ⟨fun equal => ?_, by rintro ⟨rfl, rfl⟩; rfl⟩
  -- where one of the texts ends earlier, the other one would hold the character
  induction as generalizing cs with
  | nil =>
    cases cs with
    | nil => simpa using equal
    | cons c cs => exact absurd (List.cons.inj equal).1 fun same => right (same ▸ List.mem_cons_self)
  | cons a as ih =>
    cases cs with
    | nil => exact absurd (List.cons.inj equal).1 fun same => left (same ▸ List.mem_cons_self)
    | cons c cs =>
      obtain ⟨rfl, rest⟩ := List.cons.inj equal
      obtain ⟨rfl, rfl⟩ := ih (fun member => left (List.mem_cons_of_mem _ member))
        (fun member => right (List.mem_cons_of_mem _ member)) rest
      exact ⟨rfl, rfl⟩

/-! ### Tokens -/

theorem encode_nil : encode [] = [] := rfl

theorem encode_cons (t : Token) (ts : List Token) :
    encode (t :: ts) =
      fieldText t.tag ++ tagEnd :: (fieldText t.headword ++ tokenEnd :: encode ts) := by
  simp [encode, Token.encode]

theorem encode_append (ts us : List Token) : encode (ts ++ us) = encode ts ++ encode us :=
  List.flatMap_append

theorem encode_eq_nil {ts : List Token} : encode ts = [] ↔ ts = [] := by
  cases ts <;> simp [encode_nil, encode_cons]

theorem encode_cons_eq {t : Token} {ts : List Token} {tag headword rest : List Char}
    (tagField : IsField tag) (headwordField : IsField headword) :
    encode (t :: ts) = tag ++ tagEnd :: (headword ++ tokenEnd :: rest) ↔
      fieldText t.tag = tag ∧ fieldText t.headword = headword ∧ encode ts = rest := by
  rw [encode_cons, append_cons_inj (isField_fieldText _).tagEnd_notMem tagField.tagEnd_notMem,
    append_cons_inj (isField_fieldText _).tokenEnd_notMem headwordField.tokenEnd_notMem]

/-! ### Cuts between tokens -/

/-- The text does not end within a token. -/
def EndsToken (cs : List Char) : Prop := ∀ c ∈ cs.getLast?, c = tokenEnd

theorem endsToken_nil : EndsToken [] := by simp [EndsToken]

theorem EndsToken.append {cs ds : List Char} (first : EndsToken cs) (second : EndsToken ds) :
    EndsToken (cs ++ ds) := by
  unfold EndsToken at *
  rw [List.getLast?_append]
  cases last : ds.getLast? with
  | none => simpa using first
  | some c => simpa [last] using second

theorem EndsToken.of_append_cons {cs ds : List Char} {c : Char}
    (whole : EndsToken (cs ++ c :: ds)) : EndsToken ds := by
  unfold EndsToken at *
  rw [List.getLast?_append, List.getLast?_cons] at whole
  cases last : ds.getLast? with
  | none => simp
  | some d => simpa [last] using whole

theorem EndsToken.mem {c : Char} {cs : List Char} (whole : EndsToken (c :: cs)) :
    tokenEnd ∈ c :: cs := by
  have last := List.getLast?_eq_some_getLast (List.cons_ne_nil c cs)
  rw [← whole _ last]
  exact List.getLast_mem _

/-- A text of tokens that is cut where a token ends is cut between two tokens. -/
theorem encode_eq_append {ts : List Token} {u v : List Char} (cut : encode ts = u ++ v)
    (whole : EndsToken u) :
    ∃ k ≤ ts.length, u = encode (ts.take k) ∧ v = encode (ts.drop k) := by
  induction ts generalizing u with
  | nil =>
    obtain ⟨rfl, rfl⟩ := List.append_eq_nil_iff.mp cut.symm
    exact ⟨0, Nat.le_refl _, rfl, rfl⟩
  | cons t ts ih =>
    cases u with
    | nil => exact ⟨0, Nat.zero_le _, rfl, cut.symm⟩
    | cons c u =>
      -- an end of a token stands in the first part, hence the first token does
      obtain ⟨first, later, split, absent⟩ := List.eq_append_cons_of_mem whole.mem
      rw [split] at cut whole ⊢
      have field : tokenEnd ∉ fieldText t.tag ++ tagEnd :: fieldText t.headword := by
        have different : tokenEnd ≠ tagEnd := by decide
        simp [(isField_fieldText _).tokenEnd_notMem, different]
      have equal : (fieldText t.tag ++ tagEnd :: fieldText t.headword) ++ tokenEnd :: encode ts =
          first ++ tokenEnd :: (later ++ v) := by
        simpa [encode_cons] using cut
      obtain ⟨rfl, rest⟩ := (append_cons_inj field absent).mp equal
      -- what is left of the first part is cut by the induction hypothesis
      obtain ⟨k, bound, rfl, rfl⟩ := ih rest whole.of_append_cons
      refine ⟨k + 1, Nat.succ_le_succ bound, ?_, rfl⟩
      simp [encode_cons]

theorem tokenCount_encode (ts : List Token) : tokenCount (encode ts) = ts.length := by
  induction ts with
  | nil => rfl
  | cons t ts ih =>
    have none_in (text : String) : (fieldText text).count tokenEnd = 0 :=
      List.count_eq_zero.mpr (isField_fieldText text).tokenEnd_notMem
    have other : tagEnd ≠ tokenEnd := by decide
    rw [tokenCount] at ih ⊢
    rw [encode_cons, List.count_append, List.count_cons_of_ne other, List.count_append,
      List.count_cons_self, none_in, none_in, ih, List.length_cons]
    omega

/-- The number of characters of the first tokens. -/
def offset (ts : List Token) (k : Nat) : Nat := (encode (ts.take k)).length

theorem encode_take_append_drop (ts : List Token) (k : Nat) :
    encode (ts.take k) ++ encode (ts.drop k) = encode ts := by
  rw [← encode_append, List.take_append_drop]

theorem take_offset (ts : List Token) (k : Nat) :
    (encode ts).take (offset ts k) = encode (ts.take k) := by
  rw [← encode_take_append_drop ts k]
  exact List.take_left' rfl

theorem drop_offset (ts : List Token) (k : Nat) :
    (encode ts).drop (offset ts k) = encode (ts.drop k) := by
  rw [← encode_take_append_drop ts k]
  exact List.drop_left' rfl

theorem offset_le (ts : List Token) (k : Nat) : offset ts k ≤ (encode ts).length := by
  rw [← encode_take_append_drop ts k, List.length_append]
  exact Nat.le_add_right _ _

theorem offset_add (ts : List Token) (k j : Nat) :
    offset ts (k + j) = offset ts k + offset (ts.drop k) j := by
  rw [offset, offset, offset, List.take_add, encode_append, List.length_append]

theorem offset_mono (ts : List Token) {k j : Nat} (before : k ≤ j) : offset ts k ≤ offset ts j := by
  obtain ⟨n, rfl⟩ := Nat.exists_eq_add_of_le before
  rw [offset_add]
  exact Nat.le_add_right _ _

theorem offset_eq_zero {ts : List Token} {k : Nat} : offset ts k = 0 ↔ k = 0 ∨ ts = [] := by
  rw [offset, List.length_eq_zero_iff, encode_eq_nil, List.take_eq_nil_iff]

end PhraseGraph
