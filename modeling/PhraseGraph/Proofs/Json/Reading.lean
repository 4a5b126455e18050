import PhraseGraph.Json.Reader
import PhraseGraph.Proofs.Json.Records
import PhraseGraph.Proofs.Json.Skipping

/-!
# PhraseGraph.Proofs.Json.Reading

What the readers find in the texts of a value.

On a text of a value, with whatever behind it, a reader succeeds with the results that are related
to the value, and leaves what is behind. So the text itself, its white space and its escapes, make
no difference.

## Main statements

`Json.reads_record`: a record is read from what a value has for its fields.
`Json.Reads.decode_eq_ok_iff`: the whole text of a value.
-/

namespace PhraseGraph.Json

/-- On the texts of a value the reader finds what the relation says. -/
def Reads {α : Type} (read : Reader α) (stands : Json → α → Prop) : Prop :=
  ∀ ⦃v : Json⦄ ⦃gap text rest : List Char⦄, IsSpaces gap → Spells v text →
    ∀ ⦃a : α⦄ ⦃left : List Char⦄,
      read (gap ++ (text ++ rest)) = .ok (a, left) ↔ stands v a ∧ left = rest

section Reads

variable {α β : Type} {read : Reader α} {stands : Json → α → Prop}

theorem Reads.read_eq_ok (reads : Reads read stands) {v : Json} {gap text rest : List Char}
    (blank : IsSpaces gap) (spelled : Spells v text) {a : α} (found : stands v a) :
    read (gap ++ (text ++ rest)) = .ok (a, rest) :=
  (reads blank spelled).mpr ⟨found, rfl⟩

theorem Reads.map (reads : Reads read stands) (f : α → β) :
    Reads (fun cs => (read cs).map fun (a, rest) => (f a, rest))
      fun v b => ∃ a, stands v a ∧ f a = b := by
  intro v gap text rest blank spelled b left
  rw [map_eq_ok]
  constructor
  · rintro ⟨⟨a, left⟩, found, ⟨⟩⟩
    obtain ⟨here, rfl⟩ := (reads blank spelled).mp found
    exact ⟨⟨a, here, rfl⟩, rfl⟩
  · rintro ⟨⟨a, here, rfl⟩, rfl⟩
    exact ⟨(a, left), reads.read_eq_ok blank spelled here, rfl⟩

theorem Reads.decode_eq_ok_iff (reads : Reads read stands) {v : Json} {text : String}
    (spelled : SpellsText v text) {a : α} : decode read text = .ok a ↔ stands v a := by
  obtain ⟨before, inner, after, blank, blank', spelled, shape⟩ := spelled
  have empty : (dropSpace after).isEmpty = true := by rw [dropSpace_of_isSpaces blank']; rfl
  rw [decode, shape, bind_eq_ok]
  constructor
  · rintro ⟨⟨b, left⟩, found, whole⟩
    obtain ⟨here, rfl⟩ := (reads blank spelled).mp found
    have whole := (if_pos empty).symm.trans whole
    exact Except.ok.inj whole ▸ here
  · intro here
    exact ⟨(a, after), reads.read_eq_ok blank spelled here, if_pos empty⟩

end Reads

/-! ### Strings -/

/-- Strings, lists and objects are told by their first character. -/
theorem Opens.kind {v : Json} {c : Char} (opens : Opens v c) :
    (c = '"' → ∃ s, v = .string s) ∧ (c = '[' → ∃ es, v = .array es) ∧
      (c = '\x7b' → ∃ ms, v = .object ms) := by
  refine ⟨?_, ?_, ?_⟩ <;> rintro rfl <;>
    rcases v with _ | (_ | _) | _ | _ | _ | _ | _ <;> simp [Opens] at opens ⊢

theorem reads_string : Reads readString IsString := by
  intro v gap text rest blank spelled s left
  obtain ⟨c, tail, rfl, opens⟩ := spelled.opens
  rw [readString, dropSpace_append blank, List.cons_append, dropSpace_cons opens.isStart.1]
  split
  · next cs shape =>
    obtain ⟨rfl, rfl⟩ := List.cons.inj shape
    obtain ⟨s', rfl⟩ := opens.kind.1 rfl
    rw [Spells] at spelled
    obtain ⟨body, same, read, -⟩ := spelled.exists_body
    obtain ⟨-, rfl⟩ := List.cons.inj same
    rw [read, map_eq_ok]
    constructor
    · rintro ⟨_, ⟨⟩, ⟨⟩⟩
      exact ⟨by rw [IsString, String.ofList_toList], rfl⟩
    · rintro ⟨⟨⟩, rfl⟩
      exact ⟨_, rfl, congrArg (·, left) String.ofList_toList⟩
  · next other =>
    refine ⟨nofun, ?_⟩
    rintro ⟨rfl, -⟩
    exact absurd (congrArg (· :: (tail ++ rest)) opens) (other _)

/-! ### Elements -/

section Elements

variable {φ α : Type} {value : φ → Reader α} {stands : φ → Json → α → Prop}
  {known known' : List (φ × α)} {gap gap' text rest left : List Char} {first : Bool}

/-- A step of a list: an element is the value of the next field. -/
theorem readElements_part {field : φ} {fields : List φ} (blank : IsSpaces gap)
    (blank' : IsSpaces gap') (starts : Starts text) :
    readElements value (field :: fields) first known (gap ++ (comma first ++ (gap' ++ text))) =
      value field text >>= fun (a, cs) =>
        readElements value fields false (known ++ [(field, a)]) cs := by
  rw [readElements, dropSpace_part blank blank' starts]
  obtain ⟨c, rest, rfl, solid, notLast, -⟩ := starts
  cases first with
  | true =>
    simp only [if_true, Option.map_some, dropSpace_cons solid]
    split <;> simp_all
  | false =>
    simp only [Bool.false_eq_true, ↓reduceIte, Char.reduceEq, imp_self, Option.map_some,
      dropSpace_append blank', dropSpace_cons solid]
    split <;> simp_all

/-- An element is not the end of a list. -/
theorem expectMark_part (blank : IsSpaces gap) (blank' : IsSpaces gap') (starts : Starts text) :
    expectMark ']' (gap ++ (comma first ++ (gap' ++ text))) = .error .malformed := by
  rw [expectMark, dropSpace_part blank blank' starts]
  obtain ⟨c, rest, rfl, -, notLast, -⟩ := starts
  cases first with
  | true => exact if_neg notLast
  | false => exact if_neg (by decide)

/-- At the end of a list nothing more is read, whether there are fields left or not. -/
theorem readElements_end (blank : IsSpaces gap) (fields : List φ) :
    ∃ cs, readElements value fields first known (gap ++ ']' :: rest) = .ok (known, cs) ∧
      expectMark ']' cs = .ok rest := by
  cases fields with
  | nil => exact ⟨_, rfl, expectMark_append blank (by decide) _⟩
  | cons field fields =>
    refine ⟨']' :: rest, ?_, expectMark_append isSpaces_nil (by decide) _⟩
    rw [readElements, dropSpace_append blank]
    rfl

/-- The elements of a list are read for the fields in order, and there are not more of them. -/
theorem readElements_append (reads : ∀ field, Reads (value field) (stands field))
    {fields : List φ} {es : List Json} (spelled : SpellsElements es first text) :
    (∃ cs, readElements value fields first known (text ++ rest) = .ok (known', cs) ∧
        expectMark ']' cs = .ok left) ↔
      (es.length ≤ fields.length ∧
        ∃ new, known' = known ++ new ∧ List.Forall₂ (Fits stands) (fields.zip es) new) ∧
      left = rest := by
  induction es generalizing fields first text known with
  | nil =>
    rw [SpellsElements] at spelled
    obtain ⟨gap, blank, rfl⟩ := spelled
    rw [List.append_assoc, List.singleton_append, List.zip_nil_right]
    obtain ⟨cs, read, last⟩ : ∃ cs,
        readElements value fields first known (gap ++ ']' :: rest) = .ok (known, cs) ∧
          expectMark ']' cs = .ok rest := readElements_end blank fields
    rw [read]
    constructor
    · rintro ⟨_, ⟨⟩, last'⟩
      rw [last] at last'
      exact ⟨⟨Nat.zero_le _, [], (List.append_nil _).symm, .nil⟩, (Except.ok.inj last').symm⟩
    · rintro ⟨⟨-, _, rfl, ⟨⟩⟩, rfl⟩
      exact ⟨cs, by rw [List.append_nil], last⟩
  | cons e es ih =>
    rw [SpellsElements] at spelled
    obtain ⟨gap, gap', text, tail, blank, blank', here, later, rfl⟩ := spelled
    simp only [List.append_assoc]
    cases fields with
    -- with no field left an element stands where the last bracket should
    | nil =>
      constructor
      · rintro ⟨_, ⟨⟩, last⟩
        rw [expectMark_part blank blank' (here.starts.append _)] at last
        cases last
      · rintro ⟨⟨few, -⟩, -⟩
        cases few
    | cons field fields =>
      rw [readElements_part blank blank' (here.starts.append _), List.zip_cons_cons]
      simp only [List.length_cons, Nat.add_le_add_iff_right, List.forall₂_cons_left_iff]
      constructor
      · rintro ⟨cs, read, last⟩
        obtain ⟨⟨a, cs⟩, read, others⟩ := bind_eq_ok.mp read
        obtain ⟨found, rfl⟩ := (reads field isSpaces_nil here).mp read
        obtain ⟨⟨few, new, rfl, fits⟩, rfl⟩ := (ih later).mp ⟨_, others, last⟩
        exact ⟨⟨few, (field, a) :: new, by simp, (field, a), new, ⟨rfl, found⟩, fits, rfl⟩, rfl⟩
      · rintro ⟨⟨few, _, rfl, ⟨field', a⟩, new, ⟨same, found⟩, fits, rfl⟩, rfl⟩
        obtain rfl : field = field' := same.symm
        have together := List.append_cons known (field, a) new
        obtain ⟨cs, others, last⟩ := (ih later).mpr ⟨⟨few, new, together, fits⟩, rfl⟩
        refine ⟨cs, bind_eq_ok.mpr ⟨(a, tail ++ left), ?_, others⟩, last⟩
        exact (reads field).read_eq_ok isSpaces_nil here found

end Elements

/-! ### Members -/

theorem nodup_concat {φ α : Type} {known : List (φ × α)} {field : φ} {a : α} :
    ((known ++ [(field, a)]).map Prod.fst).Nodup ↔
      field ∉ known.map Prod.fst ∧ (known.map Prod.fst).Nodup := by
  rw [List.map_append, List.perm_append_comm.nodup_iff]
  exact List.nodup_cons

section Readers

variable {φ α : Type} [DecidableEq φ] {field? : String → Option φ} {value : φ → Reader α}
  {stands : φ → Json → α → Prop} {known : List (φ × α)}

theorem readMember_spaces {gap cs : List Char} (blank : IsSpaces gap) :
    readMember field? value known (gap ++ cs) = readMember field? value known cs := by
  rw [readMember, readMember, expectMark, expectMark, dropSpace_append blank]

/-- A step of an object: a member, and then the others. -/
theorem readMembers_part {gap gap' text : List Char} {first : Bool} {fuel : Nat}
    (blank : IsSpaces gap) (blank' : IsSpaces gap') (starts : Starts text) :
    readMembers field? value (fuel + 1) first known (gap ++ (comma first ++ (gap' ++ text))) =
      readMember field? value known text >>= fun (known, cs) =>
        readMembers field? value fuel false known cs := by
  rw [readMembers, dropSpace_part blank blank' starts]
  obtain ⟨c, rest, rfl, -, -, notLast⟩ := starts
  cases first with
  | true => simp
  | false => simp [readMember_spaces blank']

/-- What a member adds to what is known. -/
theorem readMember_append {key : String} {v : Json}
    {keyText gap gap' text rest : List Char} (spelled : SpellsString key keyText)
    (blank : IsSpaces gap) (blank' : IsSpaces gap') (here : Spells v text) (ends : Ends rest) :
    readMember field? value known (keyText ++ (gap ++ ':' :: (gap' ++ (text ++ rest)))) =
      match field? key with
      | none => .ok (known, rest)
      | some field =>
        if field ∈ known.map Prod.fst then .error .mismatched
        else (value field (gap' ++ (text ++ rest))).map fun (a, cs) =>
          (known ++ [(field, a)], cs) := by
  obtain ⟨body, rfl, read, -⟩ := spelled.exists_body
  have quote : expectMark '"' ('"' :: (body ++ (gap ++ ':' :: (gap' ++ (text ++ rest))))) =
      .ok (body ++ (gap ++ ':' :: (gap' ++ (text ++ rest)))) :=
    expectMark_append isSpaces_nil (by decide) _
  have colon : expectMark ':' (gap ++ ':' :: (gap' ++ (text ++ rest))) =
      .ok (gap' ++ (text ++ rest)) := expectMark_append blank (by decide) _
  rw [readMember, List.cons_append, quote]
  simp only [bind, Except.bind, read, colon, String.ofList_toList]
  cases field? key with
  | none => simp only [skipValue_append blank' here ends]
  | some field =>
    simp only [isSome_lookup_iff]
    cases value field (gap' ++ (text ++ rest)) <;> rfl

/-- After a member that stands for a new field and has a result, or for none, the others follow. -/
theorem readMembers_cons (reads : ∀ field, Reads (value field) (stands field)) {key : String}
    {v : Json} {gap gap₁ gap₂ gap₃ keyText text rest : List Char} {first : Bool} {fuel : Nat}
    (blank : IsSpaces gap) (blank₁ : IsSpaces gap₁) (blank₂ : IsSpaces gap₂)
    (blank₃ : IsSpaces gap₃) (name : SpellsString key keyText) (here : Spells v text)
    (ends : Ends rest) {result : List (φ × α) × List Char} :
    readMembers field? value (fuel + 1) first known
        (gap ++ (comma first ++ (gap₁ ++ (keyText ++ (gap₂ ++ ':' :: (gap₃ ++ (text ++ rest))))))) =
        .ok result ↔
      match field? key with
      | none => readMembers field? value fuel false known rest = .ok result
      | some field => field ∉ known.map Prod.fst ∧
        ∃ a, stands field v a ∧
          readMembers field? value fuel false (known ++ [(field, a)]) rest = .ok result := by
  rw [readMembers_part blank blank₁ (name.starts.append _),
    readMember_append name blank₂ blank₃ here ends]
  cases field? key with
  | none => rfl
  | some field =>
    by_cases repeated : field ∈ known.map Prod.fst
    · simp only [if_pos repeated]
      exact ⟨nofun, fun fresh => absurd repeated fresh.1⟩
    · simp only [if_neg repeated, bind_eq_ok, map_eq_ok]
      constructor
      · rintro ⟨_, ⟨⟨a, cs⟩, read, rfl⟩, others⟩
        obtain ⟨found, rfl⟩ := (reads field blank₃ here).mp read
        exact ⟨repeated, a, found, others⟩
      · rintro ⟨-, a, found, others⟩
        exact ⟨_, ⟨(a, rest), (reads field).read_eq_ok blank₃ here found, rfl⟩, others⟩

/-- The members of an object are read in their order, and those that stand for fields are added to
what is known. -/
theorem readMembers_append (reads : ∀ field, Reads (value field) (stands field))
    {ms : List (String × Json)} {first : Bool} {text rest : List Char} {fuel : Nat}
    (spelled : SpellsMembers ms first text) (enough : text.length ≤ fuel)
    (distinct : (known.map Prod.fst).Nodup) {known' : List (φ × α)} {left : List Char} :
    readMembers field? value fuel first known (text ++ rest) = .ok (known', left) ↔
      (∃ new, known' = known ++ new ∧ List.Forall₂ (Fits stands) (named field? ms) new ∧
        (known'.map Prod.fst).Nodup) ∧ left = rest := by
  induction ms generalizing first text fuel known with
  | nil =>
    rw [SpellsMembers] at spelled
    obtain ⟨gap, blank, rfl⟩ := spelled
    simp only [List.length_append, List.length_singleton] at enough
    obtain ⟨fuel, rfl⟩ : ∃ n, fuel = n + 1 := ⟨fuel - 1, by omega⟩
    -- what is known is all there is, and its fields are distinct already
    have last : readMembers field? value (fuel + 1) first known (gap ++ ['\x7d'] ++ rest) =
        .ok (known, rest) := by
      rw [List.append_assoc, readMembers, dropSpace_append blank]
      rfl
    rw [last]
    constructor
    · rintro ⟨⟩
      exact ⟨⟨[], (List.append_nil _).symm, .nil, distinct⟩, rfl⟩
    · rintro ⟨⟨_, rfl, ⟨⟩, -⟩, rfl⟩
      rw [List.append_nil]
  | cons m ms ih =>
    obtain ⟨key, v⟩ := m
    rw [SpellsMembers] at spelled
    obtain ⟨gap, gap₁, keyText, gap₂, gap₃, text, tail, ⟨blank, blank₁, blank₂, blank₃⟩, name, here,
      later, rfl⟩ := spelled
    simp only [List.length_append, List.length_cons] at enough
    obtain ⟨fuel, rfl⟩ : ∃ n, fuel = n + 1 := ⟨fuel - 1, by omega⟩
    have enough' : tail.length ≤ fuel := by omega
    have ends := later.ends.2 rest
    simp only [List.append_assoc, List.cons_append]
    rw [readMembers_cons reads blank blank₁ blank₂ blank₃ name here ends, named,
      List.filterMap_cons]
    cases field? key with
    | none => exact ih later enough' distinct
    | some field =>
      simp only [Option.map_some, List.forall₂_cons_left_iff]
      constructor
      · rintro ⟨fresh, a, found, others⟩
        obtain ⟨⟨new, rfl, fits, distinct'⟩, rfl⟩ :=
          (ih later enough' (nodup_concat.mpr ⟨fresh, distinct⟩)).mp others
        exact ⟨⟨(field, a) :: new, by simp, ⟨(field, a), new, ⟨rfl, found⟩, fits, rfl⟩, distinct'⟩,
          rfl⟩
      · rintro ⟨⟨_, rfl, ⟨⟨field', a⟩, new, ⟨same, found⟩, fits, rfl⟩, distinct'⟩, rfl⟩
        obtain rfl : field = field' := same.symm
        have together : known ++ (field, a) :: new = known ++ [(field, a)] ++ new :=
          List.append_cons known (field, a) new
        -- the fields known in the end are distinct, so this one was not known before
        have distinct'' : ((known ++ [(field, a)]).map Prod.fst).Nodup := by
          rw [together, List.map_append] at distinct'
          exact (List.nodup_append.mp distinct').1
        refine ⟨(nodup_concat.mp distinct'').1, a, found, ?_⟩
        exact (ih later enough' distinct'').mpr ⟨⟨new, together, fits, distinct'⟩, rfl⟩

/-! ### Whole records -/

theorem complete_iff {fields : List φ} {required : Bool} :
    (!required || fields.all fun field => (known.lookup field).isSome) = true ↔
      (required = true → ∀ field ∈ fields, field ∈ known.map Prod.fst) := by
  simp only [Bool.or_eq_true, Bool.not_eq_true', List.all_eq_true, isSome_lookup_iff]
  cases required <;> simp

theorem readRecord_object (reads : ∀ field, Reads (value field) (stands field)) {fields : List φ}
    {required : Bool} {ms : List (String × Json)} {inner rest left : List Char}
    (members : SpellsMembers ms true inner) :
    readRecord field? value fields required ('\x7b' :: (inner ++ rest)) = .ok (known, left) ↔
      IsRecord field? fields stands required (.object ms) known ∧ left = rest := by
  have none : (([] : List (φ × α)).map Prod.fst).Nodup := List.nodup_nil
  have enough (rest : List Char) : inner.length ≤ (inner ++ rest).length + 1 := by
    simp only [List.length_append]
    omega
  rw [readRecord, dropSpace_cons (by decide), isRecord_object_iff]
  refine bind_eq_ok.trans ?_
  constructor
  · rintro ⟨⟨known', cs⟩, read, whole⟩
    obtain ⟨⟨known', rfl, fits⟩, rfl⟩ :=
      (readMembers_append reads members (enough rest) none).mp read
    obtain ⟨all, ⟨⟩⟩ := guard_eq_ok.mp whole
    exact ⟨⟨fits, complete_iff.mp all⟩, rfl⟩
  · rintro ⟨⟨fits, all⟩, rfl⟩
    refine ⟨(known, left), ?_, guard_eq_ok.mpr ⟨complete_iff.mpr all, rfl⟩⟩
    exact (readMembers_append reads members (enough left) none).mpr ⟨⟨known, rfl, fits⟩, rfl⟩

theorem readRecord_array (reads : ∀ field, Reads (value field) (stands field)) {fields : List φ}
    {required : Bool} {es : List Json} {inner rest left : List Char}
    (elements : SpellsElements es true inner) :
    readRecord field? value fields required ('[' :: (inner ++ rest)) = .ok (known, left) ↔
      IsRecord field? fields stands required (.array es) known ∧ left = rest := by
  rw [readRecord, dropSpace_cons (by decide), isRecord_array_iff]
  refine bind_eq_ok.trans ?_
  constructor
  · rintro ⟨⟨known', cs⟩, read, whole⟩
    obtain ⟨all, whole⟩ := guard_eq_ok.mp whole
    obtain ⟨left', last, ⟨⟩⟩ := bind_eq_ok.mp whole
    obtain ⟨⟨few, known', rfl, fits⟩, rfl⟩ :=
      (readElements_append reads elements).mp ⟨cs, read, last⟩
    exact ⟨⟨⟨few, fits⟩, complete_iff.mp all⟩, rfl⟩
  · rintro ⟨⟨⟨few, fits⟩, all⟩, rfl⟩
    obtain ⟨cs, read, last⟩ :=
      (readElements_append reads elements).mpr ⟨⟨few, known, rfl, fits⟩, rfl⟩
    refine ⟨_, read, guard_eq_ok.mpr ⟨complete_iff.mpr all, ?_⟩⟩
    exact bind_eq_ok.mpr ⟨left, last, rfl⟩

/-- Other values are told by their first character. -/
theorem readRecord_other {fields : List φ} {required : Bool} {v : Json} {text rest : List Char}
    (spelled : Spells v text) (object : ∀ ms, v ≠ .object ms) (array : ∀ es, v ≠ .array es) :
    readRecord field? value fields required (text ++ rest) = .error (otherKind (text ++ rest)) := by
  obtain ⟨c, tail, rfl, opens⟩ := spelled.opens
  rw [readRecord, List.cons_append, dropSpace_cons opens.isStart.1]
  split
  · next shape =>
    obtain ⟨rfl, -⟩ := List.cons.inj shape
    obtain ⟨ms, rfl⟩ := opens.kind.2.2 rfl
    exact absurd rfl (object ms)
  · next shape =>
    obtain ⟨rfl, -⟩ := List.cons.inj shape
    obtain ⟨es, rfl⟩ := opens.kind.2.1 rfl
    exact absurd rfl (array es)
  · rfl

/-- A record is read from what a value has for its fields. -/
theorem reads_record (reads : ∀ field, Reads (value field) (stands field)) (fields : List φ)
    (required : Bool) :
    Reads (readRecord field? value fields required) (IsRecord field? fields stands required) := by
  intro v gap text rest blank spelled known left
  -- the reader passes over white space first, so there may as well be none
  have shift : readRecord field? value fields required (gap ++ (text ++ rest)) =
      readRecord field? value fields required (text ++ rest) := by
    rw [readRecord, readRecord, dropSpace_append blank]
  rw [shift]
  cases v with
  | object ms =>
    rw [Spells] at spelled
    obtain ⟨inner, members, rfl⟩ := spelled
    exact readRecord_object reads members
  | array es =>
    rw [Spells] at spelled
    obtain ⟨inner, elements, rfl⟩ := spelled
    exact readRecord_array reads elements
  | _ =>
    rw [readRecord_other spelled nofun nofun]
    refine ⟨nofun, ?_⟩
    rintro ⟨⟨_, ⟨⟩, -⟩, -⟩

end Readers

end PhraseGraph.Json
