import LinearAssignment.Proofs.Json.Lexeme

/-! # Arrays and objects are read back

The items of an array and the members of an object stand between their brackets with a comma between
two of them and blanks wherever one likes. If every item is read from its text, an array is read
from such a layout. If every member leads from one state to the next, an object leads along its
whole list of members.
-/

namespace LinearAssignment.Json

variable {α σ : Type} {closing : Char} {text rest : List Char} {items : List (List Char)}

/-! ## Reading a value -/

/-- A reader reads a value from a text and stops where that ends. -/
def Reads (read : Reader α) (text : List Char) (value : α) : Prop :=
  ∀ rest, StopsNumber rest → read (text ++ rest) = .ok (value, rest)

/-- A reader refuses a text for some problem, whatever follows it. -/
def Refuses (read : Reader α) (text : List Char) (problem : ReadError) : Prop :=
  ∀ rest, StopsNumber rest → read (text ++ rest) = .error problem

/-! ## Arrays -/

private theorem skipBlank_item {value item : List Char} (laid : ItemText value item)
    (starts : StartsValue value) (rest : List Char) :
    skipBlank (item ++ rest) = value ++ rest ∧
      ∃ c others, value ++ rest = c :: others ∧ c ≠ ',' ∧ c ≠ ']' := by
  obtain ⟨blanks, blank, rfl⟩ := laid
  obtain ⟨c, others, rfl, visible, notComma, notBracket, _⟩ := starts
  refine ⟨?_, c, others ++ rest, rfl, notComma, notBracket⟩
  rw [List.append_assoc, skipBlank_append blank]
  exact skipBlank_cons visible _

/-- The first item is where the array starts. -/
theorem nextItem_first {value item : List Char} (laid : ItemText value item)
    (starts : StartsValue value) (rest : List Char) :
    nextItem true (item ++ rest) = .ok (true, value ++ rest) := by
  obtain ⟨skipped, c, others, start, _, _⟩ := skipBlank_item laid starts rest
  simp [nextItem, skipped, start]

/-- Another item is behind a comma. -/
theorem nextItem_next {blanks value item : List Char} (blank : Blanks blanks)
    (laid : ItemText value item) (starts : StartsValue value) (rest : List Char) :
    nextItem false (blanks ++ ',' :: (item ++ rest)) = .ok (true, value ++ rest) := by
  obtain ⟨skipped, c, others, start, _, notBracket⟩ := skipBlank_item laid starts rest
  have comma : skipBlank (blanks ++ ',' :: (item ++ rest)) = ',' :: (item ++ rest) := by
    rw [skipBlank_append blank]
    exact skipBlank_cons rfl _
  simp [nextItem, comma, skipped, start, notBracket]

/-- No item is behind the last one. -/
theorem nextItem_close {blanks : List Char} (blank : Blanks blanks) (first : Bool)
    (rest : List Char) : nextItem first (blanks ++ ']' :: rest) = .ok (false, ']' :: rest) := by
  have bracket : skipBlank (blanks ++ ']' :: rest) = ']' :: rest := by
    rw [skipBlank_append blank]
    exact skipBlank_cons rfl _
  simp [nextItem, bracket]

theorem closeArray_append {blanks : List Char} (blank : Blanks blanks) (rest : List Char) :
    closeArray (blanks ++ ']' :: rest) = .ok rest := by
  have bracket : skipBlank (blanks ++ ']' :: rest) = ']' :: rest := by
    rw [skipBlank_append blank]
    exact skipBlank_cons rfl _
  simp [closeArray, bracket]

variable {item : Reader α} {texts : List (List Char)} {values : List α}

/-- Items that are read one by one. -/
def ReadsEach (item : Reader α) : List (List Char) → List α → Prop :=
  List.Forall₂ fun text value => StartsValue text ∧ Reads item text value

private theorem readItems_continued (laid : Continued ']' items text)
    (each : List.Forall₂ ItemText texts items) (reads : ReadsEach item texts values) {budget : ℕ}
    (enough : items.length < budget) (reversed : List α) (rest : List Char) :
    readItems item budget false reversed (text ++ rest) =
      .ok (reversed.reverse ++ values, rest) := by
  induction laid generalizing budget reversed texts values with
  | close blank =>
    obtain ⟨budget, rfl⟩ := exists_budget enough
    obtain rfl := List.forall₂_nil_right_iff.mp each
    obtain rfl := List.forall₂_nil_left_iff.mp reads
    have closed : closeArray (']' :: rest) = .ok rest := closeArray_append blanks_nil rest
    simp [readItems, nextItem_close blank, closed]
  | @next blanks first text items blank more ih =>
    obtain ⟨budget, rfl⟩ := exists_budget enough
    obtain ⟨first', texts, laid, others, rfl⟩ := List.forall₂_cons_right_iff.mp each
    obtain ⟨value, values, ⟨starts, read⟩, reads', rfl⟩ := List.forall₂_cons_left_iff.mp reads
    have here := read (text ++ rest) (more.stopsNumber (.inl rfl) rest)
    have next := ih others reads' (Nat.succ_lt_succ_iff.mp enough) (value :: reversed)
    simp [readItems, nextItem_next blank laid starts, here, next]

/-- An array is read if its items are. -/
theorem reads_readList (laid : ArrayText texts text) (reads : ReadsEach item texts values) :
    Reads (readList item) ('[' :: text) values := by
  intro rest _
  obtain ⟨items, laid, each⟩ := laid
  have opened : skipBlank ('[' :: (text ++ rest)) = '[' :: (text ++ rest) := skipBlank_cons rfl _
  rw [List.cons_append, readList, opened]
  cases laid with
  | empty blank =>
    obtain rfl := List.forall₂_nil_right_iff.mp each
    obtain rfl := List.forall₂_nil_left_iff.mp reads
    have closed : closeArray (']' :: rest) = .ok rest := closeArray_append blanks_nil rest
    simp [readItems, nextItem_close blank, closed]
  | @items first text items more =>
    obtain ⟨first', texts, laid, others, rfl⟩ := List.forall₂_cons_right_iff.mp each
    obtain ⟨value, values, ⟨starts, read⟩, reads', rfl⟩ := List.forall₂_cons_left_iff.mp reads
    have here := read (text ++ rest) (more.stopsNumber (.inl rfl) rest)
    have enough : items.length < first.length + (text.length + rest.length) := by
      have := more.length_lt
      omega
    have next := readItems_continued more others reads' enough [value] rest
    simp [readItems, nextItem_first laid starts, here, next]

/-! ## Objects -/

theorem skipColon_append {blanks : List Char} (blank : Blanks blanks) (text : List Char) :
    skipColon (blanks ++ ':' :: text) = .ok text := by
  have colon : skipBlank (blanks ++ ':' :: text) = ':' :: text := by
    rw [skipBlank_append blank]
    exact skipBlank_cons rfl _
  simp [skipColon, colon]

theorem readKey_append {blanks key : List Char} {name : String} (blank : Blanks blanks)
    (literal : Literal name key) (rest : List Char) :
    readKey (blanks ++ (key ++ rest)) = .ok (name, rest) := by
  obtain ⟨inner, start, read⟩ := exists_readString literal rest
  have quote : skipBlank (blanks ++ (key ++ rest)) = '"' :: inner := by
    rw [skipBlank_append blank, start]
    exact skipBlank_cons rfl _
  simp [readKey, quote, read]

/-- The first key is where the object starts. -/
theorem nextKey_first {blanks key : List Char} {name : String} (blank : Blanks blanks)
    (literal : Literal name key) (rest : List Char) :
    nextKey true (blanks ++ (key ++ rest)) = .ok (some name, rest) := by
  obtain ⟨inner, start, read⟩ := exists_readString literal rest
  have quote : skipBlank (blanks ++ (key ++ rest)) = '"' :: inner := by
    rw [skipBlank_append blank, start]
    exact skipBlank_cons rfl _
  have again : skipBlank ('"' :: inner) = '"' :: inner := skipBlank_cons rfl _
  simp [nextKey, readKey, quote, again, read]

/-- Another key is behind a comma. -/
theorem nextKey_next {blanks before key : List Char} {name : String} (blank : Blanks blanks)
    (blank' : Blanks before) (literal : Literal name key) (rest : List Char) :
    nextKey false (blanks ++ ',' :: (before ++ (key ++ rest))) = .ok (some name, rest) := by
  have comma : skipBlank (blanks ++ ',' :: (before ++ (key ++ rest))) =
      ',' :: (before ++ (key ++ rest)) := by
    rw [skipBlank_append blank]
    exact skipBlank_cons rfl _
  simp [nextKey, comma, readKey_append blank' literal]

/-- No key is behind the last member. -/
theorem nextKey_close {blanks : List Char} (blank : Blanks blanks) (first : Bool)
    (rest : List Char) : nextKey first (blanks ++ '\x7d' :: rest) = .ok (none, rest) := by
  have brace : skipBlank (blanks ++ '\x7d' :: rest) = '\x7d' :: rest := by
    rw [skipBlank_append blank]
    exact skipBlank_cons rfl _
  simp [nextKey, brace]

/-- What stands behind the key of a member. -/
def ColonText (value text : List Char) : Prop :=
  ∃ behind between, Blanks behind ∧ Blanks between ∧ text = behind ++ ':' :: (between ++ value)

/-- A text that is passed over as a value. -/
def Skips (text : List Char) : Prop :=
  ∀ rest, StopsNumber rest → skipValue (text ++ rest) = .ok rest

variable {member : String → σ → Option (Reader σ)} {state state' : σ}

/-- A member leads from one state to another: its value is read, or passed over if its key is not
known. -/
def Takes (member : String → σ → Option (Reader σ)) (state : σ) (name : String)
    (value : List Char) (state' : σ) : Prop :=
  match member name state with
  | some read => ∀ text, ColonText value text → Reads read text state'
  | none => (∀ blanks, Blanks blanks → Skips (blanks ++ value)) ∧ state' = state

/-- Members lead from one state to another, one after the other, as far as the first that is
refused. -/
inductive Path (member : String → σ → Option (Reader σ)) :
    σ → List (String × List Char) → Except ReadError σ → Prop
  | nil {state : σ} : Path member state [] (.ok state)
  | cons {state state' : σ} {name : String} {value : List Char}
    {members : List (String × List Char)} {outcome : Except ReadError σ}
    (takes : Takes member state name value state') (others : Path member state' members outcome) :
    Path member state ((name, value) :: members) outcome
  | refused {state : σ} {name : String} {value : List Char}
    {members : List (String × List Char)} {read : Reader σ} {problem : ReadError}
    (known : member name state = some read)
    (refuses : ∀ text, ColonText value text → Refuses read text problem) :
    Path member state ((name, value) :: members) (.error problem)

variable {members : List (String × List Char)}

/-- A member moves from one state to another what has been read up to its key. -/
private theorem readMembersWithin_takes {name : String} {value behind between : List Char}
    {budget : ℕ} {first : Bool} (takes : Takes member state name value state')
    (blank : Blanks behind) (blank' : Blanks between) (stops : StopsNumber rest)
    (key : nextKey first text = .ok (some name, behind ++ ':' :: (between ++ value) ++ rest)) :
    readMembersWithin member (budget + 1) first state text =
      readMembersWithin member budget false state' rest := by
  rw [Takes] at takes
  cases known : member name state with
  | some read =>
    rw [known] at takes
    have here := takes _ ⟨behind, between, blank, blank', rfl⟩ rest stops
    rw [readMembersWithin, key, ok_bind]
    simp only [known, here, ok_bind]
  | none =>
    rw [known] at takes
    obtain ⟨skips, rfl⟩ := takes
    have here := skips between blank' rest stops
    rw [readMembersWithin, key, ok_bind]
    simp only [known, List.append_assoc, List.cons_append, skipColon_append blank, ok_bind]
    rw [← List.append_assoc, here, ok_bind]

private theorem readMembersWithin_refused {name : String} {value behind between : List Char}
    {budget : ℕ} {first : Bool} {read : Reader σ} {problem : ReadError}
    (known : member name state = some read)
    (refuses : ∀ text, ColonText value text → Refuses read text problem)
    (blank : Blanks behind) (blank' : Blanks between) (stops : StopsNumber rest)
    (key : nextKey first text = .ok (some name, behind ++ ':' :: (between ++ value) ++ rest)) :
    readMembersWithin member (budget + 1) first state text = .error problem := by
  have here := refuses _ ⟨behind, between, blank, blank', rfl⟩ rest stops
  rw [readMembersWithin, key, ok_bind]
  simp only [known, here]
  rfl

variable {outcome : Except ReadError σ}

private theorem readMembersWithin_continued (laid : Continued '\x7d' items text)
    (each : List.Forall₂ NamedText members items) (path : Path member state members outcome)
    {budget : ℕ} (enough : items.length < budget) (rest : List Char) :
    readMembersWithin member budget false state (text ++ rest) = outcome.map (·, rest) := by
  induction laid generalizing budget members state with
  | close blank =>
    obtain ⟨budget, rfl⟩ := exists_budget enough
    obtain rfl := List.forall₂_nil_right_iff.mp each
    cases path
    simp [readMembersWithin, nextKey_close blank, Except.map]
  | @next blanks first text items blank more ih =>
    obtain ⟨budget, rfl⟩ := exists_budget enough
    obtain ⟨⟨name, value⟩, members, named, others, rfl⟩ := List.forall₂_cons_right_iff.mp each
    obtain ⟨key, literal, before, behind, between, blank₁, blank₂, blank₃, rfl⟩ := named
    have stops := more.stopsNumber (.inr rfl) rest
    have named := nextKey_next blank blank₁ literal
      (behind ++ ':' :: (between ++ value) ++ (text ++ rest))
    cases path with
    | @cons _ state' _ _ _ _ takes path =>
      have next := ih others path (Nat.succ_lt_succ_iff.mp enough)
      refine Eq.trans ?_ next
      exact readMembersWithin_takes takes blank₂ blank₃ stops (by simpa using named)
    | refused known refuses =>
      exact readMembersWithin_refused known refuses blank₂ blank₃ stops (by simpa using named)

/-- An object is read along its members. -/
theorem readMembers_append (laid : MembersText members text)
    (path : Path member state members outcome) (rest : List Char) :
    readMembers member state (text ++ rest) = outcome.map (·, rest) := by
  obtain ⟨items, laid, each⟩ := laid
  rw [readMembers]
  cases laid with
  | empty blank =>
    obtain rfl := List.forall₂_nil_right_iff.mp each
    cases path
    simp [readMembersWithin, nextKey_close blank, Except.map]
  | @items first text items more =>
    obtain ⟨⟨name, value⟩, members, named, others, rfl⟩ := List.forall₂_cons_right_iff.mp each
    obtain ⟨key, literal, before, behind, between, blank₁, blank₂, blank₃, rfl⟩ := named
    have stops := more.stopsNumber (.inr rfl) rest
    have opened := nextKey_first blank₁ literal
      (behind ++ ':' :: (between ++ value) ++ (text ++ rest))
    cases path with
    | @cons _ state' _ _ _ _ takes path =>
      have enough : items.length <
          (before ++ (key ++ (behind ++ ':' :: (between ++ value))) ++ text ++ rest).length := by
        have := more.length_lt
        simp only [List.length_append]
        omega
      refine Eq.trans ?_ (readMembersWithin_continued more others path enough rest)
      exact readMembersWithin_takes takes blank₂ blank₃ stops (by simpa using opened)
    | refused known refuses =>
      exact readMembersWithin_refused known refuses blank₂ blank₃ stops (by simpa using opened)

end LinearAssignment.Json
