import LinearAssignment.Json.Lexeme
import LinearAssignment.Proofs.Decimal.Spelling

/-! # JSON texts

Which texts hold a JSON value: blanks wherever one likes between its parts, any escapes in its
strings, any spelling of its numbers, any values enclosed in one another to any depth. An array is
taken apart into the texts of its items, and an object into its names and the texts of their values.
-/

namespace LinearAssignment.Json

open Decimal (Spelling)

variable {α : Type} {closing : Char} {text rest : List Char} {items : List (List Char)}

/-! ## Blanks -/

/-- Some blanks, or none. -/
def Blanks (text : List Char) : Prop := ∀ c ∈ text, isBlank c = true

theorem blanks_nil : Blanks [] := nofun

/-! ## Strings -/

/-- Four hexadecimal digits. -/
inductive HexUnit : ℕ → List Char → Prop
  | digits {a b c d : Char} {w x y z : ℕ} (first : hexValue? a = some w)
    (second : hexValue? b = some x) (third : hexValue? c = some y) (fourth : hexValue? d = some z) :
    HexUnit (((w * 16 + x) * 16 + y) * 16 + z) [a, b, c, d]

/-- How characters are written between quotes: as they are, or behind a backslash. -/
inductive Quoted : List Char → List Char → Prop
  | nil : Quoted [] []
  | plain {c : Char} {cs text : List Char} (quote : c ≠ '"') (backslash : c ≠ '\\')
    (printed : 32 ≤ c.toNat) (others : Quoted cs text) : Quoted (c :: cs) (c :: text)
  | letter {c d : Char} {cs text : List Char} (known : escapeLetter? d = some c)
    (others : Quoted cs text) : Quoted (c :: cs) ('\\' :: d :: text)
  | unit {unit : ℕ} {digits cs text : List Char} (hex : HexUnit unit digits)
    (single : isLeading unit = false ∧ isTrailing unit = false) (others : Quoted cs text) :
    Quoted (Char.ofNat unit :: cs) ('\\' :: 'u' :: (digits ++ text))
  | pair {leading trailing : ℕ} {digits digits' cs text : List Char} (hex : HexUnit leading digits)
    (hex' : HexUnit trailing digits') (first : isLeading leading = true)
    (second : isTrailing trailing = true) (others : Quoted cs text) :
    Quoted (Char.ofNat ((leading - 0xD800) * 1024 + (trailing - 0xDC00) + 0x10000) :: cs)
      ('\\' :: 'u' :: (digits ++ '\\' :: 'u' :: (digits' ++ text)))

/-- A string between its quotes. -/
def Literal (value : String) (text : List Char) : Prop :=
  ∃ inner, text = '"' :: (inner ++ ['"']) ∧ Quoted value.toList inner

/-- What may stand between quotes, halves of surrogate pairs among it. -/
inductive StringText : List Char → Prop
  | nil : StringText []
  | plain {c : Char} {text : List Char} (quote : c ≠ '"') (backslash : c ≠ '\\')
    (printed : 32 ≤ c.toNat) (others : StringText text) : StringText (c :: text)
  | letter {c : Char} {text : List Char} (known : (escapeLetter? c).isSome = true)
    (others : StringText text) : StringText ('\\' :: c :: text)
  | unit {unit : ℕ} {digits text : List Char} (hex : HexUnit unit digits)
    (others : StringText text) : StringText ('\\' :: 'u' :: (digits ++ text))

/-- A string between quotes. -/
def QuotedText (text : List Char) : Prop :=
  ∃ inner, StringText inner ∧ text = '"' :: (inner ++ ['"'])

theorem Quoted.stringText {cs : List Char} (quoted : Quoted cs text) : StringText text := by
  induction quoted with
  | nil => exact .nil
  | plain quote backslash printed others ih => exact .plain quote backslash printed ih
  | letter known others ih => exact .letter (Option.isSome_iff_exists.mpr ⟨_, known⟩) ih
  | unit hex single others ih => exact .unit hex ih
  | pair hex hex' first second others ih => exact .unit hex (.unit hex' ih)

theorem Literal.quotedText {value : String} (literal : Literal value text) : QuotedText text := by
  obtain ⟨inner, rfl, quoted⟩ := literal
  exact ⟨inner, quoted.stringText, rfl⟩

/-! ## Arrays and objects -/

/-- What stands behind an item: the other items, each behind a comma, and the closing character. -/
inductive Continued (closing : Char) : List (List Char) → List Char → Prop
  | close {blanks : List Char} (blank : Blanks blanks) : Continued closing [] (blanks ++ [closing])
  | next {blanks item text : List Char} {items : List (List Char)} (blank : Blanks blanks)
    (more : Continued closing items text) :
    Continued closing (item :: items) (blanks ++ ',' :: (item ++ text))

/-- What stands behind an opening character: the items, with commas between them, and the closing
character. -/
inductive Enclosed (closing : Char) : List (List Char) → List Char → Prop
  | empty {blanks : List Char} (blank : Blanks blanks) : Enclosed closing [] (blanks ++ [closing])
  | items {item text : List Char} {items : List (List Char)} (more : Continued closing items text) :
    Enclosed closing (item :: items) (item ++ text)

/-- An item of an array: a value behind blanks. -/
def ItemText (value item : List Char) : Prop := ∃ blanks, Blanks blanks ∧ item = blanks ++ value

/-- A member of an object: a key, a colon and a value, with blanks between them. -/
def MemberText (key value item : List Char) : Prop :=
  ∃ before behind between, Blanks before ∧ Blanks behind ∧ Blanks between ∧
    item = before ++ (key ++ (behind ++ ':' :: (between ++ value)))

/-- The values of an array behind its opening bracket. -/
def ArrayText (values : List (List Char)) (text : List Char) : Prop :=
  ∃ items, Enclosed ']' items text ∧ List.Forall₂ ItemText values items

/-- The members of an object behind its opening brace, with their keys as they are written. -/
def ObjectText (members : List (List Char × List Char)) (text : List Char) : Prop :=
  ∃ items, Enclosed '\x7d' items text ∧
    List.Forall₂ (fun member item => MemberText member.1 member.2 item) members items

/-- A member, with the name that its key stands for. -/
def NamedText (member : String × List Char) (item : List Char) : Prop :=
  ∃ key, Literal member.1 key ∧ MemberText key member.2 item

/-- The members of an object behind its opening brace, with the names that their keys stand for. -/
def MembersText (members : List (String × List Char)) (text : List Char) : Prop :=
  ∃ items, Enclosed '\x7d' items text ∧ List.Forall₂ NamedText members items

/-! ## Values -/

/-- The text of `null`. -/
abbrev nullText : List Char := ['n', 'u', 'l', 'l']

/-- The text of a JSON value. -/
inductive JsonText : List Char → Prop
  | null : JsonText nullText
  | true : JsonText ['t', 'r', 'u', 'e']
  | false : JsonText ['f', 'a', 'l', 's', 'e']
  | number {spelling : Spelling} (valid : spelling.Valid) : JsonText spelling.text
  | string {text : List Char} (quoted : QuotedText text) : JsonText text
  | array {values : List (List Char)} {text : List Char} (laid : ArrayText values text)
    (each : ∀ value ∈ values, JsonText value) : JsonText ('[' :: text)
  | object {members : List (List Char × List Char)} {text : List Char}
    (laid : ObjectText members text) (keys : ∀ member ∈ members, QuotedText member.1)
    (each : ∀ member ∈ members, JsonText member.2) : JsonText ('\x7b' :: text)

private theorem exists_keys {members : List (String × List Char)}
    (named : List.Forall₂ NamedText members items) (each : ∀ member ∈ members, JsonText member.2) :
    ∃ keyed : List (List Char × List Char),
      List.Forall₂ (fun member item => MemberText member.1 member.2 item) keyed items ∧
      ∀ member ∈ keyed, QuotedText member.1 ∧ JsonText member.2 := by
  induction named with
  | nil => exact ⟨[], .nil, nofun⟩
  | @cons member item members items first others ih =>
    obtain ⟨keyed, laid, held⟩ := ih fun other inside => each other (List.mem_cons_of_mem _ inside)
    obtain ⟨key, literal, written⟩ := first
    exact ⟨(key, member.2) :: keyed, .cons written laid,
      List.forall_mem_cons.mpr ⟨⟨literal.quotedText, each member List.mem_cons_self⟩, held⟩⟩

/-- An object of JSON values is one. -/
theorem JsonText.of_members {members : List (String × List Char)} (laid : MembersText members text)
    (each : ∀ member ∈ members, JsonText member.2) : JsonText ('\x7b' :: text) := by
  obtain ⟨items, enclosed, named⟩ := laid
  obtain ⟨keyed, laid, held⟩ := exists_keys named each
  exact .object ⟨items, enclosed, laid⟩ (fun member inside => (held member inside).1)
    fun member inside => (held member inside).2

/-! ## Starts -/

/-- A text that starts as a value does. -/
def StartsValue (text : List Char) : Prop :=
  ∃ c others, text = c :: others ∧ isBlank c = false ∧ c ≠ ',' ∧ c ≠ ']' ∧ c ≠ '\x7d'

theorem StartsValue.of_isDigit {c : Char} (digit : c.isDigit = true) (others : List Char) :
    StartsValue (c :: others) := by
  refine ⟨c, others, rfl, ?_, ?_, ?_, ?_⟩
  · rw [← Bool.not_eq_true]
    intro blank
    simp only [isBlank, Bool.or_eq_true, decide_eq_true_eq] at blank
    rcases blank with ((rfl | rfl) | rfl) | rfl <;> contradiction
  all_goals rintro rfl; contradiction

/-- A number starts with a minus or a digit. -/
theorem exists_start {spelling : Decimal.Spelling} (valid : spelling.Valid) :
    ∃ c others, spelling.text = c :: others ∧ (c = '-' ∨ c.isDigit = true) := by
  obtain ⟨c, digits, whole, digit⟩ := valid.exists_whole
  rw [Decimal.Spelling.text, Decimal.Spelling.unsigned, whole]
  cases spelling.negative with
  | true => exact ⟨'-', _, rfl, .inl rfl⟩
  | false => exact ⟨c, _, rfl, .inr digit⟩

theorem startsValue_number {spelling : Decimal.Spelling} (valid : spelling.Valid) :
    StartsValue spelling.text := by
  obtain ⟨c, others, start, rfl | digit⟩ := exists_start valid
  · exact ⟨_, others, start, by decide⟩
  · exact start ▸ .of_isDigit digit others

theorem JsonText.startsValue (json : JsonText text) : StartsValue text := by
  cases json with
  | null => exact ⟨_, _, rfl, by decide⟩
  | true => exact ⟨_, _, rfl, by decide⟩
  | false => exact ⟨_, _, rfl, by decide⟩
  | number valid => exact startsValue_number valid
  | string quoted =>
    obtain ⟨inner, _, rfl⟩ := quoted
    exact ⟨_, _, rfl, by decide⟩
  | array laid each => exact ⟨_, _, rfl, by decide⟩
  | object laid keys each => exact ⟨_, _, rfl, by decide⟩

/-- Only `null` starts with its first letter. -/
theorem JsonText.head_ne (json : JsonText text) (present : text ≠ nullText) {c : Char}
    {others : List Char} (start : text = c :: others) : c ≠ 'n' := by
  rintro rfl
  cases json with
  | null => exact present rfl
  | true | false | array | object => exact absurd (List.cons.inj start).1 (by decide)
  | number valid =>
    obtain ⟨c, others', start', sort⟩ := exists_start valid
    obtain ⟨rfl, _⟩ := List.cons.inj (start.symm.trans start')
    revert sort
    decide
  | string quoted =>
    obtain ⟨inner, _, rfl⟩ := quoted
    exact absurd (List.cons.inj start).1 (by decide)

/-! ## Ends -/

/-- A text that does not go on with a number. -/
def StopsNumber (text : List Char) : Prop :=
  ∀ c ∈ text.head?, c.isDigit = false ∧ c ≠ '.' ∧ c ≠ 'e' ∧ c ≠ 'E'

private theorem stopsNumber_isBlank {c : Char} (blank : isBlank c = true) (rest : List Char) :
    StopsNumber (c :: rest) := by
  rintro d ⟨⟩
  simp only [isBlank, Bool.or_eq_true, decide_eq_true_eq] at blank
  rcases blank with ((rfl | rfl) | rfl) | rfl <;> decide

/-- No number goes on behind blanks and a comma or a closing character. -/
theorem stopsNumber_append {blanks : List Char} (blank : Blanks blanks)
    (stops : StopsNumber rest) : StopsNumber (blanks ++ rest) := by
  cases blanks with
  | nil => exact stops
  | cons c blanks => exact stopsNumber_isBlank (blank c List.mem_cons_self) _

theorem Continued.stopsNumber (laid : Continued closing items text)
    (closes : closing = ']' ∨ closing = '\x7d') (rest : List Char) :
    StopsNumber (text ++ rest) := by
  cases laid with
  | close blank =>
    rw [List.append_assoc]
    refine stopsNumber_append blank ?_
    rintro c ⟨⟩
    rcases closes with rfl | rfl <;> decide
  | next blank more =>
    rw [List.append_assoc]
    refine stopsNumber_append blank ?_
    rintro c ⟨⟩
    decide

/-- Every item but the first is behind a comma, and one character closes. -/
theorem Continued.length_lt (laid : Continued closing items text) : items.length < text.length := by
  induction laid with
  | close blank => simp
  | next blank more ih =>
    simp only [List.length_cons, List.length_append]
    omega

/-! ## Readers -/

/-- What a reader makes of a text, whatever follows that: a value, behind which it stops, or a
refusal. -/
def Yields (read : Reader α) (text : List Char) (outcome : Except ReadError α) : Prop :=
  ∀ rest, StopsNumber rest → read (text ++ rest) = outcome.map (·, rest)

/-- A reader makes one thing of a text. -/
theorem Yields.unique {read : Reader α} {outcome outcome' : Except ReadError α}
    (yields : Yields read text outcome) (yields' : Yields read text outcome') :
    outcome = outcome' := by
  have same := (yields [] nofun).symm.trans (yields' [] nofun)
  cases outcome with
  | ok value =>
    cases outcome' with
    | ok value' => exact congrArg Except.ok (Prod.mk.inj (Except.ok.inj same)).1
    | error problem' => cases same
  | error problem =>
    cases outcome' with
    | ok value' => cases same
    | error problem' => exact congrArg Except.error (Except.error.inj same)

end LinearAssignment.Json
