import CypherSql.Expansion
import CypherSql.Proofs.Outcome
import Mathlib.Data.List.TakeDrop
import Mathlib.Data.List.TakeWhile

/-! What a relationship with a hop range looks like in the text, and which of them a scan from the
left finds.
-/

namespace CypherSql.Expansion

open Text

/-- Every character of the text is a blank. -/
def AllBlank (s : List Char) : Prop :=
  ∀ c ∈ s, isBlank c

/-- A text is the blanks at its start and what follows them. -/
theorem exists_skipBlanks (s : List Char)
    : ∃ blanks, AllBlank blanks ∧ s = blanks ++ skipBlanks s :=
  ⟨s.takeWhile isBlank, fun _ member => List.mem_takeWhile_imp member,
    List.takeWhile_append_dropWhile.symm⟩

theorem after?_eq_some {text : String} {s rest : List Char} (found : after? text s = some rest)
    : s = text.toList ++ rest := by
  unfold after? at found
  split at found
  · rename_i opens
    cases found
    obtain ⟨more, rfl⟩ := List.isPrefixOf_iff_prefix.mp opens
    simp [← String.length_toList]
  · cases found

theorem splitName_eq {s rest : List Char} {name : Option (List Char)}
    (split : splitName s = (name, rest))
    : s = name.getD [] ++ rest ∧ ∀ c ∈ name.getD [], isPlainChar c := by
  unfold splitName at split
  split at split
  · split at split
    · cases split
      exact ⟨List.takeWhile_append_dropWhile.symm, fun _ member => List.mem_takeWhile_imp member⟩
    · cases split
      simp
  · cases split
    simp

theorem splitDigits_eq {s rest : List Char} {digits : Option (List Char)}
    (split : splitDigits s = (digits, rest))
    : s = digits.getD [] ++ rest
      ∧ (∀ text, digits = some text → text ≠ [])
      ∧ ∀ c, rest.head? = some c → isDecimalDigit c = false := by
  have ends : ∀ c, (s.dropWhile isDecimalDigit).head? = some c → isDecimalDigit c = false := by
    intro c head
    have no := List.head?_dropWhile_not isDecimalDigit s
    rw [head] at no
    simpa using no
  have whole := List.takeWhile_append_dropWhile (p := isDecimalDigit) (l := s)
  unfold splitDigits at split
  rw [List.span_eq_takeWhile_dropWhile] at split
  cases taken : s.takeWhile isDecimalDigit with
  | nil =>
      rw [taken] at split whole
      cases split
      rw [List.nil_append] at whole
      rw [whole] at ends
      exact ⟨rfl, by simp, ends⟩
  | cons digit more =>
      rw [taken] at split whole
      cases split
      exact ⟨whole.symm, by simp, ends⟩

theorem splitTypes_eq {s types rest : List Char} (split : splitTypes s = (types, rest))
    : s = types ++ rest
      ∧ (∀ c ∈ types, isTypeChar c)
      ∧ (types = [] ∧ (∀ more, s ≠ ':' :: more)
          ∨ (∃ body, types = ':' :: body)
            ∧ ∀ c, rest.head? = some c → isTypeChar c = false) := by
  unfold splitTypes at split
  split at split
  · rename_i more
    cases split
    refine ⟨by simp [List.takeWhile_append_dropWhile], ?_, .inr ⟨⟨_, rfl⟩, ?_⟩⟩
    · intro c member
      rcases List.mem_cons.mp member with rfl | inside
      · rfl
      · exact List.mem_takeWhile_imp inside
    · intro c head
      have no := List.head?_dropWhile_not isTypeChar more
      rw [head] at no
      simpa using no
  · rename_i none
    cases split
    refine ⟨rfl, by simp, .inl ⟨rfl, ?_⟩⟩
    rintro more rfl
    exact none more rfl

theorem splitProperties?_eq_some {s rest : List Char} {properties : Option (List Char)}
    (split : splitProperties? s = some (properties, rest))
    : s = properties.getD [] ++ rest
      ∧ (properties = none ∧ (∀ more, s ≠ '\x7b' :: more)
          ∨ ∃ inner, properties = some ('\x7b' :: inner ++ ['\x7d']) ∧ '\x7d' ∉ inner) := by
  unfold splitProperties? at split
  split at split
  · rename_i more
    split at split
    · rename_i ends
      cases split
      have whole := List.takeWhile_append_dropWhile (p := (· != '\x7d')) (l := more)
      rw [ends] at whole
      refine ⟨by simp [whole], .inr ⟨_, rfl, ?_⟩⟩
      intro member
      simpa using List.mem_takeWhile_imp member
    · cases split
  · rename_i none
    cases split
    refine ⟨rfl, .inl ⟨rfl, ?_⟩⟩
    rintro more rfl
    exact none more rfl

theorem splitLeftEnd?_eq_some {s left rest : List Char}
    (split : splitLeftEnd? s = some (left, rest))
    : s = left ++ '[' :: rest ∧ (left = ['<', '-'] ∨ left = ['-']) := by
  unfold splitLeftEnd? at split
  split at split
  · cases split
    simp
  · cases split
    simp
  · cases split

theorem splitRightEnd?_eq_some {s right rest : List Char}
    (split : splitRightEnd? s = some (right, rest))
    : s = ']' :: right ++ rest
      ∧ (right = ['-', '>'] ∨ right = ['-'] ∧ ∀ more, rest ≠ '>' :: more) := by
  unfold splitRightEnd? at split
  split at split
  · cases split
    simp
  · rename_i none
    cases split
    refine ⟨rfl, .inr ⟨rfl, ?_⟩⟩
    rintro more rfl
    exact none more rfl
  · cases split

/-- The blanks between the parts of a segment, from its opening bracket to its closing one. -/
structure Blanks where
  beforeName : List Char
  beforeTypes : List Char
  beforeStar : List Char
  beforeLeast : List Char
  beforePoints : List Char
  beforeMost : List Char
  beforeProperties : List Char
  beforeEnd : List Char

namespace Segment

variable (segment : Segment) (blanks : Blanks)

/-- What stands between the opening bracket and the star. -/
def opening : List Char :=
  blanks.beforeName ++ segment.name.getD [] ++ blanks.beforeTypes ++ segment.types
    ++ blanks.beforeStar

/-- The upper bound as written. -/
def upperBound : List Char :=
  segment.most.elim [] fun digits => '.' :: '.' :: blanks.beforeMost ++ digits.getD []

/-- What stands between the star and the closing bracket. -/
def afterStar : List Char :=
  blanks.beforeLeast ++ segment.least.getD [] ++ blanks.beforePoints ++ segment.upperBound blanks
    ++ blanks.beforeProperties ++ segment.properties.getD [] ++ blanks.beforeEnd

/-- The whole segment. -/
def text : List Char :=
  segment.left ++ '[' :: segment.opening blanks ++ '*' :: segment.afterStar blanks
    ++ ']' :: segment.right

/-- The parts of a segment make up its text, and what follows it is `rest`. -/
structure Spelled (segment : Segment) (blanks : Blanks) (rest : List Char) : Prop where
  pattern : segment.pattern = segment.text blanks
  left : segment.left = ['<', '-'] ∨ segment.left = ['-']
  right : segment.right = ['-', '>'] ∨ segment.right = ['-'] ∧ ∀ more, rest ≠ '>' :: more
  name : ∀ c ∈ segment.name.getD [], isPlainChar c
  typeChars : ∀ c ∈ segment.types, isTypeChar c
  types : segment.types = [] ∨ ∃ body, segment.types = ':' :: body
  properties
    : ∀ text,
        segment.properties = some text
        → ∃ inner, text = '\x7b' :: inner ++ ['\x7d'] ∧ '\x7d' ∉ inner
  blank
    : ∀ text ∈ [blanks.beforeName, blanks.beforeTypes, blanks.beforeStar, blanks.beforeLeast,
        blanks.beforePoints, blanks.beforeMost, blanks.beforeProperties, blanks.beforeEnd],
        AllBlank text

end Segment

/-- The upper bound at the start of a text with the blanks after its two points. -/
theorem splitUpperBound_eq {s rest : List Char} {most : Option (Option (List Char))}
    (split : splitUpperBound s = (most, rest))
    : ∃ blanks, AllBlank blanks
        ∧ s = (most.elim [] fun digits => '.' :: '.' :: blanks ++ digits.getD []) ++ rest := by
  unfold splitUpperBound at split
  split at split
  · rename_i more points
    obtain ⟨blanks, blank, skipped⟩ := exists_skipBlanks more
    rcases digits : splitDigits (skipBlanks more) with ⟨count, left⟩
    rw [digits] at split
    cases split
    refine ⟨blanks, blank, ?_⟩
    rw [after?_eq_some points, skipped, (splitDigits_eq digits).1]
    simp
  · cases split
    exact ⟨[], by simp [AllBlank], rfl⟩

/-- A segment that is found stands at the start of the text in its parts. -/
theorem segment?_eq_some {s rest : List Char} {segment : Segment}
    (found : segment? s = some (segment, rest))
    : s = segment.pattern ++ rest ∧ ∃ blanks, segment.Spelled blanks rest := by
  simp only [segment?, Option.bind_eq_bind, Option.bind_eq_some_iff, Option.pure_def] at found
  obtain ⟨⟨left, afterLeft⟩, leftEnd, starred, star, ⟨properties, afterProperties⟩, map,
    ⟨right, afterRight⟩, rightEnd, same⟩ := found
  dsimp only at star map rightEnd same
  cases same
  obtain ⟨beforeName, blankName, skipName⟩ := exists_skipBlanks afterLeft
  rcases readName : splitName (skipBlanks afterLeft) with ⟨name, afterName⟩
  obtain ⟨beforeTypes, blankTypes, skipTypes⟩ := exists_skipBlanks afterName
  rcases readTypes : splitTypes (skipBlanks afterName) with ⟨types, afterTypes⟩
  obtain ⟨beforeStar, blankStar, skipStar⟩ := exists_skipBlanks afterTypes
  obtain ⟨beforeLeast, blankLeast, skipLeast⟩ := exists_skipBlanks starred
  rcases readLeast : splitDigits (skipBlanks starred) with ⟨least, afterLeast⟩
  obtain ⟨beforePoints, blankPoints, skipPoints⟩ := exists_skipBlanks afterLeast
  rcases readMost : splitUpperBound (skipBlanks afterLeast) with ⟨most, afterMost⟩
  obtain ⟨beforeMost, blankMost, upper⟩ := splitUpperBound_eq readMost
  obtain ⟨beforeProperties, blankProperties, skipProperties⟩ := exists_skipBlanks afterMost
  obtain ⟨beforeEnd, blankEnd, skipEnd⟩ := exists_skipBlanks afterProperties
  simp only [readName, readTypes, readLeast, readMost] at star map ⊢
  obtain ⟨named, plain⟩ := splitName_eq readName
  obtain ⟨typed, typeChars, colon⟩ := splitTypes_eq readTypes
  obtain ⟨mapped, closed⟩ := splitProperties?_eq_some map
  obtain ⟨ended, rightCases⟩ := splitRightEnd?_eq_some rightEnd
  obtain ⟨started, leftCases⟩ := splitLeftEnd?_eq_some leftEnd
  let blanks : Blanks := ⟨beforeName, beforeTypes, beforeStar, beforeLeast, beforePoints,
    beforeMost, beforeProperties, beforeEnd⟩
  generalize isPattern : s.take (s.length - rest.length) = pattern
  let segment : Segment := { pattern, left, name, types, least, most, properties, right }
  have whole : s = segment.text blanks ++ rest := by
    rw [started, skipName, named, skipTypes, typed, skipStar, after?_eq_some star, skipLeast,
      (splitDigits_eq readLeast).1, skipPoints, upper, skipProperties, mapped, skipEnd, ended]
    simp [Segment.text, Segment.opening, Segment.afterStar, Segment.upperBound, segment, blanks]
  have taken : pattern = segment.text blanks := by
    rw [← isPattern, whole, List.length_append, Nat.add_sub_cancel, List.take_left]
  refine ⟨taken ▸ whole, blanks,
    { pattern := taken
      left := leftCases
      right := rightCases
      name := plain
      typeChars
      types := colon.imp (·.1) (·.1)
      properties := ?_
      blank := by simp [blanks, *] }⟩
  rintro text rfl
  rcases closed with ⟨impossible, _⟩ | ⟨inner, same, inside⟩
  · cases impossible
  · exact ⟨inner, Option.some.inj same, inside⟩

/-- A segment takes at least one character. -/
theorem length_lt_of_segment? {s rest : List Char} {segment : Segment}
    (found : segment? s = some (segment, rest))
    : rest.length < s.length := by
  obtain ⟨whole, blanks, spelled⟩ := segment?_eq_some found
  rw [whole, spelled.pattern, Segment.text]
  simp
  omega

theorem isTypeChar_iff {c : Char} : isTypeChar c ↔ c ≠ '*' ∧ c ≠ ']' ∧ c ≠ '\x7b' := by
  simp [isTypeChar, and_assoc]

theorem isTypeChar_of_isBlank {c : Char} (blank : isBlank c) : isTypeChar c := by
  rw [isTypeChar_iff]
  refine ⟨?_, ?_, ?_⟩ <;> rintro rfl <;> revert blank <;> decide

theorem isTypeChar_of_isPlainChar {c : Char} (plain : isPlainChar c) : isTypeChar c := by
  rw [isTypeChar_iff]
  refine ⟨?_, ?_, ?_⟩ <;> rintro rfl <;> revert plain <;> decide

/-- What stands before the star holds no star, bracket or brace. -/
theorem Segment.Spelled.isTypeChar_of_mem_opening {segment : Segment} {blanks : Blanks}
    {rest : List Char} (spelled : segment.Spelled blanks rest) {c : Char}
    (member : c ∈ segment.opening blanks)
    : isTypeChar c := by
  have blank := spelled.blank
  simp only [List.forall_mem_cons] at blank
  simp only [Segment.opening, List.mem_append] at member
  rcases member with (((name | named) | types) | typed) | star
  · exact isTypeChar_of_isBlank (blank.1 c name)
  · exact isTypeChar_of_isPlainChar (spelled.name c named)
  · exact isTypeChar_of_isBlank (blank.2.1 c types)
  · exact spelled.typeChars c typed
  · exact isTypeChar_of_isBlank (blank.2.2.1 c star)

/-- A scan from the left takes the first segment it comes to, and goes on after it. -/
inductive Scan : List Char → List (List Char × Segment) → List Char → Prop
  | done {s} (none : ∀ before rest, s = before ++ rest → segment? rest = none) : Scan s [] s
  | found {gap text rest segment parts tail}
    (none : ∀ before after, gap = before ++ after → after ≠ [] → segment? (after ++ text) = none)
    (read : segment? text = some (segment, rest))
    (later : Scan rest parts tail)
    : Scan (gap ++ text) ((gap, segment) :: parts) tail

namespace Scan

/-- A character at which no segment starts is passed over. -/
theorem cons {s parts tail} (scan : Scan s parts tail) {c : Char}
    (none : segment? (c :: s) = none)
    : Scan (c :: s) (Cut.cons c ⟨parts, tail⟩).parts (Cut.cons c ⟨parts, tail⟩).tail := by
  cases scan with
  | done later =>
      refine .done fun before rest split => ?_
      cases before with
      | nil =>
          rw [List.nil_append] at split
          exact split ▸ none
      | cons first before => exact later before rest (List.cons.inj split).2
  | found earlier read later =>
      rw [← List.cons_append]
      refine .found ?_ read later
      intro before after split some
      cases before with
      | nil =>
          rw [List.nil_append] at split
          exact split ▸ none
      | cons first before => exact earlier before after (List.cons.inj split).2 some

/-- Cutting a text is a scan, by induction over the steps. -/
theorem of_cutWithin {steps : Nat} {s : List Char} (enough : s.length ≤ steps)
    : Scan s (cutWithin steps s).parts (cutWithin steps s).tail := by
  induction steps generalizing s with
  | zero =>
      have empty := List.length_eq_zero_iff.mp (Nat.le_zero.mp enough)
      subst empty
      exact .done (by simp [segment?, splitLeftEnd?])
  | succ steps ih =>
      cases s with
      | nil => exact .done (by simp [segment?, splitLeftEnd?])
      | cons c rest =>
          cases read : segment? (c :: rest) with
          | none =>
              have step : cutWithin (steps + 1) (c :: rest) = (cutWithin steps rest).cons c := by
                simp [cutWithin, read]
              rw [step]
              exact (ih (by simpa using enough)).cons read
          | some result =>
              obtain ⟨segment, after⟩ := result
              have shorter := length_lt_of_segment? read
              have step : cutWithin (steps + 1) (c :: rest) =
                  ⟨([], segment) :: (cutWithin steps after).parts,
                    (cutWithin steps after).tail⟩ := by
                simp [cutWithin, read]
              rw [step, ← List.nil_append (c :: rest)]
              refine .found ?_ read (ih (by simp at enough shorter; omega))
              intro before after split some
              simp at split
              exact absurd split.2 some

theorem of_cut (s : List Char) : Scan s (cut s).parts (cut s).tail :=
  of_cutWithin (Nat.le_refl _)

/-- There is one scan of a text: of two gaps before a first segment neither can be the longer. -/
theorem unique {s parts tail parts' tail'} (scan : Scan s parts tail) (other : Scan s parts' tail')
    : parts = parts' ∧ tail = tail' := by
  induction scan generalizing parts' tail' with
  | done none =>
      cases other with
      | done => exact ⟨rfl, rfl⟩
      | found _ read _ => simp [none _ _ rfl] at read
  | @found gap text rest segment parts tail none read later ih =>
      generalize whole : gap ++ text = s at other
      cases other with
      | done none' => simp [none' gap text whole.symm] at read
      | @found gap' text' rest' segment' parts' tail' none' read' later' =>
          have same : gap = gap' ∧ text = text' := by
            rcases List.append_eq_append_iff.mp whole with ⟨more, rfl, rfl⟩ | ⟨more, rfl, rfl⟩
            · cases more with
              | nil => simp
              | cons c more => cases (none' gap (c :: more) rfl (by simp)).symm.trans read
            · cases more with
              | nil => simp
              | cons c more => cases (none gap' (c :: more) rfl (by simp)).symm.trans read'
          obtain ⟨rfl, rfl⟩ := same
          cases read.symm.trans read'
          obtain ⟨rfl, rfl⟩ := ih later'
          exact ⟨rfl, rfl⟩

/-- A scan leaves nothing out. -/
theorem source_eq {s parts tail} (scan : Scan s parts tail)
    : s = parts.flatMap (fun part => part.1 ++ part.2.pattern) ++ tail := by
  induction scan with
  | done => simp
  | found none read later ih =>
      rw [(segment?_eq_some read).1]
      simpa using ih

end Scan

end CypherSql.Expansion
