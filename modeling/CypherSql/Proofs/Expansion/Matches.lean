import CypherSql.Proofs.Expansion.Segments
import Mathlib.Data.List.DropRight

/-! The pattern of a relationship with a hop range as a set of texts, and its leftmost matches in a
text. They are what a scan from the left finds.
-/

namespace CypherSql.Expansion

open Text

/-- A number is one digit or more. -/
def IsNumber (digits : List Char) : Prop :=
  digits ≠ [] ∧ ∀ c ∈ digits, isDecimalDigit c

/-- A plain name opens with a letter or underscore. -/
def OpensPlain (name : List Char) : Prop :=
  ∃ c more, name = c :: more ∧ isPlainStart c

namespace Segment

/-- The parts of a segment are spelled as the pattern asks, with no blanks at the end of its types.
-/
structure Matches (segment : Segment) (blanks : Blanks) (rest : List Char) : Prop
    extends segment.Spelled blanks rest where
  nameStart : ∀ name, segment.name = some name → OpensPlain name
  typesEnd : trimEnd segment.types = segment.types
  least : ∀ digits, segment.least = some digits → IsNumber digits
  most : ∀ digits, segment.most = some (some digits) → IsNumber digits

/-- The pattern matches at the start of the text, with these parts and with this rest. -/
def MatchesAt (segment : Segment) (s rest : List Char) : Prop :=
  s = segment.pattern ++ rest ∧ ∃ blanks, segment.Matches blanks rest

/-- The segment with the blanks after its types left to the blanks before its star. -/
def trimmed (segment : Segment) : Segment :=
  { segment with types := trimEnd segment.types }

end Segment

/-- The leftmost matches of the pattern that do not overlap, each with the text before it, and the
text after the last.
-/
inductive LeftmostMatches : List Char → List (List Char × Segment) → List Char → Prop
  | done {s}
    (none : ∀ before after, s = before ++ after → ∀ segment rest,
      ¬Segment.MatchesAt segment after rest)
    : LeftmostMatches s [] s
  | found {gap text rest segment parts tail}
    (none
      : ∀ before after,
          gap = before ++ after
          → after ≠ []
          → ∀ other rest, ¬Segment.MatchesAt other (after ++ text) rest)
    (here : Segment.MatchesAt segment text rest)
    (later : LeftmostMatches rest parts tail)
    : LeftmostMatches (gap ++ text) ((gap, segment) :: parts) tail

/-- A text is its trimmed form and blanks. -/
theorem exists_trimEnd (s : List Char) : ∃ blanks, AllBlank blanks ∧ s = trimEnd s ++ blanks := by
  refine ⟨(s.reverse.takeWhile isBlank).reverse, ?_, ?_⟩
  · intro c member
    exact List.mem_takeWhile_imp (List.mem_reverse.mp member)
  · rw [trimEnd, ← List.reverse_append, List.takeWhile_append_dropWhile, List.reverse_reverse]

theorem trimEnd_trimEnd (s : List Char) : trimEnd (trimEnd s) = trimEnd s :=
  List.rdropWhile_idempotent isBlank s

/-- The first character stays where it is no blank. -/
theorem trimEnd_cons {c : Char} (visible : isBlank c = false) (s : List Char)
    : trimEnd (c :: s) = c :: trimEnd s := by
  rw [trimEnd, trimEnd, List.reverse_cons, List.dropWhile_append]
  split
  · rename_i empty
    simp [List.isEmpty_iff.mp empty, visible]
  · simp

theorem opensPlain_splitName {s name : List Char} (split : (splitName s).1 = some name)
    : OpensPlain name := by
  unfold splitName at split
  split at split
  · rename_i c rest
    split at split
    · rename_i starts
      have plain : isPlainChar c := by
        simp only [isPlainStart, Bool.or_eq_true] at starts
        simp only [isPlainChar, Char.isAlphanum, Bool.or_eq_true]
        exact starts.imp_left .inl
      obtain rfl := Option.some.inj split
      exact ⟨c, rest.takeWhile isPlainChar, by simp [plain], starts⟩
    · cases split
  · cases split

theorem isNumber_splitDigits {s digits : List Char} (split : (splitDigits s).1 = some digits)
    : IsNumber digits := by
  unfold splitDigits at split
  rw [List.span_eq_takeWhile_dropWhile] at split
  split at split
  · cases split
  · rename_i taken rest notEmpty same
    obtain rfl := Option.some.inj split
    obtain ⟨taken, -⟩ := Prod.mk.inj same
    refine ⟨fun empty => notEmpty (by rw [empty]), fun c member => ?_⟩
    rw [← taken] at member
    exact List.mem_takeWhile_imp member

theorem isNumber_splitUpperBound {s digits : List Char}
    (split : (splitUpperBound s).1 = some (some digits))
    : IsNumber digits := by
  unfold splitUpperBound at split
  split at split
  · exact isNumber_splitDigits (Option.some.inj split)
  · cases split

/-- The numbers of a segment that is read are numbers, and its name is one. -/
theorem segment?_words {s rest : List Char} {segment : Segment}
    (found : segment? s = some (segment, rest))
    : (∀ name, segment.name = some name → OpensPlain name)
      ∧ (∀ digits, segment.least = some digits → IsNumber digits)
      ∧ ∀ digits, segment.most = some (some digits) → IsNumber digits := by
  simp only [segment?, Option.bind_eq_bind, Option.bind_eq_some_iff, Option.pure_def] at found
  obtain ⟨_, _, _, _, _, _, _, _, same⟩ := found
  cases same
  exact ⟨fun name => opensPlain_splitName, fun digits => isNumber_splitDigits,
    fun digits => isNumber_splitUpperBound⟩

/-- A segment that is read matches the pattern. -/
theorem matchesAt_of_segment? {s rest : List Char} {segment : Segment}
    (found : segment? s = some (segment, rest))
    : segment.trimmed.MatchesAt s rest := by
  obtain ⟨whole, blanks, spelled⟩ := segment?_eq_some found
  obtain ⟨nameStart, least, most⟩ := segment?_words found
  obtain ⟨ending, blank, types⟩ := exists_trimEnd segment.types
  have kept : ∀ c ∈ trimEnd segment.types, c ∈ segment.types := by
    intro c member
    rw [types]
    exact List.mem_append_left _ member
  have sameText : segment.trimmed.text { blanks with beforeStar := ending ++ blanks.beforeStar }
      = segment.text blanks := by
    simp only [Segment.text, Segment.opening, Segment.trimmed, Segment.afterStar,
      Segment.upperBound]
    conv => rhs; rw [types]
    simp
  refine ⟨whole, { blanks with beforeStar := ending ++ blanks.beforeStar },
    { pattern := spelled.pattern.trans sameText.symm
      left := spelled.left
      right := spelled.right
      name := spelled.name
      typeChars := fun c member => spelled.typeChars c (kept c member)
      types := ?_
      properties := spelled.properties
      blank := ?_
      nameStart
      typesEnd := trimEnd_trimEnd _
      least
      most }⟩
  · rcases spelled.types with empty | ⟨body, opens⟩
    · left
      simp [Segment.trimmed, empty, trimEnd]
    · exact .inr
        ⟨trimEnd
        body, by simp [Segment.trimmed, opens, trimEnd_cons (show isBlank ':' = false from rfl)]⟩
  · have blanks := spelled.blank
    simp only [List.forall_mem_cons] at blanks ⊢
    refine ⟨blanks.1, blanks.2.1, ?_, blanks.2.2.2⟩
    intro c member
    exact (List.mem_append.mp member).elim (blank c) (blanks.2.2.1 c)

theorem skipBlanks_append {blanks : List Char} (blank : AllBlank blanks) (s : List Char)
    : skipBlanks (blanks ++ s) = skipBlanks s :=
  List.dropWhile_append_of_pos blank

theorem skipBlanks_of_visible {s : List Char} (visible : ∀ c ∈ s.head?, isBlank c = false)
    : skipBlanks s = s := by
  cases s with
  | nil => rfl
  | cons c s =>
      have visible : isBlank c = false := by simpa using visible
      simp [skipBlanks, visible]

theorem isPlainChar_of_isBlank {c : Char} (blank : isBlank c) : isPlainChar c = false := by
  rw [isPlainChar, isAlphanum_of_isBlank blank, Bool.false_or, decide_eq_false_iff_not]
  rintro rfl
  cases blank

theorem isPlainChar_of_isDigit {c : Char} (digit : c.isDigit) : isPlainChar c := by
  simp [isPlainChar, Char.isAlphanum, digit]

theorem isDecimalDigit_of_isBlank {c : Char} (blank : isBlank c) : isDecimalDigit c = false := by
  unfold isDecimalDigit
  split
  · refine Bool.eq_false_iff.mpr fun digit => ?_
    exact absurd (isPlainChar_of_isDigit digit) (by simp [isPlainChar_of_isBlank blank])
  · exact Ranges.contains_eq_false_of_apart (by decide) blank

/-- What is of no kind after blanks is of no kind before them. -/
theorem head_of_skipBlanks {kind : Char → Bool} {s : List Char}
    (blanks : ∀ c, isBlank c → kind c = false)
    (next : ∀ c ∈ (skipBlanks s).head?, kind c = false)
    : ∀ c ∈ s.head?, kind c = false := by
  cases s with
  | nil => simp
  | cons c s =>
      cases blank : isBlank c with
      | true => simpa using blanks c blank
      | false => simpa [skipBlanks, blank] using next

/-- A run of characters of a kind ends where one of another kind stands. -/
theorem takeWhile_stop {kind : Char → Bool} {run : List Char} (after : List Char)
    (all : ∀ c ∈ run, kind c) (next : ∀ c ∈ after.head?, kind c = false)
    : (run ++ after).takeWhile kind = run ∧ (run ++ after).dropWhile kind = after := by
  rw [List.takeWhile_append_of_pos all, List.dropWhile_append_of_pos all]
  cases after with
  | nil => simp
  | cons c after =>
      have next : kind c = false := by simpa using next
      simp [next]

/-- A name is read up to what follows it, up to the blanks there. -/
theorem splitName_append {name : Option (List Char)} (after : List Char)
    (nameStart : ∀ letters, name = some letters → OpensPlain letters)
    (plain : ∀ c ∈ name.getD [], isPlainChar c)
    (next : ∀ c ∈ (skipBlanks after).head?, isPlainChar c = false)
    : ∃ left,
        splitName (skipBlanks (name.getD [] ++ after)) = (name, left)
        ∧ skipBlanks left = skipBlanks after := by
  cases name with
  | none =>
      refine ⟨skipBlanks after, ?_, List.dropWhile_idempotent _ _⟩
      rw [Option.getD_none, List.nil_append]
      unfold splitName
      split
      · rename_i c rest opens
        have notPlain : isPlainChar c = false := next c (by simp [opens])
        rw [if_neg]
        intro starts
        simp [isPlainChar, isPlainStart, Char.isAlphanum] at notPlain starts
        simp [notPlain] at starts
      · rfl
  | some letters =>
      obtain ⟨c, more, rfl, starts⟩ := nameStart letters rfl
      have visible : isBlank c = false := by
        refine Bool.eq_false_iff.mpr fun blank => ?_
        cases (isPlainChar_of_isBlank blank).symm.trans (plain c (by simp))
      have ends := head_of_skipBlanks (fun _ => isPlainChar_of_isBlank) next
      obtain ⟨takes, drops⟩ := takeWhile_stop after plain ends
      refine ⟨after, ?_, rfl⟩
      rw [Option.getD_some] at takes drops ⊢
      rw [List.cons_append] at takes drops ⊢
      rw [skipBlanks_of_visible (by simpa using visible), splitName, if_pos starts, takes, drops]

/-- A number is read up to what follows it, up to the blanks there. -/
theorem splitDigits_append {digits : Option (List Char)} (after : List Char)
    (number : ∀ text, digits = some text → IsNumber text)
    (next : ∀ c ∈ (skipBlanks after).head?, isDecimalDigit c = false)
    : ∃ left,
        splitDigits (skipBlanks (digits.getD [] ++ after)) = (digits, left)
        ∧ skipBlanks left = skipBlanks after := by
  unfold splitDigits
  rw [List.span_eq_takeWhile_dropWhile]
  cases digits with
  | none =>
      refine ⟨skipBlanks after, ?_, List.dropWhile_idempotent _ _⟩
      obtain ⟨takes, -⟩ := takeWhile_stop _ (List.forall_mem_nil (isDecimalDigit · = true)) next
      rw [List.nil_append] at takes
      rw [Option.getD_none, List.nil_append, takes]
  | some text =>
      obtain ⟨nonempty, all⟩ := number text rfl
      have ends := head_of_skipBlanks (fun _ => isDecimalDigit_of_isBlank) next
      obtain ⟨takes, drops⟩ := takeWhile_stop after all ends
      have visible : ∀ c ∈ (text ++ after).head?, isBlank c = false := by
        cases text with
        | nil => exact absurd rfl nonempty
        | cons c more =>
            refine fun d head => Bool.eq_false_iff.mpr fun blank => ?_
            obtain rfl : c = d := by simpa using head
            cases (isDecimalDigit_of_isBlank blank).symm.trans (all c (by simp))
      refine ⟨after, ?_, rfl⟩
      rw [Option.getD_some, skipBlanks_of_visible visible, takes, drops]
      cases text with
      | nil => exact absurd rfl nonempty
      | cons c more => rfl

/-- The types are read up to the star, with the blanks after them. -/
theorem splitTypes_append {types blanks : List Char} (after : List Char) (blank : AllBlank blanks)
    (opens : types = [] ∨ ∃ body, types = ':' :: body) (chars : ∀ c ∈ types, isTypeChar c)
    (trimmed : trimEnd types = types)
    : ∃ read,
        splitTypes (skipBlanks (types ++ (blanks ++ '*' :: after))) = (read, '*' :: after)
        ∧ trimEnd read = types := by
  rcases opens with rfl | ⟨body, rfl⟩
  · refine ⟨[], ?_, rfl⟩
    rw [List.nil_append, skipBlanks_append blank]
    rfl
  · refine ⟨':' :: body ++ blanks, ?_, ?_⟩
    · have inside : ∀ c ∈ body ++ blanks, isTypeChar c := by
        intro c member
        rcases List.mem_append.mp member with typed | isBlank
        · exact chars c (List.mem_cons_of_mem _ typed)
        · exact isTypeChar_of_isBlank (blank c isBlank)
      obtain ⟨takes, drops⟩ := takeWhile_stop ('*' :: after) inside (by simp [isTypeChar])
      rw [List.append_assoc] at takes drops
      rw [skipBlanks_of_visible (by simp; rfl), List.cons_append, splitTypes, takes, drops]
      rfl
    · rw [trimEnd, List.reverse_append, List.dropWhile_append_of_pos fun c member =>
        blank c (List.mem_reverse.mp member)]
      exact trimmed

theorem after?_append (text : String) (s : List Char)
    : after? text (text.toList ++ s) = some s := by
  rw [after?, if_pos (List.isPrefixOf_iff_prefix.mpr (List.prefix_append _ _)),
    ← String.length_toList, List.drop_left]

theorem after?_of_head {text : String} {c : Char} {more s : List Char}
    (opens : text.toList = c :: more)
    (other : ∀ d ∈ s.head?, d ≠ c)
    : after? text s = none := by
  refine if_neg fun starts => ?_
  rw [opens] at starts
  cases s with
  | nil => cases starts
  | cons d s =>
      have same := (List.cons_prefix_cons.mp (List.isPrefixOf_iff_prefix.mp starts)).1
      exact other d (by simp) same.symm

/-- The upper bound is read up to what follows it, up to the blanks there. -/
theorem splitUpperBound_append {most : Option (Option (List Char))} {blanks : List Char}
    (after : List Char) (blank : AllBlank blanks)
    (number : ∀ digits, most = some (some digits) → IsNumber digits)
    (notDigit : ∀ c ∈ (skipBlanks after).head?, isDecimalDigit c = false)
    (notPoint : ∀ c ∈ (skipBlanks after).head?, c ≠ '.')
    : ∃ left,
        splitUpperBound
            (skipBlanks
              ((most.elim [] fun digits => '.' :: '.' :: blanks ++ digits.getD []) ++ after))
          = (most, left)
        ∧ skipBlanks left = skipBlanks after := by
  cases most with
  | none =>
      refine ⟨skipBlanks after, ?_, List.dropWhile_idempotent _ _⟩
      rw [Option.elim_none, List.nil_append, splitUpperBound, after?_of_head rfl notPoint]
  | some digits =>
      obtain ⟨left, read, same⟩ := splitDigits_append after
        (fun text (written : digits = some text) => number text (by rw [written])) notDigit
      refine ⟨left, ?_, same⟩
      have points : skipBlanks ('.' :: '.' :: blanks ++ digits.getD [] ++ after)
          = "..".toList ++ (blanks ++ (digits.getD [] ++ after)) := by
        rw [skipBlanks_of_visible (by simp; rfl)]
        simp
      rw [Option.elim_some, points, splitUpperBound, after?_append]
      simp only [skipBlanks_append blank, read]

/-- The property map is read up to what follows it, up to the blanks there. -/
theorem splitProperties?_append {properties : Option (List Char)} (after : List Char)
    (closed
      : ∀ text,
          properties = some text
          → ∃ inner, text = '\x7b' :: inner ++ ['\x7d'] ∧ '\x7d' ∉ inner)
    (next : ∀ c ∈ (skipBlanks after).head?, c ≠ '\x7b')
    : ∃ left,
        splitProperties? (skipBlanks (properties.getD [] ++ after)) = some (properties, left)
        ∧ skipBlanks left = skipBlanks after := by
  cases properties with
  | none =>
      refine ⟨skipBlanks after, ?_, List.dropWhile_idempotent _ _⟩
      rw [Option.getD_none, List.nil_append]
      unfold splitProperties?
      split
      · rename_i rest opens
        exact absurd rfl (next _ (by simp [opens]))
      · rfl
  | some text =>
      obtain ⟨inner, rfl, inside⟩ := closed text rfl
      have all : ∀ c ∈ inner, (c != '\x7d') = true := by
        intro c member
        simpa using ne_of_mem_of_not_mem member inside
      obtain ⟨takes, drops⟩ := takeWhile_stop ('\x7d' :: after) all (by simp)
      refine ⟨after, ?_, rfl⟩
      have opened
          : '\x7b' :: inner ++ ['\x7d'] ++ after = '\x7b' :: (inner ++ '\x7d' :: after) := by
        simp
      rw [Option.getD_some, opened, skipBlanks_of_visible (by simp; rfl), splitProperties?]
      simp only [takes, drops]

theorem splitLeftEnd?_append {left : List Char} (isLeft : left = ['<', '-'] ∨ left = ['-'])
    (s : List Char)
    : splitLeftEnd? (left ++ '[' :: s) = some (left, s) := by
  rcases isLeft with rfl | rfl <;> rfl

theorem splitRightEnd?_append {right rest : List Char}
    (isRight : right = ['-', '>'] ∨ right = ['-'] ∧ ∀ more, rest ≠ '>' :: more)
    : splitRightEnd? (']' :: right ++ rest) = some (right, rest) := by
  rcases isRight with rfl | ⟨rfl, ends⟩
  · rfl
  · unfold splitRightEnd?
    split
    · rename_i more same
      exact absurd (by simpa using same) (ends more)
    · simp_all
    · rename_i none
      exact absurd rfl (none rest)

namespace Segment

variable (segment : Segment) (blanks : Blanks) (rest : List Char)

/-- What stands after the property map. -/
def fromEnd : List Char :=
  blanks.beforeEnd ++ (']' :: segment.right ++ rest)

/-- What stands after the hop counts. -/
def fromProperties : List Char :=
  blanks.beforeProperties ++ (segment.properties.getD [] ++ segment.fromEnd blanks rest)

/-- What stands after the lower bound. -/
def fromPoints : List Char :=
  blanks.beforePoints ++ (segment.upperBound blanks ++ segment.fromProperties blanks rest)

/-- What stands after the name. -/
def fromTypes : List Char :=
  blanks.beforeTypes ++ (segment.types ++ (blanks.beforeStar ++
    '*' :: (blanks.beforeLeast ++ (segment.least.getD [] ++ segment.fromPoints blanks rest))))

theorem text_append
    : segment.text blanks ++ rest
      = segment.left ++ '[' :: (blanks.beforeName ++
          (segment.name.getD [] ++ segment.fromTypes blanks rest)) := by
  simp [text, opening, afterStar, fromTypes, fromPoints, fromProperties, fromEnd]

namespace Matches

variable {segment blanks rest} (parts : segment.Matches blanks rest)
include parts

theorem skipBlanks_fromEnd
    : skipBlanks (segment.fromEnd blanks rest) = ']' :: segment.right ++ rest := by
  have blank : AllBlank blanks.beforeEnd := parts.blank _ (by simp)
  rw [fromEnd, skipBlanks_append blank]
  exact skipBlanks_of_visible (by simp; rfl)

theorem head_fromProperties
    : ∀ c ∈ (skipBlanks (segment.fromProperties blanks rest)).head?, c = '\x7b' ∨ c = ']' := by
  have blank : AllBlank blanks.beforeProperties := parts.blank _ (by simp)
  rw [fromProperties, skipBlanks_append blank]
  cases properties : segment.properties with
  | none =>
      rw [Option.getD_none, List.nil_append, parts.skipBlanks_fromEnd]
      simp
  | some text =>
      obtain ⟨inner, rfl, -⟩ := parts.properties text properties
      rw [Option.getD_some, skipBlanks_of_visible (by simp; rfl)]
      simp

theorem head_fromPoints
    : ∀ c ∈ (skipBlanks (segment.fromPoints blanks rest)).head?,
      c = '.' ∨ c = '\x7b' ∨ c = ']' := by
  have blank : AllBlank blanks.beforePoints := parts.blank _ (by simp)
  rw [fromPoints, skipBlanks_append blank, upperBound]
  cases segment.most with
  | none => exact fun c head => .inr (parts.head_fromProperties c head)
  | some digits =>
      rw [Option.elim_some, skipBlanks_of_visible (by simp; rfl)]
      simp

theorem head_fromTypes
    : ∀ c ∈ (skipBlanks (segment.fromTypes blanks rest)).head?, c = ':' ∨ c = '*' := by
  have blank : AllBlank blanks.beforeTypes := parts.blank _ (by simp)
  have blankStar : AllBlank blanks.beforeStar := parts.blank _ (by simp)
  rw [fromTypes, skipBlanks_append blank]
  rcases parts.types with empty | ⟨body, opens⟩
  · rw [empty, List.nil_append, skipBlanks_append blankStar, skipBlanks_of_visible (by simp; rfl)]
    simp
  · rw [opens, skipBlanks_of_visible (by simp; rfl)]
    simp

end Matches

end Segment

/-- What matches the pattern is read, up to the blanks after its types. -/
theorem segment?_of_matchesAt {s rest : List Char} {segment : Segment}
    (matching : segment.MatchesAt s rest)
    : ∃ read, segment? s = some (read, rest) ∧ read.trimmed = segment := by
  obtain ⟨rfl, blanks, parts⟩ := matching
  have blankName : AllBlank blanks.beforeName := parts.blank _ (by simp)
  have blankTypes : AllBlank blanks.beforeTypes := parts.blank _ (by simp)
  have blankStar : AllBlank blanks.beforeStar := parts.blank _ (by simp)
  have blankLeast : AllBlank blanks.beforeLeast := parts.blank _ (by simp)
  have blankPoints : AllBlank blanks.beforePoints := parts.blank _ (by simp)
  have blankMost : AllBlank blanks.beforeMost := parts.blank _ (by simp)
  have blankProperties : AllBlank blanks.beforeProperties := parts.blank _ (by simp)
  obtain ⟨afterName, readName, skipName⟩ := splitName_append
    (segment.fromTypes blanks rest) parts.nameStart parts.name fun c head => by
      rcases parts.head_fromTypes c head with rfl | rfl <;> rfl
  obtain ⟨types, readTypes, trimmed⟩ := splitTypes_append
    (blanks.beforeLeast ++ (segment.least.getD [] ++ segment.fromPoints blanks rest))
    blankStar parts.types parts.typeChars parts.typesEnd
  obtain ⟨afterLeast, readLeast, skipLeast⟩ := splitDigits_append
    (segment.fromPoints blanks rest) parts.least fun c head => by
      rcases parts.head_fromPoints c head with rfl | rfl | rfl <;> decide
  obtain ⟨afterMost, readMost, skipMost⟩ := splitUpperBound_append
    (segment.fromProperties blanks rest) blankMost parts.most
    (fun c head => by rcases parts.head_fromProperties c head with rfl | rfl <;> decide)
    (fun c head => by rcases parts.head_fromProperties c head with rfl | rfl <;> decide)
  obtain ⟨afterMap, readMap, skipMap⟩ := splitProperties?_append
    (segment.fromEnd blanks rest) parts.properties fun c head => by
      rw [parts.skipBlanks_fromEnd] at head
      rintro rfl
      simp at head
  have leftEnd := splitLeftEnd?_append parts.left (blanks.beforeName ++
    (segment.name.getD [] ++ segment.fromTypes blanks rest))
  rw [← segment.text_append blanks rest, ← parts.pattern] at leftEnd
  rw [Segment.fromTypes, skipBlanks_append blankTypes] at skipName
  rw [Segment.fromPoints, skipBlanks_append blankPoints] at skipLeast
  rw [Segment.fromProperties, skipBlanks_append blankProperties] at skipMost
  rw [parts.skipBlanks_fromEnd] at skipMap
  have star (more : List Char) : after? "*" (skipBlanks ('*' :: more)) = some more := by
    rw [skipBlanks_of_visible (by simp; rfl)]
    exact after?_append "*" more
  refine ⟨{ segment with types }, ?_, by simp [Segment.trimmed, trimmed]⟩
  have taken : (segment.pattern ++ rest).take ((segment.pattern ++ rest).length - rest.length)
      = segment.pattern := by
    rw [List.length_append, Nat.add_sub_cancel, List.take_left]
  simp only [segment?, Option.bind_eq_bind, Option.bind_some, leftEnd, skipBlanks_append blankName,
    readName, skipName, readTypes, star, skipBlanks_append blankLeast, readLeast, skipLeast,
    Segment.upperBound, readMost, skipMost, readMap, skipMap,
    splitRightEnd?_append parts.right, taken]
  rfl

theorem segment?_eq_none_iff {s : List Char}
    : segment? s = none ↔ ∀ segment rest, ¬Segment.MatchesAt segment s rest := by
  constructor
  · intro none segment rest matching
    obtain ⟨read, found, -⟩ := segment?_of_matchesAt matching
    cases none.symm.trans found
  · intro none
    cases found : segment? s with
    | none => rfl
    | some result => exact absurd (matchesAt_of_segment? found) (none _ _)

/-- The parts of a cut with their segments trimmed. -/
def trimmedParts (parts : List (List Char × Segment)) : List (List Char × Segment) :=
  parts.map (Prod.map id Segment.trimmed)

/-- What a scan from the left finds are the leftmost matches. -/
theorem Scan.leftmostMatches {s parts tail} (scan : Scan s parts tail)
    : LeftmostMatches s (trimmedParts parts) tail := by
  induction scan with
  | done none =>
      exact .done fun before after split => segment?_eq_none_iff.mp (none before after split)
  | found none read later ih =>
      exact .found (fun before after split some =>
        segment?_eq_none_iff.mp (none before after split some))
        (matchesAt_of_segment? read) ih

/-- The leftmost matches are what a scan from the left finds. -/
theorem LeftmostMatches.exists_scan {s parts tail} (leftmost : LeftmostMatches s parts tail)
    : ∃ read, Scan s read tail ∧ trimmedParts read = parts := by
  induction leftmost with
  | done none =>
      exact ⟨[], .done fun before after split =>
        segment?_eq_none_iff.mpr (none before after split), rfl⟩
  | @found gap text rest segment parts tail none here later ih =>
      obtain ⟨segment', found, rfl⟩ := segment?_of_matchesAt here
      obtain ⟨read, scan, rfl⟩ := ih
      exact ⟨(gap, segment') :: read, .found (fun before after split some =>
        segment?_eq_none_iff.mpr (none before after split some)) found scan, rfl⟩

end CypherSql.Expansion
