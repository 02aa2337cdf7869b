import CypherSql.Proofs.Printing.Clauses
import CypherSql.Proofs.Rereading.Patterns
import Mathlib.Data.Bool.AllAny

/-! Projections and conditions are read again, where what follows is another part of a query or its
end.
-/

namespace CypherSql.Cypher

open Text

/-- The letters of a word stand next, in whatever case they are written. -/
def Stands (word : String) (source tail : List Char) : Prop :=
  ∃ letters,
    skip source = letters ++ tail
    ∧ letters.map foldCase = word.toList.map foldCase
    ∧ (∀ c ∈ letters, c.isAlpha)
    ∧ WordEnds tail

/-- Where one word stands another one is rejected: either no letter of that has another form, or it
opens with another letter.
-/
def Apart (word other : String) : Prop :=
  IsPlainWord other ∧ word.toList.map foldCase ≠ other.toList.map foldCase
  ∨ other.toList.head?.map foldCase ≠ word.toList.head?.map foldCase

instance (word other : String) : Decidable (Apart word other) :=
  inferInstanceAs (Decidable (_ ∨ _))

section Stands

variable {word other : String} {source rest tail gap : List Char} {value : Unit} {c : Char}

variable (word) in
theorem stands_of_plain (plain : IsPlainWord word) (read : keyword word source = .ok value rest)
    : ∃ tail, Stands word source tail ∧ rest = skip tail := by
  obtain ⟨letters, tail, here, same, ends, rfl⟩ := keyword_eq_ok plain read
  have isPlain := forall_isPlain plain.letters same
  exact ⟨tail, ⟨letters, here, same, fun c member => isAlpha_of_isPlain (isPlain c member), ends⟩,
    rfl⟩

theorem isAlpha_of_foldCase (same : foldCase c = 'k') : c = '\u212a' ∨ c.isAlpha := by
  by_cases kelvin : c = '\u212a'
  · exact .inl kelvin
  · rw [foldCase, if_neg kelvin] at same
    have alpha : c.isAlpha = (c.isUpper || c.isLower) := rfl
    delta Char.toLower at same
    split at same
    · rename_i upper
      have upper : c.isUpper := by
        delta Char.isUpper
        simpa using upper
      exact .inr (by simp [alpha, upper])
    · exact .inr (by rw [same]; decide)

/-- The second letter of the word has another form with more bytes. Where it is written so, the last
letters are left behind the word, or the source ends.
-/
theorem dropBytes_skip (agree : agrees "SKIP".toList source) (ends : WordEnds (dropBytes 4 source))
    (more : dropBytes 4 source ≠ [])
    : ∃ letters,
        source = letters ++ dropBytes 4 source
        ∧ letters.map foldCase = "SKIP".toList.map foldCase
        ∧ ∀ c ∈ letters, c.isAlpha := by
  have letter {c w : Char} (plain : isPlain w) (same : foldCase w = foldCase c)
      : c.isAlpha ∧ c.utf8Size = 1 := by
    have alpha := isAlpha_of_isPlain (isPlain_of_foldCase same.symm plain)
    exact ⟨alpha, utf8Size_of_isAlpha alpha⟩
  rw [show "SKIP".toList = ['S', 'K', 'I', 'P'] from rfl] at agree ⊢
  match source with
  | [] => exact absurd rfl more
  | [a] =>
      simp only [agrees, Bool.and_true, beq_iff_eq] at agree
      rw [dropBytes, (letter (by decide) agree).2] at more
      exact absurd rfl more
  | [a, b] =>
      simp only [agrees, Bool.and_true, Bool.and_eq_true, beq_iff_eq] at agree
      rw [dropBytes, (letter (by decide) agree.1).2, dropBytes] at more
      have none (count : Nat) : dropBytes count [] = [] := by cases count <;> rfl
      exact absurd (none _) more
  | a :: b :: c :: rest =>
      simp only [agrees, Bool.and_eq_true, beq_iff_eq] at agree
      obtain ⟨first, second, third, last⟩ := agree
      obtain ⟨alphaFirst, narrowFirst⟩ := letter (by decide) first
      obtain ⟨alphaThird, narrowThird⟩ := letter (by decide) third
      rcases isAlpha_of_foldCase second.symm with rfl | alphaSecond
      · rw [dropBytes, narrowFirst] at ends
        have no := ends c rfl
        rw [isWordChar_of_isAlpha alphaThird] at no
        cases no
      · have narrowSecond := utf8Size_of_isAlpha alphaSecond
        have behind : dropBytes 4 (a :: b :: c :: rest) = dropBytes 1 rest := by
          rw [dropBytes, narrowFirst, dropBytes, narrowSecond, dropBytes, narrowThird]
        cases rest with
        | nil => exact absurd behind more
        | cons d rest =>
            simp only [agrees, Bool.and_true, beq_iff_eq] at last
            obtain ⟨alphaLast, narrowLast⟩ := letter (by decide) last
            refine ⟨[a, b, c, d], ?_, ?_, ?_⟩
            · rw [behind]
              simp [dropBytes, narrowLast]
            · simp [first, second, third, last]
            · simp [alphaFirst, alphaSecond, alphaThird, alphaLast]

theorem stands_of_skip (read : keyword "SKIP" source = .ok value rest) (more : rest ≠ [])
    : ∃ tail, Stands "SKIP" source tail ∧ rest = skip tail := by
  obtain ⟨tail, whole, rfl⟩ := padded_eq_ok read
  obtain ⟨_, place, literal, ends⟩ := Parser.bind_eq_ok.mp whole
  obtain ⟨rfl, wordEnds⟩ := wordEnd_eq_ok ends
  refine ⟨tail, ?_, rfl⟩
  unfold wordLiterally at literal
  split at literal
  · rename_i agree
    cases literal
    have nonempty : dropBytes 4 (skip source) ≠ [] := by
      intro none
      exact more (congrArg skip none)
    obtain ⟨letters, here, same, alpha⟩ :=
      dropBytes_skip (Bool.and_eq_true_iff.mp agree).1 wordEnds nonempty
    exact ⟨letters, here, same, alpha, wordEnds⟩
  · cases literal

/-- A word that stands is read as a keyword again. -/
theorem Stands.rereadsAt (stands : Stands word source tail) (isWord : IsWord word)
    : (keyword word).RereadsAt true true (fun _ => True) source () (skip tail) := by
  obtain ⟨letters, here, same, alpha, ends⟩ := stands
  have inWord : ∀ c ∈ letters, isWordChar c :=
    fun c member => isWordChar_of_isAlpha (alpha c member)
  have trimmed : Trimmed letters := by
    refine trimmed_of_word ?_ inWord
    rintro rfl
    exact isWord.nonempty (List.map_eq_nil_iff.mp same.symm)
  refine ⟨letters, tail, here, rfl, trimmed, ?_, ?_⟩
  · exact fun after _ beside => sameWords_of_word trimmed inWord ends (beside.wordEnds ends)
  · rintro other after opens - beside
    refine keyword_read_letters isWord.narrow opens same ?_ (beside.wordEnds ends)
    exact fun c member => utf8Size_of_isAlpha (alpha c member)

theorem Stands.spaced (stands : Stands word source tail) (spaces : ∀ c ∈ gap, isSpace c)
    : Stands word (gap ++ source) tail := by
  obtain ⟨letters, here, others⟩ := stands
  exact ⟨letters, by rw [skip_gap spaces, here], others⟩

theorem Stands.head (stands : Stands word source tail) (isWord : IsWord word)
    : ∃ c ∈ (skip source).head?,
      c.isAlpha ∧ word.toList.head?.map foldCase = some (foldCase c) := by
  obtain ⟨letters, here, same, alpha, -⟩ := stands
  cases letters with
  | nil => exact absurd (List.map_eq_nil_iff.mp same.symm) isWord.nonempty
  | cons c letters =>
      refine ⟨c, by rw [here]; rfl, alpha c List.mem_cons_self, ?_⟩
      rw [← List.head?_map, ← same]
      rfl

theorem Stands.lacks (stands : Stands word source tail) (isWord : IsWord word)
    (noLetter : c.isAlpha = false)
    : Lacks c (skip source) := by
  obtain ⟨d, opens, alpha, -⟩ := stands.head isWord
  rw [Lacks, opens]
  rintro ⟨⟩
  rw [alpha] at noLetter
  cases noLetter

theorem Stands.rejects (stands : Stands word source tail) (isWord : IsWord word)
    (apart : Apart word other)
    (also : IsWord other)
    : (keyword other).Rejects source := by
  rcases apart with ⟨plain, differs⟩ | differs
  · obtain ⟨letters, here, same, alpha, ends⟩ := stands
    refine keyword_rejects_word plain here ?_ ends (same ▸ differs)
    exact fun c member => isWordChar_of_isAlpha (alpha c member)
  · obtain ⟨c, opens, -, same⟩ := stands.head isWord
    refine keyword_rejects_head also.utf8ByteSize_pos ?_
    rw [opens, Option.map_some, ← same]
    exact differs

end Stands

/-- What may follow a part of a query: one of some words, one of some marks, or nothing but blanks.
-/
inductive EndsBefore (words : List String) (marks : List Char) (after : List Char) : Prop where
  | word {word tail} (listed : word ∈ words) (stands : Stands word after tail)
  | mark (head : ∀ c ∈ (skip after).head?, c ∈ marks ∨ isBlank c)

/-- The marks between the parts of a query and behind the last. -/
def sectionMarks : List Char :=
  [',', ';']

section EndsBefore

variable {words fewer : List String} {marks others : List Char} {after : List Char} {c : Char}
  {other : String}

theorem EndsBefore.mono (ends : EndsBefore fewer others after)
    (words' : ∀ word ∈ fewer, word ∈ words)
    (marks' : ∀ c ∈ others, c ∈ marks)
    : EndsBefore words marks after := by
  cases ends with
  | word listed stands => exact .word (words' _ listed) stands
  | mark head => exact .mark fun c opens => (head c opens).imp_left (marks' c)

theorem EndsBefore.spaced (gap source : List Char) (spaces : ∀ c ∈ gap, isSpace c)
    (ends : EndsBefore words marks source)
    : EndsBefore words marks (gap ++ source) := by
  cases ends with
  | word listed stands => exact .word listed (stands.spaced spaces)
  | mark head => exact .mark (by rwa [skip_gap spaces])

theorem isAlpha_of_isBlank (blank : isBlank c) : c.isAlpha = false := by
  refine Bool.eq_false_iff.mpr fun alpha => ?_
  have word := isWordChar_of_isAlpha alpha
  rw [isWordChar_eq_false_of_isBlank blank] at word
  cases word

theorem sectionMarks_not_isAlpha : ∀ c ∈ sectionMarks, c.isAlpha = false :=
  List.all_iff_forall_prop.mp (by decide)

/-- The mark that ends a query is one that may end its parts. -/
theorem end_mem_sectionMarks : ∀ c ∈ [';'], c ∈ sectionMarks :=
  List.all_iff_forall_prop.mp (by decide)

/-- Neither a mark nor a blank is a letter. -/
theorem not_isAlpha_of_head (known : ∀ c ∈ marks, c ∈ sectionMarks)
    (head : ∀ c ∈ (skip after).head?, c ∈ marks ∨ isBlank c)
    : ∀ c ∈ (skip after).head?, c.isAlpha = false := by
  intro c opens
  rcases head c opens with listed | blank
  · exact sectionMarks_not_isAlpha c (known c listed)
  · exact isAlpha_of_isBlank blank

theorem EndsBefore.lacks (ends : EndsBefore words marks after)
    (known : ∀ word ∈ words, word ∈ sectionWords)
    (noMark : c ∉ marks) (noBlank : isBlank c = false) (noLetter : c.isAlpha = false)
    : Lacks c (skip after) := by
  cases ends with
  | word listed stands => exact stands.lacks (sectionWords_apart _ (known _ listed)).1 noLetter
  | mark head =>
      intro opens
      rcases head c opens with listed | blank
      · exact noMark listed
      · rw [noBlank] at blank
        cases blank

/-- A keyword that opens with a plain letter is rejected where other words may follow. -/
theorem EndsBefore.rejects (ends : EndsBefore words marks after)
    (known : ∀ word ∈ words, word ∈ sectionWords) (marked : ∀ c ∈ marks, c ∈ sectionMarks)
    (also : IsWord other) (apart : ∀ word ∈ words, Apart word other)
    (plain : other.toList.head?.all isPlain)
    : (keyword other).Rejects after := by
  cases ends with
  | word listed stands =>
      exact stands.rejects (sectionWords_apart _ (known _ listed)).1 (apart _ listed) also
  | mark head =>
      refine keyword_rejects_head also.utf8ByteSize_pos fun same => ?_
      cases letters : other.toList with
      | nil => exact also.nonempty letters
      | cons w letters' =>
          rw [letters] at same plain
          obtain ⟨c, opens, folded⟩ := Option.map_eq_some_iff.mp same.symm
          have alpha :=
            isAlpha_of_isPlain
            (isPlain_of_foldCase folded ((Option.all_eq_true _ _).mp plain w rfl))
          rw [not_isAlpha_of_head marked head c opens] at alpha
          cases alpha

/-- An expression ends where a part of a query may follow. -/
theorem EndsBefore.halts (ends : EndsBefore words marks after)
    (known : ∀ word ∈ words, word ∈ sectionWords) (marked : ∀ c ∈ marks, c ∈ sectionMarks)
    : Halts 0 after where
  word := wordEnds_cons (by decide)
  marks entry listed _ := by
    have apart : ∀ entry ∈ markLevels,
        entry.1 ∉ sectionMarks ∧ isBlank entry.1 = false ∧ entry.1.isAlpha = false := by
      decide
    obtain ⟨noMark, noBlank, noLetter⟩ := apart entry listed
    exact ends.lacks known (fun member => noMark (marked _ member)) noBlank noLetter
  words entry listed within := by
    obtain ⟨plain, nonempty⟩ := wordLevels_plain entry listed
    rw [skip_space]
    cases ends with
    | word inWords stands =>
        obtain ⟨isWord, differs⟩ := sectionWords_apart _ (known _ inWords)
        obtain ⟨letters, here, same, alpha, wordEnds⟩ := stands
        refine keyword_rejects_word plain ((skip_skip after).trans here) ?_ wordEnds
          (same ▸ differs entry listed within)
        exact fun c member => isWordChar_of_isAlpha (alpha c member)
    | mark head =>
        refine keyword_rejects_of_head plain nonempty ?_
        rw [skip_skip]
        exact not_isAlpha_of_head marked head

end EndsBefore

section Missing

variable {α β γ : Type} {p : Parser α} {part : Parser β} {before behind : Bool}
  {follows inner last : List Char → Prop}

theorem keyword_rejects_skip {word : String} {source : List Char}
    : (keyword word).Rejects (skip source) ↔ (keyword word).Rejects source := by
  unfold Parser.Rejects
  rw [keyword, padded_skip]

theorem Parser.Rereads.committed (rereads : p.Rereads before behind follows)
    : p.committed.Rereads before behind follows :=
  fun source value rest read =>
    (rereads source value rest (Parser.committed_eq_ok read)).congr fun _ _ again =>
      Parser.committed_of_ok again

theorem Parser.Rereads.within (rereads : p.Rereads before behind follows) (complaint : Complaint)
    : (p.within complaint).Rereads before behind follows :=
  fun source value rest read =>
    (rereads source value rest (Parser.within_eq_ok read)).congr fun _ _ again =>
      Parser.within_of_ok again complaint

theorem Parser.Rereads.fewer (rereads : p.Rereads before behind follows)
    (fewer : ∀ after, last after → follows after)
    : p.Rereads before behind last :=
  fun source value rest read => (rereads source value rest read).mono fewer

/-- What may be followed by a part that may be missing is read again with it. -/
theorem Parser.Rereads.trailing (first : p.Rereads true true follows)
    (second : part.Rereads true true inner)
    (spaces : ∀ gap source, (∀ c ∈ gap, isSpace c) → follows source → follows (gap ++ source))
    (joins : ∀ source value rest, part source = .ok value rest → follows source)
    (fewer : ∀ after, last after → follows after) (also : ∀ after, last after → inner after)
    (absent : ∀ after, last after → part.Rejects (skip after)) (f : α → Option β → γ)
    : (p >>= fun a => part.optional >>= fun b => pure (f a b)).Rereads true true last := by
  intro source result rest read
  obtain ⟨a, place, found, more⟩ := Parser.bind_eq_ok.mp read
  obtain ⟨b, middle, optional, same⟩ := Parser.bind_eq_ok.mp more
  cases same
  rcases Parser.optional_eq_ok optional with ⟨b, rfl, there⟩ | ⟨rfl, rfl⟩
  · have later := ((second place b _ there).mono also).map fun b => f a (some b)
    have both :=
      (first source a place found).bind (f := fun a => part >>= fun b => pure (f a (some b)))
      later spaces fun source after again _ => by
        obtain ⟨b, _, again, -⟩ := Parser.bind_eq_ok.mp again
        exact joins source b _ again
    refine both.congr fun other after again => ?_
    obtain ⟨a, place, found, again⟩ := Parser.bind_eq_ok.mp again
    obtain ⟨b, _, again, same⟩ := Parser.bind_eq_ok.mp again
    exact (Parser.bind_of_ok found).trans
      ((Parser.bind_of_ok (Parser.optional_of_ok again)).trans same)
  · obtain ⟨text, tail, here, rfl, reread⟩ := first source a _ found
    refine ⟨text, tail, here, rfl, reread.trimmed, ?_, fun other after opens ends beside => ?_⟩
    · exact fun after ends => reread.words after (fewer after ends)
    · refine (Parser.bind_of_ok (reread.again other after opens (fewer after ends) beside)).trans ?_
      exact Parser.bind_of_ok (Parser.optional_of_rejects (absent after ends))

/-- A keyword that may be missing before what is read again is read again, or missing again. -/
theorem Parser.Rereads.leading {word : String} (plain : IsPlainWord word)
    (nonempty : 0 < word.utf8ByteSize) {f : Option Unit → Parser α}
    (each : ∀ found, (f found).Rereads true behind last)
    : ((keyword word).optional >>= f).Rereads true behind last := by
  intro source result rest read
  obtain ⟨found, place, optional, more⟩ := Parser.bind_eq_ok.mp read
  rcases Parser.optional_eq_ok optional with ⟨_, rfl, there⟩ | ⟨rfl, rfl⟩
  · have both := (keyword_rereads plain nonempty).bind fun _ => each (some ())
    refine (both source result rest ((Parser.bind_of_ok there).trans more)).congr
      fun _ _ again => ?_
    obtain ⟨_, _, there, again⟩ := Parser.bind_eq_ok.mp again
    exact (Parser.bind_of_ok (Parser.optional_of_ok there)).trans again
  · obtain ⟨rejects, -⟩ := Parser.optional_eq_none optional
    obtain ⟨text, tail, here, same, reread⟩ := each none place result rest more
    have missing : (keyword word).Rejects (text ++ tail) := here ▸ keyword_rejects_skip.mpr rejects
    refine ⟨text, tail, here, same, reread.trimmed, reread.words,
      fun other after opens ends beside => ?_⟩
    have rejects := reread.words after ends beside word plain nonempty missing
    have absent : (keyword word).Rejects other := by
      rw [← keyword_rejects_skip, show skip other = text ++ after from opens]
      exact rejects
    refine (Parser.bind_of_ok (Parser.optional_of_rejects absent)).trans ?_
    exact reread.again other after opens ends beside

end Missing

/-- An expression with its text. -/
def worded : Parser (Expr × String) :=
  fun s =>
    match expression s with
    | .ok expr rest =>
        .ok (expr, String.ofList (Text.trim (s.take (s.length - rest.length)))) rest
    | .rejected trace => .rejected trace
    | .failed trace => .failed trace

/-- A name behind a projected expression. -/
def aliasClause : Parser String := do
  keyword "AS"
  padded identifier

/-- A direction behind a sort key. -/
def direction : Parser Bool :=
  Parser.choice [
    keywordAs "DESCENDING" true,
    keywordAs "DESC" true,
    keywordAs "ASCENDING" false,
    keywordAs "ASC" false]

/-- What a projection is without its items being told apart, up to its sort keys. -/
def projectedItems : Parser (List ProjectionItem) :=
  (Parser.separated1 (mark ',') projectionItem).committed.within .projectionItems

section Projections

variable {source rest : List Char} {word : String}

theorem whereClause_rereads : whereClause.Rereads true true (Halts 0) :=
  (keyword_rereads (by decide) (by decide)).bind fun _ =>
    expression_tame.rereads.committed.within .whereClause

theorem worded_eq_ok {value : Expr × String}
    : worded source = .ok value rest
      ↔ expression source = .ok value.1 rest
        ∧ value.2 = String.ofList (Text.trim (source.take (source.length - rest.length))) := by
  unfold worded
  constructor
  · intro read
    split at read
    · rename_i found
      cases read
      exact ⟨found, rfl⟩
    · cases read
    · cases read
  · rintro ⟨read, same⟩
    rw [read]
    simp only [← same]

theorem worded_rereads : worded.Rereads true true (Halts 0) := by
  intro source value rest read
  obtain ⟨found, same⟩ := worded_eq_ok.mp read
  obtain ⟨text, tail, here, rfl, reread⟩ := expression_tame.rereads source value.1 rest found
  refine ⟨text, tail, here, rfl, reread.trimmed, reread.words,
    fun other after opens ends beside => ?_⟩
  refine worded_eq_ok.mpr ⟨reread.again other after opens ends beside, ?_⟩
  rw [same]
  exact congrArg String.ofList
    ((trim_taken here reread.trimmed).trans (trim_taken opens reread.trimmed).symm)

theorem aliasClause_rereads : aliasClause.Rereads true true fun _ => True :=
  (keyword_rereads (by decide) (by decide)).bind fun _ => identifier_rereads.padded

theorem projectionItem_eq
    : projectionItem = worded >>= fun item => aliasClause.optional >>= fun aliasName =>
        pure { expr := item.1, aliasName, text := item.2 } :=
  rfl

theorem halts_of_keyword {α : Type} {p : Parser α} (plain : IsPlainWord word)
    (nonempty : 0 < word.utf8ByteSize)
    (apart
      : ∀ entry ∈ wordLevels, 0 ≤ entry.2 → word.toList.map foldCase ≠ entry.1.toList.map foldCase)
    {value : α} (read : (keyword word >>= fun _ => p) source = .ok value rest)
    : Halts 0 source := by
  obtain ⟨_, _, opens, -⟩ := Parser.bind_eq_ok.mp read
  exact halts_of_word plain nonempty opens apart

theorem projectionItem_rereads
    : projectionItem.Rereads true true (EndsBefore sectionWords sectionMarks) := by
  rw [projectionItem_eq]
  refine worded_rereads.trailing aliasClause_rereads (fun _ _ spaces halts => halts.spaced spaces)
    (fun source value rest read => halts_of_keyword (by decide) (by decide) (by decide) read)
    (fun after ends => ends.halts (fun _ listed => listed) fun _ listed => listed)
    (fun _ _ => trivial) (fun after ends => ?_) _
  have missing : (keyword "AS").Rejects after :=
    ends.rejects (fun _ listed => listed) (fun _ listed => listed) (by decide)
      (by decide) (by decide)
  exact (keyword_rejects_skip.mpr missing).bind

theorem projectedItems_rereads
    : projectedItems.Rereads true true (EndsBefore sectionWords [';']) := by
  refine Parser.Rereads.within (Parser.Rereads.committed ?_) _
  refine projectionItem_rereads.separated1 (by decide) projectionItem_advances EndsBefore.spaced
    (fun after opens => .mark fun c head => ?_)
    (fun after ends => ends.mono (fun _ listed => listed) end_mem_sectionMarks)
    fun after ends => ends.lacks (fun _ listed => listed) (by decide) (by decide) (by decide)
  rw [opens, Option.mem_def, Option.some.injEq] at head
  exact .inl (head ▸ (by decide))

theorem direction_rereads : direction.Rereads true true fun _ => True := by
  refine @Parser.Rereads.choice_words Bool _
    [("DESCENDING", pure true), ("DESC", pure true), ("ASCENDING", pure false), ("ASC", pure false)]
    (by simp; decide) ?_ (by decide)
  simp only [List.forall_mem_cons, List.not_mem_nil, false_imp_iff, implies_true, and_true]
  exact ⟨keywordAs_rereads (by decide) (by decide) _, keywordAs_rereads (by decide) (by decide) _,
    keywordAs_rereads (by decide) (by decide) _, keywordAs_rereads (by decide) (by decide) _⟩

theorem direction_word {value : Bool} (read : direction source = .ok value rest)
    : ∃ word ∈ ["DESCENDING", "DESC", "ASCENDING", "ASC"], keyword word source = .ok () rest := by
  obtain ⟨p, member, read⟩ := (Parser.choice_eq_ok.mp read).exists_mem
  simp only [List.mem_cons, List.not_mem_nil, or_false] at member
  rcases member with rfl | rfl | rfl | rfl
  all_goals
    obtain ⟨_, _, read, same⟩ := Parser.bind_eq_ok.mp read
    cases same
    exact ⟨_, by simp, read⟩

theorem sortItem_eq
    : sortItem = expression >>= fun expr => direction.optional >>= fun descending =>
        pure { expr, descending := descending.getD false } :=
  rfl

theorem sortItem_rereads
    : sortItem.Rereads true true (EndsBefore (sectionWords.drop 1) sectionMarks) := by
  have known : ∀ word ∈ sectionWords.drop 1, word ∈ sectionWords := fun _ => List.mem_of_mem_drop
  have words : ∀ word ∈ ["DESCENDING", "DESC", "ASCENDING", "ASC"],
      IsWord word
      ∧ IsPlainWord word
      ∧ (∀ entry ∈ wordLevels, 0 ≤ entry.2 → word.toList.map foldCase ≠ entry.1.toList.map foldCase)
      ∧ (∀ other ∈ sectionWords.drop 1, Apart other word) := by
    decide
  rw [sortItem_eq]
  refine expression_tame.rereads.trailing direction_rereads
    (fun _ _ spaces halts => halts.spaced spaces)
    (fun source value rest read => ?_) (fun after ends => ends.halts known fun _ listed => listed)
    (fun _ _ => trivial) (fun after ends => Parser.rejects_choice.mpr fun p member => ?_) _
  · obtain ⟨word, listed, opens⟩ := direction_word read
    obtain ⟨isWord, plain, apart, -⟩ := words word listed
    exact halts_of_word plain isWord.utf8ByteSize_pos opens apart
  · have missing (word : String) (listed : word ∈ ["DESCENDING", "DESC", "ASCENDING", "ASC"])
        (value : Bool)
        : (keywordAs word value).Rejects (skip after) := by
      obtain ⟨isWord, plain, -, apart⟩ := words word listed
      refine (keyword_rejects_skip.mpr ?_).bind
      exact ends.rejects known (fun _ listed => listed) isWord apart
        <| (Option.all_eq_true _ _).mpr fun w opens =>
      plain.letters w (List.mem_of_mem_head? opens)
    simp only [List.mem_cons, List.not_mem_nil, or_false] at member
    rcases member with rfl | rfl | rfl | rfl <;> exact missing _ (by simp) _

theorem sortItems_rereads
    : (Parser.separated1 (mark ',') sortItem).Rereads true true
        (EndsBefore (sectionWords.drop 1) [';']) := by
  refine sortItem_rereads.separated1 (by decide) sortItem_advances EndsBefore.spaced
    (fun after opens => .mark fun c head => ?_)
    (fun after ends => ends.mono (fun _ listed => listed) end_mem_sectionMarks)
    fun after ends => ends.lacks (fun _ => List.mem_of_mem_drop) (by decide) (by decide) (by decide)
  rw [opens, Option.mem_def, Option.some.injEq] at head
  exact .inl (head ▸ (by decide))

theorem orderByClause_rereads
    : orderByClause.Rereads true true (EndsBefore (sectionWords.drop 1) [';']) :=
  (keyword_rereads (by decide) (by decide)).bind fun _ =>
    (keyword_rereads (by decide) (by decide)).bind fun _ =>
      sortItems_rereads.committed.within .orderByClause

/-- The word in front of a page bound stands there: an expression follows it. -/
theorem pageClause_eq_ok {complaint : Complaint} {value : Expr}
    (read : pageClause word complaint source = .ok value rest)
    : ∃ place,
        keyword word source = .ok () place
        ∧ place ≠ []
        ∧ (expression.committed.within complaint) place = .ok value rest := by
  obtain ⟨_, place, opens, more⟩ := Parser.bind_eq_ok.mp read
  refine ⟨place, opens, ?_, more⟩
  rintro rfl
  have shorter := expression_advances.length_le (Parser.committed_eq_ok (Parser.within_eq_ok more))
  cases shorter

theorem pageClause_rereads {complaint : Complaint} (isWord : IsWord word)
    (stands
      : ∀ {source rest : List Char} {value : Unit},
          keyword word source = .ok value rest
          → rest ≠ []
          → ∃ tail, Stands word source tail ∧ rest = skip tail)
    : (pageClause word complaint).Rereads true true (Halts 0) := by
  intro source value rest read
  obtain ⟨place, opens, more, found⟩ := pageClause_eq_ok read
  obtain ⟨tail, stands, rfl⟩ := stands opens more
  have later := expression_tame.rereads.committed.within complaint
  exact (stands.rereadsAt isWord).bind (later _ value rest found) (fun _ _ _ _ => trivial)
    fun _ _ _ _ => trivial

variable (word) in
/-- What a part may follow that opens with a word is read again with it, or without it where only
other words may follow.
-/
theorem Parser.Rereads.part {α β γ : Type} {p : Parser α} {part : Parser β} (fewer : List String)
    (first : p.Rereads true true (EndsBefore (word :: fewer) [';']))
    (second : part.Rereads true true (EndsBefore fewer [';']))
    (known : ∀ other ∈ word :: fewer, other ∈ sectionWords) (isWord : IsWord word)
    (apart : ∀ other ∈ fewer, Apart other word) (plain : word.toList.head?.all isPlain)
    (stands : ∀ source value rest, part source = .ok value rest → ∃ tail, Stands word source tail)
    (missing : ∀ source, (keyword word).Rejects source → part.Rejects source)
    (f : α → Option β → γ)
    : (p >>= fun a => part.optional >>= fun b => pure (f a b)).Rereads true true
        (EndsBefore fewer [';']) := by
  refine first.trailing second EndsBefore.spaced (fun source value rest read => ?_)
    (fun after ends => ends.mono (fun _ => List.mem_cons_of_mem word) fun _ listed => listed)
    (fun _ ends => ends) (fun after ends => missing _ (keyword_rejects_skip.mpr ?_)) f
  · obtain ⟨tail, stands⟩ := stands source value rest read
    exact .word List.mem_cons_self stands
  · exact ends.rejects (fun other listed => known other (List.mem_cons_of_mem word listed))
      end_mem_sectionMarks
      isWord apart plain

variable (word) in
/-- A part of one of the words that follow in a projection. -/
theorem stands_of_bind {β : Type} {p : Parser β} {value : β} (plain : IsPlainWord word)
    (read : (keyword word >>= fun _ => p) source = .ok value rest)
    : ∃ tail, Stands word source tail := by
  obtain ⟨_, _, opens, -⟩ := Parser.bind_eq_ok.mp read
  obtain ⟨tail, stands, -⟩ := stands_of_plain word plain opens
  exact ⟨tail, stands⟩

theorem projection_eq
    : projection = (keyword "DISTINCT").optional >>= fun distinct =>
        (((projectedItems >>= fun items => orderByClause.optional >>= fun orderBy =>
            pure (items, orderBy)) >>= fun sorted =>
              (pageClause "SKIP" .skipClause).optional >>= fun skip =>
              pure (sorted, skip)) >>= fun paged =>
                (pageClause "LIMIT" .limitClause).optional >>= fun limit =>
                pure (Projection.mk distinct.isSome paged.1.1
                  (paged.1.2.getD []) paged.2 limit)) := by
  simp only [projection, projectedItems, bind_assoc, pure_bind]

/-- A page bound ends where another part of the query may follow. -/
theorem pageClause_rereads_before (complaint : Complaint) (count : Nat) (isWord : IsWord word)
    (stands
      : ∀ {source rest : List Char} {value : Unit},
          keyword word source = .ok value rest
          → rest ≠ []
          → ∃ tail, Stands word source tail ∧ rest = skip tail)
    : (pageClause word complaint).Rereads true true (EndsBefore (sectionWords.drop count) [';']) :=
  (pageClause_rereads isWord stands).fewer fun _ ends =>
    ends.halts (fun _ => List.mem_of_mem_drop) end_mem_sectionMarks

theorem projection_rereads
    : projection.Rereads true true (EndsBefore (sectionWords.drop 3) [';']) := by
  have sorted := projectedItems_rereads.part "ORDER" (sectionWords.drop 1)
    orderByClause_rereads (fun _ listed => listed) (by decide) (by decide) (by decide)
    (fun _ _ _ read => stands_of_bind _ (by decide) read) (fun _ rejects => rejects.bind)
    fun items orderBy => (items, orderBy)
  have skipped := pageClause_rereads_before .skipClause 2 (by decide)
    stands_of_skip
  have limited := pageClause_rereads_before .limitClause 3 (by decide)
    fun read _ => stands_of_plain "LIMIT" (by decide) read
  have begun {source rest : List Char} {value : Expr}
      (read : pageClause "SKIP" .skipClause source = .ok value rest)
      : ∃ tail, Stands "SKIP" source tail := by
    obtain ⟨place, opens, more, -⟩ := pageClause_eq_ok read
    obtain ⟨tail, stands, -⟩ := stands_of_skip opens more
    exact ⟨tail, stands⟩
  have paged := sorted.part "SKIP" _ skipped (by decide) (by decide) (by decide) (by decide)
    (fun _ _ _ read => begun read) (fun _ rejects => rejects.bind) fun sorted skip => (sorted, skip)
  rw [projection_eq]
  refine Parser.Rereads.leading (by decide) (by decide) fun distinct => ?_
  exact paged.part "LIMIT" _ limited (by decide) (by decide) (by decide) (by decide)
    (fun _ _ _ read => stands_of_bind _ (by decide) read) (fun _ rejects => rejects.bind) _

/-- The items that a query goes on with. -/
def withClause : Parser Clause := do
  keyword "WITH"
  let projection ← projection
  let condition ← whereClause.optional
  pure (.withItems projection condition)

/-- The items that a query returns. -/
def returnClause : Parser Clause := do
  keyword "RETURN"
  let projection ← projection
  pure (.returnItems projection)

/-- A condition ends where another clause may follow. -/
theorem whereClause_rereads_before : whereClause.Rereads true true (EndsBefore clauseWords [';']) :=
  whereClause_rereads.fewer fun _ ends =>
    ends.halts (fun _ => List.mem_of_mem_drop) end_mem_sectionMarks

theorem withClause_rereads : withClause.Rereads true true (EndsBefore clauseWords [';']) := by
  have projected : (keyword "WITH" >>= fun _ => projection).Rereads true true
      (EndsBefore (sectionWords.drop 3) [';']) :=
    (keyword_rereads (by decide) (by decide)).bind fun _ => projection_rereads
  have whole := projected.part "WHERE" _ whereClause_rereads_before (by decide) (by decide)
    (by decide) (by decide) (fun _ _ _ read => stands_of_bind _ (by decide) read)
    (fun _ rejects => rejects.bind) fun projection condition =>
      Clause.withItems projection condition
  rwa [bind_assoc] at whole

theorem returnClause_rereads : returnClause.Rereads true true (EndsBefore clauseWords [';']) :=
  (keyword_rereads (by decide) (by decide)).bind fun _ =>
    (projection_rereads.fewer fun _ ends => ends.mono (by decide) (fun _ listed => listed)).map
      Clause.returnItems

end Projections

end CypherSql.Cypher
