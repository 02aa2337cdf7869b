import CypherSql.Proofs.Parsing.Recursion
import CypherSql.Text.Blank

/-! Reading a part of a source again, with something else behind it. What a parser takes is read
again in the same way where the source ends behind it or goes on with the same character, as long as
what follows is no part of it.
-/

namespace CypherSql.Cypher

open Text

theorem isBlank_of_isSpace {c : Char} (space : isSpace c) : isBlank c := by
  simp only [isSpace, Bool.or_eq_true, decide_eq_true_eq] at space
  rcases space with ((rfl | rfl) | rfl) | rfl <;> decide

/-- The source from where a parser starts, or where the next one does: with blanks skipped or as it
is.
-/
def start (spaced : Bool) (source : List Char) : List Char :=
  if spaced then skip source else source

/-- The text has something in it and no blanks at its ends. -/
structure Trimmed (text : List Char) : Prop where
  first : ∃ c ∈ text.head?, isBlank c = false
  last : ∃ c ∈ text.getLast?, isBlank c = false

/-- Something else in the place of the tail of a source: what opens with the same character, or what
no part goes on with, which is nothing, a space or a closing bracket.
-/
def Beside (tail after : List Char) : Prop :=
  after.head? = tail.head? ∨ ∀ c ∈ after.head?, c = ' ' ∨ c = ']'

/-- A keyword that is rejected where a text stands is still rejected with something else behind it.
-/
def SameWords (text tail after : List Char) : Prop :=
  ∀ word,
    IsPlainWord word
    → 0 < word.utf8ByteSize
    → (keyword word).Rejects (text ++ tail)
    → (keyword word).Rejects (text ++ after)

section Parts

variable {spaced inner outer : Bool} {source text more gap tail after : List Char}

theorem Trimmed.ne_nil (trimmed : Trimmed text) : text ≠ [] := by
  rintro rfl
  obtain ⟨c, opens, -⟩ := trimmed.first
  cases opens

theorem Trimmed.solid (trimmed : Trimmed text) : Solid text := by
  obtain ⟨c, opens, noBlank⟩ := trimmed.first
  obtain ⟨others, rfl⟩ := List.head?_eq_some_iff.mp opens
  refine ⟨c, others, rfl, Bool.eq_false_iff.mpr fun space => ?_⟩
  rw [isBlank_of_isSpace space] at noBlank
  cases noBlank

theorem trimmed_singleton {c : Char} (noBlank : isBlank c = false) : Trimmed [c] :=
  ⟨⟨c, rfl, noBlank⟩, ⟨c, rfl, noBlank⟩⟩

theorem Trimmed.append (trimmed : Trimmed text) (also : Trimmed more) (gap : List Char)
    : Trimmed (text ++ (gap ++ more)) := by
  obtain ⟨c, opens, noBlank⟩ := trimmed.first
  obtain ⟨d, ends, alsoNoBlank⟩ := also.last
  refine ⟨⟨c, ?_, noBlank⟩, ⟨d, ?_, alsoNoBlank⟩⟩
  · rw [List.head?_append, Option.mem_def.mp opens]
    rfl
  · rw [List.getLast?_append, List.getLast?_append, Option.mem_def.mp ends]
    rfl

theorem start_append (trimmed : Trimmed text) (rest : List Char)
    : start spaced (text ++ rest) = text ++ rest := by
  cases spaced with
  | false => rfl
  | true => exact trimmed.solid.skip_append rest

theorem length_start_le (spaced : Bool) (source : List Char)
    : (start spaced source).length ≤ source.length := by
  cases spaced with
  | false => exact Nat.le_refl _
  | true => exact length_skip_le source

theorem start_start : start inner (start outer source) = start (outer || inner) source := by
  cases outer with
  | false => rfl
  | true =>
      cases inner with
      | false => rfl
      | true => exact skip_skip source

theorem skip_gap (spaces : ∀ c ∈ gap, isSpace c) (source : List Char)
    : skip (gap ++ source) = skip source :=
  List.dropWhile_append_of_pos spaces

/-- The blanks before a text, which are skipped whatever follows the text. -/
theorem exists_gap (here : start spaced source = text ++ tail) (trimmed : Trimmed text)
    : ∃ gap,
        source = gap ++ (text ++ tail)
        ∧ (∀ c ∈ gap, isSpace c)
        ∧ ∀ after, start spaced (gap ++ (text ++ after)) = text ++ after := by
  cases spaced with
  | false => exact ⟨[], here, nofun, fun after => rfl⟩
  | true =>
      have spaces : ∀ c ∈ source.takeWhile isSpace, isSpace c := fun c => List.mem_takeWhile_imp
      refine ⟨source.takeWhile isSpace, ?_, spaces, fun after => ?_⟩
      · rw [← here]
        exact List.takeWhile_append_dropWhile.symm
      · exact (skip_gap spaces _).trans (trimmed.solid.skip_append after)

theorem Beside.append (beside : Beside tail after) (more : List Char)
    : Beside (more ++ tail) (more ++ after) := by
  cases more with
  | nil => exact beside
  | cons c more => exact .inl rfl

/-- What is said of the first character of a tail holds of what stands beside it. -/
theorem Beside.head {holds : Char → Prop} (beside : Beside tail after)
    (each : ∀ c ∈ tail.head?, holds c)
    (ends : holds ' ' ∧ holds ']')
    : ∀ c ∈ after.head?, holds c := by
  rcases beside with same | bland
  · rwa [same]
  · intro c opens
    rcases bland c opens with rfl | rfl
    · exact ends.1
    · exact ends.2

theorem Beside.wordEnds (beside : Beside tail after) (ends : WordEnds tail) : WordEnds after :=
  beside.head ends (by decide)

theorem SameWords.append (same : SameWords text (gap ++ (more ++ tail)) (gap ++ (more ++ after)))
    : SameWords (text ++ (gap ++ more)) tail after := by
  intro word plain nonempty rejects
  rw [List.append_assoc, List.append_assoc] at rejects ⊢
  exact same word plain nonempty rejects

/-- No keyword opens with a character that is no letter. -/
theorem keyword_rejects_of_head {word : String} (plain : IsPlainWord word)
    (nonempty : 0 < word.utf8ByteSize)
    (noLetter : ∀ c ∈ (skip source).head?, c.isAlpha = false)
    : (keyword word).Rejects source := by
  refine keyword_rejects_head nonempty fun same => ?_
  cases letters : word.toList with
  | nil =>
      obtain rfl := String.toList_eq_nil_iff.mp letters
      cases nonempty
  | cons w others =>
      rw [letters] at same
      obtain ⟨c, opens, folded⟩ := Option.map_eq_some_iff.mp same.symm
      have alpha :=
        isAlpha_of_isPlain (isPlain_of_foldCase folded (plain.letters w (by simp [letters])))
      rw [noLetter c opens] at alpha
      cases alpha

theorem sameWords_of_head (trimmed : Trimmed text) (noLetter : ∀ c ∈ text.head?, c.isAlpha = false)
    : SameWords text tail after := by
  intro word plain nonempty _
  refine keyword_rejects_of_head plain nonempty fun c opens => noLetter c ?_
  rw [trimmed.solid.skip_append, List.head?_append_of_ne_nil text trimmed.ne_nil] at opens
  exact opens

/-- What is read between blanks is read behind the first of them, up to the others. -/
theorem padded_eq_ok {α : Type} {p : Parser α} {value : α} {rest : List Char}
    (read : padded p source = .ok value rest)
    : ∃ middle, p (skip source) = .ok value middle ∧ rest = skip middle := by
  obtain ⟨_, _, here, read⟩ := Parser.bind_eq_ok.mp read
  obtain ⟨_, middle, inside, read⟩ := Parser.bind_eq_ok.mp read
  obtain ⟨_, _, later, last⟩ := Parser.bind_eq_ok.mp read
  cases here
  cases later
  cases last
  exact ⟨middle, inside, rfl⟩

theorem wordEnd_eq_ok {value : Unit} {rest : List Char} (read : wordEnd source = .ok value rest)
    : rest = source ∧ WordEnds source := by
  cases source with
  | nil =>
      cases read
      exact ⟨rfl, wordEnds_nil⟩
  | cons c source =>
      unfold wordEnd at read
      simp only at read
      split at read
      · cases read
      · rename_i noWord
        cases read
        exact ⟨rfl, wordEnds_cons (by simpa using noWord)⟩

/-- What is read as a keyword are its letters, in whatever case they are written. -/
theorem keyword_eq_ok {word : String} (plain : IsPlainWord word) {value : Unit} {rest : List Char}
    (read : keyword word source = .ok value rest)
    : ∃ letters tail,
        skip source = letters ++ tail
        ∧ letters.map foldCase = word.toList.map foldCase
        ∧ WordEnds tail
        ∧ rest = skip tail := by
  obtain ⟨middle, whole, rfl⟩ := padded_eq_ok read
  obtain ⟨_, tail, literal, ends⟩ := Parser.bind_eq_ok.mp whole
  obtain ⟨rfl, wordEnds⟩ := wordEnd_eq_ok ends
  have opens : ((skip source).take word.length).map foldCase = word.toList.map foldCase := by
    by_contra differs
    exact (wordLiterally_rejects plain differs).not_ok literal
  have narrow : ∀ c ∈ (skip source).take word.length, c.utf8Size = 1 :=
    fun c member => utf8Size_of_isAlpha
      (isAlpha_of_isPlain (forall_isPlain plain.letters opens c member))
  have split : skip source = (skip source).take word.length ++ (skip source).drop word.length :=
    (List.take_append_drop _ _).symm
  rw [split, wordLiterally_read plain.narrow opens narrow] at literal
  cases literal
  exact ⟨_, _, split, opens, wordEnds, rfl⟩

/-- A word that is no keyword is none with something else behind it, as long as the word ends there.
-/
theorem sameWords_of_word (trimmed : Trimmed text) (isWord : ∀ c ∈ text, isWordChar c)
    (ends : WordEnds tail)
    (also : WordEnds after)
    : SameWords text tail after := by
  intro word plain nonempty rejects
  refine keyword_rejects_word plain (trimmed.solid.skip_append after) isWord also fun same => ?_
  have narrow : ∀ c ∈ text, c.utf8Size = 1 :=
    fun c member => utf8Size_of_isAlpha
      (isAlpha_of_isPlain (forall_isPlain plain.letters same c member))
  exact rejects.not_ok
    (keyword_read_letters plain.narrow (trimmed.solid.skip_append tail) same narrow ends)

end Parts

/-- A text is read as a value wherever it stands, as long as something follows it that is no part of
it. The parser may skip blanks before the text and behind it.
-/
structure Parser.Reread {α : Type} (p : Parser α) (before behind : Bool)
    (follows : List Char → Prop) (value : α)
    (text tail : List Char)
    : Prop where
  trimmed : Trimmed text
  words : ∀ after, follows after → Beside tail after → SameWords text tail after
  again
    : ∀ source after,
        start before source = text ++ after
        → follows after
        → Beside tail after
        → p source = .ok value (start behind after)

/-- What a parser takes of a source is a text that it reads again. -/
def Parser.RereadsAt {α : Type} (p : Parser α) (before behind : Bool) (follows : List Char → Prop)
    (source : List Char) (value : α) (rest : List Char)
    : Prop :=
  ∃ text tail,
    start before source = text ++ tail
    ∧ rest = start behind tail
    ∧ p.Reread before behind follows value text tail

/-- Whatever a parser reads is read again. -/
def Parser.Rereads {α : Type} (p : Parser α) (before behind : Bool) (follows : List Char → Prop)
    : Prop :=
  ∀ source value rest, p source = .ok value rest
    → p.RereadsAt before behind follows source value rest

/-- A parser that rejects a text still does so with something else behind it. -/
def Parser.Steady {α : Type} (p : Parser α) : Prop :=
  ∀ text tail after,
    Trimmed text
    → SameWords text tail after
    → Beside tail after
    → p.Rejects (text ++ tail)
    → p.Rejects (text ++ after)

namespace Parser

section Sequences

variable {α β : Type} {p : Parser α} {f : α → Parser β} {before middle inner behind : Bool}
  {follows last : List Char → Prop} {value : α} {result : β}
  {source rest text gap more tail : List Char}

theorem Reread.mono (reread : p.Reread before behind follows value text tail)
    (fewer : ∀ after, last after → follows after)
    : p.Reread before behind last value text tail where
  trimmed := reread.trimmed
  words after ends := reread.words after (fewer after ends)
  again source after here ends := reread.again source after here (fewer after ends)

theorem RereadsAt.mono (reread : p.RereadsAt before behind follows source value rest)
    (fewer : ∀ after, last after → follows after)
    : p.RereadsAt before behind last source value rest := by
  obtain ⟨text, tail, here, same, reread⟩ := reread
  exact ⟨text, tail, here, same, reread.mono fewer⟩

/-- A parser that reads the same as another one reads it again if that one does. -/
theorem Reread.congr {q : Parser α} (reread : q.Reread before behind follows value text tail)
    (same : ∀ source rest, q source = .ok value rest → p source = .ok value rest)
    : p.Reread before behind follows value text tail where
  trimmed := reread.trimmed
  words := reread.words
  again source after here ends beside := same source _ (reread.again source after here ends beside)

theorem RereadsAt.congr {q : Parser α}
    (reread : q.RereadsAt before behind follows source value rest)
    (same : ∀ source rest, q source = .ok value rest → p source = .ok value rest)
    : p.RereadsAt before behind follows source value rest := by
  obtain ⟨text, tail, here, equal, reread⟩ := reread
  exact ⟨text, tail, here, equal, reread.congr same⟩

/-- A text is read again with another one behind it. -/
theorem Reread.bind (first : p.Reread before middle follows value text (gap ++ (more ++ tail)))
    (second : (f value).Reread inner behind last result more tail)
    (here : ∀ after, start inner (start middle (gap ++ (more ++ after))) = more ++ after)
    (joins : ∀ after, last after → Beside tail after → follows (gap ++ (more ++ after)))
    : (p >>= f).Reread before behind last result (text ++ (gap ++ more)) tail where
  trimmed := first.trimmed.append second.trimmed gap
  words after ends beside := by
    refine SameWords.append (first.words _ (joins after ends beside) ?_)
    exact (beside.append more).append gap
  again source after opens ends beside := by
    rw [List.append_assoc, List.append_assoc] at opens
    have opening :=
      first.again source _ opens (joins after ends beside) ((beside.append more).append gap)
    exact (bind_of_ok opening).trans (second.again _ after (here after) ends beside)

/-- A text that a parser takes as it stands, without blanks around it. -/
theorem rereadsAt_of_text (whole : source = text ++ rest) (trimmed : Trimmed text)
    (words : ∀ after, Beside rest after → SameWords text rest after)
    (again : ∀ after, Beside rest after → p (text ++ after) = .ok value after)
    : p.RereadsAt false false (fun _ => True) source value rest := by
  refine ⟨text, rest, whole, rfl, trimmed, fun after _ => words after, ?_⟩
  rintro other after opens - beside
  obtain rfl : other = text ++ after := opens
  exact again after beside

/-- A sequence is read again if its parts are, where what the second part reads may follow the
first.
-/
theorem RereadsAt.bind {place : List Char}
    (first : p.RereadsAt before middle follows source value place)
    (second : (f value).RereadsAt inner behind last place result rest)
    (spaces : ∀ gap source, (∀ c ∈ gap, isSpace c) → follows source → follows (gap ++ source))
    (joins : ∀ source after,
      f value source = .ok result (start behind after) → last after → follows source)
    : (p >>= f).RereadsAt before behind last source result rest := by
  obtain ⟨text, tail, here, rfl, first⟩ := first
  obtain ⟨more, later, next, rfl, second⟩ := second
  rw [start_start] at next
  obtain ⟨gap, rfl, blank, skips⟩ := exists_gap next second.trimmed
  have skipped (after : List Char)
      : start inner (start middle (gap ++ (more ++ after))) = more ++ after := by
    rw [start_start, skips]
  refine ⟨text ++ (gap ++ more), later, by rw [here]; simp, rfl, ?_⟩
  refine first.bind second skipped fun after ends beside => spaces gap _ blank ?_
  refine joins _ after (second.again _ after ?_ ends beside) ends
  exact start_append second.trimmed after

theorem RereadsAt.map (reread : p.RereadsAt before behind follows source value rest) (g : α → β)
    : (p >>= fun value => pure (g value)).RereadsAt before behind follows source
      (g value) rest := by
  obtain ⟨text, tail, here, same, reread⟩ := reread
  exact ⟨text, tail, here, same, reread.trimmed, reread.words,
    fun source after opens ends beside => bind_of_ok (reread.again source after opens ends beside)⟩

theorem Rereads.map (rereads : p.Rereads before behind follows) (g : α → β)
    : (p >>= fun value => pure (g value)).Rereads before behind follows := by
  intro source result rest read
  obtain ⟨value, middle, found, same⟩ := bind_eq_ok.mp read
  cases same
  exact (rereads source value rest found).map g

/-- What may be followed by anything may be followed by another part. -/
theorem Rereads.bind (first : p.Rereads before middle fun _ => True)
    (second : ∀ value, (f value).Rereads inner behind last)
    : (p >>= f).Rereads before behind last := by
  intro source result rest read
  obtain ⟨value, place, found, more⟩ := bind_eq_ok.mp read
  exact (first source value place found).bind (second value place result rest more)
    (fun _ _ _ _ => trivial)
    fun _ _ _ _ => trivial

theorem RereadsAt.padded {middle : List Char}
    (reread : p.RereadsAt before behind follows (skip source) value middle)
    : (padded p).RereadsAt true true follows source value (skip middle) := by
  obtain ⟨text, tail, here, rfl, reread⟩ := reread
  have opens : start before (skip source) = skip source := by
    cases before with
    | false => rfl
    | true => exact skip_skip source
  have later (after : List Char) : skip (start behind after) = skip after := by
    cases behind with
    | false => rfl
    | true => exact skip_skip after
  refine ⟨text, tail, opens.symm.trans here, later tail, reread.trimmed, reread.words, ?_⟩
  intro other after starts ends beside
  refine (padded_of_ok (reread.again _ after ?_ ends beside)).trans ?_
  · rw [show skip other = text ++ after from starts, start_append reread.trimmed]
  · rw [later]
    rfl

theorem Rereads.padded (rereads : p.Rereads before behind follows)
    : (padded p).Rereads true true follows := by
  intro source value rest read
  obtain ⟨middle, found, rfl⟩ := padded_eq_ok read
  exact (rereads _ value middle found).padded

end Sequences

section Choices

variable {α : Type} {p q : Parser α} {ps : List (Parser α)} {before behind : Bool}
  {follows : List Char → Prop}
  {value : α} {source rest : List Char}

theorem choice_one : choice [p] source = .ok value rest ↔ p source = .ok value rest := by
  rw [choice_eq_ok]
  constructor
  · intro picks
    cases picks with
    | here read => exact read
    | there _ later => cases later
  · exact .here

theorem choice_two
    : choice [p, q] source = .ok value rest
      ↔ p source = .ok value rest ∨ p.Rejects source ∧ q source = .ok value rest := by
  rw [choice_eq_ok]
  constructor
  · intro picks
    cases picks with
    | here read => exact .inl read
    | there rejects later => exact .inr ⟨rejects, choice_one.mp (choice_eq_ok.mpr later)⟩
  · rintro (read | ⟨rejects, read⟩)
    · exact .here read
    · exact .there rejects (.here read)

theorem RereadsAt.choice_here (reread : p.RereadsAt before behind follows source value rest)
    : (choice (p :: ps)).RereadsAt before behind follows source value rest :=
  reread.congr fun _ _ read => choice_eq_ok.mpr (.here read)

/-- A later parser of a choice is read again where those before it still reject the text. -/
theorem RereadsAt.choice_there
    (later : (choice ps).RereadsAt before behind follows source value rest)
    (rejects
      : ∀ text tail,
          start before source = text ++ tail
          → (choice ps).Reread before behind follows value text tail
          → ∀ other after,
              start before other = text ++ after → follows after → Beside tail after
                → p.Rejects other)
    : (choice (p :: ps)).RereadsAt before behind follows source value rest := by
  obtain ⟨text, tail, here, same, reread⟩ := later
  refine ⟨text, tail, here, same, reread.trimmed, reread.words,
    fun other after opens ends beside => ?_⟩
  have found := choice_eq_ok.mp (reread.again other after opens ends beside)
  exact choice_eq_ok.mpr
    (.there (rejects text tail here reread other after opens ends beside) found)

/-- The same where no source is read by both. -/
theorem RereadsAt.choice_apart
    (later : (choice ps).RereadsAt before behind follows source value rest)
    (apart : ∀ source rest, choice ps source = .ok value rest → p.Rejects source)
    : (choice (p :: ps)).RereadsAt before behind follows source value rest :=
  later.choice_there fun _ _ _ reread other after opens ends beside =>
    apart other _ (reread.again other after opens ends beside)

/-- A choice between two parsers that read different sources. -/
theorem Rereads.choice_apart (first : p.Rereads before behind follows)
    (second : q.Rereads before behind follows)
    (apart : ∀ source value rest, q source = .ok value rest → p.Rejects source)
    : (Parser.choice [p, q]).Rereads before behind follows := by
  intro source value rest read
  rcases choice_two.mp read with read | ⟨-, read⟩
  · exact (first source value rest read).choice_here
  · exact (second source value rest read).choice_here.choice_apart fun other after read =>
      apart other value after (choice_one.mp read)

/-- A choice between parsers that are steady, by induction over them. -/
theorem Rereads.choice (each : ∀ p ∈ ps, p.Rereads false behind follows)
    (steady : ∀ p ∈ ps, p.Steady)
    : (choice ps).Rereads false behind follows := by
  intro source value rest read
  have picks := choice_eq_ok.mp read
  clear read
  induction ps with
  | nil => cases picks
  | cons p ps ih =>
      rw [List.forall_mem_cons] at each steady
      cases picks with
      | here read => exact (each.1 source value rest read).choice_here
      | there rejects later =>
          refine (ih each.2 steady.2 later).choice_there ?_
          rintro text tail opens reread other after here ends beside
          obtain rfl : source = text ++ tail := opens
          obtain rfl : other = text ++ after := here
          exact steady.1 text tail after reread.trimmed
            (reread.words after ends beside) beside rejects

end Choices

section Repetitions

variable {α : Type} {first : Parser α} {step : α → Parser (Option α)}
  {before middle inner behind : Bool}
  {follows last : List Char → Prop}

/-- A text is read as a first value and some rounds of a repetition, wherever it stands. -/
structure Reaches (first : Parser α) (step : α → Parser (Option α)) (before behind : Bool)
    (follows : List Char → Prop) (value : α) (text tail : List Char)
    : Prop where
  trimmed : Trimmed text
  words : ∀ after, follows after → Beside tail after → SameWords text tail after
  again
    : ∀ source after,
        start before source = text ++ after
        → follows after
        → Beside tail after
        → ∃ opening place,
            first source = .ok opening place
            ∧ Steps step opening place value (start behind after)

/-- One more round is read behind those that were read. -/
theorem Reaches.snoc {state next : α} {text gap more tail : List Char} {now : Bool}
    (reached : Reaches first step before now follows state text (gap ++ (more ++ tail)))
    (round : (step state).Reread inner behind follows (some next) more tail)
    (here : ∀ after, start inner (start now (gap ++ (more ++ after))) = more ++ after)
    (joins : ∀ after, follows after → Beside tail after → follows (gap ++ (more ++ after)))
    : Reaches first step before behind follows next (text ++ (gap ++ more)) tail where
  trimmed := reached.trimmed.append round.trimmed gap
  words after ends beside := by
    refine SameWords.append (reached.words _ (joins after ends beside) ?_)
    exact (beside.append more).append gap
  again source after opens ends beside := by
    rw [List.append_assoc, List.append_assoc] at opens
    obtain ⟨opening, place, found, steps⟩ :=
      reached.again source _ opens (joins after ends beside) ((beside.append more).append gap)
    refine ⟨opening, place, found, steps.snoc (round.again _ after (here after) ends beside) ?_⟩
    have most := length_start_le inner (start now (gap ++ (more ++ after)))
    have less := length_start_le behind after
    have some := List.length_pos_of_ne_nil round.trimmed.ne_nil
    rw [here after, List.length_append] at most
    omega

/-- What a repetition reads behind a first value is read again, by induction over its rounds: each
may follow what is read before it.
-/
theorem Runs.reaches {state value : α} {source place rest text tail : List Char} {now : Bool}
    (runs : Runs step state place (.ok value rest)) (whole : start before source = text ++ tail)
    (here : place = start now tail) (either : now = middle ∨ now = behind)
    (reached : Reaches first step before now follows state text tail)
    (rounds
      : ∀ state source next rest,
          step state source = .ok (some next) rest
          → (step state).RereadsAt inner behind follows source (some next) rest)
    (stays : ∀ state source rest, step state source = .ok none rest → rest = source)
    (spaces : ∀ gap source, (∀ c ∈ gap, isSpace c) → follows source → follows (gap ++ source))
    (joins
      : ∀ state source next after,
          step state source = .ok (some next) (start behind after) → follows after → follows source)
    : ∃ text tail now,
        start before source = text ++ tail
        ∧ rest = start now tail
        ∧ (now = middle ∨ now = behind)
        ∧ Reaches first step before now follows value text tail := by
  generalize same : Reply.ok value rest = reply at runs
  induction runs generalizing text tail now with
  | done reads =>
      cases same
      exact ⟨text, tail, now, whole, (stays _ _ _ reads).trans here, either, reached⟩
  | rejected => cases same
  | failed => cases same
  | @more state place next later reply reads _ ih =>
      obtain ⟨more, after, opens, rfl, round⟩ := rounds state place next later reads
      rw [here, start_start] at opens
      obtain ⟨gap, rfl, blank, skips⟩ := exists_gap opens round.trimmed
      have skipped (after : List Char)
          : start inner (start now (gap ++ (more ++ after))) = more ++ after := by
        rw [start_start, skips]
      refine ih (by rw [whole]; simp) rfl (.inr rfl)
        (reached.snoc round skipped fun after ends beside => ?_) same
      refine spaces gap _ blank (joins state _ next after (round.again _ after ?_ ends beside) ends)
      exact start_append round.trimmed after

/-- A repetition behind a first value is read again where it ends before what follows. -/
theorem Rereads.iterate (head : first.Rereads before middle follows)
    (rounds
      : ∀ state source next rest,
          step state source = .ok (some next) rest
          → (step state).RereadsAt inner behind follows source (some next) rest)
    (stays : ∀ state source rest, step state source = .ok none rest → rest = source)
    (spaces : ∀ gap source, (∀ c ∈ gap, isSpace c) → follows source → follows (gap ++ source))
    (joins
      : ∀ state source next after,
          step state source = .ok (some next) (start behind after) → follows after → follows source)
    (proceeds : Proceeds step) (fewer : ∀ after, last after → follows after)
    (ends
      : ∀ state now after,
          now = middle ∨ now = behind
          → last after
          → step state (start now after) = .ok none (start now after))
    {source : List Char} {value : α} {rest : List Char}
    (read : (first >>= Parser.iterate step) source = .ok value rest)
    : ∃ now,
        (now = middle ∨ now = behind)
        ∧ (first >>= Parser.iterate step).RereadsAt before now last source value rest := by
  obtain ⟨opening, place, found, more⟩ := bind_eq_ok.mp read
  obtain ⟨text, tail, whole, here, reread⟩ := head source opening place found
  have reached : Reaches first step before middle follows opening text tail := {
    trimmed := reread.trimmed
    words := reread.words
    again := fun source after opens ends beside =>
      ⟨opening, _, reread.again source after opens ends beside, .done⟩
  }
  have runs := proceeds.runs_iff.mpr more.symm
  obtain ⟨text, tail, now, whole, rfl, either, reached⟩ :=
    runs.reaches whole here (.inl rfl) reached rounds stays spaces joins
  refine ⟨now, either, text, tail, whole, rfl, reached.trimmed, ?_,
    fun source after opens stops beside => ?_⟩
  · exact fun after stops => reached.words after (fewer after stops)
  · obtain ⟨opening, place, found, steps⟩ :=
      reached.again source after opens (fewer after stops) beside
    exact (bind_of_ok found).trans (steps.iterate (ends value now after either stops))

end Repetitions

end Parser

end CypherSql.Cypher
