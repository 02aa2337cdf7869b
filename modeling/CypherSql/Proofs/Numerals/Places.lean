import CypherSql.Proofs.Rereading.Operands

/-! The places that parsers lead to. None of them leaves off inside a run of digits, so that a
number is read from its first digit on or not at all.
-/

namespace CypherSql.Cypher

/-- A parser leads from places of a kind to such places, and what it reads from them has a property.
-/
def Parser.Keeps {α : Type} (place : List Char → Prop) (holds : α → Prop) (p : Parser α) : Prop :=
  ∀ source value rest, place source → p source = .ok value rest → place rest ∧ holds value

/-- A parser leads from places of a kind to such places, whatever it reads. -/
abbrev Parser.Passes {α : Type} (place : List Char → Prop) (p : Parser α) : Prop :=
  p.Keeps place fun _ => True

namespace Parser.Keeps

variable {α β : Type} {place : List Char → Prop} {holds : α → Prop} {p : Parser α}

theorem mono {weaker : α → Prop} (keeps : p.Keeps place holds)
    (implies : ∀ value, holds value → weaker value)
    : p.Keeps place weaker :=
  fun source value rest here read => (keeps source value rest here read).imp_right (implies value)

theorem anyway (keeps : p.Keeps place holds) : p.Passes place :=
  keeps.mono fun _ _ => trivial

theorem pure {value : α} (fact : holds value) : (Pure.pure value : Parser α).Keeps place holds := by
  rintro source _ rest here ⟨⟩
  exact ⟨here, fact⟩

theorem reject : (Parser.reject : Parser α).Keeps place holds := by
  rintro source value rest here ⟨⟩

/-- A sequence reads what its second parser reads, from a place that the first one leads to. -/
theorem bind {next : α → Parser β} {last : β → Prop} (first : p.Keeps place holds)
    (second : ∀ value, holds value → (next value).Keeps place last)
    : (p >>= next).Keeps place last := by
  intro source result rest here read
  obtain ⟨value, middle, found, read⟩ := bind_eq_ok.mp read
  obtain ⟨there, fact⟩ := first source value middle here found
  exact second value fact middle result rest there read

theorem optional (keeps : p.Keeps place holds)
    : p.optional.Keeps place fun found => ∀ value ∈ found, holds value := by
  intro source found rest here read
  rcases optional_eq_ok read with ⟨value, rfl, some⟩ | ⟨rfl, rfl⟩
  · obtain ⟨there, fact⟩ := keeps source value rest here some
    exact ⟨there, by simpa using fact⟩
  · exact ⟨here, by simp⟩

theorem committed (keeps : p.Keeps place holds) : p.committed.Keeps place holds := by
  intro source value rest here read
  unfold Parser.committed at read
  split at read
  · cases read
  · exact keeps source value rest here read

theorem within (keeps : p.Keeps place holds) (complaint : Complaint)
    : (p.within complaint).Keeps place holds := by
  intro source value rest here read
  unfold Parser.within at read
  split at read
  · rename_i found
    cases read
    exact keeps source value rest here found
  · cases read
  · cases read

theorem reading (passes : p.Passes place) (read : α → Option β)
    : (p.reading read).Passes place := by
  intro source result rest here found
  obtain ⟨value, found, -⟩ := reading_eq_ok.mp found
  exact ⟨(passes source value rest here found).1, trivial⟩

theorem satisfying (keeps : p.Keeps place holds) (wanted : α → Bool)
    : (p.satisfying wanted).Keeps place holds := by
  intro source value rest here read
  exact keeps source value rest here (satisfying_eq_ok.mp read).1

theorem consumed (passes : p.Passes place) : p.consumed.Passes place := by
  intro source text rest here read
  obtain ⟨value, found, -⟩ := consumed_eq_ok read
  exact ⟨(passes source value rest here found).1, trivial⟩

/-- A choice reads what one of its parsers reads. -/
theorem choice {ps : List (Parser α)} (each : ∀ p ∈ ps, p.Keeps place holds)
    : (Parser.choice ps).Keeps place holds := by
  intro source value rest here read
  obtain ⟨p, member, read⟩ := (choice_eq_ok.mp read).exists_mem
  exact each p member source value rest here read

/-- A repeated step keeps what holds of its state, by induction over the number of times. -/
theorem iterate {step : α → Parser (Option α)} {start : α} (initial : holds start)
    (kept : ∀ state, holds state → (step state).Keeps place fun next => ∀ later ∈ next, holds later)
    : (Parser.iterate step start).Keeps place holds := by
  intro source value rest here read
  suffices times : ∀ n state, holds state → (iterateWithin step n state).Keeps place holds from
    times _ start initial source value rest here read
  intro n
  induction n with
  | zero => exact fun state fact => pure fact
  | succ n ih =>
      intro state fact
      refine (kept state fact).bind fun next later => ?_
      cases next with
      | none => exact pure fact
      | some next => exact ih next (later next rfl)

theorem manyAfter (keeps : p.Keeps place holds) {before : List α}
    (earlier : ∀ value ∈ before, holds value)
    : (Parser.manyAfter p before).Keeps place fun values => ∀ value ∈ values, holds value := by
  refine iterate earlier fun seen all => keeps.optional.bind fun found one => ?_
  cases found with
  | none => exact pure (by simp)
  | some value =>
      refine pure fun later same => ?_
      obtain rfl := Option.some.inj same
      exact List.forall_mem_cons.mpr ⟨one value rfl, all⟩

theorem many (keeps : p.Keeps place holds)
    : (Parser.many p).Keeps place fun values => ∀ value ∈ values, holds value :=
  (keeps.manyAfter (by simp)).bind fun values all => pure (by simpa using all)

theorem many1 (keeps : p.Keeps place holds)
    : (Parser.many1 p).Keeps place fun values => ∀ value ∈ values, holds value := by
  refine @bind _ _ place holds _ _ _ (fun source value rest here read => ?_) fun first fact =>
    (keeps.manyAfter (by simpa using fact)).bind fun values all => pure (by simpa using all)
  split at read
  · cases read
  · exact keeps source value rest here read

section Separated

variable {separator : Parser β}

theorem separated1 (separates : separator.Passes place) (keeps : p.Keeps place holds)
    : (Parser.separated1 separator p).Keeps place fun values => ∀ value ∈ values, holds value :=
  keeps.bind fun _ fact =>
    ((separates.bind fun _ _ => keeps).manyAfter (by simpa using fact)).bind fun _ all =>
      pure (by simpa using all)

theorem separated (separates : separator.Passes place) (keeps : p.Keeps place holds)
    : (Parser.separated separator p).Keeps place fun values => ∀ value ∈ values, holds value := by
  refine (separates.separated1 keeps).optional.bind fun found each => ?_
  cases found with
  | none => exact pure (by simp)
  | some values => exact pure (each values rfl)

end Separated

end Parser.Keeps

/-- A later place of a source, which is not inside a run of its digits. -/
def Uncut (whole here : List Char) : Prop :=
  ∃ before, whole = before ++ here ∧ ((∀ c ∈ before.getLast?, c.isDigit = false) ∨ LacksDigit here)

section Places

variable {α : Type} {whole source rest taken : List Char} {p : Parser α} {c : Char}

theorem uncut_refl (source : List Char) : Uncut source source :=
  ⟨[], rfl, .inl (by simp)⟩

theorem Uncut.trans (first : Uncut whole source) (second : Uncut source rest)
    : Uncut whole rest := by
  obtain ⟨before, rfl, apart⟩ := first
  obtain ⟨taken, rfl, later⟩ := second
  refine ⟨before ++ taken, (List.append_assoc ..).symm, ?_⟩
  rcases eq_or_ne taken [] with rfl | nonempty
  · simpa using apart
  · rwa [List.getLast?_append_of_ne_nil _ nonempty]

theorem uncut_of_lacksDigit (suffix : rest <:+ source) (lacks : LacksDigit rest)
    : Uncut source rest := by
  obtain ⟨taken, rfl⟩ := suffix
  exact ⟨taken, rfl, .inr lacks⟩

/-- No run of digits goes on behind another character. -/
theorem uncut_of_cons (noDigit : c.isDigit = false) (suffix : c :: rest <:+ source)
    : Uncut source rest := by
  obtain ⟨taken, rfl⟩ := suffix
  refine ⟨taken ++ [c], by simp, .inl ?_⟩
  simpa using noDigit

theorem passes_of_uncut (uncut : ∀ source value rest, p source = .ok value rest → Uncut source rest)
    : p.Passes (Uncut whole) :=
  fun source value rest here read => ⟨here.trans (uncut source value rest read), trivial⟩

/-- A parser that stops where no digit stands does not stop inside a run of them. -/
theorem passes_of_lacksDigit {least : Nat} (advances : p.Advances least)
    (lacks : ∀ source value rest, p source = .ok value rest → LacksDigit rest)
    : p.Passes (Uncut whole) :=
  passes_of_uncut fun source value rest read =>
    uncut_of_lacksDigit (advances.suffix read) (lacks source value rest read)

end Places

section Lexemes

variable {α : Type} {whole : List Char}

theorem blanks_passes : blanks.Passes (Uncut whole) := by
  refine passes_of_uncut fun source value rest read => ?_
  cases read
  refine ⟨source.takeWhile isSpace, List.takeWhile_append_dropWhile.symm, .inl fun c last => ?_⟩
  have space : isSpace c := List.mem_takeWhile_imp (List.mem_of_getLast? last)
  simp only [isSpace, Bool.or_eq_true, decide_eq_true_eq] at space
  rcases space with ((rfl | rfl) | rfl) | rfl <;> rfl

theorem Parser.Keeps.padded {holds : α → Prop} {p : Parser α} (keeps : p.Keeps (Uncut whole) holds)
    : (padded p).Keeps (Uncut whole) holds :=
  blanks_passes.bind fun _ _ => keeps.bind fun _ fact => blanks_passes.bind fun _ _ => .pure fact

theorem char_passes {c : Char} (noDigit : c.isDigit = false) : (char c).Passes (Uncut whole) := by
  refine passes_of_uncut fun source value rest read => ?_
  obtain rfl := char_eq_ok.mp read
  exact uncut_of_cons noDigit (List.suffix_refl _)

theorem mark_passes {c : Char} (noDigit : c.isDigit = false) : (mark c).Passes (Uncut whole) :=
  (char_passes noDigit).padded

theorem literally_passes {text : String} (noDigit : text.toList.getLast?.any Char.isDigit = false)
    : (literally text).Passes (Uncut whole) := by
  refine passes_of_uncut fun source value rest read => ?_
  refine ⟨text.toList, literally_eq_ok read, .inl fun c last => ?_⟩
  rwa [Option.mem_def.mp last, Option.any_some] at noDigit

/-- A keyword is followed by the end of a word, and digits are parts of words. -/
theorem keyword_passes {word : String} (nonempty : 0 < word.utf8ByteSize)
    : (keyword word).Passes (Uncut whole) := by
  refine Parser.Keeps.padded ?_
  have advances := (wordLiterally_advances nonempty).bind fun _ => wordEnd_advances
  refine passes_of_lacksDigit advances fun source value rest read => ?_
  obtain ⟨_, middle, -, ended⟩ := Parser.bind_eq_ok.mp read
  obtain ⟨rfl, ends⟩ := wordEnd_eq_ok ended
  exact ends.lacksDigit

theorem keywordAs_passes {word : String} (nonempty : 0 < word.utf8ByteSize) (value : α)
    : (keywordAs word value).Passes (Uncut whole) :=
  (keyword_passes nonempty).bind fun _ _ => .pure trivial

theorem bareName_passes : bareName.Passes (Uncut whole) :=
  passes_of_lacksDigit bareName_advances fun _ _ _ read => (bareName_eq_ok read).2.1.lacksDigit

theorem quotedName_passes : quotedName.Passes (Uncut whole) := by
  refine passes_of_uncut fun source name rest read => ?_
  obtain ⟨-, rfl⟩ := quotedName_eq_ok read
  exact uncut_of_cons (c := '`') (by decide) (List.suffix_append ('`' :: name) _)

theorem symbolicName_passes : symbolicName.Passes (Uncut whole) :=
  .choice (by simpa using ⟨quotedName_passes, bareName_passes⟩)

theorem symbol_passes : symbol.Passes (Uncut whole) :=
  symbolicName_passes.bind fun _ _ => .pure trivial

theorem identifier_passes : identifier.Passes (Uncut whole) :=
  (Parser.Keeps.choice
    (by simpa using ⟨quotedName_passes, bareName_passes.satisfying _⟩)).bind fun _ _ =>
    .pure trivial

theorem functionName_passes : functionName.Passes (Uncut whole) := by
  have segment : nextSegment.Passes (Uncut whole) :=
    (char_passes (by decide)).bind fun _ _ => symbolicName_passes
  have names := symbolicName_passes.bind fun _ _ => segment.many.anyway
  exact names.consumed.bind fun _ _ => .pure trivial

theorem parameter_passes : parameter.Passes (Uncut whole) := by
  have word : (run1 Text.isWordChar).Passes (Uncut whole) :=
    passes_of_lacksDigit (run1_advances _) fun _ _ _ read =>
      WordEnds.lacksDigit (run1_eq_ok read).2.2.2
  exact (char_passes (by decide)).bind fun _ _ => word.bind fun _ _ => .pure trivial

theorem digits_passes : digits.Passes (Uncut whole) :=
  passes_of_lacksDigit digits_advances fun _ _ _ read => (run1_eq_ok read).2.2.2

theorem hopCount_passes : hopCount.Passes (Uncut whole) :=
  digits_passes.reading _

theorem quotedText_passes {quote : Char} (isQuote : quote ≠ '\\') (noDigit : quote.isDigit = false)
    : (quotedText quote).Passes (Uncut whole) := by
  refine passes_of_uncut fun source raw rest read => ?_
  obtain ⟨body, rfl, -, -⟩ := quotedText_eq_ok isQuote read
  exact uncut_of_cons noDigit (List.suffix_append (quote :: body) _)

theorem stringLiteral_passes : stringLiteral.Passes (Uncut whole) :=
  .choice (by simpa using ⟨@quotedText_passes _ '\'' (by decide) (by decide),
    @quotedText_passes _ '"' (by decide) (by decide)⟩)

end Lexemes

section Operators

variable {whole : List Char}

theorem markAs_passes {c : Char} (noDigit : c.isDigit = false) (op : BinaryOp)
    : (markAs c op).Passes (Uncut whole) :=
  (char_passes noDigit).bind fun _ _ => .pure trivial

theorem signAs_passes {text : String} (noDigit : text.toList.getLast?.any Char.isDigit = false)
    (op : BinaryOp)
    : (signAs text op).Passes (Uncut whole) :=
  (literally_passes noDigit).bind fun _ _ => .pure trivial

theorem comparisonSign_passes : comparisonSign.Passes (Uncut whole) := by
  refine (Parser.Keeps.choice ?_).padded
  simp only [List.forall_mem_cons, List.not_mem_nil, false_imp_iff, implies_true, and_true]
  refine ⟨?_, ?_, ?_, ?_, ?_, ?_, ?_, ?_⟩ <;> exact signAs_passes (by decide) _

theorem comparisonWords_passes : comparisonWords.Passes (Uncut whole) := by
  refine Parser.Keeps.choice ?_
  simp only [List.forall_mem_cons, List.not_mem_nil, false_imp_iff, implies_true, and_true]
  refine ⟨?_, ?_, keywordAs_passes (by decide) _, keywordAs_passes (by decide) _⟩
  · exact (keyword_passes (by decide)).bind fun _ _ => keywordAs_passes (by decide) _
  · exact (keyword_passes (by decide)).bind fun _ _ => keywordAs_passes (by decide) _

theorem nullTest_passes : nullTest.Passes (Uncut whole) := by
  have null (op : UnaryOp) : (keywordAs "NULL" op).Passes (Uncut whole) :=
    keywordAs_passes (by decide) op
  refine Parser.Keeps.choice ?_
  simp only [List.forall_mem_cons, List.not_mem_nil, false_imp_iff, implies_true, and_true]
  refine ⟨?_, (keyword_passes (by decide)).bind fun _ _ => null _⟩
  exact (keyword_passes (by decide)).bind fun _ _ =>
    (keyword_passes (by decide)).bind fun _ _ => null _

theorem operatorAt_passes (level : Nat) : (operatorAt level).Passes (Uncut whole) := by
  unfold operatorAt
  split
  · exact keywordAs_passes (by decide) _
  · exact keywordAs_passes (by decide) _
  · exact keywordAs_passes (by decide) _
  · exact .choice (by simpa using ⟨comparisonSign_passes, comparisonWords_passes⟩)
  · exact (Parser.Keeps.choice
      (by simpa using ⟨markAs_passes (c := '+') (by decide) _,
        markAs_passes (c := '-') (by decide) _⟩)).padded
  · refine (Parser.Keeps.choice ?_).padded
    simpa using ⟨markAs_passes (c := '*') (by decide) _, markAs_passes (c := '/') (by decide) _,
      markAs_passes (c := '%') (by decide) _⟩
  · exact (markAs_passes (by decide) _).padded
  · exact .reject

theorem testAt_passes (level : Nat) : (testAt level).Passes (Uncut whole) := by
  unfold testAt
  split
  · exact nullTest_passes
  · exact .reject

end Operators

end CypherSql.Cypher
