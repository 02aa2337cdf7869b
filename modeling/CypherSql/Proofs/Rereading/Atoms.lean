import CypherSql.Proofs.Rereading.Brackets

/-! Names, numbers, texts and what stands in brackets are read again, and so are expressions without
operators that are made of them.
-/

namespace CypherSql.Cypher

open Text

section Lexemes

variable {α β : Type} {p : Parser α} {before behind : Bool} {follows : List Char → Prop}
  {source rest : List Char}

/-- A text between two quotes is no word. -/
theorem isSign_quoted {quote : Char} (noBlank : isBlank quote = false)
    (noLetter : quote.isAlpha = false)
    (body : List Char)
    : IsSign (quote :: (body ++ [quote])) where
  trimmed := (trimmed_singleton noBlank).append (trimmed_singleton noBlank) body
  noLetter := by
    intro c opens
    obtain rfl := Option.some.inj opens
    exact noLetter

theorem quotedName_rereads : quotedName.Rereads false false fun _ => True := by
  intro source name rest read
  obtain ⟨noQuote, rfl⟩ := quotedName_eq_ok read
  have sign : IsSign ('`' :: (name ++ ['`'])) := isSign_quoted (by decide) (by decide) name
  refine Parser.rereadsAt_of_text (by simp) sign.trimmed (fun _ _ => sign.sameWords)
    fun after _ => ?_
  simpa using quotedName_read noQuote after

theorem bareName_rereads : bareName.Rereads false false fun _ => True := by
  intro source name rest read
  obtain ⟨rfl, ends, c, letters, rfl, starts, isWord⟩ := bareName_eq_ok read
  have all : ∀ d ∈ c :: letters, isWordChar d :=
    List.forall_mem_cons.mpr ⟨isWordChar_of_isWordStart starts, isWord⟩
  have trimmed := trimmed_of_word (List.cons_ne_nil c letters) all
  refine Parser.rereadsAt_of_text rfl trimmed (fun after beside => ?_) fun after beside => ?_
  · exact sameWords_of_word trimmed all ends (beside.wordEnds ends)
  · exact bareName_read starts isWord (beside.wordEnds ends)

/-- The first character of a name. -/
def OpensName (source : List Char) : Prop :=
  ∃ c ∈ source.head?, c = '`' ∨ isWordStart c

theorem bareName_opens {name : List Char} (read : bareName source = .ok name rest)
    : ∃ c ∈ source.head?, isWordStart c := by
  obtain ⟨rfl, -, c, letters, rfl, starts, -⟩ := bareName_eq_ok read
  exact ⟨c, rfl, starts⟩

theorem quotedName_rejects_bare {name : List Char} (read : bareName source = .ok name rest)
    : quotedName.Rejects source := by
  obtain ⟨c, opens, starts⟩ := bareName_opens read
  refine Parser.Rejects.bind (char_rejects fun same => ?_)
  obtain rfl := Option.some.inj (opens.symm.trans same)
  exact absurd starts (by decide)

theorem symbolicName_rereads : symbolicName.Rereads false false fun _ => True :=
  quotedName_rereads.choice_apart bareName_rereads fun _ _ _ read => quotedName_rejects_bare read

theorem symbol_rereads : symbol.Rereads false false fun _ => True :=
  symbolicName_rereads.map _

theorem symbolicName_opens {name : List Char} (read : symbolicName source = .ok name rest)
    : OpensName source := by
  rcases Parser.choice_two.mp read with read | ⟨-, read⟩
  · obtain ⟨-, rfl⟩ := quotedName_eq_ok read
    exact ⟨'`', rfl, .inl rfl⟩
  · obtain ⟨c, opens, starts⟩ := bareName_opens read
    exact ⟨c, opens, .inr starts⟩

theorem satisfying_eq_ok {kind : α → Bool} {value : α}
    : p.satisfying kind source = .ok value rest ↔ p source = .ok value rest ∧ kind value := by
  unfold Parser.satisfying
  cases read : p source with
  | ok other middle =>
      simp only
      split
      · rename_i holds
        constructor
        · intro same
          cases same
          exact ⟨rfl, holds⟩
        · rintro ⟨same, -⟩
          exact same
      · rename_i fails
        constructor
        · nofun
        · rintro ⟨same, holds⟩
          cases same
          exact absurd holds fails
  | rejected trace => simp
  | failed trace => simp

/-- A word that is a name of a variable, or such a name in backquotes. -/
theorem identifier_eq_ok {name : String} (read : identifier source = .ok name rest)
    : ∃ letters, name = String.ofList letters ∧ symbolicName source = .ok letters rest := by
  obtain ⟨letters, _, found, same⟩ := Parser.bind_eq_ok.mp read
  cases same
  refine ⟨letters, rfl, Parser.choice_two.mpr ?_⟩
  exact (Parser.choice_two.mp found).imp_right fun ⟨rejects, read⟩ =>
    ⟨rejects, (satisfying_eq_ok.mp read).1⟩

theorem identifier_rereads : identifier.Rereads false false fun _ => True := by
  have free
      : (bareName.satisfying fun name => !isReserved name).Rereads false false fun _ => True := by
    intro source name rest read
    obtain ⟨bare, free⟩ := satisfying_eq_ok.mp read
    exact (bareName_rereads source name rest bare).congr fun other after read =>
      satisfying_eq_ok.mpr ⟨read, free⟩
  exact (quotedName_rereads.choice_apart free fun _ _ _ read =>
    quotedName_rejects_bare (satisfying_eq_ok.mp read).1).map _

theorem digits_rereads : digits.Rereads false false fun _ => True := by
  intro source ds rest read
  obtain ⟨rfl, nonempty, all, ends⟩ := run1_eq_ok read
  have trimmed := trimmed_of_word nonempty fun c member => isWordChar_of_isDigit (all c member)
  have noLetter : ∀ c ∈ ds.head?, c.isAlpha = false := by
    intro c opens
    refine Bool.eq_false_iff.mpr fun alpha => ?_
    have digit := all c (List.mem_of_mem_head? opens)
    rw [not_isDigit_of_isAlpha alpha] at digit
    cases digit
  exact Parser.rereadsAt_of_text rfl trimmed (fun _ _ => sameWords_of_head trimmed noLetter)
    fun after beside => run1_read nonempty all (beside.head ends (by decide))

theorem reading_eq_ok {read : α → Option β} {result : β}
    : p.reading read source = .ok result rest
      ↔ ∃ value, p source = .ok value rest ∧ read value = some result := by
  unfold Parser.reading
  cases found : p source with
  | ok value middle =>
      simp only
      cases meaning : read value with
      | some other =>
          constructor
          · intro same
            cases same
            exact ⟨value, rfl, meaning⟩
          · rintro ⟨value', same, known⟩
            cases same
            rw [meaning] at known
            cases known
            rfl
      | none =>
          constructor
          · nofun
          · rintro ⟨value', same, known⟩
            cases same
            rw [meaning] at known
            cases known
  | rejected trace => simp
  | failed trace => simp

theorem realLiteral_rereads : realLiteral.Rereads false false fun _ => True :=
  digits_rereads.bind fun _ => (char_rereads (by decide)).bind fun _ => digits_rereads.map _

theorem Parser.Rereads.reading (rereads : p.Rereads before behind follows) (meaning : α → Option β)
    : (p.reading meaning).Rereads before behind follows := by
  intro source result rest read
  obtain ⟨value, found, same⟩ := reading_eq_ok.mp read
  obtain ⟨text, tail, here, equal, reread⟩ := rereads source value rest found
  exact ⟨text, tail, here, equal, reread.trimmed, reread.words, fun other after opens ends beside =>
    reading_eq_ok.mpr ⟨value, reread.again other after opens ends beside, same⟩⟩

theorem integerLiteral_rereads : integerLiteral.Rereads false false fun _ => True :=
  (digits_rereads.reading _).map _

theorem quotedText_rereads {quote : Char} (isQuote : quote ∈ ['\'', '"'])
    : (quotedText quote).Rereads false false fun _ => True := by
  have apart
      : ∀ quote ∈ ['\'', '"'], quote ≠ '\\' ∧ isBlank quote = false ∧ quote.isAlpha = false :=
    List.forall_mem_cons.mpr ⟨by decide, List.forall_mem_singleton.mpr (by decide)⟩
  obtain ⟨notBackslash, noBlank, noLetter⟩ := apart quote isQuote
  intro source value rest read
  obtain ⟨body, rfl, inside, rfl⟩ := quotedText_eq_ok notBackslash read
  have sign := isSign_quoted noBlank noLetter body
  refine Parser.rereadsAt_of_text (by simp) sign.trimmed (fun _ _ => sign.sameWords)
    fun after _ => ?_
  simpa using quotedText_read inside notBackslash after

theorem parameter_rereads : parameter.Rereads false false fun _ => True := by
  have word : (run1 isWordChar).Rereads false false fun _ => True := by
    intro source name rest read
    obtain ⟨rfl, nonempty, all, ends⟩ := run1_eq_ok read
    have trimmed := trimmed_of_word nonempty all
    refine Parser.rereadsAt_of_text rfl trimmed (fun after beside => ?_) fun after beside => ?_
    · exact sameWords_of_word trimmed all ends (beside.wordEnds ends)
    · exact run1_read nonempty all (beside.wordEnds ends)
  exact (char_rereads (by decide)).bind fun _ => word.map _

end Lexemes

namespace Parser

/-- What stands before a closing bracket is read as a value, whatever is behind the bracket. -/
def RereadsUpTo {α : Type} (p : Parser α) (closes : Char) (source : List Char) (value : α)
    (behind : List Char)
    : Prop :=
  ∃ inside,
    source = inside ++ closes :: behind
    ∧ ∀ after,
        SameWords inside (closes :: behind) (closes :: after)
        ∧ ∃ last, p (inside ++ closes :: after) = .ok value last ∧ skip last = closes :: after

/-- What is read up to a closing bracket is read again up to another one. -/
def RereadsInside {α : Type} (p : Parser α) (closes : Char) : Prop :=
  ∀ source value middle behind,
    skip source = source
    → p source = .ok value middle
    → skip middle = closes :: behind
    → p.RereadsUpTo closes source value behind

theorem RereadsUpTo.congr {α β : Type} {p : Parser α} {q : Parser β} {closes : Char}
    {source behind : List Char}
    {value : α} {result : β} (reread : q.RereadsUpTo closes source result behind)
    (same
      : ∀ inside after last,
          source = inside ++ closes :: behind
          → SameWords inside (closes :: behind) (closes :: after)
          → q (inside ++ closes :: after) = .ok result last
          → p (inside ++ closes :: after) = .ok value last)
    : p.RereadsUpTo closes source value behind := by
  obtain ⟨inside, whole, each⟩ := reread
  refine ⟨inside, whole, fun after => ⟨(each after).1, ?_⟩⟩
  obtain ⟨last, read, closed⟩ := (each after).2
  exact ⟨last, same inside after last whole (each after).1 read, closed⟩

section Repetitions

variable {α β : Type} {p : Parser α} {before behind : Bool} {follows : List Char → Prop} {value : α}
  {source rest : List Char}

theorem optional_eq_none (read : p.optional source = .ok none rest)
    : p.Rejects source ∧ rest = source := by
  unfold optional at read
  split at read
  · cases read
  · rename_i trace rejected
    cases read
    exact ⟨⟨trace, rejected⟩, rfl⟩
  · cases read

theorem manyStep_eq_some {seen next : List α} (read : manyStep p seen source = .ok (some next) rest)
    : ∃ value, p source = .ok value rest ∧ next = value :: seen := by
  obtain ⟨found, middle, optional, read⟩ := bind_eq_ok.mp read
  rcases optional_eq_ok optional with ⟨value, rfl, inside⟩ | ⟨rfl, -⟩
  · cases read
    exact ⟨value, inside, rfl⟩
  · cases read

theorem manyStep_stays {seen : List α} (read : manyStep p seen source = .ok none rest)
    : rest = source := by
  obtain ⟨found, middle, optional, read⟩ := bind_eq_ok.mp read
  rcases optional_eq_ok optional with ⟨value, rfl, -⟩ | ⟨rfl, same⟩
  · cases read
  · cases read
    exact same

theorem manyStep_ends {seen : List α} (rejects : p.Rejects source)
    : manyStep p seen source = .ok none source :=
  bind_of_ok (optional_of_rejects rejects)

theorem Rereads.manyStep (rereads : p.Rereads before behind follows) {seen next : List α}
    (read : Parser.manyStep p seen source = .ok (some next) rest)
    : (Parser.manyStep p seen).RereadsAt before behind follows source (some next) rest := by
  obtain ⟨value, found, rfl⟩ := manyStep_eq_some read
  refine ((rereads source value rest found).map fun value => some (value :: seen)).congr
    fun other after read => ?_
  obtain ⟨value, middle, inside, same⟩ := bind_eq_ok.mp read
  cases same
  exact bind_of_ok (optional_of_ok inside)

/-- As many values as there are behind some are read again where no more of them follow. -/
theorem Rereads.repeated {first : Parser (List α)} {inner : Bool} {last : List Char → Prop}
    (head : first.Rereads before behind follows) (next : p.Rereads inner behind follows)
    (spaces : ∀ gap source, (∀ c ∈ gap, isSpace c) → follows source → follows (gap ++ source))
    (joins : ∀ source value rest, p source = .ok value rest → follows source)
    (advances : p.Advances 1)
    (stops : p.Rejects []) (fewer : ∀ after, last after → follows after)
    (ends : ∀ after, last after → p.Rejects (start behind after))
    : (first >>= Parser.iterate (Parser.manyStep p)).Rereads before behind last := by
  intro source values rest read
  have joined (seen : List α) (source : List Char) (found : List α) (after : List Char)
      (read : Parser.manyStep p seen source = .ok (some found) (start behind after))
      (_ : follows after)
      : follows source := by
    obtain ⟨value, inside, -⟩ := manyStep_eq_some read
    exact joins source value _ inside
  have stopped (seen : List α) (now : Bool) (after : List Char)
    (either : now = behind ∨ now = behind)
      (here : last after)
      : Parser.manyStep p seen (start now after) = .ok none (start now after) := by
    rw [or_self] at either
    rw [either]
    exact manyStep_ends (ends after here)
  obtain ⟨now, either, reread⟩ :=
    @Rereads.iterate _ first (Parser.manyStep p) before behind inner behind follows
    last head (fun _ _ _ _ => next.manyStep) (fun _ _ _ => manyStep_stays) spaces joined
      (.many advances stops) fewer
    stopped _ _ _ read
  rw [or_self] at either
  rwa [either] at reread

theorem consumed_eq_ok {text : List Char} (read : p.consumed source = .ok text rest)
    : ∃ value, p source = .ok value rest ∧ text = source.take (source.length - rest.length) := by
  unfold consumed at read
  split at read
  · rename_i value middle found
    cases read
    exact ⟨value, found, rfl⟩
  · cases read
  · cases read

theorem Rereads.consumed (rereads : p.Rereads false false follows)
    : p.consumed.Rereads false false follows := by
  intro source text rest read
  obtain ⟨value, found, rfl⟩ := consumed_eq_ok read
  obtain ⟨text, tail, here, same, reread⟩ := rereads source value rest found
  obtain rfl : source = text ++ tail := here
  obtain rfl : rest = tail := same
  have taken (after : List Char)
      : (text ++ after).take ((text ++ after).length - after.length) = text := by
    rw [List.length_append, Nat.add_sub_cancel, List.take_left]
  refine ⟨text, rest, rfl, rfl, reread.trimmed, reread.words,
    fun other after opens ends beside => ?_⟩
  obtain rfl : other = text ++ after := opens
  refine (consumed_of_ok (reread.again _ after rfl ends beside)).trans ?_
  change Reply.ok ((text ++ after).take ((text ++ after).length - after.length)) after
    = Reply.ok ((text ++ rest).take ((text ++ rest).length - rest.length)) after
  rw [taken, taken]

end Repetitions

end Parser

theorem functionName_rereads : functionName.Rereads false false (Lacks '.') := by
  have segment : nextSegment.Rereads false false fun _ => True :=
    (char_rereads (by decide)).bind fun _ => symbolicName_rereads
  have whole : (do let _ ← symbolicName; Parser.many nextSegment)
      = ((symbolicName >>= fun _ => pure []) >>= Parser.iterate (Parser.manyStep nextSegment))
        >>= fun seen => pure seen.reverse := by
    simp only [Parser.many, Parser.manyAfter_eq, bind_assoc, pure_bind]
  have rounds
      : ((symbolicName >>= fun _ => pure []) >>= Parser.iterate
        (Parser.manyStep nextSegment)).Rereads
      false false (Lacks '.') :=
    (symbolicName_rereads.map fun _ => []).repeated segment (fun _ _ _ _ => trivial)
      (fun _ _ _ _ => trivial)
      nextSegment_advances (char_rejects lacks_nil).bind (fun _ _ => trivial)
      fun _ noPoint => (char_rejects noPoint).bind
  refine Parser.Rereads.map (Parser.Rereads.consumed ?_) _
  have mapped := Parser.Rereads.map rounds List.reverse
  rwa [← whole] at mapped

section Brackets

variable {α : Type} {p : Parser α} {follows : List Char → Prop} {source rest inside : List Char}
  {c closes : Char}

theorem sameWords_nil (noSpace : isSpace c = false) (noLetter : c.isAlpha = false)
    (tail after : List Char)
    : SameWords [] tail (c :: after) := by
  intro word plain nonempty _
  refine keyword_rejects_of_head plain nonempty fun d opens => ?_
  rw [List.nil_append, skip_cons noSpace] at opens
  obtain rfl := Option.some.inj opens
  exact noLetter

/-- What stands before a closing bracket goes on to open without a blank if another tail follows the
bracket.
-/
theorem skip_inside {tail : List Char} (noSpace : isSpace closes = false)
    (here : skip (inside ++ closes :: tail) = inside ++ closes :: tail) (after : List Char)
    : skip (inside ++ closes :: after) = inside ++ closes :: after := by
  cases inside with
  | nil => exact skip_cons noSpace
  | cons c inside =>
      refine skip_cons (Bool.eq_false_iff.mpr fun space => ?_)
      have shorter
          : (skip (c :: inside ++ closes :: tail)).length ≤ (inside ++ closes :: tail).length := by
        rw [List.cons_append, show skip (c :: (inside ++ closes :: tail))
          = skip (inside ++ closes :: tail) from
          List.dropWhile_cons_of_pos space]
        exact length_skip_le _
      rw [here, List.cons_append, List.length_cons] at shorter
      omega

theorem Parser.Rereads.upTo (rereads : p.Rereads true true follows)
    (ends : ∀ after, (skip after).head? = some closes → follows after)
    (noSpace : isSpace closes = false)
    : p.RereadsInside closes := by
  intro source value middle behind here read closing
  obtain ⟨text, tail, whole, rfl, reread⟩ := rereads source value middle read
  rw [show start true tail = skip tail from rfl, skip_skip] at closing
  rw [show start true source = skip source from rfl, here] at whole
  obtain ⟨gap, split, spaces⟩ := exists_skipped tail
  rw [closing] at split
  refine ⟨text ++ gap, by rw [whole, split, List.append_assoc], fun after => ?_⟩
  have closed : skip (gap ++ closes :: after) = closes :: after := by
    rw [skip_gap spaces, skip_cons noSpace]
  have follow : follows (gap ++ closes :: after) := ends _ (by rw [closed, List.head?_cons])
  have beside : Beside tail (gap ++ closes :: after) := by
    have opened : Beside (closes :: behind) (closes :: after) := .inl rfl
    rw [split]
    exact opened.append gap
  constructor
  · have same := reread.words _ follow beside
    intro word plain nonempty rejects
    rw [split] at same
    rw [List.append_assoc] at rejects ⊢
    exact same word plain nonempty rejects
  · refine ⟨_, reread.again _ _ ?_ follow beside, ?_⟩
    · rw [List.append_assoc]
      exact reread.trimmed.solid.skip_append _
    · exact (skip_skip _).trans closed

/-- A text is read again up to a bracket with what stands between it and the bracket. -/
theorem Parser.RereadsAt.bind_upTo {β : Type} {f : α → Parser β} {value : α} {result : β}
    {place behind : List Char}
    (first : p.RereadsAt true true follows source value place)
    (second : (f value).RereadsUpTo closes place result behind) (here : skip source = source)
    (noSpace : isSpace closes = false)
    (spaces : ∀ gap source, (∀ c ∈ gap, isSpace c) → follows source → follows (gap ++ source))
    (joins
      : ∀ source last after,
          f value source = .ok result last → skip last = closes :: after → follows source)
    : (p >>= f).RereadsUpTo closes source result behind := by
  obtain ⟨text, tail, starts, rfl, reread⟩ := first
  obtain ⟨inside, whole, later⟩ := second
  replace whole : skip tail = inside ++ closes :: behind := whole
  obtain ⟨gap, split, blank⟩ := exists_skipped tail
  rw [whole] at split
  rw [show start true source = skip source from rfl, here, split] at starts
  refine ⟨text ++ (gap ++ inside), by rw [starts]; simp, fun after => ?_⟩
  obtain ⟨last, again, same⟩ := (later after).2
  have follow : follows (gap ++ (inside ++ closes :: after)) :=
    spaces gap _ blank (joins _ last after again same)
  have opened : Beside (closes :: behind) (closes :: after) := .inl rfl
  have beside : Beside tail (gap ++ (inside ++ closes :: after)) := by
    rw [split]
    exact (opened.append inside).append gap
  have skipped : skip (gap ++ (inside ++ closes :: after)) = inside ++ closes :: after := by
    rw [skip_gap blank]
    exact skip_inside noSpace (whole ▸ skip_skip tail) after
  constructor
  · have words := reread.words _ follow beside
    rw [split] at words
    exact words.append
  · have found := reread.again _ _ (reread.trimmed.solid.skip_append _) follow beside
    rw [show start true _ = skip _ from rfl, skipped] at found
    refine ⟨last, ?_, same⟩
    rw [List.append_assoc, List.append_assoc]
    exact (Parser.bind_of_ok found).trans again

theorem Parser.Rereads.bind_inside {β : Type} {f : α → Parser β}
    (first : p.Rereads true true follows)
    (second : ∀ value, (f value).RereadsInside closes) (noSpace : isSpace closes = false)
    (spaces : ∀ gap source, (∀ c ∈ gap, isSpace c) → follows source → follows (gap ++ source))
    (joins
      : ∀ value source result last after,
          f value source = .ok result last → skip last = closes :: after → follows source)
    : (p >>= f).RereadsInside closes := by
  intro source result middle behind here read closed
  obtain ⟨value, place, opens, more⟩ := Parser.bind_eq_ok.mp read
  have reread := first source value place opens
  have opened : skip place = place := by
    obtain ⟨_, tail, -, rfl, -⟩ := reread
    exact skip_skip tail
  exact reread.bind_upTo (second value place result middle behind opened more closed) here
    noSpace spaces
    fun other last after => joins value other result last after

/-- A closing bracket is no letter, no blank and no comma, and an operand ends before it. -/
structure IsClosing (closes : Char) : Prop where
  noSpace : isSpace closes = false
  noLetter : closes.isAlpha = false
  noComma : closes ≠ ','
  ends : closes ∈ [')', ']', '\x7d', ',']
  noBlank : isBlank closes = false

theorem isClosing_of_mem : ∀ closes ∈ closingMarks, IsClosing closes := by
  intro closes member
  simp only [closingMarks, List.mem_cons, List.not_mem_nil, or_false] at member
  rcases member with rfl | rfl | rfl
    <;> exact ⟨by decide, by decide, by decide, by decide, by decide⟩

theorem halts_of_mark {after : List Char} (closing : c ∈ [')', ']', '\x7d', ','])
    (opens : (skip after).head? = some c)
    : Halts 0 after := by
  simp only [List.mem_cons, List.not_mem_nil, or_false] at closing
  rcases closing with rfl | rfl | rfl | rfl
  · exact halts_of_head _ opens (by decide) (by decide)
  · exact halts_of_head _ opens (by decide) (by decide)
  · exact halts_of_head _ opens (by decide) (by decide)
  · exact halts_of_head _ opens (by decide) (by decide)

/-- Values with a mark between them are read again where no such mark follows. -/
theorem Parser.Rereads.separated1 {last : List Char → Prop} (sign : IsSign [c])
    (rereads : p.Rereads true true follows)
    (advances : p.Advances 1)
    (spaces : ∀ gap source, (∀ c ∈ gap, isSpace c) → follows source → follows (gap ++ source))
    (joins : ∀ after, (skip after).head? = some c → follows after)
    (fewer : ∀ after, last after → follows after)
    (ends : ∀ after, last after → Lacks c (skip after))
    : (Parser.separated1 (mark c) p).Rereads true true last := by
  have next : (mark c >>= fun _ => p).Rereads true true follows :=
    (mark_rereads sign).bind fun _ => rereads
  have whole : Parser.separated1 (mark c) p
      = ((p >>= fun first => pure [first]) >>= Parser.iterate
        (Parser.manyStep (mark c >>= fun _ => p)))
        >>= fun seen => pure seen.reverse := by
    simp only [Parser.separated1, Parser.manyAfter_eq, bind_assoc, pure_bind]
  rw [whole]
  refine Parser.Rereads.map ((rereads.map fun first => [first]).repeated next spaces
    (fun source value rest read => ?_) ((mark_advances c).bind fun _ => advances.anyway)
    (mark_rejects lacks_nil).bind fewer fun after opens => Parser.Rejects.bind (mark_rejects ?_)) _
  · obtain ⟨_, middle, marked, -⟩ := Parser.bind_eq_ok.mp read
    obtain ⟨tail, here, -⟩ := mark_eq_ok marked
    exact joins source (by rw [here, List.head?_cons])
  · rw [show start true after = skip after from rfl, skip_skip]
    exact ends after opens

/-- Values with commas between them are read again up to a closing bracket. -/
theorem separated_inside (rereads : p.Rereads true true (Halts 0)) (advances : p.Advances 1)
    (closing : IsClosing closes) (rejects : ∀ tail, p.Rejects (closes :: tail))
    : (Parser.separated (mark ',') p).RereadsInside closes := by
  have list : (Parser.separated1 (mark ',') p).Rereads true true fun after =>
    (skip after).head? = some closes := by
    refine rereads.separated1 (by decide) advances (fun _ _ spaces halts => halts.spaced spaces)
      (fun _ opens => halts_of_mark (by simp) opens)
      (fun _ opens => halts_of_mark closing.ends opens)
      fun after opens => ?_
    rw [Lacks, opens]
    exact fun same => closing.noComma (Option.some.inj same)
  intro source values middle behind here read closed
  obtain ⟨found, later, optional, more⟩ := Parser.bind_eq_ok.mp read
  rcases Parser.optional_eq_ok optional with ⟨read, rfl, some⟩ | ⟨rfl, rfl⟩
  · cases more
    exact (list.upTo (fun _ opens => opens) closing.noSpace source values middle behind here
      some closed).congr
      fun _ _ _ _ _ again => Parser.bind_of_ok (Parser.optional_of_ok again)
  · cases more
    rw [here] at closed
    refine ⟨[], closed, fun after => ⟨sameWords_nil closing.noSpace closing.noLetter _ _, ?_⟩⟩
    have none : (Parser.separated1 (mark ',') p).Rejects (closes :: after) := (rejects after).bind
    exact ⟨closes :: after, Parser.bind_of_ok (Parser.optional_of_rejects none),
      skip_cons closing.noSpace⟩

/-- What stands between two marks is read with them, wherever it stands and whatever follows. -/
theorem Parser.RereadsInside.between (opens : Char) {value : α} {tail middle behind : List Char}
    (inside : p.RereadsInside closes) (closing : IsClosing closes)
    (found : p (skip tail) = .ok value middle) (there : skip middle = closes :: behind)
    : ∃ text,
        tail = text ++ closes :: behind
        ∧ ∀ other after,
            skip other = opens :: (text ++ closes :: after)
            → between opens closes p other = .ok value (skip after) := by
  obtain ⟨text, whole, each⟩ := inside _ _ _ _ (skip_skip tail) found there
  obtain ⟨gap, split, spaces⟩ := exists_skipped tail
  refine ⟨gap ++ text, by rw [List.append_assoc, ← whole]; exact split,
    fun other after starts => ?_⟩
  have opened : mark opens other = .ok () (skip (gap ++ (text ++ closes :: after))) := by
    refine mark_read (starts.trans ?_)
    simp
  have skipped : skip (gap ++ (text ++ closes :: after)) = text ++ closes :: after := by
    rw [skip_gap spaces]
    exact skip_inside closing.noSpace (whole ▸ skip_skip tail) after
  rw [skipped] at opened
  obtain ⟨last, again, ended⟩ := (each after).2
  have closed : mark closes last = .ok () (skip after) := mark_read ended
  exact (Parser.bind_of_ok opened).trans
    ((Parser.bind_of_ok again).trans (Parser.bind_of_ok closed))

theorem between_again {opens : Char} {value : α} (opening : IsSign [opens])
    (closing : IsClosing closes)
    (inside : p.RereadsInside closes) (read : between opens closes p source = .ok value rest)
    : ∃ text tail,
        skip source = text ++ tail
        ∧ rest = skip tail
        ∧ IsSign text
        ∧ text.getLast? = some closes
        ∧ ∀ other after, skip other = text ++ after → between opens closes p other = .ok value
          (skip after) := by
  obtain ⟨tail, behind, here, rfl, middle, found, there⟩ := between_eq_ok read
  obtain ⟨text, rfl, again⟩ := inside.between _ closing found there
  have trimmed : Trimmed (opens :: (text ++ [closes])) :=
    opening.trimmed.append (trimmed_singleton closing.noBlank) text
  refine ⟨opens :: (text ++ [closes]), behind, ?_, rfl, ⟨trimmed, opening.noLetter⟩,
    List.getLast?_append_of_ne_nil (opens :: text) (List.cons_ne_nil closes []),
    fun other after starts => again other after ?_⟩
  · rw [here]
    simp
  · rw [starts]
    simp

theorem between_rereads {opens : Char} (opening : IsSign [opens]) (closing : IsClosing closes)
    (inside : p.RereadsInside closes)
    : (between opens closes p).Rereads true true fun _ => True := by
  intro source value rest read
  obtain ⟨text, tail, here, rfl, sign, -, again⟩ := between_again opening closing inside read
  exact ⟨text, tail, here, rfl, sign.trimmed, fun _ _ _ => sign.sameWords,
    fun other after starts _ _ => again other after starts⟩

end Brackets

/-- What a parser of whole expressions has to keep to, so that what stands in brackets is read
again.
-/
structure Parser.Tame (expr : Parser Expr) : Prop where
  rereads : expr.Rereads true true (Halts 0)
  takes : ∀ holds, Lexical holds → expr.Takes holds
  advances : expr.Advances 1
  rejects : ∀ c ∈ [')', ']', ':', '*'], ∀ tail, expr.Rejects (c :: tail)

section Calls

variable {expr : Parser Expr} {source rest inside behind : List Char} {c closes : Char}

theorem Parser.Tame.balanced (tame : expr.Tame) : expr.Takes Balanced :=
  tame.takes Balanced lexical_balanced

/-- No item of a list opens with a colon or a star. -/
theorem Parser.Tame.rejectsItem (tame : expr.Tame)
    : ∀ c ∈ [':', '*'], ∀ tail, expr.Rejects (c :: tail) :=
  fun c member => tame.rejects c (List.mem_cons_of_mem _ (List.mem_cons_of_mem _ member))

theorem lacks_of_rejects (rejects : (mark c).Rejects source) : Lacks c (skip source) := by
  intro opens
  obtain ⟨others, here⟩ := List.head?_eq_some_iff.mp opens
  exact rejects.not_ok (mark_read here)

theorem lacks_inside (lacks : Lacks c (inside ++ closes :: behind)) (after : List Char)
    : Lacks c (inside ++ closes :: after) := by
  cases inside with
  | nil => exact lacks
  | cons d inside => exact lacks

theorem arguments_inside (tame : expr.Tame) : (arguments expr).RereadsInside ')' := by
  have star : Parser.RereadsInside (do mark '*'; pure [Expr.star]) ')' :=
    Parser.Rereads.upTo ((mark_rereads (by decide)).map fun _ => [Expr.star])
      (fun _ _ => trivial) (by decide)
  have each := separated_inside tame.rereads tame.advances (isClosing_of_mem ')' (by decide))
    (tame.rejects ')' (by simp))
  intro source args middle behind here read closed
  rcases Parser.choice_two.mp read with read | ⟨rejects, read⟩
  · exact (star source args middle behind here read closed).congr
      fun _ _ _ _ _ again => Parser.choice_two.mpr (.inl again)
  · refine (each source args middle behind here read closed).congr
      fun inside after last whole _ again => ?_
    have noStar : Lacks '*' (inside ++ ')' :: behind) := by
      rw [← whole, ← here]
      exact lacks_of_rejects (Parser.rejects_of_bind (fun _ _ => ⟨_, _, rfl⟩) rejects)
    refine Parser.choice_two.mpr (.inr ⟨(mark_rejects ?_).bind, again⟩)
    rw [skip_inside (by decide) (whole ▸ here) after]
    exact lacks_inside noStar after

theorem callArguments_inside (tame : expr.Tame) : (callArguments expr).RereadsInside ')' := by
  intro source value middle behind here read closed
  obtain ⟨distinct, place, optional, more⟩ := Parser.bind_eq_ok.mp read
  obtain ⟨args, _, found, same⟩ := Parser.bind_eq_ok.mp more
  cases same
  cases distinct with
  | none =>
      obtain ⟨rejects, rfl⟩ := Parser.optional_eq_none optional
      refine (arguments_inside tame place args middle behind here found closed).congr
        fun inside after last whole words again => ?_
      have noWord := words "DISTINCT" (by decide) (by decide) (whole ▸ rejects)
      exact (Parser.bind_of_ok (Parser.optional_of_rejects noWord)).trans (Parser.bind_of_ok again)
  | some word =>
      rcases Parser.optional_eq_ok optional with ⟨_, -, opens⟩ | ⟨none, -⟩
      · have both : (keyword "DISTINCT" >>= fun _ => arguments expr).RereadsInside ')' :=
          (keyword_rereads (by decide) (by decide)).bind_inside
            (fun _ => arguments_inside tame) (by decide)
            (fun _ _ _ _ => trivial) fun _ _ _ _ _ _ _ => trivial
        refine (both source args middle behind here
          ((Parser.bind_of_ok opens).trans found) closed).congr
          fun inside after last _ _ again => ?_
        obtain ⟨_, place, opens, more⟩ := Parser.bind_eq_ok.mp again
        exact (Parser.bind_of_ok (Parser.optional_of_ok opens)).trans (Parser.bind_of_ok more)
      · cases none

theorem Lacks.spaced {gap : List Char} (spaces : ∀ c ∈ gap, isSpace c) (noSpace : isSpace c = false)
    (lacks : Lacks c source)
    : Lacks c (gap ++ source) := by
  cases gap with
  | nil => exact lacks
  | cons d gap =>
      refine lacks_cons ?_
      rintro rfl
      rw [spaces d List.mem_cons_self] at noSpace
      cases noSpace

theorem functionCall_rereads (tame : expr.Tame)
    : (functionCall expr).Rereads false true fun _ => True := by
  have call : (between '(' ')' (callArguments expr)).Rereads true true fun _ => True :=
    between_rereads (by decide) (isClosing_of_mem ')' (by decide)) (callArguments_inside tame)
  rw [functionCall_eq]
  intro source value rest read
  obtain ⟨name, place, named, more⟩ := Parser.bind_eq_ok.mp read
  refine (functionName_rereads source name place named).bind
    (call.map (fun inside => Expr.call name inside.1 inside.2) place value rest more)
    (fun _ _ spaces lacks => lacks.spaced spaces (by decide)) fun other after read _ => ?_
  obtain ⟨_, _, found, -⟩ := Parser.bind_eq_ok.mp read
  obtain ⟨tail, -, here, -⟩ := between_eq_ok found
  refine Lacks.of_skip ?_ (by decide)
  rw [here]
  exact lacks_cons (by decide)

theorem listLiteral_rereads (tame : expr.Tame)
    : (listLiteral expr).Rereads true true fun _ => True := by
  rw [listLiteral_eq]
  have closing := isClosing_of_mem ']' (by decide)
  exact (between_rereads (by decide) closing
    (separated_inside tame.rereads tame.advances closing (tame.rejects ']' (by simp)))).map _

theorem mapEntry_rereads (tame : expr.Tame) : (mapEntry expr).Rereads true true (Halts 0) :=
  symbol_rereads.padded.bind fun _ => (char_rereads (by decide)).bind fun _ => tame.rereads.map _

theorem mapEntries_inside (tame : expr.Tame)
    : (Parser.separated (mark ',') (mapEntry expr)).RereadsInside '\x7d' :=
  separated_inside (mapEntry_rereads tame) (mapEntry_advances tame.advances)
    (isClosing_of_mem '\x7d' (by decide)) fun _ => ⟨_, rfl⟩

theorem mapLiteral_rereads (tame : expr.Tame) : (mapLiteral expr).Rereads true true fun _ => True :=
  between_rereads (by decide) (isClosing_of_mem '\x7d' (by decide)) (mapEntries_inside tame)

theorem Parser.Tame.rereadsInside (tame : expr.Tame) : expr.RereadsInside ')' :=
  tame.rereads.upTo (fun _ opens => halts_of_mark (by simp) opens) (by decide)

theorem parenthesized_rereads (tame : expr.Tame)
    : (parenthesized expr).Rereads true true fun _ => True :=
  between_rereads (by decide) (isClosing_of_mem ')' (by decide)) tame.rereadsInside

end Calls

end CypherSql.Cypher
