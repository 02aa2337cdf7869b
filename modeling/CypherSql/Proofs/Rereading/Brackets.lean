import CypherSql.Proofs.Printing.Atoms
import CypherSql.Proofs.Rereading.Operators

/-! What the parsers of expressions take of a source, told by properties that outlive putting texts
together, in brackets and in quotes. One of them is that parentheses are matched, apart from those
in quotes, so that two of these parsers that stop at a closing parenthesis stop at the same one.
None of the parsers fails for good.
-/

namespace CypherSql.Cypher

open Text

-----------------------------------------------------------------------------------------
-- Matched parentheses
-----------------------------------------------------------------------------------------

/-- Where a place in a source stands: outside of quotes, inside of them, or there behind a
backslash.
-/
inductive Quoting where
  | outside
  | inside (quote : Char)
  | escaped (quote : Char)
  deriving DecidableEq

/-- The quotes of texts and names. -/
def quotes : List Char :=
  ['\'', '"', '`']

/-- What is left behind the parenthesis that closes the innermost one around, if a number of them
was opened since. In backquotes a backslash stands for itself.
-/
def behindClosing : List Char → Nat → Quoting → List Char
  | [], _, _ => []
  | _ :: rest, depth, .escaped quote => behindClosing rest depth (.inside quote)
  | c :: rest, depth, .inside quote =>
      if c = quote then behindClosing rest depth .outside
      else if c = '\\' ∧ quote ≠ '`' then behindClosing rest depth (.escaped quote)
      else behindClosing rest depth (.inside quote)
  | c :: rest, depth, .outside =>
      if c = '(' then behindClosing rest (depth + 1) .outside
      else if c = ')' then if depth = 0 then rest else behindClosing rest (depth - 1) .outside
      else if c ∈ quotes then behindClosing rest depth (.inside c)
      else behindClosing rest depth .outside

/-- The parentheses of a text are matched, and so are its quotes. -/
def Balanced (text : List Char) : Prop :=
  ∀ rest depth, behindClosing (text ++ rest) depth .outside = behindClosing rest depth .outside

/-- The character is no parenthesis and no quote. -/
def isInert (c : Char) : Bool :=
  c ∉ '(' :: ')' :: quotes

/-- The character is no bracket of any kind and no quote. -/
def isBare (c : Char) : Bool :=
  isInert c && c ∉ ['[', ']', '\x7b', '\x7d']

section Balanced

variable {text more rest later : List Char} {c quote : Char}

theorem balanced_nil : Balanced [] :=
  fun _ _ => rfl

theorem Balanced.append (balanced : Balanced text) (also : Balanced more)
    : Balanced (text ++ more) := by
  intro rest depth
  rw [List.append_assoc, balanced, also]

theorem balanced_inert (inert : ∀ c ∈ text, isInert c) : Balanced text := by
  induction text with
  | nil => exact balanced_nil
  | cons c text ih =>
      rw [List.forall_mem_cons] at inert
      intro rest depth
      have other := inert.1
      simp only [isInert, List.mem_cons, not_or, decide_eq_true_eq] at other
      rw [List.cons_append, behindClosing, if_neg other.1, if_neg other.2.1,
        if_neg (by simpa using other.2.2)]
      exact ih inert.2 rest depth

theorem balanced_singleton (inert : isInert c) : Balanced [c] :=
  balanced_inert (by simpa using inert)

theorem Balanced.enclosed (balanced : Balanced text) : Balanced ('(' :: (text ++ [')'])) := by
  intro rest depth
  have whole : '(' :: (text ++ [')']) ++ rest = '(' :: (text ++ ')' :: rest) := by simp
  rw [whole, behindClosing, if_pos rfl, balanced, behindClosing, if_neg (by decide), if_pos rfl,
    if_neg (Nat.succ_ne_zero depth), Nat.add_sub_cancel]

/-- A text in quotes ends at the first quote that stands by itself, by induction over the text. -/
theorem QuotedBody.balanced (body : QuotedBody quote text) (isQuote : quote ∈ ['\'', '"'])
    : Balanced (quote :: (text ++ [quote])) := by
  have apart : ∀ quote ∈ ['\'', '"'],
    quote ≠ '(' ∧ quote ≠ ')' ∧ quote ∈ quotes ∧ quote ≠ '`' ∧ quote ≠ '\\' :=
    List.forall_mem_cons.mpr ⟨by decide, List.forall_mem_singleton.mpr (by decide)⟩
  obtain ⟨notOpen, notClosed, isListed, notBack, notBackslash⟩ := apart quote isQuote
  intro rest depth
  have inside : behindClosing (text ++ quote :: rest) depth (.inside quote)
    = behindClosing rest depth .outside := by
    induction body with
    | nil => rw [List.nil_append, behindClosing, if_pos rfl]
    | @escaped c text _ _ ih =>
        rw [List.cons_append, behindClosing, if_neg (Ne.symm notBackslash), if_pos ⟨rfl, notBack⟩,
          List.cons_append, behindClosing, ih]
    | plain notQuote other _ ih =>
        rw [List.cons_append, behindClosing, if_neg notQuote, if_neg (by simp [other]), ih]
  have whole : quote :: (text ++ [quote]) ++ rest = quote :: (text ++ quote :: rest) := by simp
  rw [whole, behindClosing, if_neg notOpen, if_neg notClosed, if_pos isListed, inside]

theorem balanced_backquoted (noQuote : '`' ∉ text) : Balanced ('`' :: (text ++ ['`'])) := by
  intro rest depth
  have inside
      : behindClosing (text ++ '`' :: rest) depth (.inside '`')
        = behindClosing rest depth .outside := by
    induction text with
    | nil => rw [List.nil_append, behindClosing, if_pos rfl]
    | cons c text ih =>
        rw [List.mem_cons, not_or] at noQuote
        rw [List.cons_append, behindClosing, if_neg (Ne.symm noQuote.1),
          if_neg (by simp), ih noQuote.2]
  have whole : '`' :: (text ++ ['`']) ++ rest = '`' :: (text ++ '`' :: rest) := by simp
  rw [whole, behindClosing, if_neg (by decide), if_neg (by decide), if_pos (by decide), inside]

/-- Two texts with matched parentheses that end at a closing one end at the same. -/
theorem Balanced.closes_once (balanced : Balanced text) (also : Balanced more)
    (same : text ++ ')' :: rest = more ++ ')' :: later)
    : rest = later := by
  have closes (tail : List Char) : behindClosing (')' :: tail) 0 .outside = tail := by
    rw [behindClosing, if_neg (by decide), if_pos rfl, if_pos rfl]
  rw [← closes rest, ← balanced, same, also, closes]

theorem isInert_of_isBare (bare : isBare c) : isInert c :=
  (Bool.and_eq_true_iff.mp bare).1

theorem isBare_of_isWordChar (isWord : isWordChar c) : isBare c := by
  have apart : ['(', ')', '\'', '"', '`', '[', ']', '\x7b', '\x7d'].all
    (fun mark => !isWordChar mark) = true := by
    decide +kernel
  have noMark : c ∉ ['(', ')', '\'', '"', '`', '[', ']', '\x7b', '\x7d'] := by
    intro member
    have noWord := List.all_eq_true.mp apart c member
    rw [isWord] at noWord
    cases noWord
  simpa [isBare, isInert, quotes, and_assoc] using noMark

theorem isBare_of_isSpace (space : isSpace c) : isBare c := by
  simp only [isSpace, Bool.or_eq_true, decide_eq_true_eq] at space
  rcases space with ((rfl | rfl) | rfl) | rfl <;> decide

end Balanced

-----------------------------------------------------------------------------------------
-- What parsers take
-----------------------------------------------------------------------------------------

/-- What is said of a source: a text with a property is taken off its start, or another alternative
may be tried.
-/
def Reply.Takes {α : Type} (holds : List Char → Prop) (source : List Char) : Reply α → Prop
  | .ok _ rest => ∃ text, source = text ++ rest ∧ holds text
  | .rejected _ => True
  | .failed _ => False

/-- A parser takes texts with a property and never fails for good. -/
def Parser.Takes {α : Type} (p : Parser α) (holds : List Char → Prop) : Prop :=
  ∀ source, (p source).Takes holds source

/-- A property of texts that blanks have, and texts one after the other if each of them has it. -/
structure Joined (holds : List Char → Prop) : Prop where
  spaces : ∀ gap, (∀ c ∈ gap, isSpace c) → holds gap
  append : ∀ text more, holds text → holds more → holds (text ++ more)

/-- A property of texts that names have: words, and any text in backquotes. -/
structure Named (holds : List Char → Prop) : Prop extends Joined holds where
  word : ∀ c, isWordChar c → holds [c]
  backquoted : ∀ text, '`' ∉ text → holds ('`' :: (text ++ ['`']))

/-- A property of texts that outlives what expressions are made with. In the brackets of a list
there is nothing that opens with a colon or a star.
-/
structure Lexical (holds : List Char → Prop) : Prop extends Named holds where
  bare : ∀ c, isBare c → holds [c]
  quoted : ∀ quote ∈ ['\'', '"'], ∀ text, QuotedBody quote text → holds (quote :: (text ++ [quote]))
  enclosed
    : ∀ brackets ∈ [('(', ')'), ('\x7b', '\x7d')],
        ∀ text, holds text → holds (brackets.1 :: (text ++ [brackets.2]))
  listed
    : ∀ text,
        holds text
        → (∀ c ∈ (skip text).head?, c ≠ ':' ∧ c ≠ '*')
        → holds ('[' :: (text ++ [']']))

theorem Joined.nil {holds : List Char → Prop} (joined : Joined holds) : holds [] :=
  joined.spaces [] nofun

/-- A text has the property if each of its characters has. -/
theorem Joined.all {holds : List Char → Prop} (joined : Joined holds) {text : List Char}
    (each : ∀ c ∈ text, holds [c])
    : holds text := by
  induction text with
  | nil => exact joined.nil
  | cons c text ih =>
      rw [List.forall_mem_cons] at each
      exact joined.append [c] text each.1 (ih each.2)

theorem joined_any : Joined fun _ => True where
  spaces _ _ := trivial
  append _ _ _ _ := trivial

namespace Parser.Takes

variable {α β : Type} {p : Parser α} {f : α → Parser β} {holds : List Char → Prop}

theorem taken (takes : p.Takes holds) {source rest : List Char} {value : α}
    (read : p source = .ok value rest)
    : ∃ text, source = text ++ rest ∧ holds text := by
  have reply := takes source
  rwa [read] at reply

/-- A parser that takes no text again rejects it. -/
theorem rejects (takes : p.Takes holds) {source : List Char}
    (never : ∀ value rest, p source ≠ .ok value rest)
    : p.Rejects source := by
  have reply := takes source
  cases found : p source with
  | ok value rest => exact absurd found (never value rest)
  | rejected trace => exact ⟨trace, found⟩
  | failed trace =>
      rw [found] at reply
      exact reply.elim

/-- What a parser takes that never fails for good is what its values tell. -/
theorem of_ok {any : List Char → Prop} (takes : p.Takes any)
    (each : ∀ source value rest, p source = .ok value rest → ∃ text,
      source = text ++ rest ∧ holds text)
    : p.Takes holds := by
  intro source
  have reply := takes source
  cases found : p source with
  | ok value rest => exact each source value rest found
  | rejected trace => trivial
  | failed trace => rwa [found] at reply

theorem pure (joined : Joined holds) (value : α) : (Pure.pure value : Parser α).Takes holds :=
  fun _ => ⟨[], rfl, joined.nil⟩

theorem bind (joined : Joined holds) (first : p.Takes holds)
    (second : ∀ value, (f value).Takes holds)
    : (p >>= f).Takes holds := by
  intro source
  change (Parser.bind p f source).Takes holds source
  have reply := first source
  unfold Parser.bind
  cases read : p source with
  | ok value middle =>
      rw [read] at reply
      obtain ⟨text, rfl, one⟩ := reply
      have later := second value middle
      simp only
      cases result : f value middle with
      | ok last rest =>
          rw [result] at later
          obtain ⟨more, rfl, other⟩ := later
          exact ⟨text ++ more, by rw [List.append_assoc], joined.append text more one other⟩
      | rejected trace => trivial
      | failed trace => rwa [result] at later
  | rejected trace => trivial
  | failed trace => rwa [read] at reply

theorem map (joined : Joined holds) (takes : p.Takes holds) (g : α → β)
    : Parser.Takes (p >>= fun value => Pure.pure (g value)) holds :=
  bind joined takes fun _ => pure joined _

theorem optional (joined : Joined holds) (takes : p.Takes holds) : p.optional.Takes holds := by
  intro source
  have reply := takes source
  unfold Parser.optional
  cases read : p source with
  | ok value rest => rwa [read] at reply
  | rejected trace => exact ⟨[], rfl, joined.nil⟩
  | failed trace => rwa [read] at reply

theorem reading (takes : p.Takes holds) (read : α → Option β) : (p.reading read).Takes holds := by
  intro source
  have reply := takes source
  unfold Parser.reading
  cases found : p source with
  | ok value rest =>
      rw [found] at reply
      simp only
      cases read value with
      | some result => exact reply
      | none => trivial
  | rejected trace => trivial
  | failed trace => rwa [found] at reply

theorem satisfying (takes : p.Takes holds) (kind : α → Bool) : (p.satisfying kind).Takes holds := by
  intro source
  have reply := takes source
  unfold Parser.satisfying
  cases found : p source with
  | ok value rest =>
      rw [found] at reply
      simp only
      split
      · exact reply
      · trivial
  | rejected trace => trivial
  | failed trace => rwa [found] at reply

theorem consumed (takes : p.Takes holds) : p.consumed.Takes holds := by
  intro source
  have reply := takes source
  unfold Parser.consumed
  cases found : p source <;> rwa [found] at reply

/-- A choice takes what its parsers take, by induction over them. -/
theorem choice {ps : List (Parser α)} (each : ∀ p ∈ ps, p.Takes holds)
    : (Parser.choice ps).Takes holds := by
  intro source
  unfold Parser.choice
  generalize (none : Option Trace) = before
  induction ps generalizing before with
  | nil => trivial
  | cons p ps ih =>
      obtain ⟨first, others⟩ := List.forall_mem_cons.mp each
      have reply := first source
      rw [choiceAfter_cons]
      cases found : p source with
      | ok value rest => rwa [found] at reply
      | rejected trace => exact ih others _
      | failed trace => rwa [found] at reply

/-- A repetition takes what its rounds take, by induction over the number of times. -/
theorem iterate (joined : Joined holds) {step : α → Parser (Option α)}
    (each : ∀ state, (step state).Takes holds)
    (start : α)
    : (Parser.iterate step start).Takes holds := by
  intro source
  suffices times : ∀ n state, (iterateWithin step n state).Takes holds from times _ start source
  intro n
  induction n with
  | zero => exact pure joined
  | succ n ih =>
      intro state
      refine bind joined (each state) fun next => ?_
      cases next with
      | none => exact pure joined state
      | some next => exact ih next

theorem manyAfter (joined : Joined holds) (takes : p.Takes holds) (before : List α)
    : (Parser.manyAfter p before).Takes holds := by
  refine iterate joined (fun seen => bind joined (takes.optional joined) fun found => ?_) before
  cases found <;> exact pure joined _

theorem many (joined : Joined holds) (takes : p.Takes holds) : (Parser.many p).Takes holds :=
  bind joined (takes.manyAfter joined []) fun seen => pure joined seen.reverse

theorem separated {separator : Parser β} (joined : Joined holds) (separates : separator.Takes holds)
    (takes : p.Takes holds)
    : (Parser.separated separator p).Takes holds := by
  have list : (Parser.separated1 separator p).Takes holds :=
    bind joined takes fun first =>
      bind joined ((bind joined separates fun _ => takes).manyAfter joined [first]) fun seen =>
        pure joined seen.reverse
  refine bind joined (list.optional joined) fun found => ?_
  cases found <;> exact pure joined _

theorem blanks (joined : Joined holds) : Cypher.blanks.Takes holds :=
  fun source => ⟨source.takeWhile isSpace, List.takeWhile_append_dropWhile.symm,
    joined.spaces _ fun _ => List.mem_takeWhile_imp⟩

theorem padded (joined : Joined holds) (takes : p.Takes holds) : (padded p).Takes holds :=
  bind joined (blanks joined) fun _ => bind joined takes fun value =>
    bind joined (blanks joined) fun _ =>
    pure joined value

end Parser.Takes

-----------------------------------------------------------------------------------------
-- Words and texts
-----------------------------------------------------------------------------------------

section Lexemes

variable {holds : List Char → Prop} {source rest : List Char} {c quote : Char}

theorem char_takes (holdsHere : holds [c]) : (char c).Takes holds := by
  intro source
  unfold char
  split
  · split
    · rename_i same
      exact ⟨[_], rfl, same ▸ holdsHere⟩
    · trivial
  · trivial

theorem mark_takes (joined : Joined holds) (holdsHere : holds [c]) : (mark c).Takes holds :=
  (char_takes holdsHere).padded joined

theorem literally_takes (joined : Joined holds) {sign : String}
    (each : ∀ c ∈ sign.toList, holds [c])
    : (literally sign).Takes holds := by
  have any : (literally sign).Takes fun _ => True := by
    intro source
    unfold literally
    split
    · exact ⟨_, (List.take_append_drop sign.length source).symm, trivial⟩
    · trivial
  exact any.of_ok fun source value rest read => ⟨_, literally_eq_ok read, joined.all each⟩

theorem run1_takes (joined : Joined holds) {kind : Char → Bool} (each : ∀ c, kind c → holds [c])
    : (run1 kind).Takes holds := by
  intro source
  cases reply : run1 kind source with
  | ok taken rest =>
      obtain ⟨rfl, -, all, -⟩ := run1_eq_ok reply
      exact ⟨taken, rfl, joined.all fun c member => each c (all c member)⟩
  | rejected trace => trivial
  | failed trace =>
      unfold run1 at reply
      split at reply <;> cases reply

theorem run_takes (joined : Joined holds) {kind : Char → Bool} (each : ∀ c, kind c → holds [c])
    : (run kind).Takes holds :=
  fun source => ⟨source.takeWhile kind, List.takeWhile_append_dropWhile.symm,
    joined.all fun c member => each c (List.mem_takeWhile_imp member)⟩

theorem exists_skipped (source : List Char)
    : ∃ gap, source = gap ++ skip source ∧ ∀ c ∈ gap, isSpace c :=
  ⟨source.takeWhile isSpace, List.takeWhile_append_dropWhile.symm, fun _ => List.mem_takeWhile_imp⟩

theorem keyword_takes (named : Named holds) {word : String} (plain : IsPlainWord word)
    : (keyword word).Takes holds := by
  have literal : (wordLiterally word).Takes fun _ => True := by
    intro source
    unfold wordLiterally
    split
    · obtain ⟨text, same⟩ := dropBytes_suffix word.utf8ByteSize source
      exact ⟨text, same.symm, trivial⟩
    · trivial
  have ends : wordEnd.Takes fun _ => True := by
    intro source
    unfold wordEnd
    split
    · split
      · trivial
      · exact ⟨[], rfl, trivial⟩
    · exact ⟨[], rfl, trivial⟩
  have any : (keyword word).Takes fun _ => True :=
    (Parser.Takes.bind joined_any literal fun _ => ends).padded joined_any
  refine any.of_ok fun source value rest read => ?_
  obtain ⟨letters, tail, here, same, -, rfl⟩ := keyword_eq_ok plain read
  obtain ⟨gap, before, spaces⟩ := exists_skipped source
  obtain ⟨more, behind, others⟩ := exists_skipped tail
  refine ⟨gap ++ (letters ++ more), ?_, ?_⟩
  · rw [List.append_assoc, List.append_assoc, ← behind, ← here]
    exact before
  · have isWord : holds letters := named.all fun c member =>
      named.word c (isWordChar_of_isAlpha
        (isAlpha_of_isPlain (forall_isPlain plain.letters same c member)))
    exact named.append _ _ (named.spaces gap spaces)
      (named.append _ _ isWord (named.spaces more others))

theorem keywordAs_takes (named : Named holds) {α : Type} {word : String}
    (plain : IsPlainWord word) (value : α)
    : (keywordAs word value).Takes holds :=
  (keyword_takes named plain).map named.toJoined fun _ => value

theorem quotedName_takes (named : Named holds) : quotedName.Takes holds := by
  have inside : untilBackquote.Takes fun _ => True := by
    intro source
    unfold untilBackquote
    split
    · exact ⟨_, List.takeWhile_append_dropWhile.symm, trivial⟩
    · trivial
  have any : quotedName.Takes fun _ => True :=
    Parser.Takes.bind joined_any (char_takes trivial) fun _ => .bind joined_any inside fun _ =>
      (char_takes trivial).map joined_any fun _ => _
  refine any.of_ok fun source name rest read => ?_
  obtain ⟨noQuote, rfl⟩ := quotedName_eq_ok read
  exact ⟨'`' :: (name ++ ['`']), by simp, named.backquoted name noQuote⟩

theorem bareName_takes (named : Named holds) : bareName.Takes holds :=
  .bind named.toJoined
    (run1_takes named.toJoined fun c starts => named.word c (isWordChar_of_isWordStart starts))
    fun _ => (run_takes named.toJoined named.word).map named.toJoined fun _ => _

theorem symbolicName_takes (named : Named holds) : symbolicName.Takes holds :=
  .choice (by simpa using ⟨quotedName_takes named, bareName_takes named⟩)

theorem symbol_takes (named : Named holds) : symbol.Takes holds :=
  (symbolicName_takes named).map named.toJoined fun _ => _

theorem identifier_takes (named : Named holds) : identifier.Takes holds :=
  .map named.toJoined
    (.choice (by simpa using ⟨quotedName_takes named, (bareName_takes named).satisfying _⟩))
    fun _ => _

theorem digits_takes (named : Named holds) : digits.Takes holds :=
  run1_takes named.toJoined fun c digit => named.word c (isWordChar_of_isDigit digit)

/-- What is split off a string literal is in front of the rest. -/
theorem quotedBody_append {body : List Char} (split : quotedBody? quote source = some (body, rest))
    : source = body ++ rest := by
  fun_induction quotedBody? quote source generalizing body rest with
  | case1 =>
      cases split
      rfl
  | case2 c source escapable ih =>
      obtain ⟨⟨body', rest'⟩, found, same⟩ := Option.map_eq_some_iff.mp split
      cases same
      rw [ih found]
      rfl
  | case3 => cases split
  | case4 => cases split
  | case5 source =>
      cases split
      rfl
  | case6 c source notEscape notLast notQuote ih =>
      obtain ⟨⟨body', rest'⟩, found, same⟩ := Option.map_eq_some_iff.mp split
      cases same
      rw [ih found]
      rfl

/-- What is read as a text in quotes is the body of one between two of its quotes. -/
theorem quotedText_eq_ok {value : String} (isQuote : quote ≠ '\\')
    (read : quotedText quote source = .ok value rest)
    : ∃ body, source = quote :: (body ++ quote :: rest) ∧ QuotedBody quote body
      ∧ value = String.ofList body := by
  obtain ⟨_, inside, opens, read⟩ := Parser.bind_eq_ok.mp read
  obtain ⟨body, after, bodied, read⟩ := Parser.bind_eq_ok.mp read
  obtain ⟨_, _, closes, same⟩ := Parser.bind_eq_ok.mp read
  cases same
  obtain rfl := char_eq_ok.mp opens
  obtain rfl := char_eq_ok.mp closes
  split at bodied
  · rename_i found
    cases bodied
    exact ⟨body, by rw [quotedBody_append found], quotedBody_of_eq_some found, rfl⟩
  · rename_i none
    cases bodied
    rw [show quotedBody? quote (quote :: rest)
      = some ([], quote :: rest) from QuotedBody.nil.read isQuote rest] at none
    cases none

theorem quotedText_takes (lexical : Lexical holds) (isQuote : quote ∈ ['\'', '"'])
    : (quotedText quote).Takes holds := by
  have any : (quotedText quote).Takes fun _ => True := by
    refine Parser.Takes.bind joined_any (char_takes trivial) fun _ =>
      @Parser.Takes.bind _ _ _ _ _ joined_any (fun source => ?_) fun body =>
        (char_takes trivial).map joined_any fun _ => _
    split
    · rename_i found
      exact ⟨_, quotedBody_append found, trivial⟩
    · exact ⟨[], rfl, trivial⟩
  have notBackslash : ∀ quote ∈ ['\'', '"'], quote ≠ '\\' := by simp
  refine any.of_ok fun source value rest read => ?_
  obtain ⟨body, rfl, inside, -⟩ := quotedText_eq_ok (notBackslash quote isQuote) read
  exact ⟨quote :: (body ++ [quote]), by simp, lexical.quoted quote isQuote body inside⟩

theorem stringLiteral_takes (lexical : Lexical holds) : stringLiteral.Takes holds :=
  .choice (by simpa using ⟨quotedText_takes lexical (by simp), quotedText_takes lexical (by simp)⟩)

theorem literal_takes (lexical : Lexical holds) : literal.Takes holds := by
  have real : realLiteral.Takes holds :=
    .bind lexical.toJoined (digits_takes lexical.toNamed) fun _ =>
      .bind lexical.toJoined (char_takes (lexical.bare '.' (by decide))) fun _ =>
        (digits_takes lexical.toNamed).map lexical.toJoined fun _ => _
  have integer : integerLiteral.Takes holds :=
    ((digits_takes lexical.toNamed).reading _).map lexical.toJoined fun _ => _
  have text : Parser.Takes (do let raw ← stringLiteral; pure (Literal.text raw)) holds :=
    (stringLiteral_takes lexical).map lexical.toJoined fun _ => _
  have word (word : String) (plain : IsPlainWord word) (value : Literal)
      : (keywordAs word value).Takes holds :=
    keywordAs_takes lexical.toNamed plain value
  refine .map lexical.toJoined (.choice ?_) fun _ => _
  simpa using ⟨real, integer, text, word "TRUE" (by decide) _, word "FALSE" (by decide) _,
    word "NULL" (by decide) _⟩

theorem parameter_takes (lexical : Lexical holds) : parameter.Takes holds :=
  .bind lexical.toJoined (char_takes (lexical.bare '$' (by decide))) fun _ =>
    (run1_takes lexical.toJoined lexical.word).map lexical.toJoined fun _ => _

theorem functionName_takes (lexical : Lexical holds) : functionName.Takes holds := by
  have segment : nextSegment.Takes holds :=
    .bind lexical.toJoined (char_takes (lexical.bare '.' (by decide))) fun _ =>
      symbolicName_takes lexical.toNamed
  have whole := Parser.Takes.bind lexical.toJoined (symbolicName_takes lexical.toNamed) fun _ =>
    segment.many lexical.toJoined
  exact whole.consumed.map lexical.toJoined fun _ => _

/-- Matched parentheses outlive what expressions are made with. -/
theorem lexical_balanced : Lexical Balanced where
  spaces _ spaces := balanced_inert fun c member =>
    isInert_of_isBare (isBare_of_isSpace (spaces c member))
  append _ _ := Balanced.append
  word _ isWord := balanced_singleton (isInert_of_isBare (isBare_of_isWordChar isWord))
  backquoted _ := balanced_backquoted
  bare _ bare := balanced_singleton (isInert_of_isBare bare)
  quoted _ isQuote _ body := body.balanced isQuote
  enclosed := by
    simp only [List.forall_mem_cons, List.not_mem_nil, false_imp_iff, implies_true, and_true]
    refine ⟨fun text balanced => balanced.enclosed, fun text balanced => ?_⟩
    exact (balanced_singleton (by decide)).append (balanced.append (balanced_singleton (by decide)))
  listed _ balanced _ :=
    (balanced_singleton (by decide)).append (balanced.append (balanced_singleton (by decide)))

end Lexemes

-----------------------------------------------------------------------------------------
-- Expressions
-----------------------------------------------------------------------------------------

instance : LawfulMonad Parser :=
  LawfulMonad.mk' Parser
    (by
      intro α p
      funext source
      change Parser.bind p Parser.pure source = p source
      unfold Parser.bind
      cases p source <;> rfl)
    (fun _ _ => rfl)
    (by
      intro α β γ p f g
      funext source
      change Parser.bind (Parser.bind p f) g source
        = Parser.bind p (fun value => Parser.bind (f value) g) source
      unfold Parser.bind
      cases p source <;> rfl)

/-- What stands between two marks. -/
def between {α : Type} (opens closes : Char) (p : Parser α) : Parser α := do
  mark opens
  let inside ← p
  mark closes
  pure inside

/-- What stands between the parentheses of a call. -/
def callArguments (expr : Parser Expr) : Parser (Bool × List Expr) := do
  let distinct ← (keyword "DISTINCT").optional
  let args ← arguments expr
  pure (distinct.isSome, args)

section Expressions

variable {α : Type} {p : Parser α} {expr : Parser Expr} {holds : List Char → Prop}
  {opens closes : Char}
  {source rest : List Char}

theorem functionCall_eq (expr : Parser Expr)
    : functionCall expr
      = functionName >>= fun name =>
          between '(' ')' (callArguments expr) >>= fun inside =>
            pure (.call name inside.1 inside.2) := by
  simp only [functionCall, between, callArguments, arguments, bind_assoc, pure_bind]

theorem listLiteral_eq (expr : Parser Expr)
    : listLiteral expr = between '[' ']' (Parser.separated (mark ',') expr) >>= fun items =>
      pure (.list items) := by
  simp only [listLiteral, between, bind_assoc, pure_bind]

theorem mark_eq_ok {value : Unit} (read : mark opens source = .ok value rest)
    : ∃ tail, skip source = opens :: tail ∧ rest = skip tail := by
  obtain ⟨tail, inside, same⟩ := padded_eq_ok read
  exact ⟨tail, char_eq_ok.mp inside, same⟩

theorem between_eq_ok {value : α} (read : between opens closes p source = .ok value rest)
    : ∃ tail behind,
        skip source = opens :: tail
        ∧ rest = skip behind
        ∧ ∃ middle, p (skip tail) = .ok value middle ∧ skip middle = closes :: behind := by
  obtain ⟨_, _, opening, read⟩ := Parser.bind_eq_ok.mp read
  obtain ⟨inside, middle, found, read⟩ := Parser.bind_eq_ok.mp read
  obtain ⟨_, _, closing, same⟩ := Parser.bind_eq_ok.mp read
  cases same
  obtain ⟨tail, here, rfl⟩ := mark_eq_ok opening
  obtain ⟨behind, there, rfl⟩ := mark_eq_ok closing
  exact ⟨tail, behind, here, rfl, middle, found, there⟩

/-- What stands between two marks, with them and with the blanks around them. -/
theorem between_takes (joined : Joined holds) (takes : p.Takes fun _ => True)
    (marked
      : ∀ tail behind value middle,
          p (skip tail) = .ok value middle
          → skip middle = closes :: behind
          → ∃ inside, tail = inside ++ closes :: behind ∧ holds (opens :: (inside ++ [closes])))
    : (between opens closes p).Takes holds := by
  have any : (between opens closes p).Takes fun _ => True :=
    .bind joined_any (mark_takes joined_any trivial) fun _ => .bind joined_any takes fun _ =>
      (mark_takes joined_any trivial).map joined_any fun _ => _
  refine any.of_ok fun source value rest read => ?_
  obtain ⟨tail, behind, here, rfl, middle, found, there⟩ := between_eq_ok read
  obtain ⟨before, starts, spaces⟩ := exists_skipped source
  obtain ⟨last, ends, others⟩ := exists_skipped behind
  obtain ⟨inside, rfl, enclosed⟩ := marked tail behind value middle found there
  refine ⟨before ++ (opens :: (inside ++ [closes]) ++ last), ?_, ?_⟩
  · rw [here] at starts
    rw [starts]
    conv_lhs => rw [ends]
    simp
  · exact joined.append _ _ (joined.spaces before spaces)
      (joined.append _ _ enclosed (joined.spaces last others))

/-- What is taken up to a closing mark, with the blanks around it. -/
theorem Parser.Takes.inside (joined : Joined holds) (takes : p.Takes holds)
    {tail behind middle : List Char} {value : α}
    (found : p (skip tail) = .ok value middle) (there : skip middle = closes :: behind)
    : ∃ inside, tail = inside ++ closes :: behind ∧ holds inside := by
  obtain ⟨gap, leads, spaces⟩ := exists_skipped tail
  obtain ⟨text, taken, one⟩ := takes.taken found
  obtain ⟨more, follows, others⟩ := exists_skipped middle
  refine ⟨gap ++ (text ++ more), ?_, ?_⟩
  · rw [there] at follows
    rw [leads, taken, follows]
    simp
  · exact joined.append _ _ (joined.spaces gap spaces)
      (joined.append _ _ one (joined.spaces more others))

theorem Parser.Takes.any (takes : p.Takes holds) : p.Takes fun _ => True :=
  takes.of_ok fun source value rest read => by
    obtain ⟨text, same, -⟩ := takes.taken read
    exact ⟨text, same, trivial⟩

/-- What stands between parentheses or braces, with them. -/
theorem enclosed_takes (lexical : Lexical holds)
    (brackets : (opens, closes) ∈ [('(', ')'), ('\x7b', '\x7d')])
    (takes : p.Takes holds)
    : (between opens closes p).Takes holds := by
  refine between_takes lexical.toJoined takes.any fun tail behind value middle found there => ?_
  obtain ⟨inside, rfl, one⟩ := takes.inside lexical.toJoined found there
  exact ⟨inside, rfl, lexical.enclosed _ brackets inside one⟩

theorem skip_append_of_head {text : List Char} {c : Char} (opens : (skip text).head? = some c)
    (more : List Char)
    : (skip (text ++ more)).head? = some c := by
  obtain ⟨others, here⟩ := List.head?_eq_some_iff.mp opens
  obtain ⟨gap, leads, spaces⟩ := exists_skipped text
  have noSpace : isSpace c = false := by
    have visible := List.head?_dropWhile_not isSpace text
    rw [show text.dropWhile isSpace = skip text from rfl, opens] at visible
    simpa using visible
  rw [leads, here, List.append_assoc, skip_gap spaces, List.cons_append, skip_cons noSpace,
    List.head?_cons]

/-- The items of a list do not open with a colon or a star, and neither does an empty list. -/
theorem listed_takes (lexical : Lexical holds) (takes : expr.Takes holds)
    (rejects : ∀ c ∈ [':', '*'], ∀ tail, expr.Rejects (c :: tail))
    : (between '[' ']' (Parser.separated (mark ',') expr)).Takes holds := by
  have items : (Parser.separated (mark ',') expr).Takes holds :=
    .separated lexical.toJoined (mark_takes lexical.toJoined (lexical.bare ',' (by decide))) takes
  refine between_takes lexical.toJoined items.any fun tail behind value middle found there => ?_
  obtain ⟨inside, rfl, one⟩ := items.inside lexical.toJoined found there
  refine ⟨inside, rfl, lexical.listed inside one fun c opens => ?_⟩
  have here := skip_append_of_head opens (']' :: behind)
  obtain ⟨others, same⟩ := List.head?_eq_some_iff.mp here
  by_contra either
  have listed : c ∈ [':', '*'] := by
    rw [← not_or, not_not] at either
    simpa using either
  have none : (Parser.separated1 (mark ',') expr).Rejects (skip (inside ++ ']' :: behind)) := by
    rw [same]
    exact (rejects c listed others).bind
  cases found.symm.trans (Parser.bind_of_ok (Parser.optional_of_rejects none))
  rw [skip_skip, same] at there
  obtain ⟨rfl, -⟩ := List.cons.inj there
  exact absurd listed (by decide)

theorem arguments_takes (lexical : Lexical holds) (takes : expr.Takes holds)
    : (arguments expr).Takes holds := by
  have star : Parser.Takes (do mark '*'; pure [Expr.star]) holds :=
    (mark_takes lexical.toJoined (lexical.bare '*' (by decide))).map lexical.toJoined fun _ => _
  have each : (Parser.separated (mark ',') expr).Takes holds :=
    .separated lexical.toJoined (mark_takes lexical.toJoined (lexical.bare ',' (by decide))) takes
  exact .choice (by simpa using ⟨star, each⟩)

theorem callArguments_takes (lexical : Lexical holds) (takes : expr.Takes holds)
    : (callArguments expr).Takes holds :=
  .bind lexical.toJoined
    ((keyword_takes lexical.toNamed (by decide)).optional lexical.toJoined) fun _ =>
    (arguments_takes lexical takes).map lexical.toJoined fun _ => _

theorem mapLiteral_takes (lexical : Lexical holds) (takes : expr.Takes holds)
    : (mapLiteral expr).Takes holds := by
  have entry : (mapEntry expr).Takes holds :=
    .bind lexical.toJoined ((symbol_takes lexical.toNamed).padded lexical.toJoined) fun _ =>
      .bind lexical.toJoined (char_takes (lexical.bare ':' (by decide))) fun _ =>
        takes.map lexical.toJoined fun _ => _
  exact enclosed_takes lexical (by simp)
    (.separated lexical.toJoined (mark_takes lexical.toJoined (lexical.bare ',' (by decide))) entry)

theorem atom_takes (lexical : Lexical holds) (takes : expr.Takes holds)
    (rejects : ∀ c ∈ [':', '*'], ∀ tail, expr.Rejects (c :: tail))
    : (atom expr).Takes holds := by
  have call : (functionCall expr).Takes holds := by
    rw [functionCall_eq]
    exact .bind lexical.toJoined (functionName_takes lexical) fun _ =>
      (enclosed_takes lexical (by simp) (callArguments_takes lexical takes)).map lexical.toJoined
        fun _ => _
  have list : (listLiteral expr).Takes holds := by
    rw [listLiteral_eq]
    exact (listed_takes lexical takes rejects).map lexical.toJoined fun _ => _
  have map : Parser.Takes (do let entries ← mapLiteral expr; pure (Expr.map entries)) holds :=
    (mapLiteral_takes lexical takes).map lexical.toJoined fun _ => _
  have name : Parser.Takes (do let name ← identifier; pure (Expr.var name)) holds :=
    (identifier_takes lexical.toNamed).map lexical.toJoined fun _ => _
  have parentheses : (parenthesized expr).Takes holds := enclosed_takes lexical (by simp) takes
  refine .choice ?_
  simpa using ⟨literal_takes lexical, parameter_takes lexical, call, list, map, parentheses, name⟩

theorem lookups_takes (lexical : Lexical holds) (tighter : (atom expr).Takes holds)
    : (lookups expr).Takes holds := by
  have key : nextKey.Takes holds :=
    .bind lexical.toJoined (char_takes (lexical.bare '.' (by decide))) fun _ =>
      symbol_takes lexical.toNamed
  have keys (base : Expr) : Parser.Takes (Parser.iterate lookupStep base) holds :=
    .iterate lexical.toJoined
      (fun _ => (key.optional lexical.toJoined).map lexical.toJoined fun _ => _) base
  exact .bind lexical.toJoined (tighter.padded lexical.toJoined) fun base =>
    .bind lexical.toJoined (keys base) fun _ =>
      (Parser.Takes.blanks lexical.toJoined).map lexical.toJoined fun _ => _

theorem operatorAt_takes (lexical : Lexical holds) (level : Nat)
    : (operatorAt level).Takes holds := by
  have joined := lexical.toJoined
  have marked (c : Char) (op : BinaryOp) (bare : isBare c) : (markAs c op).Takes holds :=
    (char_takes (lexical.bare c bare)).map joined fun _ => op
  have word (word : String) (plain : IsPlainWord word) (op : BinaryOp)
      : (keywordAs word op).Takes holds :=
    keywordAs_takes lexical.toNamed plain op
  have signs : comparisonSign.Takes holds := by
    refine .padded joined (.choice fun p member => ?_)
    obtain ⟨sign, listed, op, rfl⟩ := exists_sign member
    have bare : ∀ sign ∈ comparisonSigns, sign.toList.all isBare = true := by decide
    have each := List.all_eq_true.mp (bare sign listed)
    exact (literally_takes joined fun c member => lexical.bare c (each c member)).map joined
      fun _ => op
  have withWord (first : String) (plain : IsPlainWord first) (op : BinaryOp)
      : Parser.Takes (do keyword first; keywordAs "WITH" op) holds :=
    .bind joined (keyword_takes lexical.toNamed plain) fun _ => word "WITH" (by decide) op
  have words : comparisonWords.Takes holds :=
    .choice (by
      simpa using ⟨withWord "STARTS" (by decide) _, withWord "ENDS" (by decide) _,
        word "CONTAINS" (by decide) _, word "IN" (by decide) _⟩)
  unfold operatorAt
  split
  · exact word "OR" (by decide) _
  · exact word "XOR" (by decide) _
  · exact word "AND" (by decide) _
  · exact .choice (by simpa using ⟨signs, words⟩)
  · exact .padded joined
      (.choice (by simpa using ⟨marked '+' _ (by decide), marked '-' _ (by decide)⟩))
  · refine .padded joined (.choice ?_)
    simpa using ⟨marked '*' _ (by decide), marked '/' _ (by decide), marked '%' _ (by decide)⟩
  · exact (marked '^' _ (by decide)).padded joined
  · exact fun _ => trivial

theorem testAt_takes (named : Named holds) (level : Nat) : (testAt level).Takes holds := by
  have word (word : String) (plain : IsPlainWord word) : (keyword word).Takes holds :=
    keyword_takes named plain
  have null (test : UnaryOp) : (keywordAs "NULL" test).Takes holds :=
    keywordAs_takes named (by decide) test
  unfold testAt
  split
  · have long
        : Parser.Takes (do keyword "IS"; keyword "NOT"; keywordAs "NULL" UnaryOp.isNotNull) holds :=
      .bind named.toJoined (word "IS" (by decide)) fun _ =>
        .bind named.toJoined (word "NOT" (by decide)) fun _ => null _
    have short : Parser.Takes (do keyword "IS"; keywordAs "NULL" UnaryOp.isNull) holds :=
      .bind named.toJoined (word "IS" (by decide)) fun _ => null _
    exact .choice (by simpa using ⟨long, short⟩)
  · exact fun _ => trivial

theorem signedWithin_takes (lexical : Lexical holds)
    (tighter : (lookups expr).Takes holds) (n : Nat)
    : (signedWithin expr n).Takes holds := by
  have sign (c : Char) (bare : isBare c) : (mark c).Takes holds :=
    mark_takes lexical.toJoined (lexical.bare c bare)
  induction n with
  | zero => exact fun _ => trivial
  | succ n ih =>
      have minus
          : Parser.Takes
            (do mark '-'; let operand ← signedWithin expr n; pure (negate operand)) holds :=
        .bind lexical.toJoined (sign '-' (by decide)) fun _ => ih.map lexical.toJoined fun _ => _
      have plus : Parser.Takes (do mark '+'; signedWithin expr n) holds :=
        .bind lexical.toJoined (sign '+' (by decide)) fun _ => ih
      exact .choice (by simpa using ⟨minus, plus, tighter⟩)

theorem negationsWithin_takes (named : Named holds)
    (tighter : (comparisons expr).Takes holds) (n : Nat)
    : (negationsWithin expr n).Takes holds := by
  induction n with
  | zero => exact fun _ => trivial
  | succ n ih =>
      have negation : Parser.Takes
          (do keyword "NOT"; let operand ← negationsWithin expr n; pure (Expr.unary .not operand))
          holds :=
        .bind named.toJoined (keyword_takes named (by decide)) fun _ =>
          ih.map named.toJoined fun _ => _
      exact .choice (by simpa using ⟨negation, tighter⟩)

theorem loop_takes (lexical : Lexical holds) {level : Nat} (loop : level ∈ loopLevels)
    (operand : (operandAt expr level).Takes holds) (n : Nat)
    : (levelWithin expr n level).Takes holds := by
  have joined := lexical.toJoined
  rw [levelWithin_eq_loop loop]
  refine .bind joined operand fun first => .iterate joined (fun left => ?_) first
  refine .bind joined ((testAt_takes lexical.toNamed level).optional joined) fun test => ?_
  cases test with
  | some test => exact .pure joined _
  | none =>
      refine .bind joined ((operatorAt_takes lexical level).optional joined) fun op => ?_
      cases op with
      | none => exact .pure joined _
      | some op => exact operand.map joined fun _ => _

/-- Every level takes texts with the property, from the tightest level on. -/
theorem levelWithin_takes (lexical : Lexical holds) (takes : expr.Takes holds)
    (rejects : ∀ c ∈ [':', '*'], ∀ tail, expr.Rejects (c :: tail)) {level : Nat}
    (within : level ≤ 9) (n : Nat)
    : (levelWithin expr n level).Takes holds := by
  have tightest := lookups_takes lexical (atom_takes lexical takes rejects)
  induction within using Nat.decreasingInduction generalizing n with
  | self => exact tightest
  | of_succ level within ih =>
      rcases loop_or_single level within with loop | rfl | rfl
      · exact loop_takes lexical loop (fun source => ih (source.length + 1) source) n
      · exact negationsWithin_takes lexical.toNamed (ih 0) n
      · exact signedWithin_takes lexical tightest n

end Expressions

end CypherSql.Cypher
