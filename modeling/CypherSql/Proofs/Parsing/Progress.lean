import CypherSql.Cypher.QueryParser
import CypherSql.Proofs.Printing.Levels

/-! How much of its source a parser takes at least when it succeeds, and the places that its
complaints are about. Both follow from the parts that a parser is built from.
-/

namespace CypherSql.Cypher

-----------------------------------------------------------------------------------------
-- Places
-----------------------------------------------------------------------------------------

/-- Every complaint is about a place in the source. -/
def Trace.Inside (source : List Char) (trace : Trace) : Prop :=
  ∀ entry ∈ trace.entries, entry.remaining <:+ source

namespace Trace.Inside

variable {source larger : List Char} {trace other : Trace}

theorem mono (inside : trace.Inside source) (suffix : source <:+ larger) : trace.Inside larger :=
  fun entry member => (inside entry member).trans suffix

theorem here {remaining : List Char} (suffix : remaining <:+ source) (complaint : Complaint)
    : (Trace.here remaining complaint).Inside source := by
  intro entry member
  obtain rfl := List.mem_singleton.mp member
  exact suffix

theorem within {remaining : List Char} (inside : trace.Inside source)
    (suffix : remaining <:+ source)
    (complaint : Complaint)
    : (trace.within remaining complaint).Inside source := by
  intro entry member
  rcases List.mem_append.mp (show entry ∈ trace.entries ++ [⟨remaining, complaint⟩] from member)
    with
    earlier | added
  · exact inside entry earlier
  · obtain rfl := List.mem_singleton.mp added
    exact suffix

theorem further (inside : trace.Inside source) (also : other.Inside source)
    : (trace.further other).Inside source := by
  unfold Trace.further
  split
  · exact also
  · exact inside

end Trace.Inside

/-- What is said of a source: what is left is a suffix of it, without some characters at least, and
complaints are about places in it.
-/
def Reply.Inside {α : Type} (least : Nat) (source : List Char) : Reply α → Prop
  | .ok _ rest => rest <:+ source ∧ rest.length + least ≤ source.length
  | .rejected trace => trace.Inside source
  | .failed trace => trace.Inside source

/-- A parser takes some characters at least off the start of its source where it succeeds, and
complains about places in the source.
-/
def Parser.Advances {α : Type} (p : Parser α) (least : Nat) : Prop :=
  ∀ source, (p source).Inside least source

-----------------------------------------------------------------------------------------
-- Combined parsers
-----------------------------------------------------------------------------------------

namespace Parser.Advances

variable {α β : Type} {p : Parser α} {f : α → Parser β} {least more : Nat}

theorem suffix (advances : p.Advances least) {source rest : List Char} {value : α}
    (read : p source = .ok value rest)
    : rest <:+ source := by
  have inside := advances source
  rw [read] at inside
  exact inside.1

theorem length_le (advances : p.Advances least) {source rest : List Char} {value : α}
    (read : p source = .ok value rest)
    : rest.length + least ≤ source.length := by
  have inside := advances source
  rw [read] at inside
  exact inside.2

theorem mono (advances : p.Advances more) (le : least ≤ more) : p.Advances least := by
  intro source
  have inside := advances source
  cases reply : p source with
  | ok value rest =>
      rw [reply] at inside
      exact ⟨inside.1, Nat.le_trans (Nat.add_le_add_left le _) inside.2⟩
  | rejected trace => rwa [reply] at inside
  | failed trace => rwa [reply] at inside

theorem anyway (advances : p.Advances least) : p.Advances 0 :=
  advances.mono (Nat.zero_le least)

theorem pure (value : α) : (Pure.pure value : Parser α).Advances 0 :=
  fun source => ⟨List.suffix_refl source, Nat.le_refl _⟩

theorem reject (least : Nat) : (Parser.reject : Parser α).Advances least :=
  fun source => .here (List.suffix_refl source) .unexpected

/-- A sequence takes what both of its parsers take. -/
theorem bind_add (first : p.Advances least) (second : ∀ value, (f value).Advances more)
    : (p >>= f).Advances (least + more) := by
  intro source
  change (Parser.bind p f source).Inside _ source
  have inside := first source
  unfold Parser.bind
  cases reply : p source with
  | ok value middle =>
      rw [reply] at inside
      obtain ⟨suffix, shorter⟩ := inside
      have later := second value middle
      simp only
      cases result : f value middle with
      | ok last rest =>
          rw [result] at later
          exact ⟨later.1.trans suffix, by have := later.2; omega⟩
      | rejected trace =>
          rw [result] at later
          exact Trace.Inside.mono later suffix
      | failed trace =>
          rw [result] at later
          exact Trace.Inside.mono later suffix
  | rejected trace => rwa [reply] at inside
  | failed trace => rwa [reply] at inside

theorem bind (first : p.Advances least) (second : ∀ value, (f value).Advances 0)
    : (p >>= f).Advances least :=
  first.bind_add second

/-- What a sequence takes may be taken by its second parser alone. -/
theorem later (first : p.Advances least) (second : ∀ value, (f value).Advances more)
    : (p >>= f).Advances more :=
  (first.bind_add second).mono (Nat.le_add_left more least)

theorem committed (advances : p.Advances least) : p.committed.Advances least := by
  intro source
  have inside := advances source
  unfold Parser.committed
  cases reply : p source <;> rwa [reply] at inside

theorem within (advances : p.Advances least) (complaint : Complaint)
    : (p.within complaint).Advances least := by
  intro source
  have inside := advances source
  unfold Parser.within
  cases reply : p source with
  | ok value rest => rwa [reply] at inside
  | rejected trace =>
      rw [reply] at inside
      exact Trace.Inside.within inside (List.suffix_refl source) complaint
  | failed trace =>
      rw [reply] at inside
      exact Trace.Inside.within inside (List.suffix_refl source) complaint

theorem reading (advances : p.Advances least) (read : α → Option β)
    : (p.reading read).Advances least := by
  intro source
  have inside := advances source
  unfold Parser.reading
  cases reply : p source with
  | ok value rest =>
      rw [reply] at inside
      simp only
      cases read value with
      | some result => exact inside
      | none => exact Trace.Inside.here (List.suffix_refl source) .invalidLiteral
  | rejected trace => rwa [reply] at inside
  | failed trace => rwa [reply] at inside

theorem satisfying (advances : p.Advances least) (holds : α → Bool)
    : (p.satisfying holds).Advances least := by
  intro source
  have inside := advances source
  unfold Parser.satisfying
  cases reply : p source with
  | ok value rest =>
      rw [reply] at inside
      simp only
      split
      · exact inside
      · exact Trace.Inside.here (List.suffix_refl source) .unexpected
  | rejected trace => rwa [reply] at inside
  | failed trace => rwa [reply] at inside

theorem consumed (advances : p.Advances least) : p.consumed.Advances least := by
  intro source
  have inside := advances source
  unfold Parser.consumed
  cases reply : p source <;> rwa [reply] at inside

theorem optional (advances : p.Advances least) : p.optional.Advances 0 := by
  intro source
  have inside := advances.anyway source
  unfold Parser.optional
  cases reply : p source with
  | ok value rest => rwa [reply] at inside
  | rejected trace => exact ⟨List.suffix_refl source, Nat.le_refl _⟩
  | failed trace => rwa [reply] at inside

/-- A choice takes what each of its parsers takes, by induction over them. -/
theorem choice {ps : List (Parser α)} (each : ∀ p ∈ ps, p.Advances least)
    : (Parser.choice ps).Advances least := by
  intro source
  suffices after : ∀ before : Option Trace, (∀ trace ∈ before, trace.Inside source) →
      (choiceAfter before ps source).Inside least source from after none nofun
  induction ps with
  | nil =>
      intro before inside
      cases before with
      | none => exact Trace.Inside.here (List.suffix_refl source) .noAlternative
      | some trace => exact (inside trace rfl).within (List.suffix_refl source) .noAlternative
  | cons p ps ih =>
      intro before inside
      obtain ⟨first, others⟩ := List.forall_mem_cons.mp each
      have here := first source
      rw [choiceAfter_cons]
      cases reply : p source with
      | ok value rest => rwa [reply] at here
      | rejected trace =>
          rw [reply] at here
          refine ih others _ fun furthest same => ?_
          obtain rfl := Option.some.inj same
          cases before with
          | none => exact here
          | some earlier => exact Trace.Inside.further (inside earlier rfl) here
      | failed trace => rwa [reply] at here

/-- A repetition stays in the source if its step does, by induction over the number of times. -/
theorem iterate {step : α → Parser (Option α)} (each : ∀ state, (step state).Advances 0) (start : α)
    : (Parser.iterate step start).Advances 0 := by
  intro source
  suffices times : ∀ n state, (iterateWithin step n state).Advances 0 from times _ start source
  intro n
  induction n with
  | zero => exact pure
  | succ n ih =>
      intro state
      refine (each state).bind fun next => ?_
      cases next with
      | none => exact pure state
      | some next => exact ih next

theorem manyAfter (advances : p.Advances least) (before : List α)
    : (Parser.manyAfter p before).Advances 0 := by
  refine iterate (fun seen => advances.optional.bind fun found => ?_) before
  cases found <;> exact pure _

theorem many (advances : p.Advances least) : (Parser.many p).Advances 0 :=
  (advances.manyAfter []).bind fun seen => pure seen.reverse

theorem many1 (advances : p.Advances least) : (Parser.many1 p).Advances least := by
  refine @bind _ _ _ _ _ (fun source => ?_) fun first =>
    (advances.manyAfter [first]).bind fun seen => pure seen.reverse
  have inside := advances source
  cases reply : p source with
  | ok value rest => rwa [reply] at inside
  | rejected trace =>
      rw [reply] at inside
      exact Trace.Inside.within inside (List.suffix_refl source) .noAlternative
  | failed trace => rwa [reply] at inside

theorem separated1 {separator : Parser β} (separates : separator.Advances more)
    (advances : p.Advances least)
    : (Parser.separated1 separator p).Advances least :=
  advances.bind fun first =>
    ((separates.later fun _ => advances).manyAfter [first]).bind fun seen => pure seen.reverse

theorem separated {separator : Parser β} (separates : separator.Advances more)
    (advances : p.Advances least)
    : (Parser.separated separator p).Advances 0 := by
  refine (separates.separated1 advances).optional.bind fun found => ?_
  cases found <;> exact pure _

theorem blanks : Cypher.blanks.Advances 0 :=
  fun _ => ⟨List.dropWhile_suffix isSpace, (List.dropWhile_suffix isSpace).length_le⟩

theorem padded (advances : p.Advances least) : (padded p).Advances least :=
  blanks.later fun _ => advances.bind fun value => blanks.bind fun _ => pure value

end Parser.Advances

-----------------------------------------------------------------------------------------
-- Characters and words
-----------------------------------------------------------------------------------------

theorem char_advances (c : Char) : (char c).Advances 1 := by
  intro source
  unfold char
  cases source with
  | nil => exact .here (List.suffix_refl []) .unexpected
  | cons d rest =>
      simp only
      split
      · exact ⟨List.suffix_cons d rest, Nat.le_refl _⟩
      · exact Trace.Inside.here (List.suffix_refl _) .unexpected

theorem literally_advances (text : String) : (literally text).Advances text.length := by
  intro source
  unfold literally
  split
  · rename_i opens
    have long := (List.isPrefixOf_iff_prefix.mp opens).length_le
    rw [String.length_toList] at long
    refine ⟨List.drop_suffix _ source, ?_⟩
    rw [List.length_drop]
    omega
  · exact Trace.Inside.here (List.suffix_refl source) .unexpected

theorem run1_advances (holds : Char → Bool) : (run1 holds).Advances 1 := by
  intro source
  cases reply : run1 holds source with
  | ok taken rest =>
      obtain ⟨rfl, nonempty, -, -⟩ := run1_eq_ok reply
      have some := List.length_pos_of_ne_nil nonempty
      refine ⟨List.suffix_append taken rest, ?_⟩
      rw [List.length_append]
      omega
  | rejected trace =>
      unfold run1 at reply
      split at reply
      · cases reply
        exact .here (List.suffix_refl source) .unexpected
      · cases reply
  | failed trace =>
      unfold run1 at reply
      split at reply <;> cases reply

theorem run_advances (holds : Char → Bool) : (run holds).Advances 0 :=
  fun _ => ⟨List.dropWhile_suffix holds, (List.dropWhile_suffix holds).length_le⟩

theorem dropBytes_suffix (count : Nat) (source : List Char)
    : dropBytes count source <:+ source := by
  fun_induction dropBytes count source with
  | case1 source => exact List.suffix_refl source
  | case2 => exact List.suffix_refl []
  | case3 n c rest ih => exact ih.trans (List.suffix_cons c rest)

/-- A word takes a character at least, whatever the characters of the source are that its bytes
stand for.
-/
theorem wordLiterally_advances {word : String} (nonempty : 0 < word.utf8ByteSize)
    : (wordLiterally word).Advances 1 := by
  intro source
  unfold wordLiterally
  split
  · rename_i found
    refine ⟨dropBytes_suffix _ source, ?_⟩
    cases source with
    | nil =>
        rw [List.take_nil, Bool.and_eq_true, decide_eq_true_eq] at found
        exact absurd (Nat.lt_of_lt_of_le nonempty found.2) (Nat.lt_irrefl 0)
    | cons c rest =>
        obtain ⟨n, size⟩ := Nat.exists_eq_add_of_lt nonempty
        rw [Nat.zero_add] at size
        rw [size, dropBytes, List.length_cons]
        exact Nat.succ_le_succ (dropBytes_suffix _ rest).length_le
  · exact Trace.Inside.here (List.suffix_refl source) .unexpected

theorem wordEnd_advances : wordEnd.Advances 0 := by
  intro source
  cases source with
  | nil => exact ⟨List.suffix_refl [], Nat.le_refl _⟩
  | cons c rest =>
      unfold wordEnd
      simp only
      split
      · exact Trace.Inside.here (List.suffix_refl _) .unexpected
      · exact ⟨List.suffix_refl _, Nat.le_refl _⟩

section Words

variable {word : String}

theorem keyword_advances (nonempty : 0 < word.utf8ByteSize) : (keyword word).Advances 1 :=
  ((wordLiterally_advances nonempty).bind fun _ => wordEnd_advances).padded

theorem keywordAs_advances {α : Type} (nonempty : 0 < word.utf8ByteSize) (value : α)
    : (keywordAs word value).Advances 1 :=
  (keyword_advances nonempty).bind fun _ => .pure value

end Words

theorem mark_advances (c : Char) : (mark c).Advances 1 :=
  (char_advances c).padded

theorem bareName_advances : bareName.Advances 1 :=
  (run1_advances _).bind fun _ => (run_advances _).bind fun _ => .pure _

theorem untilBackquote_advances : untilBackquote.Advances 0 := by
  intro source
  unfold untilBackquote
  split
  · exact ⟨List.dropWhile_suffix _, (List.dropWhile_suffix _).length_le⟩
  · exact Trace.Inside.here (List.suffix_refl source) .unexpected

theorem quotedName_advances : quotedName.Advances 1 :=
  (char_advances '`').bind fun _ =>
    untilBackquote_advances.bind fun name => (char_advances '`').anyway.bind fun _ => .pure name

theorem symbolicName_advances : symbolicName.Advances 1 :=
  .choice (by simpa using ⟨quotedName_advances, bareName_advances⟩)

theorem symbol_advances : symbol.Advances 1 :=
  symbolicName_advances.bind fun _ => .pure _

theorem identifier_advances : identifier.Advances 1 :=
  (Parser.Advances.choice
    (by simpa using ⟨quotedName_advances, bareName_advances.satisfying _⟩)).bind fun _ => .pure _

theorem digits_advances : digits.Advances 1 :=
  run1_advances _

theorem hopCount_advances : hopCount.Advances 1 :=
  digits_advances.reading _

theorem quotedBody_suffix {quote : Char} {source body rest : List Char}
    (split : quotedBody? quote source = some (body, rest))
    : rest <:+ source := by
  fun_induction quotedBody? quote source generalizing body rest with
  | case1 =>
      cases split
      exact List.suffix_refl []
  | case2 c source escapable ih =>
      obtain ⟨⟨body', rest'⟩, found, same⟩ := Option.map_eq_some_iff.mp split
      cases same
      exact (ih found).trans ((List.suffix_cons c source).trans (List.suffix_cons '\\' _))
  | case3 => cases split
  | case4 => cases split
  | case5 source =>
      cases split
      exact List.suffix_refl _
  | case6 c source notEscape notLast notQuote ih =>
      obtain ⟨⟨body', rest'⟩, found, same⟩ := Option.map_eq_some_iff.mp split
      cases same
      exact (ih found).trans (List.suffix_cons c source)

theorem quotedText_advances (quote : Char) : (quotedText quote).Advances 1 := by
  refine (char_advances quote).bind fun _ =>
    @Parser.Advances.bind _ _ _ _ _ (fun source => ?_) fun body =>
    (char_advances quote).anyway.bind fun _ => .pure _
  split
  · rename_i body rest found
    exact ⟨quotedBody_suffix found, (quotedBody_suffix found).length_le⟩
  · exact ⟨List.suffix_refl source, Nat.le_refl _⟩

theorem stringLiteral_advances : stringLiteral.Advances 1 :=
  .choice (by simpa using ⟨quotedText_advances '\'', quotedText_advances '"'⟩)

-----------------------------------------------------------------------------------------
-- Expressions
-----------------------------------------------------------------------------------------

theorem realLiteral_advances : realLiteral.Advances 1 :=
  digits_advances.bind fun _ => (char_advances '.').anyway.bind fun _ =>
    digits_advances.anyway.bind fun _ => .pure _

theorem integerLiteral_advances : integerLiteral.Advances 1 :=
  (digits_advances.reading _).bind fun _ => .pure _

theorem literal_advances : literal.Advances 1 := by
  have text : Parser.Advances (do let raw ← stringLiteral; pure (Literal.text raw)) 1 :=
    stringLiteral_advances.bind fun _ => .pure _
  have word (word : String) (nonempty : 0 < word.utf8ByteSize) (value : Literal)
      : (keywordAs word value).Advances 1 :=
    keywordAs_advances nonempty value
  refine (Parser.Advances.choice ?_).bind fun value => .pure _
  simpa using ⟨realLiteral_advances, integerLiteral_advances, text, word "TRUE" (by decide) _,
    word "FALSE" (by decide) _, word "NULL" (by decide) _⟩

theorem parameter_advances : parameter.Advances 1 :=
  (char_advances '$').bind fun _ => (run1_advances _).anyway.bind fun _ => .pure _

/-- One more part of a function name. -/
def nextSegment : Parser (List Char) := do
  char '.'
  symbolicName

theorem nextSegment_advances : nextSegment.Advances 1 :=
  (char_advances '.').bind fun _ => symbolicName_advances.anyway

theorem functionName_advances : functionName.Advances 1 :=
  (symbolicName_advances.bind fun _ => nextSegment_advances.many).consumed.bind fun _ => .pure _

section Levels

variable {expr : Parser Expr}

theorem functionCall_advances (inner : expr.Advances 1) : (functionCall expr).Advances 1 := by
  have star : Parser.Advances (do mark '*'; pure [Expr.star]) 0 :=
    (mark_advances '*').anyway.bind fun _ => .pure _
  have each := (mark_advances ',').separated inner
  refine functionName_advances.bind fun name => (mark_advances '(').anyway.bind fun _ => ?_
  refine (keyword_advances (by decide)).optional.bind fun distinct => ?_
  refine (Parser.Advances.choice (by simpa using ⟨star, each⟩)).bind fun args => ?_
  exact (mark_advances ')').anyway.bind fun _ => .pure _

theorem listLiteral_advances (inner : expr.Advances 1) : (listLiteral expr).Advances 1 :=
  (mark_advances '[').bind fun _ => ((mark_advances ',').separated inner).bind fun _ =>
    (mark_advances ']').anyway.bind fun _ => .pure _

theorem mapEntry_advances (inner : expr.Advances 1) : (mapEntry expr).Advances 1 :=
  symbol_advances.padded.bind fun _ => (char_advances ':').anyway.bind fun _ =>
    inner.anyway.bind fun _ => .pure _

theorem mapLiteral_advances (inner : expr.Advances 1) : (mapLiteral expr).Advances 1 :=
  (mark_advances '\x7b').bind fun _ =>
    ((mark_advances ',').separated (mapEntry_advances inner)).bind fun _ =>
      (mark_advances '\x7d').anyway.bind fun _ => .pure _

theorem parenthesized_advances (inner : expr.Advances 1) : (parenthesized expr).Advances 1 :=
  (mark_advances '(').bind fun _ => inner.anyway.bind fun _ =>
    (mark_advances ')').anyway.bind fun _ => .pure _

theorem atom_advances (inner : expr.Advances 1) : (atom expr).Advances 1 := by
  have map : Parser.Advances (do let entries ← mapLiteral expr; pure (Expr.map entries)) 1 :=
    (mapLiteral_advances inner).bind fun _ => .pure _
  have name : Parser.Advances (do let name ← identifier; pure (Expr.var name)) 1 :=
    identifier_advances.bind fun _ => .pure _
  refine .choice ?_
  simpa using ⟨literal_advances, parameter_advances, functionCall_advances inner,
    listLiteral_advances inner, map, parenthesized_advances inner, name⟩

/-- One more key to look up. -/
def nextKey : Parser String := do
  char '.'
  symbol

theorem nextKey_advances : nextKey.Advances 1 :=
  (char_advances '.').bind fun _ => symbol_advances.anyway

theorem lookupStep_advances (base : Expr) : (lookupStep base).Advances 0 :=
  nextKey_advances.optional.bind fun _ => .pure _

theorem lookups_advances (inner : expr.Advances 1) : (lookups expr).Advances 1 := by
  have keys (base : Expr) : Parser.Advances (Parser.iterate lookupStep base) 0 :=
    .iterate lookupStep_advances base
  exact (atom_advances inner).padded.bind fun base =>
    (keys base).bind fun _ => Parser.Advances.blanks.bind fun _ => .pure _

/-- Signs take a character each, by induction over how many there may be. -/
theorem signedWithin_advances (inner : expr.Advances 1) (n : Nat)
    : (signedWithin expr n).Advances 1 := by
  induction n with
  | zero => exact .reject 1
  | succ n ih =>
      have minus
          : Parser.Advances
            (do mark '-'; let operand ← signedWithin expr n; pure (negate operand)) 1 :=
        (mark_advances '-').bind fun _ => ih.anyway.bind fun _ => .pure _
      have plus : Parser.Advances (do mark '+'; signedWithin expr n) 1 :=
        (mark_advances '+').bind fun _ => ih.anyway
      exact .choice (by simpa using ⟨minus, plus, lookups_advances inner⟩)

theorem signed_advances (inner : expr.Advances 1) : (signed expr).Advances 1 :=
  fun source => signedWithin_advances inner _ source

theorem markAs_advances (c : Char) (op : BinaryOp) : (markAs c op).Advances 1 :=
  (char_advances c).bind fun _ => .pure _

theorem signAs_advances (text : String) (op : BinaryOp) : (signAs text op).Advances text.length :=
  (literally_advances text).bind fun _ => .pure _

theorem comparisonSign_advances : comparisonSign.Advances 1 := by
  have sign (text : String) (op : BinaryOp) (nonempty : 1 ≤ text.length)
      : (signAs text op).Advances 1 :=
    (signAs_advances text op).mono nonempty
  refine (Parser.Advances.choice ?_).padded
  simpa using ⟨sign ">=" _ (by decide), sign "<=" _ (by decide), sign "<>" _ (by decide),
    sign "!=" _ (by decide), sign "=~" _ (by decide), sign ">" _ (by decide),
    sign "<" _ (by decide),
    sign "=" _ (by decide)⟩

theorem comparisonWords_advances : comparisonWords.Advances 1 := by
  have word (word : String) (nonempty : 0 < word.utf8ByteSize) : (keyword word).Advances 1 :=
    keyword_advances nonempty
  have withStart : Parser.Advances (do keyword "STARTS"; keywordAs "WITH" BinaryOp.startsWith) 1 :=
    (word "STARTS" (by decide)).bind fun _ => (keywordAs_advances (by decide) _).anyway
  have withEnd : Parser.Advances (do keyword "ENDS"; keywordAs "WITH" BinaryOp.endsWith) 1 :=
    (word "ENDS" (by decide)).bind fun _ => (keywordAs_advances (by decide) _).anyway
  have contains : (keywordAs "CONTAINS" BinaryOp.contains).Advances 1 :=
    keywordAs_advances (by decide) _
  have isIn : (keywordAs "IN" BinaryOp.isIn).Advances 1 := keywordAs_advances (by decide) _
  exact .choice (by simpa using ⟨withStart, withEnd, contains, isIn⟩)

theorem nullTest_advances : nullTest.Advances 1 := by
  have opens : (keyword "IS").Advances 1 := keyword_advances (by decide)
  have negation : (keyword "NOT").Advances 0 := (keyword_advances (by decide)).anyway
  have null (op : UnaryOp) : (keywordAs "NULL" op).Advances 0 :=
    (keywordAs_advances (by decide) op).anyway
  have notNull : Parser.Advances
      (do keyword "IS"; keyword "NOT"; keywordAs "NULL" UnaryOp.isNotNull) 1 :=
    opens.bind fun _ => negation.bind fun _ => null _
  have isNull : Parser.Advances (do keyword "IS"; keywordAs "NULL" UnaryOp.isNull) 1 :=
    opens.bind fun _ => null _
  exact .choice (by simpa using ⟨notNull, isNull⟩)

theorem operatorAt_advances (level : Nat) : (operatorAt level).Advances 1 := by
  unfold operatorAt
  split
  · exact keywordAs_advances (by decide) _
  · exact keywordAs_advances (by decide) _
  · exact keywordAs_advances (by decide) _
  · exact .choice (by simpa using ⟨comparisonSign_advances, comparisonWords_advances⟩)
  · exact (Parser.Advances.choice
      (by simpa using ⟨markAs_advances '+' _, markAs_advances '-' _⟩)).padded
  · refine (Parser.Advances.choice ?_).padded
    simpa using ⟨markAs_advances '*' _, markAs_advances '/' _, markAs_advances '%' _⟩
  · exact (markAs_advances '^' _).padded
  · exact .reject 1

theorem testAt_advances (level : Nat) : (testAt level).Advances 1 := by
  unfold testAt
  split
  · exact nullTest_advances
  · exact .reject 1

theorem stepAt_advances {level : Nat} (operand : (operandAt expr level).Advances 0) (left : Expr)
    : (stepAt expr level left).Advances 0 := by
  refine (testAt_advances level).optional.bind fun test => ?_
  cases test with
  | some test => exact .pure _
  | none =>
      refine (operatorAt_advances level).optional.bind fun op => ?_
      cases op with
      | none => exact .pure _
      | some op => exact operand.bind fun _ => .pure _

/-- A level takes what its operands take. -/
theorem loop_advances {level : Nat} (loop : level ∈ loopLevels)
    (operand : (operandAt expr level).Advances 1)
    (n : Nat)
    : (levelWithin expr n level).Advances 1 := by
  rw [levelWithin_eq_loop loop]
  exact operand.bind fun first => .iterate (stepAt_advances operand.anyway) first

theorem negationsWithin_advances (tighter : (comparisons expr).Advances 1) (n : Nat)
    : (negationsWithin expr n).Advances 1 := by
  induction n with
  | zero => exact .reject 1
  | succ n ih =>
      have negation : Parser.Advances
          (do keyword "NOT"; let operand ← negationsWithin expr n; pure (Expr.unary .not operand))
          1 :=
        (keyword_advances (by decide)).bind fun _ => ih.anyway.bind fun _ => .pure _
      exact .choice (by simpa using ⟨negation, tighter⟩)

theorem negations_advances (tighter : (comparisons expr).Advances 1)
    : (negations expr).Advances 1 :=
  fun source => negationsWithin_advances tighter _ source

/-- Every level takes a character at least, from the tightest level on. -/
theorem levelWithin_advances (inner : expr.Advances 1) {level : Nat} (within : level ≤ 9) (n : Nat)
    : (levelWithin expr n level).Advances 1 := by
  induction within using Nat.decreasingInduction generalizing n with
  | self => exact lookups_advances inner
  | of_succ level within ih =>
      rcases loop_or_single level within with loop | rfl | rfl
      · exact loop_advances loop (fun source => ih (source.length + 1) source) n
      · exact negationsWithin_advances (ih 0) n
      · exact signedWithin_advances inner n

theorem operandAt_advances (inner : expr.Advances 1) {level : Nat} (loop : level ∈ loopLevels)
    : (operandAt expr level).Advances 1 := by
  have within : ∀ level ∈ loopLevels, level + 1 ≤ 9 := by decide
  exact fun source => levelWithin_advances inner (within level loop) _ source

end Levels

/-- An expression takes a character at least, by induction over the depth of its brackets. -/
theorem expressionWithin_advances (n : Nat) : (expressionWithin n).Advances 1 := by
  induction n with
  | zero => exact .reject 1
  | succ n ih => exact @levelWithin_advances (expressionWithin n) ih 0 (by decide) 0

theorem expression_advances : expression.Advances 1 :=
  fun source => expressionWithin_advances _ source

-----------------------------------------------------------------------------------------
-- Patterns
-----------------------------------------------------------------------------------------

/-- One more label of a node. -/
def nextLabel : Parser String := do
  mark ':'
  padded symbol

/-- A type of a relationship, with or without a colon of its own. -/
def typeName : Parser String := do
  let _ ← (mark ':').optional
  padded symbol

/-- One more relationship and node of a path. -/
def nextHop : Parser (RelationshipPattern × NodePattern) := do
  let relationship ← relationshipPattern
  let node ← nodePattern
  pure (relationship, node)

theorem nextLabel_advances : nextLabel.Advances 1 :=
  (mark_advances ':').bind fun _ => symbol_advances.padded.anyway

theorem typeName_advances : typeName.Advances 1 :=
  (mark_advances ':').optional.later fun _ => symbol_advances.padded

theorem properties_advances : (mapLiteral expression).optional.Advances 0 :=
  (mapLiteral_advances expression_advances).optional

theorem nodePattern_advances : nodePattern.Advances 1 := by
  refine Parser.Advances.within ((mark_advances '(').bind fun _ => ?_) _
  refine identifier_advances.padded.optional.bind fun name => ?_
  refine nextLabel_advances.many.bind fun labels => ?_
  exact properties_advances.bind fun properties => (mark_advances ')').anyway.bind fun _ => .pure _

theorem relationshipTypes_advances : relationshipTypes.Advances 0 := by
  have types : Parser.Advances (do mark ':'; Parser.separated1 (mark '|') typeName) 1 :=
    (mark_advances ':').bind fun _ => ((mark_advances '|').separated1 typeName_advances).anyway
  exact types.optional.bind fun _ => .pure _

theorem hopRange_advances : hopRange.Advances 1 := by
  have count : (padded hopCount).optional.Advances 0 := hopCount_advances.padded.optional
  have upTo : Parser.Advances (do padded (literally ".."); (padded hopCount).optional) 0 :=
    (literally_advances "..").padded.anyway.bind fun _ => count
  exact (mark_advances '*').bind fun _ => count.bind fun _ => upTo.optional.bind fun _ => .pure _

theorem relationshipDetail_advances : relationshipDetail.Advances 1 := by
  refine (mark_advances '[').bind fun _ => ?_
  refine identifier_advances.padded.optional.bind fun name => ?_
  refine relationshipTypes_advances.bind fun types =>
    hopRange_advances.optional.bind fun length => ?_
  exact properties_advances.bind fun properties => (mark_advances ']').anyway.bind fun _ => .pure _

theorem arrowEnd_advances {withHead : String} (nonempty : 1 ≤ withHead.length)
    : (arrowEnd withHead).Advances 1 := by
  have head : Parser.Advances (do literally withHead; pure true) 1 :=
    ((literally_advances withHead).bind fun _ => .pure _).mono nonempty
  have headless : Parser.Advances (do literally "-"; pure false) 1 :=
    (literally_advances "-").bind fun _ => .pure _
  exact (Parser.Advances.choice (by simpa using ⟨head, headless⟩)).padded

theorem relationshipPattern_advances : relationshipPattern.Advances 1 :=
  (arrowEnd_advances (by decide)).bind fun _ => relationshipDetail_advances.optional.bind fun _ =>
    (arrowEnd_advances (by decide)).anyway.bind fun _ => .pure _

theorem nextHop_advances : nextHop.Advances 1 :=
  relationshipPattern_advances.bind fun _ => nodePattern_advances.anyway.bind fun _ => .pure _

theorem pathPattern_advances : pathPattern.Advances 1 := by
  have name : Parser.Advances (do let name ← padded identifier; mark '='; pure name) 1 :=
    identifier_advances.padded.bind fun _ => (mark_advances '=').anyway.bind fun _ => .pure _
  refine name.optional.later fun name => nodePattern_advances.bind fun start => ?_
  refine nextHop_advances.many.bind fun hops source => ?_
  split
  · exact .here (List.suffix_refl source) .chainTooLong
  · exact ⟨List.suffix_refl source, Nat.le_refl _⟩

-----------------------------------------------------------------------------------------
-- Clauses
-----------------------------------------------------------------------------------------

theorem whereClause_advances : whereClause.Advances 1 :=
  (keyword_advances (by decide)).bind fun _ => (expression_advances.committed.within _).anyway

theorem matchClause_advances : matchClause.Advances 1 := by
  have optionally : (keyword "OPTIONAL").optional.Advances 0 :=
    (keyword_advances (by decide)).optional
  have patterns :=
    ((mark_advances ',').separated1 pathPattern_advances).committed.within .matchClause
  refine optionally.later fun optional => (keyword_advances (by decide)).bind fun _ => ?_
  exact patterns.anyway.bind fun _ => whereClause_advances.optional.bind fun _ => .pure _

theorem projectionItem_advances : projectionItem.Advances 1 := by
  have name : Parser.Advances (do keyword "AS"; padded identifier) 1 :=
    (keyword_advances (by decide)).bind fun _ => identifier_advances.padded.anyway
  refine @Parser.Advances.bind _ _ _ _ _ (fun source => ?_) fun item =>
    name.optional.bind fun _ => .pure _
  have inside := expression_advances source
  cases reply : expression source <;> rwa [reply] at inside

theorem sortItem_advances : sortItem.Advances 1 := by
  have word (word : String) (nonempty : 0 < word.utf8ByteSize) (value : Bool)
      : (keywordAs word value).Advances 1 :=
    keywordAs_advances nonempty value
  have direction : (Parser.choice [keywordAs "DESCENDING" true, keywordAs "DESC" true,
      keywordAs "ASCENDING" false, keywordAs "ASC" false]).Advances 1 :=
    .choice (by
      simpa using ⟨word "DESCENDING" (by decide) _, word "DESC" (by decide) _,
        word "ASCENDING" (by decide) _, word "ASC" (by decide) _⟩)
  exact expression_advances.bind fun _ => direction.optional.bind fun _ => .pure _

theorem orderByClause_advances : orderByClause.Advances 1 :=
  (keyword_advances (by decide)).bind fun _ => (keyword_advances (by decide)).anyway.bind fun _ =>
    (((mark_advances ',').separated1 sortItem_advances).committed.within _).anyway

theorem pageClause_advances {word : String} (nonempty : 0 < word.utf8ByteSize)
    (complaint : Complaint)
    : (pageClause word complaint).Advances 1 :=
  (keyword_advances nonempty).bind fun _ => (expression_advances.committed.within complaint).anyway

theorem projection_advances : projection.Advances 1 := by
  have distinctly : (keyword "DISTINCT").optional.Advances 0 :=
    (keyword_advances (by decide)).optional
  have items :=
    ((mark_advances ',').separated1 projectionItem_advances).committed.within .projectionItems
  refine distinctly.later fun distinct => items.bind fun items => ?_
  refine orderByClause_advances.optional.bind fun orderBy => ?_
  refine (pageClause_advances (by decide) _).optional.bind fun skip => ?_
  exact (pageClause_advances (by decide) _).optional.bind fun limit => .pure _

theorem clause_advances : clause.Advances 1 := by
  have matching : Parser.Advances (do let clause ← matchClause; pure (Clause.matching clause)) 1 :=
    matchClause_advances.bind fun _ => .pure _
  have passing : Parser.Advances
      (do
        keyword "WITH"
        let projection ← projection
        let condition ← whereClause.optional
        pure (Clause.withItems projection condition)) 1 :=
    (keyword_advances (by decide)).bind fun _ => projection_advances.anyway.bind fun _ =>
      whereClause_advances.optional.bind fun _ => .pure _
  have returning : Parser.Advances
      (do keyword "RETURN"; let projection ← projection; pure (Clause.returnItems projection)) 1 :=
    (keyword_advances (by decide)).bind fun _ => projection_advances.anyway.bind fun _ => .pure _
  exact .choice (by simpa using ⟨matching, passing, returning⟩)

theorem statement_advances : statement.Advances 1 :=
  Parser.Advances.blanks.later fun _ => clause_advances.many1.bind fun _ =>
    (mark_advances ';').optional.bind fun _ => .pure _

/-- Every complaint about a query is about a part of its source. -/
theorem Query.parse_infix {source : String} {trace : Trace}
    (stopped : Query.parse source = .error trace)
    : ∀ entry ∈ trace.entries, entry.remaining <:+: source.toList := by
  have inside := statement_advances source.toList
  unfold Query.parse at stopped
  cases reply : statement source.toList with
  | ok query rest =>
      rw [reply] at inside stopped
      simp only at stopped
      split at stopped
      · cases stopped
      · cases stopped
        intro entry member
        obtain rfl := List.mem_singleton.mp member
        have trimmed : Text.trim rest <:+: rest := by
          have front := List.dropWhile_suffix (l := rest) Text.isBlank
          have back :=
            List.dropWhile_suffix (l := (rest.dropWhile Text.isBlank).reverse) Text.isBlank
          rw [← List.reverse_prefix, List.reverse_reverse] at back
          exact back.isInfix.trans front.isInfix
        exact trimmed.trans inside.1.isInfix
  | rejected other =>
      rw [reply] at inside stopped
      cases stopped
      exact fun entry member => (inside entry member).isInfix
  | failed other =>
      rw [reply] at inside stopped
      cases stopped
      exact fun entry member => (inside entry member).isInfix

end CypherSql.Cypher
