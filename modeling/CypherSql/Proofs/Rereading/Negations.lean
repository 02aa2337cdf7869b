import CypherSql.Proofs.Printing.Parsed
import CypherSql.Proofs.Rereading.Operands

/-! Operators, signs and negations are read again with their operands, and with them whole
expressions. A call of a function that is named like the negation is not taken for one when it is
read again: its arguments in parentheses are an operand of a negation wherever they stand, or
nowhere.
-/

namespace CypherSql.Cypher

section Levels

open Text

section Operators

variable {expr : Parser Expr} {level : Nat} {left next : Expr} {source rest : List Char}

/-- What one more round reads: a test against null, or an operator and its right operand. -/
theorem stepAt_eq_some (read : stepAt expr level left source = .ok (some next) rest)
    : (∃ test, testAt level source = .ok test rest ∧ next = .unary test left)
      ∨ ∃ op middle right,
        operatorAt level source = .ok op middle
        ∧ operandAt expr level middle = .ok right rest
        ∧ next = .binary op left right := by
  obtain ⟨test?, middle, tested, more⟩ := Parser.bind_eq_ok.mp read
  rcases Parser.optional_eq_ok tested with ⟨test, rfl, found⟩ | ⟨rfl, rfl⟩
  · cases more
    exact .inl ⟨test, found, rfl⟩
  · obtain ⟨op?, middle, tried, last⟩ := Parser.bind_eq_ok.mp more
    rcases Parser.optional_eq_ok tried with ⟨op, rfl, found⟩ | ⟨rfl, -⟩
    · obtain ⟨right, later, operand, same⟩ := Parser.bind_eq_ok.mp last
      cases same
      exact .inr ⟨op, middle, right, found, operand, rfl⟩
    · cases last

theorem stepAt_stays (read : stepAt expr level left source = .ok none rest) : rest = source := by
  obtain ⟨test?, middle, tested, more⟩ := Parser.bind_eq_ok.mp read
  rcases Parser.optional_eq_ok tested with ⟨test, rfl, -⟩ | ⟨rfl, rfl⟩
  · cases more
  · obtain ⟨op?, middle, tried, last⟩ := Parser.bind_eq_ok.mp more
    rcases Parser.optional_eq_ok tried with ⟨op, rfl, -⟩ | ⟨rfl, rfl⟩
    · obtain ⟨right, later, -, same⟩ := Parser.bind_eq_ok.mp last
      cases same
    · cases last
      rfl

/-- An operator or a test is read again with what stands behind it. -/
theorem stepAt_rereads (operand : (operandAt expr level).Rereads true true (Halts (level + 1)))
    (read : stepAt expr level left source = .ok (some next) rest)
    : (stepAt expr level left).RereadsAt true true (Halts (level + 1)) source (some next) rest := by
  rcases stepAt_eq_some read with ⟨test, found, rfl⟩ | ⟨op, middle, right, found, more, rfl⟩
  · refine (((testAt_rereads level source test rest found).mono fun _ _ => trivial).map
      fun test => some (Expr.unary test left)).congr fun other after read => ?_
    obtain ⟨test, _, inside, same⟩ := Parser.bind_eq_ok.mp read
    cases same
    exact Parser.bind_of_ok (Parser.optional_of_ok inside)
  · have pair : Parser.Rereads
        (do
          let op ← operatorAt level
          let right ← operandAt expr level
          pure (some (Expr.binary op left right)))
        true true (Halts (level + 1)) :=
      (operatorAt_rereads level).bind fun op => operand.map fun right =>
        some (Expr.binary op left right)
    refine (pair source _ rest ((Parser.bind_of_ok found).trans (Parser.bind_of_ok more))).congr
      fun other after read => ?_
    obtain ⟨op, _, inside, later⟩ := Parser.bind_eq_ok.mp read
    rw [stepAt_of_untested (testAt_rejects_operator inside)]
    exact (Parser.bind_of_ok (Parser.optional_of_ok inside)).trans later

/-- Operands with operators between them are read again if operands are. -/
theorem loop_rereads (advances : expr.Advances 1) (loop : level ∈ loopLevels)
    (operand : (operandAt expr level).Rereads true true (Halts (level + 1)))
    : (operandAt expr level >>= Parser.iterate (stepAt expr level)).Rereads true true
      (Halts level) := by
  have joins (left : Expr) (source : List Char) (next : Expr) (after : List Char)
      (read : stepAt expr level left source = .ok (some next) (start true after))
      (_ : Halts (level + 1) after)
      : Halts (level + 1) source := by
    rcases stepAt_eq_some read with ⟨test, found, -⟩ | ⟨op, middle, right, found, -, -⟩
    · exact halts_of_test found
    · exact halts_of_operator found
  have ends (left : Expr) (now : Bool) (after : List Char) (either : now = true ∨ now = true)
      (halts : Halts level after)
      : stepAt expr level left (start now after) = .ok none (start now after) := by
    rw [or_self] at either
    rw [either]
    exact Stops.stepAt halts left
  intro source value rest read
  obtain ⟨now, either, reread⟩ :=
    @Parser.Rereads.iterate _ _ (stepAt expr level) _ _ _ _ _ _ operand
    (fun _ _ _ _ => stepAt_rereads operand) (fun _ _ _ => stepAt_stays)
    (fun _ _ spaces halts => halts.spaced spaces)
    joins (stepAt_proceeds advances loop)
      (fun _ halts => halts.mono (Nat.le_succ level)) ends _ _ _ read
  rw [or_self] at either
  rwa [either] at reread

end Operators

/-- The source does not open with a sign. -/
def Unsigned (source : List Char) : Prop :=
  ∀ c ∈ ['-', '+'], Lacks c (skip source)

section Signs

variable {expr : Parser Expr} {value : Expr} {source rest : List Char}

theorem Unsigned.minus (unsigned : Unsigned source) : (mark '-').Rejects source :=
  mark_rejects (unsigned '-' (by simp))

theorem Unsigned.plus (unsigned : Unsigned source) : (mark '+').Rejects source :=
  mark_rejects (unsigned '+' (by simp))

/-- No expression without operators opens with a sign. -/
theorem lookups_unsigned (read : lookups expr source = .ok value rest) : Unsigned source := by
  intro c sign opens
  obtain ⟨base, middle, found, -⟩ := Parser.bind_eq_ok.mp read
  obtain ⟨last, inside, -⟩ := padded_eq_ok found
  obtain ⟨tail, here⟩ := List.head?_eq_some_iff.mp opens
  have noAtom : (atom expr).Rejects (skip source) := by
    rw [here]
    simp only [List.mem_cons, List.not_mem_nil, or_false] at sign
    rcases sign with rfl | rfl
    · exact ⟨_, rfl⟩
    · exact ⟨_, rfl⟩
  exact noAtom.not_ok inside

/-- Without a sign only an expression without operators is read, with the keys looked up in it. -/
theorem Unsigned.signedWithin_iff (unsigned : Unsigned source) (n : Nat)
    : signedWithin expr (n + 1) source = .ok value rest ↔ lookups expr source = .ok value rest := by
  rw [signedWithin, Parser.choice_eq_ok]
  constructor
  · intro picks
    obtain ⟨p, member, read⟩ := picks.exists_mem
    simp only [List.mem_cons, List.not_mem_nil, or_false] at member
    rcases member with rfl | rfl | rfl
    · exact absurd read unsigned.minus.bind.not_ok
    · exact absurd read unsigned.plus.bind.not_ok
    · exact read
  · exact fun read => .there unsigned.minus.bind (.there unsigned.plus.bind (.here read))

/-- A sign is read again with its operand. -/
theorem sign_rereads {operand : Parser Expr} {c : Char} {middle : List Char} (sign : IsSign [c])
    (found : mark c source = .ok () middle)
    (reread : operand.RereadsAt true true (Halts 9) middle value rest)
    : Parser.RereadsAt (do mark c; operand) true true (Halts 9) source value rest :=
  @Parser.RereadsAt.bind _ _ _ (fun _ => operand) _ _ _ _ _ _ _ _ _ _ _
    (mark_rereads sign source () middle found)
    reread (fun _ _ _ _ => trivial) fun _ _ _ _ => trivial

/-- Signs are read again, by induction over the length of the source: what stands behind one is
shorter.
-/
theorem signed_rereads (tame : expr.Tame) : (signed expr).Rereads true true (Halts 9) := by
  have noMinus {other after : List Char} {value : Expr}
      (read : Parser.choice [do mark '+'; signed expr, lookups expr] other = .ok value after)
      : (mark '-').Rejects other := by
    rcases Parser.choice_two.mp read with read | ⟨-, read⟩
    · obtain ⟨_, middle, found, -⟩ := Parser.bind_eq_ok.mp read
      obtain ⟨tail, here, -⟩ := mark_eq_ok found
      refine mark_rejects ?_
      rw [here]
      exact lacks_cons (by decide)
    · exact (lookups_unsigned read).minus
  intro source
  induction bound : source.length using Nat.strong_induction_on generalizing source with
  | h length ih =>
      subst bound
      intro value rest read
      rw [signed_eq tame.advances] at read ⊢
      have operand {c : Char} {middle rest : List Char} {value : Expr}
        (found : mark c source = .ok () middle)
          (reads : signed expr middle = .ok value rest)
          : (signed expr).RereadsAt true true (Halts 9) middle value rest :=
        ih middle.length ((mark_advances c).length_le found) middle rfl value rest reads
      cases Parser.choice_eq_ok.mp read with
      | here read =>
          obtain ⟨_, middle, found, more⟩ := Parser.bind_eq_ok.mp read
          obtain ⟨inner, _, reads, same⟩ := Parser.bind_eq_ok.mp more
          cases same
          exact (sign_rereads (by decide) found ((operand found reads).map negate)).choice_here
      | there _ later =>
          rcases Parser.choice_two.mp (Parser.choice_eq_ok.mpr later) with read | ⟨-, read⟩
          · obtain ⟨_, middle, found, reads⟩ := Parser.bind_eq_ok.mp read
            exact (sign_rereads (by decide) found (operand found reads)).choice_here.choice_apart
              fun _ _ read => (noMinus read).bind
          · have plain
                : (Parser.choice [lookups expr]).RereadsAt true true (Halts 9) source value rest :=
              (lookups_rereads tame source value rest read).choice_here
            refine Parser.RereadsAt.choice_apart (plain.choice_apart fun _ _ read => ?_)
              fun _ _ read => (noMinus read).bind
            exact (lookups_unsigned (Parser.choice_one.mp read)).plus.bind

end Signs

end Levels

open Text

section Continuing

variable {expr : Parser Expr} {level : Nat} {value opening result : Expr}
  {source rest place : List Char}

/-- A step that looks at the source only goes on from one state as from another, by induction over
the number of times.
-/
theorem Parser.iterate_alike {α : Type} {step : α → Parser (Option α)} {state other value : α}
    (alike
      : ∀ state other source next rest,
          step state source = .ok next rest
          → ∃ last : Option α, step other source = .ok last rest ∧ last.isSome = next.isSome)
    (read : Parser.iterate step state source = .ok value rest)
    : ∃ last, Parser.iterate step other source = .ok last rest := by
  unfold Parser.iterate at read ⊢
  generalize source.length = times at read ⊢
  induction times generalizing state other source with
  | zero =>
      cases read
      exact ⟨other, rfl⟩
  | succ times ih =>
      obtain ⟨next, middle, first, more⟩ := Parser.bind_eq_ok.mp read
      obtain ⟨last, also, same⟩ := alike state other source next middle first
      rw [Parser.iterateWithin, Parser.bind_of_ok also]
      cases next with
      | none =>
          obtain rfl := Option.isNone_iff_eq_none.mp (by simpa using same)
          cases more
          exact ⟨other, rfl⟩
      | some next =>
          obtain ⟨last, rfl⟩ := Option.isSome_iff_exists.mp (by simpa using same)
          exact ih more

theorem stepAt_alike (left other : Expr) (source : List Char) (next : Option Expr)
    (rest : List Char)
    (read : stepAt expr level left source = .ok next rest)
    : ∃ last, stepAt expr level other source = .ok last rest ∧ last.isSome = next.isSome := by
  obtain ⟨test?, middle, tested, more⟩ := Parser.bind_eq_ok.mp read
  cases test? with
  | some test =>
      cases more
      exact ⟨_, Parser.bind_of_ok tested, rfl⟩
  | none =>
      obtain ⟨op?, later, tried, last⟩ := Parser.bind_eq_ok.mp more
      cases op? with
      | none =>
          cases last
          exact ⟨none, (Parser.bind_of_ok tested).trans (Parser.bind_of_ok tried), rfl⟩
      | some op =>
          obtain ⟨right, _, operand, same⟩ := Parser.bind_eq_ok.mp last
          cases same
          exact ⟨_, (Parser.bind_of_ok tested).trans
            ((Parser.bind_of_ok tried).trans (Parser.bind_of_ok operand)), rfl⟩

theorem lookupStep_alike (base other : Expr) (source : List Char) (next : Option Expr)
    (rest : List Char)
    (read : lookupStep base source = .ok next rest)
    : ∃ last, lookupStep other source = .ok last rest ∧ last.isSome = next.isSome := by
  obtain ⟨key?, middle, tried, same⟩ := Parser.bind_eq_ok.mp read
  cases same
  exact ⟨_, Parser.bind_of_ok tried, by cases key? <;> rfl⟩

/-- A comparison opens with an expression without operators and goes on from where that ends,
whatever it is. This is said of each level that is as tight, from the tightest on.
-/
theorem levelWithin_continues (advances : expr.Advances 1) (within : level ≤ 9)
    (least : 4 ≤ level) {n : Nat}
    (unsigned : Unsigned source) (read : levelWithin expr n level source = .ok value rest)
    : ∃ opening place,
        padded (atom expr) source = .ok opening place
        ∧ rest.length ≤ place.length
        ∧ ∀ other result m,
            Unsigned other
            → padded (atom expr) other = .ok result place
            → ∃ last, levelWithin expr (m + 1) level other = .ok last rest := by
  induction within using Nat.decreasingInduction generalizing n value rest with
  | self =>
      obtain ⟨base, middle, found, more⟩ := Parser.bind_eq_ok.mp read
      obtain ⟨looked, later, keys, same⟩ := Parser.bind_eq_ok.mp more
      obtain ⟨_, _, gap, last⟩ := Parser.bind_eq_ok.mp same
      cases gap
      cases last
      have fewer := (Parser.Advances.iterate lookupStep_advances base).length_le keys
      refine ⟨base, middle, found, (length_skip_le later).trans (by omega),
        fun other result m _ also => ?_⟩
      obtain ⟨last, others⟩ : ∃ last, Parser.iterate lookupStep result middle = .ok last later :=
        Parser.iterate_alike lookupStep_alike keys
      exact ⟨last, (Parser.bind_of_ok also).trans (Parser.bind_of_ok others)⟩
  | of_succ level within ih =>
      rcases loop_or_single level within with loop | rfl | rfl
      · rw [levelWithin_eq_loop loop] at read
        obtain ⟨first, middle, operand, more⟩ := Parser.bind_eq_ok.mp read
        obtain ⟨opening, place, found, shorter, again⟩ := ih (by omega) operand
        have step := stepAt_advances (operandAt_advances advances loop).anyway
        have fewer := (Parser.Advances.iterate step first).length_le more
        refine ⟨opening, place, found, by omega, fun other result m plain also => ?_⟩
        obtain ⟨left, operand⟩ := again other result other.length plain also
        obtain ⟨last, others⟩
            : ∃ last, Parser.iterate (stepAt expr level) left middle = .ok last rest :=
          Parser.iterate_alike stepAt_alike more
        rw [levelWithin_eq_loop loop]
        exact ⟨last, (Parser.bind_of_ok operand).trans others⟩
      · omega
      · cases n with
        | zero => cases read
        | succ n =>
            obtain ⟨opening, place, found, shorter, again⟩ :=
              ih (n := 0) (by omega) ((unsigned.signedWithin_iff n).mp read)
            refine ⟨opening, place, found, shorter, fun other result m plain also => ?_⟩
            obtain ⟨last, looked⟩ := again other result m plain also
            exact ⟨last, (plain.signedWithin_iff m).mpr looked⟩

end Continuing

/-- A negation as it is written. -/
def negation (expr : Parser Expr) : Parser Expr := do
  keyword "NOT"
  let operand ← negations expr
  pure (.unary .not operand)

section Calls

variable {α β : Type} {p : Parser α} {q : Parser β} {expr : Parser Expr} {value : Expr}
  {source other rest place later text tail after : List Char}

/-- What a text with no blank at its end is part of is longer if more blanks are left behind that.
-/
theorem Trimmed.exists_longer {before behind : List Char} (trimmed : Trimmed before)
    (same : before ++ behind = text ++ after) (fewer : (skip after).length ≤ (skip behind).length)
    : ∃ more, text = before ++ more ∧ behind = more ++ after := by
  rcases List.append_eq_append_iff.mp same with longer | ⟨more, rfl, rfl⟩
  · exact longer
  · by_cases empty : more = []
    · subst empty
      exact ⟨[], by simp, rfl⟩
    · obtain ⟨c, ends, noBlank⟩ := trimmed.last
      rw [List.getLast?_append_of_ne_nil _ empty] at ends
      have visible : Visible more := by
        refine ⟨c, List.mem_of_getLast? ends, Bool.eq_false_iff.mpr fun space => ?_⟩
        rw [isBlank_of_isSpace space] at noBlank
        cases noBlank
      have longer := visible.length_skip_lt behind
      omega

/-- What parsers of matched texts take up to a closing parenthesis ends at the same one. -/
theorem between_unique (takes : p.Takes Balanced) (also : q.Takes Balanced) {first : α} {second : β}
    (read : between '(' ')' p source = .ok first rest)
    (again : between '(' ')' q source = .ok second later)
    : rest = later := by
  have closes {γ : Type} {p : Parser γ} {source middle behind : List Char} {value : γ}
    (takes : p.Takes Balanced)
      (read : p source = .ok value middle) (closing : skip middle = ')' :: behind)
      : ∃ text, source = text ++ ')' :: behind ∧ Balanced text := by
    obtain ⟨text, rfl, balanced⟩ := takes.taken read
    obtain ⟨gap, split, spaces⟩ := exists_skipped middle
    rw [closing] at split
    exact ⟨text ++ gap, by rw [split, List.append_assoc],
      balanced.append (lexical_balanced.spaces gap spaces)⟩
  obtain ⟨tail, behind, here, rfl, middle, found, closing⟩ := between_eq_ok read
  obtain ⟨tail', behind', here', rfl, middle', found', closing'⟩ := between_eq_ok again
  obtain rfl : tail = tail' := by
    rw [here] at here'
    exact (List.cons_eq_cons.mp here').2
  obtain ⟨inside, whole, balanced⟩ := closes takes found closing
  obtain ⟨inside', whole', balanced'⟩ := closes also found' closing'
  rw [balanced.closes_once balanced' (whole.symm.trans whole')]

theorem between_skip {opens closes : Char} (source : List Char)
    : between opens closes p (skip source) = between opens closes p source := by
  change (mark opens >>= _) (skip source) = (mark opens >>= _) source
  change Parser.bind (mark opens) _ (skip source) = Parser.bind (mark opens) _ source
  rw [Parser.bind, Parser.bind, mark, padded_skip]

theorem parenthesized_skip (source : List Char)
    : parenthesized expr (skip source) = parenthesized expr source :=
  between_skip source

/-- Where a keyword stands, there is a name of the same letters. -/
theorem bareName_of_keyword {word : String} (plain : IsPlainWord word)
    (nonempty : 0 < word.utf8ByteSize)
    (read : keyword word source = .ok () rest)
    : ∃ letters tail,
        skip source = letters ++ tail
        ∧ letters.map foldCase = word.toList.map foldCase
        ∧ rest = skip tail
        ∧ bareName (letters ++ tail) = .ok letters tail := by
  obtain ⟨letters, tail, here, same, ends, rfl⟩ := keyword_eq_ok plain read
  refine ⟨letters, tail, here, same, rfl, ?_⟩
  have alpha : ∀ c ∈ letters, c.isAlpha :=
    fun c member => isAlpha_of_isPlain (forall_isPlain plain.letters same c member)
  cases letters with
  | nil =>
      rw [String.toList_eq_nil_iff.mp (List.map_eq_nil_iff.mp same.symm)] at nonempty
      cases nonempty
  | cons c others =>
      rw [List.forall_mem_cons] at alpha
      have starts
          : isWordStart c := by simp [isWordStart, isLetter, toNat_lt_of_isAlpha alpha.1, alpha.1]
      exact bareName_read starts (fun d member => isWordChar_of_isAlpha (alpha.2 d member)) ends

/-- A call of a function has more parts of its name behind the first one, or its arguments. -/
theorem functionCall_cases {name : List Char} (named : symbolicName source = .ok name tail)
    (read : functionCall expr source = .ok value rest)
    : tail.head? = some '.' ∨ ∃ inside,
      between '(' ')' (callArguments expr) tail = .ok inside rest := by
  rw [functionCall_eq] at read
  obtain ⟨called, place, function, call⟩ := Parser.bind_eq_ok.mp read
  obtain ⟨inside, last, found, same⟩ := Parser.bind_eq_ok.mp call
  cases same
  obtain ⟨text, _, consumed, same⟩ := Parser.bind_eq_ok.mp function
  cases same
  obtain ⟨names, whole, -⟩ := Parser.consumed_eq_ok consumed
  obtain ⟨first, _, opening, segments⟩ := Parser.bind_eq_ok.mp whole
  cases named.symm.trans opening
  by_cases point : tail.head? = some '.'
  · exact .inl point
  · have none : Parser.many nextSegment tail = .ok [] tail :=
      Parser.bind_of_ok (Parser.Steps.done.manyAfter (char_rejects point).bind)
    cases none.symm.trans segments
    exact .inr ⟨inside, found⟩

/-- A reserved word is no variable. -/
theorem identifier_rejects {letters : List Char} (bare : bareName source = .ok letters tail)
    (reserved : isReserved letters = true)
    : identifier.Rejects source := by
  refine Parser.Rejects.bind (Parser.rejects_choice.mpr ?_)
  have noName : (bareName.satisfying fun name => !isReserved name).Rejects source :=
    ⟨.here source .unexpected, by simp [Parser.satisfying, bare, reserved]⟩
  simpa using ⟨quotedName_rejects_bare bare, noName⟩

/-- Where the word of the negation opens an expression without operators, it is the name of a
function: a point follows, or the arguments of the call do.
-/
theorem arguments_of_negation (named : keyword "NOT" source = .ok () later)
    (read : padded (atom expr) source = .ok value rest)
    : later.head? = some '.' ∨ ∃ inside,
      between '(' ')' (callArguments expr) later = .ok inside rest := by
  obtain ⟨letters, tail, here, same, rfl, bare⟩ := bareName_of_keyword (by decide) (by decide) named
  obtain ⟨middle, found, rfl⟩ := padded_eq_ok read
  have word : symbolicName (letters ++ tail) = .ok letters tail :=
    Parser.choice_two.mpr (.inr ⟨quotedName_rejects_bare bare, bare⟩)
  have opens := symbolicName_opens word
  have noWord : ∀ word ∈ literalWords, (keyword word).Rejects (letters ++ tail) := by
    intro word listed
    have apart : ∀ word ∈ literalWords,
      "NOT".toList.map foldCase ≠ word.toList.map foldCase := by decide
    have rejects :=
      keyword_apart (by decide) (literalWords_plain word listed).1 (apart word listed) named
    rwa [← here, keyword, Parser.Rejects, padded_skip]
  rw [here] at found
  rcases opens.atom_cases (here ▸ skip_skip source) found with read | read | ⟨name, read⟩
  · exact absurd read (literal_rejects opens noWord).not_ok
  · refine (functionCall_cases word read).imp (fun point => ?_) ?_
    · obtain ⟨behind, rfl⟩ := List.head?_eq_some_iff.mp point
      exact point
    · rintro ⟨inside, called⟩
      obtain ⟨_, behind, -, rfl, -⟩ := between_eq_ok called
      rw [between_skip, skip_skip]
      exact ⟨inside, called⟩
  · have reserved : isReserved letters = true :=
      isReserved_of_same (by decide) (by decide) (by decide) same
    exact absurd read (identifier_rejects bare reserved).not_ok

/-- Behind an opening parenthesis a negation's operand is a comparison. -/
theorem negations_enclosed (advances : expr.Advances 1) (here : skip source = '(' :: tail)
    : negations expr source = .ok value rest ↔ comparisons expr source = .ok value rest := by
  have noWord : (keyword "NOT").Rejects source := by
    refine keyword_rejects_of_head (by decide) (by decide) ?_
    rw [here, List.head?_cons]
    rintro c same
    obtain rfl := Option.some.inj same
    decide
  rw [negations_eq advances]
  constructor
  · intro read
    rcases Parser.choice_two.mp read with read | ⟨-, read⟩
    · exact absurd read noWord.bind.not_ok
    · exact read
  · exact fun read => Parser.choice_two.mpr (.inr ⟨noWord.bind, read⟩)

theorem unsigned_of_keyword {word : String} (plain : IsPlainWord word)
    (nonempty : 0 < word.utf8ByteSize)
    (read : keyword word source = .ok () rest)
    : Unsigned source := by
  intro c sign
  have noLetter : ∀ c ∈ ['-', '+'], c.isAlpha = false := by simp
  exact keyword_lacks plain nonempty read (noLetter c sign)

theorem unsigned_of_parenthesis (here : skip source = '(' :: tail) : Unsigned source := by
  intro c sign
  rw [here]
  simp only [List.mem_cons, List.not_mem_nil, or_false] at sign
  rcases sign with rfl | rfl <;> exact lacks_cons (by decide)

theorem comparisons_continue (tame : expr.Tame) (unsigned : Unsigned source)
    (read : comparisons expr source = .ok value rest)
    : ∃ opening place,
        padded (atom expr) source = .ok opening place
        ∧ rest.length ≤ place.length
        ∧ ∀ other result,
            Unsigned other
            → padded (atom expr) other = .ok result place
            → ∃ last, comparisons expr other = .ok last rest := by
  obtain ⟨opening, place, found, fewer, again⟩ :=
    @levelWithin_continues _ 4 _ _ _ tame.advances (by decide) (by decide) 0 unsigned read
  exact ⟨opening, place, found, fewer,
    fun other result plain also => again other result 0 plain also⟩

/-- Where a comparison opens with the word of the negation and the rest is an operand of one, that
operand opens with what stands in the parentheses of a call.
-/
theorem enclosed_of_negations (tame : expr.Tame) (read : comparisons expr source = .ok value rest)
    (named : keyword "NOT" source = .ok () later) {operand : Expr} {last : List Char}
    (found : negations expr later = .ok operand last)
    : ∃ inner middle, parenthesized expr later = .ok inner middle
      ∧ rest.length ≤ middle.length := by
  obtain ⟨opening, place, atomic, shorter, -⟩ :=
    comparisons_continue tame (unsigned_of_keyword (by decide) (by decide) named) read
  rcases arguments_of_negation named atomic with point | ⟨inside, called⟩
  · obtain ⟨tail, rfl⟩ := List.head?_eq_some_iff.mp point
    have rejects : (negations expr).Rejects ('.' :: tail) :=
      @levelWithin_rejects expr 3 '.' (by decide) tail (by decide) _
    exact absurd found rejects.not_ok
  · obtain ⟨opened, -, here, -⟩ := between_eq_ok called
    obtain ⟨inner, _, also, -⟩ := comparisons_continue tame (unsigned_of_parenthesis here)
      ((negations_enclosed tame.advances here).mp found)
    obtain ⟨middle, inside, rfl⟩ := padded_eq_ok also
    rw [here] at inside
    have enclosed := atom_enclosed.mp inside
    rw [← here, parenthesized_skip] at enclosed
    rw [between_unique (callArguments_takes lexical_balanced tame.balanced) tame.balanced called
      enclosed] at shorter
    exact ⟨inner, middle, enclosed, shorter⟩

/-- An expression in parentheses behind the word of the negation is an operand of one if the call
that it is opens a comparison.
-/
theorem negations_of_enclosed (tame : expr.Tame) (read : comparisons expr source = .ok value rest)
    (named : keyword "NOT" source = .ok () later) {inner : Expr} {middle : List Char}
    (enclosed : parenthesized expr later = .ok inner middle)
    : ∃ operand last, negations expr later = .ok operand last := by
  obtain ⟨opening, place, atomic, -, again⟩ :=
    comparisons_continue tame (unsigned_of_keyword (by decide) (by decide) named) read
  obtain ⟨tail, behind, here, rfl, -⟩ := between_eq_ok enclosed
  rcases arguments_of_negation named atomic with point | ⟨inside, called⟩
  · obtain ⟨others, rfl⟩ := List.head?_eq_some_iff.mp point
    cases here
  · obtain rfl :=
      between_unique (callArguments_takes lexical_balanced tame.balanced) tame.balanced
      called enclosed
    have also : padded (atom expr) later = .ok inner (skip behind) := by
      rw [← skip_skip behind]
      refine padded_of_ok ?_
      rw [← parenthesized_skip, here] at enclosed
      rw [here]
      exact atom_enclosed.mpr enclosed
    obtain ⟨last, compared⟩ := again later inner (unsigned_of_parenthesis here) also
    exact ⟨last, rest, (negations_enclosed tame.advances here).mpr compared⟩

theorem negation_takes (tame : expr.Tame) : (negation expr).Takes Balanced := by
  have operand : (negations expr).Takes Balanced := fun source =>
    @levelWithin_takes expr _ lexical_balanced tame.balanced tame.rejectsItem 3 (by decide)
      (source.length + 1) source
  exact .bind lexical_balanced.toJoined
    (keyword_takes lexical_balanced.toNamed (by decide)) fun _ =>
    operand.map lexical_balanced.toJoined fun _ => _

/-- A comparison that is no negation is none with something else behind it. The word of the negation
opens it only as the name of a function, and what would be negated is read before either text.
-/
theorem negation_rejects (tame : expr.Tame)
    (reread : (comparisons expr).Reread true true (Halts 4) value text tail)
    (here : skip source = text ++ tail) (read : comparisons expr source = .ok value rest)
    (rejects : (negation expr).Rejects source) (there : skip other = text ++ after)
    (halts : Halts 4 after)
    (beside : Beside tail after)
    : (negation expr).Rejects other := by
  refine (negation_takes tame).rejects fun result last found => ?_
  obtain ⟨_, later, named, more⟩ := Parser.bind_eq_ok.mp found
  obtain ⟨operand, _, found, -⟩ := Parser.bind_eq_ok.mp more
  have compared := reread.again other after there halts beside
  obtain ⟨inner, middle, enclosed, fewer⟩ := enclosed_of_negations tame compared named found
  obtain ⟨letters, place, opens, rfl, word⟩ :=
    keyword_rereads (by decide) (by decide) other () later named
  obtain ⟨body, behind, starts, rfl, sign, -, again⟩ :=
    between_again (by decide) (isClosing_of_mem ')' (by decide)) tame.rereadsInside enclosed
  obtain ⟨gap, split, spaces⟩ := exists_skipped place
  rw [show start true place = skip place from rfl, skip_skip] at starts
  rw [starts] at split
  -- The word and the parentheses lie within the text, so that the source opens with them as well.
  have whole : (letters ++ (gap ++ body)) ++ behind = text ++ after := by
    rw [← there, show skip other = letters ++ place from opens, split]
    simp
  obtain ⟨more, rfl, rfl⟩ := (word.trimmed.append sign.trimmed gap).exists_longer whole fewer
  have same : skip source = letters ++ (gap ++ (body ++ (more ++ tail))) := by
    rw [here]
    simp
  have goesOn : Beside place (gap ++ (body ++ (more ++ tail))) := by
    have nonempty : gap ++ body ≠ [] := List.append_ne_nil_of_right_ne_nil gap sign.trimmed.ne_nil
    refine .inl ?_
    rw [split, ← List.append_assoc, ← List.append_assoc gap body,
      List.head?_append_of_ne_nil _ nonempty, List.head?_append_of_ne_nil _ nonempty]
  have skipped : start true (gap ++ (body ++ (more ++ tail))) = body ++ (more ++ tail) :=
    (skip_gap spaces _).trans (sign.trimmed.solid.skip_append _)
  have named := word.again source _ same trivial goesOn
  rw [skipped] at named
  have enclosed := again (body ++ (more ++ tail)) (more ++ tail) (sign.trimmed.solid.skip_append _)
  obtain ⟨operand, last, found⟩ := negations_of_enclosed tame read named enclosed
  exact rejects.not_ok ((Parser.bind_of_ok named).trans (Parser.bind_of_ok found))

/-- Negations are read again, by induction over the length of the source: what stands behind one is
shorter.
-/
theorem negations_rereads (tame : expr.Tame)
    (tighter : (comparisons expr).Rereads true true (Halts 4))
    : (negations expr).Rereads true true (Halts 4) := by
  intro source
  induction bound : source.length using Nat.strong_induction_on generalizing source with
  | h length ih =>
      subst bound
      intro value rest read
      rw [negations_eq tame.advances] at read ⊢
      rcases Parser.choice_two.mp read with read | ⟨rejects, read⟩
      · obtain ⟨_, middle, found, more⟩ := Parser.bind_eq_ok.mp read
        obtain ⟨inner, _, reads, same⟩ := Parser.bind_eq_ok.mp more
        cases same
        have operand :=
          ih middle.length ((keyword_advances (by decide)).length_le found) middle rfl
          inner rest reads
        exact ((keyword_rereads (by decide) (by decide) source _ middle found).bind
          (operand.map (Expr.unary .not)) (fun _ _ _ _ => trivial) fun _ _ _ _ =>
            trivial).choice_here
      · have alone
            : (Parser.choice [comparisons expr]).RereadsAt true true (Halts 4) source value rest :=
          (tighter source value rest read).choice_here
        refine alone.choice_there fun text tail here reread other after there halts beside => ?_
        exact negation_rejects tame (reread.congr fun other after => Parser.choice_one.mp)
          here read rejects there halts
          beside

end Calls

section Expressions

variable {expr : Parser Expr}

/-- Every level is read again, from the tightest level on. -/
theorem levelWithin_rereads (tame : expr.Tame) {level : Nat} (within : level ≤ 9)
    : Parser.Rereads (fun source => levelWithin expr (source.length + 1) level source) true true
      (Halts level) := by
  induction within using Nat.decreasingInduction with
  | self => exact lookups_rereads tame
  | of_succ level within ih =>
      rcases loop_or_single level within with loop | rfl | rfl
      · have whole : (fun source => levelWithin expr (source.length + 1) level source)
            = operandAt expr level >>= Parser.iterate (stepAt expr level) :=
          funext fun source => congrFun (levelWithin_eq_loop loop _) source
        rw [whole]
        exact loop_rereads tame.advances loop ih
      · exact fun source value rest read =>
          (negations_rereads tame ih source value rest read).mono fun _ halts =>
            halts.mono (by decide)
      · exact fun source value rest read =>
          (signed_rereads tame source value rest read).mono fun _ halts => halts.mono (by decide)

theorem Parser.Tame.disjunctions (tame : expr.Tame) : (disjunctions expr).Tame where
  rereads := levelWithin_rereads tame (Nat.zero_le 9)
  takes holds lexical := levelWithin_takes lexical (tame.takes holds lexical) tame.rejectsItem
    (Nat.zero_le 9) 0
  advances := levelWithin_advances tame.advances (Nat.zero_le 9) 0
  rejects := fun _ closes tail =>
    levelWithin_rejects (List.mem_cons_of_mem _ closes) tail (Nat.zero_le 9) 0

/-- Expressions are read again, by induction over the depth of their brackets. -/
theorem expressionWithin_tame (n : Nat) : (expressionWithin n).Tame := by
  induction n with
  | zero => exact ⟨nofun, fun _ _ _ => trivial, .reject 1, fun _ _ _ => Parser.rejects_reject _⟩
  | succ n ih => exact ih.disjunctions

/-- What is read as an expression is a text without blanks at its ends, which is read as the same
expression alone.
-/
theorem expression_alone {source rest : List Char} {value : Expr}
    (read : expression source = .ok value rest)
    : ∃ text tail,
        skip source = text ++ tail
        ∧ rest = skip tail
        ∧ Trimmed text
        ∧ expression text = .ok value [] := by
  obtain ⟨text, tail, here, rfl, reread⟩ :=
    (expressionWithin_tame (source.length + 1)).rereads source value rest read
  refine ⟨text, tail, here, rfl, reread.trimmed, ?_⟩
  have alone := reread.again text [] ?_ ?_ (.inr nofun)
  · have short : text.length + 1 ≤ source.length + 1 := by
      have fewer := length_start_le true source
      rw [here, List.length_append] at fewer
      omega
    exact (expression_nested.agree short text (Nat.lt_succ_self _)).trans alone
  · rw [← reread.trimmed.solid.skip_append, List.append_nil]
    rfl
  · exact halts_of_head none rfl (by decide) (by decide)

end Expressions

end CypherSql.Cypher
