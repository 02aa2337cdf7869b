import CypherSql.Proofs.Rereading.Texts

/-! Marks, keywords and operators are read again whatever follows them. An operand ends before each
operator that is read behind it.
-/

namespace CypherSql.Cypher

open Text

theorem trimmed_iff (text : List Char)
    : (text.head?.any fun c => !isBlank c) = true ∧ (text.getLast?.any fun c => !isBlank c) = true
      ↔ Trimmed text := by
  simp only [Option.any_eq_true, Bool.not_eq_true']
  exact ⟨fun ⟨first, last⟩ => ⟨first, last⟩, fun trimmed => ⟨trimmed.first, trimmed.last⟩⟩

instance (text : List Char) : Decidable (Trimmed text) :=
  decidable_of_iff _ (trimmed_iff text)

/-- A text that opens with a sign: it is no word and has no blanks at its ends. -/
structure IsSign (text : List Char) : Prop where
  trimmed : Trimmed text
  noLetter : ∀ c ∈ text.head?, c.isAlpha = false

theorem isSign_iff (text : List Char)
    : Trimmed text ∧ (text.head?.all fun c => !c.isAlpha) = true ↔ IsSign text := by
  simp only [Option.all_eq_true, Bool.not_eq_true']
  exact ⟨fun ⟨trimmed, noLetter⟩ => ⟨trimmed, noLetter⟩, fun sign => ⟨sign.trimmed, sign.noLetter⟩⟩

instance (text : List Char) : Decidable (IsSign text) :=
  decidable_of_iff _ (isSign_iff text)

theorem IsSign.sameWords {text tail after : List Char} (sign : IsSign text)
    : SameWords text tail after :=
  sameWords_of_head sign.trimmed sign.noLetter

section Marks

variable {α β : Type} {c : Char} {source rest : List Char}

theorem char_rereads (sign : IsSign [c]) : (char c).Rereads false false fun _ => True := by
  intro source value rest read
  exact Parser.rereadsAt_of_text (char_eq_ok.mp read) sign.trimmed (fun _ _ => sign.sameWords)
    fun after _ => char_read c after

theorem mark_rereads (sign : IsSign [c]) : (mark c).Rereads true true fun _ => True :=
  (char_rereads sign).padded

theorem markAs_rereads (sign : IsSign [c]) (op : BinaryOp)
    : (markAs c op).Rereads false false fun _ => True :=
  (char_rereads sign).map fun _ => op

theorem literally_eq_ok {text : String} {value : Unit}
    (read : literally text source = .ok value rest)
    : source = text.toList ++ rest := by
  unfold literally at read
  split at read
  · rename_i opens
    cases read
    obtain ⟨tail, rfl⟩ := List.isPrefixOf_iff_prefix.mp opens
    rw [← String.length_toList, List.drop_left]
  · cases read

theorem literally_read (text : String) (rest : List Char)
    : literally text (text.toList ++ rest) = .ok () rest := by
  rw [literally, if_pos (List.isPrefixOf_iff_prefix.mpr (List.prefix_append _ _)),
    ← String.length_toList, List.drop_left]

theorem literally_rereads {text : String} (sign : IsSign text.toList)
    : (literally text).Rereads false false fun _ => True := by
  intro source value rest read
  exact Parser.rereadsAt_of_text (literally_eq_ok read) sign.trimmed (fun _ _ => sign.sameWords)
    fun after _ => literally_read text after

theorem signAs_rereads {text : String} (sign : IsSign text.toList) (op : BinaryOp)
    : (signAs text op).Rereads false false fun _ => True :=
  (literally_rereads sign).map fun _ => op

theorem Parser.Steady.map {p : Parser α} (steady : p.Steady) (g : α → β)
    : Parser.Steady (p >>= fun value => pure (g value)) := by
  intro text tail after trimmed words beside rejects
  refine Parser.Rejects.bind (steady text tail after trimmed words beside ?_)
  exact Parser.rejects_of_bind (fun value middle => ⟨_, _, rfl⟩) rejects

/-- A sign of two characters at most is not completed by what stands behind a text: one character of
that is the same as before.
-/
theorem literally_steady {sign : String} (short : sign.toList.length ≤ 2)
    (plain : ∀ c ∈ sign.toList, c ≠ ' ' ∧ c ≠ ']')
    : (literally sign).Steady := by
  intro text tail after trimmed _ beside rejects
  obtain ⟨trace, rejected⟩ := rejects
  refine ⟨.here (text ++ after) .unexpected, ?_⟩
  rw [literally, if_neg]
  intro opens
  have before : ¬ sign.toList.isPrefixOf (text ++ tail) := by
    intro found
    rw [literally, if_pos found] at rejected
    cases rejected
  rw [List.isPrefixOf_iff_prefix] at opens before
  refine before ?_
  obtain ⟨c, text, rfl⟩ := List.exists_cons_of_ne_nil trimmed.ne_nil
  cases letters : sign.toList with
  | nil => exact List.nil_prefix
  | cons a more =>
      rw [letters] at opens short plain
      rw [List.cons_append, List.cons_prefix_cons] at opens ⊢
      refine ⟨opens.1, ?_⟩
      cases more with
      | nil => exact List.nil_prefix
      | cons b more =>
          obtain rfl : more = [] := List.length_eq_zero_iff.mp (by simpa using short)
          cases text with
          | nil =>
              obtain ⟨later, rfl⟩ := opens.2
              rcases beside with same | bland
              · obtain ⟨others, tailed⟩ := List.head?_eq_some_iff.mp same.symm
                rw [List.nil_append, tailed]
                exact List.cons_prefix_cons.mpr ⟨rfl, List.nil_prefix⟩
              · have notBland := plain b (by simp)
                exact absurd (bland b rfl) (not_or.mpr notBland)
          | cons d text =>
              have same := (List.cons_prefix_cons.mp opens.2).1
              exact List.cons_prefix_cons.mpr ⟨same, List.nil_prefix⟩

theorem char_steady (c : Char) : (char c).Steady := by
  intro text tail after trimmed _ _ rejects
  refine char_rejects fun opens => ?_
  rw [List.head?_append_of_ne_nil text trimmed.ne_nil] at opens
  obtain ⟨others, rfl⟩ := List.head?_eq_some_iff.mp opens
  exact rejects.not_ok (char_read c (others ++ tail))

end Marks

/-- No blank stands inside a word. -/
theorem isWordChar_eq_false_of_isBlank {c : Char} (blank : isBlank c) : isWordChar c = false := by
  have letters : letterRanges.contains c = false :=
    Ranges.contains_eq_false_of_apart (by decide +kernel) blank
  have numerals : numeralRanges.contains c = false :=
    Ranges.contains_eq_false_of_apart (by decide +kernel) blank
  have plain := isAlphanum_of_isBlank blank
  rw [Char.isAlphanum, Bool.or_eq_false_iff] at plain
  have noLetter : isLetter c = false := by
    unfold isLetter
    split
    · exact plain.1
    · exact letters
  have noNumeral : isNumeral c = false := by
    unfold isNumeral
    split
    · exact plain.2
    · exact numerals
  rw [isWordChar, noLetter, noNumeral, Bool.or_self, Bool.false_or, beq_eq_false_iff_ne]
  rintro rfl
  cases blank

theorem trimmed_of_word {text : List Char} (nonempty : text ≠ [])
    (isWord : ∀ c ∈ text, isWordChar c)
    : Trimmed text := by
  have noBlank : ∀ c ∈ text, isBlank c = false := by
    intro c member
    refine Bool.eq_false_iff.mpr fun blank => ?_
    have apart := isWord c member
    rw [isWordChar_eq_false_of_isBlank blank] at apart
    cases apart
  exact ⟨⟨_, List.head?_eq_some_head nonempty, noBlank _ (List.head_mem nonempty)⟩,
    ⟨_, List.getLast?_eq_some_getLast nonempty, noBlank _ (List.getLast_mem nonempty)⟩⟩

section Keywords

variable {α : Type} {word other : String} {follows : List Char → Prop} {source rest : List Char}
  {level : Nat}

/-- The letters of a keyword are read as one again where the word ends. -/
theorem keyword_rereads (plain : IsPlainWord word) (nonempty : 0 < word.utf8ByteSize)
    : (keyword word).Rereads true true fun _ => True := by
  intro source value rest read
  obtain ⟨letters, tail, here, same, ends, rfl⟩ := keyword_eq_ok plain read
  have isPlain := forall_isPlain plain.letters same
  have isWord : ∀ c ∈ letters, isWordChar c :=
    fun c member => isWordChar_of_isAlpha (isAlpha_of_isPlain (isPlain c member))
  have trimmed : Trimmed letters := by
    refine trimmed_of_word ?_ isWord
    rintro rfl
    have empty : word.toList = [] := List.map_eq_nil_iff.mp same.symm
    rw [String.toList_eq_nil_iff.mp empty] at nonempty
    cases nonempty
  refine ⟨letters, tail, here, rfl, trimmed, ?_, ?_⟩
  · exact fun after _ beside => sameWords_of_word trimmed isWord ends (beside.wordEnds ends)
  · rintro source after opens - beside
    refine keyword_read_letters plain.narrow opens same ?_ (beside.wordEnds ends)
    exact fun c member => utf8Size_of_isAlpha (isAlpha_of_isPlain (isPlain c member))

theorem keywordAs_rereads (plain : IsPlainWord word) (nonempty : 0 < word.utf8ByteSize) (value : α)
    : (keywordAs word value).Rereads true true fun _ => True :=
  (keyword_rereads plain nonempty).map fun _ => value

theorem padded_skip (p : Parser α) (source : List Char)
    : padded p (skip source) = padded p source := by
  change (p >>= _) (skip (skip source)) = (p >>= _) (skip source)
  rw [skip_skip]

/-- Where one keyword stands there is no other one. -/
theorem keyword_apart (plain : IsPlainWord word) (also : IsPlainWord other)
    (differs : word.toList.map foldCase ≠ other.toList.map foldCase) {value : Unit}
    (read : keyword word source = .ok value rest)
    : (keyword other).Rejects source := by
  obtain ⟨letters, tail, here, same, ends, -⟩ := keyword_eq_ok plain read
  have isPlain := forall_isPlain plain.letters same
  refine keyword_rejects_word also here ?_ ends (same ▸ differs)
  exact fun c member => isWordChar_of_isAlpha (isAlpha_of_isPlain (isPlain c member))

theorem Parser.Picks.exists_mem {ps : List (Parser α)} {value : α}
    (picks : Parser.Picks source value rest ps)
    : ∃ p ∈ ps, p source = .ok value rest := by
  induction picks with
  | here read => exact ⟨_, List.mem_cons_self, read⟩
  | there _ _ ih =>
      obtain ⟨p, member, read⟩ := ih
      exact ⟨p, List.mem_cons_of_mem _ member, read⟩

/-- A choice between parsers that open with different keywords, by induction over them. -/
theorem Parser.Rereads.choice_words {entries : List (String × Parser α)}
    (plain : ∀ entry ∈ entries, IsPlainWord entry.1)
    (each : ∀ entry ∈ entries, (keyword entry.1 >>= fun _ => entry.2).Rereads true true follows)
    (distinct : (entries.map fun entry => entry.1.toList.map foldCase).Nodup)
    : (Parser.choice (entries.map fun entry => keyword entry.1 >>= fun _ => entry.2)).Rereads
      true true follows := by
  intro source value rest read
  have picks := Parser.choice_eq_ok.mp read
  clear read
  induction entries with
  | nil => cases picks
  | cons entry entries ih =>
      rw [List.forall_mem_cons] at plain each
      rw [List.map_cons, List.nodup_cons] at distinct
      cases picks with
      | here read => exact (each.1 source value rest read).choice_here
      | there _ later =>
          refine (ih plain.2 each.2 distinct.2 later).choice_apart fun other after read => ?_
          obtain ⟨p, member, read⟩ := (Parser.choice_eq_ok.mp read).exists_mem
          obtain ⟨next, listed, rfl⟩ := List.mem_map.mp member
          obtain ⟨_, middle, word, -⟩ := Parser.bind_eq_ok.mp read
          refine Parser.Rejects.bind
            (keyword_apart (plain.2 next listed) plain.1 (fun same => ?_) word)
          exact distinct.1 (List.mem_map.mpr ⟨next, listed, same⟩)

end Keywords

/-- The signs of comparisons. -/
def comparisonSigns : List String :=
  [">=", "<=", "<>", "!=", "=~", ">", "<", "="]

/-- The words that comparisons in words open with. -/
def comparisonOpenings : List String :=
  ["STARTS", "ENDS", "CONTAINS", "IN"]

section Operators

variable {source rest : List Char}

theorem exists_sign {p : Parser BinaryOp}
    (member
      : p ∈ [
          signAs ">=" .greaterEqual,
          signAs "<=" .lessEqual,
          signAs "<>" .notEqual,
          signAs "!=" .notEqual,
          signAs "=~" .regexMatch,
          signAs ">" .greater,
          signAs "<" .less,
          signAs "=" .equal])
    : ∃ sign ∈ comparisonSigns, ∃ op, p = signAs sign op := by
  simp only [List.mem_cons, List.not_mem_nil, or_false] at member
  rcases member with rfl | rfl | rfl | rfl | rfl | rfl | rfl | rfl <;>
    exact ⟨_, by simp [comparisonSigns], _, rfl⟩

theorem comparisonSigns_short
    : ∀ sign ∈ comparisonSigns,
        sign.toList.length ≤ 2 ∧ IsSign sign.toList ∧ ∀ c ∈ sign.toList, c ≠ ' ' ∧ c ≠ ']' := by
  have short : ∀ sign ∈ comparisonSigns, sign.toList.length ≤ 2 ∧ IsSign sign.toList := by decide
  have plain : ∀ sign ∈ comparisonSigns,
    sign.toList.all (fun c => c != ' ' && c != ']') = true := by decide
  intro sign listed
  refine ⟨(short sign listed).1, (short sign listed).2, fun c member => ?_⟩
  simpa using List.all_eq_true.mp (plain sign listed) c member

theorem comparisonSign_rereads : comparisonSign.Rereads true true fun _ => True := by
  refine @Parser.Rereads.padded _ _ false false _ (.choice (fun p member => ?_) fun p member => ?_)
  · obtain ⟨sign, listed, op, rfl⟩ := exists_sign member
    exact signAs_rereads (comparisonSigns_short sign listed).2.1 op
  · obtain ⟨sign, listed, op, rfl⟩ := exists_sign member
    obtain ⟨short, -, plain⟩ := comparisonSigns_short sign listed
    exact (literally_steady short plain).map fun _ => op

theorem comparisonWords_rereads : comparisonWords.Rereads true true fun _ => True := by
  have withWord (word : String) (op : BinaryOp) (plain : IsPlainWord word)
    (nonempty : 0 < word.utf8ByteSize)
      : Parser.Rereads (do keyword word; keywordAs "WITH" op) true true fun _ => True :=
    (keyword_rereads plain nonempty).bind fun _ => keywordAs_rereads (by decide) (by decide) op
  refine @Parser.Rereads.choice_words BinaryOp _
    [("STARTS", keywordAs "WITH" BinaryOp.startsWith), ("ENDS", keywordAs "WITH" BinaryOp.endsWith),
      ("CONTAINS", pure BinaryOp.contains), ("IN", pure BinaryOp.isIn)]
        (by simp; decide) ?_ (by decide)
  simp only [List.forall_mem_cons, List.not_mem_nil, false_imp_iff, implies_true, and_true]
  exact ⟨withWord "STARTS" _ (by decide) (by decide), withWord "ENDS" _ (by decide) (by decide),
    keywordAs_rereads (by decide) (by decide) _, keywordAs_rereads (by decide) (by decide) _⟩

/-- A sign of a comparison opens the source where one is read. -/
theorem comparisonSign_eq_ok {op : BinaryOp} (read : comparisonSign source = .ok op rest)
    : ∃ sign ∈ comparisonSigns, (skip source).head? = sign.toList.head? := by
  obtain ⟨middle, inside, -⟩ := padded_eq_ok read
  obtain ⟨p, member, read⟩ := (Parser.choice_eq_ok.mp inside).exists_mem
  obtain ⟨sign, listed, op, rfl⟩ := exists_sign member
  obtain ⟨_, tail, read, -⟩ := Parser.bind_eq_ok.mp read
  have nonempty := (comparisonSigns_short sign listed).2.1.trimmed.ne_nil
  exact ⟨sign, listed, by rw [literally_eq_ok read, List.head?_append_of_ne_nil _ nonempty]⟩

theorem comparisonWords_eq_ok {op : BinaryOp} (read : comparisonWords source = .ok op rest)
    : ∃ word ∈ comparisonOpenings, ∃ after, keyword word source = .ok () after := by
  obtain ⟨p, member, read⟩ := (Parser.choice_eq_ok.mp read).exists_mem
  have opens {word : String} {next : Unit → Parser BinaryOp} (listed : word ∈ comparisonOpenings)
      (read : (keyword word >>= next) source = .ok op rest)
      : ∃ word ∈ comparisonOpenings, ∃ after, keyword word source = .ok () after := by
    obtain ⟨_, after, found, -⟩ := Parser.bind_eq_ok.mp read
    exact ⟨word, listed, after, found⟩
  simp only [List.mem_cons, List.not_mem_nil, or_false] at member
  rcases member with rfl | rfl | rfl | rfl
  · exact opens (by decide) read
  · exact opens (by decide) read
  · exact opens (by decide) read
  · exact opens (by decide) read

/-- A letter opens the source where a keyword is read. -/
theorem keyword_lacks {word : String} (plain : IsPlainWord word) (nonempty : 0 < word.utf8ByteSize)
    {value : Unit}
    (read : keyword word source = .ok value rest) {c : Char} (noLetter : c.isAlpha = false)
    : Lacks c (skip source) := by
  intro opens
  refine Parser.Rejects.not_ok (keyword_rejects_of_head plain nonempty fun d same => ?_) read
  obtain rfl := Option.some.inj (opens.symm.trans same)
  exact noLetter

theorem comparisonSign_rejects_word {word : String} (plain : IsPlainWord word)
    (nonempty : 0 < word.utf8ByteSize) {value : Unit} (read : keyword word source = .ok value rest)
    : comparisonSign.Rejects source := by
  refine padded_rejects (Parser.rejects_choice.mpr fun p member => ?_)
  obtain ⟨sign, listed, op, rfl⟩ := exists_sign member
  obtain ⟨trimmed, noLetter⟩ := (comparisonSigns_short sign listed).2.1
  obtain ⟨c, opens, -⟩ := trimmed.first
  exact (literally_rejects opens (keyword_lacks plain nonempty read (noLetter c opens))).bind

theorem comparisonWords_plain
    : ∀ word ∈ comparisonOpenings, IsPlainWord word ∧ 0 < word.utf8ByteSize := by
  decide

/-- A comparison is read again, whether it is written as a sign or in words. -/
theorem comparison_rereads
    : (Parser.choice [comparisonSign, comparisonWords]).Rereads true true fun _ => True := by
  refine comparisonSign_rereads.choice_apart comparisonWords_rereads fun source op rest read => ?_
  obtain ⟨word, listed, after, found⟩ := comparisonWords_eq_ok read
  obtain ⟨plain, nonempty⟩ := comparisonWords_plain word listed
  exact comparisonSign_rejects_word plain nonempty found

/-- Operators that are written as single characters with blanks around them. -/
def markOperators (entries : List (Char × BinaryOp)) : Parser BinaryOp :=
  padded (Parser.choice (entries.map fun entry => markAs entry.1 entry.2))

theorem markOperators_rereads {entries : List (Char × BinaryOp)}
    (signs : ∀ entry ∈ entries, IsSign [entry.1])
    : (markOperators entries).Rereads true true fun _ => True := by
  refine @Parser.Rereads.padded _ _ false false _ (.choice (fun p member => ?_) fun p member => ?_)
  · obtain ⟨entry, listed, rfl⟩ := List.mem_map.mp member
    exact markAs_rereads (signs entry listed) entry.2
  · obtain ⟨entry, listed, rfl⟩ := List.mem_map.mp member
    exact (char_steady entry.1).map fun _ => entry.2

theorem markOperators_eq_ok {entries : List (Char × BinaryOp)} {op : BinaryOp}
    (read : markOperators entries source = .ok op rest)
    : ∃ entry ∈ entries, (skip source).head? = some entry.1 := by
  obtain ⟨middle, inside, -⟩ := padded_eq_ok read
  obtain ⟨p, member, read⟩ := (Parser.choice_eq_ok.mp inside).exists_mem
  obtain ⟨entry, listed, rfl⟩ := List.mem_map.mp member
  obtain ⟨_, tail, read, -⟩ := Parser.bind_eq_ok.mp read
  exact ⟨entry, listed, by rw [char_eq_ok.mp read, List.head?_cons]⟩

/-- The operators of each level are read again. -/
theorem operatorAt_rereads (level : Nat) : (operatorAt level).Rereads true true fun _ => True := by
  unfold operatorAt
  split
  · exact keywordAs_rereads (by decide) (by decide) _
  · exact keywordAs_rereads (by decide) (by decide) _
  · exact keywordAs_rereads (by decide) (by decide) _
  · exact comparison_rereads
  · exact @markOperators_rereads [('+', .addition), ('-', .subtraction)] (by simp; decide)
  · exact @markOperators_rereads [('*', .multiplication), ('/', .division), ('%', .modulo)]
      (by simp; decide)
  · exact (markAs_rereads (by decide) _).padded
  · exact nofun

/-- A test against null is read again: the shorter one goes on with another word than the longer
one.
-/
theorem nullTest_rereads : nullTest.Rereads true true fun _ => True := by
  have word (word : String) (plain : IsPlainWord word) (nonempty : 0 < word.utf8ByteSize)
      : (keyword word).Rereads true true fun _ => True :=
    keyword_rereads plain nonempty
  have last (test : UnaryOp) : (keywordAs "NULL" test).Rereads true true fun _ => True :=
    keywordAs_rereads (by decide) (by decide) test
  have long
      : Parser.Rereads
        (do keyword "IS"; keyword "NOT"; keywordAs "NULL" UnaryOp.isNotNull) true true
      fun _ => True :=
    (word "IS" (by decide) (by decide)).bind fun _ =>
      (word "NOT" (by decide) (by decide)).bind fun _ => last _
  have short
      : Parser.Rereads (do keyword "IS"; keywordAs "NULL" UnaryOp.isNull) true true fun _ => True :=
    (word "IS" (by decide) (by decide)).bind fun _ => last _
  refine long.choice_apart short fun source test rest read => ?_
  obtain ⟨_, middle, opens, more⟩ := Parser.bind_eq_ok.mp read
  obtain ⟨_, _, null, -⟩ := Parser.bind_eq_ok.mp more
  refine Parser.Rejects.bind_of_ok opens (Parser.Rejects.bind ?_)
  exact keyword_apart (by decide) (by decide) (by decide) null

theorem testAt_rereads (level : Nat) : (testAt level).Rereads true true fun _ => True := by
  unfold testAt
  split
  · exact nullTest_rereads
  · exact nofun

end Operators

/-- No operator of a level or a tighter one goes on behind an operand, whatever blanks may follow
it.
-/
def Halts (level : Nat) (after : List Char) : Prop :=
  Stops level (' ' :: after)

section Halts

variable {level tighter : Nat} {source rest after gap : List Char}

theorem Halts.mono (halts : Halts level after) (more : level ≤ tighter) : Halts tighter after :=
  Stops.mono halts more

theorem Halts.spaced (spaces : ∀ c ∈ gap, isSpace c) (halts : Halts level after)
    : Halts level (gap ++ after) where
  word := wordEnds_cons (by decide)
  marks entry listed within := by
    rw [skip_space, skip_gap spaces]
    exact halts.marks entry listed within
  words entry listed within := by
    rw [skip_space, skip_gap spaces]
    exact halts.words entry listed within

theorem halts_of_head (head : Option Char) (opens : (skip after).head? = head)
    (marks : ∀ entry ∈ markLevels, level ≤ entry.2 → head ≠ some entry.1)
    (words
      : ∀ entry ∈ wordLevels,
          level ≤ entry.2 → entry.1.toList.head?.map foldCase ≠ head.map foldCase)
    : Halts level after :=
  stops_of_head head opens (wordEnds_cons (by decide)) marks words

/-- An operand ends before a keyword of a looser level. -/
theorem halts_of_word {word : String} (plain : IsPlainWord word) (nonempty : 0 < word.utf8ByteSize)
    {value : Unit} (read : keyword word source = .ok value rest)
    (words
      : ∀ entry ∈ wordLevels,
          level ≤ entry.2 → word.toList.map foldCase ≠ entry.1.toList.map foldCase)
    : Halts level source where
  word := wordEnds_cons (by decide)
  marks entry listed _ := keyword_lacks plain nonempty read (markLevels_not_isAlpha entry listed)
  words entry listed within := by
    have there : keyword word (skip source) = .ok value rest := by
      rw [← read, keyword, padded_skip]
    exact keyword_apart plain (wordLevels_plain entry listed).1 (words entry listed within) there

/-- An operand ends before the sign of an operator of a looser level. -/
theorem halts_of_sign {α : Type} {entries : List α} {sign : α → Option Char}
    (opens : ∃ entry ∈ entries, (skip source).head? = sign entry)
    (apart
      : ∀ entry ∈ entries,
          (∀ mark ∈ markLevels, level ≤ mark.2 → sign entry ≠ some mark.1)
          ∧ ∀ word ∈ wordLevels,
              level ≤ word.2 → word.1.toList.head?.map foldCase ≠ (sign entry).map foldCase)
    : Halts level source := by
  obtain ⟨entry, listed, opens⟩ := opens
  exact halts_of_head _ opens (apart entry listed).1 (apart entry listed).2

/-- The operand before an operator ends there for its own level. -/
theorem halts_of_operator {op : BinaryOp} (read : operatorAt level source = .ok op rest)
    : Halts (level + 1) source := by
  have word (word : String) (value : BinaryOp) (plain : IsPlainWord word)
    (nonempty : 0 < word.utf8ByteSize)
      (read : keywordAs word value source = .ok op rest)
      (words
        : ∀ entry ∈ wordLevels,
            level + 1 ≤ entry.2 → word.toList.map foldCase ≠ entry.1.toList.map foldCase)
      : Halts (level + 1) source := by
    obtain ⟨_, _, found, -⟩ := Parser.bind_eq_ok.mp read
    exact halts_of_word plain nonempty found words
  unfold operatorAt at read
  split at read
  · exact word _ _ (by decide) (by decide) read (by decide)
  · exact word _ _ (by decide) (by decide) read (by decide)
  · exact word _ _ (by decide) (by decide) read (by decide)
  · rcases Parser.choice_two.mp read with read | ⟨-, read⟩
    · exact halts_of_sign (comparisonSign_eq_ok read) (by decide)
    · obtain ⟨word, listed, after, found⟩ := comparisonWords_eq_ok read
      obtain ⟨plain, nonempty⟩ := comparisonWords_plain word listed
      refine halts_of_word plain nonempty found fun entry known within => ?_
      have tightest : ∀ entry ∈ wordLevels, entry.2 ≤ 4 := by decide
      exact absurd (tightest entry known) (by omega)
  · exact halts_of_sign (@markOperators_eq_ok _ _ [('+', .addition), ('-', .subtraction)] _ read)
      (by decide)
  · exact halts_of_sign
      (@markOperators_eq_ok _ _ [('*', .multiplication), ('/', .division), ('%', .modulo)] _ read)
      (by decide)
  · obtain ⟨middle, inside, -⟩ := padded_eq_ok read
    obtain ⟨_, tail, read, -⟩ := Parser.bind_eq_ok.mp inside
    exact halts_of_head (some '^') (by rw [char_eq_ok.mp read, List.head?_cons])
      (by decide) (by decide)
  · cases read

/-- The operand before a test against null ends there as well. -/
theorem halts_of_test {test : UnaryOp} (read : testAt level source = .ok test rest)
    : Halts (level + 1) source := by
  unfold testAt at read
  split at read
  · obtain ⟨p, member, read⟩ := (Parser.choice_eq_ok.mp read).exists_mem
    have word : ∃ after, keyword "IS" source = .ok () after := by
      simp only [List.mem_cons, List.not_mem_nil, or_false] at member
      rcases member with rfl | rfl
      · obtain ⟨_, after, word, -⟩ := Parser.bind_eq_ok.mp read
        exact ⟨after, word⟩
      · obtain ⟨_, after, word, -⟩ := Parser.bind_eq_ok.mp read
        exact ⟨after, word⟩
    obtain ⟨after, word⟩ := word
    exact halts_of_word (by decide) (by decide) word (by decide)
  · cases read

/-- An operator between operands is no test against null. -/
theorem testAt_rejects_operator {op : BinaryOp} (read : operatorAt level source = .ok op rest)
    : (testAt level).Rejects source := by
  unfold testAt
  split
  · have noTest : (keyword "IS").Rejects source := by
      rcases Parser.choice_two.mp read with read | ⟨-, read⟩
      · obtain ⟨sign, listed, opens⟩ := comparisonSign_eq_ok read
        refine keyword_rejects_of_head (by decide) (by decide) ?_
        rw [opens]
        exact (comparisonSigns_short sign listed).2.1.noLetter
      · obtain ⟨word, listed, after, found⟩ := comparisonWords_eq_ok read
        have differs : ∀ word ∈ comparisonOpenings,
          word.toList.map foldCase ≠ "IS".toList.map foldCase := by decide
        exact keyword_apart (comparisonWords_plain word listed).1 (by decide)
          (differs word listed) found
    exact Parser.rejects_choice.mpr (by simpa using ⟨noTest.bind, noTest.bind⟩)
  · exact Parser.rejects_reject source

end Halts

end CypherSql.Cypher
