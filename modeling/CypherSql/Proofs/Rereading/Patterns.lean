import CypherSql.Proofs.ColumnTexts

/-! Nodes and relationships are read again. The parts between their brackets may all be missing;
which of them comes next shows in its first character.
-/

namespace CypherSql.Cypher

open Text

/-- A source opens with one text without blanks at its ends before what is left of it. -/
theorem Trimmed.unique {text more tail after : List Char} (trimmed : Trimmed text)
    (also : Trimmed more)
    (same : text ++ tail = more ++ after) (rests : skip tail = skip after)
    : text = more ∧ tail = after := by
  obtain ⟨longer, rfl, rfl⟩ := trimmed.exists_longer same (by rw [rests])
  obtain ⟨shorter, whole, -⟩ := also.exists_longer same.symm (by rw [rests])
  have lengths := congrArg List.length whole
  rw [List.length_append, List.length_append] at lengths
  obtain rfl := List.length_eq_zero_iff.mp (show longer.length = 0 by omega)
  exact ⟨(List.append_nil text).symm, rfl⟩

/-- More nesting than a source may have makes no difference. -/
theorem expressionWithin_eq {place : List Char} {n : Nat} (enough : place.length ≤ n)
    : expressionWithin (n + 1) place = expression place :=
  (expression_nested.agree (Nat.succ_le_succ enough) place (Nat.lt_succ_self _)).symm

/-- Expressions keep to what a parser of them has to keep to, with as much nesting as a source may
have.
-/
theorem expression_tame : expression.Tame where
  rereads source value rest read := by
    obtain ⟨text, tail, here, rfl, reread⟩ :=
      (expressionWithin_tame (source.length + 1)).rereads source value rest read
    refine ⟨text, tail, here, rfl, reread.trimmed, reread.words,
      fun other after opens ends beside => ?_⟩
    obtain ⟨n, first, second⟩ : ∃ n, source.length ≤ n ∧ other.length ≤ n :=
      ⟨_, Nat.le_max_left _ _, Nat.le_max_right _ _⟩
    have deeper : expressionWithin (n + 1) source = .ok value (skip tail) :=
      (@expressionWithin_eq source n first).trans read
    obtain ⟨text', tail', here', same, reread'⟩ :=
      (expressionWithin_tame (n + 1)).rereads source value _ deeper
    obtain ⟨rfl, rfl⟩ := reread.trimmed.unique reread'.trimmed (here.symm.trans here') same
    exact (@expressionWithin_eq other n second).symm.trans
      (reread'.again other after opens ends beside)
  takes holds lexical source :=
    (expressionWithin_tame (source.length + 1)).takes holds lexical source
  advances := expression_advances
  rejects c member tail := by
    obtain ⟨trace, rejected⟩ :=
      (expressionWithin_tame ((c :: tail).length + 1)).rejects c member tail
    exact ⟨trace, rejected⟩

/-- What stands next is one of some characters. -/
def Next (chars : List Char) (source : List Char) : Prop :=
  ∃ c ∈ (skip source).head?, c ∈ chars

/-- What a parser reads up to a closing bracket opens with one of some characters. -/
def Parser.OpensWith {α : Type} (p : Parser α) (closes : Char) (chars : List Char) : Prop :=
  ∀ source value last after, p source = .ok value last → skip last = closes :: after
    → Next chars source

/-- As many values as can be read one after another, up to where one is rejected. -/
inductive Parser.Repeats {α : Type} (p : Parser α) : List Char → List α → List Char → Prop where
  | done {source} (rejects : p.Rejects source) : Repeats p source [] source
  | more {source middle rest value values} (read : p source = .ok value middle)
      (later : Repeats p middle values rest)
    : Repeats p source (value :: values) rest

section Missing

variable {α β : Type} {p : Parser α} {closes : Char} {chars others : List Char}
  {follows : List Char → Prop}
  {source rest : List Char}

theorem Next.lacks {c : Char} (next : Next chars source) (apart : c ∉ chars)
    : Lacks c (skip source) := by
  obtain ⟨d, opens, member⟩ := next
  rw [Lacks, opens]
  rintro ⟨⟩
  exact apart member

theorem Next.lacksDigit (next : Next chars source) (apart : chars.all fun c => !c.isDigit)
    : LacksDigit (skip source) := by
  obtain ⟨d, opens, member⟩ := next
  intro c same
  obtain rfl := Option.some.inj (opens.symm.trans same)
  simpa using List.all_eq_true.mp apart d member

theorem Next.mono (next : Next chars source) (fewer : ∀ c ∈ chars, c ∈ others)
    : Next others source := by
  obtain ⟨c, opens, member⟩ := next
  exact ⟨c, opens, fewer c member⟩

theorem Next.rejects_mark {c : Char} (next : Next chars source) (apart : c ∉ chars)
    : (mark c).Rejects source :=
  mark_rejects (next.lacks apart)

theorem next_of_mark {c : Char} {value : Unit} (read : mark c source = .ok value rest)
    : Next [c] source := by
  obtain ⟨tail, here, -⟩ := mark_eq_ok read
  exact ⟨c, by rw [here, List.head?_cons, Option.mem_def], List.mem_singleton_self c⟩

/-- Nothing at all is read up to a closing bracket where that stands. -/
theorem pure_inside (closing : IsClosing closes) (value : α)
    : (pure value : Parser α).RereadsInside closes := by
  rintro source _ _ behind here ⟨⟩ closed
  rw [here] at closed
  exact ⟨[], closed, fun after =>
    ⟨sameWords_nil closing.noSpace closing.noLetter _ _, _, rfl, skip_cons closing.noSpace⟩⟩

theorem pure_opensWith (value : α) : (pure value : Parser α).OpensWith closes [closes] := by
  rintro source _ _ after ⟨⟩ closed
  exact ⟨closes, by rw [closed, List.head?_cons, Option.mem_def], List.mem_singleton_self closes⟩

/-- What is read again up to a closing bracket goes on to open with one of the same characters. -/
theorem Parser.RereadsUpTo.opening {q : Parser β} {value : α} {result : β} {behind : List Char}
    (reread : q.RereadsUpTo closes source result behind) (opens : q.OpensWith closes chars)
    (same : ∀ other last, Next chars other → q other = .ok result last → p other = .ok value last)
    : p.RereadsUpTo closes source value behind := by
  obtain ⟨inside, whole, each⟩ := reread
  refine ⟨inside, whole, fun after => ⟨(each after).1, ?_⟩⟩
  obtain ⟨last, again, closed⟩ := (each after).2
  exact ⟨last, same _ last (opens _ result last after again closed) again, closed⟩

/-- A part that may be missing is read again up to a closing bracket. Where it is missing, what
comes instead is no such part.
-/
theorem Parser.RereadsInside.optional {f : Option α → Parser β}
    (present : (p >>= fun value => f (some value)).RereadsInside closes)
    (absent : (f none).RereadsInside closes)
    (opens : (f none).OpensWith closes chars)
    (apart : ∀ source, Next chars source → p.Rejects source)
    : (p.optional >>= f).RereadsInside closes := by
  intro source result middle behind here read closed
  obtain ⟨found, place, optional, more⟩ := Parser.bind_eq_ok.mp read
  rcases Parser.optional_eq_ok optional with ⟨value, rfl, found⟩ | ⟨rfl, rfl⟩
  · refine (present source result middle behind here
      ((Parser.bind_of_ok found).trans more) closed).congr
      fun _ _ _ _ _ again => ?_
    obtain ⟨value, place, found, more⟩ := Parser.bind_eq_ok.mp again
    exact (Parser.bind_of_ok (Parser.optional_of_ok found)).trans more
  · exact (absent place result middle behind here more closed).opening opens fun other
      last next again =>
      (Parser.bind_of_ok (Parser.optional_of_rejects (apart other next))).trans again

theorem Parser.OpensWith.optional {f : Option α → Parser β}
    (opens : (f none).OpensWith closes chars)
    (first : ∀ source value rest, p source = .ok value rest → Next others source)
    : (p.optional >>= f).OpensWith closes (others ++ chars) := by
  intro source result last after read closed
  obtain ⟨found, place, optional, more⟩ := Parser.bind_eq_ok.mp read
  rcases Parser.optional_eq_ok optional with ⟨value, rfl, found⟩ | ⟨rfl, rfl⟩
  · exact (first source value place found).mono fun c => List.mem_append_left chars
  · exact (opens place result last after more closed).mono fun c => List.mem_append_right others

/-- What reads as many values as there are stops where one is rejected. -/
theorem Parser.manyAfter_iff (advances : p.Advances 1) (stops : p.Rejects []) {seen values : List α}
    : Parser.manyAfter p seen source = .ok values rest
      ↔ ∃ found, values = found.reverse ++ seen ∧ p.Repeats source found rest := by
  rw [Parser.manyAfter_eq]
  constructor
  · intro read
    have runs := (Parser.Proceeds.many advances stops).runs_iff.mpr read.symm
    clear read
    generalize same : Reply.ok values rest = reply at runs
    induction runs with
    | done reads =>
        cases same
        obtain ⟨found, middle, optional, more⟩ := Parser.bind_eq_ok.mp reads
        rcases Parser.optional_eq_ok optional with ⟨value, rfl, -⟩ | ⟨rfl, rfl⟩
        · cases more
        · cases more
          exact ⟨[], rfl, .done (Parser.optional_eq_none optional).1⟩
    | rejected => cases same
    | failed => cases same
    | more reads _ ih =>
        obtain ⟨value, found, rfl⟩ := Parser.manyStep_eq_some reads
        obtain ⟨others, rfl, later⟩ := ih same
        exact ⟨value :: others, by simp, .more found later⟩
  · rintro ⟨found, rfl, repeats⟩
    refine ((Parser.Proceeds.many advances stops).runs_iff.mp ?_).symm
    induction repeats generalizing seen with
    | done rejects => exact .done (Parser.manyStep_ends rejects)
    | @more source middle rest value values read later ih =>
        have step : Parser.manyStep p seen source = .ok (some (value :: seen)) middle :=
          Parser.bind_of_ok (Parser.optional_of_ok read)
        refine .more step ?_
        rw [List.reverse_cons, List.append_assoc]
        exact ih

theorem Parser.many_iff (advances : p.Advances 1) (stops : p.Rejects []) {values : List α}
    : Parser.many p source = .ok values rest ↔ p.Repeats source values rest := by
  constructor
  · intro read
    obtain ⟨seen, _, found, same⟩ := Parser.bind_eq_ok.mp read
    cases same
    obtain ⟨values, rfl, repeats⟩ := (Parser.manyAfter_iff advances stops).mp found
    rwa [List.append_nil, List.reverse_reverse]
  · intro repeats
    have found : Parser.manyAfter p [] source = .ok (values.reverse ++ []) rest :=
      (Parser.manyAfter_iff advances stops).mpr ⟨values, rfl, repeats⟩
    refine (Parser.bind_of_ok found).trans ?_
    rw [List.append_nil, List.reverse_reverse]
    rfl

/-- As many values as there are are read again before what else there is up to a closing bracket, by
induction over them.
-/
theorem Parser.RereadsInside.many {f : List α → Parser β}
    (rereads : p.Rereads true true fun _ => True)
    (advances : p.Advances 1) (stops : p.Rejects [])
    (later : ∀ values, (f values).RereadsInside closes)
    (opens : ∀ values, (f values).OpensWith closes chars)
    (apart : ∀ source, Next chars source → p.Rejects source)
    (noSpace : isSpace closes = false)
    : (Parser.many p >>= f).RereadsInside closes := by
  intro source result middle behind here read closed
  obtain ⟨values, place, found, more⟩ := Parser.bind_eq_ok.mp read
  have repeats := (Parser.many_iff advances stops).mp found
  clear read found
  induction repeats generalizing f with
  | done _ =>
      refine (later [] _ result middle behind here more closed).opening (opens [])
        fun other last next again => ?_
      exact (Parser.bind_of_ok
        ((Parser.many_iff advances stops).mpr (.done (apart other next)))).trans again
  | @more source place rest value values read _ ih =>
      have reread := rereads source value place read
      have opened : skip place = place := by
        obtain ⟨_, tail, -, rfl, -⟩ := reread
        exact skip_skip tail
      have others :=
        ih (f := fun values => f (value :: values)) (fun values => later (value :: values))
        (fun values => opens (value :: values)) opened more
      have both := Parser.RereadsAt.bind_upTo
        (f := fun value => Parser.many p >>= fun values => f (value :: values))
        reread others here noSpace (fun _ _ _ _ => trivial) fun _ _ _ _ _ => trivial
      refine both.congr fun inside after last _ _ again => ?_
      obtain ⟨first, place, read, again⟩ := Parser.bind_eq_ok.mp again
      obtain ⟨values, middle, found, more⟩ := Parser.bind_eq_ok.mp again
      have repeats := (Parser.many_iff advances stops).mp found
      exact (Parser.bind_of_ok ((Parser.many_iff advances stops).mpr (.more read repeats))).trans
        more

end Missing

/-- What stands between the parentheses of a node. -/
def nodeInside : Parser NodePattern := do
  let name ← (padded identifier).optional
  let labels ← Parser.many nextLabel
  let properties ← (mapLiteral expression).optional
  pure { name, labels, properties }

/-- What stands between the brackets of a relationship. -/
def detailInside : Parser RelationshipDetail := do
  let name ← (padded identifier).optional
  let types ← relationshipTypes
  let length ← hopRange.optional
  let properties ← (mapLiteral expression).optional
  pure { name, types, length, properties }

/-- The types of a relationship behind their colon. -/
def typeNames : Parser (List String) := do
  mark ':'
  Parser.separated1 (mark '|') typeName

section Details

variable {α : Type} {closes : Char} {source rest : List Char}

theorem nodePattern_eq : nodePattern = (between '(' ')' nodeInside).within .nodePattern := by
  simp only [nodePattern, nextLabel, nodeInside, between, bind_assoc, pure_bind]

theorem relationshipDetail_eq : relationshipDetail = between '[' ']' detailInside := by
  simp only [relationshipDetail, detailInside, between, bind_assoc, pure_bind]

theorem mapLiteral_next {entries : List (String × Expr)}
    (read : mapLiteral expression source = .ok entries rest)
    : Next ['\x7b'] source := by
  obtain ⟨_, _, opens, -⟩ := Parser.bind_eq_ok.mp read
  exact next_of_mark opens

/-- Properties are read up to a closing bracket, or none are. -/
theorem properties_inside (closing : closes ∈ [')', ']']) (f : Properties → α)
    : Parser.RereadsInside
      ((mapLiteral expression).optional >>= fun properties => pure (f properties)) closes := by
  have isClosing : IsClosing closes :=
    isClosing_of_mem closes (List.mem_append_left ['\x7d'] closing)
  have apart : '\x7b' ∉ [closes] := by
    rw [List.mem_singleton]
    rintro rfl
    revert closing
    decide
  refine .optional ?_ (pure_inside isClosing _) (pure_opensWith _) fun source next => ?_
  · exact (mapLiteral_rereads expression_tame).bind_inside
      (fun _ => pure_inside isClosing _) isClosing.noSpace
      (fun _ _ _ _ => trivial) fun _ _ _ _ _ _ _ => trivial
  · exact (next.rejects_mark apart).bind

theorem properties_opensWith (f : Properties → α)
    : Parser.OpensWith
      ((mapLiteral expression).optional >>= fun properties => pure (f properties)) closes
        ['\x7b', closes] :=
  Parser.OpensWith.optional (f := fun properties => pure (f properties)) (pure_opensWith _)
    fun _ _ _ => mapLiteral_next

theorem Next.rejects_name (next : Next [':', '*', '\x7b', '(', ')', ']'] source)
    : (padded identifier).Rejects source := by
  obtain ⟨c, opens, member⟩ := next
  refine padded_rejects ?_
  obtain ⟨others, here⟩ := List.head?_eq_some_iff.mp opens
  rw [here]
  simp only [List.mem_cons, List.not_mem_nil, or_false] at member
  rcases member with rfl | rfl | rfl | rfl | rfl | rfl <;> exact ⟨_, rfl⟩

theorem nextLabel_rereads : nextLabel.Rereads true true fun _ => True :=
  (mark_rereads (by decide)).bind fun _ => symbol_rereads.padded

theorem nodeInside_inside : nodeInside.RereadsInside ')' := by
  have labels (name : Option String)
      : Parser.RereadsInside
        (Parser.many nextLabel >>= fun labels => (mapLiteral expression).optional >>=
          fun properties => pure (NodePattern.mk name labels properties)) ')' :=
    .many nextLabel_rereads nextLabel_advances (mark_rejects lacks_nil).bind
      (fun _ => properties_inside (by simp) _) (fun _ => properties_opensWith _)
      (fun _ next => (next.rejects_mark (by decide)).bind) (by decide)
  have opens (name : Option String)
      : Parser.OpensWith
        (Parser.many nextLabel >>= fun labels => (mapLiteral expression).optional >>=
          fun properties => pure (NodePattern.mk name labels properties)) ')'
            [':', '\x7b', ')'] := by
    intro source node last after read closed
    obtain ⟨labels, place, found, more⟩ := Parser.bind_eq_ok.mp read
    have repeats := (Parser.many_iff nextLabel_advances (mark_rejects lacks_nil).bind).mp found
    cases repeats with
    | done => exact (properties_opensWith _ _ _ last after more closed).mono (by simp)
    | more read _ =>
        obtain ⟨_, _, colon, -⟩ := Parser.bind_eq_ok.mp read
        exact (next_of_mark colon).mono (by simp)
  refine .optional ?_ (labels none) (opens none) fun source next =>
    (next.mono (by simp)).rejects_name
  exact identifier_rereads.padded.bind_inside (fun name => labels (some name)) (by decide)
    (fun _ _ _ _ => trivial)
    fun _ _ _ _ _ _ _ => trivial

theorem nodePattern_rereads : nodePattern.Rereads true true fun _ => True := by
  intro source node rest read
  rw [nodePattern_eq] at read ⊢
  have inside : (between '(' ')' nodeInside).Rereads true true fun _ => True :=
    between_rereads (by decide) (isClosing_of_mem ')' (by decide)) nodeInside_inside
  exact (inside source node rest (Parser.within_eq_ok read)).congr fun _ _ again =>
    Parser.within_of_ok again _

theorem typeName_rereads : typeName.Rereads true true fun _ => True := by
  intro source type rest read
  obtain ⟨colon, place, optional, more⟩ := Parser.bind_eq_ok.mp read
  rcases Parser.optional_eq_ok optional with ⟨_, rfl, found⟩ | ⟨rfl, rfl⟩
  · refine (nextLabel_rereads source type rest ((Parser.bind_of_ok found).trans more)).congr
      fun other after again => ?_
    obtain ⟨_, place, found, more⟩ := Parser.bind_eq_ok.mp again
    exact (Parser.bind_of_ok (Parser.optional_of_ok found)).trans more
  · refine (symbol_rereads.padded place type rest more).congr fun other after again => ?_
    obtain ⟨middle, named, -⟩ := padded_eq_ok again
    obtain ⟨letters, _, named, -⟩ := Parser.bind_eq_ok.mp named
    have opens := symbolicName_opens named
    have rejects : (mark ':').Rejects other := mark_rejects (opens.lacks (by decide) (by decide))
    exact (Parser.bind_of_ok (Parser.optional_of_rejects rejects)).trans again

theorem typeNames_rereads : typeNames.Rereads true true fun after => Lacks '|' (skip after) :=
  (mark_rereads (by decide)).bind fun _ =>
    typeName_rereads.separated1 (by decide) typeName_advances (fun _ _ _ _ => trivial)
      (fun _ _ => trivial)
      (fun _ _ => trivial) fun _ lacks => lacks

theorem relationshipTypes_eq
    : relationshipTypes = typeNames.optional >>= fun types => pure (types.getD []) :=
  rfl

theorem hopCount_rereads : (padded hopCount).Rereads true true fun _ => True :=
  (digits_rereads.reading _).padded

theorem Next.rejects_hopCount (next : Next ['.', '\x7b', ']'] source)
    : (padded hopCount).Rejects source :=
  padded_rejects ((next.lacksDigit (by decide)).digits.reading _)

/-- The upper bound of a range behind its two points. -/
def upperBound : Parser (Option Nat) := do
  padded (literally "..")
  (padded hopCount).optional

theorem hopRange_bind {β : Type} (f : HopRange → Parser β)
    : hopRange >>= f
      = mark '*' >>= fun _ => (padded hopCount).optional >>= fun least =>
        upperBound.optional >>= fun most =>
          f { least, most := most.getD least } := by
  simp only [hopRange, upperBound, bind_assoc, pure_bind]

theorem hopRange_next {range : HopRange} (read : hopRange source = .ok range rest)
    : Next ['*'] source := by
  obtain ⟨_, _, star, -⟩ := Parser.bind_eq_ok.mp read
  exact next_of_mark star

theorem typeNames_next {types : List String} (read : typeNames source = .ok types rest)
    : Next [':'] source := by
  obtain ⟨_, _, colon, -⟩ := Parser.bind_eq_ok.mp read
  exact next_of_mark colon

/-- A range is read again before what else there is up to the closing bracket. -/
theorem hopRange_inside {β : Type} {f : HopRange → Parser β}
    (later : ∀ range, (f range).RereadsInside ']')
    (opens : ∀ range, (f range).OpensWith ']' ['\x7b', ']'])
    : (hopRange >>= f).RereadsInside ']' := by
  have counted {g : Option Nat → Parser β} (inside : ∀ count, (g count).RereadsInside ']')
      (opens : (g none).OpensWith ']' ['.', '\x7b', ']'])
      : ((padded hopCount).optional >>= g).RereadsInside ']' :=
    .optional (hopCount_rereads.bind_inside (fun count => inside (some count)) (by decide)
      (fun _ _ _ _ => trivial)
      fun _ _ _ _ _ _ _ => trivial) (inside none) opens fun _ => Next.rejects_hopCount
  have points : (padded (literally "..")).Rereads true true fun _ => True :=
    (literally_rereads (by decide)).padded
  have pointed {source rest : List Char} {value : Option Nat}
    (read : upperBound source = .ok value rest)
      : Next ['.'] source := by
    obtain ⟨_, _, points, -⟩ := Parser.bind_eq_ok.mp read
    obtain ⟨tail, found, -⟩ := padded_eq_ok points
    exact ⟨'.', by rw [literally_eq_ok found]; rfl, by simp⟩
  have bounded (least : Option Nat)
      : (upperBound.optional >>= fun most => f ⟨least, most.getD least⟩).RereadsInside ']' := by
    have present : (upperBound >>= fun most => f ⟨least, most⟩).RereadsInside ']' := by
      rw [upperBound, bind_assoc]
      refine points.bind_inside (fun _ => counted (fun most => later ⟨least, most⟩) ?_) (by decide)
        (fun _ _ _ _ => trivial) fun _ _ _ _ _ _ _ => trivial
      exact fun source value last after read closed =>
        (opens _ source value last after read closed).mono (by simp)
    refine .optional present (later _) (opens _) fun source next =>
      Parser.Rejects.bind (padded_rejects ?_)
    exact literally_rejects rfl (next.lacks (by decide))
  rw [hopRange_bind]
  refine (mark_rereads (by decide)).bind_inside (fun _ => counted bounded ?_) (by decide)
    (fun _ _ _ _ => trivial)
    fun _ _ _ _ _ _ _ => trivial
  exact .optional (opens _) fun _ _ _ => pointed

theorem detailInside_inside : detailInside.RereadsInside ']' := by
  have ranged (name : Option String) (types : List String)
      : Parser.RereadsInside
        (hopRange.optional >>= fun length => (mapLiteral expression).optional >>=
          fun properties => pure (RelationshipDetail.mk name types length properties)) ']' :=
    .optional (hopRange_inside (fun _ => properties_inside (by simp) _) fun _ =>
      properties_opensWith _)
      (properties_inside (by simp) _) (properties_opensWith _) fun _ next =>
        (next.rejects_mark (by decide)).bind
  have rangedOpens (name : Option String) (types : List String)
      : Parser.OpensWith (hopRange.optional >>= fun length => (mapLiteral expression).optional >>=
          fun properties => pure (RelationshipDetail.mk name types length properties)) ']'
            ['*', '\x7b', ']'] :=
    Parser.OpensWith.optional (f := fun length => (mapLiteral expression).optional >>=
      fun properties => pure (RelationshipDetail.mk name types length properties))
        (properties_opensWith _)
      fun _ _ _ => hopRange_next
  have typed (name : Option String)
      : Parser.RereadsInside
        (typeNames.optional >>= fun types => hopRange.optional >>= fun length =>
          (mapLiteral expression).optional >>= fun properties =>
            pure (RelationshipDetail.mk name (types.getD []) length properties)) ']' := by
    refine .optional ?_ (ranged name []) (rangedOpens name []) fun _ next =>
      (next.rejects_mark (by decide)).bind
    refine typeNames_rereads.bind_inside (fun types => ranged name types) (by decide) ?_ ?_
    · exact fun gap source spaces lacks => by rwa [skip_gap spaces]
    · intro types source detail last after read closed
      exact (rangedOpens name types source detail last after read closed).lacks (by decide)
  have whole : detailInside = (padded identifier).optional >>= fun name =>
    typeNames.optional >>= fun types =>
      hopRange.optional >>= fun length => (mapLiteral expression).optional >>= fun properties =>
        pure (RelationshipDetail.mk name (types.getD []) length properties) := by
    simp only [detailInside, relationshipTypes_eq, bind_assoc, pure_bind]
  rw [whole]
  refine .optional ?_ (typed none) ?_ fun _ next => Next.rejects_name next
  · exact identifier_rereads.padded.bind_inside (fun name => typed (some name)) (by decide)
      (fun _ _ _ _ => trivial)
      fun _ _ _ _ _ _ _ => trivial
  · intro source detail last after read closed
    obtain ⟨types, place, optional, more⟩ := Parser.bind_eq_ok.mp read
    rcases Parser.optional_eq_ok optional with ⟨types, rfl, found⟩ | ⟨rfl, rfl⟩
    · exact (typeNames_next found).mono (by simp)
    · exact (rangedOpens none [] place detail last after more closed).mono (by simp)

theorem relationshipDetail_rereads : relationshipDetail.Rereads true true fun _ => True := by
  rw [relationshipDetail_eq]
  exact between_rereads (by decide) (isClosing_of_mem ']' (by decide)) detailInside_inside

end Details

/-- An end of a relationship as it is written. -/
def arrowText (withHead : String) (head : Bool) : List Char :=
  if head then withHead.toList else ['-']

/-- A relationship with what was read of it. -/
def RelationshipPattern.assembled (leftHead : Bool) (detail : Option RelationshipDetail)
    (rightHead : Bool)
    : RelationshipPattern :=
  let detail := detail.getD { name := none, types := [], length := none, properties := none }
  { name := detail.name
    direction := .ofHeads leftHead rightHead
    types := detail.types
    properties := detail.properties
    length := detail.length }

section Arrows

variable {α β : Type} {p : Parser α} {withHead : String} {head : Bool}
  {source rest tail : List Char}

/-- A part that may be missing is read again before what follows it. Where it is missing, what comes
instead is no such part.
-/
theorem Parser.Rereads.optional {f : Option α → Parser β} {behind : Bool} {last : List Char → Prop}
    (present : (p >>= fun value => f (some value)).Rereads true behind last)
    (absent : (f none).Rereads true behind last)
    (apart : ∀ other result rest, f none other = .ok result rest → p.Rejects other)
    : (p.optional >>= f).Rereads true behind last := by
  intro source result rest read
  obtain ⟨found, place, optional, more⟩ := Parser.bind_eq_ok.mp read
  rcases Parser.optional_eq_ok optional with ⟨value, rfl, found⟩ | ⟨rfl, rfl⟩
  · refine (present source result rest ((Parser.bind_of_ok found).trans more)).congr
      fun other after again => ?_
    obtain ⟨value, place, found, more⟩ := Parser.bind_eq_ok.mp again
    exact (Parser.bind_of_ok (Parser.optional_of_ok found)).trans more
  · exact (absent place result rest more).congr fun other after again =>
      (Parser.bind_of_ok (Parser.optional_of_rejects (apart other result after again))).trans again

theorem arrowEnd_eq_ok (read : arrowEnd withHead source = .ok head rest)
    : ∃ tail,
        skip source = arrowText withHead head ++ tail
        ∧ rest = skip tail
        ∧ (head = false → ¬ withHead.toList <+: '-' :: tail) := by
  obtain ⟨tail, found, rfl⟩ := padded_eq_ok read
  rcases Parser.choice_two.mp found with found | ⟨rejects, found⟩
  · obtain ⟨_, _, opens, same⟩ := Parser.bind_eq_ok.mp found
    cases same
    exact ⟨tail, literally_eq_ok opens, rfl, nofun⟩
  · obtain ⟨_, _, opens, same⟩ := Parser.bind_eq_ok.mp found
    cases same
    have here : skip source = '-' :: tail := literally_eq_ok opens
    refine ⟨tail, here, rfl, fun _ headed => ?_⟩
    obtain ⟨behind, whole⟩ := headed
    rw [here, ← whole] at rejects
    exact rejects.not_ok (Parser.bind_of_ok (literally_read withHead behind))

theorem arrowEnd_read (here : skip source = arrowText withHead head ++ tail)
    (apart : head = false → ¬ withHead.toList <+: '-' :: tail)
    : arrowEnd withHead source = .ok head (skip tail) := by
  refine padded_of_ok (Parser.choice_two.mpr ?_)
  rw [here]
  cases head with
  | true => exact .inl (Parser.bind_of_ok (literally_read withHead tail))
  | false =>
      refine .inr ⟨Parser.Rejects.bind ⟨.here ('-' :: tail) .unexpected, ?_⟩,
        Parser.bind_of_ok (literally_read "-" tail)⟩
      exact if_neg fun opens => apart rfl (List.isPrefixOf_iff_prefix.mp opens)

theorem leftArrow_apart (tail : List Char) : ¬ "<-".toList <+: '-' :: tail := by
  rintro ⟨behind, whole⟩
  cases whole

theorem rightArrow_apart : ¬ "->".toList <+: '-' :: tail ↔ Lacks '>' tail := by
  rw [not_iff_comm, Lacks, not_not]
  constructor
  · intro opens
    obtain ⟨behind, rfl⟩ := List.head?_eq_some_iff.mp opens
    exact ⟨behind, rfl⟩
  · rintro ⟨behind, ⟨⟩⟩
    rfl

theorem isSign_arrowText (headed : IsSign withHead.toList) : IsSign (arrowText withHead head) := by
  cases head with
  | true => exact headed
  | false => exact (by decide : IsSign ['-'])

theorem leftArrow_rereads : (arrowEnd "<-").Rereads true true fun _ => True := by
  intro source head rest read
  obtain ⟨tail, here, rfl, -⟩ := arrowEnd_eq_ok read
  have sign : IsSign (arrowText "<-" head) := isSign_arrowText (by decide)
  exact ⟨_, tail, here, rfl, sign.trimmed, fun _ _ _ => sign.sameWords,
    fun other after opens _ _ => arrowEnd_read opens fun _ => leftArrow_apart after⟩

theorem rightArrow_rereads : (arrowEnd "->").Rereads true true (Lacks '>') := by
  intro source head rest read
  obtain ⟨tail, here, rfl, -⟩ := arrowEnd_eq_ok read
  have sign : IsSign (arrowText "->" head) := isSign_arrowText (by decide)
  exact ⟨_, tail, here, rfl, sign.trimmed, fun _ _ _ => sign.sameWords,
    fun other after opens lacks _ => arrowEnd_read opens fun _ => rightArrow_apart.mpr lacks⟩

theorem relationshipPattern_eq
    : relationshipPattern = arrowEnd "<-" >>= fun leftHead =>
      relationshipDetail.optional >>= fun detail =>
        arrowEnd "->" >>= fun rightHead => pure (.assembled leftHead detail rightHead) :=
  rfl

/-- A bracket or an arrow stands next where the detail of a relationship is read or missing. -/
theorem relationshipDetail_rejects (read : arrowEnd "->" source = .ok head rest)
    : relationshipDetail.Rejects source := by
  obtain ⟨tail, here, -⟩ := arrowEnd_eq_ok read
  refine Parser.Rejects.bind (mark_rejects ?_)
  rw [here]
  cases head <;> exact lacks_cons (by decide)

/-- A relationship is read again where no head of an arrow follows. -/
theorem relationshipPattern_rereads : relationshipPattern.Rereads true true (Lacks '>') := by
  rw [relationshipPattern_eq]
  refine leftArrow_rereads.bind fun leftHead =>
    .optional ?_ (rightArrow_rereads.map _) fun other result rest read => ?_
  · exact relationshipDetail_rereads.bind fun detail => rightArrow_rereads.map _
  · obtain ⟨_, _, arrow, -⟩ := Parser.bind_eq_ok.mp read
    exact relationshipDetail_rejects arrow

end Arrows

end CypherSql.Cypher
