import CypherSql.Proofs.Rereading.Patterns

/-! Texts in and outside of quotes, and the anonymous relationships with a hop range whose brackets
open outside of quotes. Neither names nor texts in quotes nor lists open any.
-/

namespace CypherSql.Cypher

open Text

/-- Where a place behind a character stands. In backquotes a backslash stands for itself. -/
def Quoting.step (c : Char) : Quoting → Quoting
  | .outside => if c ∈ quotes then .inside c else .outside
  | .inside quote =>
      if c = quote then .outside
      else if c = '\\' ∧ quote ≠ '`' then .escaped quote
      else .inside quote
  | .escaped quote => .inside quote

/-- Where a place behind a text stands. -/
def Quoting.behind (text : List Char) (place : Quoting) : Quoting :=
  text.foldl (fun place c => place.step c) place

/-- What follows the text stands outside of quotes if the text does. -/
def Unquoted (text : List Char) : Prop :=
  Quoting.behind text .outside = .outside

instance (text : List Char) : Decidable (Unquoted text) :=
  inferInstanceAs (Decidable (_ = _))

section Quotes

variable {text more gap : List Char} {quote : Char}

theorem Quoting.behind_append (text more : List Char) (place : Quoting)
    : place.behind (text ++ more) = (place.behind text).behind more :=
  List.foldl_append

theorem unquoted_nil : Unquoted [] :=
  rfl

theorem Unquoted.append (unquoted : Unquoted text) (also : Unquoted more)
    : Unquoted (text ++ more) := by
  rw [Unquoted, Quoting.behind_append, show Quoting.behind text .outside = .outside from unquoted]
  exact also

theorem Unquoted.of_append (whole : Unquoted (text ++ more)) (unquoted : Unquoted text)
    : Unquoted more := by
  rwa [Unquoted, Quoting.behind_append, show Quoting.behind text .outside = .outside from unquoted]
    at whole

theorem unquoted_all (plain : ∀ c ∈ text, c ∉ quotes) : Unquoted text := by
  induction text with
  | nil => rfl
  | cons c text ih =>
      rw [List.forall_mem_cons] at plain
      have stays : Quoting.step c .outside = .outside := if_neg plain.1
      rw [Unquoted, Quoting.behind, List.foldl_cons, stays]
      exact ih plain.2

theorem isSpace_apart {c : Char} (space : isSpace c) : c ∉ quotes ∧ c ≠ '[' := by
  simp only [isSpace, Bool.or_eq_true, decide_eq_true_eq] at space
  rcases space with ((rfl | rfl) | rfl) | rfl <;> decide

/-- A text in quotes goes on up to its closing quote, by induction over it. -/
theorem QuotedBody.behind_ne_outside {body before after : List Char}
    (inside : QuotedBody quote body)
    (isQuote : quote ∈ ['\'', '"']) (split : body = before ++ after)
    : Quoting.behind before (.inside quote) ≠ .outside := by
  have apart : ∀ quote ∈ ['\'', '"'], quote ≠ '`' ∧ '\\' ≠ quote :=
    List.forall_mem_cons.mpr ⟨by decide, List.forall_mem_singleton.mpr (by decide)⟩
  obtain ⟨notBack, notBackslash⟩ := apart quote isQuote
  induction inside generalizing before with
  | nil =>
      obtain ⟨rfl, -⟩ := List.append_eq_nil_iff.mp split.symm
      nofun
  | @escaped c body _ _ ih =>
      have first : Quoting.step '\\' (.inside quote) = .escaped quote := by
        rw [Quoting.step, if_neg notBackslash, if_pos ⟨rfl, notBack⟩]
      match before, split with
      | [], _ => nofun
      | [_], same =>
          obtain ⟨rfl, -⟩ := List.cons.inj same
          rw [Quoting.behind, List.foldl_cons, first]
          nofun
      | _ :: _ :: before, same =>
          obtain ⟨rfl, later⟩ := List.cons.inj same
          rw [Quoting.behind, List.foldl_cons, first]
          exact ih (List.cons.inj later).2
  | @plain c body notQuote notEscape _ ih =>
      have first : Quoting.step c (.inside quote) = .inside quote := by
        rw [Quoting.step, if_neg notQuote, if_neg (by simp [notEscape])]
      match before, split with
      | [], _ => nofun
      | _ :: before, same =>
          obtain ⟨rfl, later⟩ := List.cons.inj same
          rw [Quoting.behind, List.foldl_cons, first]
          exact ih later

theorem QuotedBody.behind_closed {body : List Char} (inside : QuotedBody quote body)
    (isQuote : quote ∈ ['\'', '"'])
    : Quoting.behind (body ++ [quote]) (.inside quote) = .outside := by
  have apart : ∀ quote ∈ ['\'', '"'], quote ≠ '`' ∧ '\\' ≠ quote :=
    List.forall_mem_cons.mpr ⟨by decide, List.forall_mem_singleton.mpr (by decide)⟩
  obtain ⟨notBack, notBackslash⟩ := apart quote isQuote
  induction inside with
  | nil => exact if_pos rfl
  | escaped _ _ ih =>
      have first : Quoting.step '\\' (.inside quote) = .escaped quote := by
        rw [Quoting.step, if_neg notBackslash, if_pos ⟨rfl, notBack⟩]
      rw [Quoting.behind, List.cons_append, List.foldl_cons, first]
      exact ih
  | @plain c body notQuote notEscape _ ih =>
      have first : Quoting.step c (.inside quote) = .inside quote := by
        rw [Quoting.step, if_neg notQuote, if_neg (by simp [notEscape])]
      rw [Quoting.behind, List.cons_append, List.foldl_cons, first]
      exact ih

theorem behind_backquoted (noQuote : '`' ∉ text)
    : Quoting.behind text (.inside '`') = .inside '`' := by
  induction text with
  | nil => rfl
  | cons c text ih =>
      rw [List.mem_cons, not_or] at noQuote
      have first : Quoting.step c (.inside '`') = .inside '`' := by
        rw [Quoting.step, if_neg (Ne.symm noQuote.1), if_neg (by simp)]
      rw [Quoting.behind, List.foldl_cons, first]
      exact ih noQuote.2

end Quotes

/-- What a relationship has between its brackets. -/
def RelationshipPattern.detail (relationship : RelationshipPattern) : RelationshipDetail :=
  ⟨relationship.name, relationship.types, relationship.length, relationship.properties⟩

/-- Anonymous and with a range of hops. -/
def RelationshipDetail.isRanged (detail : RelationshipDetail) : Bool :=
  detail.name.isNone && detail.length.isSome

/-- The detail itself, if it is anonymous and has a range of hops. -/
def RelationshipDetail.ranges (detail : RelationshipDetail) : List RelationshipDetail :=
  if detail.isRanged then [detail] else []

/-- The anonymous relationship with a hop range whose bracket stands before a text, if there is one.
-/
def rangesAt (source : List Char) : List RelationshipDetail :=
  match relationshipDetail ('[' :: source) with
  | .ok detail _ => detail.ranges
  | _ => []

/-- The anonymous relationships with a hop range whose brackets open in a text outside of quotes,
from the left.
-/
def rangesFrom : Quoting → List Char → List RelationshipDetail
  | _, [] => []
  | .outside, '[' :: rest => rangesAt rest ++ rangesFrom .outside rest
  | place, c :: rest => rangesFrom (place.step c) rest

/-- The quotes of a text are closed, and the relationships with a hop range that open in it are the
given ones, whatever follows it.
-/
structure OpensRanges (ranges : List RelationshipDetail) (text : List Char) : Prop where
  unquoted : Unquoted text
  opened : ∀ tail, rangesFrom .outside (text ++ tail) = ranges ++ rangesFrom .outside tail

section Brackets

variable {ranges found : List RelationshipDetail} {text more gap : List Char} {place : Quoting}
  {c quote : Char}

theorem rangesFrom_cons (apart : place = .outside → c ≠ '[') (rest : List Char)
    : rangesFrom place (c :: rest) = rangesFrom (place.step c) rest := by
  rw [rangesFrom]
  exact apart

theorem rangesFrom_bracket (rest : List Char)
    : rangesFrom .outside ('[' :: rest) = rangesAt rest ++ rangesFrom .outside rest :=
  rfl

/-- The texts behind the brackets that open in a text outside of quotes. -/
def openings : Quoting → List Char → List (List Char)
  | _, [] => []
  | .outside, '[' :: rest => rest :: openings .outside rest
  | place, c :: rest => openings (place.step c) rest

theorem openings_cons (apart : place = .outside → c ≠ '[') (rest : List Char)
    : openings place (c :: rest) = openings (place.step c) rest := by
  rw [openings]
  exact apart

theorem rangesFrom_eq (place : Quoting) (text : List Char)
    : rangesFrom place text = (openings place text).flatMap rangesAt := by
  induction text generalizing place with
  | nil => rfl
  | cons c text ih =>
      by_cases opens : place = .outside ∧ c = '['
      · obtain ⟨rfl, rfl⟩ := opens
        rw [rangesFrom_bracket, ih]
        exact List.flatMap_cons.symm
      · rw [rangesFrom_cons (not_and.mp opens), openings_cons (not_and.mp opens), ih]

/-- What opens in the rest of a text opens in the text, after all that opens before. -/
theorem exists_openings_append (place : Quoting) (text tail : List Char)
    : ∃ before, openings place (text ++ tail) = before ++ openings (place.behind text) tail := by
  induction text generalizing place with
  | nil => exact ⟨[], rfl⟩
  | cons c text ih =>
      obtain ⟨before, same⟩ := ih (place.step c)
      by_cases opens : place = .outside ∧ c = '['
      · obtain ⟨rfl, rfl⟩ := opens
        exact ⟨(text ++ tail) :: before, congrArg (List.cons (text ++ tail)) same⟩
      · exact ⟨before, (openings_cons (not_and.mp opens) (text ++ tail)).trans same⟩

theorem exists_rangesFrom_append (place : Quoting) (text tail : List Char)
    : ∃ before, rangesFrom place (text ++ tail) = before ++ rangesFrom
      (place.behind text) tail := by
  obtain ⟨before, same⟩ := exists_openings_append place text tail
  refine ⟨before.flatMap rangesAt, ?_⟩
  rw [rangesFrom_eq, rangesFrom_eq, same, List.flatMap_append]

/-- Nothing opens in a text that is in quotes throughout, by induction over it. -/
theorem rangesFrom_quoted
    (inside : ∀ before after, text = before ++ after → place.behind before ≠ .outside)
    (tail : List Char)
    : rangesFrom place (text ++ tail) = rangesFrom (place.behind text) tail := by
  induction text generalizing place with
  | nil => rfl
  | cons c text ih =>
      refine (rangesFrom_cons (fun outside => absurd outside (inside [] (c :: text) rfl))
        (text ++ tail)).trans ?_
      exact ih fun before after split =>
        inside (c :: before) after (by rw [split, List.cons_append])

theorem OpensRanges.append (first : OpensRanges ranges text) (second : OpensRanges found more)
    : OpensRanges (ranges ++ found) (text ++ more) where
  unquoted := first.unquoted.append second.unquoted
  opened tail := by rw [List.append_assoc, first.opened, second.opened, List.append_assoc]

theorem opensRanges_nil : OpensRanges [] [] where
  unquoted := unquoted_nil
  opened _ := rfl

theorem opensRanges_singleton (noQuote : c ∉ quotes) (noBracket : c ≠ '[')
    : OpensRanges [] [c] where
  unquoted := unquoted_all (by simpa using noQuote)
  opened tail := by
    have stays : Quoting.step c .outside = .outside := if_neg noQuote
    rw [List.singleton_append, rangesFrom_cons fun _ => noBracket, stays, List.nil_append]

theorem opensRanges_all (plain : ∀ c ∈ text, c ∉ quotes ∧ c ≠ '[') : OpensRanges [] text := by
  induction text with
  | nil => exact opensRanges_nil
  | cons c text ih =>
      rw [List.forall_mem_cons] at plain
      exact (opensRanges_singleton plain.1.1 plain.1.2).append (ih plain.2)

/-- Between quotes there is no bracket outside of them. -/
theorem opensRanges_quoted {body : List Char} (isQuote : quote ∈ quotes)
    (inside : ∀ before after,
      body = before ++ after → Quoting.behind before (.inside quote) ≠ .outside)
    (closes : Quoting.behind (body ++ [quote]) (.inside quote) = .outside)
    : OpensRanges [] (quote :: (body ++ [quote])) := by
  have opens : Quoting.step quote .outside = .inside quote := if_pos isQuote
  have noBracket : quote ≠ '[' := by
    rintro rfl
    revert isQuote
    decide
  constructor
  · rw [Unquoted, Quoting.behind, List.foldl_cons, opens]
    exact closes
  · intro tail
    have last : (Quoting.behind body (.inside quote)).step quote = .outside := by
      rw [Quoting.behind_append] at closes
      exact closes
    rw [List.cons_append, rangesFrom_cons fun _ => noBracket, opens, List.append_assoc,
      rangesFrom_quoted inside, List.singleton_append, rangesFrom_cons fun _ =>
        noBracket, last, List.nil_append]

/-- A bracket at the start is looked at with whatever follows the text. -/
theorem opensRanges_bracketed (inside : OpensRanges ranges text)
    (first : ∀ tail, rangesAt (text ++ ']' :: tail) = found)
    : OpensRanges (found ++ ranges) ('[' :: (text ++ [']'])) := by
  have closing : OpensRanges ranges (text ++ [']']) := by
    have both := inside.append (@opensRanges_singleton ']' (by decide) (by decide))
    rwa [List.append_nil] at both
  refine ⟨closing.unquoted, fun tail => ?_⟩
  have opened := closing.opened tail
  rw [List.append_assoc, List.singleton_append] at opened
  rw [List.cons_append, List.append_assoc, List.singleton_append, rangesFrom_bracket, first, opened,
    List.append_assoc]

/-- Behind its bracket an anonymous relationship with a range goes on with its types or its range.
-/
theorem relationshipDetail_next {detail : RelationshipDetail} {source rest : List Char}
    (read : relationshipDetail ('[' :: source) = .ok detail rest) (ranged : detail.isRanged)
    : ∃ c ∈ (skip source).head?, c = ':' ∨ c = '*' := by
  rw [relationshipDetail_eq] at read
  obtain ⟨tail, behind, here, -, middle, found, -⟩ := between_eq_ok read
  rw [skip_cons (by decide)] at here
  obtain ⟨-, rfl⟩ := List.cons.inj here
  obtain ⟨name, place, named, found⟩ := Parser.bind_eq_ok.mp found
  obtain ⟨types, second, typed, found⟩ := Parser.bind_eq_ok.mp found
  obtain ⟨length, third, bounds, found⟩ := Parser.bind_eq_ok.mp found
  obtain ⟨properties, _, -, same⟩ := Parser.bind_eq_ok.mp found
  cases same
  rw [RelationshipDetail.isRanged, Bool.and_eq_true] at ranged
  obtain rfl := Option.isNone_iff_eq_none.mp ranged.1
  obtain ⟨-, rfl⟩ := Parser.optional_eq_none named
  obtain ⟨found, _, listed, same⟩ := Parser.bind_eq_ok.mp typed
  cases same
  rcases Parser.optional_eq_ok listed with ⟨names, rfl, named⟩ | ⟨rfl, rfl⟩
  · obtain ⟨c, opens, member⟩ := typeNames_next named
    rw [skip_skip] at opens
    exact ⟨c, opens, .inl (List.mem_singleton.mp member)⟩
  · rcases Parser.optional_eq_ok bounds with ⟨range, rfl, bounded⟩ | ⟨rfl, -⟩
    · obtain ⟨c, opens, member⟩ := hopRange_next bounded
      rw [skip_skip] at opens
      exact ⟨c, opens, .inr (List.mem_singleton.mp member)⟩
    · cases ranged.2

/-- Nothing opens where neither types nor a range come next. -/
theorem rangesAt_eq_nil {source : List Char} (apart : ∀ c ∈ (skip source).head?, c ≠ ':' ∧ c ≠ '*')
    : rangesAt source = [] := by
  unfold rangesAt
  split
  · rename_i detail rest read
    refine if_neg fun ranged => ?_
    obtain ⟨c, head, either⟩ := relationshipDetail_next read ranged
    exact absurd either (not_or.mpr (apart c head))
  · rfl

theorem isBare_apart (bare : isBare c) : c ∉ quotes ∧ c ≠ '[' := by
  simp [isBare, isInert] at bare
  exact ⟨bare.1.2.2, bare.2.1⟩

theorem named_opensRanges : Named (OpensRanges []) where
  spaces _ spaces := opensRanges_all fun c member => isSpace_apart (spaces c member)
  append _ _ first second := first.append second
  word c isWord :=
    have apart := isBare_apart (isBare_of_isWordChar isWord)
    opensRanges_singleton apart.1 apart.2
  backquoted text noQuote := by
    have stays : Quoting.behind text (.inside '`') = .inside '`' := behind_backquoted noQuote
    refine opensRanges_quoted (by decide) (fun before after split outside => ?_) ?_
    · subst split
      rw [List.mem_append, not_or] at noQuote
      rw [behind_backquoted noQuote.1] at outside
      cases outside
    · rw [Quoting.behind_append, stays]
      rfl

/-- The items of a list do not open with a colon or a star, as the types and the range of a
relationship do.
-/
theorem lexical_opensRanges : Lexical (OpensRanges []) where
  toNamed := named_opensRanges
  bare c bare := opensRanges_singleton (isBare_apart bare).1 (isBare_apart bare).2
  quoted quote isQuote body inside := by
    have listed : quote ∈ quotes := by
      revert isQuote
      simp [quotes]
      tauto
    exact opensRanges_quoted listed (fun _ _ => inside.behind_ne_outside isQuote)
      (inside.behind_closed isQuote)
  enclosed := by
    have opened {c d : Char} {text : List Char} (first : OpensRanges [] [c])
      (inside : OpensRanges [] text)
        (last : OpensRanges [] [d])
        : OpensRanges [] (c :: (text ++ [d])) :=
      first.append (inside.append last)
    simp only [List.forall_mem_cons, List.not_mem_nil, false_imp_iff, implies_true, and_true]
    exact ⟨fun _ inside => opened (opensRanges_singleton (by decide) (by decide)) inside
        (opensRanges_singleton (by decide) (by decide)),
      fun _ inside => opened (opensRanges_singleton (by decide) (by decide)) inside
        (opensRanges_singleton (by decide) (by decide))⟩
  listed text inside apart := by
    refine opensRanges_bracketed inside fun tail => rangesAt_eq_nil fun c head => ?_
    cases first : (skip text).head? with
    | some d =>
        obtain rfl := Option.some.inj ((skip_append_of_head first _).symm.trans head)
        exact apart d first
    | none =>
        obtain ⟨gap, whole, spaces⟩ := exists_skipped text
        rw [List.head?_eq_none_iff.mp first, List.append_nil] at whole
        rw [whole, skip_gap spaces] at head
        cases head
        decide

end Brackets

end CypherSql.Cypher
