import CypherSql.Proofs.ColumnTexts
import CypherSql.Proofs.Expansion.Bounds
import CypherSql.Proofs.Expansion.Layouts

/-! What is written for a segment in a text with one hop for each of its relationships. Where the
segment is an anonymous relationship with a range to the grammar, the text of its hop is the
relationship of one hop with the same direction, types and properties.
-/

namespace CypherSql.Cypher

open Text

section Brackets

variable {detail : RelationshipDetail} {types properties source rest after place : List Char}

/-- The ends of an arrow around brackets are read with them. -/
theorem assembled_read (inside : List Char)
    (again
      : ∀ other after,
          skip other = '[' :: (inside ++ ']' :: after)
          → relationshipDetail other = .ok detail (skip after))
    (left right : Bool) (apart : right = false → Lacks '>' after)
    : relationshipPattern
          (arrowText "<-" left ++ '[' :: (inside ++ ']' :: (arrowText "->" right ++ after)))
        = .ok (.assembled left (some detail) right) (skip after) := by
  have leftSign : IsSign (arrowText "<-" left) := isSign_arrowText (by decide)
  have rightSign : IsSign (arrowText "->" right) := isSign_arrowText (by decide)
  have opens := @arrowEnd_read "<-" _ _ _ (leftSign.trimmed.solid.skip_append
    ('[' :: (inside ++ ']' :: (arrowText "->" right ++ after)))) fun _ => leftArrow_apart _
  rw [skip_cons (by decide)] at opens
  have between := again ('[' :: (inside ++ ']' :: (arrowText "->" right ++ after))) _
    (skip_cons (by decide))
  have closes := @arrowEnd_read "->" _ _ _ ((skip_skip _).trans
    (rightSign.trimmed.solid.skip_append after)) fun headless =>
      rightArrow_apart.mpr (apart headless)
  rw [relationshipPattern_eq]
  refine (Parser.bind_of_ok opens).trans ?_
  exact (Parser.bind_of_ok (Parser.optional_of_ok between)).trans (Parser.bind_of_ok closes)

/-- Types and properties are read between brackets. -/
theorem relationshipDetail_of_parts {inside ending : List Char}
    (opens : skip source = '[' :: (inside ++ ending))
    (next : Next [':', '\x7b', ']'] (inside ++ ending))
    (types : relationshipTypes (skip (inside ++ ending)) = .ok detail.types (skip ending))
    (last : Next ['\x7b', ']'] ending)
    (properties : (mapLiteral expression).optional (skip ending) = .ok detail.properties place)
    (closed : skip place = ']' :: after) (anonymous : detail.name = none)
    : relationshipDetail source = .ok { detail with length := none } (skip after) := by
  have noName : (padded identifier).Rejects (skip (inside ++ ending)) := by
    have next : Next [':', '*', '\x7b', '(', ')', ']'] (skip (inside ++ ending)) := by
      obtain ⟨c, head, member⟩ := next
      refine ⟨c, by rwa [skip_skip], ?_⟩
      revert member
      simp
      tauto
    exact next.rejects_name
  have noRange : hopRange.Rejects (skip ending) := by
    refine (mark_rejects ?_).bind
    rw [skip_skip]
    exact last.lacks (by decide)
  have between : detailInside (skip (inside ++ ending))
    = .ok { detail with length := none } place := by
    refine (Parser.bind_of_ok (Parser.optional_of_rejects noName)).trans ?_
    refine (Parser.bind_of_ok types).trans ?_
    refine (Parser.bind_of_ok (Parser.optional_of_rejects noRange)).trans ?_
    rw [← anonymous]
    exact Parser.bind_of_ok properties
  rw [relationshipDetail_eq]
  refine (Parser.bind_of_ok (mark_read opens)).trans ((Parser.bind_of_ok between).trans ?_)
  exact Parser.bind_of_ok (mark_read closed)

end Brackets

end CypherSql.Cypher

namespace CypherSql.Expansion

open Cypher Text

namespace Segment

variable {segment : Segment} {blanks : Blanks} {detail : RelationshipDetail}
  {rest second third middle behind : List Char}

/-- The types of a segment are read as given names where a space or the closing bracket follows. -/
def TypesRead (segment : Segment) (names : List String) : Prop :=
  segment.types = [] ∧ names = []
  ∨ (∃ others, segment.types = ':' :: others)
    ∧ ∀ other after,
        skip other = segment.types ++ after
        → Lacks '|' (skip after)
        → (∀ c ∈ after.head?, c = ' ' ∨ c = ']')
        → typeNames other = .ok names (skip after)

/-- The property map of a segment is read as given properties. -/
def PropertiesRead (segment : Segment) (properties : Properties) : Prop :=
  segment.properties = none ∧ properties = none
  ∨ ∃ inner entries,
      segment.properties = some ('\x7b' :: inner ++ ['\x7d'])
      ∧ properties = some entries
      ∧ ∀ other after,
          skip other = '\x7b' :: (inner ++ '\x7d' :: after)
          → mapLiteral expression other = .ok entries (skip after)

/-- Types that are written are no blanks at their ends. -/
theorem Matches.trimmed_types (matched : segment.Matches blanks rest) (some : segment.types ≠ [])
    : Trimmed segment.types := by
  obtain empty | ⟨body, opens⟩ := matched.types
  · exact absurd empty some
  · refine ⟨⟨':', by rw [opens]; rfl, by decide⟩, ?_⟩
    have last := List.rdropWhile_eq_self_iff.mp matched.typesEnd some
    exact ⟨_, List.getLast?_eq_some_getLast some, by simpa using last⟩

theorem Matches.opening_eq (matched : segment.Matches blanks rest) (anonymous : segment.name = none)
    : ∃ before behind,
        segment.opening blanks = before ++ (segment.types ++ behind)
        ∧ AllBlank before
        ∧ AllBlank behind := by
  have blank := matched.blank
  simp only [List.forall_mem_cons] at blank
  refine ⟨blanks.beforeName ++ blanks.beforeTypes, blanks.beforeStar, ?_, ?_, blank.2.2.1⟩
  · rw [Segment.opening, anonymous, Option.getD_none]
    simp
  · exact List.forall_mem_append.mpr ⟨blank.1, blank.2.1⟩

/-- The grammar reads the types of a segment as they are written. -/
theorem Matches.typesRead (matched : segment.Matches blanks rest) (anonymous : segment.name = none)
    (reads : DetailReads detail (skip (segment.body blanks)) second third middle)
    (star : skip second = '*' :: (segment.afterStar blanks ++ ']' :: segment.right))
    : segment.TypesRead detail.types := by
  obtain ⟨gap, leads, spaces⟩ := exists_skipped (segment.body blanks)
  obtain ⟨before, after, opening, blank, also⟩ := matched.opening_eq anonymous
  have opens {text : List Char}
      (whole : skip (segment.body blanks)
        = text ++ '*' :: (segment.afterStar blanks ++ ']' :: segment.right))
      : before ++ (segment.types ++ after) = gap ++ text := by
    rw [whole, ← List.append_assoc] at leads
    exact opening.symm.trans (List.append_cancel_right leads)
  rcases reads.types with ⟨none, nothing⟩ | some
  · obtain ⟨-, rfl⟩ := Parser.optional_eq_none none
    refine .inl ⟨?_, nothing⟩
    rw [skip_skip] at star
    have same := @opens [] star
    obtain empty | ⟨body, typed⟩ := matched.types
    · exact empty
    · have member : ':' ∈ gap := by
        rw [List.append_nil] at same
        rw [← same, typed]
        simp
      exact absurd (spaces ':' member) (by decide)
  · obtain ⟨text, tail, here, rfl, reread⟩ := typeNames_rereads _ _ _ some
    have here : skip (segment.body blanks) = text ++ tail := (skip_skip _).symm.trans here
    have star := (skip_skip tail).symm.trans star
    obtain ⟨last, ends, others⟩ := exists_skipped tail
    have same := @opens (text ++ last) (by rw [here, ends, star, List.append_assoc])
    have front := allBlank_spaces spaces
    have back := allBlank_spaces others
    have written : segment.types ≠ [] := by
      intro empty
      obtain ⟨c, head, visible⟩ := reread.trimmed.first
      have member : c ∈ before ++ (segment.types ++ after) := by
        rw [same]
        simp [List.mem_of_mem_head? head]
      rw [empty, List.nil_append, List.mem_append] at member
      rw [member.elim (blank c) (also c)] at visible
      cases visible
    have alike : segment.types = text := by
      rw [← (matched.trimmed_types written).trim_eq blank also, same,
        reread.trimmed.trim_eq front back]
    obtain empty | colon := matched.types
    · exact absurd empty written
    · rw [← alike] at reread
      exact .inr ⟨colon, fun other after opens lacks next =>
        reread.again other after opens lacks (.inr next)⟩

/-- Blanks before a visible character that come to be next are spaces. -/
theorem eq_of_skip_blank {text more after : List Char} {c : Char} (blank : AllBlank text)
    (visible : isBlank c = false) (here : skip (text ++ c :: more) = c :: after)
    : more = after := by
  have noSpace : isSpace c = false := Bool.eq_false_iff.mpr fun space => by
    rw [isBlank_of_isSpace space] at visible
    cases visible
  induction text with
  | nil =>
      rw [List.nil_append, skip_cons noSpace] at here
      exact (List.cons.inj here).2
  | cons d text ih =>
      cases space : isSpace d with
      | true =>
          rw [List.cons_append, skip, List.dropWhile_cons_of_pos space] at here
          exact ih (fun c member => blank c (List.mem_cons_of_mem d member)) here
      | false =>
          rw [List.cons_append, skip_cons space] at here
          rw [← (List.cons.inj here).1, blank d List.mem_cons_self] at visible
          cases visible

/-- The grammar reads the property map of a segment as it is written, and the bracket behind it
closes the segment.
-/
theorem Matches.propertiesRead (matched : segment.Matches blanks rest)
    (reads : DetailReads detail (skip (segment.body blanks)) second third middle)
    (closed : skip middle = ']' :: behind) (ends : skip third = segment.ending blanks)
    : segment.PropertiesRead detail.properties ∧ behind = segment.right := by
  have blank := matched.blank
  simp only [List.forall_mem_cons] at blank
  obtain ⟨-, -, -, -, -, -, -, beforeEnd, -⟩ := blank
  rcases Parser.optional_eq_ok reads.properties with ⟨entries, same, found⟩ | ⟨same, rfl⟩
  · obtain ⟨tail, after, opens, rfl, last, inside, there⟩ := between_eq_ok found
    obtain ⟨text, rfl, again⟩ :=
      (mapEntries_inside expression_tame).between '\x7b' (isClosing_of_mem '\x7d' (by decide))
        inside there
    cases written : segment.properties with
    | none =>
        rw [ends, ending, written] at opens
        cases opens
    | some map =>
        obtain ⟨inner, rfl, apart⟩ := matched.properties map written
        have noBrace : '\x7d' ∉ blanks.beforeEnd ++ ']' :: segment.right := by
          intro member
          rcases List.mem_append.mp member with inside | later
          · exact absurd (beforeEnd _ inside) (by decide)
          · rcases matched.right with right | ⟨right, -⟩ <;> rw [right] at later <;> simp at later
        have whole : inner ++ '\x7d' :: (blanks.beforeEnd ++ ']' :: segment.right)
            = text ++ '\x7d' :: after := by
          rw [ends, ending, written] at opens
          simpa using opens
        obtain ⟨rfl, -, rfl⟩ := (List.append_cons_inj_of_notMem apart noBrace).mp whole
        refine ⟨.inr ⟨inner, entries, written, same, again⟩, ?_⟩
        rw [skip_skip] at closed
        exact (eq_of_skip_blank beforeEnd (by decide) closed).symm
  · rw [closed, ending] at ends
    cases written : segment.properties with
    | none =>
        rw [written] at ends
        exact ⟨.inl ⟨written, same⟩, (List.cons.inj ends).2⟩
    | some map =>
        obtain ⟨inner, rfl, -⟩ := matched.properties map written
        rw [written] at ends
        cases ends

/-- What a hop has between its brackets behind its types, from the properties on. -/
def hopEnding (segment : Segment) (after : List Char) : List Char :=
  segment.properties.elim [] (' ' :: ·) ++ ']' :: after

theorem PropertiesRead.optional {properties : Properties}
    (reads : segment.PropertiesRead properties)
    (after : List Char)
    : (∀ c ∈ (segment.hopEnding after).head?, c = ' ' ∨ c = ']')
      ∧ Next ['\x7b', ']'] (segment.hopEnding after)
      ∧ ∃ place,
          (mapLiteral expression).optional (skip (segment.hopEnding after)) = .ok properties place
          ∧ skip place = ']' :: after := by
  rcases reads with ⟨written, rfl⟩ | ⟨inner, entries, written, rfl, again⟩
  · have same : segment.hopEnding after = ']' :: after := by rw [hopEnding, written]; rfl
    have here : skip (segment.hopEnding after) = ']' :: after := by rw [same, skip_cons (by decide)]
    have noMap : (mapLiteral expression).Rejects (skip (segment.hopEnding after)) := by
      refine (mark_rejects ?_).bind
      rw [skip_skip, here]
      exact lacks_cons (by decide)
    exact ⟨by simp [same], ⟨']', by rw [here]; rfl, by simp⟩,
      _, Parser.optional_of_rejects noMap, by rw [skip_skip, here]⟩
  · have same : segment.hopEnding after = ' ' :: '\x7b' :: (inner ++ '\x7d' :: (']' :: after)) := by
      rw [hopEnding, written]
      simp
    have here : skip (segment.hopEnding after) = '\x7b' :: (inner ++ '\x7d' :: (']' :: after)) := by
      rw [same, skip_space, skip_cons (by decide)]
    exact ⟨by simp [same], ⟨'\x7b', by rw [here]; rfl, by simp⟩,
      _, Parser.optional_of_ok
        (again _ _ ((skip_skip _).trans here)), by rw [skip_skip, skip_cons (by decide)]⟩

theorem TypesRead.optional {names : List String} (reads : segment.TypesRead names)
    {ending : List Char}
    (opens : ∀ c ∈ ending.head?, c = ' ' ∨ c = ']') (next : Next ['\x7b', ']'] ending)
    : Next [':', '\x7b', ']'] (segment.types ++ ending)
      ∧ relationshipTypes (skip (segment.types ++ ending)) = .ok names (skip ending) := by
  rcases reads with ⟨empty, rfl⟩ | ⟨⟨others, colon⟩, again⟩
  · rw [empty, List.nil_append]
    refine ⟨next.mono (by simp), Parser.bind_of_ok
      (Parser.optional_of_rejects (mark_rejects ?_).bind)⟩
    rw [skip_skip]
    exact next.lacks (by decide)
  · have here : skip (segment.types ++ ending) = segment.types ++ ending := by
      rw [colon, List.cons_append, skip_cons (by decide)]
    refine ⟨⟨':', by rw [here, colon]; rfl, by simp⟩, ?_⟩
    have found := again _ ending ((skip_skip _).trans here) (next.lacks (by decide)) opens
    exact Parser.bind_of_ok (Parser.optional_of_ok found)

/-- The right end of a segment is read as the text has it. -/
theorem Matches.right_eq (matched : segment.Matches blanks rest) {head : Bool}
    (read : arrowEnd "->" (skip segment.right) = .ok head [])
    : segment.right = arrowText "->" head ∧ (head = false → Lacks '>' rest) := by
  obtain ⟨tail, here, nothing, -⟩ := arrowEnd_eq_ok read
  rw [skip_skip] at here
  rcases matched.right with right | ⟨right, apart⟩
  · rw [right] at here ⊢
    cases head with
    | true => exact ⟨rfl, nofun⟩
    | false =>
        cases here
        cases nothing
  · rw [right] at here ⊢
    cases head with
    | true => cases here
    | false =>
        refine ⟨rfl, fun _ head => ?_⟩
        obtain ⟨more, rfl⟩ := List.head?_eq_some_iff.mp head
        exact apart more rfl

/-- A segment that is an anonymous relationship with a range to the grammar is read as one where it
stands, and what is written for each of its hops is read as the relationship of one hop.
-/
theorem Matches.exists_relationship (matched : segment.Matches blanks rest)
    (reads : segment.ranges = [detail]) (unquoted : Unquoted segment.types)
    : ∃ relationship,
        relationship.detail = detail
        ∧ relationshipPattern (segment.pattern ++ rest) = .ok relationship (skip rest)
        ∧ ∀ after,
            Lacks '>' after
            → relationshipPattern (segment.hop ++ after)
              = .ok relationship.oneHop (skip after) := by
  obtain ⟨anonymous, second, third, middle, behind, inside, reads, closed, star, ends, leftHead,
    rightHead, left, right⟩ := matched.reads_of_ranges reads unquoted
  have typed := matched.typesRead anonymous reads star
  obtain ⟨mapped, rfl⟩ := matched.propertiesRead reads closed ends
  obtain ⟨text, whole, again⟩ :=
    detailInside_inside.between '[' (isClosing_of_mem ']' (by decide)) inside closed
  obtain ⟨arrow, apart⟩ := matched.right_eq right
  refine ⟨.assembled leftHead (some detail) rightHead, rfl, ?_, fun after lacks => ?_⟩
  · have read := assembled_read _ (relationshipDetail_eq ▸ again) leftHead rightHead apart
    rw [matched.pattern_eq, whole, left, arrow]
    simpa using read
  · have written (other after : List Char)
        (opens : skip other = '[' :: (segment.types ++ segment.hopEnding after))
        : relationshipDetail other = .ok { detail with length := none } (skip after) := by
      obtain ⟨head, next, place, properties, closed⟩ := mapped.optional after
      obtain ⟨first, types⟩ := typed.optional head next
      exact relationshipDetail_of_parts opens first types next properties closed reads.anonymous
    have read := assembled_read (segment.types ++ segment.properties.elim [] (' ' :: ·))
      (fun other after opens => written other after (by simpa [hopEnding] using opens)) leftHead
      rightHead fun _ => lacks
    rw [hop, matched.typesEnd, left, arrow]
    refine Eq.trans (congrArg relationshipPattern ?_) read
    simp

end Segment

end CypherSql.Expansion
