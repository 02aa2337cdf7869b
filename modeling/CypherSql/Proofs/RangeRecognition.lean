import CypherSql.Proofs.Expansion.Alignment
import CypherSql.Proofs.Expansion.Trails
import CypherSql.Proofs.HopVariants

/-! Relationships with a hop range as the text shows them and as the grammar reads them.
-/

namespace CypherSql.Expansion

open Cypher

/-- What the segments outside of quotes are to the grammar, from the left. -/
def recognized : Quoting → List (List Char × Segment) → List RelationshipDetail
  | _, [] => []
  | place, (gap, segment) :: parts =>
      (match place.behind gap with
        | .outside => segment.ranges
        | _ => [])
        ++ recognized (place.behind (gap ++ segment.pattern)) parts

section Matches

variable {parts : List (List Char × Segment)} {s tail : List Char}

/-- A segment that is read by itself opens the relationship that it is read as, whatever follows it.
-/
theorem Segment.sublist_rangesFrom (segment : Segment) (after : List Char)
    : (segment.ranges ++ rangesFrom (Quoting.behind segment.pattern .outside) after).Sublist
        (rangesFrom .outside (segment.pattern ++ after)) := by
  unfold Segment.ranges
  split
  · rename_i relationship read
    obtain ⟨text, found, split, opens, same⟩ := relationshipPattern_collects _ _ _ read
    rw [List.append_nil] at split
    rw [split, opens.opened, show Quoting.behind text .outside = .outside from opens.unquoted,
      show relationship.detail.ranges = found from same]
  · obtain ⟨before, same⟩ := exists_rangesFrom_append .outside segment.pattern after
    rw [same]
    exact List.sublist_append_right before _

/-- What is recognized opens in the text, in this order. -/
theorem recognized_sublist (leftmost : LeftmostMatches s parts tail) (place : Quoting)
    : (recognized place parts).Sublist (rangesFrom place s) := by
  induction leftmost generalizing place with
  | done => exact List.nil_sublist _
  | @found gap text rest segment parts tail none here later ih =>
      obtain ⟨rfl, -⟩ := here
      obtain ⟨before, same⟩ := exists_rangesFrom_append place gap (segment.pattern ++ rest)
      have behind := ih (place.behind (gap ++ segment.pattern))
      rw [Quoting.behind_append] at behind
      rw [same, recognized, Quoting.behind_append]
      refine List.Sublist.trans ?_ (List.sublist_append_right before _)
      split
      · rename_i outside
        rw [outside] at behind ⊢
        exact ((List.Sublist.refl _).append behind).trans (segment.sublist_rangesFrom rest)
      · obtain ⟨inside, more⟩ := exists_rangesFrom_append (place.behind gap) segment.pattern rest
        rw [more]
        exact behind.trans (List.sublist_append_right inside _)

end Matches

section Layouts

variable {parts : List (List Char × Segment)} {s tail gap text rest : List Char} {segment : Segment}

theorem Segment.exists_of_ranges {detail : RelationshipDetail} (reads : segment.ranges = [detail])
    : detail.isRanged ∧ Unquoted segment.pattern := by
  unfold Segment.ranges at reads
  split at reads
  · rename_i relationship read
    obtain ⟨text, found, split, opens, -⟩ := relationshipPattern_collects _ _ _ read
    rw [List.append_nil] at split
    rw [RelationshipDetail.ranges] at reads
    split at reads
    · rename_i ranged
      obtain rfl := List.singleton_inj.mp reads
      exact ⟨ranged, split ▸ opens.unquoted⟩
    · cases reads
  · cases reads

theorem Segment.length_ranges_le (segment : Segment) : segment.ranges.length ≤ 1 := by
  unfold Segment.ranges RelationshipDetail.ranges
  split
  · split <;> simp
  · simp

/-- A relationship is recognized in each segment at most. -/
theorem length_recognized_le (place : Quoting) (parts : List (List Char × Segment))
    : (recognized place parts).length ≤ parts.length := by
  induction parts generalizing place with
  | nil => exact Nat.le_refl 0
  | cons part parts ih =>
      have later := ih (place.behind (part.1 ++ part.2.pattern))
      have first := part.2.length_ranges_le
      rw [recognized, List.length_append, List.length_cons]
      split
      · omega
      · rw [List.length_nil]
        omega

/-- Where a relationship is recognized in every segment, it is in the first and in the others. -/
theorem recognized_cons
    (all : (recognized .outside ((gap, segment) :: parts)).length
      = ((gap, segment) :: parts).length)
    : Unquoted gap
      ∧ (recognized .outside parts).length = parts.length
      ∧ ∃ detail,
          segment.ranges = [detail]
          ∧ recognized .outside ((gap, segment) :: parts)
            = detail :: recognized .outside parts := by
  have one := segment.length_ranges_le
  have fewer := length_recognized_le (Quoting.behind (gap ++ segment.pattern) .outside) parts
  rw [recognized, List.length_append, List.length_cons] at all
  split at all
  · rename_i outside
    obtain ⟨detail, reads⟩ := List.length_eq_one_iff.mp (show segment.ranges.length = 1 by omega)
    have closed : Quoting.behind (gap ++ segment.pattern) .outside = .outside :=
      Unquoted.append outside (Segment.exists_of_ranges reads).2
    rw [closed, reads, List.length_singleton] at all
    refine ⟨outside, by omega, detail, reads, ?_⟩
    rw [recognized, closed, outside, reads]
    rfl
  · rw [List.length_nil] at all
    omega

/-- The head of an arrow before a match is part of it. -/
theorem getLast?_ne_of_leftmost
    (none
      : ∀ before after,
          gap = before ++ after
          → after ≠ []
          → ∀ other rest, ¬Segment.MatchesAt other (after ++ text) rest)
    (here : segment.MatchesAt text rest) (left : segment.left = ['-'])
    : gap.getLast? ≠ some '<' := by
  intro last
  obtain ⟨before, rfl⟩ := List.getLast?_eq_some_iff.mp last
  obtain ⟨rfl, blanks, matched⟩ := here
  refine none before ['<'] rfl (List.cons_ne_nil _ _)
    { segment with left := ['<', '-'], pattern := '<' :: segment.pattern } rest ⟨rfl, blanks, ?_⟩
  exact { matched with
    pattern := by
      rw [matched.pattern, Segment.text, left]
      rfl
    left := .inl rfl }

theorem Segment.Matches.isSite {blanks : Blanks} {relationship : RelationshipPattern} {head : Bool}
    (matched : segment.Matches blanks rest) (left : segment.left = arrowText "<-" head)
    (unquoted : Unquoted segment.pattern) (ranged : relationship.detail.isRanged)
    (read : relationshipPattern (segment.pattern ++ rest) = .ok relationship (skip rest))
    : Layout.IsSite relationship segment.pattern rest := by
  have pattern : segment.pattern = arrowText "<-" head ++ '[' :: segment.body blanks :=
    left ▸ matched.pattern_eq
  have rightEnd : IsSign segment.right := by
    rcases matched.right with right | ⟨right, -⟩ <;> rw [right] <;> decide
  have leftEnd : IsSign (arrowText "<-" head) := isSign_arrowText (by decide)
  have trimmed : Trimmed segment.pattern := by
    have whole := leftEnd.trimmed.append rightEnd.trimmed
      ('[' :: (segment.opening blanks ++ '*' :: (segment.afterStar blanks ++ [']'])))
    rw [pattern, Segment.body]
    simpa using whole
  exact ⟨trimmed, read, ranged, unquoted, head, [], _, pattern, List.forall_mem_nil _⟩

/-- What is found in a text is laid out in it, if all of it is recognized. -/
theorem exists_layout (leftmost : LeftmostMatches s parts tail)
    (all : (recognized .outside parts).length = parts.length)
    (unquoted : ∀ part ∈ parts, Unquoted part.2.types)
    : ∃ layout : Layout,
        layout.source = s
        ∧ layout.Sited []
        ∧ layout.Tight
        ∧ layout.sites = recognized .outside parts
        ∧ ∀ counts,
            counts.length = parts.length
            → (∀ count ∈ counts, 1 ≤ count)
            → ∃ chains, chains.map Prod.snd = counts ∧ layout.Fills chains
              (rewritten tail parts counts) := by
  induction leftmost with
  | @done s none =>
      refine ⟨.last s, rfl, trivial, trivial, rfl, fun counts length _ => ⟨[], ?_, ?_⟩⟩
      · exact (List.length_eq_zero_iff.mp length).symm
      · rw [List.length_eq_zero_iff.mp length]
        exact .last
  | @found gap text rest segment parts tail none here later ih =>
      -- A `<` right before would belong to the match, which starts as far left as it can.
      have nothing := @getLast?_ne_of_leftmost gap text rest segment none here
      obtain ⟨rfl, blanks, matched⟩ := here
      obtain ⟨first, others⟩ := List.forall_mem_cons.mp unquoted
      obtain ⟨outside, further, detail, reads, same⟩ := recognized_cons all
      obtain ⟨layout, rfl, sited, tight, sites, fills⟩ := ih further others
      obtain ⟨relationship, rfl, read, hop⟩ := matched.exists_relationship reads first
      obtain ⟨ranged, quiet⟩ := Segment.exists_of_ranges reads
      obtain ⟨head, left⟩ : ∃ head, segment.left = arrowText "<-" head := by
        rcases matched.left with left | left
        · exact ⟨true, left⟩
        · exact ⟨false, left⟩
      have pattern : segment.pattern = arrowText "<-" head ++ '[' :: segment.body blanks :=
        left ▸ matched.pattern_eq
      refine ⟨.site gap segment.pattern relationship layout, rfl, ⟨outside, ?_, sited⟩,
        ⟨?_, tight⟩, ?_, ?_⟩
      · rw [List.append_nil]
        exact matched.isSite left quiet ranged read
      · exact ⟨head, _, pattern, fun headless => nothing (by rw [left, headless]; rfl)⟩
      · rw [same, ← sites]
        rfl
      · intro counts length positive
        cases counts with
        | nil => cases length
        | cons count counts =>
            obtain ⟨some, positive⟩ := List.forall_mem_cons.mp positive
            obtain ⟨chains, rfl, filled⟩ := fills counts (Nat.succ.inj length) positive
            refine ⟨(segment.hop, count) :: chains, rfl, ?_⟩
            rw [rewritten, List.append_assoc, ← Segment.hop_eq_hopText]
            refine .site ⟨?_, hop⟩ some filled
            rw [pattern, Segment.hop, left]
            cases head
            · exact ⟨'-', rfl, rfl, by decide⟩
            · exact ⟨'<', rfl, rfl, by decide⟩

end Layouts

/-- The bounds of a relationship with a range, where an open one is one hop or a given number. -/
def boundsOf (maxHops : Nat) (detail : RelationshipDetail) : Nat × Nat :=
  detail.length.elim (1, 1) fun range => (range.least.getD 1, range.most.getD maxHops)

section Texts

variable {parts : List (List Char × Segment)} {s tail : List Char} {maxHops : Nat}

/-- Where a relationship is recognized in every segment, the segments offer the bounds of these. -/
theorem offerAll_of_recognized (leftmost : LeftmostMatches s parts tail)
    (all : (recognized .outside parts).length = parts.length)
    (unquoted : ∀ part ∈ parts, Unquoted part.2.types)
    (ordered : ∀ range ∈ (recognized .outside parts).map (boundsOf maxHops),
      1 ≤ range.1 ∧ range.1 ≤ range.2)
    : OfferAll maxHops parts ((recognized .outside parts).map (boundsOf maxHops)) := by
  induction leftmost with
  | done => exact .nil
  | @found gap text rest segment parts tail none here later ih =>
      obtain ⟨-, blanks, matched⟩ := here
      obtain ⟨first, others⟩ := List.forall_mem_cons.mp unquoted
      obtain ⟨-, further, detail, reads, same⟩ := recognized_cons all
      rw [same, List.map_cons] at ordered ⊢
      obtain ⟨positive, ordered⟩ := List.forall_mem_cons.mp ordered
      obtain ⟨anonymous, range, length, written⟩ := matched.range_of_ranges reads first
      have bounds : boundsOf maxHops detail = (range.least.getD 1, range.most.getD maxHops) := by
        rw [boundsOf, length, Option.elim_some]
      refine .cons ⟨anonymous, ?_, positive.1, positive.2⟩ (ih further others ordered)
      rw [bounds]
      exact written maxHops

/-- Where the segments are the relationships of a query with a range, they are written out in each
choice of hop counts within the bounds of these.
-/
theorem expand_of_recognized {limits : Limits} {source : String} {details : List RelationshipDetail}
    (leftmost : LeftmostMatches source.toList parts tail)
    (among : (recognized .outside parts).Sublist details)
    (all : (recognized .outside parts).length = parts.length) (many : parts.length = details.length)
    (unquoted : ∀ part ∈ parts, Unquoted part.2.types)
    (ordered : ∀ range ∈ details.map (boundsOf limits.maxHops), 1 ≤ range.1 ∧ range.1 ≤ range.2)
    (few : choiceCount (details.map (boundsOf limits.maxHops)) ≤ limits.maxVariants)
    : expand limits source
      = .ok ((hopChoices (details.map (boundsOf limits.maxHops))).map fun counts =>
          String.ofList (rewritten tail parts counts)) := by
  obtain rfl := among.eq_of_length (all.trans many)
  have offers := offerAll_of_recognized leftmost all unquoted ordered
  exact (expand_of_offerAll leftmost offers).trans (if_neg fun more => Nat.not_le_of_lt more.1 few)

end Texts

/-- What is found in a text are the anonymous relationships of a query with a range and nothing
else, and no quotes open in their types.
-/
structure FindsAll (query : Query) (parts : List (List Char × Segment)) : Prop where
  recognized : (recognized .outside parts).length = parts.length
  complete : parts.length = (rangesOf query.relationships).length
  unquoted : ∀ part ∈ parts, Unquoted part.2.types

instance (query : Query) (parts : List (List Char × Segment)) : Decidable (FindsAll query parts) :=
  decidable_of_iff
    ((Expansion.recognized .outside parts).length = parts.length
      ∧ parts.length = (rangesOf query.relationships).length
      ∧ ∀ part ∈ parts, Unquoted part.2.types)
    ⟨fun ⟨recognized, complete, unquoted⟩ => ⟨recognized, complete, unquoted⟩,
      fun finds => ⟨finds.recognized, finds.complete, finds.unquoted⟩⟩

/-- The text with hop counts for what is found in it is read as the query with its relationships
written out in as many hops, if none of its paths becomes too long.
-/
theorem parse_rewritten {source : String} {query : Query} {parts : List (List Char × Segment)}
    {tail : List Char} (parsed : Query.parse source = .ok query)
    (leftmost : LeftmostMatches source.toList parts tail) (finds : FindsAll query parts)
    {counts : List Nat}
    (length : counts.length = parts.length) (positive : ∀ count ∈ counts, 1 ≤ count)
    (short : (query.written counts).IsShort)
    : Query.parse (String.ofList (rewritten tail parts counts)) = .ok (query.written counts) := by
  obtain ⟨layout, same, sound, sites, again⟩ := layout_of_parse parsed
  obtain ⟨other, same', sited', tight, sites', fills⟩ :=
    exists_layout leftmost finds.recognized finds.unquoted
  obtain ⟨sited, nodes⟩ := sound.sited
  have opened : (rangeTails .outside source.toList).length = parts.length := by
    rw [length_rangeTails, rangesFrom_of_parse parsed, finds.complete]
  have brackets : layout.brackets [] = other.brackets [] := by
    have first := sited.brackets_sublist
    have second := sited'.brackets_sublist
    rw [List.append_nil, same] at first
    rw [List.append_nil, same'] at second
    have lengthFirst : (layout.brackets []).length = parts.length := by
      rw [Layout.length_brackets, sites, finds.complete]
    have lengthSecond : (other.brackets []).length = parts.length := by
      rw [Layout.length_brackets, sites', finds.recognized]
    exact (first.eq_of_length (lengthFirst.trans opened.symm)).trans
      (second.eq_of_length (lengthSecond.trans opened.symm)).symm
  obtain rfl := sited.unique sited' nodes tight (by rw [same, same']) brackets
  obtain ⟨chains, rfl, filled⟩ := fills counts length positive
  exact again chains _ filled short

/-- The texts of a query, one for each choice of hop counts within some bounds, are read as the
query with its relationships written out in as many hops, if none of its paths becomes too long.
-/
theorem forall_parse_rewritten {source : String} {query : Query}
    {parts : List (List Char × Segment)}
    {tail : List Char} (parsed : Query.parse source = .ok query)
    (leftmost : LeftmostMatches source.toList parts tail) (finds : FindsAll query parts)
    {ranges : List (Nat × Nat)} (many : parts.length = ranges.length)
    (positive : ∀ range ∈ ranges, 1 ≤ range.1)
    : List.Forall₂
        (fun counts text => (query.written counts).IsShort → Query.parse text = .ok
          (query.written counts))
        (hopChoices ranges)
        ((hopChoices ranges).map fun counts => String.ofList (rewritten tail parts counts)) := by
  refine List.forall₂_map_right_iff.mpr (List.forall₂_same.mpr fun counts chosen short => ?_)
  have within : Within counts ranges := mem_hopChoices.mp chosen
  exact parse_rewritten parsed leftmost finds (within.length_eq.trans many.symm)
    (within.positive positive) short

/-- Where the anonymous relationships of a query with a range are all that the expansion finds,
there is a text for each choice of hop counts within their bounds, and each that is not too long is
read as the query with the relationships written out in as many hops.
-/
theorem exists_texts {limits : Limits} {source : String} {query : Query}
    {parts : List (List Char × Segment)}
    {tail : List Char} (parsed : Query.parse source = .ok query)
    (leftmost : LeftmostMatches source.toList parts tail) (finds : FindsAll query parts)
    (ordered : ∀ range ∈ (rangesOf query.relationships).map (boundsOf limits.maxHops),
      1 ≤ range.1 ∧ range.1 ≤ range.2)
    (few : choiceCount ((rangesOf query.relationships).map (boundsOf limits.maxHops))
      ≤ limits.maxVariants)
    : ∃ texts,
        expand limits source = .ok texts
        ∧ texts.length = choiceCount ((rangesOf query.relationships).map (boundsOf limits.maxHops))
        ∧ List.Forall₂
            (fun counts text =>
              (query.written counts).IsShort → Query.parse text = .ok (query.written counts))
            (hopChoices ((rangesOf query.relationships).map (boundsOf limits.maxHops))) texts := by
  have among := recognized_sublist leftmost .outside
  rw [rangesFrom_of_parse parsed] at among
  refine ⟨_, expand_of_recognized leftmost among finds.recognized finds.complete
    finds.unquoted ordered few, ?_, forall_parse_rewritten parsed leftmost finds ?_
      fun range member => (ordered range member).1⟩
  · rw [List.length_map, length_hopChoices]
    rfl
  · rw [finds.complete, List.length_map]

/-- In a query that is read, the anonymous relationships with a range of hops are exactly what opens
as such outside of quotes, in the order of the text, and what the expansion recognizes there is
among them. Where the query has none, it expands to itself exactly if a relationship is recognized
in all that the expansion finds, and then that is nothing. Where they are all that the expansion
finds, it has a text for each choice of hop counts within their bounds, if these are in order and
allow for no more texts than there may be, and each text whose paths are not too long is read as the
query with the relationships written out in as many hops.
-/
theorem expand_agrees_with_grammar {limits : Limits} {source : String} {query : Query}
    {parts : List (List Char × Segment)} {tail : List Char}
    (parsed : Query.parse source = .ok query)
    (leftmost : LeftmostMatches source.toList parts tail)
    : rangesFrom .outside source.toList = rangesOf query.relationships
      ∧ (recognized .outside parts).Sublist (rangesOf query.relationships)
      ∧ ((∀ relationship ∈ query.relationships, relationship.length = none)
        → (expand limits source = .ok [source] ↔ (recognized .outside parts).length = parts.length))
      ∧ (FindsAll query parts
        → (∀ range ∈ (rangesOf query.relationships).map (boundsOf limits.maxHops),
            1 ≤ range.1 ∧ range.1 ≤ range.2)
        → choiceCount ((rangesOf query.relationships).map (boundsOf limits.maxHops))
          ≤ limits.maxVariants
        → ∃ texts,
            expand limits source = .ok texts
            ∧ texts.length = choiceCount
              ((rangesOf query.relationships).map (boundsOf limits.maxHops))
            ∧ List.Forall₂
                (fun counts text =>
                  (query.written counts).IsShort → Query.parse text = .ok (query.written counts))
                (hopChoices ((rangesOf query.relationships).map (boundsOf limits.maxHops)))
                texts) := by
  have opened := rangesFrom_of_parse parsed
  have among := recognized_sublist leftmost .outside
  rw [opened] at among
  refine ⟨opened, among, fun fixed => ?_, exists_texts parsed leftmost⟩
  have nothing : rangesOf query.relationships = [] := by
    refine List.flatMap_eq_nil_iff.mpr fun relationship member => if_neg ?_
    rw [RelationshipDetail.isRanged,
      show relationship.detail.length = none from fixed relationship member]
    simp
  rw [nothing] at among
  obtain ⟨read, scan, rfl⟩ := leftmost.exists_scan
  rw [expand_eq_self_iff scan, List.eq_nil_of_sublist_nil among, trimmedParts, List.length_map]
  exact ⟨fun none => by rw [none]; rfl, fun same => List.length_eq_zero_iff.mp same.symm⟩

/-- A relationship with two choices of hop counts, in a text with a list and a star besides. -/
def friendsOfFriends : String :=
  "MATCH (a)<-[:T*1..2 \x7bsince: 3\x7d]-(b) WHERE a.age IN [1, 2 * 3] RETURN a"

/-- Both texts of it are read as the query with one hop and with two. -/
theorem friendsOfFriends_twoTexts
    : ∃ query,
        Query.parse friendsOfFriends = .ok query
        ∧ (rangesOf query.relationships).map (boundsOf 8) = [(1, 2)]
        ∧ ∃ texts,
            expand ⟨8, 64⟩ friendsOfFriends = .ok texts
            ∧ texts.length = 2
            ∧ List.Forall₂ (fun counts text => Query.parse text = .ok (query.written counts))
              [[1], [2]] texts := by
  have leftmost := (Scan.of_cut friendsOfFriends.toList).leftmostMatches
  have reached : ((Query.parse friendsOfFriends).toOption.any fun query =>
      decide (FindsAll query (trimmedParts (cut friendsOfFriends.toList).parts))
      && (rangesOf query.relationships).map (boundsOf 8) == [(1, 2)]
      && [[1], [2]].all fun counts => decide (query.written counts).IsShort) = true := by
    rw [Query.toOption_parse, friendsOfFriends, String.toList_ofList]
    decide +kernel
  cases parsed : Query.parse friendsOfFriends with
  | error trace =>
      rw [parsed] at reached
      cases reached
  | ok query =>
      rw [parsed] at reached
      simp only [Except.toOption, Option.any_some, Bool.and_eq_true, decide_eq_true_eq, beq_iff_eq,
        List.all_eq_true] at reached
      obtain ⟨⟨finds, bounds⟩, short⟩ := reached
      have agrees := (@expand_agrees_with_grammar ⟨8, 64⟩ _ _ _ _ parsed leftmost).2.2.2 finds
      rw [bounds] at agrees
      obtain ⟨texts, expanded, length, read⟩ := agrees (by decide) (by decide)
      rw [show hopChoices [(1, 2)] = [[1], [2]] by decide] at read
      obtain _ | ⟨first, _ | ⟨second, _ | _⟩⟩ := read
      exact ⟨query, rfl, bounds, _, expanded, length,
        .cons (first (short [1] (by decide))) (.cons (second (short [2] (by decide))) .nil)⟩

/-- What is found between quotes is written out all the same, though the query has no relationship.
-/
theorem quotedRange_not_expanded_to_itself
    : ∃ query,
        Query.parse "RETURN '-[*2]-' AS x" = .ok query
        ∧ query.relationships = []
        ∧ expand ⟨8, 64⟩ "RETURN '-[*2]-' AS x" = .ok ["RETURN '-[]-()-[]-' AS x"]
        ∧ expand ⟨8, 64⟩ "RETURN '-[*2]-' AS x" ≠ .ok ["RETURN '-[*2]-' AS x"] := by
  have reached : ((Query.parse "RETURN '-[*2]-' AS x").toOption.any fun query =>
      query.relationships.isEmpty) = true := by
    rw [Query.toOption_parse, String.toList_ofList]
    decide +kernel
  have written : expand ⟨8, 64⟩ "RETURN '-[*2]-' AS x" = .ok ["RETURN '-[]-()-[]-' AS x"] := by
    decide +kernel
  cases parsed : Query.parse "RETURN '-[*2]-' AS x" with
  | error trace =>
      rw [parsed] at reached
      cases reached
  | ok query =>
      rw [parsed] at reached
      refine ⟨query, rfl, List.isEmpty_iff.mp reached, written, ?_⟩
      rw [written]
      decide

end CypherSql.Expansion
