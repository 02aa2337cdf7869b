import CypherSql.Proofs.Expansion.Ranges
import Mathlib.Data.List.Sort

/-! What the texts of a query with variable-length relationships are: the error of the leftmost
relationship that cannot be written out, or a text for each choice of hop counts, in the order of
words, unless there are too many.
-/

namespace CypherSql.Expansion

/-- The segments of a text with the ranges that they offer. -/
abbrev OfferAll (maxHops : Nat) (parts : List (List Char × Segment)) (ranges : List (Nat × Nat))
    : Prop :=
  List.Forall₂ (fun part range => part.2.Offers maxHops range) parts ranges

/-- Each hop count lies within its range. -/
abbrev Within (counts : List Nat) (ranges : List (Nat × Nat)) : Prop :=
  List.Forall₂ (fun count range => range.1 ≤ count ∧ count ≤ range.2) counts ranges

/-- The product of the sizes of the ranges. -/
def choiceCount (ranges : List (Nat × Nat)) : Nat :=
  (ranges.map fun range => range.2 + 1 - range.1).prod

/-- What becomes of a text with given segments: the error of the first that is refused; an error for
too many choices of hop counts; or the text with the segments written out in every choice, the
choices ascending in the order of words.
-/
inductive Outcome (limits : Limits) (parts : List (List Char × Segment)) (tail : List Char)
    : Except ExpansionError (List String) → Prop
  | refused {before gap segment after error} (split : parts = before ++ (gap, segment) :: after)
    (earlier : ∀ part ∈ before, ∃ range, Segment.Offers limits.maxHops part.2 range)
    (refused : segment.Refused limits.maxHops error)
    : Outcome limits parts tail (.error error)
  | tooMany {ranges} (offers : OfferAll limits.maxHops parts ranges) (nonempty : parts ≠ [])
    (many : limits.maxVariants < choiceCount ranges)
    : Outcome limits parts tail
        (.error
          (.tooManyVariants (min (choiceCount ranges) Number.largestWord64) limits.maxVariants))
  | written {ranges} {choices : List (List Nat)} (offers : OfferAll limits.maxHops parts ranges)
    (few : parts = [] ∨ choiceCount ranges ≤ limits.maxVariants)
    (ascending : choices.Pairwise (· < ·)) (all : ∀ counts, counts ∈ choices ↔ Within counts ranges)
    (length : choices.length = choiceCount ranges)
    : Outcome limits parts tail
        (.ok (choices.map fun counts => String.ofList (rewritten tail parts counts)))

/-- Choices that ascend are determined by their members. -/
theorem eq_hopChoices {ranges : List (Nat × Nat)} {choices : List (List Nat)}
    (ascending : choices.Pairwise (· < ·)) (all : ∀ counts, counts ∈ choices ↔ Within counts ranges)
    : choices = hopChoices ranges :=
  ascending.eq_of_mem_iff (pairwise_hopChoices ranges) fun counts =>
    (all counts).trans mem_hopChoices.symm

theorem Within.positive {counts : List Nat} {ranges : List (Nat × Nat)}
    (within : Within counts ranges)
    (positive : ∀ range ∈ ranges, 1 ≤ range.1)
    : ∀ count ∈ counts, 1 ≤ count := by
  induction within with
  | nil => exact List.forall_mem_nil _
  | cons first _ ih =>
      obtain ⟨least, others⟩ := List.forall_mem_cons.mp positive
      exact List.forall_mem_cons.mpr ⟨least.trans first.1, ih others⟩

theorem chains_trimmed (maxHops : Nat) (parts : List (List Char × Segment))
    : chains maxHops (trimmedParts parts) = chains maxHops parts := by
  induction parts with
  | nil => rfl
  | cons part parts ih =>
      simp only [trimmedParts, List.map_cons, Prod.map, chains, id, Segment.chain_trimmed] at ih ⊢
      rw [ih]

/-- The segments offer the ranges that they are written out in. -/
theorem spanAll_iff_offerAll {maxHops : Nat} {parts : List (List Char × Segment)}
    {ranges : List (Nat × Nat)}
    : SpanAll maxHops parts ranges ↔ OfferAll maxHops parts ranges :=
  ⟨fun span => span.imp fun _ _ => Segment.spans_iff_offers.mp,
    fun offers => offers.imp fun _ _ => Segment.spans_iff_offers.mpr⟩

/-- A segment that offers a range can be written out. -/
theorem exists_chain_iff {maxHops : Nat} {segment : Segment}
    : (∃ chain, segment.chain maxHops = .ok chain) ↔ ∃ range, segment.Offers maxHops range := by
  constructor
  · rintro ⟨chain, written⟩
    exact ⟨_, Segment.spans_iff_offers.mp (Segment.chain_eq_ok_iff.mp written).1⟩
  · rintro ⟨range, offers⟩
    exact ⟨⟨segment.hop, range.1, range.2⟩,
      Segment.chain_eq_ok_iff.mpr ⟨Segment.spans_iff_offers.mpr offers, rfl⟩⟩

theorem chains_cons_eq_error_iff {maxHops : Nat} {gap : List Char} {segment : Segment}
    {parts : List (List Char × Segment)} {error : ExpansionError}
    : chains maxHops ((gap, segment) :: parts) = .error error
      ↔ segment.chain maxHops = .error error
        ∨ (∃ chain, segment.chain maxHops = .ok chain) ∧ chains maxHops parts = .error error := by
  rw [chains]
  cases segment.chain maxHops with
  | error cause => simp [bind, Except.bind]
  | ok chain => cases chains maxHops parts <;> simp [bind, Except.bind, pure, Except.pure]

/-- Writing segments out fails with the error of the first that is refused, by induction over them.
-/
theorem chains_eq_error_iff {maxHops : Nat} {parts : List (List Char × Segment)}
    {error : ExpansionError}
    : chains maxHops parts = .error error
      ↔ ∃ before gap segment after,
          parts = before ++ (gap, segment) :: after
          ∧ (∀ part ∈ before, ∃ range, Segment.Offers maxHops part.2 range)
          ∧ segment.Refused maxHops error := by
  induction parts with
  | nil => simp [chains]
  | cons part parts ih =>
      obtain ⟨gap, segment⟩ := part
      rw [chains_cons_eq_error_iff, Segment.chain_eq_error_iff, exists_chain_iff, ih]
      constructor
      · rintro (refused | ⟨offers, before, gap', refusedOne, after, rfl, earlier, refused⟩)
        · exact ⟨[], gap, segment, parts, rfl, by simp, refused⟩
        · exact ⟨(gap, segment) :: before, gap', refusedOne, after, rfl,
            List.forall_mem_cons.mpr ⟨offers, earlier⟩, refused⟩
      · rintro ⟨before, gap', refusedOne, after, split, earlier, refused⟩
        cases before with
        | nil =>
            obtain ⟨same, -⟩ := List.cons.inj split
            obtain ⟨-, rfl⟩ := Prod.mk.inj same
            exact .inl refused
        | cons part before =>
            obtain ⟨rfl, rfl⟩ := List.cons.inj split
            obtain ⟨offers, earlier⟩ := List.forall_mem_cons.mp earlier
            exact .inr ⟨offers, before, gap', refusedOne, after, rfl, earlier, refused⟩

/-- A text is expanded by writing its leftmost matches out. -/
theorem expand_eq {limits : Limits} {source : String} {parts tail}
    (leftmost : LeftmostMatches source.toList parts tail)
    : expand limits source
      = chains limits.maxHops parts >>= fun written =>
          if limits.maxVariants < variantCount (written.map (·.2)) ∧ !written.isEmpty then
            .error (.tooManyVariants (min (variantCount (written.map (·.2))) Number.largestWord64)
              limits.maxVariants)
          else .ok ((variants tail written).map String.ofList) := by
  obtain ⟨read, scan, rfl⟩ := leftmost.exists_scan
  obtain ⟨rfl, rfl⟩ := (Scan.of_cut _).unique scan
  rw [chains_trimmed]
  simp only [expand]
  cases chains limits.maxHops (cut source.toList).parts with
  | error cause => rfl
  | ok written =>
      change (if _ then _ else _) = (if _ then _ else _)
      split <;> rfl

theorem isEmpty_chainsOf {maxHops : Nat} {parts : List (List Char × Segment)}
    {ranges : List (Nat × Nat)} (offers : OfferAll maxHops parts ranges)
    : (chainsOf parts ranges).isEmpty = parts.isEmpty := by
  cases offers <;> rfl

/-- Where every segment offers a range, the number of choices decides. -/
theorem expand_of_offerAll {limits : Limits} {source : String} {parts tail}
    (leftmost : LeftmostMatches source.toList parts tail) {ranges : List (Nat × Nat)}
    (offers : OfferAll limits.maxHops parts ranges)
    : expand limits source
      = if limits.maxVariants < choiceCount ranges ∧ parts ≠ [] then
          .error
            (.tooManyVariants (min (choiceCount ranges) Number.largestWord64) limits.maxVariants)
        else
          .ok ((hopChoices ranges).map fun counts =>
            String.ofList (rewritten tail parts counts)) := by
  have span := spanAll_iff_offerAll.mpr offers
  have nonempty : (!(chainsOf parts ranges).isEmpty) = true ↔ parts ≠ [] := by
    simp [isEmpty_chainsOf offers]
  rw [expand_eq leftmost, chains_of_spanAll span]
  change (if _ ∧ _ then _ else _) = _
  rw [variantCount_chainsOf span, variants_chainsOf span, List.map_map]
  simp only [nonempty]
  rfl

/-- What the expansion of a text comes to, given its leftmost matches. -/
theorem outcome_iff {limits : Limits} {source : String} {parts tail}
    (leftmost : LeftmostMatches source.toList parts tail)
    {result : Except ExpansionError (List String)}
    : expand limits source = result ↔ Outcome limits parts tail result := by
  constructor
  · rintro rfl
    cases written : chains limits.maxHops parts with
    | error error =>
        obtain ⟨before, gap, segment, after, split, earlier, refused⟩ :=
          chains_eq_error_iff.mp written
        rw [expand_eq leftmost, written]
        exact .refused split earlier refused
    | ok written' =>
        obtain ⟨ranges, span, -⟩ := spanAll_of_chains written
        have offers := spanAll_iff_offerAll.mp span
        rw [expand_of_offerAll leftmost offers]
        split
        · rename_i many
          exact .tooMany offers many.2 many.1
        · rename_i few
          refine .written offers ?_ (pairwise_hopChoices ranges) (fun _ => mem_hopChoices)
            (length_hopChoices ranges)
          rcases Nat.lt_or_ge limits.maxVariants (choiceCount ranges) with many | few'
          · exact .inl (by_contra fun nonempty => few ⟨many, nonempty⟩)
          · exact .inr few'
  · rintro (⟨split, earlier, refused⟩ | ⟨offers, nonempty, many⟩ | ⟨offers, few, ascending, all, -⟩)
    · have fails := chains_eq_error_iff.mpr ⟨_, _, _, _, split, earlier, refused⟩
      rw [expand_eq leftmost, fails]
      rfl
    · rw [expand_of_offerAll leftmost offers, if_pos ⟨many, nonempty⟩]
    · rw [expand_of_offerAll leftmost offers, if_neg, eq_hopChoices ascending all]
      rintro ⟨many, nonempty⟩
      exact few.elim nonempty (Nat.not_le_of_lt many)

/-- A text has one list of leftmost matches, and its expansion is what becomes of them: the error of
the leftmost segment that is refused; where each offers a range and there are any, an error for more
choices of hop counts than allowed, with their number as far as it fits into a word; and else the
text in every choice of hop counts, that of the leftmost segment varying slowest.
-/
theorem expand_eq_iff_outcome {limits : Limits} {source : String}
    {result : Except ExpansionError (List String)}
    : expand limits source = result
      ↔ ∃ parts tail,
          LeftmostMatches source.toList parts tail
          ∧ (∀ parts' tail',
              LeftmostMatches source.toList parts' tail' → parts' = parts ∧ tail' = tail)
          ∧ Outcome limits parts tail result := by
  constructor
  · intro expanded
    have leftmost := (Scan.of_cut source.toList).leftmostMatches
    refine ⟨_, _, leftmost, ?_, (outcome_iff leftmost).mp expanded⟩
    intro parts tail other
    obtain ⟨read, scan, rfl⟩ := other.exists_scan
    obtain ⟨rfl, rfl⟩ := scan.unique (Scan.of_cut _)
    exact ⟨rfl, rfl⟩
  · rintro ⟨parts, tail, leftmost, -, outcome⟩
    exact (outcome_iff leftmost).mpr outcome

/-- A text without a segment has one choice, of no hop counts. It is expanded to itself even where
no text is allowed.
-/
theorem plainText_expands_beyond_limit
    : LeftmostMatches "RETURN 1 AS x".toList [] "RETURN 1 AS x".toList
      ∧ OfferAll 8 [] []
      ∧ (0 : Nat) < choiceCount []
      ∧ expand ⟨8, 0⟩ "RETURN 1 AS x" = .ok ["RETURN 1 AS x"] := by
  have found : (cut "RETURN 1 AS x".toList).parts = []
      ∧ (cut "RETURN 1 AS x".toList).tail = "RETURN 1 AS x".toList := by
    decide +kernel
  have leftmost := (Scan.of_cut "RETURN 1 AS x".toList).leftmostMatches
  rw [found.1, found.2] at leftmost
  refine ⟨leftmost, .nil, by decide, ?_⟩
  rw [expand_of_offerAll leftmost .nil]
  rfl

end CypherSql.Expansion
