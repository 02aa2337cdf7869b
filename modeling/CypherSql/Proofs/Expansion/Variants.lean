import CypherSql.Proofs.Expansion.Segments
import Mathlib.Algebra.BigOperators.Group.List.Basic

/-! The texts that a query with variable-length relationships stands for: one for each choice of
hop counts within the ranges that its segments span.
-/

namespace CypherSql.Expansion

/-- An anonymous segment spans the hop counts from `least` to `most`, of which zero is none. An open
bound is one hop or the given maximum.
-/
structure Segment.Spans (maxHops : Nat) (segment : Segment) (least most : Nat) : Prop where
  anonymous : segment.name = none
  range
    : ∃ low high,
        segment.bound segment.least = .ok low
        ∧ segment.bound segment.most.join = .ok high
        ∧ Segment.bounds maxHops low (segment.most.map fun _ => high) = (least, most)
  positive : 1 ≤ least
  ordered : least ≤ most

/-- A segment can be written out exactly if it spans a range. -/
theorem Segment.chain_eq_ok_iff {maxHops : Nat} {segment : Segment} {chain : Chain}
    : segment.chain maxHops = .ok chain
      ↔ segment.Spans maxHops chain.least chain.most ∧ chain.hop = segment.hop := by
  constructor
  · intro written
    cases named : segment.name with
    | some name =>
        simp only [Segment.chain, named] at written
        cases written
    | none =>
        simp only [Segment.chain, named] at written
        obtain ⟨low, lowRead, written⟩ := Plan.bind_eq_ok.mp written
        obtain ⟨high, highRead, written⟩ := Plan.bind_eq_ok.mp written
        split at written
        · cases written
        split at written
        · cases written
        cases written
        exact ⟨⟨named, ⟨low, high, lowRead, highRead, rfl⟩, by dsimp only; omega,
          by dsimp only; omega⟩, rfl⟩
  · rintro ⟨⟨anonymous, ⟨low, high, lowRead, highRead, same⟩, positive, ordered⟩, hop⟩
    obtain ⟨hop, least, most⟩ := chain
    have nonzero : least ≠ 0 := by
      dsimp only at positive
      omega
    simp only [Segment.chain, anonymous, lowRead, highRead]
    change (if (Segment.bounds maxHops low (segment.most.map fun _ => high)).1 = 0 then _ else _)
      = _
    rw [same, if_neg nonzero, if_neg (Nat.not_lt.mpr ordered), ← hop]
    rfl

/-- The hop counts within some ranges, the first of them varying slowest. -/
def hopChoices : List (Nat × Nat) → List (List Nat)
  | [] => [[]]
  | range :: ranges =>
      (List.range' range.1 (range.2 + 1 - range.1)).flatMap fun count =>
        (hopChoices ranges).map (count :: ·)

/-- The choices are those within the ranges. -/
theorem mem_hopChoices {ranges : List (Nat × Nat)} {counts : List Nat}
    : counts ∈ hopChoices ranges
      ↔ List.Forall₂ (fun count range => range.1 ≤ count ∧ count ≤ range.2) counts ranges := by
  induction ranges generalizing counts with
  | nil => simp [hopChoices]
  | cons range ranges ih =>
      simp only [hopChoices, List.mem_flatMap, List.mem_map, List.mem_range'_1]
      constructor
      · rintro ⟨count, within, more, member, rfl⟩
        exact .cons (by omega) (ih.mp member)
      · rintro (_ | ⟨within, later⟩)
        exact ⟨_, by omega, _, ih.mpr later, rfl⟩

theorem length_hopChoices (ranges : List (Nat × Nat))
    : (hopChoices ranges).length = (ranges.map fun range => range.2 + 1 - range.1).prod := by
  induction ranges with
  | nil => rfl
  | cons range ranges ih => simp [hopChoices, ih]

/-- The choices ascend in the order of words. -/
theorem pairwise_hopChoices (ranges : List (Nat × Nat)) : (hopChoices ranges).Pairwise (· < ·) := by
  induction ranges with
  | nil => simp [hopChoices]
  | cons range ranges ih =>
      rw [hopChoices, List.pairwise_flatMap]
      constructor
      · intro count _
        rw [List.pairwise_map]
        exact ih.imp fun less => List.cons_lt_cons_self.mpr less
      · have ascending : (List.range' range.1 (range.2 + 1 - range.1)).Pairwise (· < ·) :=
          List.pairwise_lt_range'
        refine ascending.imp fun less => ?_
        intro first memberFirst second memberSecond
        obtain ⟨_, _, rfl⟩ := List.mem_map.mp memberFirst
        obtain ⟨_, _, rfl⟩ := List.mem_map.mp memberSecond
        exact List.cons_lt_cons_iff.mpr (.inl less)

/-- The text of a hop of a segment: between the ends of its arrow, in brackets, its types without
the blanks behind them, and its properties after a space, if it has any.
-/
def hopText (segment : Segment) : List Char :=
  let properties := match segment.properties with
    | some text => [' '] ++ text
    | none => []
  segment.left ++ ['['] ++ Text.trimEnd segment.types ++ properties ++ [']'] ++ segment.right

/-- What is written for a hop is its text. -/
theorem Segment.hop_eq_hopText (segment : Segment) : segment.hop = hopText segment := by
  cases properties : segment.properties <;> simp [hop, hopText, properties]

/-- The text of a scan with a number of hops for each of its segments, with anonymous nodes between
the hops.
-/
def rewritten (tail : List Char) : List (List Char × Segment) → List Nat → List Char
  | (gap, segment) :: parts, count :: counts =>
      gap ++ List.intercalate ['(', ')'] (List.replicate count (hopText segment))
        ++ rewritten tail parts counts
  | _, _ => tail

/-- The segments of a scan with the ranges that they span. -/
abbrev SpanAll (maxHops : Nat) (parts : List (List Char × Segment)) (ranges : List (Nat × Nat))
    : Prop :=
  List.Forall₂ (fun part range => part.2.Spans maxHops range.1 range.2) parts ranges

/-- The segments of a scan as chains of given ranges. -/
def chainsOf (parts : List (List Char × Segment)) (ranges : List (Nat × Nat))
    : List (List Char × Chain) :=
  List.zipWith (fun part range => (part.1, ⟨part.2.hop, range.1, range.2⟩)) parts ranges

theorem chains_of_spanAll {maxHops : Nat} {parts : List (List Char × Segment)}
    {ranges : List (Nat × Nat)} (span : SpanAll maxHops parts ranges)
    : chains maxHops parts = .ok (chainsOf parts ranges) := by
  induction span with
  | nil => rfl
  | @cons part range parts ranges spans later ih =>
      obtain ⟨gap, segment⟩ := part
      have chain : segment.chain maxHops = .ok ⟨segment.hop, range.1, range.2⟩ :=
        Segment.chain_eq_ok_iff.mpr ⟨spans, rfl⟩
      simp only [chains, chain, ih]
      rfl

theorem spanAll_of_chains {maxHops : Nat} {parts : List (List Char × Segment)}
    {written : List (List Char × Chain)} (succeeded : chains maxHops parts = .ok written)
    : ∃ ranges, SpanAll maxHops parts ranges ∧ written = chainsOf parts ranges := by
  induction parts generalizing written with
  | nil =>
      cases succeeded
      exact ⟨[], .nil, rfl⟩
  | cons part parts ih =>
      obtain ⟨gap, segment⟩ := part
      obtain ⟨chain, first, succeeded⟩ := Plan.bind_eq_ok.mp succeeded
      obtain ⟨more, later, succeeded⟩ := Plan.bind_eq_ok.mp succeeded
      cases succeeded
      obtain ⟨ranges, span, rfl⟩ := ih later
      obtain ⟨spans, hop⟩ := Segment.chain_eq_ok_iff.mp first
      refine ⟨(chain.least, chain.most) :: ranges, .cons spans span, ?_⟩
      simp [chainsOf, ← hop]

/-- The variants of chains are the choices of hop counts written out. -/
theorem variants_chainsOf {maxHops : Nat} {tail : List Char} {parts : List (List Char × Segment)}
    {ranges : List (Nat × Nat)} (span : SpanAll maxHops parts ranges)
    : variants tail (chainsOf parts ranges) = (hopChoices ranges).map (rewritten tail parts) := by
  induction span with
  | nil => rfl
  | @cons part range parts ranges spans later ih =>
      obtain ⟨gap, segment⟩ := part
      simp only [chainsOf, List.zipWith_cons_cons, variants, hopChoices] at ih ⊢
      simp [ih, List.map_flatMap, Chain.counts, Chain.written, rewritten, Function.comp_def,
        ← Segment.hop_eq_hopText]

theorem variantCount_chainsOf {maxHops : Nat} {parts : List (List Char × Segment)}
    {ranges : List (Nat × Nat)} (span : SpanAll maxHops parts ranges)
    : variantCount ((chainsOf parts ranges).map (·.2))
      = (ranges.map fun range => range.2 + 1 - range.1).prod := by
  rw [variantCount, ← List.prod_eq_foldl]
  congr 1
  induction span with
  | nil => rfl
  | cons spans later ih => simpa [chainsOf] using ih

/-- Segments that span ranges with few enough choices are written out in every choice. -/
theorem expand_of_spanAll {limits : Limits} {source : String} {parts tail}
    (scan : Scan source.toList parts tail) {ranges : List (Nat × Nat)}
    (span : SpanAll limits.maxHops parts ranges)
    (few : parts = [] ∨ (ranges.map fun range => range.2 + 1 - range.1).prod ≤ limits.maxVariants)
    : expand limits source
      = .ok ((hopChoices ranges).map fun counts =>
        String.ofList (rewritten tail parts counts)) := by
  obtain ⟨rfl, rfl⟩ := (Scan.of_cut _).unique scan
  have within
      : ¬(limits.maxVariants < variantCount ((chainsOf (cut source.toList).parts ranges).map (·.2))
          ∧ !(chainsOf (cut source.toList).parts ranges).isEmpty) := by
    rw [variantCount_chainsOf span]
    rintro ⟨many, some⟩
    rcases few with none | few
    · simp [chainsOf, none] at some
    · omega
  simp only [expand, chains_of_spanAll span]
  change (if _ then _ else _) = _
  rw [if_neg within, variants_chainsOf span, List.map_map]
  rfl

/-- An expansion that succeeds writes the segments out in the ranges that they span. -/
theorem spanAll_of_expand {limits : Limits} {source : String} {parts tail}
    (scan : Scan source.toList parts tail) {texts : List String}
    (expanded : expand limits source = .ok texts)
    : ∃ ranges, SpanAll limits.maxHops parts ranges
        ∧ texts = (hopChoices ranges).map fun counts =>
          String.ofList (rewritten tail parts counts) := by
  obtain ⟨rfl, rfl⟩ := (Scan.of_cut _).unique scan
  obtain ⟨written, succeeded, expanded⟩ := Plan.bind_eq_ok.mp expanded
  obtain ⟨ranges, span, rfl⟩ := spanAll_of_chains succeeded
  refine ⟨ranges, span, ?_⟩
  dsimp only at expanded
  split at expanded
  · cases expanded
  · cases expanded
    rw [variants_chainsOf span, List.map_map]
    rfl

/-- One hop or more open with the text of a hop. -/
theorem exists_intercalate_replicate (hop : List Char) {count : Nat} (some : 1 ≤ count)
    : ∃ more, List.intercalate ['(', ')'] (List.replicate count hop) = hop ++ more := by
  obtain ⟨count, rfl⟩ := Nat.exists_eq_add_of_le' some
  cases count with
  | zero => exact ⟨[], by simp [List.intercalate]⟩
  | succ count =>
      exact ⟨['(', ')'] ++ List.intercalate ['(', ')'] (List.replicate (count + 1) hop),
        by simp [List.intercalate, List.replicate_succ]⟩

/-- Up to its property map or its closing bracket a hop has the types only. -/
theorem hopText_eq {segment : Segment} {blanks : Blanks} {rest : List Char}
    (spelled : segment.Spelled blanks rest)
    : ∃ inner stop more,
        hopText segment = segment.left ++ '[' :: inner ++ stop :: more
        ∧ (∀ c ∈ inner, isTypeChar c)
        ∧ isTypeChar stop = false
        ∧ stop ≠ '*' := by
  have types : ∀ c ∈ Text.trimEnd segment.types, isTypeChar c := by
    intro c member
    apply spelled.typeChars
    simpa using (List.dropWhile_sublist _).mem (List.mem_reverse.mp member)
  cases map : segment.properties with
  | none =>
      exact ⟨Text.trimEnd segment.types, ']', segment.right, by simp [hopText, map], types, rfl,
        by decide⟩
  | some text =>
      obtain ⟨inner, rfl, _⟩ := spelled.properties text map
      refine ⟨Text.trimEnd segment.types ++ [' '], '\x7b', inner ++ '\x7d' :: ']' :: segment.right,
        by simp [hopText, map], ?_, rfl, by decide⟩
      intro c member
      rcases List.mem_append.mp member with typed | blank
      · exact types c typed
      · rw [List.mem_singleton.mp blank]
        rfl

/-- A text in which a segment is written out differs from the source at the first segment: where the
source has a star, a hop has its property map or its closing bracket.
-/
theorem rewritten_ne_source {s : List Char} {gap segment parts tail}
    (scan : Scan s ((gap, segment) :: parts) tail) {count : Nat} (some : 1 ≤ count)
    (counts : List Nat)
    : rewritten tail ((gap, segment) :: parts) (count :: counts) ≠ s := by
  cases scan with
  | found none read later =>
      intro same
      obtain ⟨rfl, blanks, spelled⟩ := segment?_eq_some read
      obtain ⟨inner, stop, more, hop, innerChars, stops, notStar⟩ := hopText_eq spelled
      obtain ⟨others, written⟩ := exists_intercalate_replicate (hopText segment) some
      rw [rewritten, written, hop, spelled.pattern, Segment.text] at same
      simp only [List.append_assoc, List.append_cancel_left_eq, List.cons_append,
        List.cons.injEq, true_and] at same
      have dropped := congrArg (List.dropWhile isTypeChar) same
      rw [List.dropWhile_append_of_pos innerChars,
        List.dropWhile_append_of_pos fun c => spelled.isTypeChar_of_mem_opening,
        List.dropWhile_cons_of_neg (by simp [stops]),
        List.dropWhile_cons_of_neg (by decide)] at dropped
      exact notStar (List.cons.inj dropped).1

/-- The least hop counts are among the choices. -/
theorem least_mem_hopChoices {maxHops : Nat} {parts : List (List Char × Segment)}
    {ranges : List (Nat × Nat)} (span : SpanAll maxHops parts ranges)
    : ranges.map (·.1) ∈ hopChoices ranges := by
  rw [mem_hopChoices]
  induction span with
  | nil => exact .nil
  | cons spans later ih => exact .cons ⟨Nat.le_refl _, spans.ordered⟩ ih

/-- A query expands to itself exactly if no segment is found in it. -/
theorem expand_eq_self_iff {limits : Limits} {source : String} {parts tail}
    (scan : Scan source.toList parts tail)
    : expand limits source = .ok [source] ↔ parts = [] := by
  constructor
  · intro expanded
    obtain ⟨ranges, span, texts⟩ := spanAll_of_expand scan expanded
    have member := List.mem_map_of_mem
      (f := fun counts => String.ofList (rewritten tail parts counts)) (least_mem_hopChoices span)
    rw [← texts, List.mem_singleton] at member
    have same := congrArg String.toList member
    rw [String.toList_ofList] at same
    cases span with
    | nil => rfl
    | cons spans later => exact absurd same (rewritten_ne_source scan spans.positive _)
  · rintro rfl
    have same := scan.source_eq
    rw [List.flatMap_nil, List.nil_append] at same
    rw [expand_of_spanAll scan .nil (.inl rfl)]
    simp [hopChoices, rewritten, ← same]

end CypherSql.Expansion
