import CypherSql.Proofs.Expansion.Collected
import CypherSql.Proofs.Expansion.Layouts
import CypherSql.Proofs.Rereading.Clauses

/-! The text of a query is laid out: each anonymous relationship with a hop range in its paths is a
site, and what else there is in it holds none.
-/

namespace CypherSql.Cypher

open Text

-----------------------------------------------------------------------------------------
-- Nodes and relationships
-----------------------------------------------------------------------------------------

section Hops

variable {source rest : List Char}

/-- What is read again is laid out without relationships. -/
theorem Parser.Rereads.laysOut_collected {α : Type} {p : Parser α} {follows : List Char → Prop}
    {ranges : α → List RelationshipDetail} (rereads : p.Rereads true true follows)
    (collects : p.Collects [] ranges)
    : p.LaysOut .fixed follows :=
  rereads.laysOut fun source value rest read => by
    obtain ⟨taken, found, split, opens, -⟩ := collects source value rest read
    exact ⟨taken, split, opens.unquoted⟩

/-- The text of a node is out of quotes and ends with a parenthesis. It is read again before
anything.
-/
theorem nodePattern_text {node : NodePattern} (read : nodePattern source = .ok node rest)
    : ∃ text tail,
        skip source = text ++ tail
        ∧ rest = skip tail
        ∧ Layout.BehindNode text
        ∧ Solid text
        ∧ Unquoted text
        ∧ ∀ other after, skip other = text ++ after → nodePattern other = .ok node
          (skip after) := by
  obtain ⟨taken, found, split, opens, -⟩ := nodePattern_collects [] source node rest read
  rw [nodePattern_eq] at read ⊢
  obtain ⟨text, tail, here, same, sign, last, again⟩ :=
    between_again (by decide) (isClosing_of_mem ')' (by decide)) nodeInside_inside
      (Parser.within_eq_ok read)
  obtain ⟨before, rfl⟩ := List.getLast?_eq_some_iff.mp last
  refine ⟨_, tail, here, same, ⟨before, [], rfl, by simp⟩, sign.trimmed.solid, ?_, ?_⟩
  · exact unquoted_of_taken here same ⟨taken, split, opens.unquoted⟩
  · exact fun other after opens => Parser.within_of_ok (again other after opens) _

theorem nodePattern_laysOut : nodePattern.LaysOut .fixed fun _ => True :=
  nodePattern_rereads.laysOut_collected (nodePattern_collects [])

theorem nodePattern_next {node : NodePattern} (read : nodePattern source = .ok node rest)
    : Next ['('] source := by
  obtain ⟨_, _, opens, -⟩ := Parser.bind_eq_ok.mp (Parser.within_eq_ok read)
  exact next_of_mark opens

theorem relationshipPattern_skip (source : List Char)
    : relationshipPattern (skip source) = relationshipPattern source := by
  change Parser.bind (arrowEnd "<-") _ (skip source) = Parser.bind (arrowEnd "<-") _ source
  rw [Parser.bind, Parser.bind, arrowEnd, padded_skip]

/-- The text of a relationship with a range, from the end of an arrow and a bracket to the end of an
arrow.
-/
theorem relationshipPattern_site {relationship : RelationshipPattern}
    (read : relationshipPattern source = .ok relationship rest)
    (ranged : relationship.detail.isRanged)
    : ∃ text tail,
        skip source = text ++ tail ∧ rest = skip tail ∧ Layout.IsSite relationship text tail := by
  obtain ⟨taken, found, split, opens, -⟩ :=
    relationshipPattern_collects source relationship rest read
  have again := (relationshipPattern_skip source).trans read
  rw [relationshipPattern_eq] at read
  obtain ⟨head, _, arrow, more⟩ := Parser.bind_eq_ok.mp read
  obtain ⟨behind, here, rfl, -⟩ := arrowEnd_eq_ok arrow
  obtain ⟨detail, place, optional, last⟩ := Parser.bind_eq_ok.mp more
  obtain ⟨right, _, closes, same⟩ := Parser.bind_eq_ok.mp last
  cases same
  obtain ⟨tail, there, rfl, -⟩ := arrowEnd_eq_ok closes
  rcases Parser.optional_eq_ok optional with ⟨detail, rfl, found⟩ | ⟨rfl, -⟩
  · rw [relationshipDetail_eq] at found
    obtain ⟨inner, after, bracket, rfl, middle, inside, closed⟩ := between_eq_ok found
    obtain ⟨between, rfl, -⟩ := Parser.Takes.inside lexical_opensRanges.toJoined
      (detailInside_takes lexical_opensRanges) inside closed
    rw [skip_skip] at bracket there
    obtain ⟨gap, leads, spaces⟩ := exists_skipped behind
    obtain ⟨more, follows, others⟩ := exists_skipped after
    have left : IsSign (arrowText "<-" head) := isSign_arrowText (by decide)
    have last : IsSign (arrowText "->" right) := isSign_arrowText (by decide)
    have whole : skip source
        = arrowText "<-" head ++ (gap ++ '[' :: (between ++ ']' :: more)) ++ arrowText "->" right
            ++ tail := by
      rw [here, leads, bracket, follows, there]
      simp
    refine ⟨_, tail, whole, rfl, ?_, ?_, ranged, ?_, ?_⟩
    · rw [List.append_assoc]
      exact left.trimmed.append last.trimmed _
    · rw [← whole, again]
    · exact unquoted_of_taken whole rfl ⟨taken, split, opens.unquoted⟩
    · exact ⟨head, gap, between ++ ']' :: (more ++ arrowText "->" right), by simp, spaces⟩
  · cases ranged

/-- The node that stands between the hops of a chain. -/
theorem nodePattern_anonymous (rest : List Char)
    : nodePattern ('(' :: ')' :: rest) = .ok .anonymous (skip rest) := by
  have printable : NodePattern.anonymous.Printable := ⟨nofun, nofun, nofun⟩
  exact nodePattern_read printable

end Hops

-----------------------------------------------------------------------------------------
-- Chains
-----------------------------------------------------------------------------------------

/-- A node and the hops behind it. -/
def trail : Parser (NodePattern × List (RelationshipPattern × NodePattern)) := do
  let start ← nodePattern
  let hops ← Parser.many nextHop
  pure (start, hops)

/-- The relationships of a path stand in its hops. -/
def Shape.trail : Shape (NodePattern × List (RelationshipPattern × NodePattern)) where
  sites trail := trail.2.flatMap (·.1.detail.ranges)
  written trail := do
    let hops ← writtenHops trail.2
    pure (trail.1, hops)
  short _ := True

/-- No arrow follows. -/
def Arrowless (after : List Char) : Prop :=
  Lacks '-' (skip after) ∧ Lacks '<' (skip after)

section Chains

variable {source middle rest after text gap : List Char} {start next : NodePattern}
  {relationship : RelationshipPattern} {hop : RelationshipPattern × NodePattern}
  {hops : List (RelationshipPattern × NodePattern)} {counts : List Nat}

theorem trail_iff
    : trail source = .ok (start, hops) rest
      ↔ ∃ middle, nodePattern source = .ok start middle ∧ nextHop.Repeats middle hops rest := by
  have many {middle : List Char} {hops : List (RelationshipPattern × NodePattern)}
      : Parser.many nextHop middle = .ok hops rest ↔ nextHop.Repeats middle hops rest :=
    Parser.many_iff nextHop_advances ⟨_, rfl⟩
  constructor
  · intro read
    obtain ⟨start, middle, found, more⟩ := Parser.bind_eq_ok.mp read
    obtain ⟨hops, _, repeats, same⟩ := Parser.bind_eq_ok.mp more
    cases same
    exact ⟨middle, found, many.mp repeats⟩
  · rintro ⟨middle, found, repeats⟩
    exact (Parser.bind_of_ok found).trans (Parser.bind_of_ok (many.mpr repeats))

theorem nextHop_iff
    : nextHop source = .ok (relationship, next) rest
      ↔ ∃ middle,
          relationshipPattern source = .ok relationship middle
          ∧ nodePattern middle = .ok next rest := by
  constructor
  · intro read
    obtain ⟨relationship, middle, found, more⟩ := Parser.bind_eq_ok.mp read
    obtain ⟨next, _, there, same⟩ := Parser.bind_eq_ok.mp more
    cases same
    exact ⟨middle, found, there⟩
  · rintro ⟨middle, found, there⟩
    exact (Parser.bind_of_ok found).trans (Parser.bind_of_ok there)

theorem nextHop_rejects (arrowless : Arrowless source) : nextHop.Rejects (skip source) := by
  have noEnd : (arrowEnd "<-").Rejects (skip source) := by
    refine padded_rejects (Parser.rejects_choice.mpr ?_)
    rw [skip_skip]
    simp only [List.forall_mem_cons, List.not_mem_nil, false_imp_iff, implies_true, and_true]
    exact ⟨(literally_rejects rfl arrowless.2).bind, (literally_rejects rfl arrowless.1).bind⟩
  exact Parser.Rejects.bind (Parser.Rejects.bind noEnd)

theorem writtenHops_cons
    : writtenHops (hop :: hops)
      = (writtenHop hop >>= fun chain => writtenHops hops >>= fun others =>
          pure (chain ++ others)) := by
  simp [writtenHops, List.mapM_cons]

/-- What is written out of a path is what is written out of its hops. -/
theorem Writes.of_trail {written : NodePattern × List (RelationshipPattern × NodePattern)}
    (writes : Writes (Shape.trail.written (start, hops)) counts written)
    : written.1 = start ∧ Writes (writtenHops hops) counts written.2 := by
  have parts (more : List Nat)
      : (start, (writtenHops hops (counts ++ more)).1) = written
        ∧ (writtenHops hops (counts ++ more)).2 = more :=
    Prod.ext_iff.mp (writes more)
  refine ⟨congrArg Prod.fst (parts []).1.symm, fun more => ?_⟩
  exact Prod.ext (congrArg Prod.snd (parts more).1) (parts more).2

/-- The hops of a chain are read one after the other, by induction over how many there are. -/
theorem chainText_read {pattern hopText : List Char}
    (isHop : Layout.IsHop relationship pattern hopText) (lacks : Lacks '>' after)
    (node : nodePattern (skip after) = .ok next middle) (repeats : nextHop.Repeats middle hops rest)
    (count : Nat)
    : nextHop.Repeats (chainText hopText (count + 1) ++ after)
        (List.replicate count (relationship.oneHop, .anonymous)
          ++ (relationship.oneHop, next) :: hops)
        rest := by
  induction count with
  | zero =>
      rw [Layout.chainText_one]
      exact .more (nextHop_iff.mpr ⟨_, isHop.again after lacks, node⟩) repeats
  | succ count ih =>
      obtain ⟨c, opens, -, noSpace⟩ := isHop.opens
      have here : skip (chainText hopText (count + 1) ++ after)
          = chainText hopText (count + 1) ++ after := by
        obtain ⟨others, whole⟩ := List.head?_eq_some_iff.mp (Layout.head?_chainText opens count)
        rw [whole, List.cons_append, skip_cons noSpace]
      have between : nodePattern (skip ('(' :: ')' :: (chainText hopText (count + 1) ++ after)))
          = .ok .anonymous (chainText hopText (count + 1) ++ after) := by
        rw [skip_cons (by decide), nodePattern_anonymous, here]
      rw [Layout.chainText_succ, List.append_assoc, List.replicate_succ, List.cons_append]
      exact .more (nextHop_iff.mpr ⟨_, isHop.again _ (lacks_cons (by decide)), between⟩) ih

theorem writes_ranged_hop (ranged : relationship.detail.isRanged) (count : Nat)
    : Writes (writtenHop (relationship, next)) [count + 1]
        (List.replicate count (relationship.oneHop, .anonymous)
          ++ [(relationship.oneHop, next)]) := by
  unfold writtenHop
  rw [if_pos ranged]
  exact fun more => rfl

/-- A hop before a path whose hops are written out. -/
theorem Writes.trail {chain others : List (RelationshipPattern × NodePattern)} {more : List Nat}
    (writes : Writes (writtenHop hop) counts chain) (also : Writes (writtenHops hops) more others)
    (start : NodePattern)
    : Writes (Shape.trail.written (start, hop :: hops)) (counts ++ more)
      (start, chain ++ others) := by
  have both :=
    (writes.bind (f := fun chain => writtenHops hops >>= fun others => pure (chain ++ others))
      (also.map (chain ++ ·))).map (start, ·)
  rwa [← writtenHops_cons] at both

/-- A node and the relationship that leaves it. -/
def departure : Parser (NodePattern × RelationshipPattern) := do
  let start ← nodePattern
  let relationship ← relationshipPattern
  pure (start, relationship)

theorem departure_laysOut : departure.LaysOut .fixed (Lacks '>') := by
  have rereads : departure.Rereads true true (Lacks '>') :=
    nodePattern_rereads.bind fun start => relationshipPattern_rereads.map (start, ·)
  have collects : departure.Collects [] fun departure => departure.2.detail.ranges :=
    (nodePattern_collects []).bind fun _ => relationshipPattern_collects.map fun _ => rfl
  exact rereads.laysOut_collected collects

theorem trail_next {value} (read : trail source = .ok value rest) : Next ['('] source := by
  obtain ⟨_, found, -⟩ := trail_iff.mp read
  exact nodePattern_next found

theorem spaced_lacks {c : Char} (noSpace : isSpace c = false) : Spaced (Lacks c) :=
  fun _ _ spaces lacks => Lacks.spaced spaces noSpace lacks

/-- A path goes on behind a relationship that is not written out. -/
theorem trail_behind_hop (first : nodePattern source = .ok start middle) {place : List Char}
    (read : relationshipPattern middle = .ok relationship place)
    (fixed : ¬ relationship.detail.isRanged)
    (later : trail.LaysOutAt .trail Arrowless place (next, hops) rest)
    : trail.LaysOutAt .trail Arrowless source (start, (relationship, next) :: hops) rest := by
  have both : departure source = .ok (start, relationship) place :=
    (Parser.bind_of_ok first).trans (Parser.bind_of_ok read)
  refine (departure_laysOut source _ place both).seq
    (fun left right => (left.1, (left.2, right.1) :: right.2)) later ?_
    (spaced_lacks (by decide)) ?_ ?_
  · refine ⟨?_, ?_, fun _ _ _ => ⟨trivial, trivial⟩⟩
    · simp [Shape.trail, Shape.fixed, RelationshipDetail.ranges, fixed]
    · simp [Shape.trail, Shape.fixed, writtenHops_cons, writtenHop, fixed]
  · intro source value after read _
    exact Lacks.of_skip ((trail_next read).lacks (by decide)) (by decide)
  · intro source departs middle goes rest read found _
    obtain ⟨start, place, first, more⟩ := Parser.bind_eq_ok.mp read
    obtain ⟨relationship, _, there, same⟩ := Parser.bind_eq_ok.mp more
    cases same
    obtain ⟨middle, next, repeats⟩ := trail_iff.mp found
    exact trail_iff.mpr ⟨place, first, .more (nextHop_iff.mpr ⟨_, there, next⟩) repeats⟩

/-- A path goes on behind a relationship that is written out as its hops are. -/
theorem trail_read_behind_site {node pattern hopText more front other : List Char} {count : Nat}
    {written : NodePattern × List (RelationshipPattern × NodePattern)}
    (again : ∀ other after, skip other = node ++ after → nodePattern other = .ok start (skip after))
    (spaces : ∀ c ∈ gap, isSpace c) (others : ∀ c ∈ more, isSpace c) (solid : Solid front)
    (isHop : Layout.IsHop relationship pattern hopText)
    (read : trail (front ++ after) = .ok written (skip after))
    (found
      : skip other = node ++ (gap ++ (chainText hopText (count + 1) ++ (more ++ (front ++ after)))))
    : trail other
      = .ok
          (start,
            List.replicate count (relationship.oneHop, .anonymous)
              ++ (relationship.oneHop, written.1) :: written.2)
          (skip after) := by
  obtain ⟨middle, next, repeats⟩ := trail_iff.mp read
  obtain ⟨c, opens, -, noSpace⟩ := isHop.opens
  obtain ⟨letters, whole⟩ := List.head?_eq_some_iff.mp (Layout.head?_chainText opens count)
  have chain : Solid (chainText hopText (count + 1)) := ⟨c, letters, whole, noSpace⟩
  have lacks : Lacks '>' (more ++ (front ++ after)) := by
    refine Lacks.of_skip ?_ (by decide)
    rw [skip_gap others]
    exact (trail_next read).lacks (by decide)
  have hops :=
    chainText_read isHop lacks (by rwa [skip_gap others, solid.skip_append]) repeats count
  refine trail_iff.mpr ⟨_, again other _ found, ?_⟩
  rwa [skip_gap spaces, chain.skip_append]

/-- A path goes on behind a relationship that is written out. -/
theorem trail_behind_site (first : nodePattern source = .ok start middle) {place : List Char}
    (read : relationshipPattern middle = .ok relationship place)
    (ranged : relationship.detail.isRanged)
    (later : trail.LaysOutAt .trail Arrowless place (next, hops) rest)
    : trail.LaysOutAt .trail Arrowless source (start, (relationship, next) :: hops) rest := by
  obtain ⟨node, tail, here, rfl, behindNode, solid, unquoted, nodeAgain⟩ := nodePattern_text first
  obtain ⟨arrow, behind, there, rfl, isSite⟩ := relationshipPattern_site read ranged
  obtain ⟨layout, last, opens, rfl, spells⟩ := later
  rw [skip_skip] at there opens
  obtain ⟨gap, split, spaces⟩ := exists_skipped tail
  obtain ⟨more, follows, others⟩ := exists_skipped behind
  have joined : (layout.prepend more).source ++ last = behind := by
    rw [Layout.source_prepend, List.append_assoc, ← opens, ← follows]
  refine ⟨.site (node ++ gap) arrow relationship (layout.prepend more), last, ?_, rfl, ?_⟩
  · rw [here, split, there]
    simp only [Layout.source, List.append_assoc]
    rw [joined]
  · refine ⟨⟨unquoted.append (unquoted_spaces spaces), behindNode.spaced spaces, joined ▸ isSite,
      spells.sound.prepend (unquoted_spaces others)⟩, ?_, ?_, ?_⟩
    · change _ :: (layout.prepend more).sites = _
      rw [Layout.sites_prepend, spells.sites]
      simp [Shape.trail, RelationshipDetail.ranges, ranged]
    · exact solid_append (solid_append solid)
    · intro chains text fills
      cases fills with
      | site isHop positive filled =>
          obtain ⟨front, rfl, within⟩ := filled.of_prepend
          obtain ⟨written, writes, again⟩ := spells.again _ front within
          obtain ⟨same, writes⟩ := writes.of_trail
          obtain ⟨count, rfl⟩ := Nat.exists_eq_add_of_le' positive
          refine ⟨_, (writes_ranged_hop ranged count).trail writes start, ?_⟩
          intro _ other after found ends beside
          have solid := within.solid spells.solid
          have read := again trivial (front ++ after) after (solid.skip_append after) ends beside
          rw [List.append_assoc, List.singleton_append, ← same]
          exact trail_read_behind_site nodeAgain spaces others solid isHop read
            (by simpa using found)

/-- Paths are laid out, by induction over their hops. -/
theorem trail_laysOut : trail.LaysOut .trail Arrowless := by
  intro source value rest read
  obtain ⟨start, hops⟩ := value
  obtain ⟨middle, first, repeats⟩ := trail_iff.mp read
  clear read
  induction hops generalizing source start middle with
  | nil =>
      cases repeats
      refine (nodePattern_laysOut source start rest first).map (g := fun start => (start, []))
        rfl ?_ (fun _ _ => trivial) (fun _ _ => trivial) ?_
      · simp [Shape.trail, Shape.fixed, writtenHops]
      · exact fun other start after read ends _ =>
          trail_iff.mpr ⟨_, read, .done (nextHop_rejects ends)⟩
  | cons hop hops ih =>
      cases repeats with
      | more read later =>
          obtain ⟨relationship, next⟩ := hop
          obtain ⟨place, found, node⟩ := nextHop_iff.mp read
          have tail := ih _ _ _ node later
          by_cases ranged : relationship.detail.isRanged
          · exact trail_behind_site first found ranged tail
          · exact trail_behind_hop first found ranged tail

end Chains

-----------------------------------------------------------------------------------------
-- Paths
-----------------------------------------------------------------------------------------

/-- A path with an optional name. -/
def Shape.path : Shape PathPattern where
  sites path := rangesOf path.relationships
  written := PathPattern.written
  short := PathPattern.IsShort

section Paths

variable {source rest : List Char} {path : PathPattern}

theorem pathPattern_iff
    : pathPattern source = .ok path rest
      ↔ ∃ place,
          pathName.optional source = .ok path.name place
          ∧ trail place = .ok (path.start, path.hops) rest
          ∧ path.IsShort := by
  constructor
  · intro read
    obtain ⟨name, place, named, more⟩ := Parser.bind_eq_ok.mp read
    obtain ⟨start, middle, first, more⟩ := Parser.bind_eq_ok.mp more
    obtain ⟨hops, _, many, last⟩ := Parser.bind_eq_ok.mp more
    split at last
    · cases last
    · rename_i short
      cases last
      have found : trail place = .ok (start, hops) rest :=
        (Parser.bind_of_ok first).trans (Parser.bind_of_ok many)
      exact ⟨place, named, found, Nat.le_of_not_lt short⟩
  · rintro ⟨place, named, found, short⟩
    obtain ⟨start, middle, first, more⟩ := Parser.bind_eq_ok.mp found
    obtain ⟨hops, _, many, same⟩ := Parser.bind_eq_ok.mp more
    cases same
    refine (Parser.bind_of_ok named).trans ((Parser.bind_of_ok first).trans ?_)
    exact (Parser.bind_of_ok many).trans (if_neg (Nat.not_lt.mpr short))

theorem pathName_laysOut : pathName.LaysOut .fixed fun _ => True := by
  have rereads : pathName.Rereads true true fun _ => True :=
    identifier_rereads.padded.bind fun name => (mark_rereads (by decide)).map fun _ => name
  exact rereads.laysOut_collected (.of_takes (pathName_takes lexical_opensRanges) [])

/-- A path with a given name. -/
def PathPattern.ofTrail (name : Option String)
    (trail : NodePattern × List (RelationshipPattern × NodePattern))
    : PathPattern :=
  { name, start := trail.1, hops := trail.2 }

theorem sites_ofTrail (name : Option String) (trail) 
    : Shape.path.sites (.ofTrail name trail) = Shape.trail.sites trail :=
  List.flatMap_map _ _ _

theorem written_ofTrail (name : Option String) (trail)
    : Shape.path.written (.ofTrail name trail)
      = Shape.trail.written trail >>= fun trail => pure (.ofTrail name trail) := by
  simp [Shape.path, Shape.trail, PathPattern.ofTrail, PathPattern.written]

theorem pathPattern_laysOut : pathPattern.LaysOut .path Arrowless := by
  intro source path rest read
  obtain ⟨name, start, hops⟩ := path
  obtain ⟨place, named, found, short⟩ := pathPattern_iff.mp read
  have laid := trail_laysOut place _ rest found
  rcases Parser.optional_eq_ok (show pathName.optional source = .ok name place from named) with
    ⟨name, rfl, there⟩ | ⟨rfl, rfl⟩
  · refine (pathName_laysOut source name place there).seq
      (fun name => PathPattern.ofTrail (some name)) laid ?_ (fun _ _ _ _ => trivial)
      (fun _ _ _ _ _ => trivial) ?_
    · exact ⟨sites_ofTrail _ _, written_ofTrail _ _, fun _ _ _ => ⟨trivial, trivial⟩⟩
    · intro source name middle trail rest named found short
      exact pathPattern_iff.mpr ⟨middle, Parser.optional_of_ok named, found, short⟩
  · refine laid.map (g := PathPattern.ofTrail none) (sites_ofTrail _ _) (written_ofTrail _ _)
      (fun _ _ => trivial) (fun _ ends => ends) ?_
    intro other trail after found _ short
    have missing : pathName.Rejects other :=
      ((trail_next found).mono (by simp)).rejects_name.bind
    exact pathPattern_iff.mpr ⟨other, Parser.optional_of_rejects missing, found, short⟩

end Paths

-----------------------------------------------------------------------------------------
-- Clauses
-----------------------------------------------------------------------------------------

/-- A clause with its paths. -/
def Shape.clause : Shape Clause where
  sites clause := rangesOf clause.relationships
  written := Clause.written
  short := Clause.IsShort

/-- The patterns of a clause with its condition. -/
def Shape.patterns : Shape (List PathPattern × Option Expr) where
  sites matched := Shape.path.list.sites matched.1
  written matched := do
    let patterns ← Shape.path.list.written matched.1
    pure (patterns, matched.2)
  short matched := Shape.path.list.short matched.1

/-- A path and others behind commas. -/
def pathPatterns : Parser (List PathPattern) :=
  (Parser.separated1 (mark ',') pathPattern).committed.within .matchClause

/-- What is matched, with a condition. -/
def matchedPatterns : Parser (List PathPattern × Option Expr) := do
  keyword "MATCH"
  let patterns ← pathPatterns
  let condition ← whereClause.optional
  pure (patterns, condition)

section Clauses

variable {source rest : List Char} {word : String}

theorem keyword_laysOut (plain : IsPlainWord word) (nonempty : 0 < word.utf8ByteSize)
    : (keyword word).LaysOut .fixed fun _ => True :=
  (keyword_rereads plain nonempty).laysOut_collected
    (.of_takes (keyword_takes named_opensRanges plain) [])

theorem mark_laysOut {c : Char} (isSign : IsSign [c]) (bare : isBare c)
    : (mark c).LaysOut .fixed fun _ => True :=
  have lexical := lexical_opensRanges
  (mark_rereads isSign).laysOut_collected
    (.of_takes (mark_takes lexical.toJoined (lexical.bare c bare)) [])

/-- No arrow stands where another part of a query may follow. -/
theorem EndsBefore.arrowless {words : List String} {marks after : List Char}
    (ends : EndsBefore words marks after) (known : ∀ word ∈ words, word ∈ sectionWords)
    (marked : ∀ c ∈ marks, c ∈ sectionMarks)
    : Arrowless after := by
  have lacks {c : Char} (apart : c ∉ sectionMarks ∧ isBlank c = false ∧ c.isAlpha = false) :=
    ends.lacks known (fun listed => apart.1 (marked c listed)) apart.2.1 apart.2.2
  exact ⟨lacks (by decide), lacks (by decide)⟩

theorem pathPatterns_laysOut
    : pathPatterns.LaysOut Shape.path.list (EndsBefore (sectionWords.drop 3) [';']) := by
  intro source values rest read
  have found : listed pathPattern (mark ',' >>= fun _ => pathPattern) source = .ok values rest :=
    Parser.committed_eq_ok (Parser.within_eq_ok read)
  have next : Parser.LaysOut (mark ',' >>= fun _ => pathPattern) .path Arrowless :=
    (mark_laysOut (by decide) (by decide)).behind pathPattern_laysOut
  have known : ∀ word ∈ sectionWords.drop 3, word ∈ sectionWords := fun _ => List.mem_of_mem_drop
  have whole :=
    @listed_laysOut _ _ _ _ _ (EndsBefore (sectionWords.drop 3) [';']) pathPattern_laysOut
    next ((mark_advances ',').bind fun _ => pathPattern_advances.anyway) ⟨_, rfl⟩ ?_ ?_
    (fun after ends => ends.arrowless known end_mem_sectionMarks) ?_ source values rest found
  · exact whole.congr fun other values rest read =>
      Parser.within_of_ok (Parser.committed_of_ok read) _
  · intro gap after spaces arrowless
    rwa [Arrowless, skip_gap spaces]
  · intro source path rest read
    obtain ⟨_, _, comma, -⟩ := Parser.bind_eq_ok.mp read
    have opens := next_of_mark comma
    exact ⟨opens.lacks (by decide), opens.lacks (by decide)⟩
  · intro after ends
    refine (mark_rejects ?_).bind
    rw [skip_skip]
    exact ends.lacks known (by decide) (by decide) (by decide)

theorem matchedPatterns_laysOut
    : matchedPatterns.LaysOut .patterns (EndsBefore clauseWords [';']) := by
  have opened : Parser.LaysOut (keyword "MATCH" >>= fun _ => pathPatterns) Shape.path.list
      (EndsBefore (sectionWords.drop 3) [';']) :=
    (keyword_laysOut (by decide) (by decide)).behind pathPatterns_laysOut
  have conditioned : whereClause.LaysOut .fixed (EndsBefore clauseWords [';']) :=
    whereClause_rereads_before.laysOut_collected whereClause_collects
  intro source matched rest read
  obtain ⟨_, _, word, more⟩ := Parser.bind_eq_ok.mp read
  obtain ⟨patterns, place, found, more⟩ := Parser.bind_eq_ok.mp more
  obtain ⟨condition, _, optional, same⟩ := Parser.bind_eq_ok.mp more
  cases same
  have laid := opened source patterns place ((Parser.bind_of_ok word).trans found)
  have again {source middle rest : List Char} {patterns : List PathPattern}
    {condition : Option Expr}
      (read : (keyword "MATCH" >>= fun _ => pathPatterns) source = .ok patterns middle)
      (found : whereClause.optional middle = .ok condition rest)
      : matchedPatterns source = .ok (patterns, condition) rest := by
    obtain ⟨_, _, word, read⟩ := Parser.bind_eq_ok.mp read
    refine (Parser.bind_of_ok word).trans ((Parser.bind_of_ok read).trans ?_)
    exact Parser.bind_of_ok found
  rcases Parser.optional_eq_ok optional with ⟨condition, rfl, there⟩ | ⟨rfl, rfl⟩
  · refine laid.seq (fun patterns condition => (patterns, some condition))
      (conditioned place condition rest there) ?_ EndsBefore.spaced ?_ ?_
    · refine ⟨?_, ?_, fun _ _ short => ⟨short, trivial⟩⟩
      · exact (List.append_nil _).symm
      · simp [Shape.patterns, Shape.fixed]
    · intro source condition after read _
      obtain ⟨tail, stands⟩ := stands_of_bind "WHERE" (by decide) read
      exact .word (by decide) stands
    · exact fun source patterns middle condition rest read found _ =>
        again read (Parser.optional_of_ok found)
  · refine laid.map (g := fun patterns => (patterns, none)) rfl ?_ (fun _ short => short)
      (fun _ ends => ends.mono (by decide) fun _ listed => listed) ?_
    · simp [Shape.patterns]
    · intro other patterns after read ends _
      refine again read (Parser.optional_of_rejects (keyword_rejects_skip.mpr ?_).bind)
      exact ends.rejects (by decide) end_mem_sectionMarks (by decide) (by decide) (by decide)

/-- A clause that matches patterns, where these may be missing or may not. -/
def Clause.ofMatched (optional : Bool) (matched : List PathPattern × Option Expr) : Clause :=
  .matching { optional, patterns := matched.1, condition := matched.2 }

theorem sites_ofMatched (optional : Bool) (matched : List PathPattern × Option Expr)
    : Shape.clause.sites (.ofMatched optional matched) = Shape.patterns.sites matched :=
  rangesOf_flatMap _ _

theorem written_ofMatched (optional : Bool) (matched : List PathPattern × Option Expr)
    : Shape.clause.written (.ofMatched optional matched)
      = Shape.patterns.written matched >>= fun matched => pure (.ofMatched optional matched) := by
  simp [Shape.clause, Shape.patterns, Clause.ofMatched, Clause.written, Shape.list, Shape.path]

theorem matchClause_iff {value : Clause}
    : (matchClause >>= fun matched => pure (.matching matched)) source = .ok value rest
      ↔ ∃ found place matched,
          (keyword "OPTIONAL").optional source = .ok found place
          ∧ matchedPatterns place = .ok matched rest
          ∧ value = .ofMatched found.isSome matched := by
  constructor
  · intro read
    obtain ⟨_, _, read, same⟩ := Parser.bind_eq_ok.mp read
    cases same
    obtain ⟨found, place, optional, more⟩ := Parser.bind_eq_ok.mp read
    obtain ⟨_, _, word, more⟩ := Parser.bind_eq_ok.mp more
    obtain ⟨patterns, _, listed, more⟩ := Parser.bind_eq_ok.mp more
    obtain ⟨condition, _, conditioned, same⟩ := Parser.bind_eq_ok.mp more
    cases same
    refine ⟨found, place, (patterns, condition), optional, ?_, rfl⟩
    refine (Parser.bind_of_ok word).trans ((Parser.bind_of_ok listed).trans ?_)
    exact Parser.bind_of_ok conditioned
  · rintro ⟨found, place, matched, optional, read, rfl⟩
    obtain ⟨_, _, word, more⟩ := Parser.bind_eq_ok.mp read
    obtain ⟨patterns, _, listed, more⟩ := Parser.bind_eq_ok.mp more
    obtain ⟨condition, _, conditioned, same⟩ := Parser.bind_eq_ok.mp more
    cases same
    have whole : matchClause source
        = .ok { optional := found.isSome, patterns, condition } rest := by
      refine (Parser.bind_of_ok optional).trans ((Parser.bind_of_ok word).trans ?_)
      exact (Parser.bind_of_ok listed).trans (Parser.bind_of_ok conditioned)
    exact Parser.bind_of_ok whole

theorem matchClause_laysOut
    : Parser.LaysOut (matchClause >>= fun matched => pure (.matching matched)) .clause
        (EndsBefore clauseWords [';']) := by
  intro source value rest read
  obtain ⟨found, place, matched, optional, more, rfl⟩ := matchClause_iff.mp read
  have laid := matchedPatterns_laysOut place matched rest more
  rcases Parser.optional_eq_ok optional with ⟨_, rfl, word⟩ | ⟨rfl, rfl⟩
  · refine (keyword_laysOut (by decide) (by decide) source () place word).seq
      (fun _ => Clause.ofMatched true) laid ?_ (fun _ _ _ _ => trivial)
      (fun _ _ _ _ _ => trivial) ?_
    · refine ⟨sites_ofMatched _ _, ?_, fun _ _ short => ⟨trivial, short⟩⟩
      rw [written_ofMatched]
      simp [Shape.fixed]
    · exact fun source _ middle matched rest word read _ =>
        matchClause_iff.mpr ⟨some (), middle, matched, Parser.optional_of_ok word, read, rfl⟩
  · refine laid.map (g := Clause.ofMatched false) (sites_ofMatched _ _) (written_ofMatched _ _)
      (fun _ short => short) (fun _ ends => ends) ?_
    intro other matched after read _ _
    obtain ⟨tail, stands⟩ := stands_of_bind "MATCH" (by decide) read
    have missing : (keyword "OPTIONAL").Rejects other :=
      stands.rejects (by decide) (by decide) (by decide)
    exact matchClause_iff.mpr ⟨none, other, matched, Parser.optional_of_rejects missing, read, rfl⟩

/-- Nothing is matched where neither of its words stands. -/
theorem matchClause_rejects (missing : (keyword "OPTIONAL").Rejects source)
    (also : (keyword "MATCH").Rejects source)
    : Parser.Rejects (matchClause >>= fun matched => pure (Clause.matching matched)) source :=
  .bind (Parser.Rejects.bind_of_ok (Parser.optional_of_rejects missing) also.bind)

theorem Stands.rejects_matchClause {tail : List Char} (stands : Stands word source tail)
    (isWord : IsWord word) (apart : ∀ other ∈ ["OPTIONAL", "MATCH"], Apart word other)
    : Parser.Rejects (matchClause >>= fun matched => pure (Clause.matching matched)) source :=
  matchClause_rejects (stands.rejects isWord (apart _ (by simp)) (by decide))
    (stands.rejects isWord (apart _ (by simp)) (by decide))

theorem clause_of_withClause {value : Clause} (read : withClause source = .ok value rest)
    : clause source = .ok value rest := by
  obtain ⟨tail, stands⟩ := stands_of_bind "WITH" (by decide) read
  have rejects := stands.rejects_matchClause (by decide) (by decide)
  exact Parser.choice_eq_ok.mpr (.there rejects (.here read))

theorem clause_of_returnClause {value : Clause} (read : returnClause source = .ok value rest)
    : clause source = .ok value rest := by
  obtain ⟨tail, stands⟩ := stands_of_bind "RETURN" (by decide) read
  have rejects := stands.rejects_matchClause (by decide) (by decide)
  have also : (keyword "WITH").Rejects source :=
    stands.rejects (by decide) (by decide) (by decide)
  exact Parser.choice_eq_ok.mpr (.there rejects (.there also.bind (.here read)))

/-- A clause without patterns is laid out as it is read again. -/
theorem Parser.Rereads.laysOut_clause {p : Parser Clause}
    (rereads : p.Rereads true true (EndsBefore clauseWords [';']))
    (clauses : ∀ source value rest, p source = .ok value rest → clause source = .ok value rest)
    {value : Clause} (unmatched : value.relationships = [] ∧ value.written = pure value)
    (read : p source = .ok value rest)
    : clause.LaysOutAt .clause (EndsBefore clauseWords [';']) source value rest := by
  have laid := rereads.laysOut_collected fun source value rest read =>
    clause_collects source value rest (clauses source value rest read)
  refine (laid source value rest read).map (g := id) ?_ ?_ (fun _ _ => trivial) (fun _ ends => ends)
    fun other value _ read _ _ => clauses other value _ read
  · exact congrArg rangesOf unmatched.1
  · exact unmatched.2.trans (bind_pure _).symm

/-- A clause is laid out whichever it is. -/
theorem clause_laysOut : clause.LaysOut .clause (EndsBefore clauseWords [';']) := by
  intro source value rest read
  cases Parser.choice_eq_ok.mp read with
  | here read =>
      exact (matchClause_laysOut source value rest read).congr fun other value rest read =>
        Parser.choice_eq_ok.mpr (.here read)
  | there _ later =>
      cases later with
      | here read =>
          have unmatched : value.relationships = [] ∧ value.written = pure value := by
            obtain ⟨_, _, _, more⟩ := Parser.bind_eq_ok.mp read
            obtain ⟨_, _, _, more⟩ := Parser.bind_eq_ok.mp more
            obtain ⟨_, _, _, same⟩ := Parser.bind_eq_ok.mp more
            cases same
            exact ⟨rfl, rfl⟩
          exact withClause_rereads.laysOut_clause (fun _ _ _ => clause_of_withClause) unmatched read
      | there _ later =>
          cases later with
          | here read =>
              have unmatched : value.relationships = [] ∧ value.written = pure value := by
                obtain ⟨_, _, _, more⟩ := Parser.bind_eq_ok.mp read
                obtain ⟨_, _, _, same⟩ := Parser.bind_eq_ok.mp more
                cases same
                exact ⟨rfl, rfl⟩
              exact returnClause_rereads.laysOut_clause (fun _ _ _ => clause_of_returnClause)
                unmatched read
          | there _ later => cases later

/-- A clause opens with a word of its own. -/
theorem clause_stands {value : Clause} (read : clause source = .ok value rest)
    : ∃ word ∈ clauseWords, ∃ tail, Stands word source tail := by
  cases Parser.choice_eq_ok.mp read with
  | here read =>
      obtain ⟨found, place, matched, optional, more, rfl⟩ := matchClause_iff.mp read
      rcases Parser.optional_eq_ok optional with ⟨_, rfl, word⟩ | ⟨rfl, rfl⟩
      · obtain ⟨tail, stands, -⟩ := stands_of_plain _ (by decide) word
        exact ⟨"OPTIONAL", by decide, tail, stands⟩
      · exact ⟨"MATCH", by decide, stands_of_bind _ (by decide) more⟩
  | there _ later =>
      cases later with
      | here read => exact ⟨"WITH", by decide, stands_of_bind _ (by decide) read⟩
      | there _ later =>
          cases later with
          | here read => exact ⟨"RETURN", by decide, stands_of_bind _ (by decide) read⟩
          | there _ later => cases later

/-- There is no clause where none of its words may follow. -/
theorem EndsBefore.rejects_clause {after : List Char} (ends : EndsBefore [] [';'] after)
    : clause.Rejects (skip after) := by
  have missing {word : String} (known : IsWord word ∧ word.toList.head?.all isPlain)
      : (keyword word).Rejects (skip after) :=
    keyword_rejects_skip.mpr
      (ends.rejects (by decide) end_mem_sectionMarks known.1 (by simp) known.2)
  refine Parser.rejects_choice.mpr ?_
  simp only [List.forall_mem_cons, List.not_mem_nil, false_imp_iff, implies_true, and_true]
  exact ⟨matchClause_rejects (missing (by decide)) (missing (by decide)),
    (missing (by decide)).bind, (missing (by decide)).bind⟩

end Clauses

-----------------------------------------------------------------------------------------
-- Queries
-----------------------------------------------------------------------------------------

section Queries

variable {source : String} {query : Query} {text after rest : List Char}

theorem clauses_laysOut
    : (listed clause clause).LaysOut Shape.clause.list (EndsBefore [] [';']) := by
  refine listed_laysOut clause_laysOut clause_laysOut clause_advances ⟨_, rfl⟩ EndsBefore.spaced
    (fun source value rest read => ?_)
    (fun _ ends => ends.mono (by decide) fun _ listed => listed) fun _ ends => ends.rejects_clause
  obtain ⟨word, listed, tail, stands⟩ := clause_stands read
  exact .word listed stands

theorem many1_iff {clauses : List Clause} {source : List Char}
    : Parser.many1 clause source = .ok clauses rest
      ↔ listed clause clause source = .ok clauses rest := by
  constructor
  · intro read
    obtain ⟨first, place, found, more⟩ := Parser.bind_eq_ok.mp read
    split at found
    · cases found
    · exact (Parser.bind_of_ok found).trans more
  · intro read
    obtain ⟨first, place, found, more⟩ := Parser.bind_eq_ok.mp read
    obtain ⟨seen, _, many, same⟩ := Parser.bind_eq_ok.mp more
    cases same
    exact Parser.many1_of_ok found many

/-- What is left behind the clauses of a query: blanks, with a semicolon before them or without. -/
def Closing (tail : List Char) : Prop :=
  ∃ found rest, (mark ';').optional tail = .ok found rest ∧ Text.trim rest = []

theorem parse_iff
    : Query.parse source = .ok query
      ↔ ∃ tail,
          listed clause clause (skip source.toList) = .ok query.clauses tail ∧ Closing tail := by
  constructor
  · intro parsed
    obtain ⟨rest, read, nothing⟩ := Query.parse_eq_ok.mp parsed
    obtain ⟨_, _, blanks, more⟩ := Parser.bind_eq_ok.mp read
    cases blanks
    obtain ⟨clauses, tail, listed, more⟩ := Parser.bind_eq_ok.mp more
    obtain ⟨found, _, optional, same⟩ := Parser.bind_eq_ok.mp more
    cases same
    exact ⟨tail, many1_iff.mp listed, found, rest, optional, nothing⟩
  · rintro ⟨tail, listed, found, rest, optional, nothing⟩
    refine Query.parse_eq_ok.mpr ⟨rest, ?_, nothing⟩
    refine (@Parser.bind_of_ok _ _ _ _ _ _ _ (rfl : blanks source.toList = .ok () _)).trans ?_
    exact (Parser.bind_of_ok (many1_iff.mpr listed)).trans (Parser.bind_of_ok optional)

theorem Closing.ends (closing : Closing (skip after)) : EndsBefore [] [';'] after := by
  obtain ⟨found, rest, optional, nothing⟩ := closing
  refine .mark fun c opens => ?_
  rcases Parser.optional_eq_ok optional with ⟨_, rfl, semicolon⟩ | ⟨rfl, rfl⟩
  · obtain ⟨d, head, same⟩ := next_of_mark semicolon
    rw [skip_skip] at head
    cases Option.some.inj (opens.symm.trans head)
    exact .inl same
  · exact .inr (isBlank_of_trim nothing c (List.mem_of_mem_head? opens))

/-- A query is laid out around its anonymous relationships with a range. -/
theorem layout_of_parse (parsed : Query.parse source = .ok query)
    : ∃ layout : Layout,
        layout.source = source.toList
        ∧ layout.Sound []
        ∧ layout.sites = rangesOf query.relationships
        ∧ ∀ chains text,
            layout.Fills chains text
            → (query.written (chains.map Prod.snd)).IsShort
            → Query.parse (String.ofList text) = .ok (query.written (chains.map Prod.snd)) := by
  obtain ⟨_, listed, closing⟩ := parse_iff.mp parsed
  obtain ⟨layout, tail, here, rfl, spells⟩ := clauses_laysOut _ _ _ listed
  obtain ⟨lead, leads, spaces⟩ := exists_skipped source.toList
  have whole : lead ++ (layout.source ++ tail) = source.toList := by
    rw [← here, skip_skip, ← leads]
  have front : (layout.prepend lead).Sound tail := spells.sound.prepend (unquoted_spaces spaces)
  have unquoted : Unquoted (lead ++ (layout.source ++ tail)) :=
    whole ▸ (opensRanges_of_parse parsed).unquoted
  have back : Unquoted tail :=
    (unquoted.of_append (unquoted_spaces spaces)).of_append spells.sound.unquoted
  refine ⟨(layout.prepend lead).append (.last tail), ?_, ?_, ?_, fun chains text fills short => ?_⟩
  · rw [Layout.source_append, Layout.source_prepend, ← whole]
    simp [Layout.source]
  · have whole : (layout.prepend lead).Sound ((Layout.last tail).source ++ []) := by
      rwa [Layout.source, List.append_nil]
    exact whole.append back
  · rw [Layout.sites_append, Layout.sites_prepend, spells.sites]
    exact (List.append_nil _).trans (rangesOf_flatMap _ _).symm
  · obtain ⟨first, _, _, _, rfl, rfl, before, behind⟩ := fills.of_append
    cases behind
    obtain ⟨own, rfl, within⟩ := before.of_prepend
    obtain ⟨written, writes, again⟩ := spells.again first own within
    have same : (query.written (first.map Prod.snd)).clauses = written :=
      congrArg Prod.fst ((congrArg _ (List.append_nil _).symm).trans (writes []))
    rw [List.append_nil] at short ⊢
    have solid := within.solid spells.solid
    have read := again (fun clause member => short clause (same ▸ member)) (skip (own ++ tail)) tail
      (by rw [skip_skip, solid.skip_append]) closing.ends (.inl rfl)
    refine parse_iff.mpr ⟨skip tail, ?_, closing⟩
    rw [String.toList_ofList, List.append_assoc, skip_gap spaces, read, same]

end Queries

end CypherSql.Cypher
