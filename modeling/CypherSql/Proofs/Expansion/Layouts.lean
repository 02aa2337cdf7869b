import CypherSql.Expansion
import CypherSql.Proofs.Expansion.Quotes

/-! Queries with variable-length relationships and the same queries with these written out as
chains. A text is laid out around the relationships that are to be written out. What a parser reads
of it, it reads of the text with chains in their places, with the same chains in the value.
-/

namespace CypherSql.Cypher

open Text

-----------------------------------------------------------------------------------------
-- Relationships that are written out
-----------------------------------------------------------------------------------------

/-- A node without anything said of it. -/
def NodePattern.anonymous : NodePattern :=
  { name := none, labels := [], properties := none }

/-- The relationship of one hop with the same direction, types and properties. -/
def RelationshipPattern.oneHop (relationship : RelationshipPattern) : RelationshipPattern :=
  { relationship with length := none }

/-- The next of some hop counts, or one hop where none is left. -/
def nextCount : StateM (List Nat) Nat :=
  modifyGet fun counts => (counts.headD 1, counts.tail)

/-- A hop of a path. If its relationship is anonymous and has a range, it becomes a chain of as many
hops as the next count says, with anonymous nodes between them.
-/
def writtenHop (hop : RelationshipPattern × NodePattern)
    : StateM (List Nat) (List (RelationshipPattern × NodePattern)) := do
  if hop.1.detail.isRanged then
    let count ← nextCount
    pure (List.replicate (count - 1) (hop.1.oneHop, .anonymous) ++ [(hop.1.oneHop, hop.2)])
  else pure [hop]

/-- The hops of a path with chains for those with a range. -/
def writtenHops (hops : List (RelationshipPattern × NodePattern))
    : StateM (List Nat) (List (RelationshipPattern × NodePattern)) := do
  let chains ← hops.mapM writtenHop
  pure chains.flatten

/-- The path with chains for the relationships with a range. -/
def PathPattern.written (path : PathPattern) : StateM (List Nat) PathPattern := do
  let hops ← writtenHops path.hops
  pure { path with hops }

/-- The clause with chains for the relationships with a range. -/
def Clause.written : Clause → StateM (List Nat) Clause
  | .matching clause => do
      let patterns ← clause.patterns.mapM PathPattern.written
      pure (.matching { clause with patterns })
  | clause => pure clause

/-- The query with chains for the relationships with a range, of as many hops as some counts say, in
the order of the text.
-/
def Query.written (query : Query) (counts : List Nat) : Query :=
  { clauses := ((query.clauses.mapM Clause.written).run counts).1 }

/-- A path has no more relationships than it may have. -/
def PathPattern.IsShort (path : PathPattern) : Prop :=
  path.hops.length ≤ longestChain

/-- No path of a clause has more relationships than it may have. -/
def Clause.IsShort : Clause → Prop
  | .matching clause => ∀ path ∈ clause.patterns, path.IsShort
  | _ => True

/-- No path of a query has more relationships than it may have. -/
def Query.IsShort (query : Query) : Prop :=
  ∀ clause ∈ query.clauses, clause.IsShort

instance (path : PathPattern) : Decidable path.IsShort :=
  inferInstanceAs (Decidable (_ ≤ _))

instance : (clause : Clause) → Decidable clause.IsShort
  | .matching clause => inferInstanceAs (Decidable (∀ path ∈ clause.patterns, path.IsShort))
  | .withItems _ _ => .isTrue trivial
  | .returnItems _ => .isTrue trivial

instance (query : Query) : Decidable query.IsShort :=
  inferInstanceAs (Decidable (∀ clause ∈ query.clauses, clause.IsShort))

-----------------------------------------------------------------------------------------
-- Layouts of a text
-----------------------------------------------------------------------------------------

/-- What stands where in a text with relationships that are to be written out: what precedes each of
them with their own text, and what follows the last.
-/
inductive Layout where
  | last (text : List Char)
  | site (gap pattern : List Char) (relationship : RelationshipPattern) (later : Layout)

/-- The text of some hops with anonymous nodes between them. -/
def chainText (hop : List Char) (count : Nat) : List Char :=
  List.intercalate ['(', ')'] (List.replicate count hop)

namespace Layout

/-- The whole text. -/
def source : Layout → List Char
  | last text => text
  | site gap pattern _ later => gap ++ (pattern ++ later.source)

/-- The relationships that are to be written out. -/
def sites : Layout → List RelationshipDetail
  | last _ => []
  | site _ _ relationship later => relationship.detail :: later.sites

/-- The layout with a text before it. -/
def prepend (text : List Char) : Layout → Layout
  | last more => last (text ++ more)
  | site gap pattern relationship later => site (text ++ gap) pattern relationship later

/-- Two layouts one after the other. -/
def append : Layout → Layout → Layout
  | last text, other => other.prepend text
  | site gap pattern relationship later, other =>
      site gap pattern relationship (later.append other)

/-- A text is read as a relationship of one hop before everything that is no head of an arrow. It
opens as the relationship does.
-/
structure IsHop (relationship : RelationshipPattern) (pattern hop : List Char) : Prop where
  opens : ∃ c, hop.head? = some c ∧ pattern.head? = some c ∧ isSpace c = false
  again
    : ∀ after,
        Lacks '>' after → relationshipPattern (hop ++ after) = .ok relationship.oneHop (skip after)

/-- The text with the relationships written out in some numbers of hops each. -/
inductive Fills : Layout → List (List Char × Nat) → List Char → Prop where
  | last {text} : Fills (.last text) [] text
  | site {gap pattern relationship later hop count chains text}
    (isHop : IsHop relationship pattern hop) (positive : 1 ≤ count) (rest : Fills later chains text)
    : Fills (.site gap pattern relationship later) ((hop, count) :: chains)
        (gap ++ (chainText hop count ++ text))

/-- A relationship that is to be written out is read where it stands, from the end of an arrow and
the bracket behind it on.
-/
structure IsSite (relationship : RelationshipPattern) (pattern tail : List Char) : Prop where
  trimmed : Trimmed pattern
  reads : relationshipPattern (pattern ++ tail) = .ok relationship (skip tail)
  ranged : relationship.detail.isRanged
  unquoted : Unquoted pattern
  bracket
    : ∃ head gap more,
        pattern = arrowText "<-" head ++ (gap ++ '[' :: more) ∧ ∀ c ∈ gap, isSpace c

/-- A text ends with a node, apart from blanks. -/
def BehindNode (gap : List Char) : Prop :=
  ∃ before spaces, gap = before ++ ')' :: spaces ∧ ∀ c ∈ spaces, isSpace c

/-- The quotes between the sites are closed, and each of the sites stands behind a node. -/
def Sound : Layout → List Char → Prop
  | last text, _ => Unquoted text
  | site gap pattern relationship later, tail =>
      Unquoted gap
      ∧ BehindNode gap
      ∧ IsSite relationship pattern (later.source ++ tail)
      ∧ later.Sound tail

section Layouts

variable {layout other : Layout} {chains : List (List Char × Nat)} {text more tail hop : List Char}

@[simp]
theorem source_prepend (text : List Char) (layout : Layout)
    : (layout.prepend text).source = text ++ layout.source := by
  cases layout <;> simp [prepend, source]

@[simp]
theorem sites_prepend (text : List Char) (layout : Layout)
    : (layout.prepend text).sites = layout.sites := by
  cases layout <;> rfl

@[simp]
theorem source_append (layout other : Layout)
    : (layout.append other).source = layout.source ++ other.source := by
  induction layout with
  | last text => simp [append, source]
  | site gap pattern relationship later ih => simp [append, source, ih]

@[simp]
theorem sites_append (layout other : Layout)
    : (layout.append other).sites = layout.sites ++ other.sites := by
  induction layout with
  | last text => simp [append, sites]
  | site gap pattern relationship later ih => simp [append, sites, ih]

theorem Fills.of_prepend (fills : Fills (layout.prepend more) chains text)
    : ∃ rest, text = more ++ rest ∧ Fills layout chains rest := by
  cases layout with
  | last own =>
      cases fills
      exact ⟨own, rfl, .last⟩
  | site gap pattern relationship later =>
      cases fills with
      | site isHop positive rest => exact ⟨_, List.append_assoc _ _ _, .site isHop positive rest⟩

/-- What fills two layouts fills each of them. -/
theorem Fills.of_append (fills : Fills (layout.append other) chains text)
    : ∃ first second front back,
        chains = first ++ second
        ∧ text = front ++ back
        ∧ Fills layout first front
        ∧ Fills other second back := by
  induction layout generalizing chains text with
  | last own =>
      obtain ⟨rest, rfl, also⟩ := of_prepend fills
      exact ⟨[], chains, own, rest, rfl, rfl, .last, also⟩
  | site gap pattern relationship later ih =>
      cases fills with
      | site isHop positive rest =>
          obtain ⟨first, second, front, back, rfl, rfl, fills, also⟩ := ih rest
          exact ⟨_ :: first, second, _, back, rfl, by simp, .site isHop positive fills, also⟩

theorem chainText_succ (hop : List Char) (count : Nat)
    : chainText hop (count + 2) = hop ++ ('(' :: ')' :: chainText hop (count + 1)) := by
  simp [chainText, List.replicate_succ, List.intercalate]

theorem chainText_one (hop : List Char) : chainText hop 1 = hop := by
  simp [chainText, List.intercalate]

theorem head?_chainText {c : Char} (opens : hop.head? = some c) (count : Nat)
    : (chainText hop (count + 1)).head? = some c := by
  cases count with
  | zero => rw [chainText_one, opens]
  | succ count =>
      rw [chainText_succ, List.head?_append, opens]
      rfl

/-- A text with relationships written out opens as it does without that. -/
theorem Fills.head (fills : Fills layout chains text) : text.head? = layout.source.head? := by
  induction fills with
  | last => rfl
  | @site gap pattern relationship later hop count chains text isHop positive _ _ =>
      obtain ⟨c, opens, also, -⟩ := isHop.opens
      obtain ⟨count, rfl⟩ := Nat.exists_eq_add_of_le' positive
      simp only [source, List.head?_append, head?_chainText opens, also, Option.some_or]

theorem BehindNode.append (behind : BehindNode more) (text : List Char)
    : BehindNode (text ++ more) := by
  obtain ⟨before, spaces, rfl, blank⟩ := behind
  exact ⟨text ++ before, spaces, (List.append_assoc _ _ _).symm, blank⟩

theorem BehindNode.spaced (behind : BehindNode text) (blank : ∀ c ∈ more, isSpace c)
    : BehindNode (text ++ more) := by
  obtain ⟨before, spaces, rfl, own⟩ := behind
  refine ⟨before, spaces ++ more, by simp, fun c member => ?_⟩
  exact (List.mem_append.mp member).elim (own c) (blank c)

theorem Sound.prepend (sound : layout.Sound tail) (unquoted : Unquoted text)
    : (layout.prepend text).Sound tail := by
  cases layout with
  | last own => exact unquoted.append sound
  | site gap pattern relationship later =>
      obtain ⟨own, behind, rest⟩ := sound
      exact ⟨unquoted.append own, behind.append text, rest⟩

theorem Sound.append (sound : layout.Sound (other.source ++ tail)) (also : other.Sound tail)
    : (layout.append other).Sound tail := by
  induction layout with
  | last own => exact also.prepend sound
  | site gap pattern relationship later ih =>
      obtain ⟨unquoted, behind, isSite, rest⟩ := sound
      refine ⟨unquoted, behind, ?_, ih rest⟩
      rw [source_append, List.append_assoc]
      exact isSite

/-- The whole text of a sound layout is out of quotes. -/
theorem Sound.unquoted (sound : layout.Sound tail) : Unquoted layout.source := by
  induction layout with
  | last own => exact sound
  | site gap pattern relationship later ih =>
      obtain ⟨own, -, isSite, rest⟩ := sound
      exact own.append (isSite.unquoted.append (ih rest))

end Layouts

end Layout

-----------------------------------------------------------------------------------------
-- What is read of both texts
-----------------------------------------------------------------------------------------

/-- What is written out in a value of some type: its relationships that are to be, the value with
them written out in as many hops as some counts say, and the values that can be read.
-/
structure Shape (α : Type) where
  sites : α → List RelationshipDetail
  written : α → StateM (List Nat) α
  short : α → Prop

/-- A value without relationships in it. -/
def Shape.fixed {α : Type} : Shape α where
  sites _ := []
  written := pure
  short _ := True

/-- Values one after the other. -/
def Shape.list {α : Type} (shape : Shape α) : Shape (List α) where
  sites values := values.flatMap shape.sites
  written values := values.mapM shape.written
  short values := ∀ value ∈ values, shape.short value

/-- A value is written out with some counts, whatever counts are left. -/
def Writes {α : Type} (written : StateM (List Nat) α) (counts : List Nat) (value : α) : Prop :=
  ∀ more, written (counts ++ more) = (value, more)

/-- A value is written out as its two parts are, one after the other. -/
structure Shape.Joins {α β γ : Type} (first : Shape α) (second : Shape β) (whole : Shape γ)
    (combine : α → β → γ) (a : α) (b : β)
    : Prop where
  sites : whole.sites (combine a b) = first.sites a ++ second.sites b
  written
    : whole.written (combine a b)
      = do
          let a ← first.written a
          let b ← second.written b
          pure (combine a b)
  short : ∀ a b, whole.short (combine a b) → first.short a ∧ second.short b

/-- A layout makes up what a parser reads as a value, and with its relationships written out it is
read as the value with them written out.
-/
structure Parser.Spells {α : Type} (p : Parser α) (shape : Shape α) (follows : List Char → Prop)
    (layout : Layout) (value : α) (tail : List Char)
    : Prop where
  sound : layout.Sound tail
  sites : layout.sites = shape.sites value
  solid : Solid layout.source
  again
    : ∀ chains text,
        layout.Fills chains text
        → ∃ written,
            Writes (shape.written value) (chains.map Prod.snd) written
            ∧ (shape.short written
                → ∀ other after,
                    skip other = text ++ after
                    → follows after
                    → Beside tail after
                    → p other = .ok written (skip after))

/-- What is left of a source behind a value of it is laid out. -/
def Parser.LaysOutAt {α : Type} (p : Parser α) (shape : Shape α) (follows : List Char → Prop)
    (source : List Char) (value : α) (rest : List Char)
    : Prop :=
  ∃ layout tail,
    skip source = layout.source ++ tail
    ∧ rest = skip tail
    ∧ p.Spells shape follows layout value tail

/-- Whatever a parser reads is laid out. -/
def Parser.LaysOut {α : Type} (p : Parser α) (shape : Shape α) (follows : List Char → Prop)
    : Prop :=
  ∀ source value rest, p source = .ok value rest → p.LaysOutAt shape follows source value rest

/-- What stands in quotes stands in one of the quotes of texts and names. -/
def Quoting.Holds : Quoting → Prop
  | .outside => True
  | .inside quote => quote ∈ quotes
  | .escaped quote => quote ∈ quotes

/-- Blanks may stand before what follows. -/
def Spaced (follows : List Char → Prop) : Prop :=
  ∀ gap source, (∀ c ∈ gap, isSpace c) → follows source → follows (gap ++ source)

section Spells

variable {α β γ : Type} {p : Parser α} {q : Parser β} {r : Parser γ} {first : Shape α}
  {second : Shape β} {whole : Shape γ} {combine : α → β → γ} {follows last : List Char → Prop}
  {layout other : Layout} {gap text tail : List Char} {a : α} {b : β}

theorem writes_pure (value : α) : Writes (pure value) [] value :=
  fun _ => rfl

theorem Writes.bind {written : StateM (List Nat) α} {f : α → StateM (List Nat) β}
    {counts more : List Nat} (writes : Writes written counts a) (also : Writes (f a) more b)
    : Writes (written >>= f) (counts ++ more) b := by
  intro left
  change (match written (counts ++ more ++ left) with | (value, left) => f value left) = _
  rw [List.append_assoc, writes]
  exact also left

theorem Writes.map {written : StateM (List Nat) α} {counts : List Nat}
    (writes : Writes written counts a) (g : α → β)
    : Writes (written >>= fun value => pure (g value)) counts (g a) := by
  have both := writes.bind (f := fun value => pure (g value)) (writes_pure (g a))
  rwa [List.append_nil] at both

theorem unquoted_spaces (spaces : ∀ c ∈ gap, isSpace c) : Unquoted gap :=
  unquoted_all fun c member => (isSpace_apart (spaces c member)).1

/-- Only quotes open what stands in quotes. -/
theorem Quoting.step_holds {place : Quoting} {c : Char} (holds : place.Holds)
    : (place.step c).Holds := by
  cases place with
  | outside =>
      rw [Quoting.step]
      split
      · rename_i isQuote
        exact isQuote
      · trivial
  | inside quote =>
      rw [Quoting.step]
      split
      · trivial
      · split <;> exact holds
  | escaped quote => exact holds

theorem Quoting.behind_holds {place : Quoting} (holds : place.Holds) (text : List Char)
    : (place.behind text).Holds := by
  induction text generalizing place with
  | nil => exact holds
  | cons c text ih => exact ih (step_holds holds)

/-- Blanks close no quotes. -/
theorem Quoting.eq_outside_of_spaces {place : Quoting} (holds : place.Holds)
    (spaces : ∀ c ∈ gap, isSpace c) (closed : place.behind gap = .outside)
    : place = .outside := by
  induction gap generalizing place with
  | nil => exact closed
  | cons c gap ih =>
      obtain ⟨space, others⟩ := List.forall_mem_cons.mp spaces
      have next := ih (step_holds holds) others closed
      cases place with
      | outside => rfl
      | inside quote =>
          have other : c ≠ quote := by
            rintro rfl
            exact (isSpace_apart space).1 holds
          rw [Quoting.step, if_neg other] at next
          split at next <;> cases next
      | escaped quote => cases next

/-- A text is out of quotes without the blanks around it. -/
theorem Unquoted.of_spaced {lead trail : List Char} (whole : Unquoted (lead ++ (text ++ trail)))
    (leads : ∀ c ∈ lead, isSpace c) (trails : ∀ c ∈ trail, isSpace c)
    : Unquoted text := by
  have inner : Unquoted (text ++ trail) := whole.of_append (unquoted_spaces leads)
  rw [Unquoted, Quoting.behind_append] at inner
  exact Quoting.eq_outside_of_spaces (@Quoting.behind_holds .outside trivial text) trails inner

/-- The text that a parser takes is out of quotes, as all that the parser takes is. -/
theorem unquoted_of_taken {source rest : List Char} (here : skip source = text ++ tail)
    (same : rest = skip tail) (covers : ∃ taken, source = taken ++ rest ∧ Unquoted taken)
    : Unquoted text := by
  obtain ⟨taken, split, unquoted⟩ := covers
  obtain ⟨lead, leads, spaces⟩ := exists_skipped source
  obtain ⟨trail, trails, others⟩ := exists_skipped tail
  have parts : taken = lead ++ (text ++ trail) := by
    rw [same] at split
    rw [here, trails] at leads
    refine (List.append_left_inj (skip tail)).mp ?_
    rw [← split]
    conv_lhs => rw [leads]
    simp
  exact (parts ▸ unquoted).of_spaced spaces others

/-- What is read again and is out of quotes is laid out without any relationships. -/
theorem Parser.Rereads.laysOut (rereads : p.Rereads true true follows)
    (covers
      : ∀ source value rest,
          p source = .ok value rest → ∃ taken, source = taken ++ rest ∧ Unquoted taken)
    : p.LaysOut .fixed follows := by
  intro source value rest read
  obtain ⟨text, tail, here, same, reread⟩ := rereads source value rest read
  refine ⟨.last text, tail, here, same, {
    sound := unquoted_of_taken here same (covers source value rest read)
    sites := rfl
    solid := reread.trimmed.solid
    again := ?_
  }⟩
  rintro chains _ ⟨⟩
  exact ⟨value, writes_pure value, fun _ other after opens ends beside =>
    reread.again other after opens ends beside⟩

theorem Layout.Fills.solid {chains : List (List Char × Nat)} (fills : layout.Fills chains text)
    (solid : Solid layout.source)
    : Solid text := by
  obtain ⟨c, others, same, noSpace⟩ := solid
  have head := fills.head
  rw [same] at head
  obtain ⟨rest, rfl⟩ := List.head?_eq_some_iff.mp head
  exact ⟨c, rest, rfl, noSpace⟩

/-- What is read one after the other is laid out one after the other. -/
theorem Parser.Spells.seq (spells : p.Spells first follows layout a (gap ++ (other.source ++ tail)))
    (also : q.Spells second last other b tail) (spaces : ∀ c ∈ gap, isSpace c)
    (joins : first.Joins second whole combine a b) (spaced : Spaced follows)
    (follow : ∀ source b after, q source = .ok b (skip after) → last after → follows source)
    (reads
      : ∀ source a middle b rest,
          p source = .ok a middle
          → q middle = .ok b rest
          → whole.short (combine a b)
          → r source = .ok (combine a b) rest)
    : r.Spells whole last (layout.append (other.prepend gap)) (combine a b) tail where
  sound := by
    refine Layout.Sound.append ?_ (also.sound.prepend (unquoted_spaces spaces))
    rw [Layout.source_prepend, List.append_assoc]
    exact spells.sound
  sites := by rw [Layout.sites_append, Layout.sites_prepend, spells.sites, also.sites, joins.sites]
  solid := by
    rw [Layout.source_append]
    exact solid_append spells.solid
  again chains text fills := by
    obtain ⟨firsts, seconds, front, _, rfl, rfl, before, others⟩ := fills.of_append
    obtain ⟨back, rfl, behind⟩ := others.of_prepend
    obtain ⟨a', written, again⟩ := spells.again firsts front before
    obtain ⟨b', writtenAlso, againAlso⟩ := also.again seconds back behind
    refine ⟨combine a' b', ?_, fun short source after opens ends beside => ?_⟩
    · rw [joins.written, List.map_append]
      exact written.bind (writtenAlso.map (combine a'))
    · obtain ⟨shortFirst, shortSecond⟩ := joins.short a' b' short
      have solid : Solid back := behind.solid also.solid
      have here : skip (back ++ after) = back ++ after := solid.skip_append after
      have read := againAlso shortSecond (back ++ after) after here ends beside
      have follow' : follows (gap ++ (back ++ after)) :=
        spaced gap _ spaces (follow _ b' after read ends)
      have goesOn : Beside (gap ++ (other.source ++ tail)) (gap ++ (back ++ after)) := by
        refine Beside.append (.inl ?_) gap
        rw [List.head?_append_of_ne_nil _ solid.ne_nil,
          List.head?_append_of_ne_nil _ also.solid.ne_nil, behind.head]
      have found := again shortFirst source _ (by rw [opens]; simp) follow' goesOn
      rw [skip_gap spaces, here] at found
      exact reads source a' _ b' _ found read short

variable (combine) in
/-- A sequence is laid out if its parts are. -/
theorem Parser.LaysOutAt.seq {source middle rest : List Char}
    (laysOut : p.LaysOutAt first follows source a middle)
    (also : q.LaysOutAt second last middle b rest) (joins : first.Joins second whole combine a b)
    (spaced : Spaced follows)
    (follow : ∀ source b after, q source = .ok b (skip after) → last after → follows source)
    (reads
      : ∀ source a middle b rest,
          p source = .ok a middle
          → q middle = .ok b rest
          → whole.short (combine a b)
          → r source = .ok (combine a b) rest)
    : r.LaysOutAt whole last source (combine a b) rest := by
  obtain ⟨layout, place, here, rfl, spells⟩ := laysOut
  obtain ⟨other, tail, next, rfl, spellsAlso⟩ := also
  rw [skip_skip] at next
  obtain ⟨gap, split, spaces⟩ := exists_skipped place
  rw [next] at split
  refine ⟨layout.append (other.prepend gap), tail, ?_, rfl, ?_⟩
  · rw [here, split, Layout.source_append, Layout.source_prepend]
    simp
  · rw [split] at spells
    exact spells.seq spellsAlso spaces joins spaced follow reads

/-- What is read as a value is laid out as another one that is made of it. -/
theorem Parser.LaysOutAt.map {g : α → β} {source rest : List Char}
    (laysOut : p.LaysOutAt first follows source a rest) (sites : second.sites (g a) = first.sites a)
    (written : second.written (g a) = first.written a >>= fun value => pure (g value))
    (short : ∀ a, second.short (g a) → first.short a) (fewer : ∀ after, last after → follows after)
    (reads
      : ∀ other a after,
          p other = .ok a (skip after)
          → last after
          → second.short (g a)
          → q other = .ok (g a) (skip after))
    : q.LaysOutAt second last source (g a) rest := by
  obtain ⟨layout, tail, here, rfl, spells⟩ := laysOut
  refine ⟨layout, tail, here, rfl, spells.sound, spells.sites.trans sites.symm, spells.solid, ?_⟩
  intro chains text fills
  obtain ⟨a', writes, again⟩ := spells.again chains text fills
  refine ⟨g a', written ▸ writes.map g, fun fits other after opens ends beside => ?_⟩
  exact reads other a' after (again (short a' fits) other after opens (fewer after ends) beside)
    ends fits

/-- What is read as by another parser is laid out as by that one. -/
theorem Parser.LaysOutAt.congr {q : Parser α} {source rest : List Char}
    (laysOut : p.LaysOutAt first follows source a rest)
    (same : ∀ other a rest, p other = .ok a rest → q other = .ok a rest)
    : q.LaysOutAt first follows source a rest :=
  laysOut.map (g := id) rfl (bind_pure _).symm (fun _ short => short) (fun _ ends => ends)
    fun other a _ read _ _ => same other a _ read

/-- What is laid out is so behind something without relationships in it. -/
theorem Parser.LaysOut.behind (opens : p.LaysOut .fixed fun _ => True)
    (laysOut : q.LaysOut second last)
    : Parser.LaysOut (p >>= fun _ => q) second last := by
  intro source b rest read
  obtain ⟨a, middle, found, more⟩ := Parser.bind_eq_ok.mp read
  refine (opens source a middle found).seq (fun _ b => b) (laysOut middle b rest more)
    ⟨rfl, ?_, fun _ _ short => ⟨trivial, short⟩⟩ (fun _ _ _ _ => trivial) (fun _ _ _ _ _ => trivial)
    fun _ _ _ _ _ found more _ => (Parser.bind_of_ok found).trans more
  simp [Shape.fixed]

end Spells

-----------------------------------------------------------------------------------------
-- Lists
-----------------------------------------------------------------------------------------

/-- One value and as many others as there are. -/
def listed {α : Type} (first next : Parser α) : Parser (List α) := do
  let value ← first
  let seen ← Parser.manyAfter next [value]
  pure seen.reverse

section Lists

variable {α : Type} {p next : Parser α} {shape : Shape α} {follows last : List Char → Prop}
  {value : α} {values : List α} {source rest : List Char}

theorem listed_iff (advances : next.Advances 1) (stops : next.Rejects [])
    : listed p next source = .ok values rest
      ↔ ∃ value others middle,
          values = value :: others
          ∧ p source = .ok value middle
          ∧ next.Repeats middle others rest := by
  constructor
  · intro read
    obtain ⟨value, middle, found, more⟩ := Parser.bind_eq_ok.mp read
    obtain ⟨seen, _, many, same⟩ := Parser.bind_eq_ok.mp more
    cases same
    obtain ⟨others, rfl, repeats⟩ := (Parser.manyAfter_iff advances stops).mp many
    exact ⟨value, others, middle, by simp, found, repeats⟩
  · rintro ⟨value, others, middle, rfl, found, repeats⟩
    have many : Parser.manyAfter next [value] middle = .ok (others.reverse ++ [value]) rest :=
      (Parser.manyAfter_iff advances stops).mpr ⟨others, rfl, repeats⟩
    refine (Parser.bind_of_ok found).trans ((Parser.bind_of_ok many).trans ?_)
    rw [List.reverse_append, List.reverse_reverse]
    rfl

/-- Values one after the other are laid out if each of them is, by induction over them. -/
theorem listed_laysOut (laysOut : p.LaysOut shape follows) (also : next.LaysOut shape follows)
    (advances : next.Advances 1) (stops : next.Rejects []) (spaced : Spaced follows)
    (joins : ∀ source value rest, next source = .ok value rest → follows source)
    (fewer : ∀ after, last after → follows after)
    (ends : ∀ after, last after → next.Rejects (skip after))
    : (listed p next).LaysOut shape.list last := by
  intro source values rest read
  obtain ⟨value, others, middle, rfl, found, repeats⟩ := (listed_iff advances stops).mp read
  clear read
  induction others generalizing p source value middle with
  | nil =>
      cases repeats
      refine (laysOut source value rest found).map (g := fun value => [value]) ?_ ?_ ?_ fewer ?_
      · exact List.flatMap_singleton _ _
      · simp [Shape.list]
      · exact fun value short => short value (List.mem_singleton_self value)
      · intro other value after read here _
        exact (listed_iff advances stops).mpr ⟨value, [], _, rfl, read, .done (ends after here)⟩
  | cons next' others ih =>
      cases repeats with
      | more read later =>
          have tail := ih also middle next' _ read later
          refine (laysOut source value middle found).seq List.cons tail ?_ spaced ?_ ?_
          · refine ⟨List.flatMap_cons, ?_, fun value values short => ?_⟩
            · simp [Shape.list, List.mapM_cons]
            · exact List.forall_mem_cons.mp short
          · intro other values after read _
            obtain ⟨value, _, _, -, read, -⟩ := (listed_iff advances stops).mp read
            exact joins other value _ read
          · intro other value middle values rest found read _
            obtain ⟨first, others, place, rfl, read, repeats⟩ := (listed_iff advances stops).mp read
            exact (listed_iff advances stops).mpr
              ⟨value, first :: others, middle, rfl, found, .more read repeats⟩

end Lists

end CypherSql.Cypher
