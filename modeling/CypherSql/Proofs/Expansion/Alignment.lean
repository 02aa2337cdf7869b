import CypherSql.Proofs.Expansion.Collected
import CypherSql.Proofs.Expansion.Hops
import Mathlib.Data.Bool.AllAny

/-! The layout of a query and the matches in its text. Where there are as many matches as there are
anonymous relationships with a range, each of the relationships is a match, with the same text
before it.
-/

namespace CypherSql.Cypher

open Text

/-- The texts behind the brackets that open ranges in a text. -/
def rangeTails (place : Quoting) (text : List Char) : List (List Char) :=
  (openings place text).filter fun rest => !(rangesAt rest).isEmpty

section Brackets

variable {relationship : RelationshipPattern} {text more tail gap rest : List Char} {head : Bool}

theorem length_rangesAt_le (text : List Char) : (rangesAt text).length ≤ 1 := by
  unfold rangesAt RelationshipDetail.ranges
  split
  · split <;> simp
  · simp

theorem length_rangeTails (place : Quoting) (text : List Char)
    : (rangeTails place text).length = (rangesFrom place text).length := by
  rw [rangeTails, rangesFrom_eq]
  induction openings place text with
  | nil => rfl
  | cons rest others ih =>
      have few := length_rangesAt_le rest
      rw [List.flatMap_cons, List.length_append, ← ih, List.filter_cons]
      cases found : rangesAt rest with
      | nil => simp
      | cons detail more =>
          rw [found, List.length_cons] at few
          have none : more = [] := List.length_eq_zero_iff.mp (by omega)
          simp [none, Nat.add_comm]

/-- What opens in the rest of a text opens in the text. -/
theorem rangeTails_append (unquoted : Unquoted text) (tail : List Char)
    : (rangeTails .outside tail).Sublist (rangeTails .outside (text ++ tail)) := by
  obtain ⟨before, same⟩ := exists_openings_append .outside text tail
  rw [show Quoting.behind text .outside = .outside from unquoted] at same
  rw [rangeTails, rangeTails, same, List.filter_append]
  exact List.sublist_append_right _ _

/-- A relationship with a range is read behind its bracket. -/
theorem rangesAt_of_read
    (read : relationshipPattern (arrowText "<-" head ++ (gap ++ '[' :: more))
      = .ok relationship rest)
    (ranged : relationship.detail.isRanged) (spaces : ∀ c ∈ gap, isSpace c)
    : rangesAt more = [relationship.detail] := by
  rw [relationshipPattern_eq] at read
  obtain ⟨leftHead, _, arrow, others⟩ := Parser.bind_eq_ok.mp read
  obtain ⟨tail, here, rfl, -⟩ := arrowEnd_eq_ok arrow
  obtain rfl : tail = gap ++ '[' :: more := by
    have sign : IsSign (arrowText "<-" head) := isSign_arrowText (by decide)
    rw [sign.trimmed.solid.skip_append] at here
    cases head <;> cases leftHead <;> cases here <;> rfl
  rw [skip_gap spaces, skip_cons (by decide)] at others
  obtain ⟨detail, place, optional, last⟩ := Parser.bind_eq_ok.mp others
  obtain ⟨rightHead, _, _, same⟩ := Parser.bind_eq_ok.mp last
  cases same
  rcases Parser.optional_eq_ok optional with ⟨detail, rfl, found⟩ | ⟨rfl, -⟩
  · rw [rangesAt, found]
    exact if_pos ranged
  · cases ranged

end Brackets

namespace Layout

/-- The sites are read where they stand, and no quotes are open there. -/
def Sited : Layout → List Char → Prop
  | last _, _ => True
  | site gap pattern relationship later, tail =>
      Unquoted gap ∧ IsSite relationship pattern (later.source ++ tail) ∧ later.Sited tail

/-- The text behind the first bracket of a text. -/
def behindBracket (text : List Char) : List Char :=
  (text.dropWhile (· != '[')).tail

/-- The texts behind the brackets of the sites. -/
def brackets : Layout → List Char → List (List Char)
  | last _, _ => []
  | site _ pattern _ later, tail =>
      behindBracket (pattern ++ (later.source ++ tail)) :: later.brackets tail

/-- Each site stands behind a node. -/
def BehindNodes : Layout → Prop
  | last _ => True
  | site gap _ _ later => BehindNode gap ∧ later.BehindNodes

/-- The head of an arrow that a site may have before it is part of the site, and no space separates
its bracket from it.
-/
def Tight : Layout → Prop
  | last _ => True
  | site gap pattern _ later =>
      (∃ head more, pattern = arrowText "<-" head ++ '[' :: more
        ∧ (head = false → gap.getLast? ≠ some '<'))
      ∧ later.Tight

section Unique

variable {layout other : Layout} {tail gap text more : List Char} {head also : Bool}

theorem Sound.sited (sound : layout.Sound tail) : layout.Sited tail ∧ layout.BehindNodes := by
  induction layout with
  | last => exact ⟨trivial, trivial⟩
  | site gap pattern relationship later ih =>
      obtain ⟨unquoted, behind, isSite, rest⟩ := sound
      exact ⟨⟨unquoted, isSite, (ih rest).1⟩, behind, (ih rest).2⟩

theorem behindBracket_eq (spaces : ∀ c ∈ gap, isSpace c)
    : behindBracket (arrowText "<-" head ++ (gap ++ '[' :: more)) = more := by
  have apart : ∀ c ∈ arrowText "<-" head ++ gap, c != '[' := by
    intro c member
    rcases List.mem_append.mp member with inArrow | inGap
    · have each : ∀ c ∈ arrowText "<-" head, c != '[' := by
        cases head <;> exact List.all_iff_forall_prop.mp (by decide)
      exact each c inArrow
    · refine bne_iff_ne.mpr ?_
      rintro rfl
      exact absurd (spaces '[' inGap) (by decide)
  rw [behindBracket, ← List.append_assoc, List.dropWhile_append_of_pos apart,
    List.dropWhile_cons_of_neg (by decide), List.tail_cons]

theorem length_brackets (layout : Layout) (tail : List Char)
    : (layout.brackets tail).length = layout.sites.length := by
  induction layout with
  | last => rfl
  | site gap pattern relationship later ih => simp [brackets, sites, ih]

/-- The brackets of the sites are among those that open ranges, by induction over the sites. -/
theorem Sited.brackets_sublist (sited : layout.Sited tail)
    : (layout.brackets tail).Sublist (rangeTails .outside (layout.source ++ tail)) := by
  induction layout with
  | last => exact List.nil_sublist _
  | site gap pattern relationship later ih =>
      obtain ⟨unquoted, isSite, rest⟩ := sited
      obtain ⟨head, spaces, more, rfl, blank⟩ := isSite.bracket
      have arrow : Unquoted (arrowText "<-" head) := by
        have each : ∀ c ∈ arrowText "<-" head, c ∉ quotes := by
          cases head <;> exact List.all_iff_forall_prop.mp (by decide)
        exact unquoted_all each
      have front : Unquoted (arrowText "<-" head ++ spaces) := arrow.append (unquoted_spaces blank)
      have inside : Unquoted more := by
        have whole : Unquoted (arrowText "<-" head ++ spaces ++ ['['] ++ more) := by
          simpa using isSite.unquoted
        exact whole.of_append (front.append rfl)
      have read : relationshipPattern
          (arrowText "<-" head ++ (spaces ++ '[' :: (more ++ (later.source ++ tail))))
            = .ok relationship (skip (later.source ++ tail)) := by
        simpa using isSite.reads
      have here : rangeTails .outside ('[' :: (more ++ (later.source ++ tail)))
          = (more ++ (later.source ++ tail)) :: rangeTails .outside
            (more ++ (later.source ++ tail)) := by
        rw [rangeTails, openings, List.filter_cons, rangesAt_of_read read isSite.ranged blank]
        rfl
      have within :=
        rangeTails_append (unquoted.append front) ('[' :: (more ++ (later.source ++ tail)))
      have first := @behindBracket_eq spaces (more ++ (later.source ++ tail)) head blank
      simp only [brackets, source, List.append_assoc, List.cons_append] at first within ⊢
      rw [first]
      rw [here] at within
      exact (((ih rest).trans (rangeTails_append inside _)).cons_cons _).trans within

theorem BehindNode.getLast?_ne (node : BehindNode gap) : gap.getLast? ≠ some '<' := by
  obtain ⟨before, spaces, rfl, blank⟩ := node
  rw [List.getLast?_append_of_ne_nil _ (List.cons_ne_nil ')' spaces)]
  intro last
  rcases List.mem_cons.mp (List.mem_of_getLast? last) with paren | inside
  · cases paren
  · exact absurd (blank '<' inside) (by decide)

/-- The left end of an arrow is found in the same place behind a node as next to its bracket. -/
theorem leftEnd_unique {spaces : List Char} (node : BehindNode gap)
    (blank : ∀ c ∈ spaces, isSpace c)
    (tight : also = false → text.getLast? ≠ some '<')
    (same : gap ++ (arrowText "<-" head ++ spaces) = text ++ arrowText "<-" also)
    : spaces = [] ∧ head = also ∧ gap = text := by
  have line (head : Bool) : ∃ front, arrowText "<-" head = front ++ ['-'] := by
    cases head
    · exact ⟨[], rfl⟩
    · exact ⟨['<'], rfl⟩
  obtain rfl : spaces = [] := by
    rcases List.eq_nil_or_concat spaces with rfl | ⟨front, c, rfl⟩
    · rfl
    · obtain ⟨arrow, written⟩ := line also
      have last := congrArg List.getLast? same
      rw [written] at last
      simp only [List.concat_eq_append, ← List.append_assoc, List.getLast?_append,
        List.getLast?_singleton, Option.some_or, Option.some.injEq] at last
      exact absurd (blank '-' (by simp [last])) (by decide)
  refine ⟨rfl, ?_⟩
  rw [List.append_nil] at same
  cases head <;> cases also
  · exact ⟨rfl, List.append_cancel_right same⟩
  · have whole : gap = text ++ ['<'] := by
      refine (List.append_left_inj ['-']).mp ?_
      rw [List.append_assoc]
      exact same
    exact absurd (by rw [whole, List.getLast?_append, List.getLast?_singleton]; rfl)
      node.getLast?_ne
  · have whole : gap ++ ['<'] = text := by
      refine (List.append_left_inj ['-']).mp ?_
      rw [List.append_assoc]
      exact same
    exact absurd (by rw [← whole, List.getLast?_append, List.getLast?_singleton]; rfl) (tight rfl)
  · exact ⟨rfl, List.append_cancel_right same⟩

/-- Two layouts of one text with their sites behind the same brackets are the same, by induction
over the sites.
-/
theorem Sited.unique (sited : layout.Sited tail) (also : other.Sited tail)
    (nodes : layout.BehindNodes)
    (tight : other.Tight) (same : layout.source ++ tail = other.source ++ tail)
    (brackets : layout.brackets tail = other.brackets tail)
    : layout = other := by
  induction layout generalizing other with
  | last text =>
      cases other with
      | last more => rw [show text = more from List.append_cancel_right same]
      | site => cases brackets
  | site gap pattern relationship later ih =>
      cases other with
      | last => cases brackets
      | site text pattern' relationship' later' =>
          obtain ⟨-, isSite, rest⟩ := sited
          obtain ⟨-, isSite', rest'⟩ := also
          obtain ⟨node, nodes⟩ := nodes
          obtain ⟨⟨also, more', rfl, leftmost⟩, tight⟩ := tight
          obtain ⟨head, spaces, more, rfl, blank⟩ := isSite.bracket
          obtain ⟨first, others⟩ := List.cons.inj brackets
          have nothing : ∀ c ∈ ([] : List Char), isSpace c := List.forall_mem_nil _
          have opened : more ++ (later.source ++ tail) = more' ++ (later'.source ++ tail) := by
            have left := @behindBracket_eq spaces (more ++ (later.source ++ tail)) head blank
            have right := @behindBracket_eq [] (more' ++ (later'.source ++ tail)) also nothing
            rw [← left, ← right]
            simpa using first
          have ends : gap ++ (arrowText "<-" head ++ spaces) = text ++ arrowText "<-" also := by
            refine (List.append_left_inj ('[' :: (more ++ (later.source ++ tail)))).mp ?_
            conv_rhs => rw [opened]
            simpa [source] using same
          obtain ⟨rfl, rfl, rfl⟩ := leftEnd_unique node blank leftmost ends
          have read := isSite.reads
          have whole : arrowText "<-" head ++ ([] ++ '[' :: more) ++ (later.source ++ tail)
              = arrowText "<-" head ++ '[' :: more' ++ (later'.source ++ tail) := by
            simp [opened]
          rw [whole, isSite'.reads] at read
          obtain ⟨rfl, behind⟩ := Reply.ok.inj read
          obtain ⟨pattern, rest''⟩ := isSite.trimmed.unique isSite'.trimmed whole behind.symm
          rw [ih rest rest' nodes tight rest'' others, pattern]

end Unique

end Layout

end CypherSql.Cypher
