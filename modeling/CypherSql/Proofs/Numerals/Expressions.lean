import CypherSql.Proofs.Numerals.Literals
import CypherSql.Proofs.Printing.Parsed

/-! The integers of an expression, at any depth, are those that its source shows, with a sign of
their own, and its parameters are words.
-/

namespace CypherSql.Cypher

/-- A source shows a number: the number stands in it, and no run of digits goes on before or behind
it.
-/
def Shows (whole : List Char) (n : Nat) : Prop :=
  ∃ before number rest,
    whole = before ++ (number ++ rest)
    ∧ (∀ c ∈ before.getLast?, c.isDigit = false)
    ∧ WholeNumber number rest
    ∧ decimalValue number = n

/-- An expression by itself is as a source has it: an integer fits into a signed word and is shown
there but for its sign, and the name of a parameter is a word.
-/
def Expr.StandsIn (whole : List Char) : Expr → Prop
  | .literal (.integer value) =>
      value.natAbs ≤ Number.largestSigned64 ∧ Shows whole value.natAbs
  | .parameter name => name.toList ≠ [] ∧ ∀ c ∈ name.toList, Text.isWordChar c
  | _ => True

/-- All parts of an expression are as a source has them. -/
def Expr.Sourced (whole : List Char) (e : Expr) : Prop :=
  ∀ part ∈ e.parts, part.StandsIn whole

namespace Expr.Sourced

variable {whole : List Char} {e left right : Expr}

/-- An expression is as the source has it if itself and the expressions inside it are. -/
theorem of_inside {inside : List Expr} (parts : e.parts = e :: inside) (own : e.StandsIn whole)
    (each : ∀ part ∈ inside, part.StandsIn whole)
    : e.Sourced whole := by
  rw [Sourced, parts]
  exact List.forall_mem_cons.mpr ⟨own, each⟩

theorem single (alone : e.parts = [e]) (own : e.StandsIn whole) : e.Sourced whole :=
  of_inside alone own nofun

theorem each {items : List Expr} (sourced : ∀ item ∈ items, item.Sourced whole)
    : ∀ part ∈ partsEach items, part.StandsIn whole := by
  intro part member
  rw [partsEach_eq] at member
  obtain ⟨item, listed, inside⟩ := List.mem_flatMap.mp member
  exact sourced item listed part inside

theorem list {items : List Expr} (sourced : ∀ item ∈ items, item.Sourced whole)
    : (Expr.list items).Sourced whole :=
  of_inside rfl trivial (each sourced)

theorem call {name : String} {distinct : Bool} {args : List Expr}
    (sourced : ∀ arg ∈ args, arg.Sourced whole)
    : (Expr.call name distinct args).Sourced whole :=
  of_inside rfl trivial (each sourced)

theorem map {entries : List (String × Expr)} (sourced : ∀ entry ∈ entries, entry.2.Sourced whole)
    : (Expr.map entries).Sourced whole := by
  refine of_inside rfl trivial fun part member => ?_
  rw [partsEntries_eq] at member
  obtain ⟨entry, listed, inside⟩ := List.mem_flatMap.mp member
  exact sourced entry listed part inside

theorem property (sourced : e.Sourced whole) (key : String) : (Expr.property e key).Sourced whole :=
  of_inside rfl trivial sourced

theorem unary (sourced : e.Sourced whole) (op : UnaryOp) : (Expr.unary op e).Sourced whole :=
  of_inside rfl trivial sourced

theorem binary (first : left.Sourced whole) (second : right.Sourced whole) (op : BinaryOp)
    : (Expr.binary op left right).Sourced whole :=
  of_inside rfl trivial (List.forall_mem_append.mpr ⟨first, second⟩)

/-- A sign before a number becomes part of it, and leaves its digits as they are. -/
theorem negate (sourced : e.Sourced whole) : (negate e).Sourced whole := by
  cases e with
  | literal value =>
      cases value with
      | integer value =>
          obtain ⟨small, shown⟩ := sourced _ List.mem_cons_self
          rw [← Int.natAbs_neg] at small shown
          exact .single rfl ⟨small, shown⟩
      | real value => exact .single rfl trivial
      | _ => exact sourced.unary .negation
  | _ => exact sourced.unary .negation

end Expr.Sourced

section Levels

variable {whole : List Char} {expr : Parser Expr}

/-- No digits are cut off before a number that is read. -/
theorem Uncut.shows {number rest : List Char} (here : Uncut whole (number ++ rest))
    (digits : WholeNumber number rest)
    : Shows whole (decimalValue number) := by
  obtain ⟨before, rfl, apart | lacks⟩ := here
  · exact ⟨before, number, rest, rfl, apart, digits, rfl⟩
  · obtain ⟨d, others, same, digit⟩ := digits.opens
    rw [same] at lacks
    rw [lacks d rfl] at digit
    cases digit

theorem literal_passes : literal.Passes (Uncut whole) := by
  have values : Parser.Passes (Uncut whole) (Parser.choice [
      realLiteral,
      integerLiteral,
      do
        let raw ← stringLiteral
        pure (Literal.text raw),
      keywordAs "TRUE" (.boolean true),
      keywordAs "FALSE" (.boolean false),
      keywordAs "NULL" .null]) := by
    refine Parser.Keeps.choice ?_
    simp only [List.forall_mem_cons, List.not_mem_nil, false_imp_iff, implies_true, and_true]
    refine ⟨?_, (digits_passes.reading _).bind fun _ _ => .pure trivial, ?_, ?_, ?_, ?_⟩
    · exact digits_passes.bind fun _ _ => (char_passes (by decide)).bind fun _ _ =>
        digits_passes.bind fun _ _ => .pure trivial
    · exact stringLiteral_passes.bind fun _ _ => .pure trivial
    · exact keywordAs_passes (by decide) _
    · exact keywordAs_passes (by decide) _
    · exact keywordAs_passes (by decide) _
  exact values.bind fun _ _ => .pure trivial

theorem literal_keeps : literal.Keeps (Uncut whole) (Expr.Sourced whole) := by
  intro source e rest here read
  refine ⟨(literal_passes source e rest here read).1, ?_⟩
  obtain ⟨value, middle, -, same⟩ := Parser.bind_eq_ok.mp read
  cases same
  -- Only the alternative that reads digits makes an integer, and it leaves off behind all of them.
  cases value with
  | integer n =>
      obtain ⟨number, rfl, digits, fits, rfl⟩ := literal_integer_iff.mp read
      exact .single rfl ⟨fits, here.shows digits⟩
  | _ => exact .single rfl trivial

theorem mapLiteral_keeps (inner : expr.Keeps (Uncut whole) (Expr.Sourced whole))
    : (mapLiteral expr).Keeps (Uncut whole) fun entries =>
      ∀ entry ∈ entries, entry.2.Sourced whole := by
  have entry : (mapEntry expr).Keeps (Uncut whole) fun entry => entry.2.Sourced whole :=
    symbol_passes.padded.bind fun _ _ => (char_passes (by decide)).bind fun _ _ =>
      inner.bind fun _ sourced => .pure sourced
  exact (mark_passes (by decide)).bind fun _ _ =>
    ((mark_passes (by decide)).separated entry).bind fun _ each =>
      (mark_passes (by decide)).bind fun _ _ => .pure each

theorem functionCall_keeps (inner : expr.Keeps (Uncut whole) (Expr.Sourced whole))
    : (functionCall expr).Keeps (Uncut whole) (Expr.Sourced whole) := by
  have star : Expr.star.Sourced whole := .single rfl trivial
  have arguments
      : (arguments expr).Keeps (Uncut whole) fun args => ∀ arg ∈ args, arg.Sourced whole := by
    have all : Parser.Keeps (Uncut whole) (fun args => ∀ arg ∈ args, arg.Sourced whole)
        (do mark '*'; pure [Expr.star]) :=
      (mark_passes (by decide)).bind fun _ _ => .pure (by simpa using star)
    exact .choice (by simpa using ⟨all, (mark_passes (by decide)).separated inner⟩)
  refine functionName_passes.bind fun _ _ => (mark_passes (by decide)).bind fun _ _ => ?_
  refine (keyword_passes (by decide)).optional.bind fun _ _ => arguments.bind fun _ each => ?_
  exact (mark_passes (by decide)).bind fun _ _ => .pure (.call each)

theorem atom_keeps (inner : expr.Keeps (Uncut whole) (Expr.Sourced whole))
    : (atom expr).Keeps (Uncut whole) (Expr.Sourced whole) := by
  have parameter : parameter.Keeps (Uncut whole) (Expr.Sourced whole) := by
    intro source e rest here read
    refine ⟨(parameter_passes source e rest here read).1, ?_⟩
    obtain ⟨_, _, _, more⟩ := Parser.bind_eq_ok.mp read
    obtain ⟨name, _, word, same⟩ := Parser.bind_eq_ok.mp more
    cases same
    obtain ⟨-, nonempty, letters, -⟩ := run1_eq_ok word
    exact .single rfl ⟨by simpa using nonempty, by simpa using letters⟩
  have list : (listLiteral expr).Keeps (Uncut whole) (Expr.Sourced whole) :=
    (mark_passes (by decide)).bind fun _ _ =>
      ((mark_passes (by decide)).separated inner).bind fun _ each =>
      (mark_passes (by decide)).bind fun _ _ => .pure (.list each)
  have map : Parser.Keeps (Uncut whole) (Expr.Sourced whole) (do
      let entries ← mapLiteral expr
      pure (.map entries)) :=
    (mapLiteral_keeps inner).bind fun _ each => .pure (.map each)
  have enclosed : (parenthesized expr).Keeps (Uncut whole) (Expr.Sourced whole) :=
    (mark_passes (by decide)).bind fun _ _ => inner.bind fun _ sourced =>
      (mark_passes (by decide)).bind fun _ _ => .pure sourced
  have name : Parser.Keeps (Uncut whole) (Expr.Sourced whole) (do
      let name ← identifier
      pure (.var name)) :=
    identifier_passes.bind fun _ _ => .pure (.single rfl trivial)
  exact .choice
    (by simpa using ⟨literal_keeps, parameter, functionCall_keeps inner, list, map, enclosed, name⟩)

theorem lookups_keeps (inner : expr.Keeps (Uncut whole) (Expr.Sourced whole))
    : (lookups expr).Keeps (Uncut whole) (Expr.Sourced whole) := by
  have key : nextKey.Passes (Uncut whole) := (char_passes (by decide)).bind fun _ _ => symbol_passes
  refine (atom_keeps inner).padded.bind fun base sourced => ?_
  refine (Parser.Keeps.iterate sourced fun state sourced => ?_).bind fun _ sourced =>
    blanks_passes.bind fun _ _ => .pure sourced
  refine key.optional.bind fun found _ => .pure fun next same => ?_
  obtain ⟨key, -, rfl⟩ := Option.map_eq_some_iff.mp same
  exact sourced.property key

/-- One round of a level adds no integers but those of the right operand. -/
theorem stepAt_keeps {level : Nat} {left : Expr} (sourced : left.Sourced whole)
    (operand : (operandAt expr level).Keeps (Uncut whole) (Expr.Sourced whole))
    : (stepAt expr level left).Keeps (Uncut whole) fun next =>
      ∀ later ∈ next, later.Sourced whole := by
  refine (testAt_passes level).optional.bind fun test _ => ?_
  cases test with
  | some test => exact .pure (by simpa using sourced.unary test)
  | none =>
      refine (operatorAt_passes level).optional.bind fun op _ => ?_
      cases op with
      | none => exact .pure (by simp)
      | some op =>
          exact operand.bind fun right second => .pure (by simpa using sourced.binary second op)

theorem negationsWithin_keeps
    (tighter : (comparisons expr).Keeps (Uncut whole) (Expr.Sourced whole)) (n : Nat)
    : (negationsWithin expr n).Keeps (Uncut whole) (Expr.Sourced whole) := by
  induction n with
  | zero => exact .reject
  | succ n ih =>
      have negation : Parser.Keeps (Uncut whole) (Expr.Sourced whole)
          (do keyword "NOT"; let operand ← negationsWithin expr n; pure (.unary .not operand)) :=
        (keyword_passes (by decide)).bind fun _ _ => ih.bind fun _ sourced =>
          .pure (sourced.unary .not)
      exact .choice (by simpa using ⟨negation, tighter⟩)

theorem signedWithin_keeps (inner : expr.Keeps (Uncut whole) (Expr.Sourced whole)) (n : Nat)
    : (signedWithin expr n).Keeps (Uncut whole) (Expr.Sourced whole) := by
  induction n with
  | zero => exact .reject
  | succ n ih =>
      have minus : Parser.Keeps (Uncut whole) (Expr.Sourced whole)
          (do mark '-'; let operand ← signedWithin expr n; pure (negate operand)) :=
        (mark_passes (by decide)).bind fun _ _ => ih.bind fun _ sourced => .pure sourced.negate
      have plus
          : Parser.Keeps (Uncut whole) (Expr.Sourced whole) (do mark '+'; signedWithin expr n) :=
        (mark_passes (by decide)).bind fun _ _ => ih
      exact .choice (by simpa using ⟨minus, plus, lookups_keeps inner⟩)

/-- Every level reads integers that its source shows, from the tightest level on. -/
theorem levelWithin_keeps (inner : expr.Keeps (Uncut whole) (Expr.Sourced whole)) {level : Nat}
    (within : level ≤ 9) (n : Nat)
    : (levelWithin expr n level).Keeps (Uncut whole) (Expr.Sourced whole) := by
  induction within using Nat.decreasingInduction generalizing n with
  | self => exact lookups_keeps inner
  | of_succ level within ih =>
      rcases loop_or_single level within with loop | rfl | rfl
      · have operand : (operandAt expr level).Keeps (Uncut whole) (Expr.Sourced whole) :=
          fun source e rest here read => ih (source.length + 1) source e rest here read
        rw [levelWithin_eq_loop loop]
        exact operand.bind fun first sourced =>
          .iterate sourced fun left sourced => stepAt_keeps sourced operand
      · exact negationsWithin_keeps (ih 0) n
      · exact signedWithin_keeps inner n

/-- The same for whole expressions, by induction over the depth of their brackets. -/
theorem expressionWithin_keeps (n : Nat)
    : (expressionWithin n).Keeps (Uncut whole) (Expr.Sourced whole) := by
  induction n with
  | zero => exact .reject
  | succ n ih => exact @levelWithin_keeps whole (expressionWithin n) ih 0 (by decide) 0

theorem expression_keeps : expression.Keeps (Uncut whole) (Expr.Sourced whole) :=
  fun source e rest here read => expressionWithin_keeps (source.length + 1) source e rest here read

end Levels

end CypherSql.Cypher
