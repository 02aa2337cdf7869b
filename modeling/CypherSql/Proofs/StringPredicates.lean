import CypherSql.Proofs.OperatorGrouping
import Mathlib.Data.List.Infix

/-! What `STARTS WITH`, `ENDS WITH` and `CONTAINS` mean once they are a `LIKE`. The text that is
looked for is part of the pattern, so that `%` and `_` in it are wildcards there: the condition asks
for some text that the sought one matches as a pattern, and keeps its meaning exactly if there are
no wildcards in it.
-/

namespace CypherSql.Sql

/-- The characters with a meaning of their own in a pattern: any sequence and any one character. -/
def isLikeWildcard (letter : Char) : Bool :=
  letter = '%' || letter = '_'

/-- A text has the form of a pattern. -/
def likes : (pattern text : List Char) → Bool
  | [], text => text.isEmpty
  | letter :: pattern, text =>
      if letter = '%' then text.tails.any (likes pattern)
      else text.head?.any (fun first => letter = '_' || letter = first) && likes pattern text.tail

/-- Behind `%` the pattern goes on at any place of the text. -/
theorem likes_percent {pattern text : List Char}
    : likes ('%' :: pattern) text
      ↔ ∃ skipped rest, text = skipped ++ rest ∧ likes pattern rest := by
  have isTail (rest : List Char) : rest ∈ text.tails ↔ ∃ skipped, text = skipped ++ rest := by
    rw [List.mem_tails]
    exact ⟨fun ⟨skipped, same⟩ => ⟨skipped, same.symm⟩, fun ⟨skipped, same⟩ => ⟨skipped, same.symm⟩⟩
  rw [likes, if_pos rfl, List.any_eq_true]
  constructor
  · rintro ⟨rest, member, matched⟩
    obtain ⟨skipped, same⟩ := (isTail rest).mp member
    exact ⟨skipped, rest, same, matched⟩
  · rintro ⟨skipped, rest, same, matched⟩
    exact ⟨rest, (isTail rest).mpr ⟨skipped, same⟩, matched⟩

/-- Every other character of a pattern stands for one character. -/
theorem likes_letter {letter : Char} {pattern text : List Char} (single : letter ≠ '%')
    : likes (letter :: pattern) text
      ↔ ∃ first rest, text = first :: rest ∧ (letter = '_' ∨ letter = first)
        ∧ likes pattern rest := by
  cases text with
  | nil => simp [likes, single]
  | cons first rest => simp [likes, single]

/-- What a pattern matches is put together from what its parts match, by induction on the first
part.
-/
theorem likes_append {first second text : List Char}
    : likes (first ++ second) text
      ↔ ∃ before behind, text = before ++ behind ∧ likes first before ∧ likes second behind := by
  induction first generalizing text with
  | nil =>
      simp only [List.nil_append, likes, List.isEmpty_iff]
      constructor
      · intro matched
        exact ⟨[], text, rfl, rfl, matched⟩
      · rintro ⟨_, behind, rfl, rfl, matched⟩
        exact matched
  | cons letter first ih =>
      rw [List.cons_append]
      rcases Decidable.em (letter = '%') with rfl | single
      · simp only [likes_percent, ih]
        constructor
        · rintro ⟨skipped, _, rfl, before, behind, rfl, onFirst, onSecond⟩
          exact ⟨skipped ++ before, behind, (List.append_assoc ..).symm,
            ⟨skipped, before, rfl, onFirst⟩, onSecond⟩
        · rintro ⟨_, behind, rfl, ⟨skipped, before, rfl, onFirst⟩, onSecond⟩
          exact ⟨skipped, before ++ behind, List.append_assoc .., before, behind, rfl,
            onFirst, onSecond⟩
      · simp only [likes_letter single, ih]
        constructor
        · rintro ⟨head, _, rfl, fits, before, behind, rfl, onFirst, onSecond⟩
          exact ⟨head :: before, behind, rfl, ⟨head, before, rfl, fits, onFirst⟩, onSecond⟩
        · rintro ⟨_, behind, rfl, ⟨head, before, rfl, fits, onFirst⟩, onSecond⟩
          exact ⟨head, before ++ behind, rfl, fits, before, behind, rfl, onFirst, onSecond⟩

/-- The pattern `%` by itself matches every text. -/
theorem likes_anything (text : List Char) : likes ['%'] text :=
  likes_percent.mpr ⟨text, [], (List.append_nil text).symm, rfl⟩

/-- Every text matches itself, its wildcards included. -/
theorem likes_self (text : List Char) : likes text text := by
  induction text with
  | nil => rfl
  | cons letter text ih =>
      rcases Decidable.em (letter = '%') with rfl | single
      · exact likes_percent.mpr ⟨['%'], text, rfl, ih⟩
      · exact (likes_letter single).mpr ⟨letter, text, rfl, .inr rfl, ih⟩

/-- Without wildcards a pattern matches itself only. -/
theorem likes_iff_eq {pattern text : List Char}
    (plain : ∀ letter ∈ pattern, isLikeWildcard letter = false)
    : likes pattern text ↔ text = pattern := by
  induction pattern generalizing text with
  | nil => exact List.isEmpty_iff
  | cons letter pattern ih =>
      obtain ⟨noWildcard, others⟩ := List.forall_mem_cons.mp plain
      obtain ⟨noPercent, noUnderscore⟩ : letter ≠ '%' ∧ letter ≠ '_' := by
        simpa [isLikeWildcard] using noWildcard
      rw [likes_letter noPercent]
      constructor
      · rintro ⟨first, rest, rfl, fits, matched⟩
        obtain rfl := fits.resolve_left noUnderscore
        rw [(ih others).mp matched]
      · rintro rfl
        exact ⟨letter, pattern, rfl, .inr rfl, (ih others).mpr rfl⟩

/-- A wildcard stands for other characters as well. -/
theorem likes_replaced {before behind : List Char} {letter : Char}
    (wildcard : isLikeWildcard letter)
    (other : Char)
    : likes (before ++ letter :: behind) (before ++ other :: behind) := by
  refine likes_append.mpr ⟨before, other :: behind, rfl, likes_self before, ?_⟩
  rcases Decidable.em (letter = '%') with rfl | single
  · exact likes_percent.mpr ⟨[other], behind, rfl, likes_self behind⟩
  · have underscore : letter = '_' := by simpa [isLikeWildcard, single] using wildcard
    exact (likes_letter single).mpr ⟨other, behind, rfl, .inl underscore, likes_self behind⟩

namespace LikePlace

variable {sought text : String}

/-- The operator of a query that looks for a text at a place. -/
def operator : LikePlace → BinaryOp
  | .start => .startsWith
  | .finish => .endsWith
  | .anywhere => .contains

/-- The sought text stands at the place in a text: as a prefix, as a suffix or as a part of it. -/
def Finds (sought text : String) : LikePlace → Prop
  | .start => sought.toList <+: text.toList
  | .finish => sought.toList <:+ text.toList
  | .anywhere => sought.toList <:+: text.toList

instance (place : LikePlace) (sought text : String) : Decidable (place.Finds sought text) :=
  match place with
  | .start => inferInstanceAs (Decidable (sought.toList <+: text.toList))
  | .finish => inferInstanceAs (Decidable (sought.toList <:+ text.toList))
  | .anywhere => inferInstanceAs (Decidable (sought.toList <:+: text.toList))

theorem Finds.infix {place : LikePlace} (finds : place.Finds sought text)
    : sought.toList <:+: text.toList := by
  cases place with
  | start => exact List.IsPrefix.isInfix finds
  | finish => exact List.IsSuffix.isInfix finds
  | anywhere => exact finds

/-- The pattern of a place, with the sought text in it as it is. -/
def patternOf (sought : String) : LikePlace → String
  | .start => sought ++ "%"
  | .finish => "%" ++ sought
  | .anywhere => "%" ++ sought ++ "%"

/-- A text has the form of the pattern exactly if some text that the sought one matches stands at
the place.
-/
theorem likes_patternOf {place : LikePlace}
    : likes (place.patternOf sought).toList text.toList
      ↔ ∃ found : String, likes sought.toList found.toList ∧ place.Finds found text := by
  have percent : "%".toList = ['%'] := rfl
  cases place with
  | start =>
      rw [patternOf, String.toList_append, percent, likes_append]
      constructor
      · rintro ⟨before, behind, same, matched, -⟩
        exact ⟨.ofList before, by simpa using matched, behind, by simpa using same.symm⟩
      · rintro ⟨found, matched, behind, same⟩
        exact ⟨found.toList, behind, same.symm, matched, likes_anything behind⟩
  | finish =>
      rw [patternOf, String.toList_append, percent, List.singleton_append, likes_percent]
      constructor
      · rintro ⟨before, behind, same, matched⟩
        exact ⟨.ofList behind, by simpa using matched, before, by simpa using same.symm⟩
      · rintro ⟨found, matched, before, same⟩
        exact ⟨before, found.toList, same.symm, matched⟩
  | anywhere =>
      rw [patternOf, String.toList_append, String.toList_append, percent, List.append_assoc,
        List.singleton_append, likes_percent]
      simp only [likes_append]
      constructor
      · rintro ⟨before, _, same, found, behind, rfl, matched, -⟩
        exact ⟨.ofList found, by simpa using matched, before, behind, by simpa using same.symm⟩
      · rintro ⟨found, matched, before, behind, same⟩
        exact ⟨before, found.toList
          ++ behind, by rw [← same, List.append_assoc], found.toList, behind, rfl, matched,
          likes_anything behind⟩

/-- Looking for what has the form of a text is looking for the text itself, in every text, exactly
if there are no wildcards in it.
-/
theorem likes_patternOf_iff_finds {place : LikePlace}
    : (∀ text : String, likes (place.patternOf sought).toList text.toList ↔ place.Finds sought text)
      ↔ ∀ letter ∈ sought.toList, isLikeWildcard letter = false := by
  constructor
  · intro same letter member
    obtain ⟨before, behind, split⟩ := List.append_of_mem member
    rcases Bool.eq_false_or_eq_true (isLikeWildcard letter) with wildcard | plain
    · -- Another letter in place of the wildcard gives a text of the same length that is matched.
      have replaced : likes sought.toList (before ++ 'a' :: behind) :=
        split ▸ likes_replaced wildcard 'a'
      have whole
          : place.Finds (.ofList (before ++ 'a' :: behind))
            (.ofList (before ++ 'a' :: behind)) := by
        cases place
        · exact List.prefix_refl _
        · exact List.suffix_refl _
        · exact List.infix_refl _
      have found := (same (.ofList (before ++ 'a' :: behind))).mp
        (likes_patternOf.mpr ⟨_, by simpa using replaced, whole⟩)
      have equal : before ++ letter :: behind = before ++ 'a' :: behind := by
        have inside := found.infix
        rw [split, String.toList_ofList] at inside
        exact inside.eq_of_length (by simp)
      obtain ⟨rfl, -⟩ := List.cons.inj (List.append_cancel_left equal)
      rfl
    · exact plain
  · intro plain text
    rw [likes_patternOf]
    simp only [likes_iff_eq plain]
    constructor
    · rintro ⟨found, same, finds⟩
      exact String.toList_inj.mp same ▸ finds
    · intro finds
      exact ⟨sought, rfl, finds⟩

end LikePlace

namespace OperatorTree

/-- The text that operators have as their value: a text is its own value and `||` joins two texts;
the values of everything else (columns, parameters, calls) are given.
-/
def text? (values : OperatorTree → Option String) : OperatorTree → Option String
  | .leaf (.text content) => some content
  | .joined .concat left right =>
      (left.text? values).bind fun first => (right.text? values).map fun second => first ++ second
  | tree => values tree

/-- The truth value of a `LIKE`. -/
def like? (values : OperatorTree → Option String) : OperatorTree → Option Bool
  | .joined .like operand pattern =>
      (operand.text? values).bind fun text =>
        (pattern.text? values).map fun pattern => likes pattern.toList text.toList
  | _ => none

variable {values : OperatorTree → Option String} {sought : String} {tree : OperatorTree}

theorem text?_pattern (value : tree.text? values = some sought) (place : LikePlace)
    : (place.tree tree).text? values = some (place.patternOf sought) := by
  cases place <;> simp [LikePlace.tree, LikePlace.wildcard, text?, value, LikePlace.patternOf]

end OperatorTree

namespace Context

variable {context : Context} {place : LikePlace} {left right expr : Plan.Expr} {sql : Expr}

/-- An expression has a text as its value in a scope. -/
def HasText (context : Context) (values : OperatorTree → Option String) (expr : Plan.Expr)
    (text : String)
    : Prop :=
  ∃ tree, context.Translates expr tree ∧ tree.text? values = some text

theorem hasText_iff {values : OperatorTree → Option String} {text : String}
    (written : context.expr expr = .ok sql)
    : context.HasText values expr text ↔ sql.tree.text? values = some text := by
  simp only [HasText, translates_iff written]
  constructor
  · rintro ⟨_, rfl, value⟩
    exact value
  · intro value
    exact ⟨_, rfl, value⟩

/-- A string predicate is written as a `LIKE` of its operands. -/
theorem written_stringPredicate
    (written : context.expr (.binary place.operator left right) = .ok sql)
    : ∃ operand sought,
        context.expr left = .ok operand ∧ context.expr right = .ok sought
          ∧ sql = .like place operand sought := by
  obtain ⟨operand, leftWritten, rest⟩ := Plan.bind_eq_ok.mp written
  obtain ⟨sought, rightWritten, same⟩ := Plan.bind_eq_ok.mp rest
  refine ⟨operand, sought, leftWritten, rightWritten, ?_⟩
  rw [← Except.ok.inj same]
  cases place <;> rfl

/-- Of operands with texts as their values, the `LIKE` that a string predicate is written as holds
exactly if some text that the sought one matches as a pattern stands at the place.
-/
theorem like?_of_texts {values : OperatorTree → Option String} {operand sought : Expr}
    {text pattern : String}
    (onLeft : operand.tree.text? values = some text)
    (onRight : sought.tree.text? values = some pattern)
    : ∃ truth,
        (Expr.like place operand sought).tree.like? values = some truth
        ∧ (truth = true
          ↔ ∃ found : String, likes pattern.toList found.toList ∧ place.Finds found text) := by
  refine ⟨likes (place.patternOf pattern).toList text.toList, ?_, LikePlace.likes_patternOf⟩
  simp [Expr.tree, OperatorTree.like?, onLeft, OperatorTree.text?_pattern onRight]

/-- The text of a string predicate is read in one way. Of texts, it then asks for some text that the
sought one matches as a pattern; that is the sought text itself for every text to look in exactly if
there are no wildcards in it.
-/
theorem stringPredicate_keepsMeaning_iff
    (named : ParametersNamed (.binary place.operator left right))
    (supplies : context.Supplies (.binary place.operator left right))
    (folded : NumbersFolded (.binary place.operator left right))
    (written : context.expr (.binary place.operator left right) = .ok sql)
    : ∃ tree,
        (∀ other, ReadsAs sql.text.toList other ↔ other = tree)
        ∧ (∀ values text sought,
            context.HasText values left text
            → context.HasText values right sought
            → ∃ truth,
                tree.like? values = some truth
                ∧ (truth = true
                  ↔ ∃ found : String, likes sought.toList found.toList ∧ place.Finds found text))
        ∧ ∀ sought,
            (∀ text, ∃ values, context.HasText values left text ∧ context.HasText
              values right sought)
            → ((∀ values text,
                  context.HasText values left text
                  → context.HasText values right sought
                  → (tree.like? values = some true ↔ place.Finds sought text))
                ↔ ∀ letter ∈ sought.toList, isLikeWildcard letter = false) := by
  obtain ⟨operand, soughtSql, leftWritten, rightWritten, rfl⟩ := written_stringPredicate written
  have reads := (expr_readsAs named supplies folded written).2
  refine ⟨_, fun other => (reads other).trans (translates_iff written other), ?_, ?_⟩
  · intro values text sought onLeft onRight
    exact like?_of_texts ((hasText_iff leftWritten).mp onLeft)
      ((hasText_iff rightWritten).mp onRight)
  · intro sought anyText
    -- The predicate says of a text whether it is like the sought one between its `%`.
    have holds (values text) (onLeft : context.HasText values left text)
        (onRight : context.HasText values right sought)
        : (Expr.like place operand soughtSql).tree.like? values = some true
          ↔ likes (place.patternOf sought).toList text.toList := by
      obtain ⟨truth, value, meaning⟩ := @like?_of_texts place _ _ _ _ _
        ((hasText_iff leftWritten).mp onLeft) ((hasText_iff rightWritten).mp onRight)
      rw [value, LikePlace.likes_patternOf, ← meaning, Option.some.injEq]
    rw [← @LikePlace.likes_patternOf_iff_finds _ place]
    constructor
    · intro same text
      obtain ⟨values, onLeft, onRight⟩ := anyText text
      rw [← holds values text onLeft onRight]
      exact same values text onLeft onRight
    · intro same values text onLeft onRight
      rw [holds values text onLeft onRight]
      exact same text

/-- Values in which every column has one text. -/
def everyColumn (text : String) : OperatorTree → Option String
  | .leaf (.column _ _) => some text
  | _ => none

theorem name_hasText (text : String)
    : sortedAges.HasText (everyColumn text) (.property (.var "a") "name") text :=
  ⟨_, @translates_of_expr sortedAges (.property (.var "a") "name") (.column "a" "name") rfl, rfl⟩

theorem literal_hasText (context : Context) (values : OperatorTree → Option String) (text : String)
    : context.HasText values (.literal (.text text)) text :=
  ⟨_, .literal (.text text), rfl⟩

/-- Witness: `a.name ENDS WITH 'son'`, which is written as `a.name LIKE '%' || 'son'` and keeps its
meaning.
-/
theorem endsWithSon_keepsMeaning
    : ∃ sql tree,
        sortedAges.expr
            (.binary .endsWith (.property (.var "a") "name") (.literal (.text "son")))
          = .ok sql
        ∧ sql.text = "a.name LIKE '%' || 'son'"
        ∧ (∀ other, ReadsAs sql.text.toList other ↔ other = tree)
        ∧ ∀ values text,
            sortedAges.HasText values (.property (.var "a") "name") text
            → sortedAges.HasText values (.literal (.text "son")) "son"
            → (tree.like? values = some true ↔ LikePlace.finish.Finds "son" text) := by
  have written : sortedAges.expr
      (.binary .endsWith (.property (.var "a") "name") (.literal (.text "son")))
      = .ok (.like .finish (.column "a" "name") (.literal (.text "son"))) := by
    rfl
  obtain ⟨tree, reads, -, keeps⟩ :=
    @stringPredicate_keepsMeaning_iff sortedAges .finish (.property (.var "a") "name")
      (.literal (.text "son")) _
      (by intro name member; simp [Plan.Expr.parts] at member)
      (by
        intro id member
        simp [LikePlace.operator, Plan.Expr.parts] at member
        subst member
        decide)
      (by intro value member; simp [LikePlace.operator, Plan.Expr.parts] at member)
      written
  refine ⟨_, tree, written, rfl, reads, (keeps "son" fun text => ?_).mpr (by simp [isLikeWildcard])⟩
  exact ⟨everyColumn text, name_hasText text, literal_hasText _ _ _⟩

/-- A name that starts with `a_` is looked for as one that starts with `a` and any character: `abc`
is found as well.
-/
theorem startsWithUnderscore_keepsNotMeaning
    : (∃ query lowered,
        Cypher.Query.parse "MATCH (a:Person) WHERE a.name STARTS WITH 'a_' RETURN a" = .ok query
        ∧ Plan.lower Plan.acquaintances.catalog query = .ok lowered
        ∧ treeText lowered.tree lowered.vars
          = .ok "SELECT a.id AS a FROM persons AS a WHERE a.name LIKE 'a_' || '%'")
      ∧ ∃ sql tree values,
          sortedAges.expr
              (.binary .startsWith (.property (.var "a") "name") (.literal (.text "a_")))
            = .ok sql
          ∧ sql.text = "a.name LIKE 'a_' || '%'"
          ∧ ReadsAs sql.text.toList tree
          ∧ sortedAges.HasText values (.property (.var "a") "name") "abc"
          ∧ sortedAges.HasText values (.literal (.text "a_")) "a_"
          ∧ tree.like? values = some true
          ∧ ¬LikePlace.start.Finds "a_" "abc" := by
  constructor
  · have isWritten : ((written? Plan.acquaintances.catalog
        "MATCH (a:Person) WHERE a.name STARTS WITH 'a_' RETURN a".toList).any fun
        | .ok sql => sql = "SELECT a.id AS a FROM persons AS a WHERE a.name LIKE 'a_' || '%'"
        | .error _ => false) = true := by
      rw [String.toList_ofList]
      decide +kernel
    obtain ⟨result, isWritten, same⟩ := (Option.any_eq_true _ _).mp isWritten
    obtain ⟨query, lowered, parsed, lowers, text⟩ := exists_of_written? isWritten
    cases result with
    | error => cases same
    | ok sql => exact ⟨query, lowered, parsed, lowers, by rw [text, of_decide_eq_true same]⟩
  · have written : sortedAges.expr
        (.binary .startsWith (.property (.var "a") "name") (.literal (.text "a_")))
        = .ok (.like .start (.column "a" "name") (.literal (.text "a_"))) := by
      rfl
    have reads : ReadsAs "a.name LIKE 'a_' || '%'".toList
        (Expr.like .start (.column "a" "name") (.literal (.text "a_"))).tree := by
      refine (@Expr.readsAs_text_iff (.like .start (.column "a" "name") (.literal (.text "a_")))
        ?_).mpr (Expr.grouped_of_direct ?_)
      · simp [Expr.OfScope, Expr.Everywhere, Expr.IsOfScope]
      · simp [Expr.Everywhere, Expr.IsDirect]
    exact ⟨_, _, everyColumn "abc", written, rfl, reads, name_hasText "abc", literal_hasText _ _ _,
      by decide, by decide⟩

end Context

end CypherSql.Sql
