import CypherSql.Cypher.Lexeme
import Mathlib.Data.List.DropRight
import Mathlib.Data.List.Forall2

/-! Replies of parsers that are built from others, on sources whose parts are known. -/

namespace CypherSql.Cypher

/-- What is left of a source after the blanks at its start. -/
def skip (source : List Char) : List Char :=
  source.dropWhile isSpace

@[simp]
theorem skip_nil : skip [] = [] :=
  rfl

theorem skip_cons {c : Char} {rest : List Char} (noSpace : isSpace c = false)
    : skip (c :: rest) = c :: rest :=
  List.dropWhile_cons_of_neg (by simp [noSpace])

@[simp]
theorem skip_space (rest : List Char) : skip (' ' :: rest) = skip rest :=
  rfl

@[simp]
theorem skip_skip (source : List Char) : skip (skip source) = skip source := by
  rw [skip, skip, List.dropWhile_idempotent]

/-- Some character of the text is no blank. -/
def Visible (text : List Char) : Prop :=
  ∃ c ∈ text, isSpace c = false

theorem length_skip_le (source : List Char) : (skip source).length ≤ source.length :=
  (List.dropWhile_sublist _).length_le

/-- More is left of a source with a visible text in front, by induction over the text. -/
theorem Visible.length_skip_lt {text : List Char} (visible : Visible text) (rest : List Char)
    : (skip rest).length < (skip (text ++ rest)).length := by
  induction text with
  | nil =>
      obtain ⟨c, member, -⟩ := visible
      cases member
  | cons d text ih =>
      cases space : isSpace d with
      | false =>
          have shrinks := length_skip_le rest
          rw [List.cons_append, skip_cons space, List.length_cons, List.length_append]
          omega
      | true =>
          have same : skip (d :: text ++ rest) = skip (text ++ rest) :=
            List.dropWhile_cons_of_pos space
          rw [same]
          refine ih ?_
          obtain ⟨c, member, noSpace⟩ := visible
          rcases List.mem_cons.mp member with rfl | later
          · rw [space] at noSpace
            cases noSpace
          · exact ⟨c, later, noSpace⟩

namespace Parser

variable {α β : Type} {p : Parser α} {f : α → Parser β} {source rest : List Char} {value : α}

/-- A parser lets another alternative be tried. -/
def Rejects (p : Parser α) (source : List Char) : Prop :=
  ∃ trace, p source = .rejected trace

theorem bind_of_ok (read : p source = .ok value rest) : (p >>= f) source = f value rest := by
  change Parser.bind p f source = _
  rw [Parser.bind, read]

theorem pure_eq (value : α) (source : List Char)
    : (pure value : Parser α) source = .ok value source :=
  rfl

/-- A sequence reads what its second parser reads after the first. -/
theorem bind_eq_ok {result : β}
    : (p >>= f) source = .ok result rest
      ↔ ∃ value middle, p source = .ok value middle ∧ f value middle = .ok result rest := by
  constructor
  · intro read
    change Parser.bind p f source = _ at read
    unfold Parser.bind at read
    split at read
    · rename_i value middle found
      exact ⟨value, middle, found, read⟩
    · cases read
    · cases read
  · rintro ⟨value, middle, found, read⟩
    rw [bind_of_ok found, read]

theorem Rejects.bind (rejects : p.Rejects source) : (p >>= f).Rejects source := by
  obtain ⟨trace, rejected⟩ := rejects
  refine ⟨trace, ?_⟩
  change Parser.bind p f source = _
  rw [Parser.bind, rejected]

theorem Rejects.bind_of_ok (read : p source = .ok value rest) (rejects : (f value).Rejects rest)
    : (p >>= f).Rejects source := by
  obtain ⟨trace, rejected⟩ := rejects
  exact ⟨trace, by rw [Parser.bind_of_ok read, rejected]⟩

/-- Where a sequence is rejected whose second parser always reads, its first parser rejects. -/
theorem rejects_of_bind (total : ∀ value middle, ∃ result rest, f value middle = .ok result rest)
    (rejects : (p >>= f).Rejects source)
    : p.Rejects source := by
  obtain ⟨trace, rejected⟩ := rejects
  cases reply : p source with
  | ok value middle =>
      obtain ⟨result, rest, read⟩ := total value middle
      rw [Parser.bind_of_ok reply, read] at rejected
      cases rejected
  | rejected other => exact ⟨other, reply⟩
  | failed other =>
      change Parser.bind p f source = _ at rejected
      rw [Parser.bind, reply] at rejected
      cases rejected

theorem rejects_reject (source : List Char) : (reject : Parser α).Rejects source :=
  ⟨_, rfl⟩

theorem Rejects.not_ok (rejects : p.Rejects source) : p source ≠ .ok value rest := by
  obtain ⟨trace, rejected⟩ := rejects
  rw [rejected]
  nofun

/-- One of several parsers reads the source, and those before it reject it. -/
inductive Picks (source : List Char) (value : α) (rest : List Char) : List (Parser α) → Prop where
  | here {p ps} (read : p source = .ok value rest) : Picks source value rest (p :: ps)
  | there {p ps} (rejects : p.Rejects source) (later : Picks source value rest ps)
    : Picks source value rest (p :: ps)

theorem choiceAfter_cons (before : Option Trace) (p : Parser α) (ps : List (Parser α))
    (source : List Char)
    : choiceAfter before (p :: ps) source
      = match p source with
        | .rejected trace => choiceAfter (some (before.elim trace (·.further trace))) ps source
        | reply => reply :=
  rfl

/-- A choice reads what the first parser reads that does not reject. -/
theorem choice_eq_ok {ps : List (Parser α)}
    : choice ps source = .ok value rest ↔ Picks source value rest ps := by
  unfold choice
  generalize (none : Option Trace) = before
  induction ps generalizing before with
  | nil =>
      constructor
      · intro read
        cases read
      · intro picks
        cases picks
  | cons p ps ih =>
      rw [choiceAfter_cons]
      cases reply : p source with
      | ok other middle =>
          constructor
          · intro same
            exact .here (reply.trans same)
          · intro picks
            cases picks with
            | here read => exact reply.symm.trans read
            | there rejects => exact absurd reply rejects.not_ok
      | rejected trace =>
          refine (ih _).trans ⟨fun picks => .there ⟨trace, reply⟩ picks, fun picks => ?_⟩
          cases picks with
          | here read => exact absurd read (Rejects.not_ok ⟨trace, reply⟩)
          | there _ later => exact later
      | failed trace =>
          constructor
          · intro read
            cases read
          · intro picks
            cases picks with
            | here read => exact absurd (reply.symm.trans read) nofun
            | there rejects =>
                obtain ⟨other, rejected⟩ := rejects
                exact absurd (reply.symm.trans rejected) nofun

/-- A choice rejects exactly what all of its parsers reject. -/
theorem rejects_choice {ps : List (Parser α)}
    : (choice ps).Rejects source ↔ ∀ p ∈ ps, p.Rejects source := by
  unfold choice
  generalize (none : Option Trace) = before
  induction ps generalizing before with
  | nil => simpa using ⟨_, rfl⟩
  | cons p ps ih =>
      rw [List.forall_mem_cons, Rejects, choiceAfter_cons]
      cases reply : p source with
      | ok other middle => simp [Rejects, reply]
      | rejected trace =>
          have first : p.Rejects source := ⟨trace, reply⟩
          exact (ih _).trans (and_iff_right first).symm
      | failed trace => simp [Rejects, reply]

theorem optional_of_ok (read : p source = .ok value rest)
    : p.optional source = .ok (some value) rest := by
  rw [optional, read]

theorem optional_of_rejects (rejects : p.Rejects source) : p.optional source = .ok none source := by
  obtain ⟨trace, rejected⟩ := rejects
  rw [optional, rejected]

/-- An optional value is read, or nothing is where there is none. -/
theorem optional_eq_ok {found : Option α} (read : p.optional source = .ok found rest)
    : (∃ value, found = some value ∧ p source = .ok value rest)
      ∨ (found = none ∧ rest = source) := by
  unfold optional at read
  split at read
  · rename_i value middle first
    cases read
    exact .inl ⟨value, rfl, first⟩
  · cases read
    exact .inr ⟨rfl, rfl⟩
  · cases read

theorem committed_of_ok (read : p source = .ok value rest)
    : p.committed source = .ok value rest := by
  rw [committed, read]

theorem within_of_ok (read : p source = .ok value rest) (complaint : Complaint)
    : p.within complaint source = .ok value rest := by
  rw [within, read]

theorem reading_of_ok {read : α → Option β} {result : β} (found : p source = .ok value rest)
    (same : read value = some result)
    : p.reading read source = .ok result rest := by
  rw [reading, found]
  simp only [same]

theorem Rejects.reading (rejects : p.Rejects source) (read : α → Option β)
    : (p.reading read).Rejects source := by
  obtain ⟨trace, rejected⟩ := rejects
  exact ⟨trace, by rw [Parser.reading, rejected]⟩

/-- A step leads from one state and place to another when it is repeated, with less left of the
source each time.
-/
inductive Steps (step : α → Parser (Option α)) : α → List Char → α → List Char → Prop where
  | done {state source} : Steps step state source state source
  | more {state source next middle last rest} (reads : step state source = .ok (some next) middle)
    (shorter : middle.length < source.length) (later : Steps step next middle last rest)
    : Steps step state source last rest

section Steps

variable {step : α → Parser (Option α)} {state next last : α} {middle : List Char}

/-- One more step at the end. -/
theorem Steps.snoc (steps : Steps step state source next middle)
    (reads : step next middle = .ok (some last) rest) (shorter : rest.length < middle.length)
    : Steps step state source last rest := by
  induction steps with
  | done => exact .more reads shorter .done
  | more first less _ ih => exact .more first less (ih reads shorter)

/-- Steps are repeated until there is no next one, by induction over them. -/
theorem Steps.iterate (steps : Steps step state source last rest)
    (ends : step last rest = .ok none rest)
    : iterate step state source = .ok last rest := by
  have repeated (times : Nat) (enough : source.length ≤ times)
      : iterateWithin step times state source = .ok last rest := by
    induction steps generalizing times with
    | done =>
        cases times with
        | zero => rfl
        | succ times =>
            rw [iterateWithin, bind_of_ok ends]
            rfl
    | more reads shorter _ ih =>
        cases times with
        | zero => omega
        | succ times =>
            rw [iterateWithin, bind_of_ok reads]
            exact ih ends times (by omega)
  exact repeated source.length le_rfl

end Steps

/-- One more value after those that were read, in reverse. -/
def manyStep (p : Parser α) (seen : List α) : Parser (Option (List α)) := do
  match ← optional p with
  | none => pure none
  | some a => pure (some (a :: seen))

theorem manyAfter_eq (p : Parser α) (seen : List α)
    : manyAfter p seen = iterate (manyStep p) seen :=
  rfl

/-- Values are read one after the other until there is no next one. -/
theorem Steps.manyAfter {seen values : List α} (steps : Steps (manyStep p) seen source values rest)
    (ends : p.Rejects rest)
    : manyAfter p seen source = .ok values rest := by
  have stop : manyStep p values rest = .ok none rest := bind_of_ok (optional_of_rejects ends)
  rw [manyAfter_eq]
  exact steps.iterate stop

theorem many1_of_ok {seen : List α} {middle : List Char} (first : p source = .ok value middle)
    (more : manyAfter p [value] middle = .ok seen rest)
    : many1 p source = .ok seen.reverse rest := by
  unfold many1
  refine (@bind_of_ok _ _ _ _ source middle value ?_).trans (bind_of_ok more)
  simp only [first]

section Lists

variable {ι : Type} {text : ι → List Char} {items : List ι} {follows : List Char → Prop}
  {related : ι → α → Prop}

/-- The texts of a list are read one after the other, by induction over the list. Each is read
whatever may follow, with the blanks after it.
-/
theorem manyAfter_related {seen : List α}
    (each
      : ∀ item ∈ items,
          ∀ tail,
            follows tail
            → ∃ value, related item value ∧ p (skip (text item ++ tail)) = .ok value (skip tail))
    (visible : ∀ item ∈ items, Visible (text item))
    (more : ∀ item ∈ items, ∀ tail, follows (text item ++ tail)) (last : follows rest)
    (ends : p.Rejects (skip rest))
    : ∃ values,
        List.Forall₂ related items values
        ∧ manyAfter p seen (skip (items.flatMap text ++ rest))
          = .ok (values.reverse ++ seen) (skip rest) := by
  have steps : ∃ values,
      List.Forall₂ related items values
      ∧ Steps (manyStep p) seen (skip (items.flatMap text ++ rest)) (values.reverse ++ seen)
          (skip rest) := by
    induction items generalizing seen with
    | nil => exact ⟨[], .nil, .done⟩
    | cons item items ih =>
        rw [List.forall_mem_cons] at each visible more
        have follow : follows (items.flatMap text ++ rest) := by
          cases items with
          | nil => exact last
          | cons next items =>
              rw [List.flatMap_cons, List.append_assoc]
              exact more.2 next (by simp) _
        obtain ⟨value, isRelated, reads⟩ := each.1 _ follow
        obtain ⟨values, areRelated, later⟩ := @ih (value :: seen) each.2 visible.2 more.2
        refine ⟨value :: values, .cons isRelated areRelated, ?_⟩
        rw [List.flatMap_cons, List.append_assoc]
        exact .more (bind_of_ok (optional_of_ok reads)) (visible.1.length_skip_lt _)
          (by simpa using later)
  obtain ⟨values, areRelated, steps⟩ := steps
  exact ⟨values, areRelated, steps.manyAfter ends⟩

/-- The texts of a list are read back. -/
theorem many_read {p : Parser ι}
    (each : ∀ item ∈ items, ∀ tail,
      follows tail → p (skip (text item ++ tail)) = .ok item (skip tail))
    (visible : ∀ item ∈ items, Visible (text item))
    (more : ∀ item ∈ items, ∀ tail, follows (text item ++ tail)) (last : follows rest)
    (ends : p.Rejects (skip rest))
    : many p (skip (items.flatMap text ++ rest)) = .ok items (skip rest) := by
  have one : ∀ item ∈ items, ∀ tail, follows tail →
      ∃ value, item = value ∧ p (skip (text item ++ tail)) = .ok value (skip tail) :=
    fun item member tail follow => ⟨item, rfl, each item member tail follow⟩
  obtain ⟨values, same, reads⟩ :=
    @manyAfter_related _ _ rest _ _ _ _ _ [] one visible more last ends
  rw [List.forall₂_eq_eq_eq] at same
  rw [many, bind_of_ok reads, pure_eq, List.append_nil, List.reverse_reverse, ← same]

/-- Texts with separators between them are read one after the other. -/
theorem separated1_related {separator : Parser Unit} {first : ι} {c : Char} {gap : List Char}
    (each
      : ∀ item ∈ first :: items,
          ∀ tail,
            follows tail
            → ∃ value, related item value ∧ p (text item ++ tail) = .ok value (skip tail))
    (separates
      : ∀ item ∈ items,
          ∀ tail, separator (c :: (gap ++ text item) ++ tail) = .ok () (text item ++ tail))
    (noSpace : isSpace c = false) (more : ∀ tail, follows (c :: tail)) (last : follows rest)
    (ends : separator.Rejects (skip rest))
    : ∃ values,
        List.Forall₂ related (first :: items) values
        ∧ separated1 separator p
              (text first ++ items.flatMap (fun item => c :: (gap ++ text item)) ++ rest)
          = .ok values (skip rest) := by
  rw [List.forall_mem_cons] at each
  have follow : follows (items.flatMap (fun item => c :: (gap ++ text item)) ++ rest) := by
    cases items with
    | nil => exact last
    | cons next items => exact more _
  have one : ∀ item ∈ items, ∀ tail, follows tail →
      ∃ value, related item value
        ∧ (separator >>= fun _ => p) (skip (c :: (gap ++ text item) ++ tail))
          = .ok value (skip tail) := by
    intro item member tail follow
    obtain ⟨value, isRelated, reads⟩ := each.2 item member tail follow
    refine ⟨value, isRelated, ?_⟩
    rw [List.cons_append, skip_cons noSpace, ← List.cons_append,
      bind_of_ok (separates item member tail), reads]
  obtain ⟨value, isRelated, reads⟩ := each.1 _ follow
  obtain ⟨values, areRelated, others⟩ :=
    @manyAfter_related _ _ rest _ _ items follows related [value]
    one (fun item _ => ⟨c, by simp, noSpace⟩) (fun _ _ _ => more _) last ends.bind
  refine ⟨value :: values, .cons isRelated areRelated, ?_⟩
  rw [separated1, List.append_assoc, bind_of_ok reads, bind_of_ok others, pure_eq]
  simp

end Lists

end Parser

end CypherSql.Cypher
