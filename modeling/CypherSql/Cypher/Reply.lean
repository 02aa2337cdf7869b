/-!
Replies of a parser and the combinators that parsers are built from. A parser takes what is left of
the source. It succeeds with a value and a rest, rejects its input so that another alternative may
be tried, or fails for good.
-/

namespace CypherSql.Cypher

/-- What a parser has to say about a place in the source. -/
inductive Complaint where
  | unexpected
  | noAlternative
  | invalidLiteral
  | nodePattern
  | matchClause
  | whereClause
  | projectionItems
  | orderByClause
  | skipClause
  | limitClause
  | chainTooLong
  | trailingTokens
  deriving DecidableEq, Repr

/-- The wording of a complaint. -/
def Complaint.text : Complaint → String
  | .unexpected => "unexpected input"
  | .noAlternative => "unexpected input (appended)"
  | .invalidLiteral => "invalid literal"
  | .nodePattern => "Error in node pattern"
  | .matchClause => "Error in match clause"
  | .whereClause => "Error in where clause"
  | .projectionItems => "Error in projection items"
  | .orderByClause => "Error in order by clause"
  | .skipClause => "Error in skip clause"
  | .limitClause => "Error in limit clause"
  | .chainTooLong => "relationship chain is too long"
  | .trailingTokens => "Unexpected tokens after query"

/-- A complaint together with the source from its place on. -/
structure TraceEntry where
  remaining : List Char
  complaint : Complaint
  deriving DecidableEq, Repr

/-- Why parsing stopped: the innermost complaint, then those of the parsers around it. -/
structure Trace where
  innermost : TraceEntry
  around : List TraceEntry
  deriving DecidableEq, Repr

namespace Trace

/-- A single complaint at a place. -/
def here (remaining : List Char) (complaint : Complaint) : Trace :=
  ⟨⟨remaining, complaint⟩, []⟩

/-- The trace with one more complaint around it. -/
def within (trace : Trace) (remaining : List Char) (complaint : Complaint) : Trace :=
  { trace with around := trace.around ++ [⟨remaining, complaint⟩] }

/-- The trace that got further into the source; of two at the same place the later one. -/
def further (earlier later : Trace) : Trace :=
  if later.innermost.remaining.length ≤ earlier.innermost.remaining.length then later
  else earlier

/-- All complaints, the innermost first. -/
def entries (trace : Trace) : List TraceEntry :=
  trace.innermost :: trace.around

/-- The innermost complaint with the first characters of what it is about. -/
def hint (trace : Trace) : String :=
  let near := trace.innermost.remaining.take 32
  if near.isEmpty then trace.innermost.complaint.text ++ " at end of input"
  else trace.innermost.complaint.text ++ " near `" ++ String.ofList near ++ "`"

/-- All complaints with the source from their places on, a line for each. -/
def report (trace : Trace) : String :=
  String.join (trace.entries.map fun entry =>
    entry.complaint.text ++ ": " ++ String.ofList entry.remaining ++ "\n")

end Trace

/-- The outcome of a parser. A rejection lets another alternative be tried, a failure does not. -/
inductive Reply (α : Type) where
  | ok (value : α) (rest : List Char)
  | rejected (trace : Trace)
  | failed (trace : Trace)

/-- A parser of values of a type. -/
def Parser (α : Type) := List Char → Reply α

namespace Parser

variable {α β : Type}

/-- Succeeds without consuming anything. -/
protected def pure (a : α) : Parser α :=
  fun s => .ok a s

/-- Runs a second parser on the rest of the first. -/
protected def bind (p : Parser α) (f : α → Parser β) : Parser β :=
  fun s =>
    match p s with
    | .ok a rest => f a rest
    | .rejected trace => .rejected trace
    | .failed trace => .failed trace

instance : Monad Parser where
  pure := Parser.pure
  bind := Parser.bind

/-- Rejects every input. -/
def reject : Parser α :=
  fun s => .rejected (.here s .unexpected)

/-- Tries the parsers in order. If all reject, the trace that got furthest stands for them, with
the place of the whole choice around it.
-/
def choiceAfter (before : Option Trace) : List (Parser α) → Parser α
  | [] => fun s =>
      .rejected (match before with
        | some trace => trace.within s .noAlternative
        | none => .here s .noAlternative)
  | p :: ps => fun s =>
      match p s with
      | .rejected trace => choiceAfter (some (before.elim trace (·.further trace))) ps s
      | reply => reply

/-- The first of the parsers that does not reject. -/
def choice (ps : List (Parser α)) : Parser α :=
  choiceAfter none ps

/-- The value of a parser, or `none` without consuming anything where it rejects. -/
def optional (p : Parser α) : Parser (Option α) :=
  fun s =>
    match p s with
    | .ok a rest => .ok (some a) rest
    | .rejected _ => .ok none s
    | .failed trace => .failed trace

/-- Turns a rejection into a failure. -/
def committed (p : Parser α) : Parser α :=
  fun s =>
    match p s with
    | .rejected trace => .failed trace
    | reply => reply

/-- Adds a complaint at the start of the parser to whatever stops it. -/
def within (complaint : Complaint) (p : Parser α) : Parser α :=
  fun s =>
    match p s with
    | .ok a rest => .ok a rest
    | .rejected trace => .rejected (trace.within s complaint)
    | .failed trace => .failed (trace.within s complaint)

/-- Rejects a value that has no reading as an invalid literal at the start of the parser. -/
def reading (p : Parser α) (read : α → Option β) : Parser β :=
  fun s =>
    match p s with
    | .ok a rest =>
        match read a with
        | some b => .ok b rest
        | none => .rejected (.here s .invalidLiteral)
    | .rejected trace => .rejected trace
    | .failed trace => .failed trace

/-- Rejects a value without a property at the start of the parser. -/
def satisfying (p : Parser α) (holds : α → Bool) : Parser α :=
  fun s =>
    match p s with
    | .ok a rest => if holds a then .ok a rest else .rejected (.here s .unexpected)
    | reply => reply

/-- The source text that a parser consumes. -/
def consumed (p : Parser α) : Parser (List Char) :=
  fun s =>
    match p s with
    | .ok _ rest => .ok (s.take (s.length - rest.length)) rest
    | .rejected trace => .rejected trace
    | .failed trace => .failed trace

/-- Repeats a step on a state at most a number of times, until the step has no next state. -/
def iterateWithin (step : α → Parser (Option α)) : Nat → α → Parser α
  | 0, a => pure a
  | n + 1, a => do
      match ← step a with
      | none => pure a
      | some b => iterateWithin step n b

/-- Repeats a step on a state until the step has no next state. A step that goes on consumes at
least one character, so the length of the source bounds the repetitions.
-/
def iterate (step : α → Parser (Option α)) (a : α) : Parser α :=
  fun s => iterateWithin step s.length a s

/-- As many values as can be read one after another, in reverse. -/
def manyAfter (p : Parser α) (before : List α) : Parser (List α) :=
  iterate (fun seen => do
    match ← optional p with
    | none => pure none
    | some a => pure (some (a :: seen))) before

/-- As many values as can be read one after another. -/
def many (p : Parser α) : Parser (List α) := do
  let seen ← manyAfter p []
  pure seen.reverse

/-- As many values as can be read one after another, with the place of the whole repetition around
the trace where there is none.
-/
def many1 (p : Parser α) : Parser (List α) := do
  let first ← fun s =>
    match p s with
    | .rejected trace => .rejected (trace.within s .noAlternative)
    | reply => reply
  let seen ← manyAfter p [first]
  pure seen.reverse

/-- One or more values with separators between them. A separator without a value after it is left
unread.
-/
def separated1 (separator : Parser β) (p : Parser α) : Parser (List α) := do
  let first ← p
  let seen ← manyAfter (do let _ ← separator; p) [first]
  pure seen.reverse

/-- Any number of values with separators between them. -/
def separated (separator : Parser β) (p : Parser α) : Parser (List α) := do
  match ← optional (separated1 separator p) with
  | none => pure []
  | some values => pure values

end Parser

end CypherSql.Cypher
