import CypherSql.Proofs.Rendering.Grammar

/-! A reader for the grammar of SQL expressions: one function for each layer, each of which reads
operands by the next one. It finds every tree that the grammar gives to some lexemes, so that they
have one tree at most.
-/

namespace CypherSql.Sql

-----------------------------------------------------------------------------------------
-- The reader
-----------------------------------------------------------------------------------------

/-- A reader takes a tree from the start of some lexemes and gives what is left after it. -/
abbrev Reader := List Lexeme → Option (OperatorTree × List Lexeme)

/-- All operators between two operands. -/
def Connective.all : List Connective :=
  [.like, .concat] ++
    [Operator.or, .and, .equal, .notEqual, .less, .greater, .lessEqual, .greaterEqual, .regexMatch,
      .plus, .minus, .times, .divide, .modulo].map .operator

/-- The operator between two operands that a lexeme stands for. -/
def connective? (lexeme : Lexeme) : Option Connective :=
  Connective.all.find? fun op => op.lexeme = lexeme

/-- The operator of a layer at the start, and what is left after it. -/
def connectiveAt? (layer : Nat) : List Lexeme → Option (Connective × List Lexeme)
  | [] => none
  | lexeme :: rest => ((connective? lexeme).filter fun op => op.layer = layer).map (·, rest)

/-- What is left after a lexeme. -/
def expect? (lexeme : Lexeme) (source : List Lexeme) : Option (List Lexeme) :=
  if source.head? = some lexeme then some source.tail else none

/-- Items with commas between them up to a lexeme that closes them, one at least and a number of
them at most.
-/
def itemsFrom? (whole : Reader) (close : Lexeme)
    : Nat → List Lexeme → Option (List OperatorTree × List Lexeme)
  | 0, _ => none
  | n + 1, source => do
      let (tree, rest) ← whole source
      if rest.head? = some close then some ([tree], rest.tail)
      else
        let rest ← expect? (.mark ",") rest
        let (trees, rest) ← itemsFrom? whole close n rest
        some (tree :: trees, rest)

/-- Items with commas between them up to a lexeme that closes them. -/
def items? (whole : Reader) (close : Lexeme) (source : List Lexeme)
    : Option (List OperatorTree × List Lexeme) :=
  if source.head? = some close then some ([], source.tail)
  else itemsFrom? whole close source.length source

/-- The letters of a word. -/
def Lexeme.letters? : Lexeme → Option String
  | .word letters => some letters
  | _ => none

/-- The words up to a closing parenthesis. -/
def typeWords? : List Lexeme → Option (List String × List Lexeme)
  | [] => none
  | lexeme :: rest =>
      if lexeme = .mark ")" then some ([], rest)
      else
        match lexeme with
        | .word letters => (typeWords? rest).map (Prod.map (letters :: ·) id)
        | _ => none

/-- What a word starts that something in brackets follows, or a value by itself. -/
def wordAtom? (whole : Reader) (name : String) (rest : List Lexeme)
    : Option (OperatorTree × List Lexeme) :=
  if rest.head? = some (.mark "[") then
    if name = "ARRAY" then (items? whole (.mark "]") rest.tail).map (Prod.map .array id) else none
  else if rest.head? = some (.mark "(") then
    if name = "CAST" then do
      let (args, rest) ← items? whole (.word "AS") rest.tail
      let (type, rest) ← typeWords? rest
      some (.cast args type, rest)
    else if name ∈ reservedWords then none
    else if rest.tail.head? = some (.word "DISTINCT") then
      (items? whole (.mark ")") rest.tail.tail).map (Prod.map (.call name true) id)
    else (items? whole (.mark ")") rest.tail).map (Prod.map (.call name false) id)
  else if name ∈ constantWords then some (.leaf (.word name), rest)
  else none

/-- What stands by itself. -/
def atom? (whole : Reader) : Reader
  | [] => none
  | lexeme :: rest =>
      if lexeme = .mark "(" then do
        let (tree, rest) ← whole rest
        let rest ← expect? (.mark ")") rest
        some (tree, rest)
      else
        match lexeme.letters? with
        | some name => wordAtom? whole name rest
        | none => if lexeme.isLeaf then some (.leaf lexeme, rest) else none

/-- Operands with operators of a layer between them, grouped from the left, where one is read
already. A number of them is read at most.
-/
def chainFrom (layer : Nat) (operand : Reader) : Nat → OperatorTree → Reader
  | 0, left, source => some (left, source)
  | n + 1, left, source =>
      match connectiveAt? layer source with
      | some (op, rest) => do
          let (right, rest) ← operand rest
          chainFrom layer operand n (.joined op left right) rest
      | none => some (left, source)

/-- Operands with operators of a layer between them. -/
def chain? (layer : Nat) (operand : Reader) : Reader := fun source => do
  let (left, rest) ← operand source
  chainFrom layer operand rest.length left rest

/-- What compares an operand that is read already, if anything does. -/
def compareFrom? (whole operand : Reader) (left : OperatorTree) : Reader := fun source =>
  if source.take 2 = [.word "IS", .word "NULL"] then some (.nullTest false left, source.drop 2)
  else if source.take 3 = [.word "IS", .word "NOT", .word "NULL"] then
    some (.nullTest true left, source.drop 3)
  else if source.take 2 = [.word "IN", .mark "("] then
    (items? whole (.mark ")") (source.drop 2)).map (Prod.map (.member left) id)
  else if source.take 3 = [.mark "=", .word "ANY", .mark "("] then do
    let (right, rest) ← whole (source.drop 3)
    let rest ← expect? (.mark ")") rest
    some (.anyOf left right, rest)
  else
    match connectiveAt? 3 source with
    | some (op, rest) => (operand rest).map (Prod.map (.joined op left) id)
    | none => some (left, source)

/-- A comparison, or an operand of one. -/
def comparison? (whole operand : Reader) : Reader := fun source => do
  let (left, rest) ← operand source
  compareFrom? whole operand left rest

/-- `NOT` before an operand, any number of times. -/
def negation? (operand : Reader) : Reader
  | [] => operand []
  | lexeme :: rest =>
      if lexeme = Sign.not.lexeme then (negation? operand rest).map (Prod.map (.signed .not) id)
      else operand (lexeme :: rest)

/-- A minus sign before an operand, once at most. -/
def minus? (operand : Reader) : Reader
  | [] => operand []
  | lexeme :: rest =>
      if lexeme = Sign.minus.lexeme then (operand rest).map (Prod.map (.signed .minus) id)
      else operand (lexeme :: rest)

/-- The reader of a layer, given the one for its operands. -/
def layerReader (whole : Reader) (layer : Nat) (operand : Reader) : Reader :=
  match layer with
  | 2 => negation? operand
  | 3 => comparison? whole operand
  | 7 => minus? operand
  | layer => chain? layer operand

/-- The reader with a number of layers above what stands by itself. -/
def stacked (whole : Reader) : Nat → Reader
  | 0 => atom? whole
  | n + 1 => layerReader whole (7 - n) (stacked whole n)

/-- The reader of a layer and all that are tighter. -/
def readAt (whole : Reader) (layer : Nat) : Reader :=
  stacked whole (8 - layer)

/-- The reader of an expression with brackets inside each other a number of times at most. -/
def readWithin : Nat → Reader
  | 0 => fun _ => none
  | n + 1 => readAt (readWithin n) 0

/-- The tree of some lexemes. -/
def readTree? (lexemes : List Lexeme) : Option OperatorTree :=
  match readWithin (opened lexemes + 1) lexemes with
  | some (tree, []) => some tree
  | _ => none

theorem readAt_of_lt (whole : Reader) {layer : Nat} (loose : layer < 8)
    : readAt whole layer = layerReader whole layer (readAt whole (layer + 1)) := by
  obtain ⟨n, count⟩ : ∃ n, 8 - layer = n + 1 := ⟨7 - layer, by omega⟩
  have same : 7 - n = layer := by omega
  have next : 8 - (layer + 1) = n := by omega
  rw [readAt, count, stacked, same, readAt, next]

theorem connective?_lexeme (op : Connective) : connective? op.lexeme = some op := by
  rcases op with op | _ | _
  · cases op <;> decide
  · decide
  · decide

theorem connectiveAt?_cons (op : Connective) (rest : List Lexeme)
    : connectiveAt? op.layer (op.lexeme :: rest) = some (op, rest) := by
  rw [connectiveAt?, connective?_lexeme, Option.filter_some, if_pos (by simp), Option.map_some]

-----------------------------------------------------------------------------------------
-- What may stand around an expression
-----------------------------------------------------------------------------------------

/-- The tightest layer at which an expression may start with a lexeme, if one may. -/
def startLayer? : Lexeme → Option Nat
  | .word letters =>
      if letters = "NOT" then some 2
      else if letters ∈ ["OR", "AND", "LIKE", "IN", "IS", "ANY", "AS", "DISTINCT"] then none
      else some 8
  | .mark sign =>
      if sign = "-" then some 7 else if sign = "(" ∨ sign = "*" then some 8 else none
  | _ => some 8

/-- The tightest layer at which an expression may go on with a lexeme, if it may. -/
def goesOn? (lexeme : Lexeme) : Option Nat :=
  if lexeme = .mark "(" ∨ lexeme = .mark "[" then some 8
  else if lexeme = .word "IS" ∨ lexeme = .word "IN" then some 3
  else (connective? lexeme).map Connective.layer

/-- The lexemes start as an operand of a layer does. -/
def Opens (layer : Nat) (lexemes : List Lexeme) : Prop :=
  ∃ lexeme rest start, lexemes = lexeme :: rest ∧ startLayer? lexeme = some start ∧ layer ≤ start

/-- An operand of a layer does not go on at the start of some lexemes. -/
def Stops (layer : Nat) (rest : List Lexeme) : Prop :=
  ∀ lexeme ∈ rest.head?, ∀ tightest ∈ goesOn? lexeme, tightest < layer

variable {layer tighter n : Nat} {lexemes rest : List Lexeme} {lexeme : Lexeme}
  {tree : OperatorTree}

theorem Stops.mono (stops : Stops layer rest) (tight : layer ≤ tighter) : Stops tighter rest :=
  fun lexeme opens tightest goesOn => Nat.lt_of_lt_of_le (stops lexeme opens tightest goesOn) tight

theorem stops_nil : Stops layer [] := by
  intro lexeme opens
  cases opens

theorem stops_cons (loose : ∀ tightest ∈ goesOn? lexeme, tightest < layer) (rest : List Lexeme)
    : Stops layer (lexeme :: rest) := by
  intro other opens
  obtain rfl := Option.some.inj opens
  exact loose

theorem Stops.head?_ne (stops : Stops layer rest) {tightest : Nat}
    (goesOn : goesOn? lexeme = some tightest) (tight : layer ≤ tightest)
    : rest.head? ≠ some lexeme := by
  intro opens
  exact Nat.not_lt_of_le tight (stops lexeme opens tightest goesOn)

theorem Opens.mono (opens : Opens tighter lexemes) (tight : layer ≤ tighter)
    : Opens layer lexemes := by
  obtain ⟨lexeme, rest, start, same, starts, within⟩ := opens
  exact ⟨lexeme, rest, start, same, starts, Nat.le_trans tight within⟩

theorem Opens.append (opens : Opens layer lexemes) (rest : List Lexeme)
    : Opens layer (lexemes ++ rest) := by
  obtain ⟨lexeme, more, start, rfl, starts, within⟩ := opens
  exact ⟨lexeme, more ++ rest, start, rfl, starts, within⟩

theorem Opens.head?_ne (opens : Opens layer lexemes)
    (apart : ∀ start ∈ startLayer? lexeme, start < layer)
    : lexemes.head? ≠ some lexeme := by
  obtain ⟨first, rest, start, rfl, starts, within⟩ := opens
  intro same
  obtain rfl := Option.some.inj same
  exact Nat.not_lt_of_le within (apart start starts)

theorem goesOn?_connective (op : Connective) : goesOn? op.lexeme = some op.layer := by
  rcases op with op | _ | _
  · cases op <;> decide
  · decide
  · decide

theorem Stops.connectiveAt? (stops : Stops layer rest) (tight : layer ≤ tighter)
    : connectiveAt? tighter rest = none := by
  cases rest with
  | nil => rfl
  | cons lexeme rest =>
      rw [Sql.connectiveAt?, Option.map_eq_none_iff, Option.filter_eq_none_iff]
      intro op found same
      have isLexeme : op.lexeme = lexeme := by simpa using List.find?_some found
      have goesOn : goesOn? lexeme = some op.layer := isLexeme ▸ goesOn?_connective op
      have atLayer : op.layer = tighter := by simpa using same
      exact stops.head?_ne goesOn (by omega) rfl

-----------------------------------------------------------------------------------------
-- Reading the operands of a layer
-----------------------------------------------------------------------------------------

/-- The reader of a layer takes the lexemes as a tree, where an operand of it does not go on. -/
def Delivers (n layer : Nat) (lexemes : List Lexeme) (tree : OperatorTree) : Prop :=
  ∀ rest, Stops layer rest → readAt (readWithin n) layer (lexemes ++ rest) = some (tree, rest)

/-- At the layer, operators between operands group from the left. -/
def IsChain (layer : Nat) : Prop :=
  layer ∈ [0, 1, 4, 5, 6]

/-- The reader of a layer takes the lexemes as a left operand and goes on behind it. -/
def Chains (n layer : Nat) (lexemes : List Lexeme) (tree : OperatorTree) : Prop :=
  ∀ rest,
    Stops (layer + 1) rest
    → ∃ count,
        rest.length ≤ count
        ∧ readAt (readWithin n) layer (lexemes ++ rest)
          = chainFrom layer (readAt (readWithin n) (layer + 1)) count tree rest

theorem chainFrom_stops (stops : Stops layer rest) (operand : Reader) (count : Nat)
    : chainFrom layer operand count tree rest = some (tree, rest) := by
  cases count with
  | zero => rfl
  | succ count => rw [chainFrom, stops.connectiveAt? (Nat.le_refl _)]

theorem compareFrom?_stops (stops : Stops 3 rest) (whole operand : Reader)
    : compareFrom? whole operand tree rest = some (tree, rest) := by
  have apart {first : Lexeme} {others : List Lexeme} {count : Nat}
      (goesOn : ∃ tightest, goesOn? first = some tightest ∧ 3 ≤ tightest)
      : rest.take (count + 1) ≠ first :: others := by
    obtain ⟨tightest, goesOn, tight⟩ := goesOn
    intro same
    refine stops.head?_ne goesOn tight ?_
    cases rest with
    | nil => cases same
    | cons lexeme rest => exact congrArg some (List.cons.inj same).1
  rw [compareFrom?, if_neg (apart ⟨3, by decide⟩), if_neg (apart ⟨3, by decide⟩),
    if_neg (apart ⟨3, by decide⟩), if_neg (apart ⟨3, by decide⟩),
    stops.connectiveAt? (Nat.le_refl _)]

theorem readAt_of_isChain (isChain : IsChain layer) (whole : Reader)
    : readAt whole layer = chain? layer (readAt whole (layer + 1)) := by
  simp only [IsChain, List.mem_cons, List.not_mem_nil, or_false] at isChain
  rcases isChain with rfl | rfl | rfl | rfl | rfl <;> rfl

/-- An operand of the next layer is a left operand of a chain. -/
theorem Delivers.chains (delivers : Delivers n (layer + 1) lexemes tree) (isChain : IsChain layer)
    : Chains n layer lexemes tree := by
  intro rest stops
  refine ⟨rest.length, Nat.le_refl _, ?_⟩
  rw [readAt_of_isChain isChain, chain?, delivers rest stops]
  rfl

/-- A left operand of a chain is the whole chain where that does not go on. -/
theorem Chains.delivers (chains : Chains n layer lexemes tree) : Delivers n layer lexemes tree := by
  intro rest stops
  obtain ⟨count, -, same⟩ := chains rest (stops.mono (Nat.le_succ _))
  rw [same, chainFrom_stops stops]

/-- An operand of the next layer is one of the layer: the operator of the layer does not stand
before or behind it.
-/
theorem Delivers.descend (delivers : Delivers n (layer + 1) lexemes tree)
    (opens : Opens (layer + 1) lexemes) (loose : layer < 8)
    : Delivers n layer lexemes tree := by
  intro rest stops
  have operand := delivers rest (stops.mono (Nat.le_succ _))
  obtain ⟨lexeme, more, start, rfl, starts, within⟩ := opens
  rw [readAt_of_lt _ loose]
  unfold layerReader
  split
  · have noNot : lexeme ≠ Sign.not.lexeme := by
      rintro rfl
      obtain rfl : 2 = start := Option.some.inj starts
      omega
    rw [List.cons_append, negation?, if_neg noNot]
    exact operand
  · rw [comparison?, operand]
    exact compareFrom?_stops stops _ _
  · have noMinus : lexeme ≠ Sign.minus.lexeme := by
      rintro rfl
      obtain rfl : 7 = start := Option.some.inj starts
      omega
    rw [List.cons_append, minus?, if_neg noMinus]
    exact operand
  · rw [chain?, operand]
    exact chainFrom_stops stops _ _

/-- Lexemes that the readers take as a tree wherever an operand of the layer may stand. -/
structure Accepted (layer : Nat) (lexemes : List Lexeme) (tree : OperatorTree) : Prop where
  opens : Opens layer lexemes
  delivers : ∀ n, opened lexemes ≤ n → ∀ looser ≤ layer, Delivers n looser lexemes tree
  chains : ∀ n, opened lexemes ≤ n → ∀ looser ≤ layer, IsChain looser → Chains n looser lexemes tree

namespace Accepted

theorem mono (accepted : Accepted tighter lexemes tree) (tight : layer ≤ tighter)
    : Accepted layer lexemes tree where
  opens := accepted.opens.mono tight
  delivers n enough looser loose := accepted.delivers n enough looser (Nat.le_trans loose tight)
  chains n enough looser loose := accepted.chains n enough looser (Nat.le_trans loose tight)

/-- What is read at its own layer is read at all that are looser, by induction from layer to layer.
-/
theorem of_own (within : layer ≤ 8) (opens : Opens layer lexemes)
    (delivers : ∀ n, opened lexemes ≤ n → Delivers n layer lexemes tree)
    (chains : IsChain layer → ∀ n, opened lexemes ≤ n → Chains n layer lexemes tree)
    : Accepted layer lexemes tree := by
  have all (n : Nat) (enough : opened lexemes ≤ n) (distance : Nat)
      : ∀ looser, looser + distance = layer → Delivers n looser lexemes tree := by
    induction distance with
    | zero =>
        rintro looser rfl
        exact delivers n enough
    | succ distance ih =>
        intro looser same
        exact (ih (looser + 1) (by omega)).descend (opens.mono (by omega)) (by omega)
  refine ⟨opens, fun n enough looser loose => all n enough (layer - looser) looser (by omega), ?_⟩
  intro n enough looser loose isChain
  rcases Nat.lt_or_eq_of_le loose with less | rfl
  · exact (all n enough (layer - (looser + 1)) (looser + 1) (by omega)).chains isChain
  · exact chains isChain n enough

/-- The same where the operators of the layer do not stand between operands. -/
theorem of_delivers (within : layer ≤ 8) (noChain : ¬IsChain layer) (opens : Opens layer lexemes)
    (delivers : ∀ n, opened lexemes ≤ n → Delivers n layer lexemes tree)
    : Accepted layer lexemes tree :=
  of_own within opens delivers fun isChain => absurd isChain noChain

end Accepted

-----------------------------------------------------------------------------------------
-- Items of a list
-----------------------------------------------------------------------------------------

theorem expect?_cons (lexeme : Lexeme) (rest : List Lexeme)
    : expect? lexeme (lexeme :: rest) = some rest :=
  if_pos rfl

/-- A lexeme that closes a list of items: no expression starts or goes on with it. -/
structure Closes (close : Lexeme) : Prop where
  noStart : startLayer? close = none
  noMore : goesOn? close = none
  noComma : close ≠ .mark ","

section Items

variable {close : Lexeme} {items : List (List Lexeme × OperatorTree)}

theorem Closes.stops (closes : Closes close) (rest : List Lexeme) : Stops layer (close :: rest) :=
  stops_cons (by simp [closes.noMore]) rest

theorem Closes.head?_ne (closes : Closes close) (opens : Opens layer lexemes)
    : lexemes.head? ≠ some close :=
  opens.head?_ne (by simp [closes.noStart])

theorem length_commaLexemes (parts : List (List Lexeme))
    : parts.length ≤ (commaLexemes parts).length + 1 := by
  induction parts with
  | nil => exact Nat.zero_le _
  | cons first parts ih =>
      cases parts with
      | nil => exact Nat.le_add_left _ _
      | cons second parts =>
          rw [commaLexemes_cons_cons]
          simp only [List.length_append, List.length_cons] at ih ⊢
          omega

theorem commaLexemes_singleton (lexemes : List Lexeme) : commaLexemes [lexemes] = lexemes := by
  simp [commaLexemes, List.intercalate]

theorem opens_commaLexemes {first : List Lexeme} (opens : Opens layer first)
    (parts : List (List Lexeme))
    : Opens layer (commaLexemes (first :: parts)) := by
  cases parts with
  | nil => rwa [commaLexemes_singleton]
  | cons second parts => exact commaLexemes_cons_cons first second parts ▸ opens.append _

/-- Items are read one after the other, by induction over them. -/
theorem itemsFrom?_read (closes : Closes close) (nonempty : items ≠ [])
    (each : ∀ item ∈ items, Accepted 0 item.1 item.2)
    (enough : opened (commaLexemes (items.map Prod.fst)) ≤ n) {count : Nat}
    (long : items.length ≤ count) (rest : List Lexeme)
    : itemsFrom? (readWithin (n + 1)) close count
      (commaLexemes (items.map Prod.fst) ++ close :: rest)
      = some (items.map Prod.snd, rest) := by
  induction items generalizing count with
  | nil => exact absurd rfl nonempty
  | cons item items ih =>
      obtain ⟨count, rfl⟩ : ∃ k, count = k + 1 := ⟨count - 1, by simp at long; omega⟩
      rw [opened_commas, List.map_cons, List.flatten_cons, opened_append,
        ← opened_commas] at enough
      have first := (each item List.mem_cons_self).delivers n (by omega) 0 (Nat.le_refl 0)
      rw [itemsFrom?]
      cases items with
      | nil =>
          have whole
              : readWithin (n + 1) (item.1 ++ close :: rest) = some (item.2, close :: rest) :=
            first _ (closes.stops rest)
          simp [commaLexemes_singleton, whole]
      | cons second items =>
          have stops (after : List Lexeme) : Stops 0 (.mark "," :: after) :=
            stops_cons (by decide) after
          have whole := first _
            (stops (commaLexemes ((second :: items).map Prod.fst) ++ close :: rest))
          have others := ih (List.cons_ne_nil _ _)
            (fun other member => each other (List.mem_cons_of_mem _ member)) (by omega)
            (Nat.le_of_succ_le_succ long)
          change readWithin (n + 1) _ = _ at whole
          rw [List.map_cons, List.map_cons, commaLexemes_cons_cons, List.append_assoc,
            List.cons_append, ← List.map_cons, whole]
          have notClosed : (Lexeme.mark "," ::
              (commaLexemes ((second :: items).map Prod.fst) ++ close :: rest)).head?
                ≠ some close := by
            intro same
            exact closes.noComma (Option.some.inj same).symm
          simp only [Option.bind_eq_bind, Option.bind_some, if_neg notClosed, expect?_cons, others]
          rfl

theorem items?_read (closes : Closes close) (each : ∀ item ∈ items, Accepted 0 item.1 item.2)
    (enough : opened (commaLexemes (items.map Prod.fst)) ≤ n) (rest : List Lexeme)
    : items? (readWithin (n + 1)) close (commaLexemes (items.map Prod.fst) ++ close :: rest)
      = some (items.map Prod.snd, rest) := by
  unfold items?
  cases items with
  | nil => exact if_pos rfl
  | cons item items =>
      have opens : Opens 0 (commaLexemes ((item :: items).map Prod.fst)) :=
        opens_commaLexemes (each item List.mem_cons_self).opens _
      have long := length_commaLexemes ((item :: items).map Prod.fst)
      rw [if_neg (closes.head?_ne (opens.append _)),
        itemsFrom?_read closes (List.cons_ne_nil _ _) each enough]
      simp only [List.length_map, List.length_cons, List.length_append] at long ⊢
      omega

end Items

theorem typeWords?_read (type : List String) (rest : List Lexeme)
    : typeWords? (type.map .word ++ .mark ")" :: rest) = some (type, rest) := by
  induction type with
  | nil => rfl
  | cons letters type ih =>
      rw [List.map_cons, List.cons_append, typeWords?, if_neg (by simp)]
      simp [ih]

-----------------------------------------------------------------------------------------
-- The rules of the grammar
-----------------------------------------------------------------------------------------

theorem closes_parenthesis : Closes (.mark ")") := by
  constructor <;> decide

theorem closes_bracket : Closes (.mark "]") := by
  constructor <;> decide

theorem closes_as : Closes (.word "AS") := by
  constructor <;> decide

namespace Accepted

/-- What stands by itself is read by the tightest reader. -/
theorem of_atom (opens : Opens 8 lexemes)
    (reads : ∀ n rest,
      opened lexemes ≤ n
      → Stops 8 rest
      → atom? (readWithin n) (lexemes ++ rest) = some (tree, rest))
    : Accepted 8 lexemes tree :=
  of_delivers (Nat.le_refl 8) (by simp [IsChain]) opens fun n enough rest stops =>
    reads n rest enough stops

theorem leaf (isLeaf : lexeme.isLeaf) : Accepted 8 [lexeme] (.leaf lexeme) := by
  cases lexeme with
  | word letters =>
      have constant : letters ∈ constantWords := by simpa [Lexeme.isLeaf] using isLeaf
      have starts : ∀ word ∈ constantWords, startLayer? (.word word) = some 8 := by decide
      refine of_atom ⟨_, _, 8, rfl, starts letters constant, Nat.le_refl 8⟩
        fun n rest enough stops => ?_
      have noBracket : rest.head? ≠ some (.mark "[") := stops.head?_ne (by decide) (Nat.le_refl 8)
      have noParenthesis : rest.head? ≠ some (.mark "(") :=
        stops.head?_ne (by decide) (Nat.le_refl 8)
      simp [atom?, Lexeme.letters?, wordAtom?, noBracket, noParenthesis, constant]
  | mark sign =>
      obtain rfl : sign = "*" := by simpa [Lexeme.isLeaf] using isLeaf
      exact of_atom ⟨_, _, 8, rfl, by decide, Nat.le_refl 8⟩ fun n rest enough stops => rfl
  | text value => exact of_atom ⟨_, _, 8, rfl, rfl, Nat.le_refl 8⟩ fun n rest enough stops => rfl
  | number digits => exact of_atom ⟨_, _, 8, rfl, rfl, Nat.le_refl 8⟩ fun n rest enough stops => rfl
  | parameter name =>
      exact of_atom ⟨_, _, 8, rfl, rfl, Nat.le_refl 8⟩ fun n rest enough stops => rfl
  | column source name =>
      exact of_atom ⟨_, _, 8, rfl, rfl, Nat.le_refl 8⟩ fun n rest enough stops => rfl

/-- Something in brackets: the reader for what is inside has one step more to go. -/
theorem of_brackets (opens : Opens 8 lexemes) (some : 1 ≤ opened lexemes)
    (reads : ∀ n rest,
      opened lexemes ≤ n + 1
      → atom? (readWithin (n + 1)) (lexemes ++ rest) = .some (tree, rest))
    : Accepted 8 lexemes tree := by
  refine of_atom opens fun n rest enough _ => ?_
  obtain ⟨n, rfl⟩ : ∃ k, n = k + 1 := ⟨n - 1, by omega⟩
  exact reads n rest enough

theorem whole (inner : Accepted 0 lexemes tree) (enough : opened lexemes ≤ n) (rest : List Lexeme)
    : readWithin (n + 1) (lexemes ++ .mark ")" :: rest) = some (tree, .mark ")" :: rest) :=
  inner.delivers n enough 0 (Nat.le_refl 0) _ (closes_parenthesis.stops rest)

theorem enclosed (inner : Accepted 0 lexemes tree)
    : Accepted 8 (.mark "(" :: (lexemes ++ [.mark ")"])) tree := by
  have count : opened (.mark "(" :: (lexemes ++ [.mark ")"])) = 1 + opened lexemes := by
    rw [opened_bracket, opened_append]
    rfl
  refine of_brackets ⟨_, _, 8, rfl, rfl, Nat.le_refl 8⟩ (by omega) fun n rest enough => ?_
  rw [List.cons_append, List.append_assoc, atom?, if_pos rfl, List.singleton_append,
    inner.whole (by omega)]
  rfl

variable {items : List (List Lexeme × OperatorTree)}

theorem array (each : ∀ item ∈ items, Accepted 0 item.1 item.2)
    : Accepted 8 (.word "ARRAY" :: .mark "[" :: (commaLexemes (items.map Prod.fst) ++ [.mark "]"]))
        (.array (items.map Prod.snd)) := by
  have count
      : opened (.word "ARRAY" :: .mark "[" :: (commaLexemes (items.map Prod.fst) ++ [.mark "]"]))
      = 1 + opened (commaLexemes (items.map Prod.fst)) := by
    rw [opened_word, opened_cons, opened_append]
    rfl
  refine of_brackets ⟨_, _, 8, rfl, by decide, Nat.le_refl 8⟩ (by omega) fun n rest enough => ?_
  have read := items?_read (n := n) closes_bracket each (by omega) rest
  simp [atom?, Lexeme.letters?, wordAtom?, read]

theorem opens_call {name : String} (free : name ∉ reservedWords) (args : List Lexeme)
    : Opens 8 (callLexemes name args) := by
  simp only [reservedWords, List.mem_cons, List.not_mem_nil, or_false, not_or] at free
  exact ⟨_, _, 8, rfl, by simp [startLayer?, free], Nat.le_refl 8⟩

theorem call {function : String} {distinct : Bool} (free : function ∉ reservedWords)
    (each : ∀ item ∈ items, Accepted 0 item.1 item.2)
    : Accepted 8
        (callLexemes function (distinctLexemes distinct ++ commaLexemes (items.map Prod.fst)))
        (.call function distinct (items.map Prod.snd)) := by
  have noCast : function ≠ "CAST" := by
    rintro rfl
    exact free (by decide)
  refine of_brackets (opens_call free _) (by simp) fun n rest enough => ?_
  rw [opened_call, opened_append, opened_distinct] at enough
  have read := items?_read (n := n) closes_parenthesis each (by omega) rest
  cases distinct with
  | true =>
      simp [callLexemes, distinctLexemes, atom?, Lexeme.letters?, wordAtom?, noCast, free, read]
  | false =>
      have noDistinct : (commaLexemes (items.map Prod.fst) ++ .mark ")" :: rest).head?
          ≠ some (.word "DISTINCT") := by
        cases items with
        | nil => simp [commaLexemes, List.intercalate]
        | cons item items =>
            have opens :=
              opens_commaLexemes (each item List.mem_cons_self).opens (items.map Prod.fst)
            exact (opens.append _).head?_ne (by simp [startLayer?])
      simp [callLexemes, distinctLexemes, atom?, Lexeme.letters?, wordAtom?, noCast, free, read,
        noDistinct, -List.head?_append]

theorem cast (type : List String) (each : ∀ item ∈ items, Accepted 0 item.1 item.2)
    : Accepted 8
        (callLexemes "CAST" (commaLexemes (items.map Prod.fst) ++ .word "AS" :: type.map .word))
        (.cast (items.map Prod.snd) type) := by
  refine of_brackets ⟨_, _, 8, rfl, by decide, Nat.le_refl 8⟩ (by simp) fun n rest enough => ?_
  rw [opened_call, opened_append] at enough
  have read := items?_read (n := n) closes_as each (by omega) (type.map .word ++ .mark ")" :: rest)
  simp [callLexemes, atom?, Lexeme.letters?, wordAtom?, read, typeWords?_read]

theorem signed (sign : Sign) (inner : Accepted sign.operandLayer lexemes tree)
    : Accepted sign.layer (sign.lexeme :: lexemes) (.signed sign tree) := by
  have opens : Opens sign.layer (sign.lexeme :: lexemes) := by
    cases sign <;> exact ⟨_, _, _, rfl, rfl, Nat.le_refl _⟩
  have noChain : ¬IsChain sign.layer := by cases sign <;> simp [IsChain, Sign.layer]
  have within : sign.layer < 8 := by cases sign <;> decide
  refine of_delivers (Nat.le_of_lt within) noChain opens fun n enough rest stops => ?_
  rw [opened_sign] at enough
  have operand := inner.delivers n enough _ (Nat.le_refl _) rest
    (stops.mono (by cases sign <;> decide))
  rw [readAt_of_lt _ within]
  cases sign with
  | not =>
      have repeated : negation? (readAt (readWithin n) 3) (lexemes ++ rest) = some (tree, rest) :=
        operand
      simp [layerReader, Sign.layer, negation?, repeated]
  | minus =>
      have once : readAt (readWithin n) 8 (lexemes ++ rest) = some (tree, rest) := operand
      simp [layerReader, Sign.layer, minus?, once]

/-- What compares an operand is read behind it. -/
theorem of_compareFrom? {second : List Lexeme} {left : OperatorTree}
    (operand : Accepted 4 lexemes left)
    (stops : ∀ rest, Stops 4 (second ++ rest))
    (reads : ∀ n rest,
      opened second ≤ n
      → Stops 3 rest
      → compareFrom? (readWithin n) (readAt (readWithin n) 4) left (second ++ rest)
        = some (tree, rest))
    : Accepted 3 (lexemes ++ second) tree := by
  refine of_delivers (by decide) (by simp [IsChain]) ((operand.opens.mono (by decide)).append _)
    fun n enough rest ends => ?_
  rw [opened_append] at enough
  have first := operand.delivers n (by omega) 4 (Nat.le_refl 4) _ (stops rest)
  have compares := reads n rest (by omega) ends
  rw [readAt_of_lt _ (by decide), List.append_assoc]
  simp [layerReader, comparison?, first, compares]

theorem isNull (operand : Accepted 4 lexemes tree)
    : Accepted 3 (lexemes ++ [.word "IS", .word "NULL"]) (.nullTest false tree) :=
  of_compareFrom? operand (fun rest => stops_cons (by decide) _) fun n rest enough stops => by
    simp [compareFrom?]

theorem isNotNull (operand : Accepted 4 lexemes tree)
    : Accepted 3 (lexemes ++ [.word "IS", .word "NOT", .word "NULL"]) (.nullTest true tree) :=
  of_compareFrom? operand (fun rest => stops_cons (by decide) _) fun n rest enough stops => by
    simp [compareFrom?]

theorem member (operand : Accepted 4 lexemes tree) (each : ∀ item ∈ items, Accepted 0 item.1 item.2)
    : Accepted 3 (lexemes ++ callLexemes "IN" (commaLexemes (items.map Prod.fst)))
        (.member tree (items.map Prod.snd)) := by
  refine of_compareFrom? operand (fun rest => stops_cons (by decide) _)
    fun n rest enough stops => ?_
  rw [opened_call] at enough
  obtain ⟨n, rfl⟩ : ∃ k, n = k + 1 := ⟨n - 1, by omega⟩
  have read := items?_read (n := n) closes_parenthesis each (by omega) rest
  simp [compareFrom?, callLexemes, read]

theorem anyOf {second : List Lexeme} {right : OperatorTree} (operand : Accepted 4 lexemes tree)
    (inner : Accepted 0 second right)
    : Accepted 3 (lexemes ++ .mark "=" :: callLexemes "ANY" second) (.anyOf tree right) := by
  refine of_compareFrom? operand (fun rest => stops_cons (by decide) _)
    fun n rest enough stops => ?_
  rw [opened_cons, opened_call] at enough
  obtain ⟨n, rfl⟩ : ∃ k, n = k + 1 := ⟨n - 1, by omega⟩
  simp [compareFrom?, callLexemes, inner.whole (n := n) (by omega), expect?_cons]

variable {second : List Lexeme} {left right : OperatorTree} {op : Connective}

/-- A comparison by an operator between two operands. -/
theorem compared (comparison : op.layer = 3) (onLeft : Accepted 4 lexemes left)
    (onRight : Accepted 4 second right)
    : Accepted 3 (lexemes ++ op.lexeme :: second) (.joined op left right) := by
  have goesOn := comparison ▸ goesOn?_connective op
  refine of_compareFrom? onLeft (fun rest => stops_cons (by simp [goesOn]) _)
    fun n rest enough stops => ?_
  rw [opened_connective] at enough
  have operand := onRight.delivers n enough 4 (Nat.le_refl 4) rest (stops.mono (by decide))
  have found := connectiveAt?_cons op (second ++ rest)
  rw [comparison] at found
  have noTest : op.lexeme ≠ .word "IS" ∧ op.lexeme ≠ .word "IN" := by
    constructor <;>
    · intro same
      have none := connective?_lexeme op
      rw [same] at none
      cases none
  have noAny : (second ++ rest).take 2 ≠ [.word "ANY", .mark "("] := by
    intro same
    have opens : (second ++ rest).head? ≠ some (.word "ANY") :=
      (onRight.opens.append rest).head?_ne (by simp [startLayer?])
    have first := congrArg List.head? same
    rw [List.head?_take, if_neg (by decide)] at first
    exact opens first
  simp [compareFrom?, noTest, noAny, found, operand]

/-- Operands with operators of a chain between them group from the left. -/
theorem chained (isChain : IsChain op.layer) (onLeft : Accepted op.layer lexemes left)
    (onRight : Accepted (op.layer + 1) second right)
    : Accepted op.layer (lexemes ++ op.lexeme :: second) (.joined op left right) := by
  have chains (n : Nat) (enough : opened (lexemes ++ op.lexeme :: second) ≤ n)
      : Chains n op.layer (lexemes ++ op.lexeme :: second) (.joined op left right) := by
    intro rest stops
    rw [opened_append, opened_connective] at enough
    have behind : Stops (op.layer + 1) (op.lexeme :: (second ++ rest)) :=
      stops_cons (by simp [goesOn?_connective]) _
    have operand := onRight.delivers n (by omega) _ (Nat.le_refl _) rest stops
    obtain ⟨count, long, read⟩ := onLeft.chains n (by omega) _ (Nat.le_refl _) isChain _ behind
    rw [List.length_cons, List.length_append] at long
    obtain ⟨count, rfl⟩ : ∃ k, count = k + 1 := ⟨count - 1, by omega⟩
    refine ⟨count, by omega, ?_⟩
    rw [List.append_assoc, List.cons_append, read, chainFrom, connectiveAt?_cons]
    simp [operand]
  exact of_own op.layer_le (onLeft.opens.append _) (fun n enough => (chains n enough).delivers)
    fun _ => chains

theorem joined (op : Connective) (onLeft : Accepted op.leftLayer lexemes left)
    (onRight : Accepted op.rightLayer second right)
    : Accepted op.layer (lexemes ++ op.lexeme :: second) (.joined op left right) := by
  have known : op.layer = 3 ∨ IsChain op.layer := by
    rcases op with op | _ | _
    · cases op <;> simp [IsChain, Connective.layer]
    · simp [IsChain, Connective.layer]
    · exact .inl rfl
  rcases Decidable.em (op.layer = 3) with comparison | other
  · rw [Connective.leftLayer, if_pos comparison] at onLeft
    rw [Connective.rightLayer, comparison] at onRight
    rw [comparison]
    exact compared comparison onLeft onRight
  · rw [Connective.leftLayer, if_neg other] at onLeft
    exact chained (known.resolve_left other) onLeft onRight

end Accepted

-----------------------------------------------------------------------------------------
-- One tree at most
-----------------------------------------------------------------------------------------

/-- The readers accept what the grammar derives, by its rules. -/
theorem Derives.accepted (derives : Derives layer lexemes tree) : Accepted layer lexemes tree := by
  induction derives with
  | looser tight _ ih => exact ih.mono tight
  | leaf isLeaf => exact .leaf isLeaf
  | enclosed _ ih => exact ih.enclosed
  | array _ ih => exact .array ih
  | call free _ ih => exact .call free ih
  | cast type _ ih => exact .cast type ih
  | signed sign _ ih => exact .signed sign ih
  | joined op _ _ onLeft onRight => exact .joined op onLeft onRight
  | isNull _ ih => exact ih.isNull
  | isNotNull _ ih => exact ih.isNotNull
  | member _ _ operand ih => exact operand.member ih
  | anyOf _ _ operand ih => exact operand.anyOf ih

/-- The tree that the grammar gives to some lexemes is read. -/
theorem Derives.readTree?_eq (derives : Derives 0 lexemes tree)
    : readTree? lexemes = some tree := by
  have read : readWithin (opened lexemes + 1) (lexemes ++ []) = some (tree, []) :=
    derives.accepted.delivers _ (Nat.le_refl _) 0 (Nat.le_refl 0) [] stops_nil
  rw [List.append_nil] at read
  rw [readTree?, read]

/-- The grammar is unambiguous. -/
theorem Derives.unique {other : OperatorTree} (derives : Derives 0 lexemes tree)
    (also : Derives 0 lexemes other)
    : tree = other :=
  Option.some.inj (derives.readTree?_eq.symm.trans also.readTree?_eq)

end CypherSql.Sql
