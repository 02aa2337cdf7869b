import CypherSql.Proofs.Expansion.Quotes
import CypherSql.Proofs.Expansion.Ranges

/-! The bounds of a relationship with a range. Where a segment is by itself an anonymous
relationship to the grammar, both take the same star for that of the range, if no quotes open in the
types of the segment, and read the same bounds behind it.
-/

namespace CypherSql.Cypher

open Text

/-- The quotes of a text are closed, and no star stands outside of them. -/
structure Starless (text : List Char) : Prop where
  unquoted : Unquoted text
  stars : ∀ before behind, text = before ++ '*' :: behind → ¬ Unquoted before

section Stars

variable {text more tail after : List Char} {c : Char}

theorem Starless.append (first : Starless text) (second : Starless more)
    : Starless (text ++ more) where
  unquoted := first.unquoted.append second.unquoted
  stars before behind split outside := by
    rcases List.append_eq_append_iff.mp split with ⟨middle, rfl, same⟩ | ⟨middle, rfl, same⟩
    · exact second.stars middle behind same (outside.of_append first.unquoted)
    · cases middle with
      | nil => exact second.stars [] behind same.symm unquoted_nil
      | cons d middle =>
          obtain ⟨rfl, -⟩ := List.cons.inj same
          exact first.stars before middle rfl outside

theorem starless_all (plain : ∀ c ∈ text, c ∉ quotes ∧ c ≠ '*') : Starless text where
  unquoted := unquoted_all fun c member => (plain c member).1
  stars before behind split _ := (plain '*' (by rw [split]; simp)).2 rfl

theorem starless_backquoted (noQuote : '`' ∉ text) : Starless ('`' :: (text ++ ['`'])) where
  unquoted := by
    have opens : Quoting.step '`' .outside = .inside '`' := rfl
    rw [Unquoted, Quoting.behind, List.foldl_cons, opens]
    change Quoting.behind (text ++ ['`']) (.inside '`') = .outside
    rw [Quoting.behind_append, behind_backquoted noQuote]
    rfl
  stars before behind split outside := by
    cases before with
    | nil => cases (List.cons.inj split).1
    | cons d before =>
        obtain ⟨rfl, same⟩ := List.cons.inj split
        rcases List.append_eq_append_iff.mp same with ⟨middle, rfl, last⟩ | ⟨middle, rfl, -⟩
        · cases middle with
          | nil => cases (List.cons.inj last).1
          | cons e middle => cases middle <;> cases (List.cons.inj last).2
        · rw [List.mem_append, not_or] at noQuote
          have opens : Quoting.step '`' .outside = .inside '`' := rfl
          have inside := behind_backquoted noQuote.1
          rw [Unquoted, Quoting.behind, List.foldl_cons, opens] at outside
          cases inside.symm.trans outside

theorem named_starless : Named Starless where
  spaces gap spaces := starless_all fun c member => by
    have space := spaces c member
    simp only [isSpace, Bool.or_eq_true, decide_eq_true_eq] at space
    rcases space with ((rfl | rfl) | rfl) | rfl <;> decide
  append _ _ first second := first.append second
  word c isWord := by
    have apart := isBare_apart (isBare_of_isWordChar isWord)
    refine starless_all fun d member => ?_
    rw [List.mem_singleton.mp member]
    refine ⟨apart.1, ?_⟩
    rintro rfl
    exact absurd isWord (by decide)
  backquoted _ := starless_backquoted

/-- The star outside of quotes is where both see it. -/
theorem Starless.unique (starless : Starless text) (unquoted : Unquoted more) (noStar : '*' ∉ more)
    (same : text ++ '*' :: tail = more ++ '*' :: after)
    : text = more ∧ tail = after := by
  rcases List.append_eq_append_iff.mp same with ⟨middle, rfl, later⟩ | ⟨middle, rfl, later⟩
  · cases middle with
    | nil => exact ⟨(List.append_nil text).symm, (List.cons.inj later).2⟩
    | cons d middle =>
        obtain ⟨rfl, -⟩ := List.cons.inj later
        exact absurd (by simp) noStar
  · cases middle with
    | nil => exact ⟨List.append_nil more, (List.cons.inj later).2.symm⟩
    | cons d middle =>
        obtain ⟨rfl, -⟩ := List.cons.inj later
        exact absurd unquoted (starless.stars more middle rfl)

theorem typeNames_takes {holds : List Char → Prop} (named : Named holds) (colon : holds [':'])
    (bar : holds ['|'])
    : typeNames.Takes holds := by
  have joined := named.toJoined
  have symbol := (symbol_takes named).padded joined
  have type : typeName.Takes holds :=
    .bind joined ((mark_takes joined colon).optional joined) fun _ => symbol
  have next : Parser.Takes (do mark '|'; typeName) holds :=
    .bind joined (mark_takes joined bar) fun _ => type
  exact .bind joined (mark_takes joined colon) fun _ => .bind joined type fun first =>
    .bind joined (next.manyAfter joined [first]) fun seen => .pure joined seen.reverse

end Stars

end CypherSql.Cypher

namespace CypherSql.Expansion

open Cypher Text

/-- The character may stand in the bounds of a range, apart from blanks. -/
def isBoundChar (c : Char) : Bool :=
  isDecimalDigit c || c = '.'

/-- What a text shows of bounds, if it has neither braces nor brackets. -/
structure Shows (text shown : List Char) : Prop where
  shown : text.filter isBoundChar = shown
  within : ∀ c ∈ text, c ≠ '\x7b' ∧ c ≠ ']'

/-- The upper bound of a range behind its two points, if there is one. -/
def upperText (upper : Option (List Char)) : List Char :=
  upper.elim [] fun digits => '.' :: '.' :: digits

/-- Digits are read as a count, or there are none and no count. -/
def CountIs (digits : List Char) (count : Option Nat) : Prop :=
  digits = [] ∧ count = none ∨ digits ≠ []
    ∧ ∃ value, count = some value ∧ hopCount? digits = some value

section Bounds

variable {text more shown others digits after rest source tail : List Char} {c : Char}

theorem Shows.append (first : Shows text shown) (second : Shows more others)
    : Shows (text ++ more) (shown ++ others) where
  shown := by rw [List.filter_append, first.shown, second.shown]
  within c member := (List.mem_append.mp member).elim (first.within c) (second.within c)

theorem shows_blank (blank : AllBlank text) : Shows text [] where
  shown := List.filter_eq_nil_iff.mpr fun c member => by
    have noPoint : c ≠ '.' := by
      rintro rfl
      exact absurd (blank '.' member) (by decide)
    simp [isBoundChar, isDecimalDigit_of_isBlank (blank c member), noPoint]
  within c member := by
    constructor <;> rintro rfl <;> exact absurd (blank _ member) (by decide)

theorem shows_digits (each : ∀ c ∈ digits, isDecimalDigit c) : Shows digits digits where
  shown := List.filter_eq_self.mpr fun c member => by simp [isBoundChar, each c member]
  within c member := by
    constructor <;> rintro rfl <;> exact absurd (each _ member) (by decide)

theorem shows_points : Shows ['.', '.'] ['.', '.'] :=
  ⟨by decide, by simp⟩

/-- A text up to a brace or bracket is determined by the whole. -/
theorem Shows.unique (first : Shows text shown) (second : Shows more others)
    (same : text ++ tail = more ++ after) (ends : ∃ c ∈ tail.head?, c = '\x7b' ∨ c = ']')
    (stops : ∃ c ∈ after.head?, c = '\x7b' ∨ c = ']')
    : text = more ∧ tail = after := by
  have inside {text shown tail : List Char} (shows : Shows text shown)
      (ends : ∃ c ∈ tail.head?, c = '\x7b' ∨ c = ']')
      : (text ++ tail).takeWhile (fun c => c != '\x7b' && c != ']') = text := by
    obtain ⟨c, head, either⟩ := ends
    obtain ⟨rest, rfl⟩ := List.head?_eq_some_iff.mp head
    rw [List.takeWhile_append_of_pos fun c member => by simp [shows.within c member],
      List.takeWhile_cons_of_neg (by rcases either with rfl | rfl <;> decide), List.append_nil]
  obtain rfl : text = more := by rw [← inside first ends, same, inside second stops]
  exact ⟨rfl, List.append_cancel_left same⟩

/-- Bounds are determined by what is shown of them. -/
theorem bounds_unique {low least : List Char} {high most : Option (List Char)}
    (digits : ∀ c ∈ low, isDecimalDigit c) (also : ∀ c ∈ least, isDecimalDigit c)
    (same : low ++ upperText high = least ++ upperText most)
    : low = least ∧ high = most := by
  have inside {low : List Char} (digits : ∀ c ∈ low, isDecimalDigit c) (high : Option (List Char))
      : (low ++ upperText high).takeWhile isDecimalDigit = low := by
    rw [List.takeWhile_append_of_pos digits]
    cases high with
    | none => exact List.append_nil low
    | some _ =>
        exact (congrArg (low ++ ·) (List.takeWhile_cons_of_neg (by decide))).trans
          (List.append_nil low)
  obtain rfl : low = least := by rw [← inside digits high, same, inside also most]
  refine ⟨rfl, ?_⟩
  have uppers := List.append_cancel_left same
  cases high <;> cases most <;> cases uppers <;> rfl

theorem hopCount?_eq (each : ∀ c ∈ digits, c.isDigit)
    : hopCount? digits = decimalUpTo Number.largestWord32 digits := by
  rw [hopCount?, if_pos (List.all_eq_true.mpr each)]
  rfl

theorem isDecimalDigit_of_isDigit (digit : c.isDigit) : isDecimalDigit c := by
  rw [isDecimalDigit, if_pos (toNat_lt_of_isDigit digit)]
  exact digit

theorem allBlank_spaces (spaces : ∀ c ∈ text, isSpace c) : AllBlank text :=
  fun c member => isBlank_of_isSpace (spaces c member)

/-- What is read as a count, or as none, with the blanks around it. -/
theorem hopCount_shows {count : Option Nat}
    (read : (padded hopCount).optional source = .ok count rest)
    : ∃ text digits,
        source = text ++ rest
        ∧ Shows text digits
        ∧ (∀ c ∈ digits, isDecimalDigit c)
        ∧ CountIs digits count := by
  rcases Parser.optional_eq_ok read with ⟨value, rfl, found⟩ | ⟨rfl, rfl⟩
  · obtain ⟨tail, counted, rfl⟩ := padded_eq_ok found
    obtain ⟨digits, read, value'⟩ := reading_eq_ok.mp counted
    obtain ⟨here, nonempty, all, -⟩ := run1_eq_ok read
    obtain ⟨gap, leads, spaces⟩ := exists_skipped source
    obtain ⟨last, ends, others⟩ := exists_skipped tail
    have decimal : ∀ c ∈ digits, isDecimalDigit c :=
      fun c member => isDecimalDigit_of_isDigit (all c member)
    refine ⟨gap ++ (digits ++ last), digits, ?_, ?_, decimal, .inr ⟨nonempty, value, rfl, ?_⟩⟩
    · rw [List.append_assoc, List.append_assoc, ← ends, ← here]
      exact leads
    · have shows := (shows_blank (allBlank_spaces spaces)).append
        ((shows_digits decimal).append (shows_blank (allBlank_spaces others)))
      rwa [List.append_nil, List.nil_append] at shows
    · rw [hopCount?_eq all]
      exact value'
  · exact ⟨[], [], rfl, shows_blank nofun, nofun, .inl ⟨rfl, rfl⟩⟩

/-- What is read as a range behind its star. -/
theorem hopRange_shows {range : HopRange} (read : hopRange source = .ok range rest)
    : ∃ tail text low high,
        skip source = '*' :: tail
        ∧ tail = text ++ rest
        ∧ Shows text (low ++ upperText high)
        ∧ (∀ c ∈ low, isDecimalDigit c)
        ∧ CountIs low range.least
        ∧ high.elim (range.most = range.least) (CountIs · range.most) := by
  have whole : (hopRange >>= fun range => pure range) source = .ok range rest :=
    Parser.bind_eq_ok.mpr ⟨range, rest, read, rfl⟩
  rw [hopRange_bind] at whole
  obtain ⟨_, _, star, more⟩ := Parser.bind_eq_ok.mp whole
  obtain ⟨least, place, lower, more⟩ := Parser.bind_eq_ok.mp more
  obtain ⟨most, _, upper, same⟩ := Parser.bind_eq_ok.mp more
  cases same
  obtain ⟨tail, here, rfl⟩ := mark_eq_ok star
  obtain ⟨gap, leads, spaces⟩ := exists_skipped tail
  obtain ⟨text, low, split, shows, digits, counted⟩ := hopCount_shows lower
  have opening := (shows_blank (allBlank_spaces spaces)).append shows
  rw [List.nil_append] at opening
  rcases Parser.optional_eq_ok upper with ⟨most, rfl, found⟩ | ⟨rfl, rfl⟩
  · obtain ⟨_, middle, points, more⟩ := Parser.bind_eq_ok.mp found
    obtain ⟨behind, pointed, rfl⟩ := padded_eq_ok points
    obtain ⟨second, high, next, also, -, counts⟩ := hopCount_shows more
    obtain ⟨before, starts, blank⟩ := exists_skipped place
    obtain ⟨last, ends, others⟩ := exists_skipped behind
    have pair : skip place = ['.', '.'] ++ behind := literally_eq_ok pointed
    refine ⟨tail, gap ++ text ++ (before ++ (['.', '.'] ++ (last ++ second))), low, some high, here,
      ?_, ?_, digits, counted, counts⟩
    · rw [leads, split]
      simp only [List.append_assoc, List.append_cancel_left_eq]
      rw [starts, pair]
      conv_lhs => rw [ends, next]
    · exact opening.append ((shows_blank (allBlank_spaces blank)).append
        (shows_points.append ((shows_blank (allBlank_spaces others)).append also)))
  · refine ⟨tail, gap ++ text, low, none, here, ?_, ?_, digits, counted, rfl⟩
    · rw [List.append_assoc, ← split]
      exact leads
    · rwa [upperText, Option.elim_none, List.append_nil]

end Bounds

namespace Segment

variable {segment : Segment} {blanks : Blanks} {rest : List Char} {detail : RelationshipDetail}

/-- What follows the bounds of a segment, apart from blanks. -/
def ending (segment : Segment) (blanks : Blanks) : List Char :=
  segment.properties.elim (']' :: segment.right) fun map =>
    map ++ (blanks.beforeEnd ++ ']' :: segment.right)

theorem Matches.ending_head (matched : segment.Matches blanks rest)
    : ∃ c ∈ (segment.ending blanks).head?, c = '\x7b' ∨ c = ']' := by
  rw [ending]
  cases written : segment.properties with
  | none => exact ⟨']', rfl, .inr rfl⟩
  | some map =>
      obtain ⟨inner, rfl, -⟩ := matched.properties map written
      exact ⟨'\x7b', rfl, .inl rfl⟩

/-- What a segment shows of its bounds behind the star. -/
theorem Matches.shows (matched : segment.Matches blanks rest)
    : ∃ text,
        segment.afterStar blanks ++ ']' :: segment.right = text ++ segment.ending blanks
        ∧ Shows text (segment.least.getD [] ++ upperText (segment.most.map (·.getD [])))
        ∧ ∀ c ∈ segment.least.getD [], isDecimalDigit c := by
  have blank := matched.blank
  simp only [List.forall_mem_cons] at blank
  obtain ⟨-, -, -, beforeLeast, beforePoints, beforeMost, beforeProperties, beforeEnd, -⟩ := blank
  have least : ∀ c ∈ segment.least.getD [], isDecimalDigit c := by
    cases written : segment.least with
    | none => exact List.forall_mem_nil _
    | some digits => exact (matched.least digits written).2
  have upper : Shows (segment.upperBound blanks) (upperText (segment.most.map (·.getD []))) := by
    rw [upperBound]
    cases written : segment.most with
    | none => exact shows_blank (List.forall_mem_nil _)
    | some digits =>
        have each : ∀ c ∈ digits.getD [], isDecimalDigit c := by
          cases digits with
          | none => exact List.forall_mem_nil _
          | some digits => exact (matched.most digits written).2
        have shows := shows_points.append ((shows_blank beforeMost).append (shows_digits each))
        rwa [List.nil_append] at shows
  have bounds : Shows
      (blanks.beforeLeast
        ++ (segment.least.getD [] ++ (blanks.beforePoints ++ (segment.upperBound blanks
        ++ blanks.beforeProperties))))
      (segment.least.getD [] ++ upperText (segment.most.map (·.getD []))) := by
    have shows := (shows_blank beforeLeast).append ((shows_digits least).append
      ((shows_blank beforePoints).append (upper.append (shows_blank beforeProperties))))
    rwa [List.append_nil, List.nil_append, List.nil_append] at shows
  cases written : segment.properties with
  | none =>
      have closed := bounds.append (shows_blank beforeEnd)
      rw [List.append_nil] at closed
      refine ⟨_, ?_, closed, least⟩
      simp [afterStar, ending, written]
  | some map =>
      refine ⟨_, ?_, bounds, least⟩
      simp [afterStar, ending, written]

/-- A segment with given digits has the range of the counts that they are read as. -/
theorem range_of_counts {range : HopRange} {maxHops : Nat}
    (least : CountIs (segment.least.getD []) range.least)
    (most : (segment.most.map (·.getD [])).elim (range.most = range.least) (CountIs · range.most))
    (lower : ∀ digits, segment.least = some digits → digits ≠ [])
    (upper : ∀ digits, segment.most = some (some digits) → digits ≠ [])
    : segment.Range maxHops (range.least.getD 1) (range.most.getD maxHops) := by
  have bound {digits : Option (List Char)} {count : Option Nat} {standard : Nat}
      (nonempty : ∀ text, digits = some text → text ≠ []) (counts : CountIs (digits.getD []) count)
      : BoundIs standard digits (count.getD standard) := by
    cases digits with
    | none =>
        rcases counts with ⟨-, rfl⟩ | ⟨filled, -⟩
        · rfl
        · exact absurd rfl filled
    | some text =>
        rcases counts with ⟨empty, -⟩ | ⟨-, value, rfl, counts⟩
        · exact absurd empty (nonempty text rfl)
        · exact counts
  cases written : segment.most with
  | none =>
      rw [written] at most
      rw [show range.most = range.least from most]
      cases first : segment.least with
      | none =>
          rw [first] at least
          rcases least with ⟨-, none⟩ | ⟨nonempty, -⟩
          · rw [none]
            exact .star first written
          · exact absurd rfl nonempty
      | some digits =>
          rw [first] at least
          rcases least with ⟨empty, -⟩ | ⟨-, value, same, counts⟩
          · exact absurd empty (lower digits first)
          · rw [same]
            exact .exact first written counts
  | some digits =>
      rw [written] at most
      exact .between written (bound lower least)
        (bound (fun text same => upper text (same ▸ written)) most)

end Segment

section Details

variable {source rest middle behind : List Char} {detail : RelationshipDetail}

/-- An anonymous relationship with a range as it is read between brackets: its types first, then its
range, then its properties.
-/
structure DetailReads (detail : RelationshipDetail) (source second third middle : List Char)
    : Prop where
  anonymous : detail.name = none
  types : typeNames.optional source = .ok none second ∧ detail.types = []
    ∨ typeNames source = .ok detail.types second
  range : ∃ range, hopRange second = .ok range third ∧ detail.length = some range
  properties : (mapLiteral expression).optional third = .ok detail.properties middle

theorem exists_detailReads (read : detailInside source = .ok detail middle)
    (ranged : detail.isRanged)
    : ∃ second third, DetailReads detail source second third middle := by
  obtain ⟨name, place, named, read⟩ := Parser.bind_eq_ok.mp read
  obtain ⟨types, second, typed, read⟩ := Parser.bind_eq_ok.mp read
  obtain ⟨length, third, bounds, read⟩ := Parser.bind_eq_ok.mp read
  obtain ⟨properties, fourth, mapped, same⟩ := Parser.bind_eq_ok.mp read
  cases same
  rw [RelationshipDetail.isRanged, Bool.and_eq_true] at ranged
  obtain rfl := Option.isNone_iff_eq_none.mp ranged.1
  obtain ⟨-, rfl⟩ := Parser.optional_eq_none named
  obtain ⟨found, _, listed, same⟩ := Parser.bind_eq_ok.mp typed
  cases same
  refine ⟨second, third, rfl, ?_, ?_, mapped⟩
  · rcases Parser.optional_eq_ok listed with ⟨types, rfl, found⟩ | ⟨rfl, -⟩
    · exact .inr found
    · exact .inl ⟨listed, rfl⟩
  · rcases Parser.optional_eq_ok bounds with ⟨range, rfl, bounded⟩ | ⟨rfl, -⟩
    · exact ⟨range, bounded, rfl⟩
    · cases ranged.2

section Reads

variable {second third : List Char} (reads : DetailReads detail source second third middle)
include reads

/-- The star is the first one outside of quotes. -/
theorem DetailReads.starless
    : ∃ opening tail, source = opening ++ '*' :: tail ∧ Starless opening
      ∧ skip second = '*' :: tail := by
  have joined := named_starless.toJoined
  have sign (c : Char) (plain : c ∉ quotes ∧ c ≠ '*') : Starless [c] :=
    starless_all fun d member => List.mem_singleton.mp member ▸ plain
  have types := typeNames_takes named_starless (sign ':' (by decide)) (sign '|' (by decide))
  obtain ⟨found, listed⟩ : ∃ found, typeNames.optional source = .ok found second := by
    rcases reads.types with ⟨none, -⟩ | some
    · exact ⟨_, none⟩
    · exact ⟨_, Parser.optional_of_ok some⟩
  obtain ⟨text, rfl, starless⟩ := (types.optional joined).taken listed
  obtain ⟨range, bounded, -⟩ := reads.range
  obtain ⟨tail, _, _, _, star, -⟩ := hopRange_shows bounded
  obtain ⟨gap, leads, spaces⟩ := exists_skipped second
  refine ⟨text ++ gap, tail, ?_, starless.append (joined.spaces gap spaces), star⟩
  rw [List.append_assoc, ← star, ← leads]

/-- A brace or the closing bracket stands behind the range. -/
theorem DetailReads.next (closed : skip middle = ']' :: behind) : Next ['\x7b', ']'] third := by
  rcases Parser.optional_eq_ok reads.properties with ⟨entries, -, found⟩ | ⟨-, rfl⟩
  · exact (mapLiteral_next found).mono (by simp)
  · exact ⟨']', by rw [closed, List.head?_cons, Option.mem_def], by simp⟩

end Reads

end Details

theorem unquoted_blank {text : List Char} (blank : AllBlank text) : Unquoted text := by
  have visible : quotes.all (fun c => !isBlank c) = true := by decide
  refine unquoted_all fun c member isQuote => ?_
  have noBlank := List.all_eq_true.mp visible c isQuote
  rw [blank c member] at noBlank
  cases noBlank

theorem isSpace_of_isPlainStart {c : Char} (plain : isPlainStart c) : isSpace c = false := by
  have inName : isPlainChar c := by
    simp only [isPlainStart, isPlainChar, Char.isAlphanum, Bool.or_eq_true] at plain ⊢
    exact plain.imp_left .inl
  refine Bool.eq_false_iff.mpr fun space => ?_
  rw [isPlainChar_of_isBlank (isBlank_of_isSpace space)] at inName
  cases inName

/-- What comes first besides spaces is a blank or what follows the blanks. -/
theorem blank_or_eq_of_head {text more : List Char} {c d : Char} (blank : AllBlank text)
    (head : d ∈ (skip (text ++ c :: more)).head?) (visible : isSpace c = false)
    : isBlank d ∨ d = c := by
  induction text with
  | nil =>
      rw [List.nil_append, skip_cons visible, List.head?_cons, Option.mem_def, Option.some.injEq]
        at head
      exact .inr head.symm
  | cons b text ih =>
      have others : AllBlank text := fun c member => blank c (List.mem_cons_of_mem b member)
      cases space : isSpace b with
      | true =>
          rw [List.cons_append, show skip (b :: (text ++ c :: more)) = skip (text ++ c :: more) from
            List.dropWhile_cons_of_pos space] at head
          exact ih others head
      | false =>
          rw [List.cons_append, skip_cons space, List.head?_cons, Option.mem_def, Option.some.injEq]
            at head
          exact .inl (head ▸ blank b List.mem_cons_self)

namespace Segment

variable {segment : Segment} {blanks : Blanks} {rest inside : List Char}
  {detail : RelationshipDetail}

/-- What a segment is to the grammar by itself, if that is an anonymous relationship with a range of
hops.
-/
def ranges (segment : Segment) : List RelationshipDetail :=
  match relationshipPattern segment.pattern with
  | .ok relationship [] => relationship.detail.ranges
  | _ => []

/-- Up to their opening bracket, the left end of an arrow is read as the text has it. -/
theorem arrowEnd_left {head : Bool} (left : segment.left = ['<', '-'] ∨ segment.left = ['-'])
    (read : arrowEnd "<-" (segment.left ++ '[' :: inside) = .ok head rest)
    : segment.left = arrowText "<-" head ∧ rest = '[' :: inside := by
  obtain ⟨tail, here, rfl, -⟩ := arrowEnd_eq_ok read
  rcases left with left | left <;> rw [left] at here ⊢ <;> cases head <;> cases here <;>
    exact ⟨rfl, rfl⟩

/-- A relationship that a segment is to the grammar is read between its brackets, with the ends of
its arrow around them.
-/
theorem relationship_of_ranges (left : segment.left = ['<', '-'] ∨ segment.left = ['-'])
    (pattern : segment.pattern = segment.left ++ '[' :: inside) (reads : segment.ranges = [detail])
    : detail.isRanged
      ∧ (∃ c ∈ (skip inside).head?, c = ':' ∨ c = '*')
      ∧ ∃ leftHead rightHead middle behind,
          segment.left = arrowText "<-" leftHead
          ∧ detailInside (skip inside) = .ok detail middle
          ∧ skip middle = ']' :: behind
          ∧ arrowEnd "->" (skip behind) = .ok rightHead [] := by
  unfold ranges at reads
  split at reads
  · rename_i relationship read
    rw [RelationshipDetail.ranges] at reads
    split at reads
    · rename_i ranged
      obtain rfl := List.singleton_inj.mp reads
      refine ⟨ranged, ?_⟩
      rw [relationshipPattern_eq, pattern] at read
      obtain ⟨leftHead, place, arrow, more⟩ := Parser.bind_eq_ok.mp read
      obtain ⟨leftText, rfl⟩ := arrowEnd_left left arrow
      obtain ⟨found, _, optional, more⟩ := Parser.bind_eq_ok.mp more
      obtain ⟨rightHead, _, closes, same⟩ := Parser.bind_eq_ok.mp more
      cases same
      rcases Parser.optional_eq_ok optional with ⟨detail, rfl, found⟩ | ⟨rfl, rfl⟩
      · refine ⟨relationshipDetail_next found ranged, ?_⟩
        rw [relationshipDetail_eq] at found
        obtain ⟨inner, behind, opens, rfl, middle, read, there⟩ := between_eq_ok found
        rw [skip_cons (by decide)] at opens
        obtain ⟨-, rfl⟩ := List.cons.inj opens
        exact ⟨leftHead, rightHead, middle, behind, leftText, read, there, closes⟩
      · cases ranged
    · cases reads
  · cases reads

/-- What a name may open with is no colon or star, and neither are blanks. -/
theorem name_eq_none (matched : segment.Matches blanks rest) {behind : List Char}
    (next : ∃ c ∈ (skip (segment.opening blanks ++ behind)).head?, c = ':' ∨ c = '*')
    : segment.name = none := by
  cases named : segment.name with
  | none => rfl
  | some name =>
      obtain ⟨c, head, either⟩ := next
      obtain ⟨first, more, rfl, plain⟩ := matched.nameStart name named
      rw [opening, named, Option.getD_some] at head
      simp only [List.append_assoc, List.cons_append] at head
      have visible := isSpace_of_isPlainStart plain
      rcases blank_or_eq_of_head (matched.blank _ List.mem_cons_self) head visible with blank | rfl
      · rcases either with rfl | rfl <;> exact absurd blank (by decide)
      · rcases either with rfl | rfl <;> exact absurd plain (by decide)

/-- The text of a segment behind its opening bracket. -/
def body (segment : Segment) (blanks : Blanks) : List Char :=
  segment.opening blanks ++ '*' :: (segment.afterStar blanks ++ ']' :: segment.right)

theorem Matches.pattern_eq (matched : segment.Matches blanks rest)
    : segment.pattern = segment.left ++ '[' :: segment.body blanks := by
  rw [matched.pattern, Segment.text, Segment.body]
  simp

/-- Where a segment is an anonymous relationship with a range to the grammar and no quotes open in
its types, the grammar reads the star and what follows the bounds where the segment has them.
-/
theorem Matches.reads_of_ranges (matched : segment.Matches blanks rest)
    (reads : segment.ranges = [detail]) (unquoted : Unquoted segment.types)
    : segment.name = none
      ∧ ∃ second third middle behind,
          detailInside (skip (segment.body blanks)) = .ok detail middle
          ∧ DetailReads detail (skip (segment.body blanks)) second third middle
          ∧ skip middle = ']' :: behind
          ∧ skip second = '*' :: (segment.afterStar blanks ++ ']' :: segment.right)
          ∧ skip third = segment.ending blanks
          ∧ ∃ leftHead rightHead,
              segment.left = arrowText "<-" leftHead
              ∧ arrowEnd "->" (skip behind) = .ok rightHead [] := by
  obtain ⟨ranged, next, leftHead, rightHead, middle, behind, left, read, closed, right⟩ :=
    relationship_of_ranges matched.left matched.pattern_eq reads
  obtain ⟨second, third, reads⟩ := exists_detailReads read ranged
  obtain ⟨opening, tail, split, starless, star⟩ := reads.starless
  have anonymous := name_eq_none matched next
  have apart : ∀ c ∈ segment.opening blanks, isTypeChar c :=
    fun c => matched.toSpelled.isTypeChar_of_mem_opening
  have noStar : '*' ∉ segment.opening blanks := fun member => absurd (apart '*' member) (by decide)
  have outside : Unquoted (segment.opening blanks) := by
    have blank := matched.blank
    simp only [List.forall_mem_cons] at blank
    rw [Segment.opening, anonymous, Option.getD_none, List.append_nil]
    have types := ((unquoted_blank blank.1).append (unquoted_blank blank.2.1)).append unquoted
    exact types.append (unquoted_blank blank.2.2.1)
  obtain ⟨gap, leads, spaces⟩ := exists_skipped (segment.body blanks)
  have whole : (gap ++ opening) ++ '*' :: tail
      = segment.opening blanks ++ '*' :: (segment.afterStar blanks ++ ']' :: segment.right) := by
    rw [List.append_assoc, ← split]
    exact leads.symm
  obtain ⟨-, rfl⟩ :=
    (named_starless.append gap opening (named_starless.spaces gap spaces) starless).unique
    outside noStar whole
  refine ⟨anonymous, second, third, middle, behind, read, reads, closed, star, ?_,
    leftHead, rightHead, left, right⟩
  obtain ⟨range, bounded, -⟩ := reads.range
  obtain ⟨tail, text, low, high, here, rfl, shows, -⟩ := hopRange_shows bounded
  obtain ⟨text', split', shows', -⟩ := matched.shows
  obtain ⟨last, ends, others⟩ := exists_skipped third
  obtain ⟨c, head, member⟩ := reads.next closed
  refine ((shows.append (shows_blank (allBlank_spaces others))).unique shows' ?_
    ⟨c, head, by simpa using member⟩ matched.ending_head).2
  rw [List.append_assoc, ← ends, ← split']
  exact (List.cons.inj (here.symm.trans star)).2

/-- An anonymous relationship with a range that a segment is to the grammar has the bounds of the
segment, if no quotes open in its types.
-/
theorem Matches.range_of_ranges (matched : segment.Matches blanks rest)
    (reads : segment.ranges = [detail])
    (unquoted : Unquoted segment.types)
    : segment.name = none
      ∧ ∃ range,
          detail.length = some range
          ∧ ∀ maxHops, segment.Range maxHops (range.least.getD 1) (range.most.getD maxHops) := by
  obtain ⟨anonymous, second, third, middle, behind, -, reads, closed, star, ends, -⟩ :=
    matched.reads_of_ranges reads unquoted
  obtain ⟨range, bounded, length⟩ := reads.range
  obtain ⟨tail, text, low, high, here, rfl, shows, digits, least, most⟩ := hopRange_shows bounded
  obtain ⟨text', split, shows', digits'⟩ := matched.shows
  refine ⟨anonymous, range, length, fun maxHops => ?_⟩
  obtain ⟨last, split', others⟩ := exists_skipped third
  have whole := shows.append (shows_blank (allBlank_spaces others))
  have same : text ++ last = text' := by
    refine (List.append_left_inj (segment.ending blanks)).mp ?_
    rw [List.append_assoc, ← split, ← ends, ← split']
    exact (List.cons.inj (here.symm.trans star)).2
  rw [same, List.append_nil] at whole
  obtain ⟨rfl, rfl⟩ := bounds_unique digits digits' (whole.shown.symm.trans shows'.shown)
  refine range_of_counts least most (fun digits written => (matched.least digits written).1)
    fun digits written => (matched.most digits written).1

end Segment

end CypherSql.Expansion
