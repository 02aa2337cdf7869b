/-!
Sets of characters given as closed ranges of code points. Blanks: the characters with the Unicode
property White_Space, and cutting them off a text.
-/

namespace CypherSql.Text

/-- Closed ranges of code points, the form in which character properties are published. -/
abbrev Ranges := List (Nat × Nat)

/-- Some range holds the code point of the character. -/
def Ranges.contains (ranges : Ranges) (c : Char) : Bool :=
  ranges.any fun range => range.1 ≤ c.toNat && c.toNat ≤ range.2

/-- The ranges of the property White_Space. -/
def blankRanges : Ranges :=
  [(0x9, 0xd), (0x20, 0x20), (0x85, 0x85), (0xa0, 0xa0), (0x1680, 0x1680), (0x2000, 0x200a),
    (0x2028, 0x2029), (0x202f, 0x202f), (0x205f, 0x205f), (0x3000, 0x3000)]

/-- The character has the property White_Space. -/
def isBlank (c : Char) : Bool :=
  blankRanges.contains c

/-- No range of one list meets a range of the other. -/
def Ranges.apart (left right : Ranges) : Bool :=
  left.all fun one => right.all fun other => one.2.blt other.1 || other.2.blt one.1

theorem Ranges.contains_eq_false_of_apart {left right : Ranges} {c : Char}
    (apart : left.apart right) (inside : left.contains c)
    : right.contains c = false := by
  obtain ⟨one, member, within⟩ := List.any_eq_true.mp inside
  refine List.any_eq_false.mpr fun other member' => ?_
  have disjoint := List.all_eq_true.mp (List.all_eq_true.mp apart one member) other member'
  simp only [Bool.or_eq_true, Bool.and_eq_true, Nat.blt_eq, decide_eq_true_eq]
    at disjoint within ⊢
  omega

/-- No blank is a letter or a digit of ASCII. -/
theorem isAlphanum_of_isBlank {c : Char} (blank : isBlank c) : c.isAlphanum = false := by
  have outside : Ranges.contains [(48, 57), (65, 90), (97, 122)] c = false :=
    Ranges.contains_eq_false_of_apart (by decide) blank
  have zero : '0'.val.toNat = 48 := rfl
  have nine : '9'.val.toNat = 57 := rfl
  have upper : 'A'.val.toNat = 65 ∧ 'Z'.val.toNat = 90 := ⟨rfl, rfl⟩
  have lower : 'a'.val.toNat = 97 ∧ 'z'.val.toNat = 122 := ⟨rfl, rfl⟩
  have point : c.toNat = c.val.toNat := rfl
  rw [Bool.eq_false_iff]
  intro plain
  delta Char.isAlphanum at plain
  delta Char.isAlpha Char.isDigit at plain
  delta Char.isUpper Char.isLower at plain
  simp only [Bool.or_eq_true, Bool.and_eq_true, decide_eq_true_eq, ge_iff_le,
    UInt32.le_iff_toNat_le] at plain
  simp only [Ranges.contains, List.any_cons, List.any_nil, Bool.or_eq_false_iff,
    Bool.and_eq_false_iff, decide_eq_false_iff_not] at outside
  omega

/-- The text without the blanks at its end. -/
def trimEnd (cs : List Char) : List Char :=
  (cs.reverse.dropWhile isBlank).reverse

/-- The text without the blanks at either end. -/
def trim (cs : List Char) : List Char :=
  trimEnd (cs.dropWhile isBlank)

/-- Every character of the text is a blank. -/
def isAllBlank (s : String) : Bool :=
  s.toList.all isBlank

end CypherSql.Text
