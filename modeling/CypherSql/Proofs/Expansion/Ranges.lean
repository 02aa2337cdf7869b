import CypherSql.Proofs.Expansion.Matches
import CypherSql.Proofs.Expansion.Variants

/-! What a relationship with a hop range asks for: a range of hop counts, or the error it is refused
with. -/

namespace CypherSql.Expansion

namespace Segment

/-- A bound is the hop count that is written, or a given one where none is. -/
def BoundIs (standard : Nat) (digits : Option (List Char)) (count : Nat) : Prop :=
  digits.elim (count = standard) (hopCount? · = some count)

/-- The bounds that a segment writes. A single number is both of them, and an open bound is one hop
or the given maximum.
-/
inductive Range (maxHops : Nat) (segment : Segment) : Nat → Nat → Prop
  | star (least : segment.least = none) (most : segment.most = none)
    : Range maxHops segment 1 maxHops
  | exact {digits count} (least : segment.least = some digits) (most : segment.most = none)
    (counts : hopCount? digits = some count)
    : Range maxHops segment count count
  | between {digits low high} (most : segment.most = some digits)
    (lowIs : BoundIs 1 segment.least low)
    (highIs : BoundIs maxHops digits high)
    : Range maxHops segment low high

/-- An anonymous segment offers the hop counts of its range, if that is not empty and leaves zero
out.
-/
structure Offers (maxHops : Nat) (segment : Segment) (range : Nat × Nat) : Prop where
  anonymous : segment.name = none
  written : segment.Range maxHops range.1 range.2
  positive : 1 ≤ range.1
  ordered : range.1 ≤ range.2

/-- Why a segment cannot be written out: it has a name, a bound that is no hop count, a range that
opens with zero, or an empty one.
-/
inductive Refused (maxHops : Nat) (segment : Segment) : ExpansionError → Prop
  | named {name} (named : segment.name = some name)
    : Refused maxHops segment
        (.namedRelationship (String.ofList segment.pattern) (String.ofList name))
  | uncounted {digits} (anonymous : segment.name = none)
    (written : segment.least = some digits ∨ segment.most = some (some digits))
    (counts : hopCount? digits = none)
    : Refused maxHops segment (.hopCountOutOfRange (String.ofList segment.pattern))
  | zero {most} (anonymous : segment.name = none) (written : segment.Range maxHops 0 most)
    : Refused maxHops segment (.zeroLength (String.ofList segment.pattern))
  | empty {least most} (anonymous : segment.name = none)
    (written : segment.Range maxHops least most)
    (positive : 1 ≤ least) (inverted : most < least)
    : Refused maxHops segment (.invalidRange (String.ofList segment.pattern))

variable {maxHops : Nat} {segment : Segment}

/-- A written bound is read as its hop count. -/
theorem exists_of_bound_some {text : List Char} {read : Option Nat}
    (isRead : segment.bound (some text) = .ok read)
    : ∃ count, hopCount? text = some count ∧ read = some count := by
  simp only [bound] at isRead
  split at isRead
  · rename_i count counts
    exact ⟨count, counts, (Except.ok.inj isRead).symm⟩
  · cases isRead

/-- A bound that is read is the hop count that is written, or open. -/
theorem boundIs_iff {digits : Option (List Char)} {read : Option Nat}
    (isRead : segment.bound digits = .ok read) {standard count : Nat}
    : BoundIs standard digits count ↔ read.getD standard = count := by
  cases digits with
  | none =>
      cases isRead
      exact eq_comm
  | some text =>
      obtain ⟨value, counts, rfl⟩ := exists_of_bound_some isRead
      simp [BoundIs, counts]

/-- A bound that cannot be read is written and no hop count. -/
theorem bound_eq_error_iff {digits : Option (List Char)} {error : ExpansionError}
    : segment.bound digits = .error error
      ↔ (∃ text, digits = some text ∧ hopCount? text = none)
        ∧ error = .hopCountOutOfRange (String.ofList segment.pattern) := by
  cases digits with
  | none => simp [bound]
  | some text =>
      unfold bound
      cases value : hopCount? text <;> simp [value, eq_comm]

/-- Where both bounds are read, the range that is written is the one that is computed. -/
theorem range_iff {low high : Option Nat} (lowRead : segment.bound segment.least = .ok low)
    (highRead : segment.bound segment.most.join = .ok high) {least most : Nat}
    : segment.Range maxHops least most
      ↔ bounds maxHops low (segment.most.map fun _ => high) = (least, most) := by
  cases upper : segment.most with
  | some digits =>
      rw [upper] at highRead
      have same : bounds maxHops low (some high) = (low.getD 1, high.getD maxHops) := by
        cases low <;> rfl
      rw [Option.map_some, same, Prod.mk.injEq]
      constructor
      · rintro (⟨-, none⟩ | ⟨-, none, -⟩ | ⟨written, lowIs, highIs⟩)
        · cases upper.symm.trans none
        · cases upper.symm.trans none
        · obtain rfl := Option.some.inj (upper.symm.trans written)
          exact ⟨(boundIs_iff lowRead).mp lowIs, (boundIs_iff highRead).mp highIs⟩
      · rintro ⟨lowIs, highIs⟩
        exact .between upper ((boundIs_iff lowRead).mpr lowIs) ((boundIs_iff highRead).mpr highIs)
  | none =>
      rw [Option.map_none]
      cases lower : segment.least with
      | none =>
          rw [lower] at lowRead
          cases lowRead
          constructor
          · rintro (_ | ⟨written, -, -⟩ | ⟨written, -, -⟩)
            · rfl
            · cases lower.symm.trans written
            · cases upper.symm.trans written
          · rintro ⟨⟩
            exact .star lower upper
      | some digits =>
          rw [lower] at lowRead
          obtain ⟨value, counts, rfl⟩ := exists_of_bound_some lowRead
          constructor
          · rintro (⟨none, -⟩ | ⟨written, -, same⟩ | ⟨written, -, -⟩)
            · cases lower.symm.trans none
            · obtain rfl := Option.some.inj (lower.symm.trans written)
              obtain rfl := Option.some.inj (counts.symm.trans same)
              rfl
            · cases upper.symm.trans written
          · rintro ⟨⟩
            exact .exact lower upper counts

theorem exists_bound_of_boundIs {standard count : Nat} {digits : Option (List Char)}
    (isBound : BoundIs standard digits count)
    : ∃ read, segment.bound digits = .ok read := by
  cases digits with
  | none => exact ⟨none, rfl⟩
  | some text => exact ⟨some count, by simp [bound, show hopCount? text = some count from isBound]⟩

/-- Both bounds of a range are read. -/
theorem exists_bounds_of_range {least most : Nat} (range : segment.Range maxHops least most)
    : ∃ low high,
        segment.bound segment.least = .ok low ∧ segment.bound segment.most.join = .ok high := by
  cases range with
  | star lower upper =>
      rw [lower, upper]
      exact ⟨none, none, rfl, rfl⟩
  | exact lower upper counts =>
      rw [lower, upper]
      exact ⟨some least, none, by simp [bound, counts], rfl⟩
  | between upper lowIs highIs =>
      obtain ⟨low, lowRead⟩ := exists_bound_of_boundIs lowIs
      obtain ⟨high, highRead⟩ := exists_bound_of_boundIs highIs
      rw [upper]
      exact ⟨low, high, lowRead, highRead⟩

/-- What a segment offers is what it is written out in. -/
theorem spans_iff_offers {least most : Nat}
    : segment.Spans maxHops least most ↔ segment.Offers maxHops (least, most) := by
  constructor
  · rintro ⟨anonymous, ⟨low, high, lowRead, highRead, same⟩, positive, ordered⟩
    exact ⟨anonymous, (range_iff lowRead highRead).mpr same, positive, ordered⟩
  · rintro ⟨anonymous, written, positive, ordered⟩
    obtain ⟨low, high, lowRead, highRead⟩ := exists_bounds_of_range written
    exact ⟨anonymous, ⟨low, high, lowRead, highRead, (range_iff lowRead highRead).mp written⟩,
      positive, ordered⟩

/-- Where both bounds of an anonymous segment are read, its range decides. -/
theorem chain_of_bounds {low high : Option Nat} (anonymous : segment.name = none)
    (lowRead : segment.bound segment.least = .ok low)
    (highRead : segment.bound segment.most.join = .ok high) {least most : Nat}
    (written : segment.Range maxHops least most)
    : segment.chain maxHops
      = if least = 0 then .error (.zeroLength (String.ofList segment.pattern))
        else if most < least then .error (.invalidRange (String.ofList segment.pattern))
        else .ok { hop := segment.hop, least, most } := by
  have computed := (range_iff lowRead highRead).mp written
  simp only [chain, anonymous, lowRead, highRead]
  change (if (bounds maxHops low (segment.most.map fun _ => high)).1 = 0 then _ else _) = _
  rw [computed]
  split
  · rfl
  · split <;> rfl

/-- A segment is refused with the error that writing it out ends in. -/
theorem chain_eq_error_iff {error : ExpansionError}
    : segment.chain maxHops = .error error ↔ segment.Refused maxHops error := by
  constructor
  · intro fails
    cases named : segment.name with
    | some name =>
        simp only [chain, named] at fails
        cases fails
        exact .named named
    | none =>
        cases lowRead : segment.bound segment.least with
        | error cause =>
            obtain ⟨⟨digits, written, counts⟩, rfl⟩ := bound_eq_error_iff.mp lowRead
            simp only [chain, named, lowRead] at fails
            cases fails
            exact .uncounted named (.inl written) counts
        | ok low =>
            cases highRead : segment.bound segment.most.join with
            | error cause =>
                obtain ⟨⟨digits, written, counts⟩, rfl⟩ := bound_eq_error_iff.mp highRead
                simp only [chain, named, lowRead, highRead] at fails
                cases fails
                exact .uncounted named (.inr (Option.join_eq_some_iff.mp written)) counts
            | ok high =>
                obtain ⟨least, most, written⟩ : ∃ least most, segment.Range maxHops least most :=
                  ⟨_, _, (range_iff lowRead highRead).mpr rfl⟩
                rw [chain_of_bounds named lowRead highRead written] at fails
                split at fails
                · rename_i zero
                  cases fails
                  exact .zero named (zero ▸ written)
                · split at fails
                  · rename_i positive inverted
                    cases fails
                    exact .empty named written (Nat.pos_of_ne_zero positive) inverted
                  · cases fails
  · rintro (named | ⟨anonymous, written, counts⟩ | ⟨anonymous, written⟩
      | ⟨anonymous, written, positive, inverted⟩)
    · simp only [chain, named]
      rfl
    · rcases written with lower | upper
      · have lowRead : segment.bound segment.least
            = .error (.hopCountOutOfRange (String.ofList segment.pattern)) :=
          bound_eq_error_iff.mpr ⟨⟨_, lower, counts⟩, rfl⟩
        simp only [chain, anonymous, lowRead]
        rfl
      · -- The lower number is read first; where it is too large as well, the error is the same.
        have highRead : segment.bound segment.most.join
            = .error (.hopCountOutOfRange (String.ofList segment.pattern)) :=
          bound_eq_error_iff.mpr ⟨⟨_, Option.join_eq_some_iff.mpr upper, counts⟩, rfl⟩
        cases lowRead : segment.bound segment.least with
        | ok low =>
            simp only [chain, anonymous, lowRead, highRead]
            rfl
        | error cause =>
            obtain ⟨-, rfl⟩ := bound_eq_error_iff.mp lowRead
            simp only [chain, anonymous, lowRead]
            rfl
    · obtain ⟨low, high, lowRead, highRead⟩ := exists_bounds_of_range written
      rw [chain_of_bounds anonymous lowRead highRead written, if_pos rfl]
    · obtain ⟨low, high, lowRead, highRead⟩ := exists_bounds_of_range written
      rw [chain_of_bounds anonymous lowRead highRead written, if_neg (Nat.ne_of_gt positive),
        if_pos inverted]

/-- Blanks after the types make no difference. -/
theorem chain_trimmed : segment.trimmed.chain maxHops = segment.chain maxHops := by
  have hop : segment.trimmed.hop = segment.hop := by
    simp only [Segment.hop, trimmed, trimEnd_trimEnd]
  simp only [chain, hop]
  rfl

end Segment

end CypherSql.Expansion
