import CypherSql.Plan.Naming
import CypherSql.Proofs.Names

/-! Generated names are new. The search for a free number ends because its candidates differ from
each other and only finitely many names are taken.
-/

namespace CypherSql.Plan

/-- The search passes over taken candidates only, and stops at a free one unless its steps are used
up, by induction over the steps.
-/
theorem firstFree_passes (taken : NameSet) (candidate : Nat → String) (steps start : Nat)
    : ∃ passed ≤ steps,
        firstFree taken candidate steps start = start + passed
        ∧ (∀ k < passed, candidate (start + k) ∈ taken)
        ∧ (passed < steps → candidate (start + passed) ∉ taken) := by
  induction steps generalizing start with
  | zero => exact ⟨0, Nat.le_refl 0, rfl, by simp, by simp⟩
  | succ steps ih =>
      by_cases occupied : candidate start ∈ taken
      · obtain ⟨passed, bound, result, before, after⟩ := ih (start + 1)
        refine ⟨passed + 1, by omega, ?_, ?_, ?_⟩
        · simp only [firstFree, occupied, if_true, result]
          omega
        · intro k below
          cases k with
          | zero => exact occupied
          | succ k =>
              have shifted : start + 1 + k = start + (k + 1) := by omega
              exact shifted ▸ before k (by omega)
        · intro below
          have shifted : start + 1 + passed = start + (passed + 1) := by omega
          exact shifted ▸ after (by omega)
      · exact ⟨0, by omega, by simp [firstFree, occupied], by simp, fun _ => occupied⟩

/-- With candidates that differ from each other, the free number is the least one from the start on
whose candidate is not taken. Witness: the passed candidates are different taken names, so there are
fewer of them than steps.
-/
theorem freeNumber_least {taken : NameSet} {candidate : Nat → String} (start : Nat)
    (injective : ∀ m n, candidate m = candidate n → m = n)
    : start ≤ freeNumber taken candidate start
      ∧ candidate (freeNumber taken candidate start) ∉ taken
      ∧ ∀ k, start ≤ k → k < freeNumber taken candidate start → candidate k ∈ taken := by
  obtain ⟨passed, bound, result, before, after⟩ :=
    firstFree_passes taken candidate (taken.names.length + 1) start
  have distinct : ((List.range passed).map fun k => candidate (start + k)).Nodup := by
    refine List.pairwise_map.mpr ((List.nodup_range (n := passed)).imp ?_)
    intro m n different same
    exact different (by have := injective _ _ same; omega)
  have included : ((List.range passed).map fun k => candidate (start + k)) ⊆ taken.names := by
    intro name member
    obtain ⟨k, below, rfl⟩ := List.mem_map.mp member
    exact before k (List.mem_range.mp below)
  have few : passed ≤ taken.names.length := by
    simpa using distinct.length_le_of_subset included
  rw [freeNumber, result]
  refine ⟨by omega, after (by omega), ?_⟩
  intro k above below
  have shifted : start + (k - start) = k := by omega
  exact shifted ▸ before (k - start) (by omega)

/-- Numbered names differ where their numbers do. -/
theorem numbered_injective (base : String) (m n : Nat)
    (same : base ++ toString m = base ++ toString n)
    : m = n := by
  have texts : toString m = toString n := (String.append_right_inj base).mp same
  have digits : Nat.toDigits 10 m = Nat.toDigits 10 n := by
    simpa only [Nat.toString_eq_ofList_toDigits, String.toList_ofList]
      using congrArg String.toList texts
  rw [← Nat.ofDigitChars_ten_toDigits (n := m), digits, Nat.ofDigitChars_ten_toDigits]

namespace Naming

/-- A fresh name is not handed out before. -/
theorem fresh_not_mem (naming : Naming) (base : String) : (naming.fresh base).1 ∉ naming.used := by
  unfold fresh
  by_cases occupied : base ∈ naming.used
  · simp only [occupied, if_true]
    exact (freeNumber_least 1 fun m n => numbered_injective (base ++ "_") m n).2.1
  · simpa only [occupied, if_false] using occupied

/-- Handing out a fresh name adds it to the used ones and nothing else. -/
@[simp]
theorem mem_used_fresh {naming : Naming} {base name : String}
    : name ∈ (naming.fresh base).2.used ↔ name = (naming.fresh base).1 ∨ name ∈ naming.used :=
  NameSet.mem_insert

end Naming

/-- What a name is asked for: a variable with a base for its id, or a subquery. -/
inductive NameRequest where
  | fresh (base : String)
  | subquery

namespace Naming

/-- Hands out the name for a request. -/
def answer (naming : Naming) : NameRequest → String × Naming
  | .fresh base => naming.fresh base
  | .subquery => naming.freshSubquery

/-- Hands out the names for requests in order. -/
def answerAll (naming : Naming) : List NameRequest → List String × Naming
  | [] => ([], naming)
  | request :: rest =>
      let (name, next) := naming.answer request
      let (names, last) := next.answerAll rest
      (name :: names, last)

end Naming

/-- The least number from a start on whose candidate is not handed out. -/
structure LeastFree (handedOut : List String) (candidate : Nat → String) (start number : Nat)
    : Prop where
  bound : start ≤ number
  free : candidate number ∉ handedOut
  least : ∀ k, start ≤ k → k < number → candidate k ∈ handedOut

/-- The name that a request has to get when others are handed out: for a variable the base, or the
base with the least number that makes it new; for a subquery `with_` with the least such number.
-/
def NameRequest.Gets (handedOut : List String) : NameRequest → String → Prop
  | .fresh base, name =>
      if base ∈ handedOut then
        ∃ n,
          name = base ++ "_" ++ toString n
          ∧ LeastFree handedOut (fun n => base ++ "_" ++ toString n) 1 n
      else name = base
  | .subquery, name =>
      ∃ n, name = "with_" ++ toString n ∧ LeastFree handedOut (fun n => "with_" ++ toString n) 0 n

/-- A name that a request has to get is new. -/
theorem NameRequest.Gets.new {handedOut : List String} {request : NameRequest} {name : String}
    (gets : request.Gets handedOut name)
    : name ∉ handedOut := by
  cases request with
  | fresh base =>
      by_cases taken : base ∈ handedOut
      · simp only [Gets, taken, if_true] at gets
        obtain ⟨n, rfl, least⟩ := gets
        exact least.free
      · simp only [Gets, taken, if_false] at gets
        exact gets ▸ taken
  | subquery =>
      obtain ⟨n, rfl, least⟩ := gets
      exact least.free

namespace Naming

/-- The names that are used are those that were handed out, and among them are those of subqueries
with any number before the next one.
-/
structure Tracks (naming : Naming) (handedOut : List String) : Prop where
  used : ∀ name, name ∈ naming.used ↔ name ∈ handedOut
  passed : ∀ k < naming.nextSubquery, "with_" ++ toString k ∈ handedOut

theorem tracks_initial : initial.Tracks [] :=
  ⟨fun name => by simp [initial], fun _ none => absurd none (Nat.not_lt_zero _)⟩

variable {naming : Naming} {handedOut : List String}

/-- A variable gets the name that it has to get. -/
theorem Tracks.fresh (tracks : naming.Tracks handedOut) (base : String)
    : (NameRequest.fresh base).Gets handedOut (naming.fresh base).1
      ∧ (naming.fresh base).2.Tracks (handedOut ++ [(naming.fresh base).1]) := by
  refine ⟨?_, fun name => ?_, fun k below => List.mem_append_left _ (tracks.passed k below)⟩
  · simp only [NameRequest.Gets, Naming.fresh, tracks.used]
    split
    · obtain ⟨bound, free, least⟩ := @freeNumber_least naming.used
        (fun n => base ++ "_" ++ toString n) 1 fun m n => numbered_injective (base ++ "_") m n
      exact ⟨_, rfl, bound, mt (tracks.used _).mpr free,
        fun k above below => (tracks.used _).mp (least k above below)⟩
    · rfl
  · rw [mem_used_fresh, tracks.used, List.mem_append, List.mem_singleton, or_comm]

/-- A subquery gets the name that it has to get: all smaller numbers are passed over or used. -/
theorem Tracks.freshSubquery (tracks : naming.Tracks handedOut)
    : NameRequest.subquery.Gets handedOut naming.freshSubquery.1
      ∧ naming.freshSubquery.2.Tracks (handedOut ++ [naming.freshSubquery.1]) := by
  obtain ⟨bound, free, least⟩ := @freeNumber_least naming.used
    (fun n => "with_" ++ toString n) naming.nextSubquery fun m n => numbered_injective "with_" m n
  have before {k : Nat} (below : k < freeNumber naming.used (fun n => "with_" ++ toString n)
        naming.nextSubquery)
      : "with_" ++ toString k ∈ handedOut := by
    rcases Nat.lt_or_ge k naming.nextSubquery with passed | searched
    · exact tracks.passed k passed
    · exact (tracks.used _).mp (least k searched below)
  refine ⟨⟨_, rfl, Nat.zero_le _, mt (tracks.used _).mpr free, fun k _ below => before below⟩,
    fun name => ?_, fun k below => ?_⟩
  · simp [Naming.freshSubquery, NameSet.mem_insert, tracks.used, or_comm]
  · rcases Nat.lt_succ_iff_lt_or_eq.mp below with earlier | rfl
    · exact List.mem_append_left _ (before earlier)
    · exact List.mem_append_right _ (List.mem_singleton.mpr rfl)

/-- Each request gets the name that it has to get. -/
theorem Tracks.answer (tracks : naming.Tracks handedOut) (request : NameRequest)
    : request.Gets handedOut (naming.answer request).1
      ∧ (naming.answer request).2.Tracks (handedOut ++ [(naming.answer request).1]) := by
  cases request with
  | fresh base => exact tracks.fresh base
  | subquery => exact tracks.freshSubquery

/-- Each request gets one name, by induction over the requests. -/
theorem length_answerAll (naming : Naming) (requests : List NameRequest)
    : (naming.answerAll requests).1.length = requests.length := by
  induction requests generalizing naming with
  | nil => rfl
  | cons request rest ih => exact congrArg (· + 1) (ih _)

/-- Requests in a row get names that differ from each other and from those handed out before, by
induction over the requests.
-/
theorem Tracks.answerAll (tracks : naming.Tracks handedOut) (distinct : handedOut.Nodup)
    (requests : List NameRequest)
    : (naming.answerAll requests).2.Tracks (handedOut ++ (naming.answerAll requests).1)
      ∧ (handedOut ++ (naming.answerAll requests).1).Nodup := by
  induction requests generalizing naming handedOut with
  | nil =>
      rw [Naming.answerAll, List.append_nil]
      exact ⟨tracks, distinct⟩
  | cons request rest ih =>
      obtain ⟨gets, next⟩ := tracks.answer request
      have more : (handedOut ++ [(naming.answer request).1]).Nodup := by
        refine List.nodup_append.mpr ⟨distinct, by simp, ?_⟩
        intro name old other new same
        exact gets.new (List.mem_singleton.mp new ▸ same ▸ old)
      have later := ih next more
      rwa [List.append_assoc, List.singleton_append] at later

/-- Each of them gets the name that it has to get after those before it, by induction over the
requests.
-/
theorem Tracks.gets (tracks : naming.Tracks handedOut) {requests : List NameRequest} {index : Nat}
    {request : NameRequest} (found : requests[index]? = some request)
    : ∃ name,
        (naming.answerAll requests).1[index]? = some name
        ∧ request.Gets (handedOut ++ (naming.answerAll requests).1.take index) name := by
  induction requests generalizing naming handedOut index with
  | nil => cases found
  | cons first rest ih =>
      obtain ⟨gets, next⟩ := tracks.answer first
      cases index with
      | zero =>
          obtain rfl := Option.some.inj found
          refine ⟨_, rfl, ?_⟩
          rwa [List.take_zero, List.append_nil]
      | succ index =>
          obtain ⟨name, at', gets⟩ := ih next found
          refine ⟨name, at', ?_⟩
          rwa [List.append_assoc, List.singleton_append] at gets

end Naming

end CypherSql.Plan
