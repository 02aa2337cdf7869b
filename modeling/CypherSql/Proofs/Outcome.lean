import CypherSql.Plan.Error
import Mathlib.Data.List.Forall2

/-! Outcomes of lowering steps that never report a broken invariant. A step is specified by what
holds of its result; every failure it may end in is one that the user has to act on.
-/

namespace CypherSql.Plan

/-- Two computations in a row succeed exactly if both do. -/
theorem bind_eq_ok {ε α β : Type} {first : Except ε α} {next : α → Except ε β} {result : β}
    : first >>= next = .ok result ↔ ∃ value, first = .ok value ∧ next value = .ok result := by
  cases first with
  | error error =>
      constructor
      · intro impossible
        cases impossible
      · rintro ⟨_, impossible, _⟩
        cases impossible
  | ok value =>
      constructor
      · intro succeeded
        exact ⟨value, rfl, succeeded⟩
      · rintro ⟨_, same, succeeded⟩
        exact Except.ok.inj same ▸ succeeded

/-- Another wording of errors changes no result. -/
theorem mapError_eq_ok {ε ε' α : Type} {f : ε → ε'} {result : Except ε α} {value : α}
    : result.mapError f = .ok value ↔ result = .ok value := by
  cases result <;> simp [Except.mapError]

/-- A way to say what holds of the results of computations: it holds of what is returned at once,
carries over from one computation to the next, and two such facts hold together.
-/
structure Modality (m : Type → Type) [Monad m] where
  Holds : {α : Type} → (α → Prop) → m α → Prop
  pure : ∀ {α : Type} {post : α → Prop} {value : α}, post value → Holds post (Pure.pure value)
  bind
    : ∀ {α β : Type} {post : α → Prop} {last : β → Prop} {first : m α} {next : α → m β},
        Holds post first → (∀ value, post value → Holds last (next value))
          → Holds last (first >>= next)
  and
    : ∀ {α : Type} {post other : α → Prop} {result : m α},
        Holds post result → Holds other result
          → Holds (fun value => post value ∧ other value) result

namespace Modality

variable {m : Type → Type} [Monad m] [LawfulMonad m] {α β : Type}

/-- Computations without effects have the properties of their results. -/
def ofId : Modality Id where
  Holds := fun post result => post result.run
  pure := id
  bind := fun first second => second _ first
  and := And.intro

/-- Results that are there have a property. -/
def ofOk {ε : Type} : Modality (Except ε) where
  Holds := fun post result => ∀ value, result = .ok value → post value
  pure := by
    rintro α post value holds _ ⟨⟩
    exact holds
  bind := by
    intro α β post last first next holds each result succeeded
    cases first with
    | ok value => exact each value (holds value rfl) result succeeded
    | error error => cases succeeded
  and := fun left right value succeeded => ⟨left value succeeded, right value succeeded⟩

theorem ofOk_any {ε : Type} (result : Except ε α) : ofOk.Holds (fun _ => True) result :=
  fun _ _ => trivial

/-- A failure has no result of which anything might not hold. -/
theorem ofOk_error {ε : Type} {post : α → Prop} {error : ε} : ofOk.Holds post (.error error) := by
  rintro _ ⟨⟩

/-- What is known of the result may be weakened. -/
theorem mono (modality : Modality m) {result : m α} {post weaker : α → Prop}
    (strong : modality.Holds post result) (weaken : ∀ value, post value → weaker value)
    : modality.Holds weaker result := by
  rw [← bind_pure result]
  exact modality.bind strong fun value holds => modality.pure (weaken value holds)

/-- What holds of the result for each item of a list holds of all results, by induction. -/
theorem mapM (modality : Modality m) {f : α → m β} {related : α → β → Prop} {items : List α}
    (each : ∀ item ∈ items, modality.Holds (related item) (f item))
    : modality.Holds (List.Forall₂ related items) (items.mapM f) := by
  induction items with
  | nil =>
      rw [List.mapM_nil]
      exact modality.pure .nil
  | cons item rest ih =>
      rw [List.mapM_cons]
      refine modality.bind (each item (by simp)) fun result first => ?_
      refine modality.bind (ih fun item member => each item (by simp [member]))
        fun results others => ?_
      exact modality.pure (.cons first others)

/-- What holds of every result that an item of a list may lead to holds of all results. -/
theorem mapM_all (modality : Modality m) {f : α → m β} {holds : β → Prop} {items : List α}
    (each : ∀ item ∈ items, modality.Holds holds (f item))
    : modality.Holds (fun results => ∀ result ∈ results, holds result) (items.mapM f) := by
  refine modality.mono (modality.mapM each) fun results related => ?_
  induction related with
  | nil => simp
  | cons first _ ih =>
      exact List.forall_mem_cons.mpr ⟨first, ih fun item member => each item (by simp [member])⟩

/-- Where a computation succeeds over a list, it succeeds for each item. -/
theorem forall₂_of_mapM_eq_ok {ε : Type} {f : α → Except ε β} {items : List α} {results : List β}
    (succeeded : items.mapM f = .ok results)
    : List.Forall₂ (fun item result => f item = .ok result) items results :=
  ofOk.mapM (fun _ _ _ one => one) results succeeded

/-- The same for a value that may be there. -/
theorem optionMapM (modality : Modality m) {f : α → m β} {holds : β → Prop} (value : Option α)
    (each : ∀ item, value = some item → modality.Holds holds (f item))
    : modality.Holds (fun result => ∀ changed, result = some changed → holds changed)
      (value.mapM f) := by
  cases value with
  | none => exact modality.pure nofun
  | some item =>
      rw [Option.mapM_some, map_eq_pure_bind]
      refine modality.bind (each item rfl) fun changed holds => modality.pure ?_
      rintro _ ⟨⟩
      exact holds

end Modality

/-- A step ends with a value of some kind, or with an error that is no broken invariant. -/
def Safely {α : Type} (post : α → Prop) : Except LoweringError α → Prop
  | .ok value => post value
  | .error error => error.category ≠ .internalInvariant

namespace Safely

variable {α β : Type} {post : α → Prop}

@[simp]
theorem ok_iff {value : α} : Safely post (.ok value) ↔ post value :=
  Iff.rfl

@[simp]
theorem pure_iff {value : α} : Safely post (pure value) ↔ post value :=
  Iff.rfl

/-- A failure is safe where its cause is no breach. -/
@[simp]
theorem fail_iff {step : Step} {cause : Cause}
    : Safely post (fail step cause) ↔ cause.category ≠ .internalInvariant :=
  Iff.rfl

/-- A result that is there is handed to the next step. -/
@[simp]
theorem ok_bind {value : α} {next : α → Except LoweringError β}
    : (Except.ok value >>= next) = next value :=
  rfl

/-- A safe step may be followed by one that is safe on each of its results. -/
theorem bind {result : Except LoweringError α} {next : α → Except LoweringError β}
    {last : β → Prop} (first : Safely post result)
    (second : ∀ value, post value → Safely last (next value))
    : Safely last (result >>= next) := by
  cases result with
  | ok value => exact second value first
  | error error => exact first

/-- What is known of the result may be weakened. -/
theorem mono {result : Except LoweringError α} {weaker : α → Prop} (strong : Safely post result)
    (weaken : ∀ value, post value → weaker value)
    : Safely weaker result := by
  cases result with
  | ok value => exact weaken value strong
  | error error => exact strong

/-- Two facts about the result hold together. -/
theorem and {result : Except LoweringError α} {other : α → Prop} (left : Safely post result)
    (right : Safely other result)
    : Safely (fun value => post value ∧ other value) result := by
  cases result with
  | ok value => exact ⟨left, right⟩
  | error error => exact left

/-- A result that is there satisfies its specification. -/
theorem of_ok {result : Except LoweringError α} {value : α} (safe : Safely post result)
    (succeeded : result = .ok value)
    : post value := by
  subst succeeded
  exact safe

/-- Safety is a way to say what holds of results. -/
def modality : Modality (Except LoweringError) where
  Holds := Safely
  pure := id
  bind := bind
  and := Safely.and

/-- A safe step over each item of a list is safe over the list. -/
theorem mapM {f : α → Except LoweringError β} {related : α → β → Prop} {items : List α}
    (each : ∀ item ∈ items, Safely (related item) (f item))
    : Safely (fun results => List.Forall₂ related items results) (items.mapM f) :=
  modality.mapM each

/-- What a safe step makes of each item holds of all results. -/
theorem mapM_all {f : α → Except LoweringError β} {holds : β → Prop} {items : List α}
    (each : ∀ item ∈ items, Safely holds (f item))
    : Safely (fun results => ∀ result ∈ results, holds result) (items.mapM f) :=
  modality.mapM_all each

/-- A safe step over a value that may be there. -/
theorem optionMapM {f : α → Except LoweringError β} {holds : β → Prop}
    (each : ∀ value, Safely holds (f value)) (value : Option α)
    : Safely (fun result => ∀ changed, result = some changed → holds changed) (value.mapM f) :=
  modality.optionMapM value fun item _ => each item

/-- A step that keeps an invariant keeps it over a list, by induction. -/
theorem foldlM {f : α → β → Except LoweringError α} {invariant : α → Prop} (items : List β)
    {start : α} (holds : invariant start)
    (step : ∀ state, invariant state → ∀ item ∈ items, Safely invariant (f state item))
    : Safely invariant (items.foldlM f start) := by
  induction items generalizing start with
  | nil => exact holds
  | cons item rest ih =>
      rw [List.foldlM_cons]
      refine (step start holds item (by simp)).bind fun state kept => ?_
      exact ih kept fun state holds item member => step state holds item (by simp [member])

end Safely

/-- Lists that are related through a third one are related. -/
theorem forall₂_comp {α β γ : Type} {first : α → β → Prop} {second : β → γ → Prop}
    {both : α → γ → Prop} {left : List α} {middle : List β} {right : List γ}
    (one : List.Forall₂ first left middle) (two : List.Forall₂ second middle right)
    (compose : ∀ a b c, first a b → second b c → both a c)
    : List.Forall₂ both left right := by
  induction one generalizing right with
  | nil =>
      cases two
      exact .nil
  | cons head _ ih =>
      cases two with
      | cons head' tail => exact .cons (compose _ _ _ head head') (ih tail)

/-- Related lists agree on what related things agree on. -/
theorem map_eq_of_forall₂ {α β γ : Type} {related : α → β → Prop} {f : α → γ} {g : β → γ}
    {left : List α} {right : List β} (all : List.Forall₂ related left right)
    (same : ∀ a b, related a b → g b = f a)
    : right.map g = left.map f := by
  induction all with
  | nil => rfl
  | cons first _ ih => rw [List.map_cons, List.map_cons, same _ _ first, ih]

/-- What stands at a position of one list is related to what stands there in the other. -/
theorem forall₂_getElem?_left {α β : Type} {related : α → β → Prop} {left : List α} {right : List β}
    (all : List.Forall₂ related left right) {index : Nat} {item : α}
    (found : left[index]? = some item)
    : ∃ other, right[index]? = some other ∧ related item other := by
  induction all generalizing index with
  | nil => simp at found
  | cons first _ ih =>
      cases index with
      | zero => exact ⟨_, rfl, Option.some.inj found ▸ first⟩
      | succ index => exact ih (by simpa using found)

/-- The same from the second list to the first. -/
theorem forall₂_getElem?_right {α β : Type} {related : α → β → Prop} {left : List α}
    {right : List β} (all : List.Forall₂ related left right) {index : Nat} {item : β}
    (found : right[index]? = some item)
    : ∃ other, left[index]? = some other ∧ related other item :=
  forall₂_getElem?_left all.flip found

/-- A member of the second list is related to one of the first. -/
theorem exists_mem_of_forall₂ {α β : Type} {related : α → β → Prop} {left : List α} {right : List β}
    (all : List.Forall₂ related left right) {item : β} (member : item ∈ right)
    : ∃ other ∈ left, related other item := by
  obtain ⟨index, found⟩ := List.mem_iff_getElem?.mp member
  obtain ⟨other, present, holds⟩ := forall₂_getElem?_right all found
  exact ⟨other, List.mem_of_getElem? present, holds⟩

end CypherSql.Plan
