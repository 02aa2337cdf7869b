import CypherSql.Plan.Error
import CypherSql.Plan.Naming
import CypherSql.Proofs.Names
import Mathlib.Data.List.Forall2
import Mathlib.Data.List.Nodup
import Mathlib.Data.List.Perm.Basic
import Mathlib.Data.Option.Basic
import Mathlib.Logic.Equiv.Defs

/-! Computations whose results are related, and renamings. What relates the results of single steps
relates those of steps in a row and of steps over the items of lists. A renaming exchanges the names
of a query and the ids that are made from them; it is told what becomes of sets of names, of maps
from names and of the supply of new names.
-/

namespace CypherSql.Plan

/-- A value is what a function makes of another one. -/
abbrev ImageOf {α β : Type} (f : α → β) (value : α) (image : β) : Prop :=
  image = f value

/-- Values that may be there are both missing, or are there and related. -/
theorem rel_cases {α β : Type} {related : α → β → Prop} {value : Option α} {other : Option β}
    (rel : Option.Rel related value other)
    : value = none ∧ other = none
      ∨ ∃ found image, value = some found ∧ other = some image ∧ related found image := by
  cases rel with
  | none => exact .inl ⟨rfl, rfl⟩
  | some holds => exact .inr ⟨_, _, rfl, rfl, holds⟩

theorem rel_map {α β γ δ : Type} {related : α → β → Prop} {later : γ → δ → Prop} {value : Option α}
    {other : Option β} {f : α → γ} {g : β → δ} (rel : Option.Rel related value other)
    (each : ∀ found image, related found image → later (f found) (g image))
    : Option.Rel later (value.map f) (other.map g) := by
  cases rel with
  | none => exact .none
  | some holds => exact .some (each _ _ holds)

theorem rel_of_isSome {α β : Type} {value : Option α} {other : Option β}
    (same : other.isSome = value.isSome)
    : Option.Rel (fun _ _ => True) value other := by
  cases value with
  | none =>
      cases other with
      | none => exact .none
      | some image => cases same
  | some found =>
      cases other with
      | none => cases same
      | some image => exact .some trivial

/-- Two pairs are related part by part. -/
structure Both {α β σ τ : Type} (first : α → β → Prop) (second : σ → τ → Prop) (pair : α × σ)
    (other : β × τ)
    : Prop where
  fst : first pair.1 other.1
  snd : second pair.2 other.2

/-- A way to say how the results of two computations are related: values that are returned at once
are related as they are, and a relation carries over from one computation to the next.
-/
structure Relator (m : Type → Type) [Monad m] where
  Rel : {α β : Type} → (α → β → Prop) → m α → m β → Prop
  pure
    : ∀ {α β : Type} {related : α → β → Prop} {value : α} {other : β},
        related value other → Rel related (Pure.pure value) (Pure.pure other)
  bind
    : ∀ {α β γ δ : Type} {related : α → β → Prop} {last : γ → δ → Prop} {first : m α} {other : m β}
        {next : α → m γ} {nextOther : β → m δ},
        Rel related first other
        → (∀ value image, related value image → Rel last (next value) (nextOther image))
        → Rel last (first >>= next) (other >>= nextOther)

namespace Relator

variable {m : Type → Type} [Monad m] {α β γ δ : Type}

/-- A computation goes on in the same way after each of two related ones that are images. -/
theorem bind_image (relator : Relator m) {f : α → β} {last : γ → δ → Prop}
    {first : m α} {other : m β}
    {next : α → m γ} {nextOther : β → m δ} (same : relator.Rel (ImageOf f) first other)
    (each : ∀ value, relator.Rel last (next value) (nextOther (f value)))
    : relator.Rel last (first >>= next) (other >>= nextOther) := by
  refine relator.bind same ?_
  rintro value _ rfl
  exact each value

variable [LawfulMonad m]

/-- Computations over the items of a list and over their images have images as results, by induction
over the items.
-/
theorem mapM (relator : Relator m) {f : α → m γ} {g : β → m δ} (rename : α → β) (image : γ → δ)
    {items : List α}
    (each : ∀ item ∈ items, relator.Rel (ImageOf image) (f item) (g (rename item)))
    : relator.Rel (ImageOf (List.map image)) (items.mapM f) ((items.map rename).mapM g) := by
  induction items with
  | nil =>
      rw [List.map_nil, List.mapM_nil, List.mapM_nil]
      exact relator.pure rfl
  | cons item rest ih =>
      rw [List.map_cons, List.mapM_cons, List.mapM_cons]
      refine relator.bind_image (each item (by simp)) fun first => ?_
      refine relator.bind_image (ih fun item member => each item (by simp [member]))
        fun others => ?_
      exact relator.pure rfl

/-- The same for a value that may be there. -/
theorem optionMapM (relator : Relator m) {f : α → m γ} {g : β → m δ} (rename : α → β)
    (image : γ → δ)
    (value : Option α) (each : ∀ item, relator.Rel (ImageOf image) (f item) (g (rename item)))
    : relator.Rel (ImageOf (Option.map image)) (value.mapM f) ((value.map rename).mapM g) := by
  cases value with
  | none => exact relator.pure rfl
  | some item =>
      rw [Option.map_some, Option.mapM_some, Option.mapM_some, map_eq_pure_bind, map_eq_pure_bind]
      exact relator.bind_image (each item) fun result => relator.pure rfl

/-- Computations without effects are related as their results are. -/
def ofId : Relator Id where
  Rel := fun related first other => related first.run other.run
  pure := id
  bind := fun first second => second _ _ first

end Relator

/-- Both computations succeed, with related results, or both fail, in one category. -/
inductive SameOutcome {α β : Type} (related : α → β → Prop)
    : Except LoweringError α → Except LoweringError β → Prop where
  | ok {value : α} {other : β} (holds : related value other)
    : SameOutcome related (.ok value) (.ok other)
  | error {error other : LoweringError} (same : other.category = error.category)
    : SameOutcome related (.error error) (.error other)

namespace SameOutcome

variable {α β γ δ : Type} {related : α → β → Prop}

theorem bind {last : γ → δ → Prop} {first : Except LoweringError α} {other : Except LoweringError β}
    {next : α → Except LoweringError γ} {nextOther : β → Except LoweringError δ}
    (same : SameOutcome related first other)
    (each : ∀ value image, related value image → SameOutcome last (next value) (nextOther image))
    : SameOutcome last (first >>= next) (other >>= nextOther) := by
  cases same with
  | ok holds => exact each _ _ holds
  | error same => exact .error same

/-- Outcomes are related where their results are. -/
def relator : Relator (Except LoweringError) where
  Rel := SameOutcome
  pure := .ok
  bind := bind

theorem bind_image {f : α → β} {last : γ → δ → Prop} {first : Except LoweringError α}
    {other : Except LoweringError β} {next : α → Except LoweringError γ}
    {nextOther : β → Except LoweringError δ} (same : SameOutcome (ImageOf f) first other)
    (each : ∀ value, SameOutcome last (next value) (nextOther (f value)))
    : SameOutcome last (first >>= next) (other >>= nextOther) :=
  relator.bind_image same each

/-- Causes of one category fail alike. -/
theorem fail {step : Step} {cause other : Cause} (same : other.category = cause.category)
    : SameOutcome related (Plan.fail step cause) (Plan.fail step other) :=
  .error same

/-- Steps over the items of a list and over their images lead from related states to related ones,
by induction over the items.
-/
theorem foldlM {f : α → γ → Except LoweringError α} {g : β → δ → Except LoweringError β}
    (rename : γ → δ) (items : List γ) {start : α} {startOther : β}
    (first : related start startOther)
    (step
      : ∀ state other item,
          related state other → SameOutcome related (f state item) (g other (rename item)))
    : SameOutcome related (items.foldlM f start) ((items.map rename).foldlM g startOther) := by
  induction items generalizing start startOther with
  | nil => exact .ok first
  | cons item rest ih =>
      rw [List.map_cons, List.foldlM_cons, List.foldlM_cons]
      exact (step _ _ item first).bind fun state other holds => ih holds

/-- Computations over a state are related where related states lead to related results and states.
-/
def stateRelator {σ : Type} (states : σ → σ → Prop)
    : Relator (StateT σ (Except LoweringError)) where
  Rel := fun related first other =>
    ∀ state image,
      states state image → SameOutcome (Both related states) (first.run state) (other.run image)
  pure := fun holds _ _ same => .ok ⟨holds, same⟩
  bind := by
    intro α β γ δ related last first other next nextOther before after state image same
    rw [StateT.run_bind, StateT.run_bind]
    refine (before state image same).bind ?_
    rintro ⟨value, later⟩ ⟨imageValue, imageLater⟩ ⟨holds, kept⟩
    exact after value imageValue holds later imageLater kept

end SameOutcome

end CypherSql.Plan

namespace CypherSql

open Plan (rel_cases rel_map)

/-- A permutation of names that takes numbered names to names numbered alike, and that leaves the
names which lowering makes up by itself.
-/
structure Renaming where
  names : Equiv.Perm String
  numbered : ∀ (name : String) (n : Nat),
    names (name ++ "_" ++ toString n) = names name ++ "_" ++ toString n
  node : names "anon_n" = "anon_n"
  relationship : names "anon_r" = "anon_r"
  column : names "col" = "col"
  subquery : names "with" = "with"

namespace Renaming

instance : CoeFun Renaming fun _ => String → String := ⟨fun ρ => ρ.names⟩

variable (ρ : Renaming)

@[simp]
theorem eq_iff {name other : String} : ρ name = ρ other ↔ name = other :=
  ρ.names.apply_eq_iff_eq

theorem injective : Function.Injective ρ :=
  ρ.names.injective

/-- Every name is the new one of some name. -/
theorem exists_eq (name : String) : ∃ old, ρ old = name :=
  ⟨ρ.names.symm name, ρ.names.apply_symm_apply name⟩

theorem subqueryNumbered (n : Nat) : ρ ("with_" ++ toString n) = "with_" ++ toString n := by
  have split : "with_" ++ toString n = "with" ++ "_" ++ toString n := rfl
  rw [split, ρ.numbered, ρ.subquery]

end Renaming

namespace NameSet

variable {ρ : Renaming} {set other left right : NameSet}

/-- The members of a set are the new names of those of another one. -/
def Renamed (ρ : Renaming) (set other : NameSet) : Prop :=
  ∀ name, ρ name ∈ other ↔ name ∈ set

namespace Renamed

theorem empty : Renamed ρ ∅ ∅ := by
  intro name
  simp

theorem insert (renamed : set.Renamed ρ other) (name : String)
    : (set.insert name).Renamed ρ (other.insert (ρ name)) := by
  intro x
  simp [renamed x]

theorem erase (renamed : set.Renamed ρ other) (name : String)
    : (set.erase name).Renamed ρ (other.erase (ρ name)) := by
  intro x
  simp [renamed x]

/-- Erasing several names, by induction over them. -/
theorem foldl_erase (renamed : set.Renamed ρ other) (names : List String)
    : (names.foldl NameSet.erase set).Renamed ρ ((names.map ρ).foldl NameSet.erase other) := by
  induction names generalizing set other with
  | nil => exact renamed
  | cons name rest ih => exact ih (renamed.erase name)

theorem insertAll (renamed : set.Renamed ρ other) (names : List String)
    : (set.insertAll names).Renamed ρ (other.insertAll (names.map ρ)) := by
  intro x
  simp [renamed x]

theorem ofList (names : List String) : (ofList names).Renamed ρ (.ofList (names.map ρ)) :=
  empty.insertAll names

theorem union (renamed : set.Renamed ρ other) (others : left.Renamed ρ right)
    : (set.union left).Renamed ρ (other.union right) := by
  intro x
  simp [renamed x, others x]

/-- The names are the new ones, but may stand in another order. -/
theorem perm (renamed : set.Renamed ρ other) : other.names.Perm (set.names.map ρ) := by
  refine (List.perm_ext_iff_of_nodup other.names_nodup
    (set.names_nodup.map (f := ρ) ρ.injective)).mpr ?_
  intro name
  obtain ⟨old, rfl⟩ := ρ.exists_eq name
  simp [renamed old]

theorem length (renamed : set.Renamed ρ other) : other.names.length = set.names.length := by
  simpa using renamed.perm.length_eq

/-- Properties that agree on names and on their new ones hold of all members alike. -/
theorem all (renamed : set.Renamed ρ other) {p q : String → Bool}
    (same : ∀ name, q (ρ name) = p name)
    : other.names.all q = set.names.all p := by
  rw [renamed.perm.all_eq, List.all_map]
  exact congrArg set.names.all (funext same)

/-- Searches that agree on names and on their new ones find something in both sets or in none. -/
theorem findSome?_isSome (renamed : set.Renamed ρ other) {α β : Type} {f : String → Option α}
    {g : String → Option β} (same : ∀ name, (g (ρ name)).isSome = (f name).isSome)
    : (other.names.findSome? g).isSome = (set.names.findSome? f).isSome := by
  rw [Bool.eq_iff_iff, List.isSome_findSome?, List.isSome_findSome?,
    renamed.perm.any_eq, List.any_map]
  exact iff_of_eq (congrArg (set.names.any · = true) (funext same))

end Renamed

/-- Sets that grow by related parts stay related, by induction over the parts. -/
theorem Renamed.foldl_union {α : Type} {rename : α → α} {part partOther : α → NameSet}
    (renamed : set.Renamed ρ other) (items : List α)
    (each : ∀ item, (part item).Renamed ρ (partOther (rename item)))
    : (items.foldl (fun seen item => seen.union (part item)) set).Renamed ρ
        ((items.map rename).foldl (fun seen item => seen.union (partOther item)) other) := by
  induction items generalizing set other with
  | nil => exact renamed
  | cons item rest ih => exact ih (renamed.union (each item))

end NameSet

namespace NameMap

variable {ρ : Renaming} {β γ : Type} {related : β → γ → Prop} {map : NameMap β}
  {other : NameMap γ}

/-- The values of names in a map are related to those of the new names in another one. -/
def Renamed (ρ : Renaming) (related : β → γ → Prop) (map : NameMap β) (other : NameMap γ)
    : Prop :=
  ∀ name, Option.Rel related (map.get? name) (other.get? (ρ name))

namespace Renamed

theorem empty : Renamed ρ related ∅ ∅ :=
  fun _ => .none

theorem insert (renamed : map.Renamed ρ related other) (name : String) {value : β} {new : γ}
    (holds : related value new)
    : (map.insert name value).Renamed ρ related (other.insert (ρ name) new) := by
  intro x
  simp only [get?_insert, ρ.eq_iff]
  split
  · exact .some holds
  · exact renamed x

theorem erase (renamed : map.Renamed ρ related other) (name : String)
    : (map.erase name).Renamed ρ related (other.erase (ρ name)) := by
  intro x
  simp only [get?_erase, ρ.eq_iff]
  split
  · exact .none
  · exact renamed x

theorem mapValues (renamed : map.Renamed ρ related other) {f : β → β} {g : γ → γ}
    (each : ∀ value new, related value new → related (f value) (g new))
    : (map.mapValues f).Renamed ρ related (other.mapValues g) := by
  intro x
  simp only [get?_mapValues]
  exact rel_map (renamed x) each

/-- The keys are the new names, but may stand in another order. -/
theorem perm (renamed : map.Renamed ρ related other) : other.keys.Perm (map.keys.map ρ) := by
  refine (List.perm_ext_iff_of_nodup other.keys_nodup (map.keys_nodup.map ρ.injective)).mpr ?_
  intro name
  obtain ⟨old, rfl⟩ := ρ.exists_eq name
  rw [List.mem_map_of_injective ρ.injective, mem_keys, mem_keys]
  rcases rel_cases (renamed old) with ⟨missing, gone⟩ | ⟨_, _, found, new, -⟩
  · simp [missing, gone]
  · simp [found, new]

theorem size (renamed : map.Renamed ρ related other) : other.size = map.size := by
  simpa [keys, NameMap.size] using renamed.perm.length_eq

end Renamed

end NameMap

namespace Plan

/-- Candidates that are taken alike have the same first free number, by induction over the steps. -/
theorem firstFree_eq {taken other : NameSet} {candidate candidateOther : Nat → String}
    (same : ∀ n, candidateOther n ∈ other ↔ candidate n ∈ taken) (steps n : Nat)
    : firstFree other candidateOther steps n = firstFree taken candidate steps n := by
  induction steps generalizing n with
  | zero => rfl
  | succ steps ih => simp only [firstFree, same, ih]

theorem freeNumber_eq {ρ : Renaming} {taken other : NameSet}
    {candidate candidateOther : Nat → String} (renamed : taken.Renamed ρ other)
    (same : ∀ n, candidateOther n = ρ (candidate n)) (start : Nat)
    : freeNumber other candidateOther start = freeNumber taken candidate start := by
  rw [freeNumber, freeNumber, renamed.length]
  exact firstFree_eq (fun n => by rw [same, renamed]) _ _

namespace Naming

variable {ρ : Renaming} {naming other : Naming}

/-- What is handed out so far are the new names of what is handed out elsewhere. -/
structure Renamed (ρ : Renaming) (naming other : Naming) : Prop where
  used : naming.used.Renamed ρ other.used
  nextSubquery : other.nextSubquery = naming.nextSubquery

theorem renamed_initial : Renamed ρ initial initial :=
  ⟨.empty, rfl⟩

/-- The new name of a base leads to the new name of what the base leads to. -/
theorem Renamed.fresh_name (renamed : naming.Renamed ρ other) (base : String)
    : (other.fresh (ρ base)).1 = ρ (naming.fresh base).1 := by
  have numbered (n : Nat)
      : ρ base ++ "_" ++ toString n = ρ (base ++ "_" ++ toString n) :=
    (ρ.numbered base n).symm
  simp only [fresh, renamed.used base, freeNumber_eq renamed.used numbered]
  split
  · exact numbered _
  · rfl

theorem Renamed.fresh (renamed : naming.Renamed ρ other) (base : String)
    : (naming.fresh base).2.Renamed ρ (other.fresh (ρ base)).2 := by
  have used := renamed.used.insert (naming.fresh base).1
  rw [← renamed.fresh_name] at used
  exact ⟨used, renamed.nextSubquery⟩

/-- Subqueries get the same names. -/
theorem Renamed.freshSubquery (renamed : naming.Renamed ρ other)
    : other.freshSubquery.1 = naming.freshSubquery.1
      ∧ naming.freshSubquery.2.Renamed ρ other.freshSubquery.2 := by
  have numbered (n : Nat) : "with_" ++ toString n = ρ ("with_" ++ toString n) :=
    (ρ.subqueryNumbered n).symm
  have number := freeNumber_eq renamed.used numbered naming.nextSubquery
  simp only [Naming.freshSubquery, renamed.nextSubquery, number]
  have used := renamed.used.insert ("with_" ++ toString (freeNumber naming.used
    (fun n => "with_" ++ toString n) naming.nextSubquery))
  rw [← numbered] at used
  exact ⟨trivial, used, rfl⟩

end Naming

namespace Visible

variable (ρ : Renaming)

/-- The visible names and the ids they stand for under their new names. -/
def rename (visible : Visible) : Visible :=
  ⟨visible.entries.map fun (name, id) => (ρ name, ρ id)⟩

theorem get?_rename (visible : Visible) (name : String)
    : (visible.rename ρ).get? (ρ name) = (visible.get? name).map ρ := by
  obtain ⟨entries⟩ := visible
  simp only [get?, rename]
  induction entries with
  | nil => rfl
  | cons entry rest ih =>
      obtain ⟨other, id⟩ := entry
      simp only [List.map_cons, lookup_cons_entry, ρ.eq_iff, ih]
      split <;> rfl

theorem bindEntry_rename (name id : String) (entries : List (String × String))
    : bindEntry (ρ name) (ρ id)
          (entries.map fun (name, id) => (ρ name, ρ id))
      = (bindEntry name id entries).map fun (name, id) => (ρ name, ρ id) := by
  induction entries with
  | nil => rfl
  | cons entry rest ih =>
      obtain ⟨other, old⟩ := entry
      simp only [List.map_cons, bindEntry, ρ.eq_iff]
      split
      · rfl
      · rw [ih, List.map_cons]

theorem insert_rename (visible : Visible) (name id : String)
    : (visible.rename ρ).insert (ρ name) (ρ id)
      = (visible.insert name id).rename ρ := by
  simp only [insert, rename, bindEntry_rename]

theorem insertAll_rename (visible others : Visible)
    : (visible.rename ρ).insertAll (others.rename ρ)
      = (visible.insertAll others).rename ρ := by
  obtain ⟨entries⟩ := others
  simp only [insertAll]
  induction entries generalizing visible with
  | nil => rfl
  | cons entry rest ih =>
      have first := insert_rename ρ visible entry.1 entry.2
      have others := ih (visible.insert entry.1 entry.2)
      rw [← first] at others
      exact others

end Visible

end Plan

end CypherSql
