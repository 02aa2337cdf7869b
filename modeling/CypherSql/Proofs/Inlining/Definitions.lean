import CypherSql.Proofs.Rewriting

/-! What becomes of each variable where all projected expressions are rewritten. Every variable is
rewritten once, in a table in which some others are rewritten already.
-/

namespace CypherSql.Plan

/-- What a variable projects is rewritten, and everything else about it stays. -/
inductive Definition.Rewritten (becomes : Expr → Expr → Prop) : Definition → Definition → Prop where
  | projected {old new : Expr} {type : Option VarType} (rewritten : becomes old new)
    : Rewritten becomes (.projected old type) (.projected new type)
  | other {definition : Definition} (unprojected : definition.projection? = none)
    : Rewritten becomes definition definition

/-- The variables of a list are rewritten, each in a table that keeps what there was at the start,
and no others change.
-/
structure VarTable.Visits (keeps : VarTable → VarTable → Prop)
    (becomes : VarTable → Site → Expr → Expr → Prop) (start : VarTable) (ids : List VarId)
    (vars later : VarTable)
    : Prop where
  kept : keeps start later
  frame : ∀ id, id ∉ ids → later.get? id = vars.get? id
  visited
    : ∀ id ∈ ids,
        ∀ var,
          vars.get? id = some var
          → ∃ middle definition,
              keeps start middle
              ∧ var.definition.Rewritten (becomes middle ⟨var.scope, false⟩) definition
              ∧ later.get? id = some { var with definition }

section Visits

variable {keeps : VarTable → VarTable → Prop} {becomes : VarTable → Site → Expr → Expr → Prop}
  {start vars later : VarTable} {id : VarId}

/-- The first variable is rewritten, and then the others in a table that differs in it alone. -/
theorem VarTable.Visits.cons {middle : VarTable} {ids : List VarId}
    (visits : Visits keeps becomes start ids middle later) (new : id ∉ ids)
    (same : ∀ other, other ≠ id → middle.get? other = vars.get? other)
    (first
      : ∀ var,
          vars.get? id = some var
          → ∃ earlier definition,
              keeps start earlier
              ∧ var.definition.Rewritten (becomes earlier ⟨var.scope, false⟩) definition
              ∧ middle.get? id = some { var with definition })
    : Visits keeps becomes start (id :: ids) vars later where
  kept := visits.kept
  frame := fun other absent => by
    rw [List.mem_cons, not_or] at absent
    exact (visits.frame other absent.2).trans (same other absent.1)
  visited := fun other member var found => by
    by_cases here : other = id
    · subst here
      rw [visits.frame other new]
      exact first var found
    · have member := (List.mem_cons.mp member).resolve_left here
      exact visits.visited other member var ((same other here).trans found)

variable {m : Type → Type} [Monad m] [LawfulMonad m] (modality : Modality m)
  {f : VarTable → Site → Expr → m Expr}

/-- Replacing what a variable projects, and reading its dependencies off again, keeps something. -/
def RefreshesKeep (f : VarTable → Site → Expr → m Expr) (keeps : VarTable → VarTable → Prop)
    : Prop :=
  ∀ vars site expr,
    modality.Holds
      (fun changed => ∀ id var type,
        vars.get? id = some var
        → var.definition = .projected expr type
        → changed ≠ expr
        → keeps vars ((vars.redefine id (.projected changed type)).refresh id))
      (f vars site expr)

/-- What either of the two keeps, both do. -/
theorem RewritesKeep.refreshed {modality : Modality m} (each : RewritesKeep modality f keeps)
    (threads : Threads keeps) (refresh : ∀ vars id, keeps vars (VarTable.refresh vars id))
    : RefreshesKeep modality f keeps := by
  intro vars site expr
  refine modality.mono (each vars site expr)
    fun changed redefined id var type found projects different => ?_
  exact threads.trans _ _ _ (redefined id var type found projects different) (refresh _ id)

/-- What becomes of the variables of a list, by induction over it: those before a variable are
rewritten when it is, and those after it do not change it.
-/
theorem mapProjectionsM_visits (threads : Threads keeps) (each : RefreshesKeep modality f keeps)
    (rewrites : ∀ vars site expr, modality.Holds (becomes vars site expr) (f vars site expr))
    {ids : List VarId} (distinct : ids.Nodup) (kept : keeps start vars)
    : modality.Holds (VarTable.Visits keeps becomes start ids vars)
      (mapProjectionsM f ids vars) := by
  induction ids generalizing vars with
  | nil => exact modality.pure ⟨kept, fun _ _ => rfl, by simp⟩
  | cons id rest ih =>
      obtain ⟨new, distinct⟩ := List.nodup_cons.mp distinct
      unfold mapProjectionsM
      split
      · rename_i name other scope expr type found
        refine modality.bind (modality.and (each vars ⟨scope, false⟩ expr)
          (rewrites vars ⟨scope, false⟩ expr)) fun changed ⟨redefined, becomes⟩ => ?_
        split
        · rename_i same
          refine modality.mono (ih distinct kept) fun later visits => ?_
          refine visits.cons new (fun _ _ => rfl) fun var present => ?_
          obtain rfl := Option.some.inj (found.symm.trans present)
          exact ⟨vars, _, kept, .projected (same ▸ becomes), found⟩
        · rename_i different
          have keptNext := threads.trans _ _ _ kept (redefined id _ type found rfl different)
          refine modality.mono (ih distinct keptNext) fun later visits => ?_
          refine visits.cons new (fun other apart => ?_) fun var present => ?_
          · rw [VarTable.get?_refresh, VarTable.get?_redefine_of_get? found, if_neg apart]
          · obtain rfl := Option.some.inj (found.symm.trans present)
            refine ⟨vars, _, kept, .projected becomes, ?_⟩
            rw [VarTable.get?_refresh, VarTable.get?_redefine_of_get? found, if_pos rfl]
      · rename_i notProjected
        refine modality.mono (ih distinct kept) fun later visits => ?_
        refine visits.cons new (fun _ _ => rfl) fun var found => ?_
        refine ⟨vars, var.definition, kept, .other ?_, found⟩
        obtain ⟨name, other, scope, definition⟩ := var
        cases definition with
        | projected expr type => exact absurd found (notProjected name other scope expr type)
        | _ => rfl

/-- What becomes of the variables of a draft. -/
theorem Draft.mapExprsM_visits (threads : Threads keeps) (each : RefreshesKeep modality f keeps)
    (rewrites : ∀ vars site expr, modality.Holds (becomes vars site expr) (f vars site expr))
    (any : ∀ {α : Type} (result : m α), modality.Holds (fun _ => True) result) (draft : Draft)
    : modality.Holds
        (fun later => VarTable.Visits keeps becomes draft.vars draft.vars.ids draft.vars later.vars)
        (draft.mapExprsM f) := by
  unfold Draft.mapExprsM
  refine modality.bind (any _) fun tree _ => ?_
  refine modality.bind (mapProjectionsM_visits modality threads each rewrites
    draft.vars.vars.keys_nodup (threads.refl _)) fun vars visits => ?_
  exact modality.pure visits

/-- No variables come up where those of a table are rewritten. -/
theorem VarTable.Visits.absent (visits : Visits keeps becomes start vars.ids vars later)
    (absent : vars.get? id = none)
    : later.get? id = none := by
  rw [visits.frame id, absent]
  rw [VarTable.mem_ids, absent]
  exact Bool.false_ne_true

/-- What became of a variable of the table. -/
theorem VarTable.Visits.get? (visits : Visits keeps becomes start vars.ids vars later)
    {var : Variable} (found : vars.get? id = some var)
    : ∃ middle definition,
        keeps start middle
        ∧ var.definition.Rewritten (becomes middle ⟨var.scope, false⟩) definition
        ∧ later.get? id = some { var with definition } :=
  visits.visited id (VarTable.mem_ids.mpr (by simp [found])) var found

/-- What a variable of the rewritten table was. -/
theorem VarTable.Visits.of_get? (visits : Visits keeps becomes start vars.ids vars later)
    {new : Variable} (found : later.get? id = some new)
    : ∃ var middle,
        vars.get? id = some var
        ∧ keeps start middle
        ∧ var.definition.Rewritten (becomes middle ⟨var.scope, false⟩) new.definition
        ∧ new.scope = var.scope := by
  cases present : vars.get? id with
  | none => simp [visits.absent present] at found
  | some var =>
      obtain ⟨middle, definition, kept, rewritten, found'⟩ := visits.get? present
      obtain rfl := Option.some.inj (found.symm.trans found')
      exact ⟨var, middle, rfl, kept, rewritten, rfl⟩

end Visits

section Steps

variable {m : Type → Type} [Monad m] {f : VarTable → Site → Expr → m Expr}
  {vars : VarTable} {id : VarId}
  {ids : List VarId}

/-- A variable that is no projection is passed over. -/
theorem mapProjectionsM_cons_other
    (unprojected : ∀ var, vars.get? id = some var → var.definition.projection? = none)
    : mapProjectionsM f (id :: ids) vars = mapProjectionsM f ids vars := by
  cases found : vars.get? id with
  | none => simp [mapProjectionsM, found]
  | some var =>
      have unprojected := unprojected var found
      obtain ⟨name, other, scope, definition⟩ := var
      cases definition with
      | projected expr type => cases unprojected
      | _ => simp [mapProjectionsM, found]

/-- A variable that projects an expression is rewritten before the others. -/
theorem mapProjectionsM_cons_projected {var : Variable} {expr : Expr} {type : Option VarType}
    (found : vars.get? id = some var) (projects : var.definition = .projected expr type)
    : mapProjectionsM f (id :: ids) vars
      = (do
          let changed ← f vars ⟨var.scope, false⟩ expr
          if changed = expr then mapProjectionsM f ids vars
          else
            mapProjectionsM f ids ((vars.redefine id (.projected changed type)).refresh id)) := by
  obtain ⟨name, other, scope, definition⟩ := var
  obtain rfl : definition = .projected expr type := projects
  simp only [mapProjectionsM, found]

end Steps

/-- The table with what variables of a list project replaced. -/
def VarTable.mapProjections (f : VarTable → Site → Expr → Expr) (ids : List VarId) (vars : VarTable)
    : VarTable :=
  Id.run (mapProjectionsM (fun vars site expr => pure (f vars site expr)) ids vars)

namespace VarTable

variable {f : VarTable → Site → Expr → Expr} {vars : VarTable} {id : VarId} {ids : List VarId}
  {var : Variable}

theorem unprojected_of_not_exists
    (none
      : ¬ ∃ var expr type, vars.get? id = some var ∧ var.definition = .projected expr type)
    : ∀ var, vars.get? id = some var → var.definition.projection? = Option.none := by
  intro var found
  cases definition : var.definition with
  | projected expr type => exact absurd ⟨var, expr, type, found, definition⟩ none
  | _ => rfl

/-- A variable that is no projection is passed over. -/
theorem mapProjections_cons_other
    (unprojected : ∀ var, vars.get? id = some var → var.definition.projection? = none)
    : vars.mapProjections f (id :: ids) = vars.mapProjections f ids := by
  rw [mapProjections, mapProjectionsM_cons_other unprojected, mapProjections]

/-- A variable that projects an expression is rewritten before the others. -/
theorem mapProjections_cons_projected {expr : Expr} {type : Option VarType}
    (found : vars.get? id = some var) (projects : var.definition = .projected expr type)
    : vars.mapProjections f (id :: ids)
      = if f vars ⟨var.scope, false⟩ expr = expr then vars.mapProjections f ids
        else
          ((vars.redefine id (.projected (f vars ⟨var.scope, false⟩ expr) type)).refresh
            id).mapProjections
            f ids := by
  rw [mapProjections, mapProjectionsM_cons_projected found projects, pure_bind]
  split <;> rfl

/-- A variable whose expression stays is passed over. -/
theorem mapProjections_cons_same
    (same
      : ∀ var expr,
          vars.get? id = some var
          → var.definition.projection? = some expr
          → f vars ⟨var.scope, false⟩ expr = expr)
    : vars.mapProjections f (id :: ids) = vars.mapProjections f ids := by
  by_cases projecting : ∃ var expr type,
    vars.get? id = some var ∧ var.definition = .projected expr type
  · obtain ⟨var, expr, type, found, projects⟩ := projecting
    rw [mapProjections_cons_projected found projects, if_pos]
    exact same var expr found (by rw [projects]; rfl)
  · exact mapProjections_cons_other (unprojected_of_not_exists projecting)

/-- Replacing what some variables project leaves the others. -/
theorem get?_mapProjections_of_not_mem (absent : id ∉ ids)
    : (vars.mapProjections f ids).get? id = vars.get? id := by
  induction ids generalizing vars with
  | nil => rfl
  | cons first rest ih =>
      rw [List.mem_cons, not_or] at absent
      by_cases projecting : ∃ var expr type,
          vars.get? first = some var ∧ var.definition = .projected expr type
      · obtain ⟨var, expr, type, found, projects⟩ := projecting
        rw [mapProjections_cons_projected found projects]
        split
        · exact ih absent.2
        · rw [ih absent.2, get?_refresh, get?_redefine_of_get? found, if_neg absent.1]
      · rw [mapProjections_cons_other (unprojected_of_not_exists projecting)]
        exact ih absent.2

/-- A variable whose expression changes has the new one to the end. -/
theorem get?_mapProjections_cons {expr : Expr} {type : Option VarType} (new : id ∉ ids)
    (found : vars.get? id = some var) (projects : var.definition = .projected expr type)
    : (vars.mapProjections f (id :: ids)).get? id
      = some { var with definition := .projected (f vars ⟨var.scope, false⟩ expr) type } := by
  rw [mapProjections_cons_projected found projects]
  split
  · rename_i same
    rw [get?_mapProjections_of_not_mem new, found, same, ← projects]
  · rw [get?_mapProjections_of_not_mem new, get?_refresh, get?_redefine_of_get? found, if_pos rfl]

/-- Variables stay as they are where what each of them projects does, by induction over them. -/
theorem mapProjections_eq_self
    (kept
      : ∀ id ∈ ids,
          ∀ var expr,
            vars.get? id = some var
            → var.definition.projection? = some expr
            → f vars ⟨var.scope, false⟩ expr = expr)
    : vars.mapProjections f ids = vars := by
  induction ids with
  | nil => rfl
  | cons id rest ih =>
      rw [mapProjections_cons_same (kept id (by simp))]
      exact ih fun other member => kept other (by simp [member])

/-- Where the variables stay as they are, so does what each of them projects. Induction over the
variables: a change would stay to the end, so there is none, and all are visited in the same table.
-/
theorem projection_of_mapProjections (distinct : ids.Nodup)
    (kept : ∀ id ∈ ids, (vars.mapProjections f ids).get? id = vars.get? id)
    : ∀ id ∈ ids,
        ∀ var expr,
          vars.get? id = some var
          → var.definition.projection? = some expr
          → f vars ⟨var.scope, false⟩ expr = expr := by
  induction ids with
  | nil => simp
  | cons first rest ih =>
      obtain ⟨new, distinct⟩ := List.nodup_cons.mp distinct
      have same : ∀ var expr,
          vars.get? first = some var
          → var.definition.projection? = some expr
          → f vars ⟨var.scope, false⟩ expr = expr := by
        intro var expr found projects
        cases definition : var.definition with
        | projected source type =>
            rw [definition] at projects
            obtain rfl := Option.some.inj projects
            have last := kept first (by simp)
            rw [get?_mapProjections_cons new found definition, found, Option.some.injEq] at last
            have changed := congrArg Variable.definition last
            exact (Definition.projected.inj (changed.trans definition)).1
        | _ => simp [definition, Definition.projection?] at projects
      have skipped : vars.mapProjections f (first :: rest) = vars.mapProjections f rest :=
        mapProjections_cons_same same
      intro id member
      rcases List.mem_cons.mp member with rfl | member
      · exact same
      · exact ih distinct (fun id member => by rw [← skipped, kept id (by simp [member])]) id member

end VarTable

end CypherSql.Plan
