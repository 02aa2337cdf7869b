import CypherSql.Proofs.Collection.Projections
import CypherSql.Proofs.Sharing.Tables

/-! Queries that differ only in what is written without a name. The walks over their clauses share
the variables that have a name, and project and sort by the same.
-/

namespace CypherSql.Plan

open Cypher (NodePattern RelationshipPattern PathPattern MatchClause Projection ProjectionItem)

/-- The item mentions written ids only. -/
def Item.Plain : Item → Prop
  | .named id => Written id
  | .unnamed expr column => expr.Within Written ∧ Written column

/-- What the scope projects and sorts by mentions written ids only. -/
structure ScopeModel.Plain (model : ScopeModel) : Prop where
  items : ∀ item ∈ model.items, item.Plain
  orderBy : ∀ key ∈ model.orderBy, key.expr.Within Written

/-- What variants share of a scope: what it projects and sorts by. -/
def ScopeModel.projection (model : ScopeModel) : List Item × List SortKey :=
  (model.items, model.orderBy)

namespace Walk

variable {walk other later : Walk} {base : String} {make makeOther : VarId → String × Definition}
  {id : VarId}

/-- Everything that has a name is known by written ids. -/
structure Plain (walk : Walk) : Prop where
  vars : walk.vars.Plain
  visible : ∀ {name id}, walk.visible.get? name = some id → Written id
  models : ∀ model ∈ walk.models, model.Plain

/-- The walks share the variables that have a name and the projections. -/
structure Shares (walk other : Walk) : Prop where
  vars : walk.vars.Shares other.vars
  naming : walk.naming.Shares other.naming
  scope : walk.scope = other.scope
  visible : walk.visible = other.visible
  models : walk.models.map ScopeModel.projection = other.models.map ScopeModel.projection

theorem Shares.refl (walk : Walk) : walk.Shares walk :=
  ⟨.refl _, fun _ _ => Iff.rfl, rfl, rfl, rfl⟩

theorem Shares.symm (shares : walk.Shares other) : other.Shares walk :=
  ⟨shares.vars.symm, fun name written => (shares.naming name written).symm, shares.scope.symm,
    shares.visible.symm, shares.models.symm⟩

theorem Shares.trans {third : Walk} (left : walk.Shares other) (right : other.Shares third)
    : walk.Shares third :=
  ⟨left.vars.trans right.vars,
    fun name written => (left.naming name written).trans (right.naming name written),
    left.scope.trans right.scope, left.visible.trans right.visible, left.models.trans right.models⟩

/-- A later walk shares all with an earlier one and has no less order. -/
structure Hides (walk later : Walk) : Prop where
  shares : walk.Shares later
  plain : walk.Plain → later.Plain

theorem Hides.refl (walk : Walk) : walk.Hides walk := ⟨.refl _, id⟩

theorem Hides.trans {middle : Walk} (left : walk.Hides middle) (right : middle.Hides later)
    : walk.Hides later :=
  ⟨left.shares.trans right.shares, fun plain => right.plain (left.plain plain)⟩

/-- Two walks over variants of a query. -/
structure Agree (walk other : Walk) : Prop where
  plain : walk.Plain
  plainOther : other.Plain
  shares : walk.Shares other

theorem Agree.hide {laterOther : Walk} (agree : walk.Agree other) (hides : walk.Hides later)
    (hidesOther : other.Hides laterOther)
    : later.Agree laterOther :=
  ⟨hides.plain agree.plain, hidesOther.plain agree.plainOther,
    (hides.shares.symm.trans agree.shares).trans hidesOther.shares⟩

/-- A declared variable may project what mentions written ids, and a path may start at one. -/
theorem Plain.declare (plain : walk.Plain)
    (projects
      : ∀ id expr, (make id).2.projection? = some expr → Written base ∧ expr.Within Written)
    (starts
      : ∀ id hops elements first,
          (make id).2.path? = some (hops, elements) → elements.head? = some first → Written first)
    : (walk.declare base make).2.Plain := by
  refine ⟨⟨?_, ?_, ?_⟩, plain.visible, plain.models⟩
  · intro id var found projecting
    rw [get?_declare] at found
    split at found
    · rename_i same
      obtain rfl := Option.some.inj found
      obtain ⟨expr, projected⟩ := Option.ne_none_iff_exists'.mp projecting
      rw [same]
      exact (walk.naming.written_fresh).mpr (projects _ expr projected).1
    · exact plain.vars.written found projecting
  · intro id var expr found projected
    rw [get?_declare] at found
    split at found
    · obtain rfl := Option.some.inj found
      exact (projects id expr projected).2
    · exact plain.vars.within found projected
  · intro id var hops elements first found written isPath isFirst
    rw [get?_declare] at found
    split at found
    · obtain rfl := Option.some.inj found
      exact starts id hops elements first isPath isFirst
    · exact plain.vars.starts found written isPath isFirst

/-- A declaration under a written name has the same id in both walks. -/
theorem Shares.declare (shares : walk.Shares other) (written : Written base)
    (same : ∀ id, (make id).2.shape = (makeOther id).2.shape)
    : (walk.declare base make).1 = (other.declare base makeOther).1
      ∧ (walk.declare base make).2.Shares (other.declare base makeOther).2 := by
  have sameId : (walk.declare base make).1 = (other.declare base makeOther).1 :=
    shares.naming.fresh_eq written
  refine ⟨sameId, ⟨fun id writtenId => ?_, fun name writtenName => ?_, shares.scope, shares.visible,
    shares.models⟩⟩
  · rw [get?_declare, get?_declare, ← sameId]
    split
    · simp [Variable.shape, same, shares.scope]
    · exact shares.vars id writtenId
  · have added := @Naming.mem_used_fresh walk.naming base name
    have addedOther := @Naming.mem_used_fresh other.naming base name
    exact added.trans ((or_congr (by rw [shares.naming.fresh_eq written])
      (shares.naming name writtenName)).trans addedOther.symm)

/-- A declaration under a generated name is not shared. -/
theorem hides_declare (generated : ¬ Written base)
    (other : ∀ id, (make id).2.projection? = none ∧ (make id).2.path? = none)
    : walk.Hides (walk.declare base make).2 := by
  have hidden : ¬ Written (walk.declare base make).1 :=
    fun written => generated ((walk.naming.written_fresh).mp written)
  refine ⟨⟨fun id written => ?_, fun name written => ?_, rfl, rfl, rfl⟩, fun plain => ?_⟩
  · rw [get?_declare, if_neg]
    rintro rfl
    exact hidden written
  · have added := @Naming.mem_used_fresh walk.naming base name
    refine Iff.trans ⟨.inr, fun used => used.resolve_left ?_⟩ added.symm
    rintro rfl
    exact hidden written
  · exact plain.declare (by simp [other]) (by simp [other])

theorem Plain.bind (plain : walk.Plain) (name : Option String) (written : Written id)
    : (walk.bind name id).Plain := by
  cases name with
  | none => exact plain
  | some name =>
      refine ⟨plain.vars, fun {other found} present => ?_, plain.models⟩
      simp only [Walk.bind, Visible.get?_insert] at present
      split at present
      · exact Option.some.inj present ▸ written
      · exact plain.visible present

theorem Shares.bind (shares : walk.Shares other) (name : Option String) (id : VarId)
    : (walk.bind name id).Shares (other.bind name id) := by
  cases name with
  | none => exact shares
  | some name =>
      exact ⟨shares.vars, shares.naming, shares.scope, congrArg (·.insert name id) shares.visible,
        shares.models⟩

/-- A declaration under a written name may be given that name. -/
theorem Agree.declare (agree : walk.Agree other) (written : Written base)
    (same : ∀ id, (make id).2.shape = (makeOther id).2.shape)
    (projects : ∀ id expr, (make id).2.shape = .projected expr → expr.Within Written)
    (starts : ∀ id hops first, (make id).2.shape = .path hops (some first) → Written first)
    : (walk.declare base make).1 = (other.declare base makeOther).1
      ∧ Written (walk.declare base make).1
      ∧ (walk.declare base make).2.Agree (other.declare base makeOther).2 := by
  obtain ⟨sameId, shares⟩ := agree.shares.declare written same
  have plain {walk : Walk} {make : VarId → String × Definition} (plain : walk.Plain)
      (projects : ∀ id expr, (make id).2.shape = .projected expr → expr.Within Written)
      (starts : ∀ id hops first, (make id).2.shape = .path hops (some first) → Written first)
      : (walk.declare base make).2.Plain := by
    refine plain.declare (fun id expr projected =>
      ⟨written, projects id expr (Definition.shape_of_projection? projected)⟩) ?_
    intro id hops elements first isPath isFirst
    refine starts id hops first ?_
    rw [Definition.shape_of_path? isPath, isFirst]
  refine ⟨sameId, (walk.naming.written_fresh).mpr written,
    plain agree.plain projects starts, ?_, shares⟩
  refine plain agree.plainOther (fun id expr => ?_) fun id hops first => ?_
  · rw [← same id]
    exact projects id expr
  · rw [← same id]
    exact starts id hops first

end Walk

/-- A part of a pattern with a name: a node, a relationship, or a path with its number of hops and
the name of its first node.
-/
inductive NamedPart where
  | node (name : String)
  | relationship (name : String)
  | path (name : String) (hops : Nat) (start : Option String)
  deriving DecidableEq

def NamedPart.name : NamedPart → String
  | .node name => name
  | .relationship name => name
  | .path name _ _ => name

/-- The shape of the definition of a named part where some names are visible. -/
def NamedPart.shape (visible : Visible) : NamedPart → Shape
  | .node _ => .node
  | .relationship _ => .relationship
  | .path _ hops start => .path hops (start.bind visible.get?)

/-- The named parts of a path pattern: its nodes, its relationships and the path itself. -/
def namedParts (path : PathPattern) : List NamedPart :=
  (path.nodes.filterMap (·.name)).map .node
    ++ (path.relationships.filterMap (·.name)).map .relationship
    ++ path.name.toList.map fun name => .path name path.hops.length path.start.name

namespace Walk

variable {walk other later laterOther middle : Walk} {part : NamedPart} {parts : List NamedPart}

/-- Taking a named part leads to another walk: the name is mentioned again or it is declared. -/
inductive Leads (part : NamedPart) (walk later : Walk) : Prop where
  | mentioned (found : (walk.visible.get? part.name).isSome = true) (hides : walk.Hides later)
  | declared (make : VarId → String × Definition) (new : walk.visible.get? part.name = none)
    (made : ∀ id, (make id).2.shape = part.shape walk.visible)
    (same
      : later = (walk.declare part.name make).2.bind (some part.name)
        (walk.declare part.name make).1)

/-- Walks over variants agree after the same named part. -/
theorem Agree.leads (agree : walk.Agree other) (written : Written part.name)
    (leads : Leads part walk later) (leadsOther : Leads part other laterOther)
    : later.Agree laterOther := by
  have visible := agree.shares.visible
  cases leads with
  | mentioned found hides =>
      cases leadsOther with
      | mentioned _ hidesOther => exact agree.hide hides hidesOther
      | declared _ new => simp [visible, new] at found
  | declared make new made same =>
      cases leadsOther with
      | mentioned found => simp [← visible, new] at found
      | declared makeOther _ madeOther sameOther =>
          have both (id : VarId) : (make id).2.shape = (makeOther id).2.shape := by
            rw [made, madeOther, visible]
          obtain ⟨sameId, writtenId, declared⟩ := agree.declare written both
            (fun id expr shape => by
              rw [made] at shape
              cases part <;> cases shape)
            (fun id hops first shape => by
              rw [made] at shape
              cases part with
              | path name hops start =>
                  obtain ⟨name, -, found⟩ := Option.bind_eq_some_iff.mp (Shape.path.inj shape).2
                  exact agree.plain.visible found
              | _ => cases shape)
          rw [same, sameOther, ← sameId]
          exact ⟨declared.plain.bind _ writtenId, declared.plainOther.bind _ writtenId,
            declared.shares.bind _ _⟩

/-- Taking named parts leads to another walk, maybe with declarations in between that have no name.
-/
inductive Takes : Walk → List NamedPart → Walk → Prop where
  | refl (walk : Walk) : Takes walk [] walk
  | hide {walk middle later : Walk} {parts : List NamedPart} (hides : walk.Hides middle)
    (rest : Takes middle parts later)
    : Takes walk parts later
  | part {part : NamedPart} {walk middle later : Walk} {parts : List NamedPart}
    (leads : Leads part walk middle) (rest : Takes middle parts later)
    : Takes walk (part :: parts) later

theorem Takes.append {others : List NamedPart} (takes : walk.Takes parts middle)
    (rest : middle.Takes others later)
    : walk.Takes (parts ++ others) later := by
  induction takes with
  | refl => exact rest
  | hide hides _ ih => exact .hide hides (ih rest)
  | part leads _ ih => exact .part leads (ih rest)

theorem Takes.nil (takes : walk.Takes [] later) : walk.Hides later := by
  generalize empty : ([] : List NamedPart) = parts at takes
  induction takes with
  | refl walk => exact .refl walk
  | hide hides _ ih => exact hides.trans (ih empty)
  | part => cases empty

theorem Takes.cons (takes : walk.Takes (part :: parts) later)
    : ∃ before after, walk.Hides before ∧ Leads part before after ∧ after.Takes parts later := by
  generalize all : part :: parts = listed at takes
  induction takes with
  | refl walk => cases all
  | hide hides _ ih =>
      obtain ⟨before, after, hidden, leads, rest⟩ := ih all
      exact ⟨before, after, hides.trans hidden, leads, rest⟩
  | part leads rest =>
      obtain ⟨rfl, rfl⟩ := List.cons.inj all
      exact ⟨_, _, .refl _, leads, rest⟩

/-- Walks over variants agree after the same named parts. Induction over how the first one takes
them.
-/
theorem Takes.agree (takes : walk.Takes parts later) (takesOther : other.Takes parts laterOther)
    (written : ∀ part ∈ parts, Written part.name) (agree : walk.Agree other)
    : later.Agree laterOther := by
  induction takes generalizing other with
  | refl => exact agree.hide (.refl _) takesOther.nil
  | hide hides _ ih => exact ih takesOther written (agree.hide hides (.refl _))
  | part leads _ ih =>
      obtain ⟨before, after, hidden, leadsOther, rest⟩ := takesOther.cons
      have agree :=
        (agree.hide (.refl _) hidden).leads (written _ List.mem_cons_self) leads leadsOther
      exact ih rest (fun part member => written part (List.mem_cons_of_mem _ member)) agree

/-- A part is taken where it is declared under its name, or under a generated one if it has none. -/
theorem takes_declare {name : Option String} {generated : String} (hidden : ¬ Written generated)
    (part : String → NamedPart) (make : VarId → String × Definition)
    (new : ∀ given, name = some given → walk.visible.get? given = none)
    (named : ∀ given, (part given).name = given)
    (made : ∀ given id, (make id).2.shape = (part given).shape walk.visible)
    (other : ∀ id, (make id).2.projection? = none ∧ (make id).2.path? = none)
    : walk.Takes (name.toList.map part)
        ((walk.declare (name.getD generated) make).2.bind name
          (walk.declare (name.getD generated) make).1) := by
  cases name with
  | none => exact .hide (hides_declare hidden other) (.refl _)
  | some given =>
      refine .part (.declared make ?_ (made given) ?_) (.refl _)
      · rw [named]
        exact new given rfl
      · rw [named]
        rfl

/-- A visible name goes on to stand for what it does. -/
theorem Takes.visible (takes : walk.Takes parts later) {name : String} {id : VarId}
    (found : walk.visible.get? name = some id)
    : later.visible.get? name = some id := by
  induction takes with
  | refl => exact found
  | hide hides _ ih => exact ih (hides.shares.visible ▸ found)
  | part leads _ ih =>
      refine ih ?_
      cases leads with
      | mentioned _ hides => exact hides.shares.visible ▸ found
      | declared _ new _ same =>
          rw [same, Walk.bind, Visible.get?_insert, if_neg]
          · exact found
          · rintro rfl
            simp [new] at found

end Walk

end CypherSql.Plan
