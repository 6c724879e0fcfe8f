import FleetControl.Proofs.Group.Choice

/-!
# Groups alike — what conditions do not decide

The conditions of a group tell what was done to it, and nothing is decided by them.  Two stores are
`Alike` if they hold the same groups up to their conditions.  They stay so under any request
(`Alike.after`), and what one resolves is what the other does, up to conditions (`Alike.resolve`).
To update a group to what it is already is to touch it: of all groups, and of the one that is
resolved, nothing changes but that the condition of an update is there (`IsSound.update_bare`,
`resolve_touched`).
-/

namespace FleetControl

namespace Group

variable {g g' : Group} {attrs : Attributes}

/-- The group without its conditions. -/
def bare (g : Group) : Group := { g with conditions := {} }

/-- Resolving looks at nothing that baring takes off. -/
theorem resolve_bare (attrs : Attributes) (groups : List Group) :
    resolve attrs (groups.map bare) = (resolve attrs groups).map bare :=
  resolve_map bare (fun _ => rfl) (fun _ _ => rfl) groups

/-- Groups that are alike have the same name. -/
theorem name_of_bare (h : g.bare = g'.bare) : g.name = g'.name := by
  have hname : g.bare.name = g'.bare.name := congrArg name h
  exact hname

theorem map_name_of_bare {o o' : Option Group} (h : o.map bare = o'.map bare) :
    o.map name = o'.map name := by
  have hname := congrArg (Option.map name) h
  rwa [Option.map_map, Option.map_map] at hname

/-- Groups that are alike have the same lifecycle. -/
theorem lifecycle_of_bare (h : g.bare = g'.bare) : g.lifecycle = g'.lifecycle := by
  have hlife : g.bare.lifecycle = g'.bare.lifecycle := congrArg lifecycle h
  exact hlife

/-- Groups that are alike have the same configuration. -/
theorem remoteConfig_of_bare (h : g.bare = g'.bare) : g.remoteConfig = g'.remoteConfig := by
  have hconfig : g.bare.remoteConfig = g'.bare.remoteConfig := congrArg remoteConfig h
  exact hconfig

/-- Of groups that are alike both are deleted or none. -/
theorem isDeleted_of_bare (h : g.bare = g'.bare) : g.isDeleted = g'.isDeleted := by
  rw [isDeleted, isDeleted, lifecycle_of_bare h]

/-- A group with an update recorded if it is the one of a name. -/
def touched (name : Bytes) (time : Instant) (user : Bytes) (g : Group) : Group :=
  if g.name = name then g.stampUpdated time user else g

theorem isDeleted_touched (name : Bytes) (time : Instant) (user : Bytes) (g : Group) :
    (g.touched name time user).isDeleted = g.isDeleted := by
  rw [touched]
  split <;> rfl

/-- An update that only stamps its time leaves a group alike. -/
theorem bare_touched (name : Bytes) (time : Instant) (user : Bytes) (g : Group) :
    (g.touched name time user).bare = g.bare := by
  rw [touched]
  split <;> rfl

/-- What is touched is resolved as before. -/
theorem resolve_touched (attrs : Attributes) (name : Bytes) (time : Instant) (user : Bytes)
    (groups : List Group) :
    resolve attrs (groups.map (touched name time user)) =
      (resolve attrs groups).map (touched name time user) := by
  refine resolve_map _ (fun g => ?_) (fun g other => ?_) groups
  · rw [touched]
    split <;> rfl
  · rw [touched, touched]
    split <;> split <;> rfl

/-- Deleting a group does not look at its conditions. -/
theorem bare_markDeleted (h : g.bare = g'.bare) (time : Instant) (user : Bytes) :
    (g.markDeleted time user).bare = (g'.markDeleted time user).bare := by
  have hmark (g : Group) : (g.markDeleted time user).bare =
      if g.bare.isDeleted then g.bare else { g.bare with lifecycle := .deleted time user } := by
    rw [markDeleted]
    cases hd : g.isDeleted with
    | true => exact (if_pos hd).symm
    | false => exact (if_neg (ne_true_of_eq_false hd)).symm
  rw [hmark, hmark, h]

end Group

namespace GroupStore

variable {s s' : GroupStore} {g g' : Group} {name : Bytes}

/-- Both hold the same groups up to their conditions. -/
structure Alike (s s' : GroupStore) : Prop where
  groups : s.groups.map Group.bare = s'.groups.map Group.bare
  snapshot : s.snapshot.map Group.bare = s'.snapshot.map Group.bare

/-- Every store is like itself. -/
theorem alike_refl (s : GroupStore) : s.Alike s := ⟨rfl, rfl⟩

/-- Being alike goes both ways. -/
theorem Alike.symm (h : s.Alike s') : s'.Alike s := ⟨h.groups.symm, h.snapshot.symm⟩

/-- Alike stores have alike groups under every name. -/
theorem Alike.get? (h : s.Alike s') (name : Bytes) :
    (s.groups.get? name).map Group.bare = (s'.groups.get? name).map Group.bare := by
  rw [← Table.get?_map, h.groups, Table.get?_map]

/-- Alike stores have groups under the same names. -/
theorem Alike.contains (h : s.Alike s') (name : Bytes) :
    s.groups.contains name = s'.groups.contains name := by
  have hsome := congrArg Option.isSome (h.get? name)
  rwa [Option.isSome_map, Option.isSome_map] at hsome

/-- Where one has a group the other has one that is the same up to conditions. -/
theorem Alike.get?_cases (h : s.Alike s') (name : Bytes) :
    (s.groups.get? name = none ∧ s'.groups.get? name = none) ∨
      ∃ g g', s.groups.get? name = some g ∧ s'.groups.get? name = some g' ∧ g.bare = g'.bare := by
  have hget := h.get? name
  cases hs : s.groups.get? name with
  | none =>
      rw [hs] at hget
      exact .inl ⟨rfl, Option.map_eq_none_iff.mp hget.symm⟩
  | some g =>
      rw [hs] at hget
      obtain ⟨g', hg', hbare⟩ := Option.map_eq_some_iff.mp hget.symm
      exact .inr ⟨g, g', rfl, hg', hbare.symm⟩

/-- Alike stores choose alike groups. -/
theorem Alike.resolve (h : s.Alike s') (attrs : Attributes) :
    (Group.resolve attrs s.snapshot).map Group.bare =
      (Group.resolve attrs s'.snapshot).map Group.bare := by
  rw [← Group.resolve_bare, h.snapshot, Group.resolve_bare]

/-! ### Requests -/

/-- The values of a mapped table are the mapped values. -/
theorem map_values {α β : Type} (f : α → β) (t : Table α) : (t.map f).values = t.values.map f := by
  rw [Table.values, Table.values, List.map_map]
  exact List.map_map

/-- What keeps the active groups active changes those of a table one by one. -/
theorem map_active {change : Group → Group} (h : ∀ g, (change g).isDeleted = g.isDeleted)
    (t : Table Group) : ((t.map change).values.filter fun g => !g.isDeleted) =
      (t.values.filter fun g => !g.isDeleted).map change := by
  rw [map_values, List.filter_map]
  simp only [Function.comp_def, h]

/-- Tables of alike groups are published as alike stores. -/
theorem alike_publish {t t' : Table Group} (h : t.map Group.bare = t'.map Group.bare) :
    (s.publish t).Alike (s'.publish t') := by
  refine ⟨h, ?_⟩
  have hbare : ∀ g : Group, g.bare.isDeleted = g.isDeleted := fun _ => rfl
  rw [publish, publish, ← map_active hbare, ← map_active hbare, h]

/-- Alike stores stay alike when they get alike groups under one name. -/
theorem Alike.publish_insert (h : s.Alike s') (name : Bytes) (hg : g.bare = g'.bare) :
    (s.publish (s.groups.insert name g)).Alike (s'.publish (s'.groups.insert name g')) := by
  refine alike_publish (Table.map_eq_map_of_get? fun key => ?_)
  rw [Table.get?_insert, Table.get?_insert]
  split
  · rw [Option.map_some, Option.map_some, hg]
  · exact h.get? key

/-- A group is created if it is valid, not deleted and has a new name. -/
theorem after_create (s : GroupStore) (g : Group) :
    s.after (.create g) =
      if g.validate.isOk && !g.isDeleted && !s.groups.contains g.name then
        s.publish (s.groups.insert g.name g)
      else s := by
  simp only [GroupStore.after, answer, create]
  cases g.validate <;> cases g.isDeleted <;> cases s.groups.contains g.name <;> rfl

/-- A group is updated if the update is valid and the stored group is there and not deleted. -/
theorem after_update (s : GroupStore) (g : Group) (time : Instant) (user : Bytes) :
    s.after (.update g time user) =
      match s.groups.get? g.name with
      | none => s
      | some stored =>
        if g.validate.isOk && !stored.isDeleted then
          s.publish (s.groups.insert g.name ({ stored with
            priority := g.priority
            attributes := g.attributes
            selector := g.selector
            remoteConfig := g.remoteConfig }.stampUpdated time user))
        else s := by
  simp only [GroupStore.after, answer, update]
  cases g.validate with
  | error => cases s.groups.get? g.name <;> rfl
  | ok =>
      cases s.groups.get? g.name with
      | none => rfl
      | some stored =>
          simp only [Except.mapError, bind, Except.bind]
          cases stored.isDeleted <;> rfl

/-- A group is deleted if it is there and not deleted yet. -/
theorem after_delete (s : GroupStore) (name : Bytes) (time : Instant) (user : Bytes) :
    s.after (.delete name time user) =
      match s.groups.get? name with
      | none => s
      | some g =>
        if g.isDeleted then s
        else s.publish (s.groups.insert name (g.markDeleted time user)) := by
  simp only [GroupStore.after, answer, delete]
  cases s.groups.get? name with
  | none => rfl
  | some g => by_cases hd : g.isDeleted = true <;> simp [hd]

/-- Conditions decide neither whether a request is granted nor what it does but to them. -/
theorem Alike.after (h : s.Alike s') (r : Request) : (s.after r).Alike (s'.after r) := by
  cases r with
  | create g =>
      rw [after_create, after_create, h.contains]
      split
      · exact h.publish_insert g.name rfl
      · exact h
  | update g time user =>
      rw [after_update, after_update]
      rcases h.get?_cases g.name with ⟨hs, hs'⟩ | ⟨stored, stored', hs, hs', hbare⟩
      · simp only [hs, hs']
        exact h
      · simp only [hs, hs', Group.isDeleted_of_bare hbare]
        split
        · -- what a client may set comes from the request
          refine h.publish_insert g.name ?_
          simp only [Group.bare, Group.stampUpdated, Group.name_of_bare hbare,
            Group.lifecycle_of_bare hbare]
        · exact h
  | delete name time user =>
      rw [after_delete, after_delete]
      rcases h.get?_cases name with ⟨hs, hs'⟩ | ⟨stored, stored', hs, hs', hbare⟩
      · simp only [hs, hs']
        exact h
      · simp only [hs, hs', Group.isDeleted_of_bare hbare]
        split
        · exact h
        · exact h.publish_insert name (Group.bare_markDeleted hbare time user)

/-! ### Updates that change nothing -/

/-- Stamping one group is touching all of them. -/
theorem IsSettled.insert_stampUpdated (h : s.IsSettled) (hg : s.groups.get? name = some g)
    (time : Instant) (user : Bytes) :
    s.groups.insert name (g.stampUpdated time user) =
      s.groups.map (Group.touched name time user) := by
  refine Table.ext_get? fun key => ?_
  rw [Table.get?_insert, Table.get?_map]
  split
  · rename_i hkey
    rw [hkey, hg, Option.map_some, Group.touched, if_pos (h.named hg)]
  · rename_i hkey
    cases hother : s.groups.get? key with
    | none => rfl
    | some other =>
        have hname : other.name ≠ name := fun e => hkey ((h.named hother).symm.trans e)
        rw [Option.map_some, Group.touched, if_neg hname]

/-- The store with a group touched. -/
def touch (s : GroupStore) (name : Bytes) (time : Instant) (user : Bytes) : GroupStore :=
  { s with
    groups := s.groups.map (Group.touched name time user)
    snapshot := s.snapshot.map (Group.touched name time user) }

/-- An update that only stamps its time shows in its own group alone. -/
theorem IsSettled.find_touch (h : s.IsSettled) (hg : s.find name = .ok g) (time : Instant)
    (user key : Bytes) : (s.touch name time user).find key =
      if key = name then .ok (g.stampUpdated time user) else s.find key := by
  have htouch : (s.touch name time user).groups = s.groups.insert name (g.stampUpdated time user) :=
    (h.insert_stampUpdated (find_eq_ok_iff.mp hg) time user).symm
  rw [find, htouch, Table.get?_insert]
  by_cases hkey : key = name
  · rw [if_pos hkey, if_pos hkey]
  · rw [if_neg hkey, if_neg hkey, find]

/-- If the group that is touched is resolved, it is so with the update recorded. -/
theorem IsSettled.resolve_touch (h : s.IsSettled) (hg : s.find name = .ok g) (time : Instant)
    (user : Bytes) (attrs : Attributes) :
    Group.resolve attrs (s.touch name time user).snapshot =
      (Group.resolve attrs s.snapshot).map fun winner =>
        if winner.name = name then g.stampUpdated time user else winner := by
  rw [touch, Group.resolve_touched]
  cases hr : Group.resolve attrs s.snapshot with
  | none => rfl
  | some winner =>
      rw [Option.map_some, Option.map_some, Group.touched]
      split
      · rename_i hname
        have hheld := (h.resolve_eq_some_iff.mp hr).held
        rw [hname, hg] at hheld
        rw [Except.ok.inj hheld]
      · rfl

/-- A group that is updated to what it is already is touched. -/
theorem IsSound.update_bare (h : s.IsSound) (hg : s.groups.get? name = some g)
    (ha : g.isDeleted = false) (time : Instant) (user : Bytes) :
    s.update g.bare time user = .ok (g.stampUpdated time user, s.touch name time user) := by
  have hname : g.name = name := h.named hg
  have hbare : g.bare.name = name := hname
  have hvalid : g.validate = .ok () := h.valid hg
  have htouch : s.touch name time user =
      s.publish (s.groups.insert name (g.stampUpdated time user)) := by
    rw [GroupStore.publish, h.insert_stampUpdated hg,
      map_active (Group.isDeleted_touched name time user), ← h.published]
    rfl
  have hsame : g.bare.validate = g.validate := Group.validate_congr rfl rfl rfl rfl
  rw [update, hsame, hvalid, hbare, hg, htouch]
  simp only [Except.mapError, bind, Except.bind, ha, Bool.false_eq_true, if_false]
  rfl

/-- An update that only stamps its time leaves a store alike. -/
theorem alike_touch (s : GroupStore) (name : Bytes) (time : Instant) (user : Bytes) :
    (s.touch name time user).Alike s := by
  have hbare : Group.bare ∘ Group.touched name time user = Group.bare :=
    funext (Group.bare_touched name time user)
  refine ⟨Table.ext_get? fun key => ?_, ?_⟩
  · rw [touch, Table.get?_map, Table.get?_map, Table.get?_map, Option.map_map, hbare]
  · rw [touch, List.map_map, hbare]

end GroupStore

end FleetControl
