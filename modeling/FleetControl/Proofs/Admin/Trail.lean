import FleetControl.Admin
import FleetControl.Proofs.Group.Store
import FleetControl.Proofs.Result
import FleetControl.Proofs.Session.Run

/-!
# The trail of a group — who created, updated and deleted it

The conditions and the lifecycle of a group are the trail of what was done to it.  Operators change
groups by orders, and an order that is granted is a `Deed`: of a kind, to a group, at a time and by
a user.  What a group says of itself is what the deeds to it say (`Group.Tells`), and nothing else
that an order carries gets there: a body is read without its conditions and its lifecycle
(`Group.ofJson_ok`).
-/

namespace FleetControl

/-- A kind has the status of a failure. -/
theorem Fault.Kind.status_ge (kind : Fault.Kind) : 400 ≤ kind.status := by
  cases kind <;> decide

/-- The name of the group that a body describes; empty if it gives none. -/
def nameIn (body : Json) : Bytes := ((body.get? (utf8 "name")).bind Json.str?).getD []

/-- A group that is read has the name in the body, no conditions and is active. -/
theorem Group.ofJson_ok {body : Json} {g : Group} (h : Group.ofJson body = .ok g) :
    g.name = nameIn body ∧ g.conditions = {} ∧ g.lifecycle = .active := by
  rw [ofJson] at h
  cases ho : body.isObject with
  | false => rw [ho] at h; cases h
  | true =>
      cases hn : (body.get? (utf8 "name")).bind Json.str? with
      | none => rw [ho, hn] at h; cases h
      | some name =>
          rw [ho, hn] at h
          obtain ⟨priority, -, h⟩ := exists_of_bind_eq_ok h
          obtain ⟨attributes, -, h⟩ := exists_of_bind_eq_ok h
          obtain ⟨selector, -, h⟩ := exists_of_bind_eq_ok h
          obtain ⟨remoteConfig, -, h⟩ := exists_of_bind_eq_ok h
          cases h
          exact ⟨by rw [nameIn, hn]; rfl, rfl, rfl⟩

theorem Group.isDeleted_eq_false_iff {g : Group} :
    g.isDeleted = false ↔ g.lifecycle = .active := by
  rw [isDeleted]
  cases g.lifecycle <;> simp

/-! ### Deeds -/

/-- Something that was done to a group. -/
structure Deed where
  kind : ConditionKind
  name : Bytes
  time : Instant
  user : Bytes
  deriving DecidableEq, Repr

namespace Deed

/-- The words that a condition has for it. -/
def words : ConditionKind → Bytes
  | .created => utf8 "Agent group created"
  | .updated => utf8 "Agent group updated"
  | .deleted => utf8 "Agent group deleted"

/-- The condition that holds because of it. -/
def condition (d : Deed) : Condition := ⟨.true, d.time, d.user, words d.kind⟩

/-- What it makes of the group of its name.  Deleting a group again makes nothing of it. -/
inductive Makes (d : Deed) : Option Group → Group → Prop where
  | created {g : Group} (hk : d.kind = .created) (hc : g.conditions = { created := d.condition })
      (hl : g.lifecycle = .active) : d.Makes none g
  | updated {stored g : Group} (hk : d.kind = .updated)
      (hc : g.conditions = { stored.conditions with updated := d.condition })
      (hl : g.lifecycle = stored.lifecycle) : d.Makes (some stored) g
  | deleted {stored g : Group} (hk : d.kind = .deleted) (ha : stored.lifecycle = .active)
      (hc : g.conditions = { stored.conditions with deleted := d.condition })
      (hl : g.lifecycle = .deleted d.time d.user) : d.Makes (some stored) g
  | again {stored : Group} (hk : d.kind = .deleted) (hd : stored.lifecycle ≠ .active) :
      d.Makes (some stored) stored

end Deed

/-- The deeds of a kind to the group of a name. -/
def deedsTo (name : Bytes) (kind : ConditionKind) (ds : List Deed) : List Deed :=
  ds.filter fun d => d.name = name ∧ d.kind = kind

/-- The lifecycle of a group by the deed that deleted it. -/
def Lifecycle.ofDeed : Option Deed → Lifecycle
  | none => .active
  | some d => .deleted d.time d.user

/-- What a group says of itself is what was done to it: it was created once, it was updated as the
last update says, and it was deleted as the first deletion says. -/
structure Group.Tells (g : Group) (name : Bytes) (ds : List Deed) : Prop where
  created : ∃ d, deedsTo name .created ds = [d] ∧ g.conditions.created = some d.condition
  updated : g.conditions.updated = (deedsTo name .updated ds).getLast?.map Deed.condition
  deleted : g.conditions.deleted = (deedsTo name .deleted ds).head?.map Deed.condition
  lifecycle : g.lifecycle = .ofDeed (deedsTo name .deleted ds).head?

section Steps

variable {name : Bytes} {ds : List Deed} {d : Deed} {g : Group}

theorem deedsTo_append (ds : List Deed) (hn : d.name = name) (kind : ConditionKind) :
    deedsTo name kind (ds ++ [d]) = deedsTo name kind ds ++ if d.kind = kind then [d] else [] := by
  simp only [deedsTo, List.filter_append, List.filter_singleton, hn, true_and]
  by_cases hk : d.kind = kind <;> simp [hk]

theorem deedsTo_append_of_ne (ds : List Deed) (hn : d.name ≠ name) (kind : ConditionKind) :
    deedsTo name kind (ds ++ [d]) = deedsTo name kind ds := by
  simp [deedsTo, hn]

/-- The trail begins with the deed that creates the group. -/
theorem Group.Tells.begin (h : ∀ kind, deedsTo name kind ds = []) (hn : d.name = name)
    (hm : d.Makes none g) : g.Tells name (ds ++ [d]) := by
  obtain ⟨hk, hc, hl⟩ := hm
  have hcreated : deedsTo name .created (ds ++ [d]) = [d] := by simp [deedsTo_append ds hn, h, hk]
  have hupdated : deedsTo name .updated (ds ++ [d]) = [] := by simp [deedsTo_append ds hn, h, hk]
  have hdeleted : deedsTo name .deleted (ds ++ [d]) = [] := by simp [deedsTo_append ds hn, h, hk]
  refine ⟨⟨d, hcreated, by rw [hc]⟩, ?_, ?_, ?_⟩
  · rw [hupdated, hc]
    rfl
  · rw [hdeleted, hc]
    rfl
  · rw [hdeleted, hl]
    rfl

/-- A group is active as long as there is no deed that deleted it. -/
theorem Group.Tells.active_iff (h : g.Tells name ds) :
    g.lifecycle = .active ↔ deedsTo name .deleted ds = [] := by
  rw [h.lifecycle]
  cases deedsTo name .deleted ds <;> simp [Lifecycle.ofDeed]

/-- The trail goes on with a deed to the group. -/
theorem Group.Tells.append {stored : Group} (h : stored.Tells name ds) (hn : d.name = name)
    (hm : d.Makes (some stored) g) : g.Tells name (ds ++ [d]) := by
  have hactive := h.active_iff
  obtain ⟨⟨c, hone, hcreated⟩, hupdated, hdeleted, hlife⟩ := h
  have happend := deedsTo_append ds hn
  cases hm with
  | updated hk hc hl =>
      have hone' : deedsTo name .created (ds ++ [d]) = [c] := by simp [happend, hone, hk]
      have hmore : deedsTo name .updated (ds ++ [d]) = deedsTo name .updated ds ++ [d] := by
        simp [happend, hk]
      have hsame : deedsTo name .deleted (ds ++ [d]) = deedsTo name .deleted ds := by
        simp [happend, hk]
      refine ⟨⟨c, hone', by rw [hc, hcreated]⟩, ?_, ?_, ?_⟩
      · rw [hmore, hc, List.getLast?_concat]
        rfl
      · rw [hsame, hc, hdeleted]
      · rw [hsame, hl, hlife]
  | deleted hk ha hc hl =>
      have hone' : deedsTo name .created (ds ++ [d]) = [c] := by simp [happend, hone, hk]
      have hsame : deedsTo name .updated (ds ++ [d]) = deedsTo name .updated ds := by
        simp [happend, hk]
      have hfirst : deedsTo name .deleted (ds ++ [d]) = [d] := by
        simp [happend, hk, hactive.mp ha]
      refine ⟨⟨c, hone', by rw [hc, hcreated]⟩, ?_, ?_, ?_⟩
      · rw [hsame, hc, hupdated]
      · rw [hfirst, hc]
        rfl
      · rw [hfirst, hl]
        rfl
  | again hk hd =>
      have hone' : deedsTo name .created (ds ++ [d]) = [c] := by simp [happend, hone, hk]
      have hsame : deedsTo name .updated (ds ++ [d]) = deedsTo name .updated ds := by
        simp [happend, hk]
      -- there was a deletion before, which stays the first
      have hhead : (deedsTo name .deleted (ds ++ [d])).head? =
          (deedsTo name .deleted ds).head? := by
        obtain ⟨first, rest, hds⟩ := List.exists_cons_of_ne_nil (mt hactive.mpr hd)
        rw [happend, hds]
        rfl
      refine ⟨⟨c, hone', hcreated⟩, ?_, ?_, ?_⟩
      · rw [hsame, hupdated]
      · rw [hhead, hdeleted]
      · rw [hhead, hlife]

/-- The trail of a group does not see what is done to others. -/
theorem Group.Tells.append_of_ne (h : g.Tells name ds) (hn : d.name ≠ name) :
    g.Tells name (ds ++ [d]) := by
  have hother := deedsTo_append_of_ne ds hn
  exact ⟨by rw [hother]; exact h.created, by rw [hother]; exact h.updated,
    by rw [hother]; exact h.deleted, by rw [hother]; exact h.lifecycle⟩

end Steps

/-! ### Orders -/

/-- What operators may ask of the groups. -/
inductive GroupOrder where
  | create (body : Json) (user : Bytes) (now : Instant)
  | update (name : Bytes) (body : Json) (user : Bytes) (now : Instant)
  | delete (name user : Bytes) (now : Instant)

namespace GroupOrder

/-- The status that says that it was granted. -/
def granted : GroupOrder → Nat
  | .create .. => 201
  | .update .. => 200
  | .delete .. => 204

/-- What was done if it was granted. -/
def deed : GroupOrder → Deed
  | .create body user now => ⟨.created, nameIn body, now, user⟩
  | .update name _ user now => ⟨.updated, name, now, user⟩
  | .delete name user now => ⟨.deleted, name, now, user⟩

theorem granted_lt (o : GroupOrder) : o.granted < 400 := by
  cases o <;> simp [granted]

end GroupOrder

namespace Fleet

variable {f f₀ : Fleet} {o : GroupOrder}

/-- The answer to an order, and the control plane afterwards. -/
def order (f : Fleet) : GroupOrder → AdminResponse × Fleet
  | .create body user now => f.createGroup body user now
  | .update name body user now => f.updateGroup name body user now
  | .delete name user now => f.deleteGroup name user now

def afterOrders (f : Fleet) (os : List GroupOrder) : Fleet := os.foldl (fun f o => (f.order o).2) f

/-- What is done by orders, in their order. -/
def deeds (f : Fleet) : List GroupOrder → List Deed
  | [] => []
  | o :: os =>
    (if (f.order o).1.status = o.granted then [o.deed] else []) ++ (f.order o).2.deeds os

/-- What comes of an order: it is refused, or its deed is done to the group of that name, which
takes its place among the groups. -/
inductive Ordered (f : Fleet) (o : GroupOrder) : Prop where
  | refused (hs : 400 ≤ (f.order o).1.status) (h : (f.order o).2 = f)
  | done {g : Group} (hs : (f.order o).1.status = o.granted)
      (hm : o.deed.Makes (f.groups.groups.get? o.deed.name) g)
      (h : ∀ name, (f.order o).2.groups.groups.get? name =
        if name = o.deed.name then some g else f.groups.groups.get? name)

/-- A fault refuses an order. -/
theorem Ordered.of_fault (fault : Fault) (h : f.order o = (.ofFault fault, f)) : f.Ordered o :=
  .refused (by rw [h]; exact fault.kind.status_ge) (by rw [h])

theorem ordered_create (f : Fleet) (body : Json) (user : Bytes) (now : Instant) :
    f.Ordered (.create body user now) := by
  cases hr : Group.ofJson body with
  | error cause => exact .of_fault cause.fault (by simp only [order, createGroup, hr])
  | ok g =>
      obtain ⟨hname, hconditions, hlife⟩ := Group.ofJson_ok hr
      cases hc : f.groups.create (g.stampCreated now user) with
      | error cause =>
          exact .of_fault cause.fault (by simp only [order, createGroup, hr, hc, keepGroups])
      | ok out =>
          obtain ⟨g', groups⟩ := out
          have ho : f.order (.create body user now) = (.created g'.toJson, { f with groups }) := by
            simp only [order, createGroup, hr, hc, keepGroups]
          obtain ⟨-, -, hnew, rfl, rfl⟩ := GroupStore.create_ok hc
          have hn : (g.stampCreated now user).name = nameIn body := hname
          rw [hn] at hnew ho
          have hnone : f.groups.groups.get? (nameIn body) = none :=
            Option.not_isSome_iff_eq_none.mp (Bool.eq_false_iff.mp hnew)
          refine .done (g := g.stampCreated now user) (by rw [ho]; rfl) ?_ fun name => ?_
          · rw [GroupOrder.deed, hnone]
            refine .created rfl ?_ hlife
            rw [Group.stampCreated, hconditions]
            rfl
          · rw [ho]
            exact Table.get?_insert _ _ _ _

theorem ordered_update (f : Fleet) (name : Bytes) (body : Json) (user : Bytes) (now : Instant) :
    f.Ordered (.update name body user now) := by
  cases hr : Group.ofJson body with
  | error cause => exact .of_fault cause.fault (by simp only [order, updateGroup, hr])
  | ok g =>
      by_cases hname : g.name = name
      · subst hname
        cases hu : f.groups.update g now user with
        | error cause =>
            exact .of_fault cause.fault
              (by simp only [order, updateGroup, hr, hu, keepGroups, bne_self_eq_false,
                Bool.false_eq_true, if_false])
        | ok out =>
            obtain ⟨g', groups⟩ := out
            have ho : f.order (.update g.name body user now) =
                (.success g'.toJson, { f with groups }) := by
              simp only [order, updateGroup, hr, hu, keepGroups, bne_self_eq_false,
                Bool.false_eq_true, if_false]
            obtain ⟨stored, -, hstored, -, hg', rfl⟩ := GroupStore.update_ok hu
            refine .done (g := g') (by rw [ho]; rfl) ?_ fun name => ?_
            · rw [GroupOrder.deed, hstored]
              exact .updated rfl (by rw [hg']; rfl) (by rw [hg']; rfl)
            · rw [ho]
              exact Table.get?_insert _ _ _ _
      · refine .of_fault (.validation (utf8 "name in body does not match " ++ name)) ?_
        simp only [order, updateGroup, hr]
        rw [if_pos (bne_iff_ne.mpr hname)]

theorem ordered_delete (f : Fleet) (name user : Bytes) (now : Instant) :
    f.Ordered (.delete name user now) := by
  cases hd : f.groups.delete name now user with
  | error cause =>
      exact .of_fault cause.fault
        (by simp only [order, deleteGroup, hd, keepGroups, Except.map])
  | ok groups =>
      have ho : f.order (.delete name user now) = (.noContent, { f with groups }) := by
        simp only [order, deleteGroup, hd, keepGroups, Except.map]
      obtain ⟨stored, hstored, ⟨hd', rfl⟩ | ⟨ha, rfl⟩⟩ := GroupStore.delete_ok hd
      · have hdeleted : stored.lifecycle ≠ .active := fun hactive => by
          rw [Group.isDeleted_eq_false_iff.mpr hactive] at hd'
          cases hd'
        refine .done (g := stored) (by rw [ho]; rfl) ?_ fun other => ?_
        · rw [GroupOrder.deed, hstored]
          exact .again rfl hdeleted
        · rw [ho]
          split
          · rename_i e
            rw [e]
            exact hstored
          · rfl
      · refine .done (g := stored.markDeleted now user) (by rw [ho]; rfl) ?_ fun other => ?_
        · rw [GroupOrder.deed, hstored]
          exact .deleted rfl (Group.isDeleted_eq_false_iff.mp ha)
            (by rw [Group.markDeleted, ha]; rfl) (by rw [Group.markDeleted, ha]; rfl)
        · rw [ho]
          exact Table.get?_insert _ _ _ _

theorem ordered (f : Fleet) (o : GroupOrder) : f.Ordered o := by
  cases o with
  | create body user now => exact f.ordered_create body user now
  | update name body user now => exact f.ordered_update name body user now
  | delete name user now => exact f.ordered_delete name user now

theorem deeds_cons_of_refused {os : List GroupOrder} (h : 400 ≤ (f.order o).1.status) :
    f.deeds (o :: os) = (f.order o).2.deeds os := by
  rw [deeds, if_neg, List.nil_append]
  have := o.granted_lt
  omega

/-- The groups say of themselves what was done. -/
def TellsDeeds (f : Fleet) (ds : List Deed) : Prop :=
  ∀ name, match f.groups.groups.get? name with
    | none => ∀ kind, deedsTo name kind ds = []
    | some g => g.Tells name ds

theorem TellsDeeds.of_isSetUp (h : f.IsSetUp) : f.TellsDeeds [] := by
  obtain ⟨cursor, plan, store, hsetup⟩ := h
  obtain ⟨-, -, -, hgroups, -⟩ := setup_parts hsetup
  intro name
  rw [hgroups]
  exact fun _ => rfl

/-- A deed is told of by the group that it is done to, and by no other. -/
theorem TellsDeeds.done {f' : Fleet} {ds : List Deed} {d : Deed} {g : Group} (h : f.TellsDeeds ds)
    (hm : d.Makes (f.groups.groups.get? d.name) g)
    (hf : ∀ name, f'.groups.groups.get? name =
      if name = d.name then some g else f.groups.groups.get? name) :
    f'.TellsDeeds (ds ++ [d]) := by
  intro name
  rw [hf]
  by_cases hn : name = d.name
  · subst hn
    rw [if_pos rfl]
    have hname := h d.name
    cases hg : f.groups.groups.get? d.name with
    | none =>
        rw [hg] at hm hname
        exact .begin hname rfl hm
    | some stored =>
        rw [hg] at hm hname
        exact hname.append rfl hm
  · rw [if_neg hn]
    have hname := h name
    cases hg : f.groups.groups.get? name with
    | none =>
        rw [hg] at hname
        exact fun kind => (deedsTo_append_of_ne ds (Ne.symm hn) kind).trans (hname kind)
    | some stored =>
        rw [hg] at hname
        exact hname.append_of_ne (Ne.symm hn)

theorem TellsDeeds.afterOrders {ds : List Deed} (h : f.TellsDeeds ds) (os : List GroupOrder) :
    (f.afterOrders os).TellsDeeds (ds ++ f.deeds os) := by
  induction os generalizing f ds with
  | nil => rwa [deeds, List.append_nil]
  | cons o os ih =>
      cases f.ordered o with
      | refused hs hsame =>
          have hds : f.deeds (o :: os) = f.deeds os := by
            rw [deeds_cons_of_refused hs, hsame]
          have hf : f.afterOrders (o :: os) = f.afterOrders os := congrArg (·.afterOrders os) hsame
          rw [hds, hf]
          exact ih h
      | done hs hm hf =>
          have hds : f.deeds (o :: os) = o.deed :: (f.order o).2.deeds os := by
            rw [deeds, if_pos hs]
            rfl
          rw [hds, List.append_cons]
          exact ih (h.done hm hf)

/-- A group says of itself what was done by the orders that were granted, whatever the bodies of
orders hold.  It was created by one order and says when and by whom; it says of its updates when and
by whom the last was, and of its deletion when and by whom the first was, in its conditions and in
its lifecycle.  Under a name without a group nothing was done.  An order is granted or fails, and one
that fails changes nothing. -/
theorem groups_tell_deeds (hf : f₀.IsSetUp) (os : List GroupOrder) :
    let f := f₀.afterOrders os
    let ds := f₀.deeds os
    (∀ name g, f.groups.find name = .ok g → g.Tells name ds) ∧
      (∀ name cause, f.groups.find name = .error cause → ∀ kind, deedsTo name kind ds = []) ∧
      ∀ o, ((f.order o).1.status = o.granted ∨ 400 ≤ (f.order o).1.status) ∧
        (400 ≤ (f.order o).1.status → (f.order o).2 = f) := by
  intro f ds
  have htells : f.TellsDeeds ds := (TellsDeeds.of_isSetUp hf).afterOrders os
  refine ⟨fun name g hg => ?_, fun name cause hg => ?_, fun o => ?_⟩
  · have hname := htells name
    rwa [GroupStore.find_eq_ok_iff.mp hg] at hname
  · have hname := htells name
    cases hstored : f.groups.groups.get? name with
    | none => rwa [hstored] at hname
    | some g => cases hg.symm.trans (GroupStore.find_eq_ok_iff.mpr hstored)
  · cases f.ordered o with
    | refused hs h => exact ⟨.inr hs, fun _ => h⟩
    | done hs =>
        refine ⟨.inl hs, fun hfail => ?_⟩
        have := o.granted_lt
        omega

/-- A body that says of its group that user 90 has deleted it. -/
def sampleForgery : Json :=
  .object [
    (utf8 "name", .str [0x61]),
    (utf8 "conditions", .arr [.object [
      (utf8 "type", .str (utf8 "Deleted")), (utf8 "status", .str (utf8 "True")),
      (utf8 "reason", .str [90])]]),
    (utf8 "deletedAtUnixNano", .unsigned 1),
    (utf8 "deletedBy", .str [90]),
    (utf8 "status", .str (utf8 "Deleted"))]

/-- Of three creations one was granted, with a forged body, and of three updates one.  The group was
deleted twice and tells of the first time. -/
theorem forged_group_tells_deeds :
    let os := [
      .update [0x61] sampleForgery [70] 4,
      .create sampleForgery [71] 5, .create sampleForgery [72] 6, .create .null [73] 7,
      .update [0x61] sampleForgery [74] 8, .update [0x62] sampleForgery [75] 9,
      .delete [0x61] [76] 10, .delete [0x61] [77] 11]
    sample.deeds os = [⟨.created, [0x61], 5, [71]⟩, ⟨.updated, [0x61], 8, [74]⟩,
        ⟨.deleted, [0x61], 10, [76]⟩, ⟨.deleted, [0x61], 11, [77]⟩] ∧
      ∃ g, (sample.afterOrders os).groups.find [0x61] = .ok g ∧
        g.conditions.created = some ⟨.true, 5, [71], utf8 "Agent group created"⟩ ∧
        g.conditions.updated = some ⟨.true, 8, [74], utf8 "Agent group updated"⟩ ∧
        g.conditions.deleted = some ⟨.true, 10, [76], utf8 "Agent group deleted"⟩ ∧
        g.lifecycle = .deleted 10 [76] := by
  intro os
  have hds : sample.deeds os = [⟨.created, [0x61], 5, [71]⟩, ⟨.updated, [0x61], 8, [74]⟩,
      ⟨.deleted, [0x61], 10, [76]⟩, ⟨.deleted, [0x61], 11, [77]⟩] := by
    decide +kernel
  have hfound : ((sample.afterOrders os).groups.groups.get? [0x61]).isSome := by decide +kernel
  obtain ⟨g, hg⟩ := Option.isSome_iff_exists.mp hfound
  have hg := GroupStore.find_eq_ok_iff.mpr hg
  obtain ⟨htells, -⟩ := groups_tell_deeds sample_isFresh.isSetUp os
  obtain ⟨⟨d, hd, hcreated⟩, hupdated, hdeleted, hlife⟩ := hds ▸ htells [0x61] g hg
  cases hd
  exact ⟨hds, g, hg, hcreated, hupdated, hdeleted, hlife⟩

end Fleet

end FleetControl
