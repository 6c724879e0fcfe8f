import FleetControl.Proofs.Admin.Status
import FleetControl.Proofs.Group.Record
import FleetControl.Proofs.Session.Push
import FleetControl.Proofs.Session.Regrouping

/-!
# Groups put back — an update with what was fetched

An operator fetches a group, changes some of it and puts it back, with all that the answer shows
beside what may be set.  With nothing changed, what is read of it is the group without its
conditions, and a store that is sound takes that as an update to what the group is already
(`updateGroup_of_fetched`).  So the group is touched, and nothing that is decided by groups comes out
otherwise (`fetched_group_put_back`).
-/

namespace FleetControl.Fleet

variable {f : Fleet} {g : Group} {name : Bytes}

/-- What is read of an active group as it is shown is the group without its conditions. -/
theorem ofJson_shown (hp : 0 ≤ g.priority) (ha : g.isDeleted = false) (status : Json) :
    Group.ofJson (.object (g.members ++ [(utf8 "status", status)])) = .ok g.bare := by
  have hrecord : Json.object (g.members ++ [(utf8 "status", status)]) =
      Json.record (g.fields (some status)) := congrArg Json.object (g.members_eq (some status))
  have hactive : g.lifecycle = .active := by
    cases hl : g.lifecycle with
    | active => rfl
    | deleted time user => simp [Group.isDeleted, hl] at ha
  rw [hrecord, Group.ofJson_record hp, Group.bare, ← hactive]

/-- A group that is put back as it was fetched is touched. -/
theorem updateGroup_of_fetched (h : f.groups.IsSound) (hg : f.groups.find name = .ok g)
    (ha : g.isDeleted = false) (status : Json) (user : Bytes) (time : Instant) :
    f.updateGroup name (.object (g.members ++ [(utf8 "status", status)])) user time =
      (.success (g.stampUpdated time user).toJson,
        f.withGroups (f.groups.touch name time user)) := by
  have hget := GroupStore.find_eq_ok_iff.mp hg
  have hname : g.name = name := h.named hget
  have hmatch : (g.bare.name != name) = false := bne_eq_false_iff_eq.mpr hname
  rw [updateGroup, ofJson_shown (Group.priority_nonneg (h.valid hget)) ha]
  simp only [hmatch, Bool.false_eq_true, if_false]
  rw [h.update_bare hget ha]
  rfl

/-! ### What comes out as before -/

/-- Of every group it is read back what a client may set of it, if its priority is not negative.
So after every run, to put an active group back as it was fetched is granted, and changes nothing of
the group but its conditions and nothing of the others.  The group of any attributes is the one that
it was, with the same configuration for an agent, and all that agents are sent in reply to whatever
happens later is what they would have been sent. -/
theorem fetched_group_put_back :
    (∀ g : Group, 0 ≤ g.priority →
      Group.ofJson g.toJson = .ok { g with conditions := {}, lifecycle := .active }) ∧
    ∀ (f₀ : Fleet), f₀.IsSetUp → ∀ (es : List Event) (name : Bytes) (g : Group),
      let f := f₀.run es
      f.groups.find name = .ok g → g.isDeleted = false →
        ∀ (fetchedAt time : Instant) (user : Bytes),
          let g' := g.stampUpdated time user
          ∃ body f', f.getGroup name fetchedAt = .success body ∧
            f.updateGroup name body user time = (.success g'.toJson, f') ∧
            f'.groups.find name = .ok g' ∧ { g' with conditions := g.conditions } = g ∧
            (∀ other, other ≠ name → f'.groups.find other = f.groups.find other) ∧
            (∀ attrs, Group.resolve attrs f'.groups.snapshot =
              (Group.resolve attrs f.groups.snapshot).map fun winner =>
                if winner.name = name then g' else winner) ∧
            (∀ attrs hash, configToPush (Group.resolve attrs f'.groups.snapshot) hash =
              configToPush (Group.resolve attrs f.groups.snapshot) hash) ∧
            ∀ later e, (f'.run later).reply? e = (f.run later).reply? e := by
  constructor
  · intro g hp
    rw [Group.toJson_eq_record, Group.ofJson_record hp]
  · intro f₀ hf es name g f hg ha fetchedAt time user g'
    have hsound : f.groups.IsSound := isSound_of_run hf es
    -- a touched group is the same but for its conditions, which nothing that agents are sent reads
    have halike : f.groups.Alike (f.groups.touch name time user) :=
      (f.groups.alike_touch name time user).symm
    refine ⟨_, f.withGroups (f.groups.touch name time user), getGroup_of_find hg fetchedAt,
      updateGroup_of_fetched hsound hg ha _ user time, ?_, rfl, fun other hne => ?_,
      hsound.resolve_touch hg time user, fun attrs => ?_, reply?_withGroups halike⟩
    · exact (hsound.find_touch hg time user name).trans (if_pos rfl)
    · exact (hsound.find_touch hg time user other).trans (if_neg hne)
    · exact configToPush_of_bare (halike.resolve attrs).symm

/-- The only group is put back after it was fetched, and its agent is sent what it would have been
sent.  Of a deleted group the marks of its deletion are not read back. -/
theorem sample_group_put_back :
    let f := sample.run [.createGroup sampleGroup, .connect [9] 6]
    Group.ofJson (sampleGroup.markDeleted 5 [0x75]).toJson = .ok sampleGroup ∧
      ∃ body f', f.getGroup (utf8 "g") 7 = .success body ∧
        f.updateGroup (utf8 "g") body [0x75] 8 =
          (.success (sampleGroup.stampUpdated 8 [0x75]).toJson, f') ∧
        f'.reply? (sampleMessage [9] []) = f.reply? (sampleMessage [9] []) := by
  intro f
  obtain ⟨hread, hput⟩ := fetched_group_put_back
  have hg : f.groups.find (utf8 "g") = .ok sampleGroup := by decide +kernel
  obtain ⟨body, f', hbody, hupdate, -, -, -, -, -, hreply⟩ :=
    hput sample sample_isFresh.isSetUp _ _ sampleGroup hg rfl 7 8 [0x75]
  exact ⟨hread (sampleGroup.markDeleted 5 [0x75]) (by decide), body, f', hbody, hupdate,
    hreply [] _⟩

end FleetControl.Fleet
