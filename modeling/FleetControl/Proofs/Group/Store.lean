import FleetControl.Group.Store
import FleetControl.Proofs.Bytes
import FleetControl.Proofs.Group.Resolver
import FleetControl.Proofs.Page.Listing
import FleetControl.Proofs.Table

/-!
# The group store — the snapshot is what the store holds

A store `IsSettled` if its groups stand under their own names and its snapshot is those that are not
deleted; every change keeps that.  So the group that is chosen from the snapshot is the one that the
store `Chooses`: of the groups that it holds, that are not deleted and that select the agent, the one
with the greatest priority and of those the first name (`resolve_eq_some_iff`).  Groups are listed in
the order of their names (`IsSettled.list_ascending`).
-/

namespace FleetControl

/-- Whether an agent has every identifying attribute that a group asks for. -/
def Group.Selects (g : Group) (attrs : Attributes) : Prop :=
  ∀ key v, g.selector.identifying.get? key = some v → attrs.get? key = some v

theorem Group.isCandidate_iff {g : Group} {attrs : Attributes} :
    g.isCandidate attrs = true ↔ g.isDeleted = false ∧ g.Selects attrs := by
  rw [isCandidate, Bool.and_eq_true, Bool.not_eq_true', matchesAgent, Attributes.includes_iff]
  rfl

theorem Group.name_markDeleted (g : Group) (time : Instant) (user : Bytes) :
    (g.markDeleted time user).name = g.name := by
  rw [markDeleted]
  split <;> rfl

namespace GroupStore

variable {s s' : GroupStore} {g g' : Group} {attrs : Attributes} {name user : Bytes}
  {time : Instant}

/-! ### What changes come to -/

theorem create_ok (h : s.create g = .ok (g', s')) :
    g.validate = .ok () ∧ g.isDeleted = false ∧ s.groups.contains g.name = false ∧ g' = g ∧
      s' = s.publish (s.groups.insert g.name g) := by
  rw [create] at h
  cases hv : g.validate with
  | error cause => simp [hv, Except.mapError, bind, Except.bind] at h
  | ok =>
      simp only [hv, Except.mapError, bind, Except.bind] at h
      split at h
      · cases h
      rename_i hd
      split at h
      · cases h
      rename_i hc
      cases h
      exact ⟨rfl, Bool.eq_false_iff.mpr hd, Bool.eq_false_iff.mpr hc, rfl, rfl⟩

theorem update_ok (h : s.update g time user = .ok (g', s')) :
    ∃ stored, g.validate = .ok () ∧ s.groups.get? g.name = some stored ∧
      stored.isDeleted = false ∧
      g' = { stored with
        priority := g.priority
        attributes := g.attributes
        selector := g.selector
        remoteConfig := g.remoteConfig }.stampUpdated time user ∧
      s' = s.publish (s.groups.insert g.name g') := by
  rw [update] at h
  cases hv : g.validate with
  | error cause => simp [hv, Except.mapError, bind, Except.bind] at h
  | ok =>
      simp only [hv, Except.mapError, bind, Except.bind] at h
      split at h
      · cases h
      rename_i stored hg
      split at h
      · cases h
      rename_i hd
      cases h
      exact ⟨stored, rfl, hg, Bool.eq_false_iff.mpr hd, rfl, rfl⟩

theorem delete_ok (h : s.delete name time user = .ok s') :
    ∃ stored, s.groups.get? name = some stored ∧
      (stored.isDeleted = true ∧ s' = s ∨ stored.isDeleted = false ∧
        s' = s.publish (s.groups.insert name (stored.markDeleted time user))) := by
  rw [delete] at h
  split at h
  · cases h
  rename_i stored hg
  refine ⟨stored, hg, ?_⟩
  split at h
  · rename_i hd
    cases h
    exact .inl ⟨hd, rfl⟩
  · rename_i hd
    cases h
    exact .inr ⟨Bool.eq_false_iff.mpr hd, rfl⟩

/-! ### The snapshot -/

/-- Groups stand under their own names, and the snapshot is those that are not deleted. -/
structure IsSettled (s : GroupStore) : Prop where
  named : ∀ {name g}, s.groups.get? name = some g → g.name = name
  published : s.snapshot = s.groups.values.filter fun g => !g.isDeleted

theorem isSettled_empty (cursor : Cursor) : IsSettled { cursor } := ⟨nofun, rfl⟩

theorem IsSettled.publish (h : s.IsSettled) (hg : g.name = name) :
    (s.publish (s.groups.insert name g)).IsSettled := by
  refine ⟨fun {key g'} hk => ?_, rfl⟩
  have hk : (s.groups.insert name g).get? key = some g' := hk
  rw [Table.get?_insert] at hk
  split at hk
  · rename_i e
    cases hk
    rw [e, hg]
  · exact h.named hk

/-- What a change that is not refused makes of a store. -/
inductive Changed (s s' : GroupStore) : Prop where
  | created {g g' : Group} (h : s.create g = .ok (g', s'))
  | updated {g g' : Group} {time : Instant} {user : Bytes} (h : s.update g time user = .ok (g', s'))
  | deleted {name : Bytes} {time : Instant} {user : Bytes} (h : s.delete name time user = .ok s')

theorem IsSettled.mem_snapshot_iff (h : s.IsSettled) :
    g ∈ s.snapshot ↔ s.groups.get? g.name = some g ∧ g.isDeleted = false := by
  rw [h.published, List.mem_filter, Bool.not_eq_true', Table.mem_values_iff]
  refine and_congr_left fun _ => ⟨?_, fun hg => ⟨_, hg⟩⟩
  rintro ⟨name, hg⟩
  rwa [h.named hg]

/-! ### The group of an agent -/

/-- Of the groups that the store holds, that are not deleted and that select an agent, the one with
the greatest priority and of those the one whose name comes first. -/
structure Chooses (s : GroupStore) (attrs : Attributes) (g : Group) : Prop where
  held : s.find g.name = .ok g
  active : g.isDeleted = false
  selects : g.Selects attrs
  best : ∀ other, s.find other.name = .ok other → other.isDeleted = false →
    other.Selects attrs → other.priority < g.priority ∨
      other.priority = g.priority ∧ (other = g ∨ g.name < other.name)

theorem find_eq_ok_iff : s.find name = .ok g ↔ s.groups.get? name = some g := by
  rw [find]
  split
  · rename_i hg
    rw [hg]
    simp
  · rename_i hg
    rw [hg]
    simp

/-- The candidates of the snapshot are the groups that are held, not deleted and select the
agent. -/
theorem IsSettled.candidate_iff (h : s.IsSettled) :
    (g ∈ s.snapshot ∧ g.isCandidate attrs = true) ↔
      s.find g.name = .ok g ∧ g.isDeleted = false ∧ g.Selects attrs := by
  rw [h.mem_snapshot_iff, Group.isCandidate_iff, find_eq_ok_iff]
  tauto

theorem IsSettled.chooses_of_isBest (h : s.IsSettled) (hg : Group.IsBest attrs s.snapshot g) :
    s.Chooses attrs g := by
  obtain ⟨hheld, hactive, hselects⟩ := h.candidate_iff.mp ⟨hg.member, hg.candidate⟩
  refine ⟨hheld, hactive, hselects, fun other ho hd hs => ?_⟩
  obtain ⟨hm, hc⟩ := h.candidate_iff.mpr ⟨ho, hd, hs⟩
  cases hb : g.beats other with
  | true =>
      rcases Group.beats_iff.mp hb with hlt | ⟨e, hlt⟩
      · exact .inl (Int32.lt_iff_toInt_lt.mpr hlt)
      · exact .inr ⟨Int32.toInt_inj.mp e, .inr hlt⟩
  | false =>
      obtain ⟨hpriority, hname⟩ := Group.same_of_not_beats (hg.unbeaten other hm hc) hb
      rw [hname, hheld] at ho
      exact .inr ⟨hpriority, .inl (Except.ok.inj ho).symm⟩

/-- The store chooses one group at most. -/
theorem Chooses.unique (h : s.Chooses attrs g) (h' : s.Chooses attrs g') : g = g' := by
  rcases h.best g' h'.held h'.active h'.selects with hlt | ⟨e, rfl | hname⟩
  · rcases h'.best g h.held h.active h.selects with hlt' | ⟨e', -⟩
    · rw [Int32.lt_iff_toInt_lt] at hlt hlt'
      omega
    · rw [e', Int32.lt_iff_toInt_lt] at hlt
      exact absurd hlt (Int.lt_irrefl _)
  · rfl
  · rcases h'.best g h.held h.active h.selects with hlt' | ⟨-, e' | hname'⟩
    · rw [e, Int32.lt_iff_toInt_lt] at hlt'
      exact absurd hlt' (Int.lt_irrefl _)
    · exact e'
    · exact absurd hname' (Bytes.lt_asymm hname)

/-- The group that is resolved from the snapshot is the one that the store chooses. -/
theorem IsSettled.resolve_eq_some_iff (h : s.IsSettled) :
    Group.resolve attrs s.snapshot = some g ↔ s.Chooses attrs g := by
  refine ⟨fun hr => h.chooses_of_isBest (Group.isBest_of_resolve hr), fun hg => ?_⟩
  cases hr : Group.resolve attrs s.snapshot with
  | none =>
      obtain ⟨hm, hc⟩ := h.candidate_iff.mpr ⟨hg.held, hg.active, hg.selects⟩
      rw [Group.resolve_eq_none_iff.mp hr g hm] at hc
      cases hc
  | some g' => rw [(h.chooses_of_isBest (Group.isBest_of_resolve hr)).unique hg]

/-! ### Listing -/

theorem Changed.cursor (hc : s.Changed s') : s'.cursor = s.cursor := by
  cases hc with
  | created hc =>
      obtain ⟨-, -, -, -, rfl⟩ := create_ok hc
      rfl
  | updated hu =>
      obtain ⟨-, -, -, -, -, rfl⟩ := update_ok hu
      rfl
  | deleted hd =>
      obtain ⟨-, -, ⟨-, rfl⟩ | ⟨-, rfl⟩⟩ := delete_ok hd
      · rfl
      · rfl

/-- Groups are listed in the order of their names. -/
theorem IsSettled.list_ascending (h : s.IsSettled) (includeDeleted : Bool) :
    PagesAscending Group.name s.cursor (s.list · includeDeleted) :=
  ⟨_, List.Pairwise.filter _ (Table.values_pairwise fun _ _ => h.named), fun _ => rfl⟩

end GroupStore

end FleetControl
