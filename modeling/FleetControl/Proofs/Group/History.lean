import FleetControl.Proofs.Group.Store

/-!
# Histories of groups — what a store holds after any requests

A group store keeps two copies of what is active, the groups and the snapshot.  After any requests
the copies agree and every group is fit to be kept (`IsSound.run`), and there is one group for every
name under which one was created (`keys_run`).

A group that is deleted is a tombstone (`IsTombstone`): it stays as it is, and its name can neither
be given to another group nor be used to change this one.  The name is looked at last, so a request
that could not be kept under any name is refused for that reason, also on the name of a deleted group
(`invalid_request_on_deleted_name`).
-/

namespace FleetControl

/-- What makes a group fit to be kept is its name, its priority and its attributes. -/
theorem Group.validate_congr {g g' : Group} (hname : g.name = g'.name)
    (hpriority : g.priority = g'.priority) (hselector : g.selector = g'.selector)
    (hattributes : g.attributes = g'.attributes) : g.validate = g'.validate := by
  rw [validate, validate, hname, hpriority, hselector, hattributes]

/-- A deletion is nothing that validation looks at. -/
theorem Group.validate_markDeleted (g : Group) (time : Instant) (user : Bytes) :
    (g.markDeleted time user).validate = g.validate := by
  rw [markDeleted]
  split
  · rfl
  · exact validate_congr rfl rfl rfl rfl

namespace GroupStore

variable {s s' : GroupStore} {g stored : Group} {name user : Bytes} {time : Instant}

/-- What a store is asked to do. -/
inductive Request where
  | create (g : Group)
  | update (g : Group) (time : Instant) (user : Bytes)
  | delete (name : Bytes) (time : Instant) (user : Bytes)

/-- What a request comes to. -/
def answer (s : GroupStore) : Request → Except Refusal GroupStore
  | .create g => (s.create g).map (·.2)
  | .update g time user => (s.update g time user).map (·.2)
  | .delete name time user => s.delete name time user

/-- The store after a request, which is the same if the request is refused. -/
def after (s : GroupStore) (r : Request) : GroupStore :=
  match s.answer r with
  | .ok s' => s'
  | .error _ => s

/-- The store after some requests. -/
def run (s : GroupStore) (rs : List Request) : GroupStore := rs.foldl after s

/-! ### What one request does -/

/-- The name under which a request creates a group. -/
def created? (s : GroupStore) : Request → Option Bytes
  | .create g => if (s.create g).isOk then some g.name else none
  | _ => none

/-- What becomes of the groups: nothing, or there is a new group, or one that was active is replaced
by another of its name. -/
inductive Step (s : GroupStore) (r : Request) : Prop where
  | same (hc : s.created? r = none) (h : s.after r = s)
  | added {g : Group} (hc : s.created? r = some g.name) (hv : g.validate = .ok ())
      (hn : s.groups.get? g.name = none) (h : s.after r = s.publish (s.groups.insert g.name g))
  | replaced {name : Bytes} {stored g : Group} (hc : s.created? r = none)
      (hs : s.groups.get? name = some stored) (ha : stored.isDeleted = false)
      (hname : g.name = stored.name)
      (hv : stored.name = name → stored.validate = .ok () → g.validate = .ok ())
      (h : s.after r = s.publish (s.groups.insert name g))

/-- Every request is one of the steps. -/
theorem step (s : GroupStore) (r : Request) : s.Step r := by
  cases r with
  | create g =>
      cases ho : s.create g with
      | error cause =>
          refine .same ?_ (by simp only [after, answer, ho, Except.map])
          rw [created?, ho]
          rfl
      | ok out =>
          obtain ⟨hv, -, hc, -, hs'⟩ := create_ok ho
          refine .added ?_ hv (Option.not_isSome_iff_eq_none.mp (Bool.eq_false_iff.mp hc)) ?_
          · rw [created?, ho]
            rfl
          · simp only [after, answer, ho, Except.map, hs']
  | update g time user =>
      cases ho : s.update g time user with
      | error cause => exact .same rfl (by simp only [after, answer, ho, Except.map])
      | ok out =>
          obtain ⟨stored, hv, hg, ha, hout, hs'⟩ := update_ok ho
          refine .replaced (g := out.1) rfl hg ha ?_ (fun hname _ => ?_)
            (by simp only [after, answer, ho, Except.map, hs'])
          · rw [hout]
            rfl
          · -- all but the name is as asked for, and the name is the same
            have hsame : out.1.validate = g.validate := by
              rw [hout]
              exact Group.validate_congr hname rfl rfl rfl
            exact hsame.trans hv
  | delete name time user =>
      cases ho : s.delete name time user with
      | error cause => exact .same rfl (by simp only [after, answer, ho])
      | ok out =>
          obtain ⟨stored, hg, ⟨-, rfl⟩ | ⟨ha, rfl⟩⟩ := delete_ok ho
          · exact .same rfl (by simp only [after, answer, ho])
          · exact .replaced rfl hg ha (stored.name_markDeleted time user)
              (fun _ hv => (stored.validate_markDeleted time user).trans hv)
              (by simp only [after, answer, ho])

/-- A request that is refused changes nothing. -/
theorem after_of_error {r : Request} {cause : Refusal} (h : s.answer r = .error cause) :
    s.after r = s := by
  rw [after, h]

theorem cursor_after (s : GroupStore) (r : Request) : (s.after r).cursor = s.cursor := by
  cases s.step r with
  | same _ h => rw [h]
  | added _ _ _ h => rw [h]; rfl
  | replaced _ _ _ _ _ h => rw [h]; rfl

theorem cursor_run (s : GroupStore) (rs : List Request) : (s.run rs).cursor = s.cursor := by
  induction rs generalizing s with
  | nil => rfl
  | cons r rs ih => exact (ih _).trans (s.cursor_after r)

/-! ### What is kept of groups -/

/-- A settled store of groups that are all fit to be kept. -/
structure IsSound (s : GroupStore) : Prop extends IsSettled s where
  valid : ∀ {name g}, s.groups.get? name = some g → g.validate = .ok ()

/-- A store without groups is sound. -/
theorem isSound_empty (cursor : Cursor) : IsSound { cursor } := ⟨isSettled_empty cursor, nofun⟩

/-- A store stays sound when it gets a valid group under its own name. -/
theorem IsSound.publish (h : s.IsSound) (hname : g.name = name) (hv : g.validate = .ok ()) :
    (s.publish (s.groups.insert name g)).IsSound := by
  refine ⟨h.toIsSettled.publish hname, fun {key g'} hk => ?_⟩
  have hk : (s.groups.insert name g).get? key = some g' := hk
  rw [Table.get?_insert] at hk
  split at hk
  · cases hk
    exact hv
  · exact h.valid hk

/-- Every request leaves a sound store sound. -/
theorem IsSound.after (h : s.IsSound) (r : Request) : (s.after r).IsSound := by
  cases s.step r with
  | same _ e => rwa [e]
  | added _ hv _ e =>
      rw [e]
      exact h.publish rfl hv
  | replaced _ hs _ hname hv e =>
      rw [e]
      exact h.publish (hname.trans (h.named hs)) (hv (h.named hs) (h.valid hs))

/-- Sound stores stay sound. -/
theorem IsSound.run (h : s.IsSound) (rs : List Request) : (s.run rs).IsSound := by
  induction rs generalizing s with
  | nil => exact h
  | cons r rs ih => exact ih (h.after r)

/-- A group is found under its own name. -/
theorem IsSound.name_eq (h : s.IsSound) (hf : s.find name = .ok g) : g.name = name :=
  h.named (find_eq_ok_iff.mp hf)

/-- The names under which requests create groups, in the order of the requests. -/
def createdIn (s : GroupStore) : List Request → List Bytes
  | [] => []
  | r :: rs => (s.created? r).toList ++ (s.after r).createdIn rs

/-- A request adds the name that it creates and no other. -/
theorem keys_after (s : GroupStore) (r : Request) :
    (s.after r).groups.keys.Perm (s.groups.keys ++ (s.created? r).toList) := by
  cases s.step r with
  | same hc h => rw [hc, h, Option.toList_none, List.append_nil]
  | added hc _ hn h =>
      rw [hc, h]
      exact (Table.keys_insert_of_none hn _).trans (List.perm_append_singleton _ _).symm
  | replaced hc hs _ _ _ h =>
      rw [hc, h, Option.toList_none, List.append_nil]
      exact .of_eq (Table.keys_insert_of_some hs _)

/-- There is a group for every name under which one was there or was created. -/
theorem keys_run (s : GroupStore) (rs : List Request) :
    (s.run rs).groups.keys.Perm (s.groups.keys ++ s.createdIn rs) := by
  induction rs generalizing s with
  | nil => exact .of_eq (List.append_nil _).symm
  | cons r rs ih =>
      have h : (s.groups.keys ++ s.createdIn (r :: rs)) =
          s.groups.keys ++ (s.created? r).toList ++ (s.after r).createdIn rs :=
        (List.append_assoc _ _ _).symm
      rw [h]
      exact (ih _).trans ((s.keys_after r).append_right _)

/-- The snapshots that a reader takes before each request and after the last. -/
def snapshotsIn (s : GroupStore) : List Request → List (List Group)
  | [] => [s.snapshot]
  | r :: rs => s.snapshot :: (s.after r).snapshotsIn rs

/-- More requests only add snapshots. -/
theorem prefix_snapshotsIn (s : GroupStore) (rs later : List Request) :
    s.snapshotsIn rs <+: s.snapshotsIn (rs ++ later) := by
  induction rs generalizing s with
  | nil => cases later <;> exact ⟨_, rfl⟩
  | cons r rs ih => exact List.cons_prefix_cons.mpr ⟨rfl, ih _⟩

/-- The last snapshot is that of the store as it is. -/
theorem getLast?_snapshotsIn (s : GroupStore) (rs : List Request) :
    (s.snapshotsIn rs).getLast? = some (s.run rs).snapshot := by
  induction rs generalizing s with
  | nil => rfl
  | cons r rs ih => rw [snapshotsIn, List.getLast?_cons, ih]; rfl

/-! ### Deleted groups -/

/-- No request changes a group that is deleted. -/
theorem get?_after_of_deleted (hg : s.groups.get? name = some g) (hd : g.isDeleted = true)
    (r : Request) : (s.after r).groups.get? name = some g := by
  cases s.step r with
  | same _ h => rwa [h]
  | added _ _ hn h =>
      rw [h, publish, Table.get?_insert, if_neg, hg]
      rintro rfl
      cases hg.symm.trans hn
  | replaced _ hs ha _ _ h =>
      rw [h, publish, Table.get?_insert, if_neg, hg]
      rintro rfl
      cases hg.symm.trans hs
      cases hd.symm.trans ha

/-- A group that is deleted stays as it is. -/
theorem get?_run_of_deleted (hg : s.groups.get? name = some g) (hd : g.isDeleted = true)
    (rs : List Request) : (s.run rs).groups.get? name = some g := by
  induction rs generalizing s with
  | nil => exact hg
  | cons r rs ih => exact ih (get?_after_of_deleted hg hd r)

/-- A group is there for good: requests on its name change nothing.  To delete it again is granted;
others are refused because of the name, unless what they ask for could not be kept under any. -/
structure IsTombstone (s : GroupStore) (g : Group) : Prop where
  found : s.find g.name = .ok g
  deletes : ∀ time user, s.delete g.name time user = .ok s
  creates : ∀ g', g'.name = g.name → g'.validate = .ok () → g'.isDeleted = false →
    s.create g' = .error (.taken g.name)
  updates : ∀ g' time user, g'.name = g.name → g'.validate = .ok () →
    s.update g' time user = .error (.notFound g.name)
  createsDeleted : ∀ g', g'.validate = .ok () → g'.isDeleted = true →
    s.create g' = .error .createDeleted
  createsInvalid : ∀ g' cause, g'.validate = .error cause → s.create g' = .error (.invalid cause)
  updatesInvalid : ∀ g' time user cause, g'.validate = .error cause →
    s.update g' time user = .error (.invalid cause)

/-- A group that is deleted is a tombstone. -/
theorem IsTombstone.of_deleted (hf : s.find g.name = .ok g) (hd : g.isDeleted = true) :
    s.IsTombstone g where
  found := hf
  deletes time user := by
    rw [delete, find_eq_ok_iff.mp hf]
    exact if_pos hd
  creates g' hname hv ha := by
    have hc : s.groups.contains g'.name = true := by
      rw [hname]
      exact Table.contains_iff.mpr ⟨g, find_eq_ok_iff.mp hf⟩
    rw [create, hv, ha, hc, ← hname]
    rfl
  updates g' time user hname hv := by
    rw [update, hv, hname, find_eq_ok_iff.mp hf]
    simp only [Except.mapError, bind, Except.bind, hd, if_true]
    rfl
  createsDeleted g' hv hd' := by
    rw [create, hv, hd']
    rfl
  createsInvalid g' cause hv := by
    rw [create, hv]
    rfl
  updatesInvalid g' time user cause hv := by
    rw [update, hv]
    rfl

/-- A deleted group stays as it is, whatever is asked for later. -/
theorem IsTombstone.run (h : s.IsTombstone g) (hd : g.isDeleted = true) (rs : List Request) :
    (s.run rs).IsTombstone g :=
  .of_deleted (find_eq_ok_iff.mpr (get?_run_of_deleted (find_eq_ok_iff.mp h.found) hd rs)) hd

/-! ### Listing -/

/-- Without the deleted groups the listing is that of the snapshot. -/
theorem IsSettled.list_active (h : s.IsSettled) (request : PageRequest) :
    s.list request false = paginate Group.name s.snapshot s.cursor request := by
  rw [h.published]
  rfl

/-- With the deleted groups the listing is that of the whole table. -/
theorem list_all (s : GroupStore) (request : PageRequest) :
    s.list request true = paginate Group.name s.groups.values s.cursor request := by
  simp [list]

theorem IsSettled.names_eq (h : s.IsSettled) : s.groups.values.map Group.name = s.groups.keys := by
  rw [Table.values, Table.keys, List.map_map]
  exact List.map_congr_left fun e he => h.named (Table.mem_toList_iff.mp he)

/-- The stored groups are those that are found under their names. -/
theorem IsSettled.mem_values_iff (h : s.IsSettled) :
    g ∈ s.groups.values ↔ s.find g.name = .ok g := by
  rw [Table.mem_values_iff, find_eq_ok_iff]
  refine ⟨?_, fun hg => ⟨_, hg⟩⟩
  rintro ⟨name, hg⟩
  rwa [h.named hg]

/-- What a store that was empty holds after any requests.  The snapshot is the groups that are there
and not deleted, by name, and snapshots that were taken earlier are as they were.  Every group is
fit to be kept.  A request that is refused changes nothing, and a group that was deleted is a
tombstone from then on.  Without deleted groups the snapshot is listed, with them one group for every
name under which one was created. -/
theorem groups_kept_through_requests (cursor : Cursor) (rs : List Request) :
    let s := run { cursor } rs
    Ascends Group.name s.snapshot ∧
      (∀ g, g ∈ s.snapshot ↔ s.find g.name = .ok g ∧ g.isDeleted = false) ∧
      (∀ name g, s.find name = .ok g → g.name = name ∧ g.validate = .ok ()) ∧
      (∀ later, snapshotsIn { cursor } rs <+: snapshotsIn { cursor } (rs ++ later)) ∧
      (snapshotsIn { cursor } rs).getLast? = some s.snapshot ∧
      (∀ r cause, s.answer r = .error cause → s.after r = s) ∧
      (∀ name g, s.find name = .ok g → g.isDeleted = true →
        ∀ later, (s.run later).IsTombstone g) ∧
      (∀ name, (Refusal.taken name).fault.kind = .alreadyExists ∧
        (Refusal.notFound name).fault.kind = .notFound) ∧
      (∀ request, s.list request false = paginate Group.name s.snapshot cursor request) ∧
      ∃ all, Ascends Group.name all ∧ (∀ g, g ∈ all ↔ s.find g.name = .ok g) ∧
        (all.map Group.name).Perm (createdIn { cursor } rs) ∧
        ∀ request, s.list request true = paginate Group.name all cursor request := by
  intro s
  have h : s.IsSound := (isSound_empty cursor).run rs
  have hcursor : s.cursor = cursor := cursor_run { cursor } rs
  have hvalues : Ascends Group.name s.groups.values := Table.values_pairwise fun _ _ => h.named
  refine ⟨?_, fun g => ?_, fun name g hf => ⟨h.name_eq hf, h.valid (find_eq_ok_iff.mp hf)⟩,
    prefix_snapshotsIn _ rs, getLast?_snapshotsIn _ rs, fun r cause => after_of_error,
    fun name g hf hd => ?_, fun _ => ⟨rfl, rfl⟩, fun request => hcursor ▸ h.list_active request,
    s.groups.values, hvalues, fun g => h.mem_values_iff, ?_,
    fun request => hcursor ▸ s.list_all request⟩
  · rw [h.published]
    exact hvalues.filter _
  · rw [h.mem_snapshot_iff, find_eq_ok_iff]
  · obtain rfl := h.name_eq hf
    exact (IsTombstone.of_deleted hf hd).run hd
  · rw [h.names_eq]
    exact keys_run { cursor } rs

/-- Of two groups one is deleted.  It keeps the stamp of its first deletion, and its name cannot be
had again. -/
theorem deleted_group_of_requests_kept :
    let first : Group := { name := [0x61] }
    let second : Group := { name := [0x62], priority := 3 }
    let rs := [Request.create first, .create second, .delete [0x61] 5 [0x75],
      .delete [0x61] 6 [0x76]]
    let s := run { cursor := .plain } rs
    s.snapshot = [second] ∧ createdIn { cursor := .plain } rs = [[0x61], [0x62]] ∧
      s.find [0x61] = .ok (first.markDeleted 5 [0x75]) ∧
      (s.run [.create first, .update first 7 []]).IsTombstone (first.markDeleted 5 [0x75]) ∧
      s.create first = .error (.taken [0x61]) := by
  intro first second rs s
  obtain ⟨-, -, -, -, -, -, htomb, -⟩ := groups_kept_through_requests .plain rs
  have hf : s.find [0x61] = .ok (first.markDeleted 5 [0x75]) := by decide +kernel
  have hs : s.IsTombstone (first.markDeleted 5 [0x75]) := htomb [0x61] _ hf rfl []
  have hlater := htomb [0x61] _ hf rfl [.create first, .update first 7 []]
  have hvalid : first.validate = .ok () := by decide +kernel
  have htaken := hs.creates first rfl hvalid rfl
  exact ⟨by decide +kernel, by decide +kernel, hf, hlater, htaken⟩

/-- A group with a negative priority is refused because of that, also under the name of a deleted
group. -/
theorem invalid_request_on_deleted_name :
    let s := run { cursor := .plain } [.create { name := [0x61] }, .delete [0x61] 5 [0x75]]
    let g : Group := { name := [0x61], priority := -1 }
    (∃ stored, s.find [0x61] = .ok stored ∧ stored.isDeleted = true) ∧
      s.create g = .error (.invalid .negativePriority) ∧
      s.create g ≠ .error (.taken [0x61]) ∧
      s.update g 6 [] = .error (.invalid .negativePriority) ∧
      s.update g 6 [] ≠ .error (.notFound [0x61]) := by
  intro s g
  have hc : s.create g = .error (.invalid .negativePriority) := rfl
  have hu : s.update g 6 [] = .error (.invalid .negativePriority) := rfl
  have hf : s.find [0x61] = .ok (Group.markDeleted { name := [0x61] } 5 [0x75]) := by
    decide +kernel
  exact ⟨⟨_, hf, rfl⟩, hc, by simp [hc], hu, by simp [hu]⟩

end GroupStore

end FleetControl
