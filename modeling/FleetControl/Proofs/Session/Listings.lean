import FleetControl.Proofs.Command.Log
import FleetControl.Proofs.Page.Walk
import FleetControl.Proofs.Session.Push

/-!
# Listings — what a client sees that goes through one while things happen

Every listing of a control plane shows what ascends by key, whatever has happened to it, and the
codecs of the tokens never change (`listsAscending_of_run`).  So what holds of a client that goes
through lists that ascend holds of all of them: it sees every key that was there at each of its calls
just once (`every_key_shown_once`).  A key that comes or goes in between may be seen or not.
-/

namespace FleetControl

namespace Fleet

variable {f f₀ : Fleet} {e : Event} {conn : Bytes} {m : AgentMessage} {now : Instant}
  {s s' : Session} {registry : Registry}

/-- The codecs of the tokens, by what is listed. -/
structure Cursors where
  connections : Cursor
  agents : Cursor
  groups : Cursor
  commands : Cursor

def cursors (f : Fleet) : Cursors :=
  ⟨f.registry.cursor, f.agents.cursor, f.groups.cursor, f.store.log.cursor⟩

theorem cursors_recordReport (f : Fleet) (conn : Bytes) (m : AgentMessage) (g : Option Group)
    (now : Instant) : (f.recordReport conn m g now).cursors = f.cursors := by
  simp only [recordReport]
  split
  · rename_i hr
    rw [cursors, AgentStore.cursor_report hr]
    rfl
  · rfl

theorem Serves.cursors_step (h : f.Serves e conn m now s s' registry) :
    (f.step e).cursors = f.cursors := by
  obtain ⟨ledgers, hstep⟩ := h.step_eq
  have hrecord := (f.keep conn (Session.learn s' m) registry).cursors_recordReport conn m
    (f.groupOf (Session.learn s' m)) now
  have hkeep : (f.keep conn (Session.learn s' m) registry).cursors = f.cursors := by
    cases h.carries with
    | before => rfl
    | binding _ _ hb =>
        rw [cursors, keep, Registry.cursor_bind hb]
        rfl
  rw [hstep]
  exact hrecord.trans hkeep

theorem cursors_disconnect (f : Fleet) (conn : Bytes) :
    (f.disconnect conn).cursors = f.cursors := by
  simp only [disconnect]
  split
  · rfl
  · split <;> rfl

/-- No event changes a codec. -/
theorem cursors_step (f : Fleet) (e : Event) : (f.step e).cursors = f.cursors := by
  cases f.outcome e with
  | idle _ _ hstep => rw [hstep]
  | heard _ _ hstep | undescribed _ _ _ _ hstep =>
      rw [hstep]
      rfl
  | served h => exact h.cursors_step
  | opened _ hr hstep =>
      rw [hstep, cursors, keep, Registry.cursor_register hr]
      rfl
  | closed _ hstep => rw [hstep, cursors_disconnect]
  | @saved r now _ hstep =>
      rw [hstep, cursors, CommandStore.save]
      split
      · rfl
      · exact congrArg (Cursors.mk _ _ _) (f.store.log.cursor_save _ now none r)
  | regrouped _ _ hg hstep =>
      rw [hstep, cursors, hg.cursor]
      rfl

theorem cursors_run (f : Fleet) (es : List Event) : (f.run es).cursors = f.cursors := by
  induction es generalizing f with
  | nil => rfl
  | cons e es ih => rw [run_cons, ih, cursors_step]

/-- The listings show what ascends by key, with tokens of these codecs. -/
structure ListsAscending (f : Fleet) (cursors : Cursors) : Prop where
  connections : ∀ now, PagesAscending Connection.id cursors.connections (f.registry.list · now)
  agents : PagesAscending Agent.instanceId cursors.agents f.agents.list
  selected : ∀ selector,
    PagesAscending Agent.instanceId cursors.agents (f.agents.listSelected selector)
  groups : ∀ includeDeleted,
    PagesAscending Group.name cursors.groups (f.groups.list · includeDeleted)
  commands : ∃ pages : PageRequest → Except PageRequest.Refusal (Page (Bytes × Command)),
    PagesAscending (·.1) cursors.commands pages ∧
      ∀ r, f.store.log.list r = ((pages r).map (Page.map (·.2))).mapError .badPage

/-- After every run the listings show what ascends by key, with tokens of the codecs that were set
up. -/
theorem listsAscending_of_run (h : f₀.IsSetUp) (es : List Event) :
    (f₀.run es).ListsAscending f₀.cursors := by
  rw [← f₀.cursors_run es]
  have hkeyed : (f₀.run es).agents.Keyed := (Coherent.of_run h es).keyed
  have hsettled : (f₀.run es).groups.IsSettled := isSettled_of_run h es
  exact {
    connections := (f₀.run es).registry.list_ascending
    agents := hkeyed.list_ascending _
    selected := fun _ => hkeyed.list_ascending _
    groups := hsettled.list_ascending
    commands := ⟨_, (f₀.run es).store.log.ordered_ascending, (f₀.run es).store.log.list_eq⟩ }

end Fleet

variable {α : Type} {key : α → Bytes} {first : Call α} {calls : List (Call α)}

/-- A client that goes through a list that ascends, while it changes, is given pages that follow one
another.  It sees keys ascend, and once it is told that there is no more it has seen every key that
was there at each of its calls, and just once.  What a control plane lists are such lists. -/
theorem every_key_shown_once (cursor : Cursor) (hlimit : first.limit ≠ 0)
    (hc : ∀ call ∈ first :: calls, call.Pageable key) :
    (∃ pages, walk key cursor [] (first :: calls) = .ok pages ∧
        Follow key cursor none 0 (first :: calls) pages ∧
        Ascends key (seen pages) ∧
        (Finished pages → ∀ k,
          (∀ call ∈ (first :: calls).take pages.length, k ∈ call.items.map key) →
            ((seen pages).map key).count k = 1)) ∧
      ∀ f₀ : Fleet, f₀.IsSetUp → ∀ es, (f₀.run es).ListsAscending f₀.cursors := by
  refine ⟨?_, fun f₀ hf es => Fleet.listsAscending_of_run hf es⟩
  have hsize : ∀ call ∈ (first :: calls).head?, call.sizeAfter 0 ≠ 0 := by
    rintro _ ⟨⟩
    rwa [Call.sizeAfter, if_neg hlimit]
  have hascends : ∀ call ∈ first :: calls, Ascends key call.items := fun call h =>
    (hc call h).ascends
  obtain ⟨pages, hpages, hfollow⟩ := walk_follows (opens_first cursor) hsize hc
  have hseen := (hfollow.ascends hascends).1
  refine ⟨pages, hpages, hfollow, hseen, fun hend k hall => ?_⟩
  have hdistinct : ((seen pages).map key).Nodup :=
    List.pairwise_map.mpr (hseen.imp Bytes.ne_of_lt)
  exact List.count_eq_one_of_mem hdistinct (hfollow.complete hascends hend (by simp) hall)

/-- Of a list that changes between three pages of one item each a client sees what was there all the
time, 1 and 4, and of the rest what came behind the place it had got to. -/
theorem seen_of_changing_list :
    let calls : List (Call Bytes) :=
      [⟨[[1], [2], [4]], 1⟩, ⟨[[0], [1], [3], [4]], 0⟩, ⟨[[1], [4]], 5⟩]
    ∃ pages, walk id .plain [] calls = .ok pages ∧ seen pages = [[1], [3], [4]] ∧
      (seen pages).count [4] = 1 ∧
      (Fleet.sample.run [.connect [9] 6]).ListsAscending Fleet.sample.cursors := by
  intro calls
  have hlisted : ∀ call ∈ calls, call.items.Pairwise (· < ·) ∧
      ∀ x ∈ call.items, x.length ≤ Cursor.keySize := by decide
  have hc : ∀ call ∈ calls, call.Pageable id := fun call hcall =>
    ⟨(hlisted call hcall).1, (hlisted call hcall).2⟩
  obtain ⟨⟨pages, hpages, -, -, honce⟩, hlists⟩ := every_key_shown_once .plain (by decide) hc
  have hwalk : (walk id .plain [] calls).toOption.map (fun pages =>
      (pages.getLast?.map (·.token), pages.length, seen pages)) =
        some (some [], 3, [[1], [3], [4]]) := by decide +kernel
  rw [hpages] at hwalk
  simp only [Except.toOption, Option.map_some, Option.some.injEq, Prod.mk.injEq] at hwalk
  obtain ⟨hlast, hlength, hseen⟩ := hwalk
  obtain ⟨page, hpage, htoken⟩ := Option.map_eq_some_iff.mp hlast
  refine ⟨pages, hpages, hseen, ?_, hlists _ Fleet.sample_isFresh.isSetUp _⟩
  have hcount := honce ⟨page, hpage, htoken⟩ [4] (by rw [hlength]; decide)
  rwa [List.map_id] at hcount

end FleetControl
