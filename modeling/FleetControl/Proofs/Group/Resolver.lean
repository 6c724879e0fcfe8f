import FleetControl.Group.Resolver
import Mathlib.Data.List.Induction
import Mathlib.Tactic.Tauto

/-!
# Which group an agent belongs to — the best candidate

One pass over the groups keeps the best candidate so far.  `beats` is a strict order that decides
between groups of different names or priorities, so what is left at the end is a candidate that no
other beats (`isBest_of_resolve`), and nothing is left only if there is no candidate
(`resolve_eq_none_iff`).
-/

namespace FleetControl

theorem Attributes.includes_iff {attrs want : Attributes} :
    attrs.includes want = true ↔ ∀ key v, want.get? key = some v → attrs.get? key = some v := by
  simp only [Attributes.includes, List.all_eq_true, beq_iff_eq]
  constructor
  · intro h key v hv
    exact h (key, v) (Table.mem_toList_iff.mpr hv)
  · rintro h ⟨key, v⟩ hm
    exact h key v (Table.mem_toList_iff.mp hm)

namespace Group

variable {attrs : Attributes} {groups : List Group} {g g' other : Group}

/-! ### The order of preference -/

theorem beats_iff : g.beats other = true ↔
    other.priority.toInt < g.priority.toInt ∨
      other.priority.toInt = g.priority.toInt ∧ g.name < other.name := by
  rw [beats, Bool.or_eq_true, Bool.and_eq_true, decide_eq_true_iff, beq_iff_eq, Bytes.before_iff,
    Int32.lt_iff_toInt_lt, ← Int32.toInt_inj, eq_comm (a := g.priority.toInt)]

theorem beats_self (g : Group) : g.beats g = false := by
  rw [← Bool.not_eq_true, beats_iff]
  rintro (h | ⟨-, h⟩)
  · exact absurd h (Int.lt_irrefl _)
  · exact absurd h (Bytes.lt_irrefl _)

theorem beats_trans (h : g.beats other = true) (h' : other.beats g' = true) :
    g.beats g' = true := by
  rw [beats_iff] at h h' ⊢
  rcases h with h | ⟨e, h⟩ <;> rcases h' with h' | ⟨e', h'⟩
  · exact .inl (Int.lt_trans h' h)
  · exact .inl (e' ▸ h)
  · exact .inl (e ▸ h')
  · exact .inr ⟨e'.trans e, Bytes.lt_trans h h'⟩

/-- Groups that do not beat each other have the same priority and name. -/
theorem same_of_not_beats (h : g.beats other = false) (h' : other.beats g = false) :
    g.priority = other.priority ∧ g.name = other.name := by
  rw [← Bool.not_eq_true, beats_iff] at h h'
  obtain ⟨hle, hname⟩ := not_or.mp h
  obtain ⟨hle', hname'⟩ := not_or.mp h'
  have hpriority : other.priority.toInt = g.priority.toInt :=
    Int.le_antisymm (Int.not_lt.mp hle') (Int.not_lt.mp hle)
  refine ⟨Int32.toInt_inj.mp hpriority.symm, ?_⟩
  rcases Bytes.lt_trichotomy g.name other.name with hlt | e | hlt
  · exact absurd ⟨hpriority, hlt⟩ hname
  · exact e
  · exact absurd ⟨hpriority.symm, hlt⟩ hname'

/-! ### The best candidate -/

/-- A candidate among groups that no other candidate beats. -/
structure IsBest (attrs : Attributes) (groups : List Group) (g : Group) : Prop where
  member : g ∈ groups
  candidate : g.isCandidate attrs = true
  unbeaten : ∀ other ∈ groups, other.isCandidate attrs = true → other.beats g = false

theorem resolve_concat (attrs : Attributes) (groups : List Group) (g : Group) :
    resolve attrs (groups ++ [g]) =
      if g.isCandidate attrs then better (resolve attrs groups) g else resolve attrs groups := by
  rw [resolve, List.foldl_append]
  rfl

theorem resolve_eq_none_iff :
    resolve attrs groups = none ↔ ∀ g ∈ groups, g.isCandidate attrs = false := by
  induction groups using List.reverseRecOn with
  | nil => exact ⟨fun _ _ h => absurd h List.not_mem_nil, fun _ => rfl⟩
  | append_singleton groups g ih =>
      rw [resolve_concat, List.forall_mem_append, ← ih, List.forall_mem_singleton]
      cases g.isCandidate attrs with
      | true =>
          -- a candidate is better than nothing, and what it is compared to stays otherwise
          have hsome : better (resolve attrs groups) g ≠ none := by
            simp only [better]
            split
            · exact Option.some_ne_none _
            · split <;> exact Option.some_ne_none _
          exact ⟨fun h => absurd h hsome, fun h => nomatch h.2⟩
      | false => exact ⟨fun h => ⟨h, rfl⟩, fun h => h.1⟩

/-- The best of some groups stays so if one more is no candidate or does not beat it. -/
theorem IsBest.keep (h : IsBest attrs groups g)
    (hn : g'.isCandidate attrs = true → g'.beats g = false) : IsBest attrs (groups ++ [g']) g := by
  refine ⟨List.mem_append_left _ h.member, h.candidate, fun other hm hc => ?_⟩
  rcases List.mem_append.mp hm with hm | hm
  · exact h.unbeaten other hm hc
  · obtain rfl := List.mem_singleton.mp hm
    exact hn hc

/-- A candidate is the best of some groups and itself if it beats the best of them, or if there is
no candidate among them. -/
theorem isBest_concat (hc : g'.isCandidate attrs = true)
    (hn : ∀ other ∈ groups, other.isCandidate attrs = true → other.beats g' = false) :
    IsBest attrs (groups ++ [g']) g' := by
  refine ⟨List.mem_append_right _ (List.mem_singleton_self g'), hc, fun other hm hco => ?_⟩
  rcases List.mem_append.mp hm with hm | hm
  · exact hn other hm hco
  · rw [List.mem_singleton.mp hm, beats_self]

/-- What beats the best is not beaten either. -/
theorem IsBest.unbeaten_of_beats (h : IsBest attrs groups g) (hb : g'.beats g = true) :
    ∀ other ∈ groups, other.isCandidate attrs = true → other.beats g' = false := by
  intro other hm hc
  refine Bool.eq_false_iff.mpr fun hother => ?_
  have hbeaten := beats_trans hother hb
  rw [h.unbeaten other hm hc] at hbeaten
  cases hbeaten

theorem isBest_of_resolve (h : resolve attrs groups = some g) : IsBest attrs groups g := by
  induction groups using List.reverseRecOn generalizing g with
  | nil => cases h
  | append_singleton groups g' ih =>
      rw [resolve_concat] at h
      cases hc : g'.isCandidate attrs with
      | false =>
          rw [hc] at h
          exact (ih h).keep fun hc' => by rw [hc] at hc'; cases hc'
      | true =>
          rw [hc, if_pos rfl] at h
          cases hr : resolve attrs groups with
          | none =>
              rw [hr] at h
              cases h
              refine isBest_concat hc fun other hm hco => ?_
              rw [resolve_eq_none_iff.mp hr other hm] at hco
              cases hco
          | some best =>
              rw [hr] at h
              simp only [better] at h
              split at h
              · rename_i hb
                cases h
                exact isBest_concat hc ((ih hr).unbeaten_of_beats hb)
              · rename_i hb
                cases h
                exact (ih hr).keep fun _ => Bool.eq_false_iff.mpr hb

end Group

end FleetControl
