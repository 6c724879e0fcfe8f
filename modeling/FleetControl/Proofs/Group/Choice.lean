import FleetControl.Proofs.Group.History
import Mathlib.Data.List.Nodup

/-!
# The choice among groups — what it depends on

Among groups of different names the one that is resolved `Wins`: it is active, selects the agent,
and comes before every other group that does, by priority and then by name
(`resolve_eq_some_iff_wins`).  One group wins at most (`Wins.unique`), so nothing but the candidates
counts, and not their order either (`resolve_of_perm`); what a candidate says beside its name, its
priority and the identifying attributes that it asks for is carried along (`resolve_map`).  An agent
with more attributes has more candidates, so its group can only give way to one that comes before it
(`priority_le_of_more_attributes`).

The groups that a store resolves from have different names (`GroupStore.IsSettled.nodup_snapshot`).
-/

namespace FleetControl

namespace Group

variable {attrs attrs' : Attributes} {groups others : List Group} {g g' : Group}

/-! ### The group that wins -/

/-- A group of some that is active and selects an agent, and comes before every other that does:
its priority is greater, or its priority is the same and its name comes first. -/
structure Wins (attrs : Attributes) (groups : List Group) (g : Group) : Prop where
  member : g ∈ groups
  active : g.isDeleted = false
  selects : g.Selects attrs
  first : ∀ other ∈ groups, other.isDeleted = false → other.Selects attrs → other ≠ g →
    other.priority < g.priority ∨ other.priority = g.priority ∧ g.name < other.name

theorem Wins.candidate (h : Wins attrs groups g) : g.isCandidate attrs = true :=
  isCandidate_iff.mpr ⟨h.active, h.selects⟩

theorem Wins.beats (h : Wins attrs groups g) {other : Group} (hm : other ∈ groups)
    (hc : other.isCandidate attrs = true) (hne : other ≠ g) : g.beats other = true := by
  obtain ⟨hactive, hselects⟩ := isCandidate_iff.mp hc
  rcases h.first other hm hactive hselects hne with hlt | ⟨hpriority, hname⟩
  · exact beats_iff.mpr (.inl (Int32.lt_iff_toInt_lt.mp hlt))
  · exact beats_iff.mpr (.inr ⟨congrArg Int32.toInt hpriority, hname⟩)

theorem Wins.unique (h : Wins attrs groups g) (h' : Wins attrs groups g') : g = g' := by
  by_contra hne
  have hcycle := beats_trans (h.beats h'.member h'.candidate (Ne.symm hne))
    (h'.beats h.member h.candidate hne)
  rw [beats_self] at hcycle
  cases hcycle

/-- Of groups of different names no two are even. -/
theorem IsBest.wins (hn : (groups.map name).Nodup) (h : IsBest attrs groups g) :
    Wins attrs groups g := by
  obtain ⟨hactive, hselects⟩ := isCandidate_iff.mp h.candidate
  refine ⟨h.member, hactive, hselects, fun other hm hd hs hne => ?_⟩
  have hunbeaten := h.unbeaten other hm (isCandidate_iff.mpr ⟨hd, hs⟩)
  cases hb : g.beats other with
  | true =>
      rcases beats_iff.mp hb with hlt | ⟨hpriority, hname⟩
      · exact .inl (Int32.lt_iff_toInt_lt.mpr hlt)
      · exact .inr ⟨Int32.toInt_inj.mp hpriority, hname⟩
  | false =>
      have hname := (same_of_not_beats hunbeaten hb).2
      exact absurd (List.inj_on_of_nodup_map hn hm h.member hname) hne

theorem resolve_eq_some_iff_wins (hn : (groups.map name).Nodup) :
    resolve attrs groups = some g ↔ Wins attrs groups g := by
  refine ⟨fun hr => (isBest_of_resolve hr).wins hn, fun h => ?_⟩
  cases hr : resolve attrs groups with
  | none =>
      have hc := resolve_eq_none_iff.mp hr g h.member
      rw [h.candidate] at hc
      cases hc
  | some g' => rw [((isBest_of_resolve hr).wins hn).unique h]

theorem resolve_eq_none_iff_selects :
    resolve attrs groups = none ↔ ∀ g ∈ groups, g.isDeleted = false → ¬ g.Selects attrs := by
  rw [resolve_eq_none_iff]
  refine forall₂_congr fun g _ => ?_
  rw [← Bool.not_eq_true, isCandidate_iff, not_and]

/-! ### What does not matter -/

/-- The groups that take part in the choice. -/
def candidates (attrs : Attributes) (groups : List Group) : List Group :=
  groups.filter (·.isCandidate attrs)

/-- Groups that are deleted or do not select the agent are passed over. -/
theorem resolve_candidates (attrs : Attributes) (groups : List Group) :
    resolve attrs (candidates attrs groups) = resolve attrs groups := by
  have hstep : (fun best g => if isCandidate g attrs then
        (if isCandidate g attrs then better best g else best) else best) =
      fun best g => if isCandidate g attrs then better best g else best := by
    funext best g
    split <;> rfl
  rw [resolve, candidates, List.foldl_filter, hstep, resolve]

theorem wins_congr (h : ∀ g, g ∈ groups ↔ g ∈ others) :
    Wins attrs groups g ↔ Wins attrs others g := by
  constructor
  · rintro ⟨hmember, hactive, hselects, hfirst⟩
    exact ⟨(h g).mp hmember, hactive, hselects, fun other hm => hfirst other ((h other).mpr hm)⟩
  · rintro ⟨hmember, hactive, hselects, hfirst⟩
    exact ⟨(h g).mpr hmember, hactive, hselects, fun other hm => hfirst other ((h other).mp hm)⟩

/-- The order of the candidates does not matter, and nothing else than the candidates does. -/
theorem resolve_of_perm (hn : (groups.map name).Nodup)
    (h : (candidates attrs others).Perm (candidates attrs groups)) :
    resolve attrs others = resolve attrs groups := by
  have hnodup : ((candidates attrs groups).map name).Nodup :=
    hn.sublist (List.filter_sublist.map name)
  have hnodup' : ((candidates attrs others).map name).Nodup :=
    (h.map name).nodup_iff.mpr hnodup
  rw [← resolve_candidates attrs others, ← resolve_candidates attrs groups]
  refine Option.ext fun g => ?_
  rw [resolve_eq_some_iff_wins hnodup, resolve_eq_some_iff_wins hnodup']
  exact wins_congr fun _ => h.mem_iff

/-- Changes that keep what counts are carried along. -/
theorem resolve_map (change : Group → Group)
    (hc : ∀ g, (change g).isCandidate attrs = g.isCandidate attrs)
    (hb : ∀ g other, (change g).beats (change other) = g.beats other) (groups : List Group) :
    resolve attrs (groups.map change) = (resolve attrs groups).map change := by
  induction groups using List.reverseRecOn with
  | nil => rfl
  | append_singleton groups g ih =>
      rw [List.map_append, List.map_singleton, resolve_concat, resolve_concat, ih, hc]
      split
      · cases resolve attrs groups with
        | none => rfl
        | some best =>
            simp only [Option.map_some, better, hb]
            split <;> rfl
      · rfl

/-- The group with other attributes asked for that do not identify. -/
def withNonIdentifying (change : Group → Attributes) (g : Group) : Group :=
  { g with selector := { g.selector with nonIdentifying := change g } }

theorem resolve_withNonIdentifying (attrs : Attributes) (change : Group → Attributes)
    (groups : List Group) :
    resolve attrs (groups.map (withNonIdentifying change)) =
      (resolve attrs groups).map (withNonIdentifying change) :=
  resolve_map (withNonIdentifying change) (fun _ => rfl) (fun _ _ => rfl) groups

/-! ### More attributes -/

theorem Selects.mono (h : g.Selects attrs)
    (hmore : ∀ key v, attrs.get? key = some v → attrs'.get? key = some v) : g.Selects attrs' :=
  fun key v hv => hmore key v (h key v hv)

theorem priority_le_of_more_attributes
    (hmore : ∀ key v, attrs.get? key = some v → attrs'.get? key = some v)
    (h : resolve attrs groups = some g) :
    ∃ g', resolve attrs' groups = some g' ∧ g.priority ≤ g'.priority := by
  have hbest := isBest_of_resolve h
  obtain ⟨hactive, hselects⟩ := isCandidate_iff.mp hbest.candidate
  have hcandidate : g.isCandidate attrs' = true :=
    isCandidate_iff.mpr ⟨hactive, hselects.mono hmore⟩
  cases hr : resolve attrs' groups with
  | none =>
      rw [resolve_eq_none_iff.mp hr g hbest.member] at hcandidate
      cases hcandidate
  | some g' =>
      refine ⟨g', rfl, ?_⟩
      -- the group takes part still, and what is resolved is not beaten by it
      have hunbeaten := (isBest_of_resolve hr).unbeaten g hbest.member hcandidate
      rw [← Bool.not_eq_true, beats_iff] at hunbeaten
      rw [Int32.le_iff_toInt_le]
      exact Int.not_lt.mp fun hlt => hunbeaten (.inl hlt)

end Group

/-! ### The groups of a store -/

/-- The groups of a snapshot have different names. -/
theorem GroupStore.IsSettled.nodup_snapshot {s : GroupStore} (h : s.IsSettled) :
    (s.snapshot.map Group.name).Nodup := by
  have hnames : (s.groups.values.map Group.name).Nodup := by
    rw [h.names_eq]
    exact s.groups.keys_nodup
  rw [h.published]
  exact hnames.sublist (List.filter_sublist.map Group.name)

namespace Group

/-- Of groups of different names, as those of a store are, the one that wins is resolved, and
nothing if no group is active and selects the agent.  Only the candidates count, in any order;
attributes asked for that do not identify are carried along; and attributes under new keys never
lower the priority of what is resolved. -/
theorem resolve_wins (attrs : Attributes) :
    (∀ groups : List Group, (groups.map name).Nodup →
      (resolve attrs groups = none ↔ ∀ g ∈ groups, g.isDeleted = false → ¬ g.Selects attrs) ∧
      (∀ g, resolve attrs groups = some g ↔ Wins attrs groups g) ∧
      (∀ others, (candidates attrs others).Perm (candidates attrs groups) →
        resolve attrs others = resolve attrs groups) ∧
      (∀ change, resolve attrs (groups.map (withNonIdentifying change)) =
        (resolve attrs groups).map (withNonIdentifying change)) ∧
      ∀ attrs' : Attributes, (∀ key v, attrs.get? key = some v → attrs'.get? key = some v) →
        ∀ g, resolve attrs groups = some g →
          ∃ g', resolve attrs' groups = some g' ∧ g.priority ≤ g'.priority) ∧
    ∀ cursor requests, ((({ cursor } : GroupStore).run requests).snapshot.map name).Nodup := by
  refine ⟨fun groups hn => ⟨resolve_eq_none_iff_selects, fun g => resolve_eq_some_iff_wins hn,
    fun others h => resolve_of_perm hn h,
    fun change => resolve_withNonIdentifying attrs change groups,
    fun attrs' hmore g h => priority_le_of_more_attributes hmore h⟩, fun cursor requests => ?_⟩
  exact ((GroupStore.isSound_empty cursor).run requests).toIsSettled.nodup_snapshot

/-- What an agent in production says of itself. -/
def production : Attributes := Table.ofList [(utf8 "env", utf8 "prod")]

/-- Two groups for production of the same priority, one for all agents, and a deleted one. -/
def tiers : List Group :=
  [{ name := utf8 "late", priority := 2, selector := { identifying := production } },
    { name := utf8 "early", priority := 2, selector := { identifying := production } },
    { name := utf8 "base", priority := 1 },
    { name := utf8 "gone", priority := 3, lifecycle := .deleted Instant.epoch [] }]

theorem early_tier_resolved :
    Wins production tiers tiers[1] ∧
    resolve production tiers.reverse = resolve production tiers ∧
    resolve production (tiers.map (withNonIdentifying fun _ => production)) =
      some (withNonIdentifying (fun _ => production) tiers[1]) ∧
    ∃ g, resolve production tiers = some g ∧ (tiers[2]).priority ≤ g.priority := by
  have hnames : (tiers.map name).Nodup := by decide +kernel
  have hresolved : resolve production tiers = some tiers[1] := by decide +kernel
  have hunnamed : resolve ∅ tiers = some tiers[2] := by decide +kernel
  obtain ⟨-, hwins, hperm, hchange, -⟩ := (resolve_wins production).1 tiers hnames
  obtain ⟨-, -, -, -, hmore⟩ := (resolve_wins ∅).1 tiers hnames
  refine ⟨(hwins _).mp hresolved, hperm _ ((List.reverse_perm tiers).filter _), ?_, ?_⟩
  · rw [hchange, hresolved]
    rfl
  · exact hmore production (fun _ _ h => nomatch h) tiers[2] hunnamed

end Group

end FleetControl
