import FleetControl.Proofs.Connection.Directory
import FleetControl.Proofs.Settings

/-!
# Liveness — thresholds and the word of nanoseconds

A threshold is kept in milliseconds and compared in nanoseconds, in a word that wraps.  From the
epoch on the difference of two times fits the word, so only the threshold can wrap
(`Registry.isAlive_view`), and it does for settings that are accepted: connections are shown as
alive as the threshold says up to `Settings.longestLivenessMs`, and not beyond
(`Registry.shows_exactly_iff`).
-/

namespace FleetControl

namespace Settings

variable {text : Bytes} {s : Settings}

/-- The largest threshold in milliseconds whose nanoseconds fit a word. -/
def longestLivenessMs : Int64 := 9223372036854

/-- Thresholds that are accepted are positive. -/
theorem livenessMs_pos (h : parse text = .ok s) : 0 < s.livenessMs := by
  obtain ⟨doc, -, -, hs⟩ := isOf_of_parse h
  exact Int64.lt_iff_toInt_lt.mpr hs.inRange.livenessMs

end Settings

namespace Registry

variable {r : Registry} {conn : Bytes} {e : Entry} {now : Instant} {c : Connection}

/-- Whether a connection is alive at a time with a threshold in milliseconds: it was heard from less
than the threshold ago, in whole nanoseconds. -/
def Entry.IsAliveAt (e : Entry) (livenessMs : Int64) (now : Instant) : Prop :=
  now.toInt - e.lastHeard.toInt < livenessMs.toInt * 1000000

instance (e : Entry) (livenessMs : Int64) (now : Instant) :
    Decidable (e.IsAliveAt livenessMs now) :=
  inferInstanceAs (Decidable (_ < _))

/-- From the epoch on everything that a registry tells of a connection shows it as alive exactly if
it is. -/
def ShowsExactly (r : Registry) : Prop :=
  ∀ conn e now, r.entries.get? conn = some e → 0 ≤ e.lastHeard → 0 ≤ now →
    r.find conn now = .ok ⟨conn, e.instanceId, e.lastHeard, e.IsAliveAt r.livenessMs now⟩ ∧
      r.isAlive conn now = .ok (decide (e.IsAliveAt r.livenessMs now)) ∧
      ∀ request page, r.list request now = .ok page → ∀ c ∈ page.items, c.id = conn →
        c.isAlive = decide (e.IsAliveAt r.livenessMs now)

/-! ### The word of nanoseconds -/

theorem toInt_threshold (r : Registry) :
    r.threshold.toInt = (r.livenessMs.toInt * 1000000).bmod (2 ^ 64) := by
  rw [threshold, Int64.toInt_mul]
  rfl

theorem toInt_threshold_of_le (h₀ : 0 < r.livenessMs)
    (h : r.livenessMs ≤ Settings.longestLivenessMs) :
    r.threshold.toInt = r.livenessMs.toInt * 1000000 := by
  have hpos : 0 < r.livenessMs.toInt := by simpa using Int64.lt_iff_toInt_lt.mp h₀
  have hle : r.livenessMs.toInt ≤ 9223372036854 := Int64.le_iff_toInt_le.mp h
  rw [toInt_threshold, Int.bmod_eq_of_le (by omega) (by omega)]

/-- From the epoch on the time since a connection was heard from fits the word. -/
theorem isAlive_view (hlast : 0 ≤ e.lastHeard) (hnow : 0 ≤ now) :
    (r.view conn e now).isAlive = true ↔ now.toInt - e.lastHeard.toInt < r.threshold.toInt := by
  have hlast : 0 ≤ e.lastHeard.toInt := by simpa using Int64.le_iff_toInt_le.mp hlast
  have hnow : 0 ≤ now.toInt := by simpa using Int64.le_iff_toInt_le.mp hnow
  have hmaxLast := e.lastHeard.toInt_lt
  have hmaxNow := now.toInt_lt
  rw [view, decide_eq_true_eq, Int64.lt_iff_toInt_lt, Int64.toInt_sub,
    Int.bmod_eq_of_le (by omega) (by omega)]

/-! ### What is shown -/

theorem mem_list {request : PageRequest} {page : Page Connection}
    (h : r.list request now = .ok page) (hc : c ∈ page.items) :
    ∃ e, r.entries.get? c.id = some e ∧ c = r.view c.id e now := by
  obtain ⟨⟨conn, e⟩, he, rfl⟩ := List.mem_map.mp (mem_of_mem_paginate h hc)
  rw [Table.mem_toList_iff, Sharded.get?_toTable] at he
  exact ⟨e, he, rfl⟩

/-- What a registry tells of a connection is how it views it. -/
theorem showsExactly_iff : r.ShowsExactly ↔
    ∀ conn e now, r.entries.get? conn = some e → 0 ≤ e.lastHeard → 0 ≤ now →
      ((r.view conn e now).isAlive = true ↔ e.IsAliveAt r.livenessMs now) := by
  refine forall₃_congr fun conn e now => forall_congr' fun he => forall₂_congr fun hlast hnow => ?_
  have hfind : r.find conn now = .ok (r.view conn e now) := by rw [find, he]
  rw [isAlive, hfind]
  constructor
  · rintro ⟨-, halive, -⟩
    have halive : (r.view conn e now).isAlive = decide (e.IsAliveAt r.livenessMs now) :=
      Except.ok.inj halive
    rw [halive, decide_eq_true_eq]
  · intro hview
    have hview : (r.view conn e now).isAlive = decide (e.IsAliveAt r.livenessMs now) := by
      rw [Bool.eq_iff_iff, hview, decide_eq_true_eq]
    refine ⟨?_, congrArg Except.ok hview, fun request page hpage c hc hid => ?_⟩
    · rw [← hview]
      rfl
    · obtain ⟨e', he', hc⟩ := mem_list hpage hc
      rw [hid, he, Option.some_inj] at he'
      rw [hc, hid, ← he', hview]

/-! ### Registries of one threshold -/

/-- The registry with another threshold. -/
def withLiveness (r : Registry) (livenessMs : Int64) : Registry := { r with livenessMs }

theorem register_withLiveness (r : Registry) (livenessMs : Int64) (conn : Bytes) (now : Instant) :
    (r.withLiveness livenessMs).register conn now =
      (r.register conn now).map (·.withLiveness livenessMs) := by
  rw [register, register, apply_ite (Except.map _), apply_ite (Except.map _)]
  rfl

theorem bind_withLiveness (r : Registry) (livenessMs : Int64) (conn i : Bytes) :
    (r.withLiveness livenessMs).bind conn i =
      (r.bind conn i).map (·.withLiveness livenessMs) := by
  have hentries : (r.withLiveness livenessMs).entries = r.entries := rfl
  rw [bind, bind, hentries]
  split
  · rfl
  · cases he : r.entries.get? conn with
    | none => rfl
    | some e =>
        cases hb : e.instanceId with
        | none => simp only [hb]; rfl
        | some bound =>
            simp only [hb]
            split <;> rfl

theorem keep_withLiveness (r : Registry) (livenessMs : Int64) (result : Except Refusal Registry) :
    ((r.withLiveness livenessMs).keep (result.map (·.withLiveness livenessMs))).2 =
      (r.keep result).2.withLiveness livenessMs := by
  cases result <;> rfl

/-- Calls do not look at the threshold. -/
theorem call_withLiveness (r : Registry) (livenessMs : Int64) (c : Call) :
    ((r.withLiveness livenessMs).call c).2 = (r.call c).2.withLiveness livenessMs := by
  cases c with
  | register conn now => rw [call, register_withLiveness, keep_withLiveness, call]
  | bind conn i => rw [call, bind_withLiveness, keep_withLiveness, call]
  | touch conn now => rfl
  | unregister conn => rfl

theorem after_withLiveness (r : Registry) (livenessMs : Int64) (calls : List Call) :
    (r.withLiveness livenessMs).after calls = (r.after calls).withLiveness livenessMs := by
  induction calls generalizing r with
  | nil => rfl
  | cons c calls ih =>
      rw [after, List.foldl_cons, call_withLiveness]
      exact ih _

theorem livenessMs_after (r : Registry) (calls : List Call) :
    (r.after calls).livenessMs = r.livenessMs := by
  have h : r.after calls = (r.after calls).withLiveness r.livenessMs :=
    r.after_withLiveness r.livenessMs calls
  rw [h]
  rfl

theorem setup_eq_ok {cursor : Cursor} {livenessMs : Int64} {hash : Bytes → Nat} {shards : Nat}
    (h : setup cursor livenessMs hash shards = .ok r) (livenessMs' : Int64) :
    r.livenessMs = livenessMs ∧
      setup cursor livenessMs' hash shards = .ok (r.withLiveness livenessMs') := by
  rw [setup] at h
  split at h
  · rename_i hpos
    cases h
    exact ⟨rfl, dif_pos hpos⟩
  · cases h

/-! ### Consequences of a threshold that fits -/

theorem showsExactly_of_le (h₀ : 0 < r.livenessMs) (h : r.livenessMs ≤ Settings.longestLivenessMs) :
    r.ShowsExactly := by
  refine showsExactly_iff.mpr fun conn e now _ hlast hnow => ?_
  rw [isAlive_view hlast hnow, toInt_threshold_of_le h₀ h, Entry.IsAliveAt]

theorem le_later (last now : Instant) : now ≤ last.later now := by
  rw [Instant.later]
  split
  · exact Int64.le_refl _
  · rename_i hlt
    exact Int64.not_lt.mp hlt

/-- A connection that was just heard from is alive. -/
theorem isAlive_of_touch (h₀ : 0 < r.livenessMs) (h : r.livenessMs ≤ Settings.longestLivenessMs)
    (hnow : 0 ≤ now) (hc : (r.touch conn now).find conn now = .ok c) : c.isAlive = true := by
  obtain ⟨e, he, rfl⟩ := find_eq_ok_iff.mp hc
  rw [touch, Sharded.get?_modify, if_pos rfl, Option.map_eq_some_iff] at he
  have hlast : now ≤ e.lastHeard := by
    obtain ⟨e', -, rfl⟩ := he
    exact le_later _ _
  have hpos : 0 < r.livenessMs.toInt := by simpa using Int64.lt_iff_toInt_lt.mp h₀
  have hthreshold : (r.touch conn now).threshold.toInt = r.livenessMs.toInt * 1000000 :=
    toInt_threshold_of_le h₀ h
  rw [isAlive_view (Int64.le_trans hnow hlast) hnow, hthreshold]
  have hlast := Int64.le_iff_toInt_le.mp hlast
  omega

/-- A connection that is alive is so with a longer threshold. -/
theorem find_withLiveness {livenessMs : Int64} (h₀ : 0 < r.livenessMs)
    (hle : r.livenessMs ≤ livenessMs) (h : livenessMs ≤ Settings.longestLivenessMs)
    (hc : r.find conn now = .ok c) (halive : c.isAlive = true) :
    (r.withLiveness livenessMs).find conn now = .ok c := by
  obtain ⟨e, he, rfl⟩ := find_eq_ok_iff.mp hc
  have hthreshold : r.threshold ≤ (r.withLiveness livenessMs).threshold := by
    have hlong : (r.withLiveness livenessMs).threshold.toInt = livenessMs.toInt * 1000000 :=
      toInt_threshold_of_le (r := r.withLiveness livenessMs) (Int64.lt_of_lt_of_le h₀ hle) h
    rw [Int64.le_iff_toInt_le, toInt_threshold_of_le h₀ (Int64.le_trans hle h), hlong]
    have hle := Int64.le_iff_toInt_le.mp hle
    exact Int.mul_le_mul_of_nonneg_right hle (by decide)
  have hlonger : (r.withLiveness livenessMs).view conn e now = r.view conn e now := by
    have hlt : now - e.lastHeard < r.threshold := of_decide_eq_true halive
    have hlt' := Int64.lt_of_lt_of_le hlt hthreshold
    simp only [view, hlt, hlt', decide_true]
  rw [← hlonger]
  exact find_eq_ok_iff.mpr ⟨e, he, rfl⟩

/-! ### Thresholds of settings -/

/-- With a threshold that does not fit, a connection that was last heard from at the epoch is shown
wrong at the end of time. -/
theorem not_showsExactly_of_lt (h : Settings.longestLivenessMs < r.livenessMs)
    (he : r.entries.get? conn = some e) (hlast : e.lastHeard = 0) : ¬ r.ShowsExactly := by
  intro hexact
  have hview := showsExactly_iff.mp hexact conn e Int64.maxValue he (by rw [hlast]; decide)
    (by decide)
  rw [isAlive_view (by rw [hlast]; decide) (by decide), Entry.IsAliveAt, hlast] at hview
  have hmax := r.threshold.toInt_lt
  have hlt : (9223372036854 : Int) < r.livenessMs.toInt := Int64.lt_iff_toInt_lt.mp h
  have hend : Int64.maxValue.toInt - (0 : Int64).toInt = 9223372036854775807 := by decide
  rw [hend] at hview
  omega

/-- In an empty registry a connection can be registered at any time. -/
theorem get?_after_register {cursor : Cursor} {livenessMs : Int64} {hash : Bytes → Nat}
    {shards : Nat} (h : setup cursor livenessMs hash shards = .ok r) (hconn : conn ≠ [])
    (now : Instant) :
    (r.after [.register conn now]).entries.get? conn = some { lastHeard := now } := by
  rw [setup] at h
  split at h
  · cases h
    have hempty : conn.isEmpty = false := List.isEmpty_eq_false_iff.mpr hconn
    simp only [after, List.foldl_cons, List.foldl_nil, call, register, hempty, Sharded.contains,
      Sharded.get?_empty, keep]
    simp [Sharded.get?_insert]
  · cases h

/-- Settings that are accepted show connections as alive as their threshold says exactly if its
nanoseconds fit the word.  If they do, a connection that was just heard from is alive, and one that
is alive stays so when the threshold is raised as far as they fit. -/
theorem shows_exactly_iff {text : Bytes} {s : Settings} (hs : Settings.parse text = .ok s)
    {cursor : Cursor} {hash : Bytes → Nat} {shards : Nat} {r : Registry}
    (hr : setup cursor s.livenessMs hash shards = .ok r) :
    ((∀ calls, (r.after calls).ShowsExactly) ↔ s.livenessMs ≤ Settings.longestLivenessMs) ∧
      (s.livenessMs ≤ Settings.longestLivenessMs →
        ∀ calls conn now, 0 ≤ now → ∀ c, ((r.after calls).touch conn now).find conn now = .ok c →
          c.isAlive = true) ∧
      ∀ livenessMs, s.livenessMs ≤ livenessMs → livenessMs ≤ Settings.longestLivenessMs →
        ∃ longer, setup cursor livenessMs hash shards = .ok longer ∧
          ∀ calls conn now c, (r.after calls).find conn now = .ok c → c.isAlive = true →
            (longer.after calls).find conn now = .ok c := by
  have h₀ := Settings.livenessMs_pos hs
  have hms (calls : List Call) : (r.after calls).livenessMs = s.livenessMs :=
    (r.livenessMs_after calls).trans (setup_eq_ok hr s.livenessMs).1
  refine ⟨⟨fun hexact => ?_, fun hle calls => ?_⟩, fun hle calls conn now hnow c hc => ?_,
    fun livenessMs hle h => ⟨_, (setup_eq_ok hr livenessMs).2, fun calls conn now c hc halive => ?_⟩⟩
  · by_contra hlt
    -- what is registered at the epoch is shown wrong later
    have he := get?_after_register hr (List.cons_ne_nil 0x63 []) 0
    have hlt : Settings.longestLivenessMs < (r.after [.register [0x63] 0]).livenessMs := by
      rw [hms]
      exact Int64.not_le.mp hlt
    exact not_showsExactly_of_lt hlt he rfl (hexact _)
  · exact showsExactly_of_le ((hms calls).symm ▸ h₀) ((hms calls).symm ▸ hle)
  · exact isAlive_of_touch ((hms calls).symm ▸ h₀) ((hms calls).symm ▸ hle) hnow hc
  · rw [after_withLiveness]
    exact find_withLiveness ((hms calls).symm ▸ h₀) ((hms calls).symm ▸ hle) h hc halive

/-- A registry with the default threshold, and a connection that it has just heard from. -/
theorem default_shows_exactly :
    ∃ r, setup Cursor.plain ({} : Settings).livenessMs Sharded.spread 1 = .ok r ∧
      (∀ calls, (r.after calls).ShowsExactly) ∧
      ((r.after [.register (utf8 "c") 5]).touch (utf8 "c") 7).find (utf8 "c") 7 =
        .ok ⟨utf8 "c", none, 7, true⟩ := by
  have hs : Settings.parse (utf8 "\x7b\x7d") = .ok {} := rfl
  obtain ⟨r, hr⟩ : ∃ r, setup Cursor.plain ({} : Settings).livenessMs Sharded.spread 1 = .ok r :=
    ⟨_, rfl⟩
  have hexact := shows_exactly_iff hs hr
  refine ⟨r, hr, hexact.1.mpr (by decide), ?_⟩
  cases hr
  rfl

/-- A threshold of about 292 years is accepted, and a connection that was just registered is not
alive with it. -/
theorem just_registered_not_alive :
    let text := utf8 "\x7b\"livenessThresholdMs\":9223372036855\x7d"
    ∃ s r, Settings.parse text = .ok s ∧ setup Cursor.plain s.livenessMs Sharded.spread 1 = .ok r ∧
      (r.after [.register (utf8 "c") 0]).isAlive (utf8 "c") 0 = .ok false ∧
      Entry.IsAliveAt { lastHeard := 0 } s.livenessMs 0 :=
  ⟨{ livenessMs := 9223372036855 }, _, rfl, rfl, rfl, by decide⟩

end Registry

end FleetControl
