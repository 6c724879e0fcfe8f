import FleetControl.Proofs.Settings
import FleetControl.Startup

/-!
# Starting up — settings that are accepted can be set up

What the parts of a control plane ask of their parameters is checked once more as they are set up: a
secret of a certain length, at least one shard, at least one command to a reply.  Settings that are
accepted pass all of these checks (`Settings.InRange.exists_cursor`,
`Settings.InRange.exists_setup`), so a start with them never ends for a reason of its setup
(`begin_ne_badSetup`).

What is not accepted is refused, with a key that is named if the text is an object.  Only a text
with a number past the largest double ends the run unreported: it has no value, so no key of it is
checked (`accepted_settings_set_up`).
-/

namespace FleetControl

open Json (Spells)

variable {s : Settings} {host : Startup.Host}

/-! ### The parts -/

namespace Settings.InRange

/-- The secret of the settings is long enough, and so is a random one. -/
theorem exists_cursor (h : s.InRange) (hsecret : 16 ≤ host.secret.length) :
    ∃ cursor notices, Startup.cursor host s = .ok (cursor, notices) := by
  obtain ⟨secret, notices, hs, hlong⟩ :
      ∃ secret notices, Startup.secret host s = .ok (secret, notices) ∧ 16 ≤ secret.length := by
    rw [Startup.secret]
    by_cases hempty : s.cursorSecret.isEmpty = true
    · exact ⟨_, _, if_pos hempty, hsecret⟩
    · rw [if_neg hempty]
      rcases h.cursorSecret with hnil | ⟨secret, hdecode, hlong⟩
      · rw [hnil] at hempty
        exact absurd rfl hempty
      · exact ⟨secret, [], by rw [hdecode], hlong⟩
  obtain ⟨cursor, hcursor⟩ : ∃ cursor, Cursor.ofSecret secret = .ok cursor :=
    ⟨_, if_neg (Nat.not_lt.mpr hlong)⟩
  refine ⟨cursor, notices, ?_⟩
  simp only [Startup.cursor, hs, bind, Except.bind, hcursor]
  rfl

/-- Every part can be set up. -/
theorem exists_setup (h : s.InRange) (cursor : Cursor) :
    (∃ registry, Registry.setup cursor s.livenessMs Sharded.spread s.shardCount = .ok registry) ∧
      (∃ agents, AgentStore.setup cursor Sharded.spread s.shardCount = .ok agents) ∧
      (∃ log, CommandLog.setup cursor s.shardCount = .ok log) ∧
      ∀ store, ∃ f, Fleet.setup cursor (Startup.plan s) store = .ok f := by
  have hshards : 0 < s.shardCount := h.shardCount.1
  have hmost : 0 < s.maxCommandsPerReply := UInt64.lt_iff_toNat_lt.mpr h.maxCommandsPerReply.1
  obtain ⟨registry, hregistry⟩ : ∃ registry,
    Registry.setup cursor s.livenessMs Sharded.spread s.shardCount = .ok registry :=
    ⟨_, dif_pos hshards⟩
  obtain ⟨agents, hagents⟩ : ∃ agents,
    AgentStore.setup cursor Sharded.spread s.shardCount = .ok agents := ⟨_, dif_pos hshards⟩
  refine ⟨⟨registry, hregistry⟩, ⟨agents, hagents⟩, ⟨_, if_pos hshards⟩, fun store => ?_⟩
  simp only [Fleet.setup, Startup.plan, hregistry, hagents]
  exact ⟨_, dif_pos hmost⟩

end Settings.InRange

namespace Startup

theorem assemble_ne_badSetup (h : s.InRange) (cursor : Cursor) (log : CommandLog)
    (cause : SetupError) : assemble host s cursor log ≠ .error (.badSetup cause) := by
  obtain ⟨-, -, -, hsetup⟩ := h.exists_setup cursor
  obtain ⟨f, hf⟩ := hsetup { log, ids := host.ids }
  rw [assemble, hf]
  cases Server.start {} s.listenAddress <;> exact nofun

theorem begin_ne_badSetup (h : s.InRange) (hsecret : 16 ≤ host.secret.length) (cause : SetupError) :
    (begin host s).result ≠ .error (.badSetup cause) := by
  obtain ⟨cursor, notices, hcursor⟩ := h.exists_cursor hsecret
  obtain ⟨-, -, ⟨log, hlog⟩, -⟩ := h.exists_setup cursor
  simp only [begin, hcursor, hlog]
  cases s.journalPath with
  | none => exact assemble_ne_badSetup h cursor log cause
  | some path =>
      dsimp only
      split
      · exact nofun
      · exact assemble_ne_badSetup h cursor _ cause

/-! ### Accepted and refused -/

/-- Settings that are accepted are those of the document, number for number, and in range, and with
a random source that works every part can be set up with them.  A document with a value that its key
cannot have is refused, and a key with such a value is named, whatever the other keys have.  A text
with a number past the largest double is no document, and it is the one thing that is neither
accepted nor refused.  The digits of a number of 64 bits stand for that number. -/
theorem accepted_settings_set_up (text : Bytes) :
    (∀ s, Settings.parse text = .ok s →
      (∃ doc, Json.parse text = .ok doc ∧ doc.isObject = true ∧ s.IsOf doc) ∧ s.InRange ∧
      Severity.ofName? s.logLevel.name = some s.logLevel ∧
      ∀ host : Host, 16 ≤ host.secret.length →
        (∃ cursor notices, Startup.cursor host s = .ok (cursor, notices)) ∧
        (∀ cursor,
          (∃ registry,
            Registry.setup cursor s.livenessMs Sharded.spread s.shardCount = .ok registry) ∧
          (∃ agents, AgentStore.setup cursor Sharded.spread s.shardCount = .ok agents) ∧
          (∃ log, CommandLog.setup cursor s.shardCount = .ok log) ∧
          ∀ store, ∃ f, Fleet.setup cursor (plan s) store = .ok f) ∧
        ∀ cause, (begin host s).result ≠ .error (.badSetup cause)) ∧
    (∀ doc, Json.parse text = .ok doc → ∀ (key : Settings.Key) v,
      doc.get? key.name = some v → ¬ key.Admits v →
        ∃ (cause : Settings.Refusal) (key : Settings.Key) (v : Json),
          Settings.parse text = .error (.refused cause) ∧
          doc.get? key.name = some v ∧ ¬ key.Admits v ∧
          (cause = .bad key ∨ key = .cursorSecret ∧ cause = .secretNotText)) ∧
    (Settings.parse text = .error .overflow ↔ Json.parse text = .error .tooLarge) ∧
    ∀ z : ℤ, -2 ^ 63 ≤ z → z < 2 ^ 64 → ∃ v, Spells (Decimal.ofInt z) v ∧ v.whole? = some z := by
  refine ⟨fun s h => ?_, fun doc hdoc key v hv hno => Settings.refused_of_parse hdoc hv hno,
    Settings.parse_eq_overflow_iff, fun z hmin hmax => Json.spells_whole hmin hmax⟩
  obtain ⟨doc, hdoc, ho, hs⟩ := Settings.isOf_of_parse h
  have hrange := hs.inRange
  refine ⟨⟨doc, hdoc, ho, hs⟩, hrange, ?_, fun host hsecret => ⟨hrange.exists_cursor hsecret,
    hrange.exists_setup, begin_ne_badSetup hrange hsecret⟩⟩
  cases s.logLevel <;> rfl

/-- A host without files. -/
def bareHost : Host where
  entryAt _ := .nothing
  secret := List.replicate 32 0
  ids := { idAt := fun n => [UInt8.ofNat n] }

/-- Settings with the smallest port, the most shards and the shortest secret. -/
def edgeSettings : Settings where
  listenPort := 0
  shardCount := 4096
  cursorSecret := utf8 "0123456789abcdef0123456789ABCDEF"

/-- The text that gives these settings. -/
def edgeText : Bytes := utf8 ("\x7b\"listenPort\":0,\"shardCount\":4096," ++
  "\"cursorSecret\":\"0123456789abcdef0123456789ABCDEF\"\x7d")

/-- They can be set up, and one port further is refused. -/
theorem edge_settings_set_up :
    let port := utf8 "\x7b\"listenPort\":65536,\"shardCount\":4096\x7d"
    Settings.parse edgeText = .ok edgeSettings ∧ edgeSettings.InRange ∧
      (∀ cause, (begin bareHost edgeSettings).result ≠ .error (.badSetup cause)) ∧
      (∃ cause, Settings.parse port = .error (.refused cause)) ∧
      ∃ v, Spells (Decimal.ofInt 18446744073709551615) v ∧
        v.whole? = some 18446744073709551615 := by
  intro port
  obtain ⟨haccepted, -, -, hliteral⟩ := accepted_settings_set_up edgeText
  obtain ⟨-, hrefused, -⟩ := accepted_settings_set_up port
  have hparse : Settings.parse edgeText = .ok edgeSettings := by decide +kernel
  obtain ⟨-, hrange, -, hstart⟩ := haccepted edgeSettings hparse
  have hdoc : Json.parse port = .ok (.obj [(utf8 "listenPort", .unsigned 65536),
    (utf8 "shardCount", .unsigned 4096)]) := rfl
  have hno : ¬ Settings.Key.listenPort.Admits (.unsigned 65536) := by
    rintro ⟨s, hs⟩
    have hport := s.listenPort.toNat_lt
    have hsays : (65536 : ℤ) = s.listenPort.toNat := Option.some.inj hs
    omega
  obtain ⟨cause, -, -, hcause, -⟩ := hrefused _ hdoc .listenPort _ rfl hno
  exact ⟨hparse, hrange, (hstart bareHost (by decide)).2.2, ⟨cause, hcause⟩,
    hliteral _ (by decide) (by decide)⟩

theorem port_out_of_range_overflows :
    Settings.parse (utf8 "\x7b\"listenPort\":70000,\"note\":1\x7d") =
        .error (.refused (.bad .listenPort)) ∧
      Settings.parse (utf8 "\x7b\"listenPort\":70000,\"note\":1e999\x7d") = .error .overflow ∧
      Settings.Failure.overflow.fault? = none := by
  refine ⟨by decide +kernel, by decide +kernel, rfl⟩

end Startup

end FleetControl
