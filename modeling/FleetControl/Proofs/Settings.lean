import FleetControl.Proofs.Json.Whole
import FleetControl.Proofs.Result
import FleetControl.Settings

/-!
# Settings — what a document says

What the value of a key says is stated for each key on its own (`Key.Says`), with whole numbers for
the keys that are numbers: no word stands between the number in the document and its range.
Settings are those of a document (`IsOf`) if every key that is there says what they hold and every
other has its default.

What is read of a document are its settings (`isOf_of_ofJson`).  A document is refused exactly if it
is no object or a key has a value that says nothing, and then a key with such a value is named
(`bad_key_of_error`), so no key can make up for another (`accepted_iff`).
-/

namespace FleetControl.Settings

variable {doc v : Json} {s : Settings} {key : Key} {cause : Refusal} {n : Int64}

/-! ### What keys say -/

/-- The value of a key says what the settings hold. -/
def Key.Says : Key → Json → Settings → Prop
  | .listenAddress, v, s => v = .str s.listenAddress ∧ s.listenAddress ≠ []
  | .listenPort, v, s => v.whole? = some (s.listenPort.toNat : ℤ)
  | .livenessMs, v, s => v.whole? = some s.livenessMs.toInt ∧ 0 < s.livenessMs.toInt
  | .maxCommandsPerReply, v, s => v.whole? = some (s.maxCommandsPerReply.toNat : ℤ) ∧
      0 < s.maxCommandsPerReply.toNat ∧ s.maxCommandsPerReply.toNat < 2 ^ 63
  | .shardCount, v, s => v.whole? = some (s.shardCount : ℤ) ∧ 1 ≤ s.shardCount ∧ s.shardCount ≤ 4096
  | .cursorSecret, v, s => v = .str s.cursorSecret ∧
      ∃ secret, Hex.decode s.cursorSecret = .ok secret ∧ 16 ≤ secret.length
  | .journalPath, v, s => (v = .null ∧ s.journalPath = none) ∨
      ∃ path, v = .str path ∧ path ≠ [] ∧ s.journalPath = some path
  | .logLevel, v, s => ∃ name, v = .str name ∧ Severity.ofName? name = some s.logLevel

/-- The settings hold the default for a key. -/
def Key.IsDefault : Key → Settings → Prop
  | .listenAddress, s => s.listenAddress = utf8 "0.0.0.0"
  | .listenPort, s => s.listenPort = 4320
  | .livenessMs, s => s.livenessMs = 60000
  | .maxCommandsPerReply, s => s.maxCommandsPerReply = 16
  | .shardCount, s => s.shardCount = 16
  | .cursorSecret, s => s.cursorSecret = []
  | .journalPath, s => s.journalPath = none
  | .logLevel, s => s.logLevel = .info

/-- A value that a key can have. -/
def Key.Admits (key : Key) (v : Json) : Prop := ∃ s, key.Says v s

/-- Settings are those of a document. -/
def IsOf (s : Settings) (doc : Json) : Prop :=
  ∀ key : Key, (doc.get? key.name = none ∧ key.IsDefault s) ∨
    ∃ v, doc.get? key.name = some v ∧ key.Says v s

/-! ### Values that are read -/

/-- A text setting has to be a string that is not empty. -/
theorem readText_eq_some_iff {t : Bytes} : readText v = some t ↔ v = .str t ∧ t ≠ [] := by
  cases v with
  | str s =>
      rw [readText, Json.str?, Option.filter_some]
      by_cases hs : s = []
      · subst hs; simp
      · simp [hs]; rintro rfl; exact hs
  | null | bool | unsigned | signed | double | arr | obj => simp [readText, Json.str?]

/-- What is read as a signed word in a range that begins at zero or later is the number itself. -/
theorem readInt_eq_some_iff {lo hi : Int64} (hlo : 0 ≤ lo) :
    readInt lo hi v = some n ↔
      v.whole? = some n.toInt ∧ lo.toInt ≤ n.toInt ∧ n.toInt ≤ hi.toInt := by
  rw [readInt, Option.filter_eq_some_iff, Bool.and_eq_true, decide_eq_true_eq, decide_eq_true_eq,
    Int64.le_iff_toInt_le, Int64.le_iff_toInt_le]
  constructor
  · rintro ⟨hn, hrange⟩
    have hnonneg : 0 ≤ n := Int64.le_trans hlo (Int64.le_iff_toInt_le.mpr hrange.1)
    exact ⟨(Json.int64?_eq_some_iff hnonneg).mp hn, hrange⟩
  · rintro ⟨hn, hrange⟩
    have hnonneg : 0 ≤ n := Int64.le_trans hlo (Int64.le_iff_toInt_le.mpr hrange.1)
    exact ⟨(Json.int64?_eq_some_iff hnonneg).mpr hn, hrange⟩

theorem exists_toInt_eq {m : ℕ} (h : m < 2 ^ 63) : ∃ n : Int64, n.toInt = m :=
  ⟨Int64.ofInt m, (Json.toInt_ofInt_eq_iff (by omega) (by omega)).mpr (by omega)⟩

theorem toNat_toUInt64 (h : 0 ≤ n.toInt) : (n.toUInt64.toNat : ℤ) = n.toInt := by
  rw [Int64.toNat_toUInt64_of_le (Int64.le_iff_toInt_le.mpr h), ← Int64.toNat_toInt,
    Int.toNat_of_nonneg h]

/-- A number that is read and kept as something else is kept as what stands for it. -/
theorem readInt_map_eq_some_iff {α : Type} {lo hi : Int64} (hlo : 0 ≤ lo) {keep : Int64 → α} {a : α}
    {m : ℕ} (hkeep : ∀ n : Int64, lo.toInt ≤ n.toInt → n.toInt ≤ hi.toInt →
      (keep n = a ↔ n.toInt = m)) :
    (readInt lo hi v).map keep = some a ↔
      v.whole? = some (m : ℤ) ∧ lo.toInt ≤ m ∧ (m : ℤ) ≤ hi.toInt := by
  rw [Option.map_eq_some_iff]
  constructor
  · rintro ⟨n, hn, ha⟩
    obtain ⟨hw, hmin, hmax⟩ := (readInt_eq_some_iff hlo).mp hn
    rw [← (hkeep n hmin hmax).mp ha]
    exact ⟨hw, hmin, hmax⟩
  · rintro ⟨hw, hmin, hmax⟩
    have hword := hi.toInt_lt
    obtain ⟨n, hn⟩ := exists_toInt_eq (m := m) (by omega)
    rw [← hn] at hw hmin hmax
    exact ⟨n, (readInt_eq_some_iff hlo).mpr ⟨hw, hmin, hmax⟩, (hkeep n hmin hmax).mpr hn⟩

/-- A port is any whole number of sixteen bits. -/
theorem readPort_eq_some_iff {port : UInt16} :
    ((readInt 0 65535 v).map fun n => n.toUInt64.toUInt16) = some port ↔
      v.whole? = some (port.toNat : ℤ) := by
  have hport : port.toNat < 65536 := port.toNat_lt
  have hmin : (0 : Int64).toInt = 0 := rfl
  have hmax : (65535 : Int64).toInt = 65535 := rfl
  rw [readInt_map_eq_some_iff (m := port.toNat) (by decide) fun n h₀ h₁ => ?_]
  · exact and_iff_left ⟨by omega, by omega⟩
  · have hword := toNat_toUInt64 (hmin ▸ h₀)
    rw [← UInt16.toNat_inj, UInt64.toNat_toUInt16]
    omega

/-- A time of liveness is any positive number of milliseconds that fits a signed word. -/
theorem readLiveness_eq_some_iff :
    readInt 1 Int64.maxValue v = some n ↔ v.whole? = some n.toInt ∧ 0 < n.toInt := by
  have hmin : (1 : Int64).toInt = 1 := rfl
  have hmax : Int64.maxValue.toInt = 2 ^ 63 - 1 := rfl
  have hword := n.toInt_lt
  rw [readInt_eq_some_iff (by decide)]
  refine and_congr_right fun _ => ?_
  omega

/-- A count is any positive number that fits a signed word. -/
theorem readCount_eq_some_iff {count : UInt64} :
    (readInt 1 Int64.maxValue v).map (·.toUInt64) = some count ↔
      v.whole? = some (count.toNat : ℤ) ∧ 0 < count.toNat ∧ count.toNat < 2 ^ 63 := by
  have hmin : (1 : Int64).toInt = 1 := rfl
  have hmax : Int64.maxValue.toInt = 2 ^ 63 - 1 := rfl
  rw [readInt_map_eq_some_iff (m := count.toNat) (by decide) fun n h₀ h₁ => ?_]
  · refine and_congr_right fun _ => ?_
    omega
  · have hword := toNat_toUInt64 (n := n) (by omega)
    rw [← UInt64.toNat_inj]
    omega

/-- The shards are at least one and at most 4096. -/
theorem readShards_eq_some_iff {shards : ℕ} :
    (readInt 1 4096 v).map (·.toNatClampNeg) = some shards ↔
      v.whole? = some (shards : ℤ) ∧ 1 ≤ shards ∧ shards ≤ 4096 := by
  have hmin : (1 : Int64).toInt = 1 := rfl
  have hmax : (4096 : Int64).toInt = 4096 := rfl
  rw [readInt_map_eq_some_iff (m := shards) (by decide) fun n h₀ h₁ => ?_]
  · refine and_congr_right fun _ => ?_
    omega
  · rw [← Int64.toNat_toInt]
    omega

/-- A secret is hexadecimal and has at least 16 bytes. -/
theorem readSecret_eq_some_iff {t : Bytes} : readSecret v = some t ↔
    v = .str t ∧ ∃ secret, Hex.decode t = .ok secret ∧ 16 ≤ secret.length := by
  have htext : v.str? = some t ↔ v = .str t := by cases v <;> simp [Json.str?]
  rw [readSecret, Option.filter_eq_some_iff, htext]
  refine and_congr_right fun _ => ?_
  cases Hex.decode t with
  | error => simp
  | ok secret =>
      constructor
      · intro h
        exact ⟨secret, rfl, of_decide_eq_true h⟩
      · rintro ⟨_, ⟨⟩, h⟩
        exact decide_eq_true h

/-- A path is absent or a string that is not empty. -/
theorem readPath_eq_some_iff {path : Option Bytes} : readPath v = some path ↔
    (v = .null ∧ path = none) ∨ ∃ p, v = .str p ∧ p ≠ [] ∧ path = some p := by
  rw [readPath]
  by_cases hnull : v.isNull = true
  · obtain rfl : v = .null := by cases v <;> first | rfl | cases hnull
    simp [Json.isNull, eq_comm]
  · have hne : v ≠ .null := by rintro rfl; exact hnull rfl
    rw [if_neg hnull, Option.map_eq_some_iff, or_iff_right fun h => hne h.1]
    refine exists_congr fun p => ?_
    rw [readText_eq_some_iff, and_assoc, eq_comm (a := some p)]

/-- A level has to be one of the names. -/
theorem readLevel_eq_some_iff {level : Severity} : v.str?.bind Severity.ofName? = some level ↔
    ∃ name, v = .str name ∧ Severity.ofName? name = some level := by
  cases v <;> simp [Json.str?]

/-! ### What is read of a document -/

/-- A setting is what the value of its key is read as, or the default. -/
theorem setting_eq_ok_iff {α : Type} {default a : α} {read : Json → Option α} :
    setting doc key default read = .ok a ↔
      (doc.get? key.name = none ∧ a = default) ∨
        ∃ v, doc.get? key.name = some v ∧ read v = some a := by
  rw [setting]
  cases doc.get? key.name with
  | none => simp [eq_comm]
  | some v => cases hr : read v <;> simp [hr]

/-- A key is refused for a value that says nothing. -/
theorem bad_of_setting {α : Type} {default : α} {read : Json → Option α}
    (h : setting doc key default read = .error cause)
    (hread : ∀ v s, key.Says v s → ∃ a, read v = some a) :
    ∃ v, doc.get? key.name = some v ∧ ¬ key.Admits v ∧ cause = .bad key := by
  rw [setting] at h
  split at h
  · cases h
  · rename_i v hv
    split at h
    · cases h
    · rename_i hnone
      cases h
      refine ⟨v, hv, fun ⟨s, hs⟩ => ?_, rfl⟩
      obtain ⟨a, ha⟩ := hread v s hs
      rw [hnone] at ha
      cases ha

/-- Settings that are accepted are those of their document. -/
theorem isOf_of_ofJson (h : ofJson doc = .ok s) : s.IsOf doc := by
  rw [ofJson] at h
  split at h
  · cases h
  obtain ⟨listenAddress, haddress, h⟩ := exists_of_bind_eq_ok h
  obtain ⟨listenPort, hport, h⟩ := exists_of_bind_eq_ok h
  obtain ⟨livenessMs, hliveness, h⟩ := exists_of_bind_eq_ok h
  obtain ⟨maxCommandsPerReply, hmost, h⟩ := exists_of_bind_eq_ok h
  obtain ⟨shardCount, hshards, h⟩ := exists_of_bind_eq_ok h
  split at h
  · cases h
  obtain ⟨cursorSecret, hsecret, h⟩ := exists_of_bind_eq_ok h
  obtain ⟨journalPath, hpath, h⟩ := exists_of_bind_eq_ok h
  obtain ⟨logLevel, hlevel, h⟩ := exists_of_bind_eq_ok h
  cases h
  intro key
  cases key with
  | listenAddress =>
      refine (setting_eq_ok_iff.mp haddress).imp_right fun ⟨v, hv, hr⟩ => ⟨v, hv, ?_⟩
      exact readText_eq_some_iff.mp hr
  | listenPort =>
      refine (setting_eq_ok_iff.mp hport).imp_right fun ⟨v, hv, hr⟩ => ⟨v, hv, ?_⟩
      exact readPort_eq_some_iff.mp hr
  | livenessMs =>
      refine (setting_eq_ok_iff.mp hliveness).imp_right fun ⟨v, hv, hr⟩ => ⟨v, hv, ?_⟩
      exact readLiveness_eq_some_iff.mp hr
  | maxCommandsPerReply =>
      refine (setting_eq_ok_iff.mp hmost).imp_right fun ⟨v, hv, hr⟩ => ⟨v, hv, ?_⟩
      exact readCount_eq_some_iff.mp hr
  | shardCount =>
      refine (setting_eq_ok_iff.mp hshards).imp_right fun ⟨v, hv, hr⟩ => ⟨v, hv, ?_⟩
      exact readShards_eq_some_iff.mp hr
  | cursorSecret =>
      refine (setting_eq_ok_iff.mp hsecret).imp_right fun ⟨v, hv, hr⟩ => ⟨v, hv, ?_⟩
      exact readSecret_eq_some_iff.mp hr
  | journalPath =>
      refine (setting_eq_ok_iff.mp hpath).imp_right fun ⟨v, hv, hr⟩ => ⟨v, hv, ?_⟩
      exact readPath_eq_some_iff.mp hr
  | logLevel =>
      refine (setting_eq_ok_iff.mp hlevel).imp_right fun ⟨v, hv, hr⟩ => ⟨v, hv, ?_⟩
      exact readLevel_eq_some_iff.mp hr

/-- A document is refused because it is no object, or because of a key with a value that says
nothing, which is named. -/
theorem bad_key_of_error (h : ofJson doc = .error cause) :
    (doc.isObject = false ∧ cause = .notObject) ∨
      ∃ (key : Key) (v : Json), doc.get? key.name = some v ∧ ¬ key.Admits v ∧
        (cause = .bad key ∨ key = .cursorSecret ∧ cause = .secretNotText) := by
  have hbad {α : Type} {key : Key} {default : α} {read : Json → Option α}
      (h : setting doc key default read = .error cause)
      (hread : ∀ v s, key.Says v s → ∃ a, read v = some a) :
      ∃ (key : Key) (v : Json), doc.get? key.name = some v ∧ ¬ key.Admits v ∧
        (cause = .bad key ∨ key = .cursorSecret ∧ cause = .secretNotText) := by
    obtain ⟨v, hv, hno, hcause⟩ := bad_of_setting h hread
    exact ⟨key, v, hv, hno, .inl hcause⟩
  rw [ofJson] at h
  split at h
  · rename_i ho
    cases h
    exact .inl ⟨by simpa using ho, rfl⟩
  refine .inr ?_
  rcases cases_of_bind_eq_error h with h | ⟨_, _, h⟩
  · exact hbad h fun v s hs => ⟨_, readText_eq_some_iff.mpr hs⟩
  rcases cases_of_bind_eq_error h with h | ⟨_, _, h⟩
  · exact hbad h fun v s hs => ⟨_, readPort_eq_some_iff.mpr hs⟩
  rcases cases_of_bind_eq_error h with h | ⟨_, _, h⟩
  · exact hbad h fun v s hs => ⟨_, readLiveness_eq_some_iff.mpr hs⟩
  rcases cases_of_bind_eq_error h with h | ⟨_, _, h⟩
  · exact hbad h fun v s hs => ⟨_, readCount_eq_some_iff.mpr hs⟩
  rcases cases_of_bind_eq_error h with h | ⟨_, _, h⟩
  · exact hbad h fun v s hs => ⟨_, readShards_eq_some_iff.mpr hs⟩
  split at h
  · -- a secret that is no text is found before what it decodes to is looked at
    rename_i hsecret
    cases h
    cases hv : doc.get? Key.cursorSecret.name with
    | none => rw [hv] at hsecret; cases hsecret
    | some v =>
        rw [hv] at hsecret
        refine ⟨.cursorSecret, v, hv, ?_, .inr ⟨rfl, rfl⟩⟩
        rintro ⟨s, rfl, -⟩
        cases hsecret
  rcases cases_of_bind_eq_error h with h | ⟨_, _, h⟩
  · exact hbad h fun v s hs => ⟨_, readSecret_eq_some_iff.mpr hs⟩
  rcases cases_of_bind_eq_error h with h | ⟨_, _, h⟩
  · exact hbad h fun v s hs => ⟨_, readPath_eq_some_iff.mpr hs⟩
  rcases cases_of_bind_eq_error h with h | ⟨_, _, h⟩
  · exact hbad h fun v s hs => ⟨_, readLevel_eq_some_iff.mpr hs⟩
  cases h

theorem isObject_of_get? {name : Bytes} (h : doc.get? name = some v) : doc.isObject = true := by
  cases doc with
  | obj => rfl
  | null | bool | unsigned | signed | double | str | arr => cases h

/-- Settings have to be an object. -/
theorem isObject_of_ofJson (h : ofJson doc = .ok s) : doc.isObject = true := by
  rw [ofJson] at h
  split at h
  · cases h
  · rename_i ho
    simpa using ho

/-- A document is accepted exactly if it is an object and every key that is there has a value that
it can have. -/
theorem accepted_iff : (∃ s, ofJson doc = .ok s) ↔
    doc.isObject = true ∧ ∀ (key : Key) v, doc.get? key.name = some v → key.Admits v := by
  constructor
  · rintro ⟨s, hs⟩
    refine ⟨isObject_of_ofJson hs, fun key v hv => ?_⟩
    rcases isOf_of_ofJson hs key with ⟨hnone, -⟩ | ⟨v', hv', hsays⟩
    · rw [hv] at hnone
      cases hnone
    · cases hv.symm.trans hv'
      exact ⟨s, hsays⟩
  · rintro ⟨ho, hall⟩
    cases hs : ofJson doc with
    | ok s => exact ⟨s, rfl⟩
    | error cause =>
        rcases bad_key_of_error hs with ⟨hno, -⟩ | ⟨key, v, hv, hno, -⟩
        · rw [ho] at hno
          cases hno
        · exact absurd (hall key v hv) hno

/-! ### What is read of a text -/

variable {text : Bytes}

/-- Settings that are accepted are those of the text. -/
theorem isOf_of_parse (h : parse text = .ok s) :
    ∃ doc, Json.parse text = .ok doc ∧ doc.isObject = true ∧ s.IsOf doc := by
  rw [parse] at h
  split at h
  · cases h
  · cases h
  · rename_i doc hdoc
    cases hs : ofJson doc with
    | error => rw [hs] at h; cases h
    | ok s' =>
        rw [hs] at h
        cases h
        exact ⟨doc, hdoc, isObject_of_ofJson hs, isOf_of_ofJson hs⟩

/-- A text without a value for one of its numbers is the one thing that is not refused. -/
theorem parse_eq_overflow_iff :
    parse text = .error .overflow ↔ Json.parse text = .error .tooLarge := by
  rw [parse]
  split
  · rename_i h; simp [h]
  · rename_i h; simp [h]
  · rename_i doc h
    rw [h]
    cases ofJson doc <;> simp [Except.mapError]

/-- A document with a value that says nothing is refused, and such a value is named. -/
theorem refused_of_parse (hdoc : Json.parse text = .ok doc) (hv : doc.get? key.name = some v)
    (hno : ¬ key.Admits v) :
    ∃ (cause : Refusal) (key : Key) (v : Json), parse text = .error (.refused cause) ∧
      doc.get? key.name = some v ∧ ¬ key.Admits v ∧
      (cause = .bad key ∨ key = .cursorSecret ∧ cause = .secretNotText) := by
  cases hs : ofJson doc with
  | ok s => exact absurd ((accepted_iff.mp ⟨s, hs⟩).2 key v hv) hno
  | error cause =>
      have hparse : parse text = .error (.refused cause) := by
        simp only [parse, hdoc, hs]
        rfl
      rcases bad_key_of_error hs with ⟨ho, -⟩ | ⟨key', v', hv', hno', hcause⟩
      · rw [isObject_of_get? hv] at ho
        cases ho
      · exact ⟨cause, key', v', hparse, hv', hno', hcause⟩

/-! ### Ranges -/

/-- Settings in the ranges that their keys ask for. -/
structure InRange (s : Settings) : Prop where
  livenessMs : 0 < s.livenessMs.toInt
  maxCommandsPerReply : 0 < s.maxCommandsPerReply.toNat ∧ s.maxCommandsPerReply.toNat < 2 ^ 63
  shardCount : 1 ≤ s.shardCount ∧ s.shardCount ≤ 4096
  cursorSecret : s.cursorSecret = [] ∨
    ∃ secret, Hex.decode s.cursorSecret = .ok secret ∧ 16 ≤ secret.length

/-- The defaults are in range too. -/
theorem IsOf.inRange (h : s.IsOf doc) : s.InRange := by
  constructor
  · rcases h .livenessMs with ⟨-, hdefault⟩ | ⟨v, -, -, hpos⟩
    · rw [hdefault]
      decide
    · exact hpos
  · rcases h .maxCommandsPerReply with ⟨-, hdefault⟩ | ⟨v, -, -, hrange⟩
    · rw [hdefault]
      decide
    · exact hrange
  · rcases h .shardCount with ⟨-, hdefault⟩ | ⟨v, -, -, hrange⟩
    · rw [hdefault]
      decide
    · exact hrange
  · rcases h .cursorSecret with ⟨-, hdefault⟩ | ⟨v, -, -, hsecret⟩
    · exact .inl hdefault
    · exact .inr hsecret

end FleetControl.Settings
