import FleetControl.Proofs.Json.Object
import FleetControl.Proofs.Json.Reader

/-!
# Values that are read — what a reader makes

A reader makes values of a few forms only (`Made`): texts that are well-formed, what number literals
stand for, and arrays and objects of such values.  The scanner lets no ill-formed text through
(`Scanner.Sound.step`) and the reader only puts together what it is given (`Reader.Sound.step`), so
whatever bytes are read, all text in the value is well-formed (`isText_of_parse?`).
-/

namespace FleetControl.Json

/-- The values that a reader makes. -/
inductive Made : Json → Prop where
  | null : Made .null
  | bool (b : Bool) : Made (.bool b)
  | number {literal : Bytes} {v : Json} (h : ofLiteral literal = some v) : Made v
  | str {s : Bytes} (h : Utf8.valid s = true) : Made (.str s)
  | arr {items : List Json} (h : ∀ v ∈ items, Made v) : Made (.arr items)
  | object {members : List (Bytes × Json)} (hkeys : ∀ e ∈ members, Utf8.valid e.1 = true)
      (h : ∀ e ∈ members, Made e.2) : Made (object members)

/-! ### Tokens -/

/-- A token out of which values are made. -/
def Token.Sound : Token → Prop
  | .text s => Utf8.valid s = true
  | .word v => Made v
  | _ => True

/-- A mode that completes such a value if it is in a word. -/
def Mode.Sound : Mode → Prop
  | .word _ value => Made value
  | _ => True

/-- A scanner that has completed such tokens, and goes on to such ones. -/
structure Scanner.Sound (s : Scanner) : Prop where
  tokens : ∀ t ∈ s.tokens, t.Sound
  mode : s.mode.Sound

theorem Scanner.sound_mark {b : UInt8} {m : Token} (h : mark? b = some m) : m.Sound := by
  simp only [mark?] at h
  split_ifs at h <;> (cases h; trivial)

theorem Scanner.sound_beginMode (b : UInt8) : (beginMode b).Sound := by
  rw [beginMode]
  split_ifs
  any_goals trivial
  · exact .bool true
  · exact .bool false
  · exact .null

theorem Scanner.sound_begin {tokens : List Token} (h : ∀ t ∈ tokens, t.Sound) (b : UInt8) :
    (begin tokens b).Sound := by
  rw [begin]
  cases hm : mark? b with
  | none => exact ⟨h, sound_beginMode b⟩
  | some m => exact ⟨List.forall_mem_cons.mpr ⟨sound_mark hm, h⟩, trivial⟩

/-- A scanner that goes on in another mode. -/
theorem Scanner.Sound.with {s : Scanner} (h : s.Sound) {mode : Mode} (hmode : mode.Sound) :
    Sound { s with mode } :=
  ⟨h.tokens, hmode⟩

theorem Scanner.sound_closeUnit (read : Bytes) (high : Option Nat) (unit : Nat) :
    (closeUnit read high unit).Sound := by
  cases high <;> (simp only [closeUnit]; split_ifs <;> trivial)

theorem Scanner.Sound.step {s : Scanner} (h : s.Sound) (b : UInt8) : (s.step b).Sound := by
  obtain ⟨mode, tokens⟩ := s
  cases mode with
  | blank => exact sound_begin h.tokens b
  | word rest value =>
      have hvalue : Made value := h.mode
      cases rest with
      | nil => exact h.with trivial
      | cons c rest =>
          simp only [Scanner.step]
          split
          · exact h.with trivial
          · split
            · exact ⟨List.forall_mem_cons.mpr ⟨hvalue, h.tokens⟩, trivial⟩
            · exact h.with hvalue
  | number phase read =>
      simp only [Scanner.step]
      cases phase.next b with
      | some phase => exact h.with trivial
      | none =>
          simp only
          split
          · have hnumber : (Token.number read.reverse).Sound := trivial
            exact sound_begin (List.forall_mem_cons.mpr ⟨hnumber, h.tokens⟩) b
          · exact h.with trivial
  | text read =>
      simp only [Scanner.step]
      split
      · -- the end of a text, which is looked at as a whole
        split
        · rename_i hvalid
          exact ⟨List.forall_mem_cons.mpr ⟨hvalid, h.tokens⟩, trivial⟩
        · exact h.with trivial
      · split
        · exact h.with trivial
        · split <;> exact h.with trivial
  | escape read =>
      simp only [Scanner.step]
      split
      · exact h.with trivial
      · cases unescape b <;> exact h.with trivial
  | unit read high left value =>
      simp only [Scanner.step]
      cases hexValue b with
      | none => exact h.with trivial
      | some v =>
          simp only
          split
          · exact h.with trivial
          · exact h.with (sound_closeUnit _ _ _)
  | afterHigh read high | afterHighEscape read high =>
      simp only [Scanner.step]
      split <;> exact h.with trivial
  | stuck => exact h

theorem Scanner.Sound.foldl {s : Scanner} (h : s.Sound) (text : Bytes) :
    (text.foldl Scanner.step s).Sound := by
  induction text generalizing s with
  | nil => exact h
  | cons b rest ih => exact ih (h.step b)

/-- The tokens of a text are such tokens. -/
theorem sound_of_mem_scan {text : Bytes} {t : Token} (h : t ∈ (scan text).tokens) : t.Sound := by
  have hstart : Scanner.start.Sound := ⟨List.forall_mem_nil _, trivial⟩
  have hsound := (hstart.foldl text).tokens
  rw [scan, Scanner.finish] at h
  split at h
  · exact hsound t (List.mem_reverse.mp h)
  · split at h
    · rcases List.mem_cons.mp (List.mem_reverse.mp h) with rfl | h
      · trivial
      · exact hsound t h
    · exact hsound t (List.mem_reverse.mp h)
  · exact hsound t (List.mem_reverse.mp h)

/-! ### Values -/

/-- Members out of which an object is made. -/
def SoundMembers (members : List (Bytes × Json)) : Prop :=
  ∀ e ∈ members, Utf8.valid e.1 = true ∧ Made e.2

def Frame.Sound : Frame → Prop
  | .array before => ∀ v ∈ before, Made v
  | .object before name => SoundMembers before ∧ Utf8.valid name = true

/-- A reader that holds nothing but what values are made of. -/
def Reader.Sound : Reader → Prop
  | .value stack | .itemOrEnd stack | .keyOrEnd stack => ∀ f ∈ stack, f.Sound
  | .key before stack => SoundMembers before ∧ ∀ f ∈ stack, f.Sound
  | .colon before name stack =>
    SoundMembers before ∧ Utf8.valid name = true ∧ ∀ f ∈ stack, f.Sound
  | .afterItem items stack => (∀ v ∈ items, Made v) ∧ ∀ f ∈ stack, f.Sound
  | .afterMember members stack => SoundMembers members ∧ ∀ f ∈ stack, f.Sound
  | .done v => Made v

theorem SoundMembers.made {members : List (Bytes × Json)} (h : SoundMembers members) :
    Made (object members.reverse) :=
  .object (fun e he => (h e (List.mem_reverse.mp he)).1)
    fun e he => (h e (List.mem_reverse.mp he)).2

theorem Reader.sound_give {v : Json} (hv : Made v) {stack : List Frame}
    (h : ∀ f ∈ stack, f.Sound) : (give v stack).Sound := by
  cases stack with
  | nil => exact hv
  | cons frame stack =>
      obtain ⟨hframe, hstack⟩ := List.forall_mem_cons.mp h
      cases frame with
      | array before => exact ⟨List.forall_mem_cons.mpr ⟨hv, hframe⟩, hstack⟩
      | object before name =>
          exact ⟨List.forall_mem_cons.mpr ⟨⟨hframe.2, hv⟩, hframe.1⟩, hstack⟩

theorem Reader.sound_beginValue {stack : List Frame} (h : ∀ f ∈ stack, f.Sound) {t : Token}
    (ht : t.Sound) {r : Reader} (hr : beginValue stack t = .ok r) : r.Sound := by
  cases t with
  | openArray | openObject => cases hr; exact h
  | text s => cases hr; exact sound_give (.str ht) h
  | word v => cases hr; exact sound_give ht h
  | number literal =>
      simp only [beginValue] at hr
      cases hl : ofLiteral literal with
      | none => rw [hl] at hr; cases hr
      | some v => rw [hl] at hr; cases hr; exact sound_give (.number hl) h
  | closeArray | closeObject | comma | colon => cases hr

theorem Reader.Sound.step {r r' : Reader} (h : r.Sound) {t : Token} (ht : t.Sound)
    (hr : r.step t = .ok r') : r'.Sound := by
  cases r with
  | value stack => exact sound_beginValue h ht hr
  | itemOrEnd stack =>
      by_cases hclose : t = .closeArray
      · subst hclose
        cases hr
        exact sound_give (.arr (List.forall_mem_nil _)) h
      · rw [step_itemOrEnd hclose] at hr
        have hframe : (Frame.array []).Sound := List.forall_mem_nil _
        exact sound_beginValue (List.forall_mem_cons.mpr ⟨hframe, h⟩) ht hr
  | keyOrEnd stack =>
      have hempty : SoundMembers [] := List.forall_mem_nil _
      cases t with
      | closeObject => cases hr; exact sound_give hempty.made h
      | text name => cases hr; exact ⟨hempty, ht, h⟩
      | openArray | openObject | closeArray | comma | colon | word | number => cases hr
  | key before stack =>
      cases t with
      | text name => cases hr; exact ⟨h.1, ht, h.2⟩
      | openArray | openObject | closeArray | closeObject | comma | colon | word | number => cases hr
  | colon before name stack =>
      cases t with
      | colon => cases hr; exact List.forall_mem_cons.mpr ⟨⟨h.1, h.2.1⟩, h.2.2⟩
      | openArray | openObject | closeArray | closeObject | comma | text | word | number => cases hr
  | afterItem items stack =>
      cases t with
      | comma => cases hr; exact List.forall_mem_cons.mpr ⟨h.1, h.2⟩
      | closeArray =>
          cases hr
          exact sound_give (.arr fun v hv => h.1 v (List.mem_reverse.mp hv)) h.2
      | openArray | openObject | closeObject | colon | text | word | number => cases hr
  | afterMember members stack =>
      cases t with
      | comma => cases hr; exact h
      | closeObject => cases hr; exact sound_give h.1.made h.2
      | openArray | openObject | closeArray | colon | text | word | number => cases hr
  | done v => cases hr

theorem Reader.Sound.foldlM {tokens : List Token} (ht : ∀ t ∈ tokens, t.Sound) {r r' : Reader}
    (h : r.Sound) (hr : tokens.foldlM Reader.step r = .ok r') : r'.Sound := by
  induction tokens generalizing r with
  | nil => cases hr; exact h
  | cons t rest ih =>
      obtain ⟨hfirst, hrest⟩ := List.forall_mem_cons.mp ht
      rw [List.foldlM_cons] at hr
      cases hs : r.step t with
      | error cause => rw [hs] at hr; cases hr
      | ok next => rw [hs] at hr; exact ih hrest (h.step hfirst hs) hr

/-- A value that is read is one that a reader makes. -/
theorem made_of_parse? {text : Bytes} {v : Json} (h : parse? text = some v) : Made v := by
  have hempty : (Reader.value []).Sound := List.forall_mem_nil _
  rw [parse?, parse, ofScan] at h
  split at h
  · cases h
  · rename_i w hr
    have hw : Made w := hempty.foldlM (fun _ => sound_of_mem_scan) hr
    split at h
    · cases h
      exact hw
    · cases h
  · cases h

/-! ### What is made -/

/-- A number literal stands for a number. -/
theorem isText_of_ofLiteral {literal : Bytes} {v : Json} (h : ofLiteral literal = some v) :
    v.isText = true := by
  have hdouble {x? : Option Double} (hx : x?.map Json.double = some v) : v.isText = true := by
    obtain ⟨x, -, rfl⟩ := Option.map_eq_some_iff.mp hx
    rfl
  simp only [ofLiteral, ofWhole] at h
  split at h
  · split_ifs at h
    all_goals first | exact hdouble h | (cases h; rfl)
  · exact hdouble h

theorem Made.isText {v : Json} (h : Made v) : v.isText = true := by
  induction h with
  | null | bool => rfl
  | number h => exact isText_of_ofLiteral h
  | str h => exact h
  | arr _ ih => exact (allText_arr _ _).mpr ih
  | object hkeys _ ih => exact allText_object fun e he => ⟨hkeys e he, ih e he⟩

/-- All text in a value that is read is well-formed, whatever bytes it was read from. -/
theorem isText_of_parse? {text : Bytes} {v : Json} (h : parse? text = some v) :
    v.isText = true := (made_of_parse? h).isText

end FleetControl.Json
