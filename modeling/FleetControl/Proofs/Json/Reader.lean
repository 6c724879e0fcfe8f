import FleetControl.Json.Reader
import FleetControl.Proofs.Json.Scanner
import FleetControl.Proofs.Json.Writer
import Mathlib.Data.List.TakeWhile

/-!
# Reading JSON — what was written reads back

A text *leads* a reader from one state to another if its tokens do (`Leads`, and `Moves` if it ends
between two tokens), and it *spells* a value if it leads from the wait for a value to having it,
whatever arrays and objects are open (`Spells`).  A text that parses on its own spells its value
(`spells_of_ofScan`), so what a value is made of can be looked at part by part.

The main result is `parse?_write`: the text of a value whose own text is well-formed reads back as
the value, settled.  Doubles are the one part whose texts are taken to read back.
-/

namespace FleetControl.Json

variable {text more : Bytes} {r r' r'' : Reader} {b : UInt8} {m : Token} {v : Json}

/-- The tokens of a text take a reader from one state to another. -/
def Leads (text : Bytes) (r r' : Reader) : Prop :=
  ∃ tokens, Scans text tokens ∧ tokens.foldlM Reader.step r = .ok r'

/-- The same of a text that ends between two tokens. -/
def Moves (text : Bytes) (r r' : Reader) : Prop :=
  ∃ tokens, Closes text tokens ∧ tokens.foldlM Reader.step r = .ok r'

/-- A text stands for a value wherever a value may stand. -/
def Spells (text : Bytes) (v : Json) : Prop :=
  ∀ stack, Leads text (.value stack) (Reader.give v stack)

/-- Tokens are read one after the other. -/
theorem foldlM_append_ok {tokens others : List Token}
    (h : tokens.foldlM Reader.step r = .ok r') (h' : others.foldlM Reader.step r' = .ok r'') :
    (tokens ++ others).foldlM Reader.step r = .ok r'' := by
  rw [List.foldlM_append, h]
  exact h'

/-- A text that moves the reader leads it, too. -/
theorem Moves.leads (h : Moves text r r') : Leads text r r' := by
  obtain ⟨tokens, hc, hf⟩ := h
  exact ⟨tokens, hc.scans, hf⟩

/-- A text may follow one that moves the reader. -/
theorem Moves.append_leads (h : Moves text r r') (h' : Leads more r' r'') :
    Leads (text ++ more) r r'' := by
  obtain ⟨tokens, hc, hf⟩ := h
  obtain ⟨others, hs, hf'⟩ := h'
  exact ⟨tokens ++ others, hc.append_scans hs, foldlM_append_ok hf hf'⟩

/-- A mark ends whatever the reader was led into, also a number. -/
theorem Leads.mark (h : Leads text r r') (hb : Scanner.mark? b = some m)
    (hm : r'.step m = .ok r'') : Moves (text ++ [b]) r r'' := by
  obtain ⟨tokens, hs, hf⟩ := h
  refine ⟨tokens ++ [m], hs.mark hb, foldlM_append_ok hf ?_⟩
  rw [List.foldlM_cons, hm]
  rfl

/-- A mark is a token of its own. -/
theorem moves_mark (hb : Scanner.mark? b = some m) (hm : r.step m = .ok r') : Moves [b] r r' :=
  Leads.mark ⟨[], closes_nil.scans, rfl⟩ hb hm

/-- A string is a token of its own. -/
theorem moves_quote {s : Bytes} (h : Utf8.valid s = true) (hm : r.step (.text s) = .ok r') :
    Moves (quote s) r r' := by
  refine ⟨[.text s], closes_quote h, ?_⟩
  rw [List.foldlM_cons, hm]
  rfl

/-- Unless it ends the array, the first token in one begins a value. -/
theorem Reader.step_itemOrEnd {t : Token} (h : t ≠ .closeArray) (stack : List Frame) :
    step (.itemOrEnd stack) t = beginValue (.array [] :: stack) t := by
  cases t with
  | closeArray => exact absurd rfl h
  | openArray | openObject | closeObject | comma | colon | text | word | number => rfl

/-- The first item of an array stands where a value may stand. -/
theorem Spells.first (h : Spells text v) (stack : List Frame) :
    Leads text (.itemOrEnd stack) (.afterItem [v] stack) := by
  obtain ⟨tokens, hs, hf⟩ := h (.array [] :: stack)
  refine ⟨tokens, hs, ?_⟩
  cases tokens with
  | nil => cases hf
  | cons t rest =>
      have ht : t ≠ .closeArray := by rintro rfl; cases hf
      rw [List.foldlM_cons, Reader.step_itemOrEnd ht]
      exact hf

/-! ### Values from their parts -/

/-- Further items of an array. -/
theorem Leads.items {items : List Json} {read : Json → Json}
    (h : ∀ v ∈ items, Spells v.write (read v)) {before : List Json} {stack : List Frame}
    (ht : Leads text r (.afterItem before stack)) :
    Leads (text ++ items.flatMap fun v => 0x2c :: v.write) r
      (.afterItem ((items.map read).reverse ++ before) stack) := by
  induction items generalizing text before with
  | nil => rwa [List.flatMap_nil, List.append_nil]
  | cons v rest ih =>
      obtain ⟨hv, hrest⟩ := List.forall_mem_cons.mp h
      have hcomma : Moves (text ++ [0x2c]) r (.value (.array before :: stack)) := ht.mark rfl rfl
      have hnext := ih hrest (hcomma.append_leads (hv _))
      simpa using hnext

/-- A member leads from its key to behind its value. -/
theorem Spells.member {e : Bytes × Json} (hkey : Utf8.valid e.1 = true)
    (h : Spells e.2.write v) {before : List (Bytes × Json)} {stack : List Frame}
    (hm : r.step (.text e.1) = .ok (.colon before e.1 stack)) :
    Leads (writeMember e) r (.afterMember ((e.1, v) :: before) stack) := by
  have hcolon : Moves (quote e.1 ++ [0x3a]) r (.value (.object before e.1 :: stack)) :=
    (moves_quote hkey hm).leads.mark rfl rfl
  have hv := hcolon.append_leads (h _)
  rwa [List.append_assoc] at hv

/-- Further members of an object. -/
theorem Leads.members {members : List (Bytes × Json)} {read : Json → Json}
    (h : ∀ e ∈ members, Utf8.valid e.1 = true ∧ Spells e.2.write (read e.2))
    {before : List (Bytes × Json)} {stack : List Frame}
    (ht : Leads text r (.afterMember before stack)) :
    Leads (text ++ members.flatMap fun e => 0x2c :: writeMember e) r
      (.afterMember ((members.map fun e => (e.1, read e.2)).reverse ++ before) stack) := by
  induction members generalizing text before with
  | nil => rwa [List.flatMap_nil, List.append_nil]
  | cons e rest ih =>
      obtain ⟨⟨hkey, hv⟩, hrest⟩ := List.forall_mem_cons.mp h
      have hcomma : Moves (text ++ [0x2c]) r (.key before stack) := ht.mark rfl rfl
      have hnext := ih hrest (hcomma.append_leads (hv.member hkey rfl))
      simpa using hnext

/-- An array is spelled by its items. -/
theorem spells_arr {items : List Json} {read : Json → Json}
    (h : ∀ v ∈ items, Spells v.write (read v)) :
    Spells (Json.arr items).write (.arr (items.map read)) := by
  intro stack
  have hopen : Moves [0x5b] (.value stack) (.itemOrEnd stack) := moves_mark rfl rfl
  cases items with
  | nil => exact (hopen.leads.mark rfl rfl).leads
  | cons v rest =>
      obtain ⟨hv, hrest⟩ := List.forall_mem_cons.mp h
      have hitems := Leads.items hrest (hopen.append_leads (hv.first stack))
      have hclose := (hitems.mark (b := 0x5d) rfl rfl).leads
      rw [write_arr]
      simpa using hclose

/-- An object is spelled by its keys, which have to be text, and its values. -/
theorem spells_obj {members : List (Bytes × Json)} {read : Json → Json}
    (h : ∀ e ∈ members, Utf8.valid e.1 = true ∧ Spells e.2.write (read e.2)) :
    Spells (Json.obj members).write (object (members.map fun e => (e.1, read e.2))) := by
  intro stack
  have hopen : Moves [0x7b] (.value stack) (.keyOrEnd stack) := moves_mark rfl rfl
  cases members with
  | nil => exact (hopen.leads.mark rfl rfl).leads
  | cons e rest =>
      obtain ⟨⟨hkey, hv⟩, hrest⟩ := List.forall_mem_cons.mp h
      have hmembers := Leads.members hrest (hopen.append_leads (hv.member hkey rfl))
      have hclose := (hmembers.mark (b := 0x7d) rfl rfl).leads
      rw [write_obj]
      simpa using hclose

/-! ### Values without parts -/

/-- A text of one token spells the value that the token begins and ends. -/
theorem spells_token {t : Token} (hs : Scans text [t])
    (ht : ∀ stack, Reader.beginValue stack t = .ok (Reader.give v stack)) : Spells text v :=
  fun stack => ⟨[t], hs, by rw [List.foldlM_cons, Reader.step, ht]; rfl⟩

/-- A literal of digits alone is read as a whole number. -/
theorem ofLiteral_of_digits {ds : Bytes} (h : ∀ b ∈ ds, Decimal.isDigit b = true) :
    ofLiteral ds = ofWhole false ds ∧ ofLiteral (0x2d :: ds) = ofWhole true ds := by
  have htake : ds.takeWhile Decimal.isDigit = ds := List.takeWhile_eq_self_iff.mpr h
  have hdrop : ds.dropWhile Decimal.isDigit = [] := List.dropWhile_eq_nil_iff.mpr h
  have hminus : (ds.head? == some 0x2d) = false := by
    cases ds with
    | nil => rfl
    | cons d rest =>
        have hd := (List.forall_mem_cons.mp h).1
        rw [beq_eq_false_iff_ne, List.head?_cons]
        rintro ⟨⟩
        cases hd
  constructor
  · simp only [ofLiteral, hminus, Bool.false_eq_true, if_false, hdrop, htake]
  · simp [ofLiteral, hdrop, htake]

/-- A whole number that fits a word is spelled by its digits. -/
theorem spells_ofNat {n : ℕ} (h : n < 2 ^ 64) :
    Spells (Decimal.ofNat n) (.unsigned (UInt64.ofNat n)) := by
  have hl : (Decimal.ofNat n).length ≤ 20 :=
    Decimal.length_ofNat_le (by decide) (Nat.lt_trans h (by decide))
  have hv : ofLiteral (Decimal.ofNat n) = some (.unsigned (UInt64.ofNat n)) := by
    rw [(ofLiteral_of_digits fun _ => Decimal.isDigit_of_mem_ofNat).1, ofWhole, if_pos hl,
      Decimal.toNat_ofNat]
    exact (if_neg Bool.false_ne_true).trans (if_pos h)
  exact spells_token (scans_ofNat n) fun stack => by simp only [Reader.beginValue, hv]

/-- A whole number reads back, with a minus sign only if it is negative. -/
theorem spells_ofInt (n : Int64) : Spells (Decimal.ofInt n.toInt) (ofInt64 n) := by
  have hmin := n.le_toInt
  have hmax := n.toInt_lt
  cases e : n.toInt with
  | ofNat k =>
      have h₀ : 0 ≤ n := by rw [Int64.le_iff_toInt_le, e]; exact Int.natCast_nonneg k
      have hk : UInt64.ofNat k = n.toUInt64 := by
        rw [← UInt64.ofNat_toNat (x := n.toUInt64), Int64.toNat_toUInt64_of_le h₀,
          Int64.toNatClampNeg, e]
        rfl
      rw [ofInt64, if_neg (Int64.not_lt.mpr h₀), ← hk]
      have hlt : (k : Int) < 2 ^ 63 := by rw [e] at hmax; exact hmax
      exact spells_ofNat (by omega)
  | negSucc k =>
      have hneg : n < 0 := by rw [Int64.lt_iff_toInt_lt, e]; exact Int.negSucc_lt_zero k
      have hk : k + 1 ≤ 2 ^ 63 := by rw [e] at hmin; omega
      have hl : (Decimal.ofNat (k + 1)).length ≤ 20 :=
        Decimal.length_ofNat_le (by decide) (Nat.lt_of_le_of_lt hk (by decide))
      have hn : Int64.ofInt (-Int.ofNat (k + 1)) = n := by rw [← Int64.ofInt_toInt n, e]; rfl
      have hv : ofLiteral (0x2d :: Decimal.ofNat (k + 1)) = some (.signed n) := by
        rw [(ofLiteral_of_digits fun _ => Decimal.isDigit_of_mem_ofNat).2, ofWhole, if_pos hl,
          Decimal.toNat_ofNat, hn]
        exact (if_pos rfl).trans (if_pos hk)
      have hs := scans_ofInt (Int.negSucc k)
      rw [ofInt64, if_pos hneg]
      exact spells_token hs fun stack => by simp only [Reader.beginValue, Decimal.ofInt, hv]

/-! ### Texts of their own -/

/-- A reader inside arrays and objects that are open around it. -/
def Reader.under (stack : List Frame) : Reader → Reader
  | .value inner => .value (inner ++ stack)
  | .itemOrEnd inner => .itemOrEnd (inner ++ stack)
  | .keyOrEnd inner => .keyOrEnd (inner ++ stack)
  | .key before inner => .key before (inner ++ stack)
  | .colon before name inner => .colon before name (inner ++ stack)
  | .afterItem items inner => .afterItem items (inner ++ stack)
  | .afterMember members inner => .afterMember members (inner ++ stack)
  | .done v => give v stack

/-- A value is given to the innermost frame, whatever is below. -/
theorem Reader.give_under (v : Json) (inner stack : List Frame) :
    (give v inner).under stack = give v (inner ++ stack) := by
  cases inner with
  | nil => rfl
  | cons frame inner => cases frame <;> rfl

theorem Reader.beginValue_under {t : Token} {inner : List Frame}
    (h : beginValue inner t = .ok r) (stack : List Frame) :
    beginValue (inner ++ stack) t = .ok (r.under stack) := by
  cases t with
  | openArray | openObject => cases h; rfl
  | text s => cases h; exact congrArg Except.ok (give_under _ _ _).symm
  | word v => cases h; exact congrArg Except.ok (give_under _ _ _).symm
  | number literal =>
      simp only [beginValue] at h ⊢
      cases hl : ofLiteral literal with
      | none => rw [hl] at h; cases h
      | some v => rw [hl] at h; cases h; exact congrArg Except.ok (give_under _ _ _).symm
  | closeArray | closeObject | comma | colon => cases h

/-- What is open around a value does not matter for its reading. -/
theorem Reader.step_under {t : Token} (h : r.step t = .ok r') (stack : List Frame) :
    (r.under stack).step t = .ok (r'.under stack) := by
  cases r with
  | value inner => exact beginValue_under h stack
  | itemOrEnd inner =>
      by_cases ht : t = .closeArray
      · subst ht
        cases h
        exact congrArg Except.ok (give_under _ _ _).symm
      · rw [step_itemOrEnd ht] at h
        exact (step_itemOrEnd ht _).trans (beginValue_under h stack)
  | keyOrEnd inner =>
      cases t with
      | closeObject => cases h; exact congrArg Except.ok (give_under _ _ _).symm
      | text name => cases h; rfl
      | openArray | openObject | closeArray | comma | colon | word | number => cases h
  | key before inner =>
      cases t with
      | text name => cases h; rfl
      | openArray | openObject | closeArray | closeObject | comma | colon | word | number => cases h
  | colon before name inner =>
      cases t with
      | colon => cases h; rfl
      | openArray | openObject | closeArray | closeObject | comma | text | word | number => cases h
  | afterItem items inner =>
      cases t with
      | comma => cases h; rfl
      | closeArray => cases h; exact congrArg Except.ok (give_under _ _ _).symm
      | openArray | openObject | closeObject | colon | text | word | number => cases h
  | afterMember members inner =>
      cases t with
      | comma => cases h; rfl
      | closeObject => cases h; exact congrArg Except.ok (give_under _ _ _).symm
      | openArray | openObject | closeArray | colon | text | word | number => cases h
  | done v => cases h

/-- What is read in the middle of something is read the same as on its own. -/
theorem Reader.foldlM_under {tokens : List Token} (h : tokens.foldlM Reader.step r = .ok r')
    (stack : List Frame) : tokens.foldlM Reader.step (r.under stack) = .ok (r'.under stack) := by
  induction tokens generalizing r with
  | nil => cases h; rfl
  | cons t rest ih =>
      rw [List.foldlM_cons] at h ⊢
      cases ht : r.step t with
      | error cause => rw [ht] at h; cases h
      | ok next =>
          rw [ht] at h
          rw [step_under ht stack]
          exact ih h

/-- A text that is a value on its own spells the value. -/
theorem spells_of_ofScan (h : ofScan (scan text) = .ok v) : Spells text v := by
  intro stack
  cases hs : scan text with
  | mk tokens whole =>
      rw [hs] at h
      simp only [ofScan] at h
      cases hf : tokens.foldlM Reader.step (.value []) with
      | error cause => rw [hf] at h; cases h
      | ok r =>
          rw [hf] at h
          cases r with
          | done w =>
              simp only at h
              split at h
              · rename_i hw
                cases h
                subst hw
                exact ⟨tokens, scans_of_scan hs, Reader.foldlM_under hf stack⟩
              · cases h
          | value | itemOrEnd | keyOrEnd | key | colon | afterItem | afterMember => cases h

/-- Spaces may follow a text that spells a value. -/
theorem Spells.spaces (h : Spells text v) (n : ℕ) : Spells (text ++ List.replicate n 0x20) v :=
  fun stack => by
    obtain ⟨tokens, hs, hf⟩ := h stack
    exact ⟨tokens, hs.spaces n, hf⟩

/-- What spells a value is read as that value. -/
theorem Spells.ofScan (h : Spells text v) : ofScan (scan text) = .ok v := by
  obtain ⟨tokens, hs, hf⟩ := h []
  rw [hs.scan, Json.ofScan]
  simp only [hf]
  rfl

/-! ### Reading back -/

/-- A scanner that is stuck stays stuck. -/
theorem foldl_stuck (text : Bytes) (tokens : List Token) :
    text.foldl Scanner.step ⟨.stuck, tokens⟩ = ⟨.stuck, tokens⟩ := by
  induction text with
  | nil => rfl
  | cons b rest ih => exact ih

/-- A text that is a value does not begin with a byte order mark. -/
theorem dropMark_of_scans {tokens : List Token} (h : Scans text tokens) : dropMark text = text := by
  cases text with
  | nil => rfl
  | cons b rest =>
      by_cases hb : b = 0xef
      · -- no token begins with the first byte of a mark
        have hs : (rest.foldl Scanner.step ⟨.stuck, []⟩).Behind (tokens.reverse ++ []) := by
          have hb' := h []
          rwa [hb] at hb'
        rw [foldl_stuck] at hs
        cases hs
      · rw [dropMark]
        intro rest' e
        exact hb (List.cons.inj e).1

/-- A text without control bytes is not cut. -/
theorem untilZero_eq (h : ∀ b ∈ text, 0x20 ≤ b) : Bytes.untilZero text = text := by
  refine List.takeWhile_eq_self_iff.mpr fun b hb => ?_
  rw [bne_iff_ne]
  rintro rfl
  exact absurd (h 0 hb) (by decide)

/-- What spells a value without control bytes is parsed as that value. -/
theorem Spells.parse? (h : Spells text v) (hb : ∀ b ∈ text, 0x20 ≤ b) :
    parse? text = some v := by
  obtain ⟨tokens, hs, -⟩ := h []
  rw [Json.parse?, parse, untilZero_eq hb, dropMark_of_scans hs, h.ofScan]
  rfl

/-- Every double in the value reads back from its text. -/
def IsLegible (j : Json) : Prop :=
  ∀ x ∈ j.doubles, parse? (Json.double x).write = some (.double x)

/-- The text of a double spells what is read of it. -/
theorem spells_double {x : Double} (h : parse? (Json.double x).write = some v) :
    Spells (Json.double x).write v := by
  have hmark : dropMark (doubleText x) = doubleText x := by
    rw [doubleText]
    split
    · cases e : x.toText with
      | nil => rfl
      | cons b rest =>
          have hb := x.isNumberByte_of_mem_toText b (e ▸ List.mem_cons_self)
          rw [dropMark]
          intro rest' e'
          rw [(List.cons.inj e').1] at hb
          cases hb
    · rfl
  rw [parse?, parse, untilZero_eq (le_of_mem_write _), write_double, hmark] at h
  rw [write_double]
  cases ho : ofScan (scan (doubleText x)) with
  | error cause => rw [ho] at h; cases h
  | ok w =>
      rw [ho] at h
      cases h
      exact spells_of_ofScan ho

/-- The text of a value spells the value, settled. -/
theorem spells_write (j : Json) (ht : j.isText = true) (hl : j.IsLegible) :
    Spells j.write j.settle := by
  induction j using induct with
  | null => exact spells_token (Closes.scans fun _ => rfl) fun _ => rfl
  | bool b =>
      cases b <;> exact spells_token (Closes.scans fun _ => rfl) fun _ => rfl
  | unsigned n =>
      have h := spells_ofNat n.toNat_lt
      rw [UInt64.ofNat_toNat] at h
      simpa [write, writeOnto, settle] using h
  | signed n => simpa [write, writeOnto, settle] using spells_ofInt n
  | double x => exact spells_double (hl x (List.mem_singleton_self x))
  | str s =>
      have h : Spells (quote s) (.str s) := spells_token (closes_quote ht).scans fun _ => rfl
      simpa [write, writeOnto, settle] using h
  | arr items ih =>
      rw [settle_arr]
      refine spells_arr fun v hv => ih v hv ((allText_arr _ _).mp ht v hv) fun x hx => hl x ?_
      rw [doubles_arr]
      exact List.mem_flatMap.mpr ⟨v, hv, hx⟩
  | obj members ih =>
      rw [settle_obj]
      refine spells_obj fun e he => ?_
      obtain ⟨hkey, hv⟩ := (allText_obj _ _).mp ht e he
      refine ⟨hkey, ih e he hv fun x hx => hl x ?_⟩
      rw [doubles_obj]
      exact List.mem_flatMap.mpr ⟨e, he, hx⟩

/-- What was written reads back, settled. -/
theorem parse?_write {j : Json} (ht : j.isText = true) (hl : j.IsLegible) :
    parse? j.write = some j.settle :=
  (spells_write j ht hl).parse? j.le_of_mem_write

end FleetControl.Json
