import FleetControl.Json.Token
import FleetControl.Json.Writer
import FleetControl.Proofs.Bytes
import FleetControl.Proofs.Number.Decimal
import Mathlib.Tactic.IntervalCases

/-!
# JSON tokens — what the scanner makes of texts that are put together

A scanner that has come to the end of some tokens is *behind* them (`Scanner.Behind`): between two
tokens, or in a number that may end there.  A text *scans* as tokens if it takes a scanner from
between two tokens to behind them (`Scans`), and *closes* them if it ends between two tokens again
(`Closes`), which a number does not.  Whatever text follows what closes; a mark may follow what
scans (`Scans.mark`).

The texts of strings close (`closes_quote`), and those of whole numbers scan (`scans_ofNat`,
`scans_ofInt`).  What scans as a text of its own scans anywhere (`scans_of_scan`).
-/

namespace FleetControl.Json

/-- The scanner has come to the end of these tokens, which stand in reverse. -/
inductive Scanner.Behind : Scanner → List Token → Prop where
  | blank (tokens : List Token) : Behind ⟨.blank, tokens⟩ tokens
  | number {phase : Phase} (read : Bytes) (tokens : List Token) (h : phase.isEnd = true) :
      Behind ⟨.number phase read, tokens⟩ (.number read.reverse :: tokens)

/-- A text takes a scanner to the end of these tokens. -/
def Scans (text : Bytes) (tokens : List Token) : Prop :=
  ∀ before, (text.foldl Scanner.step ⟨.blank, before⟩).Behind (tokens.reverse ++ before)

/-- A text takes a scanner past these tokens. -/
def Closes (text : Bytes) (tokens : List Token) : Prop :=
  ∀ before, text.foldl Scanner.step ⟨.blank, before⟩ = ⟨.blank, tokens.reverse ++ before⟩

variable {text more : Bytes} {tokens others : List Token} {b : UInt8} {m : Token}

/-- A scanner that is behind its tokens may end. -/
theorem Scanner.Behind.finish {s : Scanner} (h : s.Behind tokens) :
    s.finish = ⟨tokens.reverse, true⟩ := by
  cases h with
  | blank => rfl
  | number read tokens h => simp only [Scanner.finish, if_pos h]

theorem mark?_cases (h : Scanner.mark? b = some m) :
    b = 0x2c ∨ b = 0x3a ∨ b = 0x7b ∨ b = 0x7d ∨ b = 0x5b ∨ b = 0x5d := by
  simp only [Scanner.mark?] at h
  split_ifs at h <;> tauto

/-- A mark ends the token in front of it. -/
theorem Scanner.Behind.step_mark {s : Scanner} (h : s.Behind tokens)
    (hb : Scanner.mark? b = some m) : s.step b = ⟨.blank, m :: tokens⟩ := by
  cases h with
  | blank => simp only [Scanner.step, Scanner.begin, hb]
  | @number phase read tokens h =>
      have hn : phase.next b = none := by
        rcases mark?_cases hb with rfl | rfl | rfl | rfl | rfl | rfl <;> cases phase <;> rfl
      simp only [Scanner.step, hn, if_pos h, Scanner.begin, hb]

/-- No text closes no tokens. -/
theorem closes_nil : Closes [] [] := fun _ => rfl

/-- What closes its tokens scans as them. -/
theorem Closes.scans (h : Closes text tokens) : Scans text tokens := fun before => by
  rw [h before]
  exact .blank _

/-- A text may follow what closes. -/
theorem Closes.append_scans (h : Closes text tokens) (h' : Scans more others) :
    Scans (text ++ more) (tokens ++ others) := fun before => by
  rw [List.foldl_append, h before, List.reverse_append, List.append_assoc]
  exact h' _

/-- A mark closes whatever came before it, also a number. -/
theorem Scans.mark (h : Scans text tokens) (hb : Scanner.mark? b = some m) :
    Closes (text ++ [b]) (tokens ++ [m]) := fun before => by
  rw [List.foldl_append, List.foldl_cons, List.foldl_nil, (h before).step_mark hb,
    List.reverse_append]
  rfl

/-- A space ends the token in front of it. -/
theorem Scanner.Behind.step_space {s : Scanner} (h : s.Behind tokens) :
    (s.step 0x20).Behind tokens := by
  cases h with
  | blank => exact .blank _
  | @number phase read tokens h =>
      have hn : phase.next 0x20 = none := by cases phase <;> rfl
      simp only [Scanner.step, hn, if_pos h]
      exact .blank _

/-- Spaces may follow a text that scans. -/
theorem Scans.spaces (h : Scans text tokens) (n : ℕ) :
    Scans (text ++ List.replicate n 0x20) tokens := fun before => by
  induction n with
  | zero => rw [List.replicate_zero, List.append_nil]; exact h before
  | succ n ih =>
      rw [List.replicate_succ', ← List.append_assoc, List.foldl_append, List.foldl_cons,
        List.foldl_nil]
      exact ih.step_space

/-! ### Text -/

/-- The form of a byte between quotes reads as the byte. -/
theorem foldl_escape (b : UInt8) (read : Bytes) (tokens : List Token) :
    (escape b).foldl Scanner.step ⟨.text read, tokens⟩ = ⟨.text (b :: read), tokens⟩ := by
  by_cases hc : b < 0x20
  · -- each control byte has a form of its own
    obtain ⟨n, hn, rfl⟩ : ∃ n < 32, b = UInt8.ofNat n :=
      ⟨b.toNat, UInt8.lt_iff_toNat_lt.mp hc, UInt8.ofNat_toNat.symm⟩
    interval_cases n <;> rfl
  · by_cases hq : b = 0x22
    · rw [hq]; rfl
    · by_cases hs : b = 0x5c
      · rw [hs]; rfl
      · have hne {c : UInt8} (hc' : c < 0x20) : b ≠ c := fun e => hc (e ▸ hc')
        have he : escape b = [b] := by
          simp only [escape, if_neg hq, if_neg hs, if_neg hc, if_neg (hne (c := 0x08) (by decide)),
            if_neg (hne (c := 0x0c) (by decide)), if_neg (hne (c := 0x0a) (by decide)),
            if_neg (hne (c := 0x0d) (by decide)), if_neg (hne (c := 0x09) (by decide))]
        rw [he, List.foldl_cons, List.foldl_nil]
        simp only [Scanner.step, if_neg hq, if_neg hs, if_neg hc]

/-- An escaped string is taken up as the string. -/
theorem foldl_escapes (s read : Bytes) (tokens : List Token) :
    (s.flatMap escape).foldl Scanner.step ⟨.text read, tokens⟩ =
      ⟨.text (s.reverse ++ read), tokens⟩ := by
  induction s generalizing read with
  | nil => rfl
  | cons b rest ih =>
      rw [List.flatMap_cons, List.foldl_append, foldl_escape, ih, List.reverse_cons,
        List.append_assoc, List.singleton_append]

/-- A quoted string closes a token of its own. -/
theorem closes_quote {s : Bytes} (h : Utf8.valid s = true) : Closes (quote s) [.text s] := by
  intro before
  have hopen : Scanner.step ⟨.blank, before⟩ 0x22 = ⟨.text [], before⟩ := rfl
  rw [quote, List.cons_append, List.foldl_cons, List.foldl_append, hopen, foldl_escapes,
    List.append_nil, List.foldl_cons, List.foldl_nil]
  simp only [Scanner.step, if_pos, List.reverse_reverse, if_pos h]
  rfl

/-! ### Numbers -/

theorem isDigit_cases : ∀ b, Decimal.isDigit b = true → b = 0x30 ∨ b = 0x31 ∨ b = 0x32 ∨
    b = 0x33 ∨ b = 0x34 ∨ b = 0x35 ∨ b = 0x36 ∨ b = 0x37 ∨ b = 0x38 ∨ b = 0x39 := by
  intro b hb
  grind [Decimal.isDigit]

/-- A number that goes on with digits. -/
theorem foldl_digits {ds : Bytes} (h : ∀ b ∈ ds, Decimal.isDigit b = true) (read : Bytes)
    (tokens : List Token) : ds.foldl Scanner.step ⟨.number .whole read, tokens⟩ =
      ⟨.number .whole (ds.reverse ++ read), tokens⟩ := by
  induction ds generalizing read with
  | nil => rfl
  | cons d rest ih =>
      obtain ⟨hd, hrest⟩ := List.forall_mem_cons.mp h
      have hstep : Scanner.step ⟨.number .whole read, tokens⟩ d =
          ⟨.number .whole (d :: read), tokens⟩ := by
        simp only [Scanner.step, Phase.next, hd, if_pos]
      rw [List.foldl_cons, hstep, ih hrest, List.reverse_cons, List.append_assoc,
        List.singleton_append]

/-- A number that does not begin with zero, with or without a minus sign before it. -/
theorem step_digit {d : UInt8} (hd : Decimal.isDigit d = true) (hz : d ≠ 0x30)
    (tokens : List Token) :
    Scanner.step ⟨.blank, tokens⟩ d = ⟨.number .whole [d], tokens⟩ ∧
      Scanner.step ⟨.number .minus [0x2d], tokens⟩ d = ⟨.number .whole [d, 0x2d], tokens⟩ := by
  rcases isDigit_cases d hd with rfl | rfl | rfl | rfl | rfl | rfl | rfl | rfl | rfl | rfl
  · exact absurd rfl hz
  all_goals exact ⟨rfl, rfl⟩

theorem ofNat_eq_cons {n : ℕ} (h : n ≠ 0) : ∃ d rest, Decimal.ofNat n = d :: rest ∧
    Decimal.isDigit d = true ∧ d ≠ 0x30 ∧ ∀ b ∈ rest, Decimal.isDigit b = true := by
  have hd : ∀ b ∈ Decimal.ofNat n, Decimal.isDigit b = true := fun _ => Decimal.isDigit_of_mem_ofNat
  have hz := Decimal.head?_ofNat_ne_zero h
  cases e : Decimal.ofNat n with
  | nil => exact absurd e (Decimal.ofNat_ne_nil n)
  | cons d rest =>
      rw [e] at hd hz
      obtain ⟨hd, hrest⟩ := List.forall_mem_cons.mp hd
      exact ⟨d, rest, rfl, hd, fun h => hz (congrArg some h), hrest⟩

/-- The digits of a number scan as one token. -/
theorem scans_ofNat (n : ℕ) : Scans (Decimal.ofNat n) [.number (Decimal.ofNat n)] := by
  intro before
  by_cases hn : n = 0
  · rw [hn]
    exact .number [0x30] before rfl
  · obtain ⟨d, rest, e, hd, hz, hrest⟩ := ofNat_eq_cons hn
    have h := @Scanner.Behind.number .whole (rest.reverse ++ [d]) before rfl
    rw [e, List.foldl_cons, (step_digit hd hz before).1, foldl_digits hrest]
    rwa [List.reverse_append, List.reverse_reverse] at h

/-- The digits of a number with a sign scan as one token. -/
theorem scans_ofInt (n : Int) : Scans (Decimal.ofInt n) [.number (Decimal.ofInt n)] := by
  cases n with
  | ofNat n => exact scans_ofNat n
  | negSucc n =>
      intro before
      obtain ⟨d, rest, e, hd, hz, hrest⟩ := ofNat_eq_cons n.succ_ne_zero
      have h := @Scanner.Behind.number .whole (rest.reverse ++ [d, 0x2d]) before rfl
      have hminus : Scanner.step ⟨.blank, before⟩ 0x2d = ⟨.number .minus [0x2d], before⟩ := rfl
      rw [Decimal.ofInt, e, List.foldl_cons, hminus, List.foldl_cons, (step_digit hd hz before).2,
        foldl_digits hrest]
      rwa [List.reverse_append, List.reverse_reverse] at h

/-! ### Texts of their own -/

/-- A scanner that has found more before. -/
def Scanner.after (s : Scanner) (before : List Token) : Scanner := ⟨s.mode, s.tokens ++ before⟩

theorem Scanner.begin_after (tokens before : List Token) (b : UInt8) :
    Scanner.begin (tokens ++ before) b = (Scanner.begin tokens b).after before := by
  rw [begin, begin]
  cases mark? b <;> rfl

/-- What was found before does not matter for what is found. -/
theorem Scanner.step_after (s : Scanner) (before : List Token) (b : UInt8) :
    (s.after before).step b = (s.step b).after before := by
  obtain ⟨mode, tokens⟩ := s
  cases mode with
  | blank => exact begin_after tokens before b
  | word rest value =>
      cases rest with
      | nil => rfl
      | cons c rest => simp only [step, after]; split <;> [rfl; (split <;> rfl)]
  | number phase read =>
      simp only [step, after]
      -- a byte that ends the number is looked at once more, with the number among the tokens
      cases phase.next b with
      | some phase => rfl
      | none =>
          simp only
          split
          · exact begin_after (.number read.reverse :: tokens) before b
          · rfl
  | text read =>
      simp only [step, after]
      split
      · split <;> rfl
      · split <;> [rfl; (split <;> rfl)]
  | escape read =>
      simp only [step, after]
      split
      · rfl
      · cases unescape b <;> rfl
  | unit read high left value =>
      simp only [step, after]
      cases hexValue b with
      | none => rfl
      | some v => simp only; split <;> rfl
  | afterHigh | afterHighEscape | stuck => rfl

/-- What is scanned does not depend on the tokens before. -/
theorem Scanner.foldl_after (text : Bytes) (s : Scanner) (before : List Token) :
    text.foldl Scanner.step (s.after before) = (text.foldl Scanner.step s).after before := by
  induction text generalizing s with
  | nil => rfl
  | cons b rest ih => rw [List.foldl_cons, step_after, ih, List.foldl_cons]

/-- A scanner that may end is behind its tokens. -/
theorem Scanner.behind_of_finish {s : Scanner} (h : s.finish = ⟨tokens, true⟩) :
    s.Behind tokens.reverse := by
  obtain ⟨mode, found⟩ := s
  cases mode with
  | blank =>
      cases h
      rw [List.reverse_reverse]
      exact .blank _
  | number phase read =>
      simp only [finish] at h
      split at h
      · rename_i he
        cases h
        rw [List.reverse_reverse]
        exact .number _ _ he
      · cases h
  | word | text | escape | unit | afterHigh | afterHighEscape | stuck => cases h

theorem Scanner.Behind.after {s : Scanner} (h : s.Behind tokens) (before : List Token) :
    (s.after before).Behind (tokens ++ before) := by
  cases h with
  | blank => exact .blank _
  | number read tokens h => exact .number read _ h

/-- What is found in a text of its own is found wherever the text stands. -/
theorem scans_of_scan (h : scan text = ⟨tokens, true⟩) : Scans text tokens := by
  intro before
  have e : (⟨.blank, before⟩ : Scanner) = Scanner.start.after before := rfl
  rw [e, Scanner.foldl_after]
  exact (Scanner.behind_of_finish h).after before

/-- A text of its own is scanned as the tokens it scans as. -/
theorem Scans.scan (h : Scans text tokens) : scan text = ⟨tokens, true⟩ := by
  have hf := (h []).finish
  rwa [List.append_nil, List.reverse_reverse] at hf

end FleetControl.Json
