import FleetControl.Bytes.Utf8

/-!
# UTF-8 — repaired text is well-formed

A machine that has read a text from between two characters is in the state that `State.after` gives,
and the text is well-formed if that is between two characters again (`valid_iff`).  A repair keeps
what it writes well-formed and what it holds back a beginning of a character, so whatever bytes it is
given, well-formed text comes out (`valid_repair`).
-/

namespace FleetControl.Utf8

variable {s s' : State} {text begun out : Bytes}

/-- The state after a text, unless a byte rules it out. -/
def State.after (s : State) (text : Bytes) : Option State := text.foldlM next s

theorem completes_iff : completes s text = true ↔ s.after text = some .start := by
  induction text generalizing s with
  | nil => simp [completes, State.after, beq_iff_eq]
  | cons b rest ih =>
      rw [completes, State.after, List.foldlM_cons]
      cases next s b with
      | none => simp
      | some s' => exact ih

theorem valid_iff : valid text = true ↔ State.start.after text = some .start := completes_iff

theorem State.after_concat (h : s.after text = some s') (b : UInt8) :
    s.after (text ++ [b]) = next s' b := by
  rw [after, List.foldlM_append, ← after, h]
  simp

/-- A character that cannot be completed is replaced. -/
theorem valid_replaceOnto (h : valid out.reverse = true) :
    valid (replaceOnto out).reverse = true := by
  have e : (replaceOnto out).reverse = out.reverse ++ replacement := by
    simp [replaceOnto, replacement]
  rw [e]
  exact valid_append h rfl

/-- What is written stays well-formed while the bytes held back begin a character. -/
theorem valid_repairOnto (hb : State.start.after begun.reverse = some s)
    (ho : valid out.reverse = true) : valid (repairOnto s text begun out).reverse = true := by
  induction text generalizing s begun out with
  | nil =>
      rw [repairOnto]
      split
      · exact ho
      · exact valid_replaceOnto ho
  | cons b rest ih =>
      have hnext : State.start.after (b :: begun).reverse = next s b := by
        rw [List.reverse_cons]
        exact State.after_concat hb b
      have hfirst : State.start.after [b].reverse = first b := by
        simp [State.after, next]
      have hstart : State.start.after ([] : Bytes).reverse = some .start := rfl
      rw [repairOnto]
      split
      · -- the byte completes the character
        rename_i h
        refine ih hstart ?_
        have hchar : valid (b :: begun).reverse = true := valid_iff.mpr (hnext.trans h)
        rw [List.reverse_cons, List.reverse_append, List.append_assoc, ← List.reverse_cons]
        exact valid_append ho hchar
      · rename_i h
        exact ih (hnext.trans h) ho
      · split
        · exact ih hstart (valid_replaceOnto ho)
        · -- the byte may begin a character of its own
          split
          · rename_i h
            refine ih hstart ?_
            rw [List.reverse_cons]
            exact valid_append (valid_replaceOnto ho) (valid_iff.mpr (hfirst.trans h))
          · rename_i h
            exact ih (hfirst.trans h) (valid_replaceOnto ho)
          · exact ih hstart (valid_replaceOnto (valid_replaceOnto ho))

/-- A repaired text is well-formed. -/
theorem valid_repair (text : Bytes) : valid (repair text) = true :=
  valid_repairOnto rfl rfl

end FleetControl.Utf8
