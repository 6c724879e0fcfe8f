import FleetControl.Bytes.Lines
import Mathlib.Data.List.Induction

/-!
# Lines — the one way to cut a text

A line feed stands in none of the lines of a cut, nor in the rest (`cut_clean`), and a text is put
together from such parts in one way only (`cut_join`).  So the search for the last line feed from
the end finds the place where the reading from the beginning stops (`whole_eq`), and a text that is
broken off anywhere keeps the lines that were complete (`complete_of_prefix`).
-/

namespace FleetControl.Lines

variable {text line torn : Bytes} {lines done : List Bytes}

/-- No line feed stands in any of the lines. -/
def Clean (lines : List Bytes) : Prop := ∀ line ∈ lines, lineFeed ∉ line

@[simp] theorem join_nil : join [] = [] := rfl

theorem join_cons (line : Bytes) (lines : List Bytes) :
    join (line :: lines) = line ++ lineFeed :: join lines := by
  simp [join]

theorem cutOnto_clean (hl : lineFeed ∉ line) (hd : Clean done) :
    Clean (cutOnto text line done).complete ∧ lineFeed ∉ (cutOnto text line done).torn := by
  induction text generalizing line done with
  | nil =>
      exact ⟨fun l h => hd l (List.mem_reverse.mp h), fun h => hl (List.mem_reverse.mp h)⟩
  | cons b rest ih =>
      rw [cutOnto]
      split
      · have hl' : lineFeed ∉ line.reverse := fun h => hl (List.mem_reverse.mp h)
        exact ih List.not_mem_nil (List.forall_mem_cons.mpr ⟨hl', hd⟩)
      · rename_i hb
        exact ih (fun h => (List.mem_cons.mp h).elim (fun e => hb e.symm) hl) hd

theorem cut_clean (text : Bytes) : Clean (cut text).complete ∧ lineFeed ∉ (cut text).torn :=
  cutOnto_clean List.not_mem_nil fun _ h => nomatch h

theorem cutOnto_append (h : lineFeed ∉ text) (rest : Bytes) :
    cutOnto (text ++ rest) line done = cutOnto rest (text.reverse ++ line) done := by
  induction text generalizing line with
  | nil => rfl
  | cons b text ih =>
      obtain ⟨hb, ht⟩ := not_or.mp (mt List.mem_cons.mpr h)
      rw [List.cons_append, cutOnto, if_neg fun e => hb e.symm, ih ht, List.reverse_cons,
        List.append_assoc, List.singleton_append]

theorem cutOnto_join (hc : Clean lines) (ht : lineFeed ∉ torn) :
    cutOnto (join lines ++ torn) [] done = ⟨done.reverse ++ lines, torn⟩ := by
  induction lines generalizing done with
  | nil =>
      have h : cutOnto (torn ++ []) [] done = cutOnto [] (torn.reverse ++ []) done :=
        cutOnto_append ht []
      rw [List.append_nil, List.append_nil] at h
      rw [join_nil, List.nil_append, List.append_nil, h, cutOnto, List.reverse_reverse]
  | cons line lines ih =>
      obtain ⟨hl, hc⟩ := List.forall_mem_cons.mp hc
      rw [join_cons, List.append_assoc, List.cons_append, cutOnto_append hl, List.append_nil,
        cutOnto, if_pos rfl, List.reverse_reverse, ih hc, List.reverse_cons, List.append_assoc,
        List.singleton_append]

/-- Lines and a rest without line feeds are the cut of what they are put together to. -/
theorem cut_join (hc : Clean lines) (ht : lineFeed ∉ torn) :
    cut (join lines ++ torn) = ⟨lines, torn⟩ := cutOnto_join hc ht

/-- Lines in front of a text are lines of the cut. -/
theorem cut_append (hc : Clean lines) (text : Bytes) :
    cut (join lines ++ text) = ⟨lines ++ (cut text).complete, (cut text).torn⟩ := by
  obtain ⟨hclean, htorn⟩ := cut_clean text
  have h : join lines ++ text = join (lines ++ (cut text).complete) ++ (cut text).torn := by
    rw [join_append, List.append_assoc, joined_complete]
  rw [h, cut_join (List.forall_mem_append.mpr ⟨hc, hclean⟩) htorn]

/-- A text without line feeds is one torn line. -/
theorem cut_of_not_mem (h : lineFeed ∉ text) : cut text = ⟨[], text⟩ := by
  have hc : Clean [] := fun _ hl => nomatch hl
  exact cut_join hc h

/-- The first line feed ends the first line. -/
theorem cut_line (h : lineFeed ∉ line) (rest : Bytes) :
    cut (line ++ lineFeed :: rest) = ⟨line :: (cut rest).complete, (cut rest).torn⟩ := by
  have hc : Clean [line] := fun l hl => List.mem_singleton.mp hl ▸ h
  have e : line ++ lineFeed :: rest = join [line] ++ rest := by
    rw [join_cons, join_nil, List.append_assoc, List.cons_append, List.nil_append]
  rw [e, cut_append hc, List.singleton_append]

/-- More text goes on with the torn line. -/
theorem cut_append_text (text more : Bytes) :
    cut (text ++ more) =
      ⟨(cut text).complete ++ (cut ((cut text).torn ++ more)).complete,
        (cut ((cut text).torn ++ more)).torn⟩ := by
  have e : text ++ more = join (cut text).complete ++ ((cut text).torn ++ more) := by
    rw [← List.append_assoc, joined_complete]
  rw [e, cut_append (cut_clean text).1]

theorem length_torn_le (text : Bytes) : (cut text).torn.length ≤ text.length := by
  conv => rhs; rw [← joined_complete text, List.length_append]
  exact Nat.le_add_left _ _

/-! ### The last line feed -/

theorem dropWhile_reverse_join (lines : List Bytes) :
    (join lines).reverse.dropWhile (· != lineFeed) = (join lines).reverse := by
  induction lines using List.reverseRecOn with
  | nil => rfl
  | append_singleton lines line _ =>
      rw [join_append, join_cons, join_nil, ← List.append_assoc, List.reverse_append]
      rfl

/-- Looking for the last line feed from the end finds where reading from the beginning stops. -/
theorem whole_eq (text : Bytes) : whole text = join (cut text).complete := by
  have htorn : ∀ b ∈ (cut text).torn.reverse, (b != lineFeed) = true := by
    intro b hb
    rw [bne_iff_ne]
    rintro rfl
    exact (cut_clean text).2 (List.mem_reverse.mp hb)
  calc whole text
      = ((join (cut text).complete ++ (cut text).torn).reverse.dropWhile
          (· != lineFeed)).reverse := by
        rw [joined_complete, whole]
    _ = ((join (cut text).complete).reverse.dropWhile (· != lineFeed)).reverse := by
        rw [List.reverse_append, List.dropWhile_append_of_pos htorn]
    _ = join (cut text).complete := by rw [dropWhile_reverse_join, List.reverse_reverse]

/-! ### Texts that are broken off -/

/-- A text that is broken off keeps its first lines. -/
theorem complete_of_prefix (hc : Clean lines) (h : text <+: join lines) :
    (cut text).complete <+: lines := by
  obtain ⟨rest, h⟩ := h
  have hcut : cut (join lines ++ []) = ⟨lines, []⟩ := cut_join hc List.not_mem_nil
  have hsplit : join (cut text).complete ++ ((cut text).torn ++ rest) = join lines ++ [] := by
    rw [← List.append_assoc, joined_complete, h, List.append_nil]
  rw [← hsplit, cut_append (cut_clean text).1] at hcut
  exact ⟨_, (Cut.mk.inj hcut).1⟩

/-- It keeps those lines that lie in it as a whole, with their line feeds. -/
theorem le_length_complete_iff (hc : Clean lines) (h : text <+: join lines) {k : ℕ}
    (hk : k ≤ lines.length) :
    k ≤ (cut text).complete.length ↔ join (lines.take k) <+: text := by
  constructor
  · intro hle
    obtain ⟨others, e⟩ := complete_of_prefix hc h
    have htake : lines.take k = (cut text).complete.take k := by
      rw [← e, List.take_append_of_le_length hle]
    refine List.IsPrefix.trans ?_ ⟨(cut text).torn, joined_complete text⟩
    refine ⟨join ((cut text).complete.drop k), ?_⟩
    rw [htake, ← join_append, List.take_append_drop]
  · rintro ⟨rest, rfl⟩
    rw [cut_append fun l hl => hc l (List.mem_of_mem_take hl), List.length_append,
      List.length_take_of_le hk]
    exact Nat.le_add_right _ _

end FleetControl.Lines
