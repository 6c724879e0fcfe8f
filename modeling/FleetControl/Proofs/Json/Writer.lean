import FleetControl.Json.Writer
import FleetControl.Proofs.Bytes
import FleetControl.Proofs.Json.Value
import FleetControl.Proofs.Number.Double

/-!
# Writing JSON — the text of a value from the texts of its parts

`write_arr` and `write_obj` say what stands between the brackets, and `le_of_mem_write` that no
control byte stands in a text, so neither a line feed nor a zero byte does.
-/

namespace FleetControl.Json

/-- The text of a member. -/
def writeMember (e : Bytes × Json) : Bytes := quote e.1 ++ 0x3a :: e.2.write

/-! ### Text in reverse -/

theorem writeItems_eq {items : List Json} (h : ∀ v ∈ items, ∀ out, v.writeOnto out =
    v.write.reverse ++ out) (out : Bytes) :
    writeItems items out = (items.flatMap fun v => 0x2c :: v.write).reverse ++ out := by
  induction items generalizing out with
  | nil => rfl
  | cons v rest ih =>
      obtain ⟨hv, hrest⟩ := List.forall_mem_cons.mp h
      rw [writeItems, ih hrest, hv]
      simp

theorem writeMembers_eq {members : List (Bytes × Json)} (h : ∀ e ∈ members, ∀ out,
    e.2.writeOnto out = e.2.write.reverse ++ out) (out : Bytes) :
    writeMembers members out = (members.flatMap fun e => 0x2c :: writeMember e).reverse ++ out := by
  induction members generalizing out with
  | nil => rfl
  | cons e rest ih =>
      obtain ⟨key, v⟩ := e
      obtain ⟨hv, hrest⟩ := List.forall_mem_cons.mp h
      rw [writeMembers, ih hrest, hv]
      simp [writeMember]

/-- A value is written after the output, which stays. -/
theorem writeOnto_eq (j : Json) (out : Bytes) : j.writeOnto out = j.write.reverse ++ out := by
  rw [write, List.reverse_reverse]
  induction j using induct generalizing out with
  | null | unsigned | signed | double | str => simp [writeOnto]
  | bool b => cases b <;> simp [writeOnto]
  | arr items ih =>
      cases items with
      | nil => simp [writeOnto]
      | cons v rest =>
          obtain ⟨hv, hrest⟩ := List.forall_mem_cons.mp ih
          have hrest' : ∀ v ∈ rest, ∀ out, v.writeOnto out = v.write.reverse ++ out :=
            fun v hm out => by rw [write, List.reverse_reverse]; exact hrest v hm out
          simp only [writeOnto, writeItems_eq hrest']
          rw [hv (0x5b :: out), hv [0x5b]]
          simp
  | obj members ih =>
      cases members with
      | nil => simp [writeOnto]
      | cons e rest =>
          obtain ⟨key, v⟩ := e
          obtain ⟨hv, hrest⟩ := List.forall_mem_cons.mp ih
          have hrest' : ∀ e ∈ rest, ∀ out, e.2.writeOnto out = e.2.write.reverse ++ out :=
            fun e hm out => by rw [write, List.reverse_reverse]; exact hrest e hm out
          simp only [writeOnto, writeMembers_eq hrest']
          rw [hv (0x3a :: (quote key).reverseAux (0x7b :: out)),
            hv (0x3a :: (quote key).reverseAux [0x7b])]
          simp

/-! ### Text by parts -/

theorem write_arr (v : Json) (rest : List Json) :
    (Json.arr (v :: rest)).write =
      0x5b :: (v.write ++ ((rest.flatMap fun v => 0x2c :: v.write) ++ [0x5d])) := by
  rw [write, writeOnto, writeItems_eq fun v _ => writeOnto_eq v, writeOnto_eq]
  simp

theorem write_obj (e : Bytes × Json) (rest : List (Bytes × Json)) :
    (Json.obj (e :: rest)).write =
      0x7b :: (writeMember e ++ ((rest.flatMap fun e => 0x2c :: writeMember e) ++ [0x7d])) := by
  obtain ⟨key, v⟩ := e
  rw [write, writeOnto, writeMembers_eq fun e _ => writeOnto_eq e.2, writeOnto_eq]
  simp [writeMember]

/-! ### Bytes that are written -/

theorem le_of_mem_of_all {text : Bytes} (h : (text.all fun c => 0x20 ≤ c) = true) :
    ∀ c ∈ text, 0x20 ≤ c :=
  fun c hc => of_decide_eq_true (List.all_eq_true.mp h c hc)

theorem le_of_mem_escape (b : UInt8) : ∀ c ∈ escape b, 0x20 ≤ c :=
  le_of_mem_of_all (Bytes.forall_byte
    (p := fun b => ((escape b).all fun c => 0x20 ≤ c) = true) (by decide +kernel) b)

theorem le_of_mem_quote (s : Bytes) : ∀ c ∈ quote s, 0x20 ≤ c := by
  refine List.forall_mem_append.mpr ⟨List.forall_mem_cons.mpr ⟨by decide, fun c hc => ?_⟩,
    List.forall_mem_singleton.mpr (by decide)⟩
  obtain ⟨b, -, hc⟩ := List.mem_flatMap.mp hc
  exact le_of_mem_escape b c hc

theorem le_of_isNumberByte (b : UInt8) : Double.isNumberByte b = true → 0x20 ≤ b := by
  grind [Double.isNumberByte, Decimal.isDigit]

theorem le_of_mem_ofNat (n : ℕ) : ∀ b ∈ Decimal.ofNat n, 0x20 ≤ b := fun b hb =>
  le_of_isNumberByte b (Double.isNumberByte_of_isDigit (Decimal.isDigit_of_mem_ofNat hb))

theorem le_of_mem_ofInt (n : Int) : ∀ b ∈ Decimal.ofInt n, 0x20 ≤ b := by
  cases n with
  | ofNat n => exact le_of_mem_ofNat n
  | negSucc n => exact List.forall_mem_cons.mpr ⟨by decide, le_of_mem_ofNat _⟩

theorem le_of_mem_writeMember {e : Bytes × Json} (h : ∀ b ∈ e.2.write, 0x20 ≤ b) :
    ∀ b ∈ writeMember e, 0x20 ≤ b :=
  List.forall_mem_append.mpr ⟨le_of_mem_quote e.1, List.forall_mem_cons.mpr ⟨by decide, h⟩⟩

theorem forall_mem_flatMap_comma {α : Type} {items : List α} {text : α → Bytes}
    (h : ∀ x ∈ items, ∀ b ∈ text x, 0x20 ≤ b) :
    ∀ b ∈ items.flatMap fun x => 0x2c :: text x, (0x20 : UInt8) ≤ b := by
  intro b hb
  obtain ⟨x, hx, hb⟩ := List.mem_flatMap.mp hb
  exact List.forall_mem_cons.mpr ⟨by decide, h x hx⟩ b hb

theorem write_double (x : Double) : (Json.double x).write = doubleText x := by
  simp [write, writeOnto]

/-- No control byte stands in the text of a value. -/
theorem le_of_mem_write (j : Json) : ∀ b ∈ j.write, 0x20 ≤ b := by
  induction j using induct with
  | null => exact le_of_mem_of_all rfl
  | bool b => cases b <;> exact le_of_mem_of_all rfl
  | unsigned n => simpa [write, writeOnto] using le_of_mem_ofNat n.toNat
  | signed n => simpa [write, writeOnto] using le_of_mem_ofInt n.toInt
  | double x =>
      rw [write_double, doubleText]
      split
      · exact fun b hb => le_of_isNumberByte b (x.isNumberByte_of_mem_toText b hb)
      · exact le_of_mem_of_all rfl
  | str s => simpa [write, writeOnto] using le_of_mem_quote s
  | arr items ih =>
      cases items with
      | nil => exact le_of_mem_of_all rfl
      | cons v rest =>
          obtain ⟨hv, hrest⟩ := List.forall_mem_cons.mp ih
          rw [write_arr]
          exact List.forall_mem_cons.mpr ⟨by decide, List.forall_mem_append.mpr ⟨hv,
            List.forall_mem_append.mpr
              ⟨forall_mem_flatMap_comma hrest, List.forall_mem_singleton.mpr (by decide)⟩⟩⟩
  | obj members ih =>
      cases members with
      | nil => exact le_of_mem_of_all rfl
      | cons e rest =>
          obtain ⟨he, hrest⟩ := List.forall_mem_cons.mp ih
          rw [write_obj]
          exact List.forall_mem_cons.mpr ⟨by decide, List.forall_mem_append.mpr
            ⟨le_of_mem_writeMember he, List.forall_mem_append.mpr
              ⟨forall_mem_flatMap_comma fun e hm => le_of_mem_writeMember (hrest e hm),
                List.forall_mem_singleton.mpr (by decide)⟩⟩⟩

end FleetControl.Json
