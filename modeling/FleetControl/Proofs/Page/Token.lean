import FleetControl.Page.Token
import FleetControl.Proofs.Bytes.Base64Url

/-!
# Continue tokens — a codec accepts what it made, as far as it looks

Every step of reading a token is undone by the step that wrote it: `split_eq_ok_iff`,
`Base64Url.decode_eq_ok_iff`, `readPayload_eq_ok_iff`.  So a token that is accepted is byte for byte
the one of the position read from it (`decode_eq_ok_iff`).  The other way round this holds only of
tokens that are short enough to be looked at, which is a limit on the key (`length_encode_le_iff`):
the token of a longer key is made all the same, and then refused by its own codec.
-/

namespace FleetControl.Cursor

variable {c : Cursor} {token body left right : Bytes} {p : Position}

/-! ### The parts of a token -/

theorem payload_eq (p : Position) : payload p = version :: (p.limit >>> 24).toUInt8 ::
    (p.limit >>> 16).toUInt8 :: (p.limit >>> 8).toUInt8 :: p.limit.toUInt8 :: p.lastKey := rfl

theorem readPayload_payload (p : Position) : readPayload (payload p) = .ok p := by
  rw [payload_eq, readPayload, if_pos rfl, Bytes.toWord_ofWord]

theorem readPayload_eq_ok_iff : readPayload body = .ok p ↔ body = payload p := by
  constructor
  · intro h
    rw [readPayload.eq_def] at h
    split at h
    · rename_i v a b c d key
      split at h
      · rename_i hv
        cases h
        rw [payload, Bytes.ofWord_toWord, hv]
        rfl
      · cases h
    · cases h
  · rintro rfl
    exact readPayload_payload p

theorem payload_inj {q : Position} (h : payload p = payload q) : p = q := by
  have hp := readPayload_payload p
  rw [h, readPayload_payload] at hp
  exact (Except.ok.inj hp).symm

/-- A token is cut at its only dot. -/
theorem split_eq_ok_iff :
    split token = .ok (left, right) ↔ token = left ++ dot :: right ∧ dot ∉ left ∧ dot ∉ right := by
  constructor
  · intro h
    rw [split] at h
    cases hd : token.dropWhile (· != dot) with
    | nil => rw [hd] at h; cases h
    | cons x rest =>
        simp only [hd] at h
        split at h
        · cases h
        rename_i hrest
        cases h
        have hx : x = dot := by
          have hstop := List.head?_dropWhile_not (· != dot) token
          rw [hd] at hstop
          simpa using hstop
        subst hx
        refine ⟨?_, fun hm => ?_, fun hm => hrest (List.contains_iff_mem.mpr hm)⟩
        · rw [← hd, List.takeWhile_append_dropWhile]
        · have hkept := List.all_eq_true.mp List.all_takeWhile _ hm
          exact absurd rfl (bne_iff_ne.mp hkept)
  · rintro ⟨rfl, hl, hr⟩
    have hleft : ∀ x ∈ left, (x != dot) = true := fun x hx =>
      bne_iff_ne.mpr fun e => hl (e ▸ hx)
    rw [split, List.dropWhile_append_of_pos hleft, List.takeWhile_append_of_pos hleft,
      List.dropWhile_cons_of_neg (by simp), List.takeWhile_cons_of_neg (by simp), List.append_nil]
    simp only [List.contains_iff_mem, hr, if_false]

theorem split_encode (c : Cursor) (p : Position) : split (c.encode p) =
    .ok (Base64Url.encode (payload p), Base64Url.encode (c.sealOf (payload p))) :=
  split_eq_ok_iff.mpr
    ⟨rfl, Base64Url.dot_not_mem_encode _, Base64Url.dot_not_mem_encode _⟩

/-! ### How long a token is -/

theorem length_encode (c : Cursor) (p : Position) :
    (c.encode p).length = (4 * (p.lastKey.length + 5) + 2) / 3 + 44 := by
  simp [encode, Base64Url.length_encode, c.length_sealOf, payload_eq]

/-- The longest key whose token is short enough to be looked at. -/
def keySize : Nat := 3034

theorem length_encode_le_iff : (c.encode p).length ≤ tokenSize ↔ p.lastKey.length ≤ keySize := by
  rw [length_encode, tokenSize, keySize]
  omega

theorem encode_ne_nil (c : Cursor) (p : Position) : c.encode p ≠ [] := by
  intro h
  have hl := c.length_encode p
  rw [h] at hl
  simp at hl

/-! ### What is accepted -/

/-- The tokens that are accepted are those of the codec itself that it looks at. -/
theorem decode_eq_ok_iff :
    c.decode token = .ok p ↔ token = c.encode p ∧ token.length ≤ tokenSize := by
  constructor
  · intro h
    rw [decode] at h
    split at h
    · cases h
    rename_i hlength
    simp only [Bool.or_eq_true, List.isEmpty_iff, decide_eq_true_eq, not_or, Nat.not_lt] at hlength
    split at h
    · cases h
    rename_i left right hsplit
    split at h
    · rename_i body code hbody hcode
      split at h
      · rename_i hseal
        -- every part is the written form of what was read from it
        obtain ⟨rfl, -, -⟩ := split_eq_ok_iff.mp hsplit
        obtain rfl := Base64Url.decode_eq_ok_iff.mp hbody
        obtain rfl := Base64Url.decode_eq_ok_iff.mp hcode
        obtain rfl := Bytes.constantTimeEq_iff.mp hseal
        obtain rfl := readPayload_eq_ok_iff.mp h
        exact ⟨rfl, hlength.2⟩
      · cases h
    · cases h
  · rintro ⟨rfl, hlength⟩
    have hlooked : ((c.encode p).isEmpty || decide (tokenSize < (c.encode p).length)) = false := by
      simp [encode_ne_nil, hlength]
    rw [decode, hlooked, split_encode]
    simp only [Bool.false_eq_true, if_false, Base64Url.decode_encode,
      Bytes.constantTimeEq_iff.mpr, if_true, readPayload_payload]

/-- What is not a token of the codec is refused as no token. -/
theorem decode_of_ne_encode (h : ∀ p, token ≠ c.encode p) :
    ∃ cause, c.decode token = .error cause ∧ cause.fault.kind = .invalidCursor := by
  cases hd : c.decode token with
  | error cause => exact ⟨cause, rfl, rfl⟩
  | ok p => exact absurd (decode_eq_ok_iff.mp hd).1 (h p)

/-- Codecs make the same token only of the same position, and with the same seal. -/
theorem encode_eq_encode {other : Cursor} {q : Position} (h : other.encode p = c.encode q) :
    p = q ∧ other.sealOf (payload p) = c.sealOf (payload q) := by
  have hs := split_encode other p
  rw [h, split_encode, Except.ok.injEq, Prod.mk.injEq] at hs
  exact ⟨payload_inj (Base64Url.encode_inj hs.1).symm, (Base64Url.encode_inj hs.2).symm⟩

/-- A codec takes back the tokens that it made and that are not too long, and nothing else: each
position from one token only, and no token of a codec that would have sealed it differently. -/
theorem only_own_tokens_taken_back (c : Cursor) (token : Bytes) :
    (∀ p, c.decode token = .ok p ↔ token = c.encode p ∧ token.length ≤ tokenSize) ∧
      ((∀ p, token ≠ c.encode p) →
        ∃ cause, c.decode token = .error cause ∧ cause.fault.kind = .invalidCursor) ∧
      (∀ token' p, c.decode token = .ok p → c.decode token' = .ok p → token = token') ∧
      ∀ (other : Cursor) p, other.sealOf (payload p) ≠ c.sealOf (payload p) →
        token = other.encode p →
          ∃ cause, c.decode token = .error cause ∧ cause.fault.kind = .invalidCursor := by
  refine ⟨fun p => decode_eq_ok_iff, decode_of_ne_encode, fun token' p h h' => ?_, ?_⟩
  · rw [(decode_eq_ok_iff.mp h).1, (decode_eq_ok_iff.mp h').1]
  · rintro other p hseal rfl
    refine decode_of_ne_encode fun q hq => hseal ?_
    obtain ⟨rfl, hs⟩ := encode_eq_encode hq
    exact hs

/-- A token is read back unless its key is too long. -/
theorem decode_encode (c : Cursor) (p : Position) :
    c.decode (c.encode p) = if p.lastKey.length ≤ keySize then .ok p else .error .badLength := by
  by_cases hp : p.lastKey.length ≤ keySize
  · rw [if_pos hp]
    exact decode_eq_ok_iff.mpr ⟨rfl, length_encode_le_iff.mpr hp⟩
  · have hlong : tokenSize < (c.encode p).length :=
      Nat.lt_of_not_le fun h => hp (length_encode_le_iff.mp h)
    rw [if_neg hp, decode, if_pos (by simp [hlong])]

end FleetControl.Cursor
