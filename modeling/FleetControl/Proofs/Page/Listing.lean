import FleetControl.Page.Listing
import FleetControl.Proofs.Bytes
import FleetControl.Proofs.Page.Token

/-!
# Listing in pages — where a page starts, and what is on it

`paginate_eq` takes the two apart, and `paginate_map` says that pages look at nothing but keys.  In a
list that ascends by key a page starts with the first item past the key of its token
(`startingAt_eq`).  A page has a token as long as there is more (`pageOf_token_eq_nil_iff`), but one
with a long key cannot be gone on with (`token_taken_back_iff`).
-/

namespace FleetControl

/-- A cursor that seals everything alike. -/
def Cursor.plain : Cursor := ⟨fun _ => List.replicate 32 0, fun _ => List.length_replicate⟩

variable {α β : Type}

/-- The items from where a page starts. -/
def startingAt (key : α → Bytes) (sorted : List α) : Option Bytes → List α
  | none => sorted
  | some last => sorted.drop (countUpTo key sorted last)

/-- The page of the first of the items left. -/
def pageOf (key : α → Bytes) (cursor : Cursor) (size : UInt32) (available : List α) : Page α :=
  let items := if size = 0 then available else available.take size.toNat
  let remaining := available.length - items.length
  let token := match items.getLast? with
    | some last => if 0 < remaining then cursor.encode ⟨key last, size⟩ else []
    | none => []
  ⟨items, token, remaining⟩

theorem paginate_eq (key : α → Bytes) (sorted : List α) (cursor : Cursor) (r : PageRequest) :
    paginate key sorted cursor r = (r.resolve cursor).map fun resolved =>
      pageOf key cursor resolved.2 (startingAt key sorted resolved.1) := by
  rw [paginate]
  cases r.resolve cursor with
  | error cause => rfl
  | ok resolved =>
      obtain ⟨start, size⟩ := resolved
      cases start <;> rfl

theorem countUpTo_map (g : α → β) (key : β → Bytes) (sorted : List α) (last : Bytes) :
    countUpTo key (sorted.map g) last = countUpTo (fun x => key (g x)) sorted last := by
  simp [countUpTo, Option.any_map]

theorem startingAt_map (g : α → β) (key : β → Bytes) (sorted : List α) (start : Option Bytes) :
    startingAt key (sorted.map g) start = (startingAt (fun x => key (g x)) sorted start).map g := by
  cases start with
  | none => rfl
  | some last => rw [startingAt, startingAt, countUpTo_map, List.map_drop]

theorem pageOf_map (g : α → β) (key : β → Bytes) (cursor : Cursor) (size : UInt32)
    (available : List α) : pageOf key cursor size (available.map g) =
      (pageOf (fun x => key (g x)) cursor size available).map g := by
  obtain ⟨items, hitems⟩ : ∃ items, items =
      if size = 0 then available else available.take size.toNat := ⟨_, rfl⟩
  have hmap : (if size = 0 then available.map g else (available.map g).take size.toNat) =
      items.map g := by
    rw [hitems]
    split
    · rfl
    · rw [List.map_take]
  rw [pageOf, pageOf]
  simp only [hmap, ← hitems, List.length_map, List.getLast?_map]
  cases items.getLast? <;> rfl

/-- A page of mapped items is the mapped page. -/
theorem paginate_map (g : α → β) (key : β → Bytes) (sorted : List α) (cursor : Cursor)
    (r : PageRequest) : paginate key (sorted.map g) cursor r =
      (paginate (fun x => key (g x)) sorted cursor r).map (Page.map g) := by
  rw [paginate_eq, paginate_eq]
  cases r.resolve cursor with
  | error cause => rfl
  | ok resolved =>
      have h := pageOf_map g key cursor resolved.2
        (startingAt (fun x => key (g x)) sorted resolved.1)
      rw [← startingAt_map] at h
      exact congrArg Except.ok h

/-! ### Where a page starts -/

/-- Halving finds the place from which on `past` holds. -/
theorem bisect_eq {past : Nat → Bool} {first count place : Nat} (hfirst : first ≤ place)
    (hlast : place ≤ first + count) (hbefore : ∀ i < place, past i = false)
    (hfrom : ∀ i, place ≤ i → i < first + count → past i = true) :
    bisect past first count = place := by
  induction first, count using bisect.induct past with
  | case1 first =>
      rw [bisect, if_pos rfl]
      omega
  | case2 first count hcount half hpast ih =>
      have hplace : place ≤ first + half := by
        refine Nat.le_of_not_lt fun hlt => ?_
        rw [hbefore _ hlt] at hpast
        cases hpast
      rw [bisect, if_neg hcount]
      simp only [hpast, if_true, half]
      exact ih hfirst hplace fun i hi hlt => hfrom i hi (by omega)
  | case3 first count hcount half hpast ih =>
      have hplace : first + half + 1 ≤ place := by
        refine Nat.lt_of_not_le fun hle => hpast (hfrom _ hle ?_)
        omega
      rw [bisect, if_neg hcount]
      simp only [hpast, Bool.false_eq_true, if_false, half]
      exact ih hplace (by omega) fun i hi hlt => hfrom i hi (by omega)

/-- The keys of a list strictly ascend. -/
def Ascends (key : α → Bytes) (items : List α) : Prop := items.Pairwise fun x y => key x < key y

/-- A listing shows, page by page, items that ascend by key. -/
def PagesAscending (key : α → Bytes) (cursor : Cursor)
    (list : PageRequest → Except PageRequest.Refusal (Page α)) : Prop :=
  ∃ items, Ascends key items ∧ ∀ r, list r = paginate key items cursor r

/-- The items past a place, if there is one to be past of. -/
def itemsPast (key : α → Bytes) (start : Option Bytes) (items : List α) : List α :=
  items.filter fun x => start.all fun last => Bytes.before last (key x)

theorem itemsPast_none (key : α → Bytes) (items : List α) : itemsPast key none items = items := by
  rw [itemsPast, List.filter_eq_self]
  exact fun _ _ => rfl

theorem mem_itemsPast_iff {key : α → Bytes} {start : Option Bytes} {items : List α} {x : α} :
    x ∈ itemsPast key start items ↔ x ∈ items ∧ ∀ last, start = some last → last < key x := by
  rw [itemsPast, List.mem_filter, Option.all_eq_true]
  simp only [Bytes.before_iff]

/-- What is past a key stands together at the end of an ascending list. -/
theorem filter_append_itemsPast {key : α → Bytes} {items : List α} (h : Ascends key items)
    (last : Bytes) : (items.filter fun x => !Bytes.before last (key x)) ++
      itemsPast key (some last) items = items := by
  rw [itemsPast]
  induction items with
  | nil => rfl
  | cons x xs ih =>
      obtain ⟨hx, hxs⟩ := List.pairwise_cons.mp h
      cases hb : Bytes.before last (key x) with
      | false =>
          have hrest := ih hxs
          simp only [Option.all_some] at hrest
          simp [hb, hrest]
      | true =>
          have hall : ∀ y ∈ xs, Bytes.before last (key y) = true := fun y hy =>
            Bytes.before_iff.mpr (Bytes.lt_trans (Bytes.before_iff.mp hb) (hx y hy))
          have hnone : xs.filter (fun y => !Bytes.before last (key y)) = [] :=
            List.filter_eq_nil_iff.mpr fun y hy => by simp [hall y hy]
          simp [hb, hnone, List.filter_eq_self.mpr hall]

theorem countUpTo_append {key : α → Bytes} {front back : List α} {last : Bytes}
    (hfront : ∀ x ∈ front, Bytes.before last (key x) = false)
    (hback : ∀ x ∈ back, Bytes.before last (key x) = true) :
    countUpTo key (front ++ back) last = front.length := by
  rw [countUpTo]
  refine bisect_eq (Nat.zero_le _) (by simp) (fun i hi => ?_) fun i hi hlt => ?_
  · rw [List.getElem?_toArray, List.getElem?_append_left hi, List.getElem?_eq_getElem hi]
    exact hfront _ (List.getElem_mem hi)
  · rw [Nat.zero_add, List.size_toArray, List.length_append] at hlt
    have hb : i - front.length < back.length := by omega
    rw [List.getElem?_toArray, List.getElem?_append_right hi, List.getElem?_eq_getElem hb]
    exact hback _ (List.getElem_mem hb)

/-- In an ascending list a page starts with the first item past the key of its token. -/
theorem startingAt_eq {key : α → Bytes} {items : List α} (h : Ascends key items)
    (start : Option Bytes) : startingAt key items start = itemsPast key start items := by
  cases start with
  | none => rw [startingAt, itemsPast_none]
  | some last =>
      obtain ⟨front, hfront⟩ : ∃ front, front = items.filter fun x => !Bytes.before last (key x) :=
        ⟨_, rfl⟩
      have hcount : countUpTo key items last = front.length := by
        conv => lhs; rw [← filter_append_itemsPast h last, ← hfront]
        refine countUpTo_append (fun x hx => ?_) fun x hx => ?_
        · rw [hfront] at hx
          simpa using (List.mem_filter.mp hx).2
        · exact Bytes.before_iff.mpr ((mem_itemsPast_iff.mp hx).2 last rfl)
      rw [startingAt, hcount]
      conv => lhs; rw [← filter_append_itemsPast h last, ← hfront]
      rw [List.drop_left]

/-! ### What is on a page -/

theorem pageOf_items {key : α → Bytes} {cursor : Cursor} {size : UInt32} (h : size ≠ 0)
    (available : List α) :
    (pageOf key cursor size available).items = available.take size.toNat := by
  simp only [pageOf, if_neg h]

/-- What is not on the page remains. -/
theorem pageOf_remaining (key : α → Bytes) (cursor : Cursor) (size : UInt32)
    (available : List α) : (pageOf key cursor size available).items.length +
      (pageOf key cursor size available).remaining = available.length := by
  have hle : (pageOf key cursor size available).items.length ≤ available.length := by
    simp only [pageOf]
    split
    · exact Nat.le_refl _
    · exact List.length_take_le' _ _
  exact Nat.add_sub_of_le hle

/-- What stands on a page stands in the listing. -/
theorem mem_of_mem_paginate {key : α → Bytes} {sorted : List α} {cursor : Cursor}
    {r : PageRequest} {page : Page α} (h : paginate key sorted cursor r = .ok page) {x : α}
    (hx : x ∈ page.items) : x ∈ sorted := by
  rw [paginate_eq] at h
  cases hr : r.resolve cursor with
  | error => rw [hr] at h; cases h
  | ok resolved =>
      obtain ⟨start, size⟩ := resolved
      rw [hr] at h
      cases h
      have havailable : x ∈ startingAt key sorted start := by
        simp only [pageOf] at hx
        split at hx
        · exact hx
        · exact List.mem_of_mem_take hx
      cases start with
      | none => exact havailable
      | some last => exact List.mem_of_mem_drop havailable

theorem pageOf_items_ne_nil (key : α → Bytes) (cursor : Cursor) (size : UInt32)
    {available : List α} (h : available ≠ []) : (pageOf key cursor size available).items ≠ [] := by
  by_cases hs : size = 0
  · simpa only [pageOf, if_pos hs] using h
  · rw [pageOf_items hs, ne_eq, List.take_eq_nil_iff, not_or]
    exact ⟨fun hzero => hs (UInt32.toNat_inj.mp hzero), h⟩

/-- The token is that of the last item on the page, if any remain. -/
theorem pageOf_token (key : α → Bytes) (cursor : Cursor) (size : UInt32) (available : List α) :
    (pageOf key cursor size available).token =
      if (pageOf key cursor size available).remaining = 0 then []
      else match (pageOf key cursor size available).items.getLast? with
        | some last => cursor.encode ⟨key last, size⟩
        | none => [] := by
  have htoken : (pageOf key cursor size available).token =
      match (pageOf key cursor size available).items.getLast? with
      | some last => if 0 < (pageOf key cursor size available).remaining then
          cursor.encode ⟨key last, size⟩ else []
      | none => [] := rfl
  rw [htoken]
  by_cases hr : (pageOf key cursor size available).remaining = 0
  · rw [if_pos hr, hr]
    split <;> rfl
  · simp only [if_neg hr, if_pos (Nat.pos_of_ne_zero hr)]

/-- If items remain, there is a last one on the page, whose key the token holds. -/
theorem pageOf_token_of_remaining {key : α → Bytes} {cursor : Cursor} {size : UInt32}
    {available : List α} (h : (pageOf key cursor size available).remaining ≠ 0) :
    ∃ last, (pageOf key cursor size available).items.getLast? = some last ∧
      (pageOf key cursor size available).token = cursor.encode ⟨key last, size⟩ := by
  have ha : available ≠ [] := by
    rintro rfl
    exact h (Nat.eq_zero_of_add_eq_zero_left (pageOf_remaining key cursor size []))
  have hitems := pageOf_items_ne_nil key cursor size ha
  refine ⟨_, List.getLast?_eq_some_getLast hitems, ?_⟩
  rw [pageOf_token, if_neg h, List.getLast?_eq_some_getLast hitems]

/-- There is a token just as long as there is more. -/
theorem pageOf_token_eq_nil_iff (key : α → Bytes) (cursor : Cursor) (size : UInt32)
    (available : List α) : (pageOf key cursor size available).token = [] ↔
      (pageOf key cursor size available).remaining = 0 := by
  by_cases hr : (pageOf key cursor size available).remaining = 0
  · exact iff_of_true (by rw [pageOf_token, if_pos hr]) hr
  · obtain ⟨last, -, htoken⟩ := pageOf_token_of_remaining hr
    exact iff_of_false (htoken ▸ cursor.encode_ne_nil _) hr

/-- Without a page size everything is on the first page. -/
theorem paginate_all (key : α → Bytes) (items : List α) (cursor : Cursor) :
    paginate key items cursor {} = .ok { items } := by
  have hpage : pageOf key cursor 0 items = { items } := by
    simp only [pageOf, if_true, Nat.sub_self, Nat.lt_irrefl, if_false]
    split <;> rfl
  rw [← hpage]
  exact paginate_eq key items cursor {}

/-! ### Going on -/

theorem PageRequest.size_of_word (limit : UInt32) (token : Bytes) :
    size ⟨limit.toNat, token⟩ = .ok limit := by
  have hlt := limit.toNat_lt
  have hsize : UInt32.size = 2 ^ 32 := rfl
  simp only [size]
  rw [if_neg (by omega), if_neg (by omega), Int.toNat_natCast, UInt32.ofNat_toNat]

theorem PageRequest.resolve_first (cursor : Cursor) (limit : UInt32) :
    resolve ⟨limit.toNat, []⟩ cursor = .ok (none, limit) := by
  rw [resolve, size_of_word]
  rfl

/-- A request with a token of the codec's own goes on from there, if the token can be read. -/
theorem PageRequest.resolve_encode (cursor : Cursor) (p : Position) (limit : UInt32) :
    resolve ⟨limit.toNat, cursor.encode p⟩ cursor =
      if p.lastKey.length ≤ Cursor.keySize then
        .ok (some p.lastKey, if limit = 0 then p.limit else limit)
      else .error (.badToken .badLength) := by
  rw [resolve, size_of_word]
  have hne : (cursor.encode p).isEmpty = false := by simp [Cursor.encode_ne_nil]
  simp only [hne, Cursor.decode_encode]
  by_cases hp : p.lastKey.length ≤ Cursor.keySize
  · rw [if_pos hp, if_pos hp]
    rfl
  · rw [if_neg hp, if_neg hp]
    rfl

/-- A codec reads a token of its own back just if the key is no longer than `keySize`.  A listing
makes tokens of longer keys all the same, and then cannot be gone on with. -/
theorem token_taken_back_iff (cursor : Cursor) :
    (∀ p, cursor.decode (cursor.encode p) =
      if p.lastKey.length ≤ Cursor.keySize then .ok p else .error .badLength) ∧
    ∀ {α : Type} {key : α → Bytes} {items : List α} {r : PageRequest} {page : Page α},
      paginate key items cursor r = .ok page → page.token ≠ [] →
        ∃ last, page.items.getLast? = some last ∧ ∀ (later : List α) (limit : UInt32),
          (∃ next, paginate key later cursor ⟨limit.toNat, page.token⟩ = .ok next) ↔
            (key last).length ≤ Cursor.keySize := by
  refine ⟨cursor.decode_encode, fun {α key items r page} h ht => ?_⟩
  rw [paginate_eq] at h
  cases hr : r.resolve cursor with
  | error cause => rw [hr] at h; cases h
  | ok resolved =>
      rw [hr] at h
      cases h
      obtain ⟨last, hlast, htoken⟩ := pageOf_token_of_remaining
        fun hzero => ht ((pageOf_token_eq_nil_iff key cursor _ _).mpr hzero)
      refine ⟨last, hlast, fun later limit => ?_⟩
      rw [htoken, paginate_eq, PageRequest.resolve_encode]
      by_cases hfits : (key last).length ≤ Cursor.keySize
      · rw [if_pos hfits]
        exact iff_of_true ⟨_, rfl⟩ hfits
      · rw [if_neg hfits]
        exact iff_of_false (fun ⟨_, hnext⟩ => nomatch hnext) hfits

/-- Of two short keys the first is on the first page, and its token opens the second. -/
theorem listing_of_short_keys_goes_on :
    ∃ page next, paginate id [[1], [2]] .plain { limit := 1 } = .ok page ∧ page.items = [[1]] ∧
      paginate id [[2]] .plain ⟨(0 : UInt32).toNat, page.token⟩ = .ok next := by
  have hpage : paginate id [[1], [2]] .plain { limit := 1 } =
      .ok (pageOf id .plain 1 [[1], [2]]) := rfl
  obtain ⟨last, hlast, hnext⟩ := (token_taken_back_iff .plain).2 hpage (by decide)
  obtain rfl : last = [1] := (Option.some.inj hlast).symm
  obtain ⟨next, hok⟩ := (hnext [[2]] 0).mpr (by decide)
  exact ⟨_, next, hpage, rfl, hok⟩

/-- The codec of a secret refuses the token that it has made of a key of 3035 bytes. -/
theorem token_of_long_key_refused :
    ∃ cursor, Cursor.ofSecret (List.replicate 32 0x5a) = .ok cursor ∧
      cursor.decode (cursor.encode ⟨List.replicate 3035 0x61, 25⟩) = .error .badLength := by
  refine ⟨_, rfl, ?_⟩
  rw [Cursor.decode_encode, List.length_replicate]
  exact if_neg (by decide)

end FleetControl
