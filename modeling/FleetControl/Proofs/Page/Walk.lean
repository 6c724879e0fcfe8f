import FleetControl.Proofs.Page.Listing
import Mathlib.Data.List.Basic

/-!
# Going through a listing — while it changes

A client asks for one page after the other, each with the token of the page before, and the listing
may be a different one at every call.  `walk` is what the client is given.  `Follow` says how pages
follow one another, and `walk_follows` that these do.  What the client has seen in the end is read
off that relation: keys only ever ascend (`Follow.ascends`), and a key that was there at every call
is among them (`Follow.complete`).
-/

namespace FleetControl

variable {α : Type} {key : α → Bytes} {cursor : Cursor} {start : Option Bytes} {size : UInt32}

/-- One call of a client: the items of the listing at that time, and the page size asked for. -/
structure Call (α : Type) where
  items : List α
  limit : UInt32

namespace Call

/-- The page size that a call comes to after a page: zero asks for the size of that page. -/
def sizeAfter (call : Call α) (size : UInt32) : UInt32 :=
  if call.limit = 0 then size else call.limit

/-- The items ascend by key, and no key is too long for a token. -/
structure Pageable (key : α → Bytes) (call : Call α) : Prop where
  ascends : Ascends key call.items
  fits : ∀ x ∈ call.items, (key x).length ≤ Cursor.keySize

end Call

variable {call : Call α} {calls : List (Call α)} {page : Page α} {pages : List (Page α)}

/-- What a client is given who asks for page after page, until there is no token to go on with. -/
def walk (key : α → Bytes) (cursor : Cursor) :
    Bytes → List (Call α) → Except PageRequest.Refusal (List (Page α))
  | _, [] => .ok []
  | token, call :: calls =>
    match paginate key call.items cursor ⟨call.limit.toNat, token⟩ with
    | .error cause => .error cause
    | .ok page =>
      if page.token.isEmpty then .ok [page]
      else (walk key cursor page.token calls).map (page :: ·)

/-! ### Pages that follow one another -/

/-- A page has the first items past a place and says how many are past the page; it has a token if
there are any. -/
structure Page.Continues (page : Page α) (key : α → Bytes) (start : Option Bytes) (size : UInt32)
    (listed : List α) : Prop where
  items : page.items = (itemsPast key start listed).take size.toNat
  remaining : page.remaining = ((itemsPast key start listed).drop size.toNat).length
  token : page.token = [] ↔ page.remaining = 0

/-- Pages from a place on, after a page of a size.  A token holds the key of the last item on its
page and the size of that, and the next page starts past it.  The last page alone has no token,
unless there were no more calls. -/
inductive Follow (key : α → Bytes) (cursor : Cursor) :
    Option Bytes → UInt32 → List (Call α) → List (Page α) → Prop where
  | idle {start : Option Bytes} {size : UInt32} : Follow key cursor start size [] []
  | last {start : Option Bytes} {size : UInt32} {call : Call α} {calls : List (Call α)}
      {page : Page α} (shown : page.Continues key start (call.sizeAfter size) call.items)
      (ended : page.token = []) : Follow key cursor start size (call :: calls) [page]
  | more {start : Option Bytes} {size : UInt32} {call : Call α} {calls : List (Call α)}
      {page : Page α} {pages : List (Page α)} {x : α}
      (shown : page.Continues key start (call.sizeAfter size) call.items)
      (hx : page.items.getLast? = some x)
      (left : cursor.decode page.token = .ok ⟨key x, call.sizeAfter size⟩)
      (rest : Follow key cursor (some (key x)) (call.sizeAfter size) calls pages) :
      Follow key cursor start size (call :: calls) (page :: pages)

/-- What is seen on pages. -/
def seen (pages : List (Page α)) : List α := pages.flatMap (·.items)

/-- The client was told that there is no more. -/
def Finished (pages : List (Page α)) : Prop := ∃ page, pages.getLast? = some page ∧ page.token = []

theorem Page.Continues.mem_itemsPast (h : page.Continues key start size call.items) {x : α}
    (hx : x ∈ page.items) : x ∈ itemsPast key start call.items := by
  rw [h.items] at hx
  exact List.mem_of_mem_take hx

theorem Ascends.itemsPast {items : List α} (h : Ascends key items) (start : Option Bytes) :
    Ascends key (itemsPast key start items) := List.Pairwise.filter _ h

/-- What is past the place is what is on the page and what is past that. -/
theorem Page.Continues.append_drop (h : page.Continues key start size call.items) :
    page.items ++ (itemsPast key start call.items).drop size.toNat =
      itemsPast key start call.items := by
  rw [h.items, List.take_append_drop]

theorem Page.Continues.ascends (h : page.Continues key start size call.items)
    (hc : Ascends key call.items) : Ascends key page.items := by
  rw [h.items]
  exact (hc.itemsPast start).sublist (List.take_sublist _ _)

theorem Ascends.le_getLast {items : List α} (h : Ascends key items) {x z : α} (hx : x ∈ items)
    (hz : items.getLast? = some z) : key x < key z ∨ key x = key z := by
  obtain ⟨front, rfl⟩ := List.getLast?_eq_some_iff.mp hz
  rcases List.mem_append.mp hx with hfront | hend
  · exact .inl ((List.pairwise_append.mp h).2.2 x hfront z List.mem_cons_self)
  · exact .inr (congrArg key (List.mem_singleton.mp hend))

/-- What a client sees ascends by key, from the place on where it started. -/
theorem Follow.ascends (h : Follow key cursor start size calls pages)
    (hc : ∀ call ∈ calls, Ascends key call.items) :
    Ascends key (seen pages) ∧ ∀ x ∈ seen pages, ∀ last, start = some last → last < key x := by
  induction h with
  | idle => exact ⟨.nil, fun x hx => nomatch hx⟩
  | @last start size call calls page shown ended =>
      rw [seen, List.flatMap_singleton]
      exact ⟨shown.ascends (hc call List.mem_cons_self),
        fun x hx => (mem_itemsPast_iff.mp (shown.mem_itemsPast hx)).2⟩
  | @more start size call calls page pages z shown hz left rest ih =>
      have hitems : Ascends key page.items := shown.ascends (hc call List.mem_cons_self)
      obtain ⟨hrest, hpast⟩ := ih fun call hcall => hc call (List.mem_cons_of_mem _ hcall)
      have hstart : ∀ x ∈ page.items, ∀ last, start = some last → last < key x :=
        fun x hx => (mem_itemsPast_iff.mp (shown.mem_itemsPast hx)).2
      rw [seen, List.flatMap_cons, ← seen]
      refine ⟨List.pairwise_append.mpr ⟨hitems, hrest, fun x hx y hy => ?_⟩, fun x hx => ?_⟩
      · -- the last key of the page stands between the two
        have hy' : key z < key y := hpast y hy _ rfl
        rcases hitems.le_getLast hx hz with hlt | heq
        · exact Bytes.lt_trans hlt hy'
        · rwa [heq]
      · rcases List.mem_append.mp hx with hx | hx
        · exact hstart x hx
        · intro last hl
          exact Bytes.lt_trans (hstart z (List.mem_of_getLast? hz) last hl) (hpast x hx _ rfl)

theorem Finished.tail (h : Finished (page :: pages)) (ht : page.token ≠ []) : Finished pages := by
  obtain ⟨last, hlast, htoken⟩ := h
  cases pages with
  | nil =>
      obtain rfl : page = last := Option.some.inj hlast
      exact absurd htoken ht
  | cons next rest => exact ⟨last, by rwa [List.getLast?_cons_cons] at hlast, htoken⟩

/-- A client that was told that there is no more has seen every key that was there at each of its
calls. -/
theorem Follow.complete (h : Follow key cursor start size calls pages)
    (hc : ∀ call ∈ calls, Ascends key call.items) (hend : Finished pages) {k : Bytes}
    (hk : ∀ last, start = some last → last < k)
    (hall : ∀ call ∈ calls.take pages.length, k ∈ call.items.map key) :
    k ∈ (seen pages).map key := by
  induction h with
  | idle => obtain ⟨page, hpage, -⟩ := hend; cases hpage
  | @last start size call calls page shown ended =>
      obtain ⟨x, hx, rfl⟩ := List.mem_map.mp (hall call List.mem_cons_self)
      -- nothing is left past the page
      have hnone : (itemsPast key start call.items).drop (call.sizeAfter size).toNat = [] := by
        rw [← List.length_eq_zero_iff, ← shown.remaining]
        exact shown.token.mp ended
      have hitems : page.items = itemsPast key start call.items := by
        rw [← shown.append_drop, hnone, List.append_nil]
      rw [seen, List.flatMap_singleton, hitems]
      exact List.mem_map_of_mem (mem_itemsPast_iff.mpr ⟨hx, hk⟩)
  | @more start size call calls page pages z shown hz left rest ih =>
      obtain ⟨x, hx, rfl⟩ := List.mem_map.mp (hall call List.mem_cons_self)
      have hleft : page.token ≠ [] := by
        rw [(Cursor.decode_eq_ok_iff.mp left).1]
        exact cursor.encode_ne_nil _
      rw [seen, List.flatMap_cons, ← seen, List.map_append, List.mem_append]
      have hpast : x ∈ itemsPast key start call.items := mem_itemsPast_iff.mpr ⟨hx, hk⟩
      rw [← shown.append_drop, List.mem_append] at hpast
      rcases hpast with hon | hbehind
      · exact .inl (List.mem_map_of_mem hon)
      · refine .inr (ih (fun call hcall => hc call (List.mem_cons_of_mem _ hcall))
          (hend.tail hleft) ?_ fun call hcall => hall call ?_)
        · rintro _ ⟨⟩
          have hsorted := (hc call List.mem_cons_self).itemsPast start
          rw [← shown.append_drop] at hsorted
          exact (List.pairwise_append.mp hsorted).2.2 z (List.mem_of_getLast? hz) x hbehind
        · rw [List.length_cons, List.take_succ_cons]
          exact List.mem_cons_of_mem _ hcall

/-! ### Listings that only grow at their end -/

/-- Every listing begins with the one of every call before. -/
def Grows (calls : List (Call α)) : Prop := calls.Pairwise fun a b => a.items <+: b.items

/-- Past the last key of its beginning an ascending list goes on with the rest. -/
theorem Ascends.itemsPast_append {front back : List α} (h : Ascends key (front ++ back)) :
    FleetControl.itemsPast key (front.getLast?.map key) (front ++ back) = back := by
  obtain ⟨hfront, -, hback⟩ := List.pairwise_append.mp h
  cases hl : front.getLast? with
  | none => rw [List.getLast?_eq_none_iff.mp hl, Option.map_none, itemsPast_none, List.nil_append]
  | some z =>
      have hnone : FleetControl.itemsPast key (some (key z)) front = [] := by
        refine List.filter_eq_nil_iff.mpr fun x hx hpast => ?_
        have hlt : key z < key x := Bytes.before_iff.mp hpast
        rcases Ascends.le_getLast hfront hx hl with hle | heq
        · exact Bytes.lt_asymm hlt hle
        · exact Bytes.ne_of_lt hlt heq.symm
      have hall : FleetControl.itemsPast key (some (key z)) back = back :=
        List.filter_eq_self.mpr fun y hy =>
          Bytes.before_iff.mpr (hback z (List.mem_of_getLast? hl) y hy)
      have hsplit : FleetControl.itemsPast key (some (key z)) (front ++ back) =
          FleetControl.itemsPast key (some (key z)) front ++
            FleetControl.itemsPast key (some (key z)) back := List.filter_append ..
      rw [Option.map_some, hsplit, hnone, hall, List.nil_append]

/-- A page that starts past a beginning of the listing goes on with it, and tells how many items
are left behind the page. -/
theorem Page.Continues.shown {front : List α}
    (h : page.Continues key (front.getLast?.map key) size call.items)
    (hc : Ascends key call.items) (hf : front <+: call.items) :
    ∃ left, call.items = front ++ page.items ++ left ∧ page.remaining = left.length := by
  obtain ⟨back, hback⟩ := hf
  have hpast : FleetControl.itemsPast key (front.getLast?.map key) call.items = back := by
    rw [← hback] at hc ⊢
    exact hc.itemsPast_append
  refine ⟨back.drop size.toNat, ?_, ?_⟩
  · rw [h.items, hpast, List.append_assoc, List.take_append_drop, hback]
  · rw [h.remaining, hpast]

/-- As long as listings only grow at their end, the client has seen a beginning of the listing at
each of its calls, and is told the length of the rest. -/
theorem Follow.shown {front : List α}
    (h : Follow key cursor (front.getLast?.map key) size calls pages)
    (hc : ∀ call ∈ calls, Ascends key call.items) (hg : Grows calls)
    (hf : ∀ call ∈ calls, front <+: call.items) {n : ℕ} (hn : pages[n]? = some page) :
    ∃ call left, calls[n]? = some call ∧
      call.items = front ++ seen (pages.take (n + 1)) ++ left ∧ page.remaining = left.length ∧
        (page.token = [] ↔ page.remaining = 0) := by
  obtain ⟨start, hstart⟩ : ∃ start, start = front.getLast?.map key := ⟨_, rfl⟩
  rw [← hstart] at h
  induction h generalizing front n with
  | idle => cases hn
  | @last start size call calls page' shown ended =>
      subst hstart
      cases n with
      | succ n => cases hn
      | zero =>
          cases hn
          obtain ⟨left, hitems, hremaining⟩ :=
            shown.shown (hc call List.mem_cons_self) (hf call List.mem_cons_self)
          refine ⟨call, left, rfl, ?_, hremaining, shown.token⟩
          rw [List.take_succ_cons, List.take_zero, seen, List.flatMap_singleton, hitems]
  | @more start size call calls page' pages x shown hx left rest ih =>
      subst hstart
      obtain ⟨behind, hitems, hremaining⟩ :=
        shown.shown (hc call List.mem_cons_self) (hf call List.mem_cons_self)
      cases n with
      | zero =>
          cases hn
          refine ⟨call, behind, rfl, ?_, hremaining, shown.token⟩
          rw [List.take_succ_cons, List.take_zero, seen, List.flatMap_singleton, hitems]
      | succ n =>
          obtain ⟨hfirst, hg'⟩ := List.pairwise_cons.mp hg
          -- from here on the beginning that was seen has this page too
          have hlast : some (key x) = (front ++ page'.items).getLast?.map key := by
            rw [List.getLast?_append, hx]
            rfl
          have hfront : ∀ call' ∈ calls, front ++ page'.items <+: call'.items :=
            fun call' hcall' => (hitems ▸ List.prefix_append _ behind).trans (hfirst call' hcall')
          obtain ⟨call', left', hcall', hitems', hleft'⟩ :=
            ih (fun call' h => hc call' (List.mem_cons_of_mem _ h)) hg' hfront hn hlast
          refine ⟨call', left', hcall', ?_, hleft'⟩
          rw [hitems', List.take_succ_cons, seen, seen, List.flatMap_cons, List.append_assoc front]

/-- A client goes on until it is told that there is no more. -/
theorem Follow.ends (h : Follow key cursor start size calls pages) :
    Finished pages ∨ pages.length = calls.length := by
  induction h with
  | idle => exact .inr rfl
  | last _ ended => exact .inl ⟨_, rfl, ended⟩
  | @more _ _ _ _ page pages _ _ _ _ _ ih =>
      rcases ih with ⟨last, hlast, htoken⟩ | hlength
      · cases pages with
        | nil => cases hlast
        | cons next pages => exact .inl ⟨last, by rwa [List.getLast?_cons_cons], htoken⟩
      · exact .inr (congrArg (· + 1) hlength)

/-! ### The pages of a client -/

/-- Requests with a token start past a place, and take over a size if they have none of their
own. -/
def Opens (cursor : Cursor) (token : Bytes) (start : Option Bytes) (size : UInt32) : Prop :=
  ∀ limit : UInt32, PageRequest.resolve ⟨limit.toNat, token⟩ cursor =
    .ok (start, if limit = 0 then size else limit)

theorem opens_first (cursor : Cursor) : Opens cursor [] none 0 := by
  intro limit
  rw [PageRequest.resolve_first]
  split
  · rename_i h
    rw [h]
  · rfl

theorem opens_encode {last : Bytes} (h : last.length ≤ Cursor.keySize) (cursor : Cursor)
    (size : UInt32) : Opens cursor (cursor.encode ⟨last, size⟩) (some last) size := by
  intro limit
  rw [PageRequest.resolve_encode, if_pos h]

theorem pageOf_continues (hs : size ≠ 0) (items : List α) :
    (pageOf key cursor size (itemsPast key start items)).Continues key start size items where
  items := pageOf_items hs _
  remaining := by
    have hr := pageOf_remaining key cursor size (itemsPast key start items)
    rw [pageOf_items hs] at hr
    rw [List.length_take] at hr
    rw [List.length_drop]
    omega
  token := pageOf_token_eq_nil_iff key cursor size _

theorem sizeAfter_ne_zero (call : Call α) (h : size ≠ 0) : call.sizeAfter size ≠ 0 := by
  rw [Call.sizeAfter]
  split
  · exact h
  · assumption

/-- The pages that a client is given follow one another. -/
theorem walk_follows {token : Bytes} (ho : Opens cursor token start size)
    (hs : ∀ call ∈ calls.head?, call.sizeAfter size ≠ 0)
    (hc : ∀ call ∈ calls, call.Pageable key) :
    ∃ pages, walk key cursor token calls = .ok pages ∧
      Follow key cursor start size calls pages := by
  induction calls generalizing token start size with
  | nil => exact ⟨[], rfl, .idle⟩
  | cons call calls ih =>
      obtain ⟨hcall, hcalls⟩ := List.forall_mem_cons.mp hc
      have hsize : call.sizeAfter size ≠ 0 := hs call rfl
      obtain ⟨page, hpage⟩ : ∃ page, page =
          pageOf key cursor (call.sizeAfter size) (itemsPast key start call.items) := ⟨_, rfl⟩
      have hgiven : paginate key call.items cursor ⟨call.limit.toNat, token⟩ = .ok page := by
        rw [paginate_eq, ho, Except.map, startingAt_eq hcall.ascends, hpage, Call.sizeAfter]
      have hshown : page.Continues key start (call.sizeAfter size) call.items := by
        rw [hpage]
        exact pageOf_continues hsize call.items
      by_cases hr : page.remaining = 0
      · have ht := hshown.token.mpr hr
        refine ⟨[page], ?_, .last hshown ht⟩
        simp only [walk, hgiven, ht, List.isEmpty_nil, if_true]
      · obtain ⟨z, hz, htoken⟩ := pageOf_token_of_remaining (hpage ▸ hr)
        rw [← hpage] at hz htoken
        have hfits : (key z).length ≤ Cursor.keySize :=
          hcall.fits z (mem_itemsPast_iff.mp (hshown.mem_itemsPast (List.mem_of_getLast? hz))).1
        -- the token holds the last key of the page, so the rest of the walk starts past it
        obtain ⟨pages, hpages, hfollow⟩ := ih (opens_encode hfits cursor _)
          (fun next _ => sizeAfter_ne_zero next hsize) hcalls
        have hleft : cursor.decode page.token = .ok ⟨key z, call.sizeAfter size⟩ := by
          rw [htoken, Cursor.decode_encode, if_pos hfits]
        refine ⟨page :: pages, ?_, .more hshown hz hleft hfollow⟩
        have hne : page.token.isEmpty = false :=
          List.isEmpty_eq_false_iff.mpr fun h => hr (hshown.token.mp h)
        simp only [walk, hgiven, hne, Bool.false_eq_true, if_false]
        rw [htoken, hpages]
        rfl

end FleetControl
