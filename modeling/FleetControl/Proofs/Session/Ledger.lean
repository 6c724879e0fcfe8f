import FleetControl.Proofs.Command.Log
import FleetControl.Session.Ledger

/-!
# Delivery ledgers — where a ledger stands in the commands of its instance

Let the commands of an instance in order be `past ++ coming`.  A ledger *stands* between the two
(`Stands`) when its watermark is the last key of `past` and it holds the keys of those of `coming`
that are acknowledged.  An acknowledgement leaves a ledger where it stands, with one more command
acknowledged (`Stands.acknowledgeAll`).  A reply takes the first commands that are not acknowledged,
although it looks at a bounded number of them (`Stands.pick`): the acknowledged ones among `coming`
are as many as the ledger holds, so beyond them the bound leaves room for a full reply.  Afterwards
the ledger stands behind the first commands of `coming` that are all acknowledged
(`Stands.advance`).
-/

namespace FleetControl

/-! ### Bounded reads -/

section Bounded

variable {α : Type} {p : α → Bool}

/-- A read that is longer than what is asked for by as many items as are passed over shows the first
that are not passed over. -/
theorem take_filter_take {l : List α} {n k : ℕ} (h : l.countP p ≤ k) :
    ((l.take (n + k)).filter fun x => !p x).take n = (l.filter fun x => !p x).take n := by
  induction l generalizing n k with
  | nil => rw [List.take_nil]
  | cons a l ih =>
      by_cases ha : p a = true
      · rw [List.countP_cons_of_pos ha] at h
        obtain ⟨k, rfl⟩ : ∃ j, k = j + 1 := ⟨k - 1, by omega⟩
        rw [← Nat.add_assoc, List.take_succ_cons, List.filter_cons_of_neg (by simp [ha]),
          List.filter_cons_of_neg (by simp [ha])]
        exact ih (by omega)
      · rw [List.countP_cons_of_neg ha] at h
        cases n with
        | zero => rfl
        | succ n =>
            rw [Nat.add_right_comm, List.take_succ_cons, List.filter_cons_of_pos (by simp [ha]),
              List.filter_cons_of_pos (by simp [ha]), List.take_succ_cons, List.take_succ_cons,
              ih h]

/-- Taking no fewer than there are good ones changes nothing of the good ones in front. -/
theorem takeWhile_take {l : List α} {n : ℕ} (h : l.countP p ≤ n) :
    (l.take n).takeWhile p = l.takeWhile p := by
  induction l generalizing n with
  | nil => rw [List.take_nil]
  | cons a l ih =>
      by_cases ha : p a = true
      · rw [List.countP_cons_of_pos ha] at h
        obtain ⟨n, rfl⟩ : ∃ j, n = j + 1 := ⟨n - 1, by omega⟩
        rw [List.take_succ_cons, List.takeWhile_cons_of_pos ha, List.takeWhile_cons_of_pos ha,
          ih (by omega)]
      · rw [List.takeWhile_cons_of_neg ha]
        cases n with
        | zero => rfl
        | succ n => rw [List.take_succ_cons, List.takeWhile_cons_of_neg ha]

end Bounded

namespace Ledger

open CommandLog (Sorted)

variable {l : Ledger} {past coming front back pending : List Command}
  {acked acked' : Command → Bool} {keys : List Bytes} {c : Command}

/-- The watermark of a ledger that has passed these commands. -/
def watermarkAfter (past : List Command) : Bytes := (past.getLast?.map Command.orderKey).getD []

/-- The watermark is behind the last command that was passed. -/
theorem watermarkAfter_append (past front : List Command) :
    watermarkAfter (past ++ front) =
      (front.getLast?.map Command.orderKey).getD (watermarkAfter past) := by
  rw [watermarkAfter, List.getLast?_append]
  cases front.getLast? <;> rfl

/-- The watermark is in front of what comes. -/
theorem watermarkAfter_lt (hs : Sorted (past ++ coming)) (hc : c ∈ coming) :
    watermarkAfter past < c.orderKey := by
  cases hg : past.getLast? with
  | none => rw [watermarkAfter, hg]; exact c.nil_lt_orderKey
  | some z =>
      rw [watermarkAfter, hg]
      exact (List.pairwise_append.mp hs).2.2 z (List.mem_of_getLast? hg) c hc

/-- The watermark is not in front of what is passed. -/
theorem not_watermarkAfter_lt (hs : Sorted past) (hc : c ∈ past) :
    ¬ watermarkAfter past < c.orderKey := by
  cases hg : past.getLast? with
  | none => rw [List.getLast?_eq_none_iff.mp hg] at hc; cases hc
  | some z =>
      obtain ⟨before, rfl⟩ := List.getLast?_eq_some_iff.mp hg
      rw [watermarkAfter, hg]
      rcases List.mem_append.mp hc with hc | hc
      · exact Bytes.lt_asymm ((List.pairwise_append.mp hs).2.2 c hc z List.mem_cons_self)
      · rw [List.mem_singleton.mp hc]; exact Bytes.lt_irrefl _

/-- Passing more commands never takes the watermark back. -/
theorem watermarkAfter_le (hs : Sorted (past ++ front)) :
    watermarkAfter (past ++ front) = watermarkAfter past ∨
      watermarkAfter past < watermarkAfter (past ++ front) := by
  rw [watermarkAfter_append]
  cases hg : front.getLast? with
  | none => exact .inl rfl
  | some z => exact .inr (watermarkAfter_lt hs (List.mem_of_getLast? hg))

/-- Commands up to the watermark are not pending. -/
theorem filter_passed (hs : Sorted past) (hf : ∀ c ∈ front, c ∈ past) :
    (front.filter fun c => Bytes.before (watermarkAfter past) c.orderKey) = [] :=
  List.filter_eq_nil_iff.mpr fun c hc h =>
    not_watermarkAfter_lt hs (hf c hc) (Bytes.before_iff.mp h)

/-- Commands past the watermark are pending. -/
theorem filter_coming (hs : Sorted (past ++ coming)) :
    (coming.filter fun c => Bytes.before (watermarkAfter past) c.orderKey) = coming :=
  List.filter_eq_self.mpr fun _ hc => Bytes.before_iff.mpr (watermarkAfter_lt hs hc)

/-- Reading past the watermark gives what comes. -/
theorem filter_past_watermark (hs : Sorted (past ++ coming)) :
    ((past ++ coming).filter fun c => Bytes.before (watermarkAfter past) c.orderKey) = coming := by
  rw [List.filter_append, filter_passed (List.pairwise_append.mp hs).1 fun _ h => h,
    filter_coming hs, List.nil_append]

/-! ### Standing between past and coming -/

/-- The watermark is the last key of `past`, and the keys held are those of the commands of `coming`
that are acknowledged. -/
structure Stands (l : Ledger) (past coming : List Command) (acked : Command → Bool) : Prop where
  watermark : l.watermark = watermarkAfter past
  ahead : l.ahead.keys = (coming.filter acked).map Command.orderKey

/-- The keys ahead are those of the coming commands that are acknowledged. -/
theorem Stands.size (h : l.Stands past coming acked) : l.ahead.size = coming.countP acked := by
  rw [← Table.length_keys, h.ahead, List.length_map, List.countP_eq_length_filter]

/-- A key is ahead if it is that of a coming command that is acknowledged. -/
theorem Stands.contains_iff (h : l.Stands past coming acked) {key : Bytes} :
    l.ahead.contains key = true ↔ ∃ c ∈ coming, acked c = true ∧ c.orderKey = key := by
  rw [← Table.mem_keys_iff, h.ahead, List.mem_map]
  simp only [List.mem_filter, and_assoc]

/-- Of the commands to come a ledger holds those that are acknowledged. -/
theorem Stands.contains_orderKey (h : l.Stands past coming acked) (hs : Sorted coming)
    (hc : c ∈ coming) : l.ahead.contains c.orderKey = acked c := by
  rw [Bool.eq_iff_iff, h.contains_iff]
  constructor
  · rintro ⟨d, hd, ha, e⟩
    rwa [← hs.eq_of_orderKey_eq hd hc e]
  · intro ha
    exact ⟨c, hc, ha, rfl⟩

/-! ### Acknowledging -/

/-- An acknowledgement does not move the watermark. -/
theorem acknowledge_watermark (l : Ledger) (key : Bytes) :
    (l.acknowledge key).watermark = l.watermark := by
  rw [acknowledge]
  split <;> rfl

/-- A key comes ahead if it is past the watermark. -/
theorem acknowledge_contains (l : Ledger) (key other : Bytes) :
    (l.acknowledge key).ahead.contains other = true ↔
      l.ahead.contains other = true ∨ other = key ∧ l.watermark < other := by
  rw [acknowledge]
  by_cases hb : Bytes.before l.watermark key = true
  · rw [if_pos hb, Table.contains, Table.get?_insert]
    by_cases e : other = key
    · simp [e, Bytes.before_iff.mp hb]
    · simp [e, Table.contains]
  · rw [if_neg hb]
    rw [Bytes.before_iff] at hb
    constructor
    · exact .inl
    · rintro (h | ⟨rfl, h⟩)
      · exact h
      · exact absurd h hb

theorem acknowledgeAll_watermark (l : Ledger) (keys : List Bytes) :
    (l.acknowledgeAll keys).watermark = l.watermark := by
  induction keys generalizing l with
  | nil => rfl
  | cons key keys ih => exact (ih (l.acknowledge key)).trans (l.acknowledge_watermark key)

/-- Of many keys those come ahead that are past the watermark. -/
theorem acknowledgeAll_contains (l : Ledger) (keys : List Bytes) (other : Bytes) :
    (l.acknowledgeAll keys).ahead.contains other = true ↔
      l.ahead.contains other = true ∨ other ∈ keys ∧ l.watermark < other := by
  induction keys generalizing l with
  | nil => simp [acknowledgeAll]
  | cons key keys ih =>
      have e : l.acknowledgeAll (key :: keys) = (l.acknowledge key).acknowledgeAll keys := rfl
      rw [e, ih, acknowledge_contains, acknowledge_watermark, List.mem_cons]
      tauto

/-- Acknowledging commands of the instance moves nothing: those to come are held, the others are
acknowledged already. -/
theorem Stands.acknowledgeAll (h : l.Stands past coming acked) (hs : Sorted (past ++ coming))
    (hkeys : ∀ key ∈ keys, ∃ c ∈ past ++ coming, c.orderKey = key)
    (hacked : ∀ c ∈ coming, acked' c = true ↔ acked c = true ∨ c.orderKey ∈ keys) :
    (l.acknowledgeAll keys).Stands past coming acked' := by
  refine ⟨(l.acknowledgeAll_watermark keys).trans h.watermark, ?_⟩
  have hcs : Sorted coming := (List.pairwise_append.mp hs).2.1
  refine Table.keys_eq_of_contains (List.pairwise_map.mpr (hcs.filter _)) fun key => ?_
  simp only [acknowledgeAll_contains, h.contains_iff, h.watermark, List.mem_map, List.mem_filter,
    and_assoc]
  constructor
  · rintro (⟨c, hc, ha, e⟩ | ⟨hk, hlt⟩)
    · exact ⟨c, hc, (hacked c hc).mpr (.inl ha), e⟩
    · obtain ⟨c, hc, rfl⟩ := hkeys key hk
      rcases List.mem_append.mp hc with hc | hc
      · exact absurd hlt (not_watermarkAfter_lt (List.pairwise_append.mp hs).1 hc)
      · exact ⟨c, hc, (hacked c hc).mpr (.inr hk), rfl⟩
  · rintro ⟨c, hc, ha, rfl⟩
    rcases (hacked c hc).mp ha with ha | hk
    · exact .inl ⟨c, hc, ha, rfl⟩
    · exact .inr ⟨hk, watermarkAfter_lt hs hc⟩

/-! ### Delivering -/

/-- The commands that are picked are the first that are not acknowledged. -/
theorem pickFrom_commands (hl : ∀ c ∈ pending, l.ahead.contains c.orderKey = acked c) (most : ℕ)
    (gap : Bool) (taken : List Command) (watermark : Bytes) :
    (l.pickFrom most pending gap taken watermark).commands =
      taken.reverse ++ (pending.filter fun c => !acked c).take (most - taken.length) := by
  induction pending generalizing gap taken watermark with
  | nil => simp [pickFrom]
  | cons c rest ih =>
      obtain ⟨hc, hrest⟩ := List.forall_mem_cons.mp hl
      rw [pickFrom, hc]
      by_cases ha : acked c = true
      · rw [if_pos ha, ih hrest, List.filter_cons_of_neg (by simp [ha])]
      · rw [if_neg ha, List.filter_cons_of_pos (by simp [ha])]
        by_cases hm : most ≤ taken.length
        · -- the reply is full
          rw [if_pos hm, Nat.sub_eq_zero_of_le hm, List.take_zero, List.append_nil]
        · obtain ⟨n, hn⟩ : ∃ n, most - taken.length = n + 1 := ⟨most - taken.length - 1, by omega⟩
          have hn' : most - (c :: taken).length = n := by rw [List.length_cons]; omega
          rw [if_neg hm, ih hrest, hn', hn, List.take_succ_cons, List.reverse_cons,
            List.append_assoc, List.singleton_append]

/-- Once there is a gap the watermark stays; before it, it moves over what is acknowledged. -/
theorem pickFrom_watermark (hl : ∀ c ∈ pending, l.ahead.contains c.orderKey = acked c) (most : ℕ)
    (gap : Bool) (taken : List Command) (watermark : Bytes) :
    (l.pickFrom most pending gap taken watermark).watermark =
      if gap then watermark
      else ((pending.takeWhile acked).getLast?.map Command.orderKey).getD watermark := by
  induction pending generalizing gap taken watermark with
  | nil => cases gap <;> rfl
  | cons c rest ih =>
      obtain ⟨hc, hrest⟩ := List.forall_mem_cons.mp hl
      rw [pickFrom, hc]
      by_cases ha : acked c = true
      · rw [if_pos ha, ih hrest, List.takeWhile_cons_of_pos ha]
        cases gap with
        | true => rfl
        | false => cases h : rest.takeWhile acked <;> simp [List.getLast?_cons]
      · rw [if_neg ha, List.takeWhile_cons_of_neg ha]
        split
        · cases gap <;> rfl
        · rw [ih hrest]
          cases gap <;> rfl

/-- A reply takes the first commands that are not acknowledged, if the bound of the read is as much
larger than a reply as there are acknowledged commands to come. -/
theorem Stands.pick (h : l.Stands past coming acked) (hs : Sorted (past ++ coming)) {most w : ℕ}
    (hw : most + coming.countP acked ≤ w) :
    l.pick most (coming.take w) =
      ⟨(coming.filter fun c => !acked c).take most,
        watermarkAfter (past ++ coming.takeWhile acked)⟩ := by
  have hl : ∀ c ∈ coming.take w, l.ahead.contains c.orderKey = acked c := fun c hc =>
    h.contains_orderKey (List.pairwise_append.mp hs).2.1 (List.mem_of_mem_take hc)
  obtain ⟨k, rfl⟩ : ∃ k, w = most + k := ⟨w - most, by omega⟩
  have hcommands : (l.pick most (coming.take (most + k))).commands =
      (coming.filter fun c => !acked c).take most := by
    rw [Ledger.pick, pickFrom_commands hl, List.reverse_nil, List.nil_append, List.length_nil,
      Nat.sub_zero, take_filter_take (by omega)]
  have hwatermark : (l.pick most (coming.take (most + k))).watermark =
      watermarkAfter (past ++ coming.takeWhile acked) := by
    rw [Ledger.pick, pickFrom_watermark hl, if_neg Bool.false_ne_true, takeWhile_take (by omega),
      h.watermark, watermarkAfter_append]
  rw [← hcommands, ← hwatermark]

/-- Moving the watermark behind the first commands to come drops their keys and no others. -/
theorem Stands.moveTo (h : l.Stands past (front ++ back) acked)
    (hs : Sorted (past ++ (front ++ back))) :
    (l.advance (watermarkAfter (past ++ front))).Stands (past ++ front) back acked := by
  have hs' : Sorted ((past ++ front) ++ back) := by rwa [List.append_assoc]
  rw [advance, h.watermark]
  by_cases hb : Bytes.before (watermarkAfter past) (watermarkAfter (past ++ front)) = true
  · rw [if_pos hb]
    refine ⟨rfl, ?_⟩
    -- past the new watermark nothing of `front` is left, and all of `back`
    have hf : (front.filter fun c =>
        Bytes.before (watermarkAfter (past ++ front)) c.orderKey) = [] :=
      filter_passed (List.pairwise_append.mp hs').1 fun _ h => List.mem_append_right _ h
    calc (l.ahead.filter fun key _ => Bytes.before (watermarkAfter (past ++ front)) key).keys
        = (((front ++ back).filter acked).map Command.orderKey).filter
            (Bytes.before (watermarkAfter (past ++ front))) := by rw [Table.keys_filter, h.ahead]
      _ = (((front ++ back).filter fun c =>
            Bytes.before (watermarkAfter (past ++ front)) c.orderKey).filter acked).map
              Command.orderKey := by
          rw [List.filter_map, List.filter_filter, List.filter_filter]
          simp only [Function.comp_apply, Bool.and_comm]
      _ = (back.filter acked).map Command.orderKey := by
          rw [List.filter_append, hf, filter_coming hs', List.nil_append]
  · rw [if_neg hb]
    cases hg : front.getLast? with
    | none =>
        obtain rfl := List.getLast?_eq_none_iff.mp hg
        rw [List.append_nil]
        exact ⟨h.watermark, h.ahead⟩
    | some z =>
        have hz : z ∈ front ++ back := List.mem_append_left _ (List.mem_of_getLast? hg)
        rw [watermarkAfter_append, hg] at hb
        exact absurd (Bytes.before_iff.mpr (watermarkAfter_lt hs hz)) hb

/-- After a reply the ledger stands behind the first commands that are all acknowledged. -/
theorem Stands.advance (h : l.Stands past coming acked) (hs : Sorted (past ++ coming)) :
    (l.advance (watermarkAfter (past ++ coming.takeWhile acked))).Stands
      (past ++ coming.takeWhile acked) (coming.dropWhile acked) acked := by
  rw [← coming.takeWhile_append_dropWhile (p := acked)] at h hs
  exact h.moveTo hs

/-! ### Behind what is acknowledged -/

section Behind

variable {cs : List Command}

/-- The ledger stands behind the longest beginning of these commands that is acknowledged. -/
def IsBehind (l : Ledger) (cs : List Command) (acked : Command → Bool) : Prop :=
  l.Stands (cs.takeWhile acked) (cs.dropWhile acked) acked

/-- A new ledger is behind nothing. -/
theorem isBehind_nil (acked : Command → Bool) : ({} : Ledger).IsBehind [] acked := ⟨rfl, rfl⟩

/-- What is shown of a ledger follows from what was acknowledged. -/
theorem IsBehind.progress (h : l.IsBehind cs acked) :
    l.progress = ⟨watermarkAfter (cs.takeWhile acked), (cs.dropWhile acked).countP acked⟩ :=
  congrArg₂ Progress.mk h.watermark h.size

/-- A command that comes last and is not acknowledged changes nothing. -/
theorem IsBehind.append (h : l.IsBehind cs acked) (hc : acked c = false) :
    l.IsBehind (cs ++ [c]) acked := by
  have ht : (cs ++ [c]).takeWhile acked = cs.takeWhile acked := by
    rw [List.takeWhile_append]
    split
    · rename_i e
      rw [List.takeWhile_cons_of_neg (by simp [hc]), List.append_nil,
        (cs.takeWhile_prefix acked).eq_of_length e]
    · rfl
  have hd : (cs ++ [c]).dropWhile acked = cs.dropWhile acked ++ [c] := by
    have e := (cs ++ [c]).takeWhile_append_dropWhile (p := acked)
    rw [ht] at e
    exact List.append_cancel_left (e.trans (by
      rw [← List.append_assoc, List.takeWhile_append_dropWhile]))
  refine ⟨by rw [ht]; exact h.watermark, ?_⟩
  rw [hd, h.ahead, List.filter_append, List.filter_cons_of_neg (by simp [hc]), List.filter_nil,
    List.append_nil]

/-- Acknowledging does not move the ledger, though more may be acknowledged at its front then. -/
theorem IsBehind.acknowledgeAll (h : l.IsBehind cs acked) (hs : Sorted cs)
    (hkeys : ∀ key ∈ keys, ∃ c ∈ cs, c.orderKey = key)
    (hacked : ∀ c ∈ cs, acked' c = true ↔ acked c = true ∨ c.orderKey ∈ keys) :
    (l.acknowledgeAll keys).Stands (cs.takeWhile acked) (cs.dropWhile acked) acked' := by
  rw [← cs.takeWhile_append_dropWhile (p := acked)] at hs hkeys
  exact Stands.acknowledgeAll h hs hkeys fun c hc =>
    hacked c ((cs.dropWhile_sublist acked).subset hc)

/-- A reply takes the first commands that are not acknowledged, and the ledger ends up behind the
beginning that is. -/
theorem Stands.reply (h : l.Stands past coming acked) (hs : Sorted (past ++ coming))
    (hpast : ∀ c ∈ past, acked c = true) {most w : ℕ} (hw : most + l.ahead.size ≤ w) :
    let picked := l.pick most
      (((past ++ coming).filter fun c => Bytes.before l.watermark c.orderKey).take w)
    picked.commands = ((past ++ coming).filter fun c => !acked c).take most ∧
      (l.advance picked.watermark).IsBehind (past ++ coming) acked := by
  intro picked
  have hpick : picked = ⟨(coming.filter fun c => !acked c).take most,
      watermarkAfter (past ++ coming.takeWhile acked)⟩ := by
    have hread : ((past ++ coming).filter fun c => Bytes.before l.watermark c.orderKey) =
        coming := by
      rw [h.watermark, filter_past_watermark hs]
    rw [← h.pick hs (h.size ▸ hw), ← hread]
  have hall : (past.filter fun c => !acked c) = [] :=
    List.filter_eq_nil_iff.mpr fun c hc => by simp [hpast c hc]
  refine ⟨?_, ?_⟩
  · rw [hpick, List.filter_append, hall, List.nil_append]
  · rw [hpick, IsBehind, List.takeWhile_append_of_pos hpast, List.dropWhile_append_of_pos hpast]
    exact h.advance hs

end Behind

end Ledger

end FleetControl
