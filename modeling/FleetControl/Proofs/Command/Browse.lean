import FleetControl.Proofs.Command.Audit
import FleetControl.Proofs.Page.Walk
import FleetControl.Uuid

/-!
# Going through the commands — while more are saved

A client asks for one page of commands after the other, and any number of saves may come between its
calls (`browse`).  Every save gives a key past all others, so each listing begins with the one
before it (`Listable.grows`), and at each of its calls the client has seen a beginning of what was
saved.  Once it is told that there is no more it has seen all of that, in the order of saving
(`pages_show_what_was_saved`).

Tokens hold keys of limited length only, so the ids have to be short (`IdSource.Short`), as UUIDs
are.
-/

namespace FleetControl

/-! ### Ids that fit into tokens -/

namespace Uuid

theorem length_group {digits : Bytes} (h : digits.length = 32) :
    (group groups digits).length = 36 := by
  simp only [groups, group, List.length_append, List.length_cons, List.length_take,
    List.length_drop, h]
  decide

/-- An id that is drawn has the length of a UUID. -/
theorem length_fromSecret (secret : Bytes) (number : ℕ) :
    (fromSecret secret number).length = 36 := by
  refine length_group ?_
  rw [Hex.length_encode, markRandom, List.length_modify, List.length_modify, List.length_take,
    Hmac.length_sign]
  decide

end Uuid

namespace Command

/-- The longest id whose order key fits into a token. -/
def idSize : ℕ := Cursor.keySize - 21

/-- An order key is a stamp, a slash and the id. -/
theorem length_orderKey (c : Command) : c.orderKey.length = 21 + c.id.length := by
  rw [orderKey_eq, List.length_append, length_stamp, List.length_cons]
  omega

/-- With a short id an order key fits a continue token. -/
theorem orderKey_fits {c : Command} (h : c.id.length ≤ idSize) :
    c.orderKey.length ≤ Cursor.keySize := by
  rw [length_orderKey]
  exact (Nat.add_le_add_left h 21).trans (by decide)

end Command

namespace IdSource

/-- No id of the source is too long for a token. -/
def Short (ids : IdSource) : Prop := ∀ n, (ids.idAt n).length ≤ Command.idSize

/-- Sources of UUIDs are such. -/
theorem short_fromSecret (secret : Bytes) (drawn : ℕ) :
    Short { idAt := Uuid.fromSecret secret, drawn } := by
  intro n
  rw [Uuid.length_fromSecret]
  decide

/-- What is allocated is one of the source's ids. -/
theorem exists_idAt_of_allocate {isTaken : Bytes → Bool} {tries : ℕ} {ids : IdSource}
    {id : Bytes} (h : (ids.allocate isTaken tries).1 = some id) : ∃ n, ids.idAt n = id := by
  induction tries generalizing ids with
  | zero => cases h
  | succ tries ih =>
      simp only [allocate] at h
      split at h
      · obtain ⟨n, hn⟩ := ih h
        exact ⟨n, hn⟩
      · exact ⟨ids.drawn + 1, Option.some.inj h⟩

end IdSource

namespace CommandLog

variable {log : CommandLog} {saved : List Command} {c : Command} {a : Attempt} {as : List Attempt}
  {cursor : Cursor} {shards : ℕ} {path token : Bytes} {entry : Entry}

/-- A command is saved under an id of the source that the save was given. -/
theorem exists_idAt_of_attempt (h : (log.attempt a).result = .ok c) : ∃ n, a.ids.idAt n = c.id := by
  cases hcheck : a.request.check with
  | error cause => cases (result_of_check hcheck).symm.trans h
  | ok _ =>
      cases hid : (a.ids.allocate log.byId.contains idTries).1 with
      | none => cases (attempt_of_no_id hcheck hid).1.symm.trans h
      | some id =>
          obtain ⟨n, hn⟩ := IdSource.exists_idAt_of_allocate hid
          rw [result_of_next hcheck (next?_of_id hid)] at h
          cases hrecord : (log.record a.room (a.request.command id (log.nextTime a.now))).1 with
          | error cause => rw [hrecord] at h; cases h
          | ok _ =>
              rw [hrecord] at h
              cases h
              exact ⟨n, hn⟩

/-! ### Logs that can be gone through -/

/-- A log that nothing was saved on: a new one, or one whose journal holds no commands. -/
inductive StartsEmpty (log : CommandLog) : Prop where
  | new {cursor : Cursor} {shards : ℕ} (h : setup cursor shards = .ok log)
  | journaled {cursor : Cursor} {path : Bytes} {entry : Entry}
      (h : (restore cursor { path, entry }).result = .ok log) (hsize : log.size = 0)

/-- A log that starts empty has recorded nothing. -/
theorem StartsEmpty.records (h : log.StartsEmpty) : log.Records [] := by
  cases h with
  | new h => exact (records_of_setup h).1
  | @journaled cursor path entry h hsize =>
      obtain ⟨found, cs, -, -, hn, hlog⟩ := restore_eq_ok_iff.mp h
      have hlength := (holds_openOn cursor path (Lines.whole found) cs).size_eq hn
      rw [← hlog, hsize] at hlength
      obtain rfl : cs = [] := List.length_eq_zero_iff.mp hlength.symm
      rw [hlog]
      exact (records_nil cursor).withJournal _

/-- The log records commands that can be listed page by page: none is from before the epoch, and
every key fits into a token. -/
structure Listable (log : CommandLog) (saved : List Command) : Prop where
  records : log.Records saved
  stamped : ∀ c ∈ saved, 0 ≤ c.createdAt
  short : ∀ c ∈ saved, c.id.length ≤ Command.idSize

theorem StartsEmpty.listable (h : log.StartsEmpty) : log.Listable [] :=
  ⟨h.records, nofun, nofun⟩

/-- An attempt to save leaves the log listable. -/
theorem Listable.attempt (h : log.Listable saved) (ht : log.CanStamp a.now) (h₀ : 0 ≤ a.now)
    (hs : a.ids.Short) :
    (log.attempt a).log.Listable (saved ++ (log.attempt a).result.toOption.toList) := by
  have hnew : ∀ c ∈ (log.attempt a).result.toOption.toList, (log.attempt a).result = .ok c := by
    intro c hc
    cases hres : (log.attempt a).result with
    | error cause => rw [hres] at hc; cases hc
    | ok d => rw [hres] at hc; rw [List.mem_singleton.mp hc]
  refine ⟨h.records.of_save ht a.ids a.room a.request, fun c hc => ?_, fun c hc => ?_⟩
  · rcases List.mem_append.mp hc with hc | hc
    · exact h.stamped c hc
    · exact Int64.le_trans h₀ (le_createdAt ht (hnew c hc))
  · rcases List.mem_append.mp hc with hc | hc
    · exact h.short c hc
    · obtain ⟨n, hn⟩ := exists_idAt_of_attempt (hnew c hc)
      exact hn ▸ hs n

/-- Whatever is attempted, the log stays listable. -/
theorem Listable.saveAll (h : log.Listable saved) (ht : log.Stampable as)
    (h₀ : ∀ a ∈ as, 0 ≤ a.now) (hs : ∀ a ∈ as, a.ids.Short) :
    (log.saveAll as).Listable (saved ++ log.savedBy as) := by
  induction as generalizing log saved with
  | nil => rwa [savedBy, List.append_nil]
  | cons a as ih =>
      obtain ⟨hnow, hrest⟩ := ht
      obtain ⟨h₀a, h₀as⟩ := List.forall_mem_cons.mp h₀
      obtain ⟨hsa, hsas⟩ := List.forall_mem_cons.mp hs
      rw [saveAll_cons, savedBy, ← List.append_assoc]
      exact ih (h.attempt hnow h₀a hsa) hrest h₀as hsas

/-- The listing is what was saved, in the order of saving. -/
theorem Listable.ordered (h : log.Listable saved) :
    log.ordered.toList = saved.map fun c => (c.orderKey, c) :=
  orderedEntries h.records.holds (h.records.sorted h.stamped)

/-- Every key of a listable log can be continued from. -/
theorem Listable.pageable (h : log.Listable saved) (limit : UInt32) :
    Call.Pageable (·.1) ⟨log.ordered.toList, limit⟩ := by
  refine ⟨log.ordered.ascending, fun e he => ?_⟩
  rw [h.ordered] at he
  obtain ⟨c, hc, rfl⟩ := List.mem_map.mp he
  exact Command.orderKey_fits (h.short c hc)

/-! ### A client -/

/-- One call of a client that goes through the commands: what is saved before it, and the page size
asked for. -/
structure Visit where
  saves : List Attempt
  limit : UInt32

/-- What a client is given that asks for page after page while commands are saved, until there is no
token to go on with. -/
def browse : CommandLog → Bytes → List Visit → Except Refusal (List (Page Command))
  | _, _, [] => .ok []
  | log, token, visit :: visits =>
    match (log.saveAll visit.saves).list ⟨visit.limit.toNat, token⟩ with
    | .error cause => .error cause
    | .ok page =>
      if page.token.isEmpty then .ok [page]
      else (browse (log.saveAll visit.saves) page.token visits).map (page :: ·)

/-- What is saved before the client's first calls, so many of them. -/
def savesBefore (visits : List Visit) (n : ℕ) : List Attempt := (visits.take n).flatMap (·.saves)

/-- The listings that the calls of a client are about. -/
def calls : CommandLog → List Visit → List (Call (Bytes × Command))
  | _, [] => []
  | log, visit :: visits =>
    ⟨(log.saveAll visit.saves).ordered.toList, visit.limit⟩ ::
      calls (log.saveAll visit.saves) visits

variable {visit : Visit} {visits : List Visit}

/-- There is a page for every visit. -/
theorem length_calls (log : CommandLog) (visits : List Visit) :
    (log.calls visits).length = visits.length := by
  induction visits generalizing log with
  | nil => rfl
  | cons visit visits ih => exact congrArg (· + 1) (ih _)

theorem savesBefore_succ (visit : Visit) (visits : List Visit) (n : ℕ) :
    savesBefore (visit :: visits) (n + 1) = visit.saves ++ savesBefore visits n := by
  rw [savesBefore, List.take_succ_cons, List.flatMap_cons, savesBefore]

theorem saveAll_append (log : CommandLog) (as bs : List Attempt) :
    log.saveAll (as ++ bs) = (log.saveAll as).saveAll bs := List.foldl_append

/-- The nth listing shows the log after all that was saved before the nth call. -/
theorem items_of_calls {n : ℕ} {call : Call (Bytes × Command)}
    (h : (log.calls visits)[n]? = some call) :
    call.items = (log.saveAll (savesBefore visits (n + 1))).ordered.toList := by
  induction visits generalizing log n with
  | nil => cases h
  | cons visit visits ih =>
      rw [savesBefore_succ, saveAll_append]
      cases n with
      | zero => cases h; rfl
      | succ n => exact ih h

/-- Whatever is attempted, tokens stay signed with the same. -/
theorem cursor_saveAll (log : CommandLog) (as : List Attempt) :
    (log.saveAll as).cursor = log.cursor := by
  induction as generalizing log with
  | nil => rfl
  | cons a as ih => rw [saveAll_cons, ih, attempt, cursor_save]

/-- The client goes through the listings as through any others. -/
theorem browse_eq_walk (log : CommandLog) (token : Bytes) (visits : List Visit) :
    log.browse token visits = ((walk (·.1) log.cursor token (log.calls visits)).map
      (List.map (Page.map (·.2)))).mapError .badPage := by
  induction visits generalizing log token with
  | nil => rfl
  | cons visit visits ih =>
      rw [browse, list_eq, calls, walk, cursor_saveAll]
      cases paginate (·.1) (log.saveAll visit.saves).ordered.toList log.cursor
          ⟨visit.limit.toNat, token⟩ with
      | error cause => rfl
      | ok page =>
          simp only [Except.map, Except.mapError, Page.map]
          split
          · rfl
          · rw [ih, cursor_saveAll]
            cases walk (·.1) log.cursor page.token ((log.saveAll visit.saves).calls visits) <;> rfl

/-! ### Listings that follow one another -/

section Listings

variable (h : log.Listable saved) (ht : log.Stampable (visits.flatMap (·.saves)))
  (h₀ : ∀ a ∈ visits.flatMap (·.saves), 0 ≤ a.now)
  (hs : ∀ a ∈ visits.flatMap (·.saves), a.ids.Short)

include h ht h₀ hs

/-- The listings can be gone through, and begin with what was listed before. -/
theorem Listable.calls : ∀ call ∈ log.calls visits,
    call.Pageable (·.1) ∧ log.ordered.toList <+: call.items := by
  induction visits generalizing log saved with
  | nil => exact fun _ hc => nomatch hc
  | cons visit visits ih =>
      rw [List.flatMap_cons] at ht h₀ hs
      obtain ⟨ht₁, ht₂⟩ := (stampable_append _ _ _).mp ht
      obtain ⟨h₀₁, h₀₂⟩ := List.forall_mem_append.mp h₀
      obtain ⟨hs₁, hs₂⟩ := List.forall_mem_append.mp hs
      have hnext := h.saveAll ht₁ h₀₁ hs₁
      have hbegins : log.ordered.toList <+: (log.saveAll visit.saves).ordered.toList := by
        rw [h.ordered, hnext.ordered, List.map_append]
        exact List.prefix_append _ _
      rw [CommandLog.calls, List.forall_mem_cons]
      refine ⟨⟨hnext.pageable _, hbegins⟩, fun call hcall => ?_⟩
      obtain ⟨hpageable, hitems⟩ := ih hnext ht₂ h₀₂ hs₂ call hcall
      exact ⟨hpageable, hbegins.trans hitems⟩

/-- From visit to visit the listing only grows at its end. -/
theorem Listable.grows : Grows (log.calls visits) := by
  induction visits generalizing log saved with
  | nil => exact .nil
  | cons visit visits ih =>
      rw [List.flatMap_cons] at ht h₀ hs
      obtain ⟨ht₁, ht₂⟩ := (stampable_append _ _ _).mp ht
      obtain ⟨h₀₁, h₀₂⟩ := List.forall_mem_append.mp h₀
      obtain ⟨hs₁, hs₂⟩ := List.forall_mem_append.mp hs
      have hnext := h.saveAll ht₁ h₀₁ hs₁
      exact List.pairwise_cons.mpr
        ⟨fun call hcall => (hnext.calls ht₂ h₀₂ hs₂ call hcall).2, ih hnext ht₂ h₀₂ hs₂⟩

/-- What is saved before the nth call can be listed at it. -/
theorem Listable.savesBefore (n : ℕ) : (log.saveAll (savesBefore visits n)).Listable
    (saved ++ log.savedBy (CommandLog.savesBefore visits n)) := by
  have hsplit : visits.flatMap (·.saves) =
      CommandLog.savesBefore visits n ++ (visits.drop n).flatMap (·.saves) := by
    rw [CommandLog.savesBefore, ← List.flatMap_append, List.take_append_drop]
  rw [hsplit] at ht h₀ hs
  exact h.saveAll ((stampable_append _ _ _).mp ht).1 (List.forall_mem_append.mp h₀).1
    (List.forall_mem_append.mp hs).1

end Listings

/-- What is seen of pages that are mapped is what was seen, mapped. -/
theorem seen_map (pages : List (Page (Bytes × Command))) :
    seen (pages.map (Page.map (·.2))) = (seen pages).map (·.2) := by
  rw [seen, seen, List.flatMap_map, List.map_flatMap]
  rfl

/-- What was saved before the nth call of a client is what it has seen then and what is left. -/
theorem Listable.shown (h : log.Listable []) (ht : log.Stampable (visits.flatMap (·.saves)))
    (h₀ : ∀ a ∈ visits.flatMap (·.saves), 0 ≤ a.now)
    (hs : ∀ a ∈ visits.flatMap (·.saves), a.ids.Short) {pages : List (Page (Bytes × Command))}
    (hf : Follow (·.1) log.cursor none 0 (log.calls visits) pages) {n : ℕ} {page : Page Command}
    (hn : (pages.map (Page.map (·.2)))[n]? = some page) :
    ∃ left, log.savedBy (CommandLog.savesBefore visits (n + 1)) =
        seen ((pages.map (Page.map (·.2))).take (n + 1)) ++ left ∧
      page.remaining = left.length ∧ (page.token = [] ↔ left = []) := by
  rw [List.getElem?_map] at hn
  obtain ⟨page, hpage, rfl⟩ := Option.map_eq_some_iff.mp hn
  have hcalls := h.calls ht h₀ hs
  obtain ⟨call, left, hcall, hitems, hremaining, htoken⟩ := hf.shown
    (fun call hcall => (hcalls call hcall).1.ascends) (h.grows ht h₀ hs)
    (fun call _ => List.nil_prefix) hpage
  have hsaved := (h.savesBefore ht h₀ hs (n + 1)).ordered
  rw [← items_of_calls hcall, hitems, List.nil_append, List.nil_append] at hsaved
  have hcommands := congrArg (List.map (·.2)) hsaved
  rw [List.map_append, ← seen_map, List.map_take, List.map_map, Function.comp_def,
    List.map_id'] at hcommands
  refine ⟨left.map (·.2), hcommands.symm, ?_, ?_⟩
  · rw [List.length_map]
    exact hremaining
  · rw [hremaining, List.length_eq_zero_iff] at htoken
    rw [List.map_eq_nil_iff]
    exact htoken

/-- What is left behind the last page is nothing if that is the end. -/
theorem shown_at_end {pages : List (Page Command)} {before : ℕ → List Command}
    (h : ∀ n page, pages[n]? = some page → ∃ left,
      before (n + 1) = seen (pages.take (n + 1)) ++ left ∧ page.remaining = left.length ∧
        (page.token = [] ↔ left = [])) (h₀ : before 0 = []) :
    ∃ left, before pages.length = seen pages ++ left ∧ (Finished pages → left = []) := by
  cases hlast : pages.getLast? with
  | none =>
      obtain rfl : pages = [] := List.getLast?_eq_none_iff.mp hlast
      exact ⟨[], h₀, fun _ => rfl⟩
  | some page =>
      have hlength : pages.length - 1 + 1 = pages.length :=
        Nat.sub_add_cancel (List.length_pos_of_mem (List.mem_of_getLast? hlast))
      obtain ⟨left, hbefore, -, htoken⟩ :=
        h _ page (List.getLast?_eq_getElem?.symm.trans hlast)
      rw [hlength, List.take_length] at hbefore
      refine ⟨left, hbefore, ?_⟩
      rintro ⟨last, hlast', hnone⟩
      obtain rfl : page = last := Option.some.inj (hlast.symm.trans hlast')
      exact htoken.mp hnone

/-- A client goes through the commands of a log that was started empty, while more are saved.  At
each of its calls it has seen a beginning of what was saved before, and is told how many commands of
that are left.  Once it is told that there is no more it has seen all that was saved before its last
call, in the order of saving, and no command twice. -/
theorem pages_show_what_was_saved (h : log.StartsEmpty) (hlimit : visit.limit ≠ 0)
    (h₀ : ∀ a ∈ (visit :: visits).flatMap (·.saves), 0 ≤ a.now)
    (hs : ∀ a ∈ (visit :: visits).flatMap (·.saves), a.ids.Short)
    (ht : log.Stampable ((visit :: visits).flatMap (·.saves))) :
    let savedBefore n := log.savedBy (savesBefore (visit :: visits) n)
    ∃ pages, log.browse [] (visit :: visits) = .ok pages ∧
      (∀ n page, pages[n]? = some page → ∃ left,
        savedBefore (n + 1) = seen (pages.take (n + 1)) ++ left ∧ page.remaining = left.length ∧
          (page.token = [] ↔ left = [])) ∧
      (Finished pages → seen pages = savedBefore pages.length) ∧
      ((seen pages).map (·.id)).Nodup ∧
      (Finished pages ∨ pages.length = (visit :: visits).length) := by
  intro savedBefore
  have hlist := h.listable
  have hsize : ∀ call ∈ (log.calls (visit :: visits)).head?, call.sizeAfter 0 ≠ 0 := by
    rintro _ ⟨⟩
    rwa [Call.sizeAfter, if_neg hlimit]
  -- the walk is over the commands with their keys, and the pages are without the keys
  obtain ⟨found, hfound, hfollow⟩ := walk_follows (opens_first log.cursor) hsize
    fun call hcall => (hlist.calls ht h₀ hs call hcall).1
  obtain ⟨pages, hpages⟩ : ∃ pages, pages = found.map (Page.map (·.2)) := ⟨_, rfl⟩
  have hshown : ∀ n page, pages[n]? = some page → ∃ left,
      savedBefore (n + 1) = seen (pages.take (n + 1)) ++ left ∧ page.remaining = left.length ∧
        (page.token = [] ↔ left = []) := by
    rw [hpages]
    exact fun n page hpage => hlist.shown ht h₀ hs hfollow hpage
  obtain ⟨left, hsaved, hleft⟩ := shown_at_end hshown rfl
  refine ⟨pages, ?_, hshown, fun hf => ?_, ?_, ?_⟩
  · rw [browse_eq_walk, hfound, hpages]
    rfl
  · rw [hsaved, hleft hf, List.append_nil]
  · have hdistinct := (hlist.savesBefore ht h₀ hs pages.length).records.distinct
    rw [List.nil_append] at hdistinct
    refine hdistinct.sublist (List.Sublist.map _ ?_)
    rw [show log.savedBy _ = _ from hsaved]
    exact List.sublist_append_left _ _
  · rcases hfollow.ends with ⟨last, hlast, htoken⟩ | hlength
    · refine .inl ⟨last.map (·.2), ?_, htoken⟩
      rw [hpages, List.getLast?_map, hlast]
      rfl
    · rw [length_calls] at hlength
      rw [hpages, List.length_map]
      exact .inr hlength

/-- Two commands are saved, a client takes the first, a third is saved while the clock has gone
back, and the client is given the other two and told that there is no more. -/
theorem third_command_on_second_page :
    let third := restartAt 3 fun _ => [0x63]
    ∃ pages, sample.browse [] [⟨sampleAttempts, 1⟩, ⟨[third], 5⟩] = .ok pages ∧
      pages.map (·.remaining) = [1, 0] ∧
      seen pages = sample.savedBy (sampleAttempts ++ [third]) ∧
      (seen pages).map (·.createdAt) = [5, 6, 7] := by
  intro third
  have ht : sample.Stampable (sampleAttempts ++ [third]) := by
    refine (stampable_append _ _ _).mpr ⟨stampable_sampleAttempts, fun t hlatest _ => ?_, trivial⟩
    cases hlatest
    decide
  have h₀ : ∀ a ∈ sampleAttempts ++ [third], 0 ≤ a.now := by
    simp only [sampleAttempts, third, restartAt, List.cons_append, List.nil_append,
      List.forall_mem_cons]
    decide
  have hs : ∀ a ∈ sampleAttempts ++ [third], a.ids.Short := by
    simp only [sampleAttempts, third, restartAt, List.cons_append, List.nil_append,
      List.forall_mem_cons]
    have hone : 1 ≤ Command.idSize := by decide
    exact ⟨fun _ => hone, fun _ => hone, fun _ => hone, nofun⟩
  obtain ⟨pages, hpages, -, hall, -, -⟩ := @pages_show_what_was_saved sample ⟨sampleAttempts, 1⟩
    [⟨[third], 5⟩] (.journaled restore_sample rfl) (by decide) h₀ hs ht
  have hgiven : (sample.browse [] [⟨sampleAttempts, 1⟩, ⟨[third], 5⟩]).toOption.map
      (fun pages => (pages.map (·.remaining), pages.getLast?.map (·.token),
        (seen pages).map (·.createdAt))) = some ([1, 0], some [], [5, 6, 7]) := by decide +kernel
  rw [hpages] at hgiven
  simp only [Except.toOption, Option.map_some, Option.some.injEq, Prod.mk.injEq] at hgiven
  obtain ⟨hremaining, hlast, htimes⟩ := hgiven
  obtain ⟨page, hpage, htoken⟩ := Option.map_eq_some_iff.mp hlast
  have hlength : pages.length = 2 := by rw [← List.length_map (·.remaining), hremaining]; rfl
  have hseen := hall ⟨page, hpage, htoken⟩
  rw [hlength] at hseen
  exact ⟨pages, hpages, hremaining, hseen, htimes⟩

end CommandLog

end FleetControl
