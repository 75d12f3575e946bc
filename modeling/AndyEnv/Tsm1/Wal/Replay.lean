import AndyEnv.Tsm1.Wal.SegmentFiles

/-!
# Replay

`WritePoints` adds its points to the cache under one lock and logs them under
another. Two writers may take the second lock in the other order, and then the
cache and the log disagree about which of two values at the same time came
last: `Cursor` returns one of them, and a replay of the log the other.

The replay agrees with `Cursor` when no entry is logged before an earlier
write to one of its series fields and times (`LogsInOrder`).
-/

namespace AndyEnv.Tsm1.Wal

open List Bytes Option

/-! ## Replaying the files -/

section Replay

variable (C : EntryCodec)

def Log.readFileToCache (dir : Dir UInt8) (l : Log) (id : ℕ) : Option Log :=
  match dir.lookup id with
  | none => none
  | some content =>
    let r := readEntries C content
    if r.2.isError then none else some (r.1.foldl Log.replayEntry l)

def replay (dir : Dir UInt8) : Option Log :=
  (segmentFileNames dir).foldlM (Log.readFileToCache C dir) Log.new

end Replay

/-! ## The property and the condition -/

def valuesAt (k : Bytes) (t : ℤ) (kvs : List (Bytes × Value)) : Values :=
  (valuesOf k kvs).filter (fun v => v.unixNano = t)

def Action.values : Action → List (Bytes × Value)
  | .log e => e.values
  | _ => []

def Call.pending (c : Call) : List (Bytes × Value) := c.actions.flatMap Action.values

/-- **A replay of the files agrees with the cursor** of every series field. -/
def ReplayAgrees (C : EntryCodec) (s : State) : Prop :=
  ∀ l ∈ s.log, ∃ l', replay C s.dir = some l' ∧ ∀ k, l'.cursor k = l.cursor k

/-- The entry is read back as one of its type with the same values of every
series field. -/
def ReadsBack (C : EntryCodec) (e : Entry) : Prop :=
  ∃ e', ReadsAs C e e' ∧ e'.type = e.type ∧ ∀ k, valuesOf k e'.values = valuesOf k e.values

def Op.isWrite : Op → Prop
  | .writePoints _ _ _ => True
  | .advance _ => True
  | _ => False

/-- The condition: when an entry is logged, no call that has added to the
cache before it has still to log a value of the same series field and time;
the entry can be read back; and the number of the segment has no more than
five digits. -/
def LogsInOrder (C : EntryCodec) (s : State) (op : Op) : Prop :=
  op.isWrite ∧ ∀ i start e rest l, op = .advance i → s.log = some l →
    s.calls[i]? = some ⟨start, .log e :: rest⟩ →
      (∀ c ∈ s.calls.take i, ∀ x ∈ c.pending, ∀ y ∈ e.values,
        ¬ (x.1 = y.1 ∧ x.2.unixNano = y.2.unixNano)) ∧
      ReadsBack C e ∧ l.currentSegmentID < 99999

theorem valuesAt_append (k : Bytes) (t : ℤ) (xs ys : List (Bytes × Value)) :
    valuesAt k t (xs ++ ys) = valuesAt k t xs ++ valuesAt k t ys := by
  rw [valuesAt, valuesOf_append, filter_append]
  rfl

theorem valuesAt_eq_nil {k : Bytes} {t : ℤ} {kvs : List (Bytes × Value)}
    (h : ∀ x ∈ kvs, ¬ (x.1 = k ∧ x.2.unixNano = t)) : valuesAt k t kvs = [] := by
  refine filter_eq_nil_iff.mpr (fun v hv => ?_)
  have := h (k, v) (mem_valuesOf.mp hv)
  simpa using this

/-! ## The order of the files -/

theorem fileName_eq {n : ℕ} (h : n ≤ 99999) :
    fileName n = 95 :: (decimal 5 n ++ [46, 119, 97, 108]) := by
  rw [fileName, paddedDigits, decimal_eq (by omega), length_reverse]

theorem le_of_fileName_le {a b : ℕ} (ha : a ≤ 99999) (hb : b ≤ 99999)
    (h : le (fileName a) (fileName b) = true) : a ≤ b := by
  rw [fileName_eq ha, fileName_eq hb, le_cons] at h
  rcases h with h | ⟨-, h⟩
  · exact absurd h (by decide)
  · rcases le_decimal_append (by omega) (by omega) h with h | ⟨h, -⟩
    · exact h.le
    · exact h.le

/-- **Files are read in the order of their numbers**, up to five digits. -/
theorem segmentFileNames_ascending {dir : Dir UInt8}
    (h : ∀ id, (dir.lookup id).isSome = true → id ≤ 99999) :
    (segmentFileNames dir).Pairwise (· < ·) := by
  have hmem := fun id (hid : id ∈ dir.keys) => h id (AList.lookup_isSome.mpr hid)
  apply pairwise_lt_insertionSort dir.nodupKeys
  intro a ha b hb hab
  exact le_of_fileName_le (hmem a ha) (hmem b hb) hab

/-! ## What a replay reads -/

structure Log.Took (l : Log) (kvs : List (Bytes × Value)) (l' : Log) : Prop where
  get : ∀ k, l'.cache.get k = l.cache.get k ++ valuesOf k kvs
  sorted : l.CacheSorted → l'.CacheSorted
  flushCache : l'.flushCache = l.flushCache

namespace Log

theorem Took.refl (l : Log) : l.Took [] l :=
  ⟨fun _ => (append_nil _).symm, fun h => h, rfl⟩

theorem Took.trans {l l' l'' : Log} {xs ys : List (Bytes × Value)} (h : l.Took xs l')
    (h' : l'.Took ys l'') : l.Took (xs ++ ys) l'' where
  get k := by rw [h'.get, h.get, valuesOf_append, append_assoc]
  sorted hl := h'.sorted (h.sorted hl)
  flushCache := h'.flushCache.trans h.flushCache

theorem took_addAll (l : Log) (points : List Point) (fields series : List Bytes) :
    l.Took (points.flatMap Point.values) (l.addAll points fields series) :=
  ⟨get_addAll l points fields series, fun h => h.addAll _ _ _,
    (sameFiles_addAll l points fields series).flushCache⟩

theorem took_replayEntry (l : Log) {e : Entry} (h : e.type ≠ 4) :
    l.Took e.values (l.replayEntry e) := by
  cases e with
  | points ps => exact took_addAll l ps [] []
  | fields names => exact took_addAll l [] names []
  | series keys => exact took_addAll l [] [] keys
  | delete keys name => exact absurd rfl h

theorem took_foldl_replayEntry {back : Entry → Entry} : ∀ {records : List Record} (l : Log),
    (∀ r ∈ records, (back r.entry).type ≠ 4 ∧
      ∀ k, valuesOf k (back r.entry).values = valuesOf k r.entry.values) →
    l.Took (records.flatMap (fun r => r.entry.values))
      ((records.map (fun r => back r.entry)).foldl Log.replayEntry l)
  | [], l, _ => .refl l
  | r :: records, l, h => by
    obtain ⟨hne, hvalues⟩ := h r mem_cons_self
    have hstep := l.took_replayEntry hne
    exact Took.trans ⟨fun k => by rw [hstep.get, hvalues], hstep.sorted, hstep.flushCache⟩
      (took_foldl_replayEntry _ (forall_mem_cons.mp h).2)

end Log

/-! ## The files -/

section Files

variable {C : EntryCodec} {dir : Dir UInt8} {records : List Record}

variable {back : Entry → Entry}

theorem foldlM_readFileToCache (h : ∀ r ∈ records, ReadsAs C r.entry (back r.entry)) :
    ∀ {ids : List ℕ} (l : Log), (∀ id ∈ ids, dir.lookup id = some (recordedBytes C records id)) →
      ids.foldlM (Log.readFileToCache C dir) l =
        some (((ids.flatMap (fun id => records.filter (fun r => r.segment = id))).map
          (fun r => back r.entry)).foldl Log.replayEntry l)
  | [], l, _ => rfl
  | id :: ids, l, hids => by
    have hreads : List.Forall₂ (ReadsAs C)
        ((records.filter (fun r => r.segment = id)).map Record.entry)
        ((records.filter (fun r => r.segment = id)).map (fun r => back r.entry)) := by
      rw [forall₂_map_left_iff, forall₂_map_right_iff, forall₂_same]
      exact fun r hr => h r (mem_filter.mp hr).1
    have hbytes : recordedBytes C records id =
        ((records.filter (fun r => r.segment = id)).map Record.entry).flatMap (entryBytes C) := by
      rw [recordedBytes, flatMap_map]
    have hread : l.readFileToCache C dir id =
        some (((records.filter (fun r => r.segment = id)).map (fun r => back r.entry)).foldl
          Log.replayEntry l) := by
      rw [Log.readFileToCache, hids id mem_cons_self, hbytes]
      dsimp only
      rw [readEntries_flatMap hreads]
      rfl
    rw [foldlM_cons, hread, flatMap_cons, map_append, foldl_append]
    exact foldlM_readFileToCache h _ (forall_mem_cons.mp hids).2

/-- **The replay of files** that hold the entries in the order of their numbers. -/
theorem replay_of_files
    (hexact : ∀ id content, dir.lookup id = some content → content = recordedBytes C records id)
    (hpresent : ∀ r ∈ records, (dir.lookup r.segment).isSome = true)
    (hrecords : records.Pairwise (fun r r' => r.segment ≤ r'.segment))
    (hfile : ∀ id, (dir.lookup id).isSome = true → id ≤ 99999)
    (hreads : ∀ r ∈ records, ReadsAs C r.entry (back r.entry)) :
    replay C dir = some ((records.map (fun r => back r.entry)).foldl Log.replayEntry Log.new) := by
  have hids : ∀ id ∈ segmentFileNames dir, dir.lookup id = some (recordedBytes C records id) := by
    intro id hid
    obtain ⟨content, hc⟩ := isSome_iff_exists.mp (mem_segmentFileNames.mp hid)
    rw [hc, hexact id content hc]
  rw [replay, foldlM_readFileToCache hreads Log.new hids,
    flatMap_filter_of_sorted (segmentFileNames_ascending hfile) hrecords
      (fun r hr => mem_segmentFileNames.mpr (hpresent r hr))]

end Files

/-! ## The invariant -/

/-- **The invariant**: for every series field and time, the values added to the
cache are those in the log and then those that are still to be logged, in this
order. -/
structure Replayable (C : EntryCodec) (s : State) (l : Log) : Prop where
  log_eq : s.log = some l
  opening : s.opening = none
  flush : s.flush = none
  opened : OpenedInv C s l
  present : ∀ r ∈ s.recorded, (s.dir.lookup r.segment).isSome = true
  sorted : l.CacheSorted
  flushCache : l.flushCache = none
  cache : ∀ k, l.cache.get k = valuesOf k s.history
  order : ∀ k t, valuesAt k t s.history =
    valuesAt k t (s.recorded.flatMap (fun r => r.entry.values)) ++
      valuesAt k t (s.calls.flatMap Call.pending)
  ascending : s.recorded.Pairwise (fun r r' => r.segment ≤ r'.segment)
  segment_le : ∀ r ∈ s.recorded, r.segment ≤ l.currentSegmentID
  file_le : ∀ id, (s.dir.lookup id).isSome = true → id ≤ l.currentSegmentID
  id_le : l.currentSegmentID ≤ 99999
  readsBack : ∀ r ∈ s.recorded, ReadsBack C r.entry ∧ r.entry.type ≠ 4
  logs : ∀ c ∈ s.calls, ∀ a ∈ c.actions, ∃ e, a = .log e ∧ e.type ≠ 4

namespace Replayable

variable {C : EntryCodec} {cfg : Config} {s s' : State} {l : Log}

/-- **When all calls have returned, the replay agrees with the cursor.** -/
theorem replayAgrees (h : Replayable C s l) (hcalls : s.calls = []) : ReplayAgrees C s := by
  intro x hx
  obtain rfl := some.inj (h.log_eq.symm.trans hx)
  have hreads : ∀ e, ReadsBack C e → ∃ e', ReadsAs C e e' ∧ e'.type = e.type ∧
      ∀ k, valuesOf k e'.values = valuesOf k e.values := fun _ h => h
  have : Nonempty Entry := ⟨.points []⟩
  choose! back hback htype hvalues using hreads
  have hreplay := replay_of_files h.opened.exact_eq h.present h.ascending
    (fun id hid => (h.file_le id hid).trans h.id_le) (fun r hr => hback r.entry (h.readsBack r hr).1)
  have htook := Log.new.took_foldl_replayEntry (fun r hr =>
    ⟨htype r.entry (h.readsBack r hr).1 ▸ (h.readsBack r hr).2, hvalues r.entry (h.readsBack r hr).1⟩)
  refine ⟨_, hreplay, fun k => ?_⟩
  have hsorted := htook.sorted (fun k _ => List.Pairwise.nil)
  have hnew : (Log.new.flushCache.getD ∅).get k = [] ∧ Log.new.cache.get k = [] := ⟨rfl, rfl⟩
  rw [hsorted.cursor_eq, h.sorted.cursor_eq, htook.flushCache, h.flushCache, htook.get, h.cache,
    hnew.1, hnew.2]
  refine Keyed.ofList_congr (fun t => ?_)
  have horder := h.order k t
  rw [hcalls] at horder
  simpa [valuesAt] using horder.symm

theorem lookup_opened {id : ℕ} {content : Bytes} (h : State.opened.dir.lookup id = some content) :
    id = 1 ∧ content = [] := by
  rw [show State.opened.dir = Dir.create ∅ 1 from rfl, Dir.lookup_create] at h
  split at h
  · rename_i hid
    exact ⟨hid, (some.inj h).symm⟩
  · cases h

theorem initial : Replayable C State.opened
    { Log.new with currentSegmentID := 1, currentSegmentFile := some ⟨1, 0⟩ } where
  log_eq := rfl
  opening := rfl
  flush := rfl
  opened :=
    { fileCurrent := fun f hf => by cases hf; rfl
      exact_eq := fun id content hc => (lookup_opened hc).2
      le := fun id content hc _ => (lookup_opened hc).1.le
      handle := fun f hf => by cases hf; exact ⟨[], rfl, rfl⟩
      flush := nofun }
  present := nofun
  sorted k _ := List.Pairwise.nil
  flushCache := rfl
  cache _ := rfl
  order _ _ := rfl
  ascending := List.Pairwise.nil
  segment_le := nofun
  file_le id hid := by
    obtain ⟨content, hc⟩ := isSome_iff_exists.mp hid
    exact (lookup_opened hc).1.le
  id_le := show 1 ≤ 99999 by omega
  readsBack := nofun
  logs := nofun

theorem pending_writeEntries (points : List Point) (fields series : List Bytes) (start : ℕ) :
    Call.pending ⟨start, (writeEntries points fields series).map Action.log⟩ =
      points.flatMap Point.values := by
  unfold Call.pending writeEntries
  split <;> split <;> simp [Action.values, Entry.values]

variable {points : List Point} {fields series : List Bytes} {calls : List Call} {i : ℕ}

theorem type_writeEntries {e : Entry} (h : e ∈ writeEntries points fields series) : e.type ≠ 4 := by
  cases e with
  | points ps => exact (by decide : (1 : UInt8) ≠ 4)
  | fields names => exact (by decide : (2 : UInt8) ≠ 4)
  | series keys => exact (by decide : (3 : UInt8) ≠ 4)
  | delete keys name =>
    unfold writeEntries at h
    split at h <;> split at h <;> simp at h

theorem extend (h : Replayable C s l) {l' : Log} (hfiles : Log.SameFiles l l') (hsorted : l'.CacheSorted)
    {new : List (Bytes × Value)} (hget : ∀ k, l'.cache.get k = l.cache.get k ++ valuesOf k new)
    (hcalls : calls.flatMap Call.pending = new)
    (hlogs : ∀ c ∈ calls, ∀ a ∈ c.actions, ∃ e, a = .log e ∧ e.type ≠ 4) (flushRequested : Bool) :
    Replayable C { s with
      log := some l', flushRequested := flushRequested
      calls := s.calls ++ calls, history := s.history ++ new } l' :=
  { h with
    log_eq := rfl
    opened := h.opened.of_sameFiles hfiles.currentSegmentID hfiles.currentSegmentFile rfl rfl
      (fun fl hfl => ⟨fl, hfl, rfl⟩)
    sorted := hsorted
    flushCache := hfiles.flushCache.trans h.flushCache
    cache := fun k => by rw [hget, h.cache, valuesOf_append]
    order := fun k t => by
      dsimp only
      rw [flatMap_append, valuesAt_append, valuesAt_append, h.order k t, append_assoc, hcalls]
    segment_le := fun r hr => hfiles.currentSegmentID ▸ h.segment_le r hr
    file_le := fun id hid => hfiles.currentSegmentID ▸ h.file_le id hid
    id_le := hfiles.currentSegmentID ▸ h.id_le
    logs := forall_mem_append.mpr ⟨h.logs, hlogs⟩ }

theorem writePoints (h : Replayable C s l)
    (hstep : stepWritePoints cfg s points fields series = some s') : ∃ l', Replayable C s' l' := by
  obtain ⟨l₀, hl₀, -, hcases⟩ := stepWritePoints_cases hstep
  obtain rfl : l₀ = l := some.inj (hl₀.symm.trans h.log_eq)
  obtain ⟨hfiles, hsorted, hget⟩ := Log.addToCache_spec cfg l₀ points fields series true
  refine ⟨(l₀.addToCache cfg points fields series true).log, ?_⟩
  rcases hcases with ⟨hacc, rfl⟩ | ⟨hacc, rfl⟩
  · simp only [hacc, Bool.false_eq_true, if_false] at hget
    have hext := h.extend hfiles (hsorted h.sorted) hget flatMap_nil (forall_mem_nil _)
    simpa only [append_nil] using hext _
  · simp only [hacc, if_true] at hget
    refine h.extend hfiles (hsorted h.sorted) hget ?_ (forall_mem_singleton.mpr (fun a ha => ?_)) _
    · rw [flatMap_singleton, pending_writeEntries]
    · obtain ⟨e, he, rfl⟩ := mem_map.mp ha
      exact ⟨e, rfl, type_writeEntries he⟩

theorem pending_advance {start : ℕ} {a : Action} {rest : List Action}
    (h : calls[i]? = some ⟨start, a :: rest⟩) :
    calls.flatMap Call.pending = (calls.take i).flatMap Call.pending ++ (a.values ++
        (rest.flatMap Action.values ++ (calls.drop (i + 1)).flatMap Call.pending)) ∧
      (if rest = [] then calls.eraseIdx i else calls.set i ⟨start, rest⟩).flatMap Call.pending =
        (calls.take i).flatMap Call.pending ++
          (rest.flatMap Action.values ++ (calls.drop (i + 1)).flatMap Call.pending) := by
  obtain ⟨hi, hget⟩ := List.getElem?_eq_some_iff.mp h
  constructor
  · conv_lhs => rw [← take_append_drop i calls, drop_eq_getElem_cons hi, hget]
    simp [Call.pending]
  · split
    · rename_i hrest
      rw [eraseIdx_eq_take_drop_succ, hrest]
      simp
    · rw [set_eq_take_append_cons_drop, if_pos hi]
      simp [Call.pending]

/-- **An entry is logged** at the end, before the values that are still to be logged. -/
theorem advance (h : Replayable C s l) (hok : LogsInOrder C s (.advance i))
    (hstep : stepAdvance C s i = some s') : ∃ l', Replayable C s' l' := by
  obtain ⟨l₀, start, a, rest, hl₀, -, hcall, rfl⟩ := stepAdvance_cases hstep
  obtain rfl : l₀ = l := some.inj (hl₀.symm.trans h.log_eq)
  obtain ⟨e, rfl, htype⟩ :=
    h.logs _ (mem_of_getElem? hcall) a mem_cons_self
  obtain ⟨hfree, hread, hlt⟩ := hok.2 i start e rest l₀ rfl hl₀ hcall
  obtain ⟨hsame, -, hle, hseg, -⟩ :=
    Log.writeToLog_spec h.opened.fileCurrent s.dir (entryBytes C e)
  have hnext := l₀.currentSegmentID_writeToLog_le s.dir (entryBytes C e)
  have hlookup := h.opened.lookup_writeToLog (entryBytes C e)
  refine ⟨(l₀.writeToLog s.dir (entryBytes C e)).1, ?_⟩
  exact
    { log_eq := rfl
      opening := h.opening
      flush := h.flush
      opened := h.opened.logEntry h.present e start _
      present := fun r hr => h.opened.present_logEntry h.present hr
      sorted := hsame.cacheSorted h.sorted
      flushCache := hsame.flushCache.trans h.flushCache
      cache := fun k => by rw [hsame.cache]; exact h.cache k
      order := fun k t => by
        obtain ⟨hbefore, hafter⟩ := pending_advance hcall
        dsimp only [runAction]
        rw [h.order k t, hbefore, hafter, flatMap_append, flatMap_singleton]
        simp only [valuesAt_append, Action.values, append_assoc]
        by_cases hnil : valuesAt k t ((s.calls.take i).flatMap Call.pending) = []
        · rw [hnil, nil_append, nil_append]
        -- an earlier call has a value at this time, so the entry has none
        have he : valuesAt k t e.values = [] := by
          refine valuesAt_eq_nil (fun y hy hyt => hnil (valuesAt_eq_nil (fun x hx hxt => ?_)))
          obtain ⟨c, hc, hx⟩ := mem_flatMap.mp hx
          exact hfree c hc x hx y hy ⟨hxt.1.trans hyt.1.symm, hxt.2.trans hyt.2.symm⟩
        rw [he, nil_append, nil_append]
      ascending := by
        refine pairwise_append.mpr ⟨h.ascending, pairwise_singleton _ _, ?_⟩
        intro r hr r' hr'
        rw [mem_singleton.mp hr']
        exact ((h.segment_le r hr).trans hle).trans hseg.ge
      segment_le := forall_mem_append.mpr
        ⟨fun r hr => (h.segment_le r hr).trans hle, forall_mem_singleton.mpr hseg.le⟩
      file_le := fun id hid => by
        dsimp only [runAction] at hid
        rw [hlookup] at hid
        split at hid
        · rename_i heq
          exact (heq.trans hseg).le
        · exact (h.file_le id hid).trans hle
      id_le := by omega
      readsBack := forall_mem_append.mpr ⟨h.readsBack, forall_mem_singleton.mpr ⟨hread, htype⟩⟩
      logs := fun c hc b hb => by
        dsimp only at hc
        split at hc
        · exact h.logs c (mem_of_mem_eraseIdx hc) b hb
        · rcases mem_or_eq_of_mem_set hc with hc | rfl
          · exact h.logs c hc b hb
          · exact h.logs _ (mem_of_getElem? hcall) b (mem_cons_of_mem _ hb) }

theorem step (h : Replayable C s l) {op : Op} (hok : LogsInOrder C s op)
    (hstep : step C cfg s op = some s') : ∃ l', Replayable C s' l' := by
  cases op with
  | writePoints points fields series => exact h.writePoints hstep
  | advance i => exact h.advance hok hstep
  | _ => exact hok.1.elim

end Replayable

/-- **A replay agrees with what readers saw.** In every run of `WritePoints`
calls in which no entry is logged ahead of an earlier write to one of its
series fields and times, once all calls have returned the replay of the segment
files gives for every series field what `Cursor` returns. -/
theorem wal_replayAgrees (C : EntryCodec) (cfg : Config) (s : State)
    (h : (openedSystem C cfg).Reaches (LogsInOrder C) s) (hcalls : s.calls = []) :
    ReplayAgrees C s := by
  have hinv : ∃ l, Replayable C s l := by
    refine h.invariant (I := fun s => ∃ l, Replayable C s l) ?_ ?_
    · rintro s rfl
      exact ⟨_, Replayable.initial⟩
    · rintro s op s' ⟨l, hl⟩ hok hstep
      exact hl.step hok hstep
  obtain ⟨l, hl⟩ := hinv
  exact hl.replayAgrees hcalls

/-! ## Two writers -/

def threePoints : EntryCodec :=
  tableCodec [.points [intPoint 1 1], .points [intPoint 1 2], .points [intPoint 2 3]]

/-- Two calls write to the same time and log in the other order. -/
def crossedWrites : List Op :=
  [.writePoints [intPoint 1 1] [] [], .writePoints [intPoint 1 2] [] [], .advance 1, .advance 0]

/-- `Cursor` has returned the value of the second call, and the replay gives
the value of the first. -/
theorem wal_replay_disagrees :
    ∃ s, (openedSystem threePoints ⟨100, 100⟩).Reaches (fun _ op => op.isWrite) s ∧
      s.calls = [] ∧ ¬ ReplayAgrees threePoints s := by
  obtain ⟨s, l, l', hs, hcalls, hlog, hreplay, hcursor, hcursor'⟩ : ∃ s l l',
      run threePoints ⟨100, 100⟩ State.opened crossedWrites = some s ∧ s.calls = [] ∧
      s.log = some l ∧ replay threePoints s.dir = some l' ∧
      l.cursor intKey = [⟨1, .int64 2⟩] ∧ l'.cursor intKey = [⟨1, .int64 1⟩] :=
    ⟨_, _, _, rfl, rfl, rfl, rfl, by decide +kernel, by decide +kernel⟩
  refine ⟨s, reaches_run (.init rfl) (by simp [crossedWrites, Op.isWrite]) hs, hcalls, fun h => ?_⟩
  obtain ⟨l'', hreplay', hagree⟩ := h l hlog
  obtain rfl := some.inj (hreplay.symm.trans hreplay')
  have heq := hagree intKey
  rw [hcursor, hcursor'] at heq
  exact absurd heq (by decide)

/-- Calls that write to different times may log in any order. -/
theorem wal_replayAgrees_disjoint :
    ∃ s, (openedSystem threePoints ⟨100, 100⟩).Reaches (LogsInOrder threePoints) s ∧
      s.calls = [] ∧ ReplayAgrees threePoints s := by
  have hcached : (openedSystem threePoints ⟨100, 100⟩).Reaches (LogsInOrder threePoints) _ :=
    .step (l := .writePoints [intPoint 2 3] [] [])
      (.step (l := .writePoints [intPoint 1 1] [] []) (.init rfl) ⟨trivial, nofun⟩ rfl)
      ⟨trivial, nofun⟩ rfl
  have hlogged : (openedSystem threePoints ⟨100, 100⟩).Reaches (LogsInOrder threePoints) _ :=
    .step (l := .advance 1) hcached ⟨trivial, fun i start e rest l hi hl hcall => by
      cases hi
      cases hl
      cases hcall
      exact ⟨by decide, ⟨_, ⟨by decide, rfl⟩, rfl, fun _ => rfl⟩, by decide⟩⟩ rfl
  have hboth : (openedSystem threePoints ⟨100, 100⟩).Reaches (LogsInOrder threePoints) _ :=
    .step (l := .advance 0) hlogged ⟨trivial, fun i start e rest l hi hl hcall => by
      cases hi
      cases hl
      cases hcall
      exact ⟨nofun, ⟨_, ⟨by decide, rfl⟩, rfl, fun _ => rfl⟩, by decide⟩⟩ rfl
  exact ⟨_, hboth, rfl, wal_replayAgrees _ _ _ hboth rfl⟩

end AndyEnv.Tsm1.Wal
