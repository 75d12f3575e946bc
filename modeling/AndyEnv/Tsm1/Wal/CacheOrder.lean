import AndyEnv.Tsm1.Wal.DeleteMeasurement

/-!
# The order of the cached values

The engine takes from the log lists of values in strict order of time. Values are cached in the
order in which they come; a key is marked as dirty when a value does not come after the last one,
and only dirty keys are sorted before they are handed over or read.
-/

namespace AndyEnv.Tsm1.Wal

open List Values Keyed

structure Log.InOrder (l : Log) : Prop where
  cache : l.CacheSorted
  flushCache : ∀ k, Ascending ((l.flushCache.getD ∅).get k)

/-- **The invariant**: what is not marked is in order, and so is all that was handed over. -/
structure InOrder (s : State) : Prop where
  log : ∀ l ∈ s.log, l.InOrder
  handed : ∀ m ∈ s.handed, ∀ k, Ascending (m.get k)

namespace Log

variable {l l' : Log}

theorem InOrder.of_sameCache (h : l.InOrder) (hsame : SameCache l l') : l'.InOrder :=
  ⟨hsame.cacheSorted h.cache, hsame.flushCache ▸ h.flushCache⟩

theorem InOrder.new : Log.new.InOrder := ⟨fun _ _ => ascending_nil, fun _ => ascending_nil⟩

theorem InOrder.deleteKeys (h : l.InOrder) (keys : List Bytes) :
    (l.deleteKeysFromCache keys).InOrder := by
  refine ⟨fun k hk => ?_, h.flushCache⟩
  rw [get_deleteKeysFromCache]
  split
  · exact ascending_nil
  · exact h.cache k hk

theorem InOrder.replayEntry (h : l.InOrder) (e : Entry) : (l.replayEntry e).InOrder := by
  by_cases htype : e.type = 4
  · cases e with
    | delete keys name =>
      unfold Log.replayEntry
      dsimp only
      split
      · exact (h.deleteKeys keys).of_sameCache ⟨rfl, rfl, rfl, rfl⟩
      · exact h.deleteKeys keys
    | _ => cases htype
  · have htook := l.took_replayEntry htype
    exact ⟨htook.sorted h.cache, htook.flushCache ▸ h.flushCache⟩

theorem InOrder.swapCache (h : l.InOrder) : l.swapCache.InOrder := by
  refine ⟨fun _ _ => ascending_nil, fun k => ?_⟩
  exact (h.cache.get_flushValues k).symm ▸ ascending_ofList _

end Log

variable {C : EntryCodec} {cfg : Config} {s s' : State} {op : Op}

theorem InOrder.of_log (h : InOrder s) {l : Log} (hlog : s'.log = some l)
    (hhanded : s'.handed = s.handed) (hl : l.InOrder) : InOrder s' :=
  ⟨fun _ hl' => Option.some.inj (hlog.symm.trans hl') ▸ hl, hhanded ▸ h.handed⟩

theorem InOrder.step (h : InOrder s) (hstep : step C cfg s op = some s') : InOrder s' := by
  have hclosed : InOrder s.closed := ⟨nofun, h.handed⟩
  cases op with
  | openLog =>
    obtain ⟨-, rfl⟩ := stepOpen_cases hstep
    exact h.of_log rfl rfl .new
  | readFile =>
    obtain ⟨l, found, f, files, hl, -, -, -, rfl | ⟨content, -, rfl⟩⟩ := stepReadFile_cases hstep
    · exact hclosed
    · refine h.of_log rfl rfl ?_
      exact foldlRecOn _ _ (h.log l hl) (fun l hl e _ => hl.replayEntry e)
  | writePoints points fields series =>
    obtain ⟨l, hl, -, hcases⟩ := stepWritePoints_cases hstep
    obtain ⟨hfiles, hsorted, -⟩ := l.addToCache_spec cfg points fields series true
    have hl' : (l.addToCache cfg points fields series true).log.InOrder :=
      ⟨hsorted (h.log l hl).cache, hfiles.flushCache ▸ (h.log l hl).flushCache⟩
    rcases hcases with ⟨-, rfl⟩ | ⟨-, rfl⟩
    · exact h.of_log rfl rfl hl'
    · exact h.of_log rfl rfl hl'
  | deleteSeries _ | deleteMeasurement _ _ =>
    obtain ⟨l, -, -, rfl⟩ := stepCall_cases hstep
    exact ⟨h.log, h.handed⟩
  | advance i =>
    obtain ⟨l, start, a, rest, hl, -, -, rfl⟩ := stepAdvance_cases hstep
    cases a with
    | log e =>
      refine h.of_log rfl rfl ((h.log l hl).of_sameCache ?_)
      obtain ⟨h1, h2, h3, h4⟩ := (l.segmentFile_spec s.dir).1
      exact ⟨h1, h2, h3, h4⟩
    | deleteKeys keys => exact h.of_log rfl rfl ((h.log l hl).deleteKeys keys)
    | deleteMeasurement name =>
      exact h.of_log rfl rfl ((h.log l hl).of_sameCache ⟨rfl, rfl, rfl, rfl⟩)
  | beginFlush type =>
    obtain ⟨l, hl, -, -, rfl | hcases⟩ := stepBeginFlush_cases hstep
    · exact h
    have hswap : (l.rotate s.dir type).1.swapCache.InOrder :=
      ((h.log l hl).of_sameCache (l.rotate_spec s.dir type).1).swapCache
    rcases hcases with ⟨-, rfl⟩ | rfl
    · exact h.of_log rfl rfl (hswap.of_sameCache ⟨rfl, rfl, rfl, rfl⟩)
    · exact h.of_log rfl rfl hswap
  | indexWrite ok =>
    obtain ⟨l, type, lastFileID, hl, -, hcases⟩ := stepIndexWrite_cases hstep
    rcases hcases with ⟨-, rfl⟩ | ⟨-, rfl⟩ | ⟨-, rfl⟩
    · refine ⟨fun l' hl' => ?_, forall_mem_append.mpr ⟨h.handed, ?_⟩⟩
      · cases hl'
        exact ⟨(h.log l hl).cache, fun _ => ascending_nil⟩
      · exact forall_mem_singleton.mpr (h.log l hl).flushCache
    · exact hclosed
    · exact h.of_log rfl rfl ((h.log l hl).of_sameCache ⟨rfl, rfl, rfl, rfl⟩)
  | removeSegments =>
    obtain ⟨l, type, lastFileID, hl, -, rfl⟩ := stepRemoveSegments_cases hstep
    exact h.of_log rfl rfl ((h.log l hl).of_sameCache ⟨rfl, rfl, rfl, rfl⟩)
  | crash =>
    obtain ⟨l, -, rfl⟩ := Option.map_eq_some_iff.mp hstep
    exact hclosed
  | crashLogging i bytes =>
    obtain ⟨l, start, e, rest, -, -, -, rfl⟩ := stepCrashLogging_cases hstep
    exact ⟨nofun, h.handed⟩

/-- **Values leave the log in order.** In every run of writes, deletes, flushes that succeed or
fail, crashes and restarts, each list that `IndexWriter.Write` is given ascends strictly in time,
and so does what `Cursor` returns: the flush cache and the cache, of each time the value that was
added last. -/
theorem wal_inOrder (h : (walSystem C cfg).Reachable s) :
    (∀ m ∈ s.handed, ∀ k, Ascending (m.get k)) ∧ ∀ l ∈ s.log, ∀ k, Ascending (l.cursor k) ∧
      l.cursor k = deduplicate ((l.flushCache.getD ∅).get k ++ l.cache.get k) := by
  have hinv : InOrder s := h.invariant (by rintro _ rfl; exact ⟨nofun, nofun⟩)
    (fun s op s' hinv _ hstep => hinv.step hstep)
  refine ⟨hinv.handed, fun l hl k => ?_⟩
  have hcursor := (hinv.log l hl).cache.cursor_eq k
  exact ⟨hcursor ▸ ascending_ofList _, hcursor⟩

/-- Two values that were cached in the wrong order. -/
theorem wal_inOrder_unsorted : ∃ s l, (walSystem (tableCodec []) ⟨100, 100⟩).Reachable s ∧
    s.log = some l ∧ l.cache.get intKey = [⟨2, .int64 2⟩, ⟨1, .int64 1⟩] ∧
    Ascending (l.cursor intKey) := by
  have hstep : step (tableCodec []) ⟨100, 100⟩ State.opened
      (.writePoints [intPoint 2 2, intPoint 1 1] [] []) = some _ := rfl
  have hreach := (opened_reachable (tableCodec []) ⟨100, 100⟩).step trivial hstep
  exact ⟨_, _, hreach, rfl, by decide, ((wal_inOrder hreach).2 _ rfl _).1⟩

end AndyEnv.Tsm1.Wal
