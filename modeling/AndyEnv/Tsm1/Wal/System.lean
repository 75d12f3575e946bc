import AndyEnv.Lib.Run
import AndyEnv.Tsm1.Wal.Log

/-!
# The runs of a log

The calls on a log take their locks several times, so their parts interleave:
`WritePoints` adds to the cache under one lock and logs each entry under
another, and `flush` swaps the cache, hands it to the index and removes
segment files one after the other. `State` has the log and the directory, the
calls and the flush that are under way, and the files `Open` has still to
read; `step` does the next part of one of them. A crash loses everything but
the directory, and may cut off the entry that is being written.

`history`, `recorded`, `removed` and `handed` say what the run has done so
far. No step reads them.
-/

namespace AndyEnv.Tsm1.Wal

open Option

/-! ## States -/

/-- What a call does under one of the locks. -/
inductive Action : Type where
  | log (e : Entry)
  | deleteKeys (keys : List Bytes)
  | deleteMeasurement (name : Bytes)
deriving DecidableEq, Repr

/-- A running call: where its values begin in the history, and what it has
still to do. -/
structure Call : Type where
  start : ℕ
  actions : List Action
deriving DecidableEq, Repr

/-- A running flush, and whether the index has taken the values. -/
structure Flush : Type where
  type : FlushType
  lastFileID : ℕ
  written : Bool
deriving DecidableEq, Repr

/-- A running `Open`: the directory it found, and the files still to be
read. -/
structure Opening : Type where
  found : Dir UInt8
  files : List ℕ
deriving DecidableEq

/-- An entry in a segment file, and where its values begin in the history. -/
structure Record : Type where
  segment : ℕ
  entry : Entry
  start : ℕ
deriving DecidableEq, Repr

structure State : Type where
  dir : Dir UInt8
  log : Option Log
  opening : Option Opening
  calls : List Call
  /-- `addToCache` or `readAndFlushWAL` has called for a memory flush. -/
  flushRequested : Bool
  flush : Option Flush
  /-- The values added to the cache, in order. -/
  history : List (Bytes × Value)
  /-- The entries of the segment files that are there. -/
  recorded : List Record
  /-- The entries of the segment files that were removed. -/
  removed : List Record
  /-- The values of the `IndexWriter.Write` calls that returned nil. -/
  handed : List ValuesByKey
deriving DecidableEq

/-- An empty directory. -/
def State.init : State := ⟨∅, none, none, [], false, none, [], [], [], []⟩

/-- The log is gone; the files stay. -/
def State.closed (s : State) : State :=
  { s with log := none, opening := none, calls := [], flushRequested := false, flush := none }

inductive Op : Type where
  /-- `Open` of a new `Log`. -/
  | openLog
  /-- `Open` reads its next file. -/
  | readFile
  | writePoints (points : List Point) (fields series : List Bytes)
  | deleteSeries (keys : List Bytes)
  | deleteMeasurement (name : Bytes) (keys : List Bytes)
  /-- The next part of a running call. -/
  | advance (i : ℕ)
  | beginFlush (type : FlushType)
  /-- `IndexWriter.Write` returns, with or without an error. -/
  | indexWrite (ok : Bool)
  | removeSegments
  | crash
  /-- A crash while a call writes an entry, of which so many bytes are on
  disk. -/
  | crashLogging (i : ℕ) (bytes : ℕ)
deriving DecidableEq, Repr

/-! ## Steps -/

/-- The entries `WritePoints` logs. -/
def writeEntries (points : List Point) (fields series : List Bytes) : List Entry :=
  .points points :: ((if fields = [] then [] else [.fields fields]) ++
    (if series = [] then [] else [.series series]))

section Steps

variable (C : EntryCodec) (cfg : Config)

def stepOpen (s : State) : Option State :=
  match s.log with
  | some _ => none
  | none => some { s with
      log := some Log.new
      opening := some ⟨s.dir, segmentFileNames s.dir⟩ }

/-- `readFileToCache` and the test after it. -/
def stepReadFile (s : State) : Option State :=
  match s.log, s.opening, s.flush, s.flushRequested with
  | some l, some ⟨found, f :: files⟩, none, false =>
    match s.dir.lookup f with
    | none => some s.closed
    | some content =>
      let r := readEntries C content
      if r.2.isError then some s.closed
      else
        let l := r.1.foldl Log.replayEntry l
        some { s with
          log := some l
          opening := some ⟨found, files⟩
          flushRequested := decide (l.memorySize > cfg.maxMemorySizeThreshold)
          history := s.history ++ r.1.flatMap Entry.values }
  | _, _, _, _ => none

def stepWritePoints (s : State) (points : List Point) (fields series : List Bytes) :
    Option State :=
  match s.log, s.opening with
  | some l, none =>
    let r := l.addToCache cfg points fields series true
    let s := { s with log := some r.log, flushRequested := s.flushRequested || r.startsFlush }
    if r.accepted then some { s with
      calls := s.calls ++ [⟨s.history.length, (writeEntries points fields series).map Action.log⟩]
      history := s.history ++ points.flatMap Point.values }
    else some s
  | _, _ => none

/-- A call of `DeleteSeries` or `DeleteMeasurement` starts. -/
def stepCall (s : State) (actions : List Action) : Option State :=
  match s.log, s.opening with
  | some _, none => some { s with calls := s.calls ++ [⟨s.history.length, actions⟩] }
  | _, _ => none

def runAction (s : State) (l : Log) (start : ℕ) : Action → State
  | .log e =>
    let (l, dir, segment) := l.writeToLog s.dir (entryBytes C e)
    { s with log := some l, dir := dir, recorded := s.recorded ++ [⟨segment, e, start⟩] }
  | .deleteKeys keys => { s with log := some (l.deleteKeysFromCache keys) }
  | .deleteMeasurement name => { s with log := some (l.deleteMeasurementFromCache name) }

def stepAdvance (s : State) (i : ℕ) : Option State :=
  match s.log, s.opening, s.calls[i]? with
  | some l, none, some ⟨start, a :: rest⟩ =>
    let s := runAction C s l start a
    some { s with
      calls := if rest = [] then s.calls.eraseIdx i else s.calls.set i ⟨start, rest⟩ }
  | _, _, _ => none

/-- When a flush of the type starts. -/
def canFlush (s : State) : FlushType → Bool
  | .memory => s.flushRequested
  | .startup => decide (s.opening.map Opening.files = some []) && !s.flushRequested
  | .idle => s.opening.isNone

/-- The first part of `flush`: rotate the segment file and swap the cache. -/
def stepBeginFlush (s : State) (type : FlushType) : Option State :=
  match s.log, s.flush, canFlush s type with
  | some l, none, true =>
    -- only flush if there isn't one already running
    if l.flushRunning && decide (type ≠ .memory) then some s
    else
      let (rotated, dir) := l.rotate s.dir type
      let swapped := rotated.swapCache
      -- exit if there's nothing to flush to the index
      if rotated.nothingToFlush && decide (type ≠ .startup) then some { s with
        log := some { swapped with flushRunning := false }, dir := dir, flushRequested := false }
      else some { s with
        log := some swapped, dir := dir, flushRequested := false
        flush := some ⟨type, l.currentSegmentID, false⟩ }
  | _, _, _ => none

/-- `IndexWriter.Write` returns. Without an error the flush cache is dropped;
an error ends the flush, and `Open` with it. -/
def stepIndexWrite (s : State) (ok : Bool) : Option State :=
  match s.log, s.flush with
  | some l, some ⟨type, lastFileID, false⟩ =>
    if ok then some { s with
      log := some { l with flushCache := none }
      flush := some ⟨type, lastFileID, true⟩
      handed := s.handed ++ [l.flushCache.getD ∅] }
    else if s.opening.isSome then some s.closed
    else some { s with log := some { l with flushRunning := false }, flush := none }
  | _, _ => none

/-- The last part of `flush`: remove all the old segment files. After the
startup flush `Open` returns. -/
def stepRemoveSegments (s : State) : Option State :=
  match s.log, s.flush with
  | some l, some ⟨type, lastFileID, true⟩ =>
    let names := segmentFileNames s.dir
    some { s with
      log := some { l with flushRunning := false }
      dir := s.dir.removeUpTo lastFileID names
      flush := none
      opening := if type = .startup then none else s.opening
      recorded := s.recorded.filter (fun r => lastFileID < r.segment)
      removed := s.removed ++ s.recorded.filter (fun r => r.segment ≤ lastFileID) }
  | _, _ => none

def stepCrashLogging (s : State) (i bytes : ℕ) : Option State :=
  match s.log, s.opening, s.calls[i]? with
  | some l, none, some ⟨_, .log e :: _⟩ =>
    some { s.closed with dir := (l.writeToLog s.dir ((entryBytes C e).take bytes)).2.1 }
  | _, _, _ => none

def step (s : State) : Op → Option State
  | .openLog => stepOpen s
  | .readFile => stepReadFile C cfg s
  | .writePoints points fields series => stepWritePoints cfg s points fields series
  | .deleteSeries keys => stepCall s [.deleteKeys keys, .log (.delete keys [])]
  | .deleteMeasurement name keys =>
    stepCall s [.log (.delete keys name), .deleteKeys keys, .deleteMeasurement name]
  | .advance i => stepAdvance C s i
  | .beginFlush type => stepBeginFlush s type
  | .indexWrite ok => stepIndexWrite s ok
  | .removeSegments => stepRemoveSegments s
  | .crash => s.log.map (fun _ => s.closed)
  | .crashLogging i bytes => stepCrashLogging C s i bytes

/-- The log, started on an empty directory. -/
def walSystem : System State Op where
  init s := s = State.init
  step s op s' := step C cfg s op = some s'

def State.opened : State :=
  { State.init with
    dir := Dir.create ∅ 1
    log := some { Log.new with currentSegmentID := 1, currentSegmentFile := some ⟨1, 0⟩ }
    handed := [∅] }

theorem opened_reachable : (walSystem C cfg).Reachable State.opened :=
  .step (l := .removeSegments) (.step (l := .indexWrite true)
    (.step (l := .beginFlush .startup) (.step (l := .openLog) (.init rfl) trivial rfl)
      trivial rfl) trivial rfl) trivial rfl

def openedSystem : System State Op where
  init s := s = State.opened
  step s op s' := step C cfg s op = some s'

end Steps

/-! ## What a step can do -/

section Cases

variable {C : EntryCodec} {cfg : Config} {s s' : State}

theorem stepOpen_cases (h : stepOpen s = some s') : s.log = none ∧ s' = { s with
      log := some Log.new
      opening := some ⟨s.dir, segmentFileNames s.dir⟩ } := by
  unfold stepOpen at h
  split at h
  · cases h
  · rename_i hlog
    exact ⟨hlog, (some.inj h).symm⟩

theorem stepReadFile_cases (h : stepReadFile C cfg s = some s') :
    ∃ l found f files, s.log = some l ∧ s.opening = some ⟨found, f :: files⟩ ∧
      s.flush = none ∧ s.flushRequested = false ∧
      (s' = s.closed ∨ ∃ content, s.dir.lookup f = some content ∧ s' = { s with
          log := some ((readEntries C content).1.foldl Log.replayEntry l)
          opening := some ⟨found, files⟩
          flushRequested := decide (((readEntries C content).1.foldl Log.replayEntry l).memorySize >
            cfg.maxMemorySizeThreshold)
          history := s.history ++ (readEntries C content).1.flatMap Entry.values }) := by
  unfold stepReadFile at h
  split at h
  · rename_i l found f files hlog hopening hflush hreq
    refine ⟨l, found, f, files, hlog, hopening, hflush, hreq, ?_⟩
    split at h
    · exact .inl (some.inj h).symm
    rename_i content hcontent
    dsimp only at h
    split at h
    · exact .inl (some.inj h).symm
    · exact .inr ⟨content, hcontent, (some.inj h).symm⟩
  · cases h

theorem stepWritePoints_cases {points : List Point} {fields series : List Bytes}
    (h : stepWritePoints cfg s points fields series = some s') :
    ∃ l, s.log = some l ∧ s.opening = none ∧ let r := l.addToCache cfg points fields series true
      (r.accepted = false ∧ s' = { s with
          log := some r.log, flushRequested := s.flushRequested || r.startsFlush }) ∨
        (r.accepted = true ∧ s' = { s with
          log := some r.log, flushRequested := s.flushRequested || r.startsFlush
          calls := s.calls ++
            [⟨s.history.length, (writeEntries points fields series).map Action.log⟩]
          history := s.history ++ points.flatMap Point.values }) := by
  unfold stepWritePoints at h
  split at h
  · rename_i l hlog hopening
    refine ⟨l, hlog, hopening, ?_⟩
    dsimp only at h ⊢
    split at h
    · rename_i hacc
      exact .inr ⟨hacc, (some.inj h).symm⟩
    · rename_i hacc
      exact .inl ⟨by simpa using hacc, (some.inj h).symm⟩
  · cases h

theorem stepCall_cases {actions : List Action} (h : stepCall s actions = some s') :
    ∃ l, s.log = some l ∧ s.opening = none ∧
      s' = { s with calls := s.calls ++ [⟨s.history.length, actions⟩] } := by
  unfold stepCall at h
  split at h
  · rename_i l hlog hopening
    exact ⟨l, hlog, hopening, (some.inj h).symm⟩
  · cases h

theorem stepAdvance_cases {i : ℕ} (h : stepAdvance C s i = some s') :
    ∃ l start a rest, s.log = some l ∧ s.opening = none ∧ s.calls[i]? = some ⟨start, a :: rest⟩ ∧
      s' = { runAction C s l start a with
        calls := if rest = [] then s.calls.eraseIdx i else s.calls.set i ⟨start, rest⟩ } := by
  unfold stepAdvance at h
  split at h
  · rename_i l start a rest hlog hopening hcall
    refine ⟨l, start, a, rest, hlog, hopening, hcall, ?_⟩
    rw [← some.inj h]
    cases a <;> rfl
  · cases h

theorem stepBeginFlush_cases {type : FlushType} (h : stepBeginFlush s type = some s') :
    ∃ l, s.log = some l ∧ s.flush = none ∧ canFlush s type = true ∧ (s' = s ∨
        (type ≠ .startup ∧ s' = { s with
          log := some { (l.rotate s.dir type).1.swapCache with flushRunning := false }
          dir := (l.rotate s.dir type).2, flushRequested := false }) ∨
        s' = { s with
          log := some (l.rotate s.dir type).1.swapCache
          dir := (l.rotate s.dir type).2, flushRequested := false
          flush := some ⟨type, l.currentSegmentID, false⟩ }) := by
  unfold stepBeginFlush at h
  split at h
  · rename_i l hlog hflush hcan
    refine ⟨l, hlog, hflush, hcan, ?_⟩
    split at h
    · exact .inl (some.inj h).symm
    dsimp only at h
    split at h
    · rename_i hnothing
      refine .inr (.inl ⟨?_, (some.inj h).symm⟩)
      exact of_decide_eq_true (Bool.and_eq_true_iff.mp hnothing).2
    · exact .inr (.inr (some.inj h).symm)
  · cases h

theorem stepIndexWrite_cases {ok : Bool} (h : stepIndexWrite s ok = some s') :
    ∃ l type lastFileID, s.log = some l ∧ s.flush = some ⟨type, lastFileID, false⟩ ∧
      ((ok = true ∧ s' = { s with
          log := some { l with flushCache := none }
          flush := some ⟨type, lastFileID, true⟩
          handed := s.handed ++ [l.flushCache.getD ∅] }) ∨
        (s.opening.isSome = true ∧ s' = s.closed) ∨
        (s.opening = none ∧ s' = { s with
          log := some { l with flushRunning := false }, flush := none })) := by
  unfold stepIndexWrite at h
  split at h
  · rename_i l type lastFileID hlog hflush
    refine ⟨l, type, lastFileID, hlog, hflush, ?_⟩
    split at h
    · rename_i hok
      exact .inl ⟨hok, (some.inj h).symm⟩
    split at h
    · rename_i hopening
      exact .inr (.inl ⟨hopening, (some.inj h).symm⟩)
    · rename_i hopening
      exact .inr (.inr ⟨by simpa using hopening, (some.inj h).symm⟩)
  · cases h

theorem stepRemoveSegments_cases (h : stepRemoveSegments s = some s') :
    ∃ l type lastFileID, s.log = some l ∧ s.flush = some ⟨type, lastFileID, true⟩ ∧ s' = { s with
        log := some { l with flushRunning := false }
        dir := s.dir.removeUpTo lastFileID (segmentFileNames s.dir)
        flush := none
        opening := if type = .startup then none else s.opening
        recorded := s.recorded.filter (fun r => lastFileID < r.segment)
        removed := s.removed ++ s.recorded.filter (fun r => r.segment ≤ lastFileID) } := by
  unfold stepRemoveSegments at h
  split at h
  · rename_i l type lastFileID hlog hflush
    exact ⟨l, type, lastFileID, hlog, hflush, (some.inj h).symm⟩
  · cases h

theorem stepCrashLogging_cases {i bytes : ℕ} (h : stepCrashLogging C s i bytes = some s') :
    ∃ l start e rest, s.log = some l ∧ s.opening = none ∧
      s.calls[i]? = some ⟨start, .log e :: rest⟩ ∧
      s' = { s.closed with dir := (l.writeToLog s.dir ((entryBytes C e).take bytes)).2.1 } := by
  unfold stepCrashLogging at h
  split at h
  · rename_i l start e rest hlog hopening hcall
    exact ⟨l, start, e, rest, hlog, hopening, hcall, (some.inj h).symm⟩
  · cases h

end Cases

/-! ## One flush at a time -/

/-- While a flush runs, `flushRunning` is set and no memory flush is
requested. -/
structure OneFlush (s : State) : Prop where
  running : s.flush.isSome = true → ∀ l ∈ s.log, l.flushRunning = true
  requested : s.flushRequested = true → s.flush = none
  closed : s.log = none → s.flush = none ∧ s.flushRequested = false

theorem oneFlush_closed (s : State) : OneFlush s.closed := ⟨nofun, nofun, fun _ => ⟨rfl, rfl⟩⟩

variable {s s' : State} {l : Log}

theorem OneFlush.of_flush_none (hflush : s.flush = none) (hlog : s.log = some l) : OneFlush s where
  running hsome := by
    rw [hflush] at hsome
    cases hsome
  requested _ := hflush
  closed hnone := by
    rw [hlog] at hnone
    cases hnone

/-- Another log with the same `flushRunning`, or with the flag set. -/
theorem OneFlush.of_log {l' : Log} (h : OneFlush s) (hl : s.log = some l)
    (hl' : s'.log = some l') (hrunning : l.flushRunning = true → l'.flushRunning = true)
    (hflush : s'.flush.isSome = s.flush.isSome) (hreq : s'.flushRequested = s.flushRequested) :
    OneFlush s' where
  running hsome x hx := by
    obtain rfl := some.inj (hl'.symm.trans hx)
    exact hrunning (h.running (hflush ▸ hsome) l hl)
  requested hr := by
    have hnone := h.requested (hreq ▸ hr)
    rw [hnone] at hflush
    exact not_isSome_iff_eq_none.mp (by simp [hflush])
  closed hnone := by
    rw [hl'] at hnone
    cases hnone

theorem Log.flushRunning_writeToLog (l : Log) (dir : Dir UInt8) (data : Bytes) :
    (l.writeToLog dir data).1.flushRunning = l.flushRunning := by
  rw [Log.writeToLog_eq]
  obtain ⟨-, ⟨h, -, heq⟩ | heq⟩ := Log.segmentFile_spec l dir
  · rw [heq]
  · rw [heq]
    rfl

theorem Log.flushRunning_addToCache (cfg : Config) (l : Log) (points : List Point)
    (fields series : List Bytes) :
    (l.flushRunning = true → (l.addToCache cfg points fields series true).log.flushRunning = true) ∧
      ((l.addToCache cfg points fields series true).startsFlush = true →
        l.flushRunning = false) := by
  have hkeep : ∀ (kvs : List (Bytes × Value)) (l : Log),
      (kvs.foldl Log.addValue l).flushRunning = l.flushRunning := by
    intro kvs
    induction kvs with
    | nil => exact fun _ => rfl
    | cons kv kvs ih => exact fun l => ih (l.addValue kv)
  unfold Log.addToCache
  split
  · dsimp only
    split
    · exact ⟨fun _ => rfl, fun h => by simpa using h⟩
    · exact ⟨fun _ => hkeep _ _, fun h => by simpa using h⟩
  · exact ⟨fun h => (hkeep _ _).trans h, nofun⟩

theorem OneFlush.step {C : EntryCodec} {cfg : Config} {op : Op} (h : OneFlush s)
    (hstep : step C cfg s op = some s') : OneFlush s' := by
  cases op with
  | openLog =>
    obtain ⟨hlog, rfl⟩ := stepOpen_cases hstep
    exact .of_flush_none (h.closed hlog).1 rfl
  | readFile =>
    obtain ⟨l, found, f, files, -, -, hflush, -, rfl | ⟨content, -, rfl⟩⟩ :=
      stepReadFile_cases hstep
    · exact oneFlush_closed s
    · exact .of_flush_none hflush rfl
  | writePoints points fields series =>
    obtain ⟨l, hl, -, hcases⟩ := stepWritePoints_cases hstep
    obtain ⟨hkeep, hstart⟩ := l.flushRunning_addToCache cfg points fields series
    have hrunning : s.flush.isSome = true →
        (l.addToCache cfg points fields series true).log.flushRunning = true :=
      fun hsome => hkeep (h.running hsome l hl)
    have hrequested : (s.flushRequested ||
        (l.addToCache cfg points fields series true).startsFlush) = true → s.flush = none := by
      intro hor
      rcases Bool.or_eq_true_iff.mp hor with hreq | hnew
      · exact h.requested hreq
      · by_contra hne
        have hrun := h.running (isSome_iff_ne_none.mpr hne) l hl
        rw [hstart hnew] at hrun
        cases hrun
    rcases hcases with ⟨-, rfl⟩ | ⟨-, rfl⟩
    all_goals exact ⟨fun hsome _ hl' => some.inj hl' ▸ hrunning hsome, hrequested, nofun⟩
  | deleteSeries _ | deleteMeasurement _ _ =>
    obtain ⟨l, hl, -, rfl⟩ := stepCall_cases hstep
    exact h.of_log hl hl id rfl rfl
  | advance i =>
    obtain ⟨l, start, a, rest, hl, -, -, rfl⟩ := stepAdvance_cases hstep
    cases a with
    | log e => exact h.of_log hl rfl (fun hr => (l.flushRunning_writeToLog _ _).trans hr) rfl rfl
    | deleteKeys _ | deleteMeasurement _ => exact h.of_log hl rfl id rfl rfl
  | beginFlush type =>
    obtain ⟨l, hl, hflush, -, rfl | ⟨-, rfl⟩ | rfl⟩ := stepBeginFlush_cases hstep
    · exact h
    · exact .of_flush_none hflush rfl
    · exact ⟨fun _ x hx => some.inj hx ▸ rfl, nofun, nofun⟩
  | indexWrite ok =>
    obtain ⟨l, type, lastFileID, hl, hflush, ⟨-, rfl⟩ | ⟨-, rfl⟩ | ⟨-, rfl⟩⟩ :=
      stepIndexWrite_cases hstep
    · exact h.of_log hl rfl id (by rw [hflush]; rfl) rfl
    · exact oneFlush_closed s
    · exact .of_flush_none rfl rfl
  | removeSegments =>
    obtain ⟨l, type, lastFileID, -, -, rfl⟩ := stepRemoveSegments_cases hstep
    exact .of_flush_none rfl rfl
  | crash =>
    obtain ⟨l, -, rfl⟩ := map_eq_some_iff.mp hstep
    exact oneFlush_closed s
  | crashLogging i bytes =>
    obtain ⟨l, start, e, rest, -, -, -, rfl⟩ := stepCrashLogging_cases hstep
    exact ⟨nofun, nofun, fun _ => ⟨rfl, rfl⟩⟩

/-! ## Runs -/

section Runs

variable {C : EntryCodec} {cfg : Config}

def run (C : EntryCodec) (cfg : Config) (s : State) (ops : List Op) : Option State :=
  ops.foldlM (step C cfg) s

theorem reaches_run {init : State → Prop} {ok : Op → Prop} : ∀ {ops : List Op} {s s' : State},
      System.Reaches ⟨init, fun s op s' => step C cfg s op = some s'⟩ (fun _ op => ok op) s →
      (∀ op ∈ ops, ok op) → run C cfg s ops = some s' →
      System.Reaches ⟨init, fun s op s' => step C cfg s op = some s'⟩ (fun _ op => ok op) s'
  | [], s, s', hs, _, h => by
    cases h
    exact hs
  | op :: ops, s, s', hs, hops, h => by
    obtain ⟨s₁, h₁, h⟩ := bind_eq_some_iff.mp h
    exact reaches_run (.step hs (hops op List.mem_cons_self) h₁)
      (fun o ho => hops o (List.mem_cons_of_mem _ ho)) h

end Runs

/-! ## Example data -/

/-- An entry is written as its number in a list. -/
def tableCodec (es : List Entry) : EntryCodec where
  payload e := [UInt8.ofNat (es.idxOf e)]
  decode _ b := (es[(b.headD 0).toNat]?).elim .undecodable .entry

def intPoint (time v : Int64) : Point := ⟨[109], [([102], .int64 v)], time⟩

def intKey : Bytes := seriesFieldKey [109] [102]

end AndyEnv.Tsm1.Wal
