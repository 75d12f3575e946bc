import AndyEnv.Tsm1.Wal.SegmentFiles

/-!
# Segment files across restarts

The number of the current segment is in memory only, so a new `Log` counts
from zero again. The startup flush then removes the files up to the number of
flushes `Open` has made while it was reading, which as a rule is none of them;
and a new segment is opened without truncation, so that it is written over the
entries of an old one.

All is well when `Open` removes every file that has any bytes. The number of
its memory flushes can be computed from the directory it finds
(`openFlushes`).
-/

namespace AndyEnv.Tsm1.Wal

open List Option

/-! ## The property -/

section Property

variable (C : EntryCodec) (cfg : Config)

/-- Every segment file holds the entries logged to it, in order, and at most
one more that is cut off. -/
def WholeEntries (s : State) : Prop :=
  ∀ id content, s.dir.lookup id = some content →
    ∃ e t, content = recordedBytes C s.recorded id ++ t ∧ t <+: entryBytes C e

/-- What a step must not do to the segment files. -/
structure KeepsSegments (s s' : State) : Prop where
  /-- No bytes of a file are written over. -/
  appends : ∀ id content content', s.dir.lookup id = some content →
    s'.dir.lookup id = some content' → content <+: content'
  /-- When `Open` returns, no file that it found has an entry left. -/
  clears : ∀ o, s.opening = some o → s'.opening = none → s'.log.isSome = true →
    ∀ id found content, o.found.lookup id = some found → s'.dir.lookup id = some content →
      (readEntries C content).1 = []

/-- The memory the values of the entries take. -/
def entriesSize (es : List Entry) : ℕ := ((es.flatMap Entry.values).map (fun kv => kv.2.size)).sum

/-- The memory flushes of `readAndFlushWAL` over the contents of its files,
from a cache of the given size on. -/
def memoryFlushes : ℕ → List Bytes → ℕ
  | _, [] => 0
  | size, content :: contents =>
    if size + entriesSize (readEntries C content).1 > cfg.maxMemorySizeThreshold then
      1 + memoryFlushes 0 contents
    else memoryFlushes (size + entriesSize (readEntries C content).1) contents

def openFlushes (dir : Dir UInt8) : ℕ :=
  memoryFlushes C cfg 0 ((segmentFileNames dir).map (fun id => (dir.lookup id).getD []))

/-- The condition: at every `Open`, the files that have any bytes have numbers
up to the number of its memory flushes. -/
def ClearsSegments (s : State) (op : Op) : Prop :=
  op = .openLog → ∀ id content, s.dir.lookup id = some content → content ≠ [] →
    id ≤ openFlushes C cfg s.dir

end Property

/-! ## The invariant -/

section Invariant

variable (C : EntryCodec) (cfg : Config)

/-- While `Open` runs, the files are those it found, some of them removed, and
empty new ones. -/
structure OpeningInv (s : State) (l : Log) (o : Opening) : Prop where
  unchanged : ∀ id content, s.dir.lookup id = some content →
    o.found.lookup id = some content ∨ o.found.lookup id = none ∧ content = []
  gone : ∀ id content, o.found.lookup id = some content → s.dir.lookup id = none →
    id ≤ l.currentSegmentID
  le : ∀ id content, o.found.lookup id = some content → content ≠ [] →
    id ≤ openFlushes C cfg o.found
  files : ∀ f ∈ o.files, (o.found.lookup f).isSome = true
  /-- Before the startup flush: the memory flushes made and still to come. -/
  count : (∀ fl ∈ s.flush, fl.type ≠ .startup) →
    l.currentSegmentID + (if s.flushRequested then 1 else 0) +
      memoryFlushes C cfg (if s.flushRequested then 0 else l.memorySize)
        (o.files.map (fun id => (o.found.lookup id).getD [])) = openFlushes C cfg o.found
  flush : ∀ fl ∈ s.flush, fl.lastFileID < l.currentSegmentID
  /-- The startup flush has opened the segment after the last memory flush. -/
  startup : ∀ fl ∈ s.flush, fl.type = .startup → fl.lastFileID = openFlushes C cfg o.found ∧
    l.currentSegmentFile = some ⟨l.currentSegmentID, 0⟩ ∧
    (s.dir.lookup l.currentSegmentID).isSome = true

/-- **The invariant.** -/
structure Restartable (s : State) : Prop where
  oneFlush : OneFlush s
  whole : WholeEntries C s
  present : ∀ r ∈ s.recorded, (s.dir.lookup r.segment).isSome = true
  opened : ∀ l, s.log = some l → s.opening = none → OpenedInv C s l
  opening : ∀ l o, s.log = some l → s.opening = some o → OpeningInv C cfg s l o

abbrev Restarts (s s' : State) : Prop := Restartable C cfg s' ∧ KeepsSegments C s s'

end Invariant

/-! ## Writing -/

section Steps

variable {C : EntryCodec} {cfg : Config} {s s' : State} {l l' : Log} {o : Opening}

theorem OpenedInv.wholeEntries (h : OpenedInv C s l) : WholeEntries C s := by
  intro id content hc
  refine ⟨.points [], [], ?_, nil_prefix⟩
  rw [append_nil]
  exact h.exact_eq id content hc

/-! ## The steps -/

theorem KeepsSegments.of_dir_eq (hdir : s'.dir = s.dir)
    (hreturn : s.opening = s'.opening ∨ s'.opening.isSome = true ∨ s'.log = none) :
    KeepsSegments C s s' where
  appends id content content' hc hc' := by
    rw [hdir, hc] at hc'
    cases hc'
    exact prefix_refl _
  clears o ho hnone hlog := by
    rcases hreturn with h | h | h
    · rw [← h, ho] at hnone
      cases hnone
    · rw [hnone] at h
      cases h
    · rw [h] at hlog
      cases hlog

theorem Log.memorySize_foldl_addValue : ∀ (kvs : List (Bytes × Value)) (l : Log),
    (kvs.foldl Log.addValue l).memorySize = l.memorySize + (kvs.map (fun kv => kv.2.size)).sum
  | [], l => (add_zero _).symm
  | kv :: kvs, l => by
    rw [foldl_cons, memorySize_foldl_addValue kvs, map_cons, sum_cons, ← add_assoc]
    rfl

/-- A replayed entry adds the size of its values and leaves the files alone. -/
theorem Log.replayEntry_spec (l : Log) (e : Entry) :
    (l.replayEntry e).memorySize = l.memorySize + entriesSize [e] ∧
      (l.replayEntry e).currentSegmentID = l.currentSegmentID := by
  cases e with
  | points ps =>
    refine ⟨?_, (sameFiles_addAll l ps [] []).currentSegmentID⟩
    have := memorySize_foldl_addValue (ps.flatMap Point.values) l
    simpa [entriesSize, Entry.values, Log.replayEntry, Log.addAll] using this
  | fields names => exact ⟨rfl, rfl⟩
  | series keys => exact ⟨rfl, rfl⟩
  | delete keys name =>
    unfold Log.replayEntry
    dsimp only
    split
    all_goals exact ⟨rfl, rfl⟩

theorem Log.foldl_replayEntry_spec : ∀ (es : List Entry) (l : Log),
    (es.foldl Log.replayEntry l).memorySize = l.memorySize + entriesSize es ∧
      (es.foldl Log.replayEntry l).currentSegmentID = l.currentSegmentID
  | [], l => ⟨rfl, rfl⟩
  | e :: es, l => by
    obtain ⟨h1, h2⟩ := foldl_replayEntry_spec es (l.replayEntry e)
    obtain ⟨h3, h4⟩ := l.replayEntry_spec e
    refine ⟨?_, h2.trans h4⟩
    rw [foldl_cons, h1, h3]
    simp [entriesSize, add_assoc]

/-- **A write appends.** -/
theorem KeepsSegments.writeToLog {data : Bytes} (h : OpenedInv C s l)
    (hdir : s'.dir = (l.writeToLog s.dir data).2.1) (hopening : s.opening = none) :
    KeepsSegments C s s' where
  appends id content content' hc hc' := by
    rw [hdir, h.lookup_writeToLog] at hc'
    split at hc'
    · rename_i heq
      rw [← heq, hc] at hc'
      cases hc'
      exact prefix_append _ _
    · rw [hc] at hc'
      cases hc'
      exact prefix_refl _
  clears o ho := by
    rw [hopening] at ho
    cases ho

variable {type : FlushType}

theorem KeepsSegments.rotate (hdir : s'.dir = (l.rotate s.dir type).2)
    (hopening : s'.opening = s.opening) : KeepsSegments C s s' where
  appends id content content' hc hc' := by
    rw [hdir] at hc'
    rcases l.lookup_rotate s.dir type id with h | ⟨h, -, -⟩
    · rw [h, hc] at hc'
      cases hc'
      exact prefix_refl _
    · rw [hc] at h
      cases h
  clears o ho hnone _ := by
    rw [hopening, ho] at hnone
    cases hnone

/-- **A flush of `Open` begins.** Up to the startup flush the count goes on;
the startup flush begins when no file is left. -/
theorem OpeningInv.rotate (h : OpeningInv C cfg s l o)
    (hopening : s.opening = some o) (hflush : s.flush = none) (hcan : canFlush s type = true)
    (hrot : Rotated type s l s' l') : OpeningInv C cfg s' l' o := by
  obtain ⟨hdir, -, hid, hfile, hsize, hreq, hflush', hstartup⟩ := hrot
  have hidle : type ≠ .idle := by
    rintro rfl
    simp [canFlush, hopening] at hcan
  have hnew : (l.rotate s.dir type).1.currentSegmentFile = some ⟨l.currentSegmentID + 1, 0⟩ ∧
      (l.rotate s.dir type).1.currentSegmentID = l.currentSegmentID + 1 := by
    cases type with
    | memory | startup => exact ⟨rfl, rfl⟩
    | idle => exact absurd rfl hidle
  have hcount := h.count (forall_flush_of_none hflush)
  constructor
  · intro id content hc
    rw [hdir] at hc
    rcases l.lookup_rotate s.dir type id with heq | ⟨hnone, hnil, rfl⟩
    · exact h.unchanged id content (heq ▸ hc)
    refine .inr ⟨?_, (some.inj (hnil.symm.trans hc)).symm⟩
    cases hlook : o.found.lookup (l.currentSegmentID + 1) with
    | none => rfl
    | some c =>
      have := h.gone _ c hlook hnone
      omega
  · intro id content hc hnone
    rw [hdir] at hnone
    rcases l.lookup_rotate s.dir type id with heq | ⟨-, hnil, -⟩
    · have := h.gone id content hc (heq ▸ hnone)
      rw [hid, hnew.2]
      omega
    · rw [hnil] at hnone
      cases hnone
  · exact h.le
  · exact h.files
  · intro hall
    cases type with
    | memory =>
      simp only [show s.flushRequested = true from hcan, if_true] at hcount
      simpa [hid, hnew.2, hreq, hsize] using hcount
    | startup =>
      obtain ⟨fl, hfl⟩ := isSome_iff_exists.mp (hstartup rfl)
      exact absurd (hflush' fl hfl).2 (hall fl hfl)
    | idle => exact absurd rfl hidle
  · intro fl hfl
    rw [hid, hnew.2, (hflush' fl hfl).1]
    exact Nat.lt_succ_self _
  · intro fl hfl htype
    obtain ⟨hlast, htype'⟩ := hflush' fl hfl
    obtain rfl : FlushType.startup = type := htype.symm.trans htype'
    simp only [canFlush, hopening, map_some, some.injEq, Bool.and_eq_true,
      decide_eq_true_eq, Bool.not_eq_true'] at hcan
    simp only [hcan.2, hcan.1, Bool.false_eq_true, if_false, map_nil, memoryFlushes,
      add_zero] at hcount
    refine ⟨hlast.trans hcount, by rw [hfile, hid, hnew.1, hnew.2], ?_⟩
    rw [hid, hnew.2, hdir]
    change ((s.dir.create (l.currentSegmentID + 1)).lookup _).isSome = true
    rw [Dir.lookup_create, if_pos rfl]
    rfl

variable {fl : Flush} {id : ℕ}

/-- **After the startup flush** no file has any bytes left. -/
theorem OpeningInv.eq_nil (h : OpeningInv C cfg s l o)
    (hfl : s.flush = some fl) (htype : fl.type = .startup) {content : Bytes}
    (hlt : fl.lastFileID < id) (hc : s.dir.lookup id = some content) : content = [] := by
  by_contra hne
  rcases h.unchanged id content hc with hfound | ⟨-, hnil⟩
  · have hle := h.le id content hfound hne
    rw [← (h.startup fl hfl htype).1] at hle
    omega
  · exact hne hnil

theorem WholeEntries.recordedBytes_eq_nil (h : WholeEntries C s)
    (hc : s.dir.lookup id = some []) : recordedBytes C s.recorded id = [] := by
  obtain ⟨_, _, heq, -⟩ := h id [] hc
  exact (append_eq_nil_iff.mp heq.symm).1

/-- **`Open` returns.** -/
theorem OpeningInv.removeSegments
    (h : OpeningInv C cfg s l o) (hwhole : WholeEntries C s) (hfl : s.flush = some fl)
    (htype : fl.type = .startup) (hid : l'.currentSegmentID = l.currentSegmentID)
    (hfile : l'.currentSegmentFile = l.currentSegmentFile)
    (hdir : s'.dir = s.dir.removeUpTo fl.lastFileID (segmentFileNames s.dir))
    (hrec : s'.recorded = s.recorded.filter (fun r => fl.lastFileID < r.segment))
    (hflush : s'.flush = none) : OpenedInv C s' l' := by
  have hnil : ∀ id content, s'.dir.lookup id = some content →
      fl.lastFileID < id ∧ s.dir.lookup id = some [] ∧ content = [] := by
    intro id content hc
    obtain ⟨hlt, hold⟩ := lookup_of_removeSegments (hdir ▸ hc)
    have heq := h.eq_nil hfl htype hlt hold
    exact ⟨hlt, heq ▸ hold, heq⟩
  obtain ⟨-, hsome, hlook⟩ := h.startup fl hfl htype
  rw [← hfile] at hsome
  constructor
  · intro f hf
    obtain rfl := some.inj (hsome.symm.trans hf)
    exact hid.symm
  · intro id content hc
    obtain ⟨hlt, hold, rfl⟩ := hnil id content hc
    rw [hrec, recordedBytes_filter hlt, hwhole.recordedBytes_eq_nil hold]
  · intro id content hc hne
    exact absurd (hnil id content hc).2.2 hne
  · intro f hf
    obtain rfl := some.inj (hsome.symm.trans hf)
    obtain ⟨content, hc⟩ := isSome_iff_exists.mp hlook
    have hc' : s'.dir.lookup l.currentSegmentID = some content := by
      rw [hdir, lookup_removeSegments, if_neg (not_le.mpr (h.flush fl hfl))]
      exact hc
    refine ⟨content, hc', ?_⟩
    rw [(hnil _ content hc').2.2]
    rfl
  · exact forall_flush_of_none hflush

section

variable (h : Restartable C cfg s)
include h

theorem Restartable.closed : Restartable C cfg s.closed where
  oneFlush := oneFlush_closed s
  whole := h.whole
  present := h.present
  opened := nofun
  opening := nofun

theorem Restartable.openLog (hok : ClearsSegments C cfg s .openLog)
    (hstep : stepOpen s = some s') : Restarts C cfg s s' := by
  obtain ⟨hlog, rfl⟩ := stepOpen_cases hstep
  obtain ⟨hflush, hreq⟩ := h.oneFlush.closed hlog
  refine ⟨⟨.of_flush_none hflush rfl, h.whole, h.present, nofun, ?_⟩,
    .of_dir_eq rfl (.inr (.inl rfl))⟩
  intro l o hl ho
  cases hl
  cases ho
  exact
    { unchanged := fun id content hc => .inl hc
      gone := fun id content hc hnone => by
        rw [hc] at hnone
        cases hnone
      le := hok rfl
      files := fun f hf => mem_segmentFileNames.mp hf
      count := fun _ => by
        simp only [hreq, Bool.false_eq_true, if_false, add_zero]
        exact zero_add _
      flush := forall_flush_of_none hflush
      startup := forall_flush_of_none hflush }

theorem Restartable.readFile (hstep : stepReadFile C cfg s = some s') : Restarts C cfg s s' := by
  obtain ⟨l, found, f, files, hlog, hopening, hflush, hreq, rfl | ⟨content, hcontent, rfl⟩⟩ :=
    stepReadFile_cases hstep
  · exact ⟨h.closed, .of_dir_eq rfl (.inr (.inr rfl))⟩
  · have ho := h.opening l _ hlog hopening
    refine ⟨⟨.of_flush_none hflush rfl, h.whole, h.present, nofun, ?_⟩,
      .of_dir_eq rfl (.inr (.inl rfl))⟩
    rintro l' o' ⟨⟩ ⟨⟩
    obtain ⟨hsize, hid⟩ := Log.foldl_replayEntry_spec (readEntries C content).1 l
    have hfound : (found.lookup f).getD [] = content := by
      rcases ho.unchanged f content hcontent with hf | ⟨hf, -⟩
      · rw [hf, getD_some]
      · have := ho.files f mem_cons_self
        rw [hf] at this
        cases this
    have hcount := ho.count (forall_flush_of_none hflush)
    simp only [hreq, Bool.false_eq_true, if_false, map_cons, hfound, memoryFlushes] at hcount
    exact
      { unchanged := ho.unchanged
        gone := fun id c hc hnone => hid ▸ ho.gone id c hc hnone
        le := ho.le
        files := fun g hg => ho.files g (mem_cons_of_mem _ hg)
        count := fun _ => by
          dsimp only
          rw [hid, hsize]
          by_cases hbig :
              l.memorySize + entriesSize (readEntries C content).1 > cfg.maxMemorySizeThreshold
          · rw [if_pos hbig] at hcount
            simp only [hbig, decide_true, if_true]
            omega
          · rw [if_neg hbig] at hcount
            simp only [hbig, decide_false, Bool.false_eq_true, if_false]
            omega
        flush := forall_flush_of_none hflush
        startup := forall_flush_of_none hflush }

/-- A step that leaves the files, the flush and `Open` as they are. -/
theorem Restartable.of_sameFiles (hlog : s.log = some l)
    (hopening : s.opening = none) (hstep : OneFlush s') (hlog' : s'.log = some l')
    (hid : l'.currentSegmentID = l.currentSegmentID)
    (hfile : l'.currentSegmentFile = l.currentSegmentFile) (hdir : s'.dir = s.dir)
    (hrec : s'.recorded = s.recorded) (hflush : s'.flush = s.flush)
    (hopening' : s'.opening = none) : Restarts C cfg s s' := by
  refine ⟨⟨hstep, ?_, ?_, ?_, ?_⟩, .of_dir_eq hdir (.inl (hopening.trans hopening'.symm))⟩
  · unfold WholeEntries
    rw [hdir, hrec]
    exact h.whole
  · rw [hdir, hrec]
    exact h.present
  · intro x hx _
    obtain rfl := some.inj (hlog'.symm.trans hx)
    exact (h.opened l hlog hopening).of_sameFiles hid hfile hdir hrec
      (fun fl hfl => ⟨fl, hflush ▸ hfl, rfl⟩)
  · intro x o _ ho
    rw [hopening'] at ho
    cases ho

theorem Restartable.writePoints {points : List Point}
    {fields series : List Bytes} (hone : OneFlush s')
    (hstep : stepWritePoints cfg s points fields series = some s') : Restarts C cfg s s' := by
  obtain ⟨l, hl, hopening, hcases⟩ := stepWritePoints_cases hstep
  obtain ⟨hfiles, -, -⟩ := Log.addToCache_spec cfg l points fields series true
  dsimp only at hcases
  rcases hcases with ⟨-, rfl⟩ | ⟨-, rfl⟩
  all_goals
    exact h.of_sameFiles hl hopening hone rfl hfiles.currentSegmentID hfiles.currentSegmentFile
      rfl rfl rfl hopening

theorem Restartable.advance {i : ℕ} (hone : OneFlush s')
    (hstep : stepAdvance C s i = some s') : Restarts C cfg s s' := by
  obtain ⟨l, start, a, rest, hl, hopening, -, rfl⟩ := stepAdvance_cases hstep
  have ho := h.opened l hl hopening
  cases a with
  | deleteKeys _ | deleteMeasurement _ =>
    exact h.of_sameFiles hl hopening hone rfl rfl rfl rfl rfl rfl hopening
  | log e =>
    have hinv := ho.logEntry h.present e start
      (if rest = [] then s.calls.eraseIdx i else s.calls.set i ⟨start, rest⟩)
    refine ⟨⟨hone, hinv.wholeEntries, ?_, ?_, ?_⟩, .writeToLog ho rfl hopening⟩
    · intro r hr
      exact ho.present_logEntry h.present hr
    · rintro l' ⟨⟩ _
      exact hinv
    · intro l' o _ ho'
      rw [show (runAction C s l start (.log e)).opening = none from hopening] at ho'
      cases ho'

theorem Restartable.rotate (hone : OneFlush s')
    (hlog : s.log = some l) (hlog' : s'.log = some l') (hopening : s'.opening = s.opening)
    (hflush : s.flush = none) (hcan : canFlush s type = true) (hrot : Rotated type s l s' l') :
    Restartable C cfg s' := by
  refine ⟨hone, ?_, ?_, ?_, ?_⟩
  · intro id content hc
    rw [hrot.dir] at hc
    rw [hrot.recorded]
    rcases l.lookup_rotate s.dir type id with heq | ⟨hnone, hnil, -⟩
    · exact h.whole id content (heq ▸ hc)
    refine ⟨.points [], [], ?_, nil_prefix⟩
    rw [recordedBytes_eq_nil, ← some.inj (hnil.symm.trans hc)]
    · rfl
    · intro r hr heq
      have := h.present r hr
      rw [heq, hnone] at this
      cases this
  · intro r hr
    rw [hrot.recorded] at hr
    rw [hrot.dir]
    rcases l.lookup_rotate s.dir type r.segment with heq | ⟨-, hnil, -⟩
    · rw [heq]
      exact h.present r hr
    · rw [hnil]
      rfl
  · intro x hx hnone
    obtain rfl := some.inj (hlog'.symm.trans hx)
    exact (h.opened l hlog (hopening ▸ hnone)).rotate h.present hrot
  · intro x o hx ho
    obtain rfl := some.inj (hlog'.symm.trans hx)
    rw [hopening] at ho
    exact (h.opening l o hlog ho).rotate ho hflush hcan hrot

theorem Restartable.beginFlush (hone : OneFlush s') (hstep : stepBeginFlush s type = some s') :
    Restarts C cfg s s' := by
  obtain ⟨l, hl, hflush, hcan, rfl | ⟨htype, rfl⟩ | rfl⟩ := stepBeginFlush_cases hstep
  · exact ⟨h, .of_dir_eq rfl (.inl rfl)⟩
  · exact ⟨h.rotate hone hl rfl rfl hflush hcan ⟨rfl, rfl, rfl, rfl, rfl, rfl,
      forall_flush_of_none hflush, fun heq => absurd heq htype⟩, .rotate rfl rfl⟩
  · refine ⟨h.rotate hone hl rfl rfl hflush hcan ⟨rfl, rfl, rfl, rfl, rfl, rfl, ?_, fun _ => rfl⟩,
      .rotate rfl rfl⟩
    rintro fl ⟨⟩
    exact ⟨rfl, rfl⟩

theorem Restartable.indexWrite {ok : Bool} (hone : OneFlush s')
    (hstep : stepIndexWrite s ok = some s') : Restarts C cfg s s' := by
  obtain ⟨l, type, lastFileID, hl, hflush, ⟨-, rfl⟩ | ⟨-, rfl⟩ | ⟨hopening, rfl⟩⟩ :=
    stepIndexWrite_cases hstep
  · refine ⟨⟨hone, h.whole, h.present, ?_, ?_⟩, .of_dir_eq rfl (.inl rfl)⟩
    · rintro l' ⟨⟩ hnone
      refine (h.opened l hl hnone).of_sameFiles rfl rfl rfl rfl ?_
      rintro fl ⟨⟩
      exact ⟨_, hflush, rfl⟩
    · rintro l' o ⟨⟩ ho
      have hinv := h.opening l o hl ho
      exact
        { unchanged := hinv.unchanged
          gone := hinv.gone
          le := hinv.le
          files := hinv.files
          count := fun hall => hinv.count (fun fl hfl => by
            rw [hflush] at hfl
            cases hfl
            exact hall ⟨type, lastFileID, true⟩ rfl)
          flush := by
            rintro fl ⟨⟩
            exact hinv.flush ⟨type, lastFileID, false⟩ hflush
          startup := by
            rintro fl ⟨⟩ htype
            exact hinv.startup ⟨type, lastFileID, false⟩ hflush htype }
  · exact ⟨h.closed, .of_dir_eq rfl (.inr (.inr rfl))⟩
  · refine ⟨⟨hone, h.whole, h.present, ?_, ?_⟩, .of_dir_eq rfl (.inl rfl)⟩
    · rintro l' ⟨⟩ _
      exact (h.opened l hl hopening).of_sameFiles rfl rfl rfl rfl nofun
    · intro l' o _ ho
      rw [show s.opening = some o from ho] at hopening
      cases hopening

theorem Restartable.removeSegments (hone : OneFlush s') (hstep : stepRemoveSegments s = some s') :
    Restarts C cfg s s' := by
  obtain ⟨l, type, lastFileID, hl, hflush, rfl⟩ := stepRemoveSegments_cases hstep
  refine ⟨⟨hone, ?_, ?_, ?_, ?_⟩, ⟨?_, ?_⟩⟩
  · intro id content hc
    obtain ⟨hlt, hold⟩ := lookup_of_removeSegments hc
    dsimp only
    rw [recordedBytes_filter hlt]
    exact h.whole id content hold
  · intro r hr
    obtain ⟨hr, hlt⟩ := mem_filter.mp hr
    dsimp only
    rw [lookup_removeSegments, if_neg (not_le.mpr (of_decide_eq_true hlt))]
    exact h.present r hr
  · rintro l' ⟨⟩ hnone
    cases hopening : s.opening with
    | none => exact (h.opened l hl hopening).removeSegments hflush rfl rfl rfl rfl rfl
    | some o =>
      have htype : type = .startup := by
        by_contra hne
        simp [hne, hopening] at hnone
      exact (h.opening l o hl hopening).removeSegments h.whole hflush htype rfl rfl rfl rfl rfl
  · rintro l' o ⟨⟩ ho'
    dsimp only at ho'
    split at ho'
    · cases ho'
    rename_i htype
    have ho := h.opening l o hl ho'
    exact
      { unchanged := fun id content hc =>
          ho.unchanged id content (lookup_of_removeSegments hc).2
        gone := fun id content hc hnone => by
          dsimp only at hnone
          rw [lookup_removeSegments] at hnone
          split at hnone
          · rename_i hle
            exact hle.trans (ho.flush _ hflush).le
          · exact ho.gone id content hc hnone
        le := ho.le
        files := ho.files
        count := fun _ => ho.count (fun fl hfl => by
          rw [hflush] at hfl
          cases hfl
          exact htype)
        flush := nofun
        startup := nofun }
  · intro id content content' hc hc'
    rw [(lookup_of_removeSegments hc').2] at hc
    cases hc
    exact prefix_refl _
  · intro o ho hnone _ id found content _ hc
    have htype : type = .startup := by
      by_contra hne
      simp [hne, ho] at hnone
    obtain ⟨hlt, hold⟩ := lookup_of_removeSegments hc
    rw [(h.opening l o hl ho).eq_nil hflush htype hlt hold]
    rfl

/-- A crash while an entry is written leaves the beginning of the entry. -/
theorem Restartable.crashLogging {i bytes : ℕ} (hstep : stepCrashLogging C s i bytes = some s') :
    Restarts C cfg s s' := by
  obtain ⟨l, start, e, rest, hl, hopening, -, rfl⟩ := stepCrashLogging_cases hstep
  have ho := h.opened l hl hopening
  have hlookup := ho.lookup_writeToLog ((entryBytes C e).take bytes)
  refine ⟨⟨⟨nofun, nofun, fun _ => ⟨rfl, rfl⟩⟩, ?_, ?_, nofun, nofun⟩, .writeToLog ho rfl hopening⟩
  · intro id content hc
    rw [hlookup] at hc
    split at hc
    · rename_i heq
      refine ⟨e, (entryBytes C e).take bytes, ?_, take_prefix _ _⟩
      rw [← some.inj hc, ho.getD_lookup h.present, heq]
      rfl
    · exact h.whole id content hc
  · intro r hr
    dsimp only
    rw [hlookup]
    split
    · rfl
    · exact h.present r hr

/-- **One step** keeps the invariant and the segment files. -/
theorem Restartable.step {op : Op} (hok : ClearsSegments C cfg s op)
    (hstep : step C cfg s op = some s') : Restarts C cfg s s' := by
  have hone : OneFlush s' := h.oneFlush.step hstep
  cases op with
  | openLog => exact h.openLog hok hstep
  | readFile => exact h.readFile hstep
  | writePoints points fields series => exact h.writePoints hone hstep
  | deleteSeries _ | deleteMeasurement _ _ =>
    obtain ⟨l, hl, hopening, rfl⟩ := stepCall_cases hstep
    exact h.of_sameFiles hl hopening hone hl rfl rfl rfl rfl rfl hopening
  | advance i => exact h.advance hone hstep
  | beginFlush type => exact h.beginFlush hone hstep
  | indexWrite ok => exact h.indexWrite hone hstep
  | removeSegments => exact h.removeSegments hone hstep
  | crash =>
    obtain ⟨l, -, rfl⟩ := map_eq_some_iff.mp hstep
    exact ⟨h.closed, .of_dir_eq rfl (.inr (.inr rfl))⟩
  | crashLogging i bytes => exact h.crashLogging hstep

end

theorem restartable_init (C : EntryCodec) (cfg : Config) : Restartable C cfg State.init where
  oneFlush := ⟨nofun, nofun, fun _ => ⟨rfl, rfl⟩⟩
  whole := nofun
  present := nofun
  opened := nofun
  opening := nofun

end Steps

/-! ## Restarts -/

theorem clearsSegments_of_keys {C : EntryCodec} {cfg : Config} {s : State} {op : Op}
    (h : ∀ id ∈ s.dir.keys, id ≤ openFlushes C cfg s.dir) : ClearsSegments C cfg s op := by
  intro _ id content hc _
  exact h id (AList.lookup_isSome.mp (by rw [hc]; rfl))

/-- **The segment files survive restarts.** In every run in which each `Open`
makes as many memory flushes as the files with any bytes need, every file
holds the entries logged to it, no bytes are written over, and an `Open` that
returns has removed every entry it found. -/
theorem wal_keepsSegments (C : EntryCodec) (cfg : Config) (s : State)
    (h : (walSystem C cfg).Reaches (ClearsSegments C cfg) s) : WholeEntries C s ∧
      ∀ op s', ClearsSegments C cfg s op → step C cfg s op = some s' → KeepsSegments C s s' := by
  have hinv : Restartable C cfg s := h.invariant (I := Restartable C cfg)
    (fun s hs => by
      rw [show s = State.init from hs]
      exact restartable_init C cfg)
    (fun s op s' hs hok hstep => (hs.step hok hstep).1)
  exact ⟨hinv.whole, fun op s' hok hstep => (hinv.step hok hstep).2⟩

def twoPoints : EntryCodec := tableCodec [.points [intPoint 1 1], .points [intPoint 2 2]]

/-- A point is logged, and the process crashes; `Open` of a new log reads the
file and flushes. -/
def crashAndOpen : List Op :=
  [.writePoints [intPoint 1 1] [] [], .advance 0, .crash, .openLog, .readFile,
    .beginFlush .startup, .indexWrite true]

/-- `Open` returns and the file of the point is still there; the next point is
written over it. -/
theorem wal_not_keepsSegments : (∃ s s', (walSystem twoPoints ⟨100, 100⟩).Reachable s ∧
        step twoPoints ⟨100, 100⟩ s .removeSegments = some s' ∧ ¬ KeepsSegments twoPoints s s') ∧
      (∃ s s', (walSystem twoPoints ⟨100, 100⟩).Reachable s ∧
        step twoPoints ⟨100, 100⟩ s (.advance 0) = some s' ∧ ¬ KeepsSegments twoPoints s s') ∧
      ∃ s, (walSystem twoPoints ⟨100, 100⟩).Reachable s ∧ ¬ WholeEntries twoPoints s := by
  obtain ⟨s₁, s₂, s₃, s₄, o, h₁, h₂, h₃, h₄, hopening, hfound, hnone, hlog, hdir₂, hdir₃, hdir₄,
      hrec⟩ : ∃ s₁ s₂ s₃ s₄ o,
      run twoPoints ⟨100, 100⟩ State.opened crashAndOpen = some s₁ ∧
      step twoPoints ⟨100, 100⟩ s₁ .removeSegments = some s₂ ∧
      step twoPoints ⟨100, 100⟩ s₂ (.writePoints [intPoint 2 2] [] []) = some s₃ ∧
      step twoPoints ⟨100, 100⟩ s₃ (.advance 0) = some s₄ ∧
      s₁.opening = some o ∧ o.found.lookup 1 = some [1, 0, 0, 0, 1, 0] ∧
      s₂.opening = none ∧ s₂.log.isSome = true ∧
      s₂.dir.lookup 1 = some [1, 0, 0, 0, 1, 0] ∧ s₃.dir.lookup 1 = some [1, 0, 0, 0, 1, 0] ∧
      s₄.dir.lookup 1 = some [1, 0, 0, 0, 1, 1] ∧
      recordedBytes twoPoints s₄.recorded 1 = [1, 0, 0, 0, 1, 0, 1, 0, 0, 0, 1, 1] :=
    ⟨_, _, _, _, _, rfl, rfl, rfl, rfl, rfl, rfl, rfl, rfl, rfl, rfl, rfl, rfl⟩
  have hreach₁ : (walSystem twoPoints ⟨100, 100⟩).Reachable s₁ :=
    reaches_run (opened_reachable twoPoints ⟨100, 100⟩) (fun _ _ => trivial) h₁
  have hreach₃ : (walSystem twoPoints ⟨100, 100⟩).Reachable s₃ :=
    .step (.step hreach₁ trivial h₂) trivial h₃
  refine ⟨⟨s₁, s₂, hreach₁, h₂, fun h => ?_⟩, ⟨s₃, s₄, hreach₃, h₄, fun h => ?_⟩,
    s₄, .step hreach₃ trivial h₄, fun h => ?_⟩
  · have := h.clears o hopening hnone hlog 1 _ _ hfound hdir₂
    revert this
    decide
  · have := h.appends 1 _ _ hdir₃ hdir₄
    revert this
    decide
  · obtain ⟨e, t, heq, -⟩ := h 1 _ hdir₄
    rw [hrec] at heq
    simp at heq

abbrev ClearedRun := (walSystem twoPoints ⟨100, 0⟩).Reaches (ClearsSegments twoPoints ⟨100, 0⟩)

/-- With a memory limit that every file exceeds, `Open` makes a memory flush
for the file, and the startup flush removes it. -/
theorem wal_keepsSegments_cleared :
    ∃ s, (walSystem twoPoints ⟨100, 0⟩).Reaches (ClearsSegments twoPoints ⟨100, 0⟩) s ∧
      s.removed = [⟨1, .points [intPoint 1 1], 0⟩] ∧ WholeEntries twoPoints s ∧
      ∀ op s', ClearsSegments twoPoints ⟨100, 0⟩ s op →
        step twoPoints ⟨100, 0⟩ s op = some s' → KeepsSegments twoPoints s s' := by
  have hopened : ClearedRun _ :=
    .step (l := .removeSegments) (.step (l := .indexWrite true)
      (.step (l := .beginFlush .startup) (.step (l := .openLog) (.init rfl)
        (clearsSegments_of_keys nofun) rfl) nofun rfl) nofun rfl) nofun rfl
  have hcrashed : ClearedRun _ :=
    .step (l := .crash) (.step (l := .advance 0)
      (.step (l := .writePoints [intPoint 1 1] [] []) hopened nofun rfl) nofun rfl) nofun rfl
  have hread : ClearedRun _ :=
    .step (l := .removeSegments) (.step (l := .indexWrite true) (.step (l := .beginFlush .memory)
      (.step (l := .readFile) (.step (l := .openLog) hcrashed
        (clearsSegments_of_keys (by decide +kernel)) rfl) nofun rfl) nofun rfl) nofun rfl) nofun rfl
  have hcleared : ClearedRun _ :=
    .step (l := .removeSegments) (.step (l := .indexWrite true)
      (.step (l := .beginFlush .startup) hread nofun rfl) nofun rfl) nofun rfl
  exact ⟨_, hcleared, rfl, wal_keepsSegments _ _ _ hcleared⟩

end AndyEnv.Tsm1.Wal
