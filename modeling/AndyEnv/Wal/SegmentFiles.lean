import AndyEnv.Wal.System

/-!
# The segment files of a partition

What the steps of a partition do to its directory. A block always goes to the end of
the newest file, and a file is listed before the newer ones as long as the numbers
have no more than six digits. So the blocks on disk stay in the order they were
written in, and a flush or an `Open` removes them from the oldest on.
-/

namespace AndyEnv.Wal

open List AList Dir Bytes

/-! ## The order of the files -/

theorem fileNameForSegment_eq {n : ℕ} (h : n < 1000000) :
    fileNameForSegment n = [48, 49, 46] ++ decimal 6 n ++ [46, 119, 97, 108] := by
  rw [fileNameForSegment, decimal_eq (by omega), length_reverse]

theorem le_of_fileNameForSegment_le {a b : ℕ} (ha : a < 1000000) (hb : b < 1000000)
    (h : le (fileNameForSegment a) (fileNameForSegment b) = true) : a ≤ b := by
  rw [fileNameForSegment_eq ha, fileNameForSegment_eq hb] at h
  simp only [cons_append, nil_append, le_cons, UInt8.lt_irrefl, true_and, false_or] at h
  rcases le_decimal_append (by omega) (by omega) h with h | ⟨h, -⟩
  · exact h.le
  · exact h.le

variable {id : ℕ} {op : Op}
variable {dir : Dir (List Point)}

theorem mem_segmentFileNames : id ∈ segmentFileNames dir ↔ (dir.lookup id).isSome = true := by
  rw [segmentFileNames, (perm_insertionSort _ _).mem_iff, lookup_isSome]
  rfl

/-- The numbers of the files have no more than six digits. -/
def SmallFiles (dir : Dir (List Point)) : Prop :=
  ∀ id, (dir.lookup id).isSome = true → id < 1000000

theorem SmallFiles.ascending (h : SmallFiles dir) : (segmentFileNames dir).Pairwise (· < ·) := by
  have hmem := fun id (hid : id ∈ dir.keys) => h id (lookup_isSome.mpr hid)
  apply pairwise_lt_insertionSort dir.nodupKeys
  intro a ha b hb hab
  exact le_of_fileNameForSegment_le (hmem a ha) (hmem b hb) hab

/-! ## The blocks of the files -/

def blocksOf (id : ℕ) (logged : List (ℕ × List Point)) : List (List Point) :=
  (logged.filter (fun r => r.1 = id)).map Prod.snd

structure Files (dir : Dir (List Point)) (logged : List (ℕ × List Point)) : Prop where
  content : ∀ {id : ℕ} {blocks : List (List Point)}, dir.lookup id = some blocks →
    blocks = blocksOf id logged
  present : ∀ r ∈ logged, (dir.lookup r.1).isSome = true
  sorted : logged.Pairwise (fun x y => x.1 ≤ y.1)

namespace Files

variable {logged : List (ℕ × List Point)}

theorem empty : Files ∅ [] where
  content h := by cases h
  present r hr := by cases hr
  sorted := List.Pairwise.nil

theorem blocksOf_eq_nil (h : Files dir logged) (hid : dir.lookup id = none) :
    blocksOf id logged = [] := by
  rw [blocksOf, map_eq_nil_iff, filter_eq_nil_iff]
  intro r hr hrid
  have := h.present r hr
  rw [of_decide_eq_true hrid, hid] at this
  cases this

theorem create (h : Files dir logged) (id : ℕ) : Files (dir.create id) logged where
  content {j blocks} hj := by
    rw [lookup_create] at hj
    split at hj
    · rename_i heq
      subst heq
      cases hlook : dir.lookup j with
      | none =>
        rw [hlook] at hj
        rw [h.blocksOf_eq_nil hlook]
        exact (Option.some.inj hj).symm
      | some bs =>
        rw [hlook] at hj
        rw [← h.content hlook]
        exact (Option.some.inj hj).symm
    · exact h.content hj
  present r hr := by
    rw [lookup_create]
    split
    · rfl
    · exact h.present r hr
  sorted := h.sorted

theorem erase (h : Files dir logged) (id : ℕ) :
    Files (dir.erase id) (logged.filter (fun r => r.1 ≠ id)) where
  content {j blocks} hj := by
    by_cases heq : j = id
    · rw [heq, lookup_erase] at hj
      cases hj
    rw [lookup_erase_ne heq] at hj
    rw [h.content hj, blocksOf, blocksOf, filter_filter]
    congr 1
    apply filter_congr
    intro r _
    by_cases hr : r.1 = j
    · simp [hr, heq]
    · simp [hr]
  present r hr := by
    obtain ⟨hr, hne⟩ := mem_filter.mp hr
    rw [lookup_erase_ne (of_decide_eq_true hne)]
    exact h.present r hr
  sorted := h.sorted.sublist filter_sublist

theorem writeAt (h : Files dir logged) {blocks : List (List Point)}
    (hid : dir.lookup id = some blocks) (hle : ∀ r ∈ logged, r.1 ≤ id) (block : List Point) :
    Files (dir.writeAt id blocks.length [block]) (logged ++ [(id, block)]) where
  content {j bs} hj := by
    rw [lookup_writeAt, hid] at hj
    rw [blocksOf, filter_append, map_append]
    by_cases heq : j = id
    · subst heq
      rw [if_pos rfl] at hj
      rw [← Option.some.inj hj, Option.getD_some, overwrite_length, h.content hid]
      simp [blocksOf]
    · rw [if_neg heq] at hj
      rw [h.content hj]
      simp [blocksOf, Ne.symm heq]
  present r hr := by
    rw [lookup_writeAt]
    split
    · rfl
    rename_i hne
    rcases mem_append.mp hr with hr | hr
    · exact h.present r hr
    · rw [mem_singleton] at hr
      exact absurd (by rw [hr]) hne
  sorted := by
    rw [pairwise_append]
    refine ⟨h.sorted, pairwise_singleton _ _, ?_⟩
    intro r hr r' hr'
    rw [mem_singleton] at hr'
    rw [hr']
    exact hle r hr

end Files

/-! ## Where the next block goes -/

theorem lookup_erase_isSome {j : ℕ} :
    ((dir.erase id).lookup j).isSome = true ↔ j ≠ id ∧ (dir.lookup j).isSome = true := by
  by_cases heq : j = id
  · rw [heq, lookup_erase]
    exact ⟨fun h => (by cases h), fun h => absurd rfl h.1⟩
  · rw [lookup_erase_ne heq]
    exact ⟨fun h => ⟨heq, h⟩, fun h => h.2⟩

/-- The files of a directory after a step that may have begun the next one. -/
def GrownTo (dir dir' : Dir (List Point)) (id : ℕ) : Prop :=
  ∀ j, (dir'.lookup j).isSome = true → (dir.lookup j).isSome = true ∨ j = id

theorem grownTo_create (dir : Dir (List Point)) (id : ℕ) : GrownTo dir (dir.create id) id := by
  intro j hj
  rw [lookup_create] at hj
  split at hj
  · rename_i heq
    exact .inr heq
  · exact .inl hj

/-- The current file is the newest one, and is written at its end. -/
structure Writable (p : Partition) (dir : Dir (List Point)) : Prop where
  le : ∀ id, (dir.lookup id).isSome = true → id ≤ p.currentSegmentID
  handle : ∀ h, p.currentSegmentFile = some h → h.id = p.currentSegmentID ∧
    ∃ blocks, dir.lookup p.currentSegmentID = some blocks ∧ blocks.length = h.offset

namespace Writable

variable {cfg : Config} {p : Partition}

theorem lookup_next (h : Writable p dir) : dir.lookup (p.currentSegmentID + 1) = none := by
  cases hlook : dir.lookup (p.currentSegmentID + 1) with
  | none => rfl
  | some blocks =>
    have := h.le (p.currentSegmentID + 1) (by rw [hlook]; rfl)
    omega

theorem newSegmentFile (h : Writable p dir) :
    Writable (p.newSegmentFile dir).1 (p.newSegmentFile dir).2 where
  le id hid := by
    rcases grownTo_create dir (p.currentSegmentID + 1) id hid with hid | heq
    · exact (h.le id hid).trans (Nat.le_succ _)
    · exact heq.le
  handle hd heq := by
    cases heq
    refine ⟨rfl, [], ?_, rfl⟩
    show (dir.create (p.currentSegmentID + 1)).lookup (p.currentSegmentID + 1) = _
    rw [lookup_create, if_pos rfl, h.lookup_next]
    rfl

theorem rollOver (h : Writable p dir) (type : FlushType) :
    Writable (p.rollOver dir type).1 (p.rollOver dir type).2 := by
  cases type with
  | idle =>
    constructor
    · intro id hid
      exact (h.le id hid).trans (Nat.le_succ _)
    · intro hd heq
      cases heq
  | _ => exact h.newSegmentFile

theorem erase (h : Writable p dir) (hid : id < p.currentSegmentID) : Writable p (dir.erase id) where
  le j hj := h.le j (lookup_erase_isSome.mp hj).2
  handle hd heq := by
    rw [lookup_erase_ne hid.ne']
    exact h.handle hd heq

end Writable

structure SameCache (p p' : Partition) : Prop where
  cache : p'.cache = p.cache
  memorySize : p'.memorySize = p.memorySize
  compactionRunning : p'.compactionRunning = p.compactionRunning
  le : p.currentSegmentID ≤ p'.currentSegmentID

theorem Partition.sameCache_rotate (cfg : Config) (p : Partition) (dir : Dir (List Point)) :
    SameCache p (p.rotate cfg dir).1 := by
  unfold rotate
  split
  · exact ⟨rfl, rfl, rfl, Nat.le_succ _⟩
  · exact ⟨rfl, rfl, rfl, le_rfl⟩

theorem Partition.cache_writeBlock (p : Partition) (cfg : Config) (dir : Dir (List Point))
    (block : List Point) : (p.writeBlock cfg dir block).1.cache = p.cache := by
  unfold writeBlock
  dsimp only
  split
  · exact (p.sameCache_rotate cfg dir).cache
  · exact (p.sameCache_rotate cfg dir).cache

structure BlockWritten (p : Partition) (dir : Dir (List Point)) (logged : List (ℕ × List Point))
    (p' : Partition) (dir' : Dir (List Point)) : Prop where
  writable : Writable p' dir'
  files : Files dir' logged
  same : SameCache p p'
  next : p'.currentSegmentID ≤ p.currentSegmentID + 1
  grown : GrownTo dir dir' p'.currentSegmentID

variable {logged : List (ℕ × List Point)} {s : State}

section

variable (p : Partition) (cfg : Config) (hw : Writable p dir) (hf : Files dir logged)
include hw hf

theorem Partition.rotate_spec
    : BlockWritten p dir logged (p.rotate cfg dir).1 (p.rotate cfg dir).2 ∧
      ∃ h, (p.rotate cfg dir).1.currentSegmentFile = some h := by
  have hsame := p.sameCache_rotate cfg dir
  unfold rotate at hsame ⊢
  split at hsame
  · rename_i hfull
    rw [if_pos hfull]
    exact ⟨⟨hw.newSegmentFile, hf.create _, hsame, le_rfl, grownTo_create dir _⟩, _, rfl⟩
  · rename_i hnot
    rw [if_neg hnot]
    exact ⟨⟨hw, hf, hsame, Nat.le_succ _, fun j hj => .inl hj⟩,
      Option.ne_none_iff_exists'.mp (fun hnone => hnot (.inl hnone))⟩

/-- **A block** goes to the end of the newest file. -/
theorem Partition.writeBlock_spec (block : List Point) :
    BlockWritten p dir (logged ++ [((p.writeBlock cfg dir block).1.currentSegmentID, block)])
      (p.writeBlock cfg dir block).1 (p.writeBlock cfg dir block).2 := by
  obtain ⟨⟨hw', hf', hsame, hnext, hgrown⟩, h, hfile⟩ := p.rotate_spec cfg hw hf
  obtain ⟨hid, blocks, hlook, hlen⟩ := hw'.handle h hfile
  have heq : p.writeBlock cfg dir block = ({ (p.rotate cfg dir).1 with
          currentSegmentFile := some ⟨h.id, h.offset + 1⟩
          currentSegmentSize := (p.rotate cfg dir).1.currentSegmentSize +
            (8 + cfg.encodedLen (block.flatMap marshalWALEntry)) },
        (p.rotate cfg dir).2.writeAt h.id h.offset [block]) := by
    unfold writeBlock
    dsimp only
    rw [hfile]
  rw [heq, hid, ← hlen]
  refine ⟨⟨?_, ?_⟩, ?_, ⟨hsame.cache, hsame.memorySize, hsame.compactionRunning, hsame.le⟩,
    hnext, ?_⟩
  · intro id hmem
    rw [lookup_writeAt] at hmem
    split at hmem
    · rename_i heq
      exact heq.le
    · exact hw'.le id hmem
  · intro hd hhd
    cases hhd
    refine ⟨rfl, blocks ++ [block], ?_, length_append⟩
    rw [lookup_writeAt, if_pos rfl, hlook, Option.getD_some, overwrite_length]
  · exact hf'.writeAt hlook (fun r hr => hw'.le r.1 (hf'.present r hr)) block
  · intro j hj
    rw [lookup_writeAt] at hj
    split at hj
    · rename_i heq
      exact .inr heq
    · exact hgrown j hj

end

structure Prepared (p : Partition) (dir : Dir (List Point)) (p' : Partition)
    (dir' : Dir (List Point)) (c : CompactionInfo) : Prop where
  idle : p.compactionRunning = false
  running : p'.compactionRunning = true
  cache : p'.cache = ∅
  series : c.seriesToFlush = p.cachedSeries
  limit : c.compactFilesLessThan = p.currentSegmentID + 1
  next : p'.currentSegmentID = p.currentSegmentID + 1
  writable : Writable p dir → Writable p' dir'
  files : ∀ {logged : List (ℕ × List Point)}, Files dir logged → Files dir' logged
  grown : GrownTo dir dir' (p.currentSegmentID + 1)

/-- **The swap** of the cache and the segment file. -/
theorem Partition.prepared {cfg : Config} {p p' : Partition} {dir' : Dir (List Point)}
    {type : FlushType} {c : CompactionInfo}
    (h : p.prepareSeriesToFlush cfg dir type = .ok (p', dir', c)) : Prepared p dir p' dir' c := by
  unfold prepareSeriesToFlush at h
  split at h
  · cases h
  rename_i hidle
  split at h
  · cases h
  cases h
  have hwritable : Writable p dir →
      Writable (({ p with compactionRunning := true, cache := ∅ } : Partition).rollOver dir type).1
        (({ p with compactionRunning := true, cache := ∅ } : Partition).rollOver dir type).2 :=
    fun h => Writable.rollOver (p := { p with compactionRunning := true, cache := ∅ })
      ⟨h.le, h.handle⟩ type
  cases type with
  | idle =>
    exact ⟨Bool.eq_false_iff.mpr hidle, rfl, rfl, rfl, rfl, rfl,
      fun h => ⟨(hwritable h).le, (hwritable h).handle⟩, fun h => h, fun j hj => .inl hj⟩
  | _ =>
    exact ⟨Bool.eq_false_iff.mpr hidle, rfl, rfl, rfl, rfl, rfl,
      fun h => ⟨(hwritable h).le, (hwritable h).handle⟩, fun h => h.create _, grownTo_create dir _⟩

/-- The three ways `flushAndCompact` begins: it is refused, there is nothing to flush,
or the series are to be handed to the index. -/
theorem beginFlush_cases (cfg : Config) (s : State) (r : Running) (type : FlushType)
    (d : Option Delete) : (∃ e, r.partition.prepareSeriesToFlush cfg s.dir type = .error e ∧
      beginFlush cfg s r type d = { s.deleteReturns d with phase := .running r }) ∨
    ∃ p dir c, Prepared r.partition s.dir p dir c ∧
      (c.seriesToFlush.entries = [] ∧ beginFlush cfg s r type d = { s.deleteReturns d with
          dir := dir, phase := .running { r with partition := p } } ∨
        c.seriesToFlush.entries ≠ [] ∧ beginFlush cfg s r type d = { s with
          dir := dir
          phase := .running { r with partition := p, flush := some ⟨c, .prepared, d⟩ } }) := by
  unfold beginFlush
  split
  · rename_i e he
    exact .inl ⟨e, he, rfl⟩
  rename_i p dir c hok
  refine .inr ⟨p, dir, c, Partition.prepared hok, ?_⟩
  by_cases hempty : c.seriesToFlush.entries = []
  · exact .inl ⟨hempty, if_pos hempty⟩
  · exact .inr ⟨hempty, if_neg hempty⟩

/-! ## Every step -/

/-- The files that a flush still has to remove are listed, from the oldest on. -/
def Flush.Lists (f : Flush) (dir : Dir (List Point)) : Prop :=
  ∀ names, f.stage = .removing names → names.Pairwise (· < ·) ∧
    ∀ id, (dir.lookup id).isSome = true → id < f.info.compactFilesLessThan → id ∈ names

def PhaseFiles (dir : Dir (List Point)) : Phase → Prop
  | .closed => True
  | .opening o => o.fileNames.Pairwise (· < ·) ∧
      ∀ id, id ∈ o.fileNames ↔ (dir.lookup id).isSome = true
  | .running r => Writable r.partition dir ∧
      ∀ f, r.flush = some f → r.partition.compactionRunning = true ∧
        f.info.compactFilesLessThan ≤ r.partition.currentSegmentID ∧ f.Lists dir

structure FilesInv (s : State) : Prop where
  files : Files s.dir s.logged
  small : SmallFiles s.dir
  phase : PhaseFiles s.dir s.phase

/-- The number of the segment file that is begun next. -/
def Phase.nextSegmentID : Phase → ℕ
  | .running r => r.partition.currentSegmentID + 1
  | _ => 0

def Op.begins : Op → Bool
  | .writeBlock => true
  | .flush _ => true
  | .deleteFlush => true
  | _ => false

/-- The segment numbers stay below 1000000. -/
def SmallIDs (s : State) (op : Op) : Prop := op.begins = true → s.phase.nextSegmentID < 1000000

instance (s : State) (op : Op) : Decidable (SmallIDs s op) :=
  inferInstanceAs (Decidable (op.begins = true → s.phase.nextSegmentID < 1000000))

theorem SmallIDs.next {r : Running} (h : SmallIDs s op)
    (hop : op.begins = true) (hr : s.phase = .running r) :
    r.partition.currentSegmentID + 1 < 1000000 := by
  have hlt := h hop
  rw [hr] at hlt
  exact hlt

theorem SmallIDs.of_not_begins (h : op.begins = false) : SmallIDs s op :=
  fun hop => absurd (hop.symm.trans h) Bool.noConfusion

theorem foldl_addToCache_files (pps : List Point) (p : Partition) :
    (pps.foldl Partition.addToCache p).currentSegmentID = p.currentSegmentID ∧
      (pps.foldl Partition.addToCache p).currentSegmentFile = p.currentSegmentFile ∧
      (pps.foldl Partition.addToCache p).compactionRunning = p.compactionRunning := by
  induction pps generalizing p with
  | nil => exact ⟨rfl, rfl, rfl⟩
  | cons pp pps ih => exact ih (p.addToCache pp)

namespace FilesInv

variable {cfg : Config} {s : State}

theorem init : FilesInv State.init where
  files := Files.empty
  small id hid := by cases hid
  phase := trivial

theorem small_of_grown (h : FilesInv s)
    (hgrown : GrownTo s.dir dir id) (hid : id < 1000000) : SmallFiles dir := by
  intro j hj
  rcases hgrown j hj with hj | rfl
  · exact h.small j hj
  · exact hid

variable {dir' : Dir (List Point)} {r : Running}

/-- A flush lists the same files if only newer ones are added. -/
theorem lists_of_grown {f : Flush} (h : f.Lists dir)
    (hgrown : GrownTo dir dir' id) (hid : f.info.compactFilesLessThan ≤ id) : f.Lists dir' := by
  intro names hstage
  obtain ⟨hsorted, hmem⟩ := h names hstage
  refine ⟨hsorted, ?_⟩
  intro j hj hlt
  rcases hgrown j hj with hj | rfl
  · exact hmem j hj hlt
  · exact absurd hlt (not_lt.mpr hid)

theorem remove (h : FilesInv s) (id : ℕ) :
    Files (s.remove id).dir (s.remove id).logged ∧ SmallFiles (s.remove id).dir := by
  constructor
  · exact h.files.erase id
  · intro j hj
    exact h.small j (lookup_erase_isSome.mp hj).2

theorem deleteReturns_dir (s : State) (d : Option Delete) :
    (s.deleteReturns d).dir = s.dir ∧ (s.deleteReturns d).logged = s.logged := by
  cases d with
  | none | some => exact ⟨rfl, rfl⟩

theorem deleteReturns (h : FilesInv s) {phase : Phase} (hphase : PhaseFiles s.dir phase)
    (d : Option Delete) : FilesInv { s.deleteReturns d with phase := phase } := by
  cases d with
  | none | some => exact ⟨h.files, h.small, hphase⟩

theorem beginFlush (h : FilesInv s) (hids : r.partition.currentSegmentID + 1 < 1000000)
    (hr : PhaseFiles s.dir (.running r)) (type : FlushType) (d : Option Delete) :
    FilesInv (Wal.beginFlush cfg s r type d) := by
  rcases beginFlush_cases cfg s r type d with ⟨e, -, heq⟩ | ⟨p, dir, c, hp, heq⟩
  · rw [heq]
    exact h.deleteReturns hr d
  have hsmall := h.small_of_grown hp.grown hids
  have hlists : ∀ f, r.flush = some f → p.compactionRunning = true ∧
      f.info.compactFilesLessThan ≤ p.currentSegmentID ∧ f.Lists dir := by
    intro f hf
    obtain ⟨-, hle, hl⟩ := hr.2 f hf
    refine ⟨hp.running, ?_, lists_of_grown hl hp.grown (hle.trans (Nat.le_succ _))⟩
    rw [hp.next]
    exact hle.trans (Nat.le_succ _)
  rcases heq with ⟨-, heq⟩ | ⟨-, heq⟩
  · rw [heq]
    refine ⟨?_, hsmall, hp.writable hr.1, hlists⟩
    rw [(deleteReturns_dir s d).2]
    exact hp.files h.files
  rw [heq]
  refine ⟨hp.files h.files, hsmall, hp.writable hr.1, ?_⟩
  intro f hf
  cases hf
  refine ⟨hp.running, ?_, fun names hstage => ?_⟩
  · rw [hp.next]
    exact hp.limit.le
  · cases hstage

theorem stage {c : CompactionInfo} {stage stage' : Stage} {d : Option Delete}
    (h : PhaseFiles dir (.running r)) (hf : r.flush = some ⟨c, stage, d⟩)
    {memorySize : UInt64} {flushCache : Option Series} (hw : Writable r.partition dir')
    (hl : (⟨c, stage, d⟩ : Flush).Lists dir → (⟨c, stage', d⟩ : Flush).Lists dir') :
    PhaseFiles dir' (.running { r with
      partition := { r.partition with flushCache := flushCache, memorySize := memorySize }
      flush := some ⟨c, stage', d⟩ }) := by
  obtain ⟨hrun, hle, hlists⟩ := h.2 _ hf
  refine ⟨⟨hw.le, hw.handle⟩, fun f hf' => ?_⟩
  cases hf'
  exact ⟨hrun, hle, hl hlists⟩

/-- **One step** keeps the files in order. -/
theorem step {s' : State} (h : FilesInv s) (hids : SmallIDs s op)
    (hstep : Step cfg s op s') : FilesInv s' := by
  obtain ⟨hfiles, hsmall, hphase⟩ := h
  have h : FilesInv s := ⟨hfiles, hsmall, hphase⟩
  cases hstep with (try rw [‹s.phase = _›] at hphase)
  | openLog hp => exact ⟨hfiles, hsmall, hsmall.ascending, fun id => mem_segmentFileNames⟩
  | @replayFile f fs hp =>
    have hf : f ∈ s.dir := lookup_isSome.mp ((hphase.2 f).mp mem_cons_self)
    have hcreate : s.dir.create f = s.dir := if_pos hf
    rw [hcreate]
    exact ⟨hfiles, hsmall, hphase⟩
  | @removeReplayed f fs hp =>
    obtain ⟨hsorted, hmem⟩ := hphase
    obtain ⟨hlt, hsorted⟩ := pairwise_cons.mp hsorted
    refine ⟨(h.remove f).1, (h.remove f).2, hsorted, ?_⟩
    intro id
    refine Iff.trans ?_ lookup_erase_isSome.symm
    rw [← hmem id, mem_cons]
    constructor
    · intro hid
      exact ⟨(hlt id hid).ne', .inr hid⟩
    · rintro ⟨hne, hid⟩
      exact hid.resolve_left hne
  | opened hp =>
    refine ⟨hfiles, hsmall, ⟨?_, ?_⟩, ?_⟩
    · intro id hid
      cases (hphase.2 id).mpr hid
    · intro hd heq
      cases heq
    · intro f hf
      cases hf
  | writeFails hp => exact h
  | write | lock | writeReturns =>
    exact ⟨hfiles, hsmall, hphase⟩
  | @writeBlock r pp pps written block hp hw hb =>
    have hspec := r.partition.writeBlock_spec cfg hphase.1 hfiles block
    refine ⟨hspec.files, h.small_of_grown hspec.grown ?_, hspec.writable, ?_⟩
    · exact lt_of_le_of_lt hspec.next (hids.next rfl hp)
    · intro f hf
      obtain ⟨hrun, hle, hl⟩ := hphase.2 f hf
      have hle' := hle.trans hspec.same.le
      exact ⟨hspec.same.compactionRunning.trans hrun, hle', lists_of_grown hl hspec.grown hle'⟩
  | @addToCache r remaining pps written hp hw =>
    obtain ⟨hid, hfile, hrun⟩ := foldl_addToCache_files pps r.partition
    refine ⟨hfiles, hsmall, ⟨?_, ?_⟩, ?_⟩
    · show ∀ id, _ → id ≤ (pps.foldl Partition.addToCache r.partition).currentSegmentID
      rw [hid]
      exact hphase.1.le
    · show ∀ hd, (pps.foldl Partition.addToCache r.partition).currentSegmentFile = some hd → _
      rw [hid, hfile]
      exact hphase.1.handle
    · show ∀ f, r.flush = some f → (pps.foldl Partition.addToCache r.partition).compactionRunning =
        true ∧ _ ≤ (pps.foldl Partition.addToCache r.partition).currentSegmentID ∧ _
      rw [hid, hrun]
      exact hphase.2
  | deleteSeries hp hw hd hf =>
    exact ⟨hfiles, hsmall, ⟨hphase.1.le, hphase.1.handle⟩, hphase.2⟩
  | @deleteFlush r d hp hw hd =>
    have hnext := hids.next rfl hp
    exact h.beginFlush (r := { r with deleting := none }) hnext hphase _ _
  | @flush r type hp hw => exact h.beginFlush (hids.next rfl hp) hphase _ _
  | writeIndex _ hf | clearFlushCache _ _ hf =>
    exact ⟨hfiles, hsmall, stage hphase hf hphase.1 (fun _ names hstage => by cases hstage)⟩
  | listSegments hp hf =>
    refine ⟨hfiles, hsmall, stage hphase hf hphase.1 (fun _ names hstage => ?_)⟩
    cases hstage
    exact ⟨hsmall.ascending, fun id hid _ => mem_segmentFileNames.mpr hid⟩
  | stopRemoving hp hf hid =>
    refine ⟨hfiles, hsmall, stage hphase hf hphase.1 (fun hl names hstage => ?_)⟩
    obtain ⟨hsorted, hmem⟩ := hl _ rfl
    cases hstage
    refine ⟨List.Pairwise.nil, fun j hj hlt => ?_⟩
    -- the first file of the list is not older than the limit, nor are the others
    rcases mem_cons.mp (hmem j hj hlt) with rfl | hin
    · exact absurd hlt (not_lt.mpr hid)
    · exact absurd (((pairwise_cons.mp hsorted).1 j hin).trans hlt) (not_lt.mpr hid)
  | @removeSegment r c d id ids hp hf hid =>
    refine ⟨(h.remove id).1, (h.remove id).2, stage hphase hf
      (hphase.1.erase (lt_of_lt_of_le hid (hphase.2 _ hf).2.1)) (fun hl names hstage => ?_)⟩
    obtain ⟨hsorted, hmem⟩ := hl _ rfl
    cases hstage
    refine ⟨(pairwise_cons.mp hsorted).2, fun j hj hlt => ?_⟩
    obtain ⟨hne, hj⟩ := lookup_erase_isSome.mp hj
    exact (mem_cons.mp (hmem j hj hlt)).resolve_left hne
  | @endFlush r c d hp hw hf =>
    refine @deleteReturns s h (.running _) ?_ d
    exact ⟨⟨hphase.1.le, hphase.1.handle⟩, fun f hf => by cases hf⟩
  | crash hp => exact ⟨hfiles, hsmall, trivial⟩

end FilesInv

end AndyEnv.Wal
