import AndyEnv.Tsm1.Wal.Restart

/-!
# A log that is cut off

A crash can leave the beginning of an entry at the end of the last segment file.
`readFileToCache` takes a payload that is cut off as the end of the file, but a
header that is cut off as an error, and then `Open` fails.
-/

namespace AndyEnv.Tsm1.Wal

open List Bytes

/-! ## Entries that are there -/

section Cut

variable (C : EntryCodec)

/-- The entries whose bytes are all among the first `n`. -/
def completeEntries : ℕ → List Entry → List Entry
  | _, [] => []
  | n, e :: es =>
    if (entryBytes C e).length ≤ n then e :: completeEntries (n - (entryBytes C e).length) es else []

/-- One to four bytes of the header of an entry are left. -/
def CutsHeader (n : ℕ) (es : List Entry) : Prop :=
  ∃ before e after, es = before ++ e :: after ∧
    (before.flatMap (entryBytes C)).length < n ∧ n < (before.flatMap (entryBytes C)).length + 5

variable {C} {n : ℕ} {e : Entry} {es : List Entry}

theorem not_cutsHeader_nil : ¬ CutsHeader C n [] := by
  rintro ⟨before, e, after, hnil, -⟩
  exact absurd hnil.symm (append_ne_nil_of_right_ne_nil _ (cons_ne_nil _ _))

theorem cutsHeader_cons_of_le (hle : (entryBytes C e).length ≤ n) :
    CutsHeader C n (e :: es) ↔ CutsHeader C (n - (entryBytes C e).length) es := by
  have hlen := length_entryBytes (C := C) e
  constructor
  · rintro ⟨before, x, after, hsplit, hlt, hgt⟩
    cases before with
    | nil =>
      rw [flatMap_nil, length_nil] at hgt
      omega
    | cons y before =>
      cases hsplit
      rw [flatMap_cons, length_append] at hlt hgt
      exact ⟨before, x, after, rfl, by omega, by omega⟩
  · rintro ⟨before, x, after, rfl, hlt, hgt⟩
    refine ⟨e :: before, x, after, rfl, ?_, ?_⟩
    · rw [flatMap_cons, length_append]
      omega
    · rw [flatMap_cons, length_append]
      omega

theorem cutsHeader_cons_of_lt (hlt : n < (entryBytes C e).length) :
    CutsHeader C n (e :: es) ↔ 0 < n ∧ n < 5 := by
  constructor
  · rintro ⟨before, x, after, hsplit, hlt', hgt⟩
    cases before with
    | nil => simpa using ⟨hlt', hgt⟩
    | cons y before =>
      cases hsplit
      rw [flatMap_cons, length_append] at hlt'
      omega
  · rintro ⟨hpos, hlt'⟩
    exact ⟨[], e, es, rfl, hpos, by simpa using hlt'⟩

/-! ## Reading a file that is cut off -/

theorem readLoop_cutHeader {buf : Bytes} (hne : buf ≠ []) (hlt : buf.length < 5) (fuel : ℕ) :
    readLoop C (fuel + 1) buf = ([], .cutHeader) := by
  rw [readLoop, if_neg hne, if_pos hlt]

theorem readLoop_cutPayload (hlength : (C.payload e).length < 2 ^ 32) (hle : 5 ≤ n)
    (hlt : n < (entryBytes C e).length) (fuel : ℕ) :
    readLoop C (fuel + 1) ((entryBytes C e).take n) = ([], .cutPayload) := by
  have hlen := length_entryBytes (C := C) e
  have htake : ((entryBytes C e).take n).length = n := length_take_of_le hlt.le
  have htoNat : (UInt32.ofNat (C.payload e).length).toNat = (C.payload e).length :=
    UInt32.toNat_ofNat_of_lt' hlength
  have hread : uint32 (((entryBytes C e).take n).drop 1) = UInt32.ofNat (C.payload e).length := by
    obtain ⟨k, rfl⟩ := Nat.exists_eq_add_of_le hle
    have hsplit : ((entryBytes C e).take (5 + k)).drop 1 =
        putUint32 (UInt32.ofNat (C.payload e).length) ++ (C.payload e).take k := by
      rw [entryBytes, show 5 + k = (4 + k) + 1 by omega, take_succ_cons, drop_succ_cons,
        drop_zero, take_append, length_putUint32, Nat.add_sub_cancel_left,
        take_of_length_le (by rw [length_putUint32]; omega)]
    rw [hsplit, uint32_putUint32_append]
  have hne : (entryBytes C e).take n ≠ [] := by
    intro hnil
    rw [hnil, length_nil] at htake
    omega
  rw [readLoop, if_neg hne, if_neg (by omega)]
  dsimp only
  rw [hread, htoNat, if_pos]
  rw [length_drop, htake]
  omega

/-- **What is read of a file that is cut off**: the entries that are there, with an
error if a header is cut. -/
theorem readLoop_cut {back : Entry → Entry} (h : ∀ e ∈ es, ReadsAs C e (back e)) {fuel : ℕ}
    (hfuel : (completeEntries C n es).length < fuel) :
    ∃ ending, readLoop C fuel ((es.flatMap (entryBytes C)).take n) =
      ((completeEntries C n es).map back, ending) ∧ (ending.isError = true ↔ CutsHeader C n es) := by
  obtain ⟨fuel, rfl⟩ := Nat.exists_eq_succ_of_ne_zero (Nat.ne_of_gt (Nat.lt_of_le_of_lt (Nat.zero_le _) hfuel))
  induction es generalizing n fuel with
  | nil =>
    refine ⟨.endOfFile, ?_, by simp [ReadEnd.isError, not_cutsHeader_nil]⟩
    rw [flatMap_nil, take_nil]
    rfl
  | cons e es ih =>
    have he := h e mem_cons_self
    have hlen := length_entryBytes (C := C) e
    rw [flatMap_cons]
    by_cases hle : (entryBytes C e).length ≤ n
    · rw [completeEntries, if_pos hle, length_cons] at hfuel
      obtain ⟨fuel, rfl⟩ : ∃ k, fuel = k + 1 := ⟨fuel - 1, by omega⟩
      obtain ⟨ending, hread, hend⟩ := ih (n := n - (entryBytes C e).length)
        (forall_mem_cons.mp h).2 fuel (by omega)
      refine ⟨ending, ?_, hend.trans (cutsHeader_cons_of_le hle).symm⟩
      rw [take_append, take_of_length_le hle, readLoop_entry he, hread, completeEntries, if_pos hle,
        map_cons]
    · have hlt : n < (entryBytes C e).length := Nat.lt_of_not_le hle
      rw [take_append_of_le_length hlt.le, completeEntries, if_neg hle, cutsHeader_cons_of_lt hlt]
      rcases eq_zero_or_pos n with rfl | hpos
      · refine ⟨.endOfFile, ?_, by simp [ReadEnd.isError]⟩
        rw [take_zero]
        rfl
      have htake : ((entryBytes C e).take n).length = n := length_take_of_le hlt.le
      by_cases h5 : n < 5
      · refine ⟨.cutHeader, readLoop_cutHeader ?_ (by omega) fuel, by simp [ReadEnd.isError, hpos, h5]⟩
        intro hnil
        rw [hnil, length_nil] at htake
        omega
      · exact ⟨.cutPayload, readLoop_cutPayload he.length_lt (Nat.le_of_not_lt h5) hlt fuel,
          by simp [ReadEnd.isError, h5]⟩

theorem length_completeEntries_le (n : ℕ) (es : List Entry) :
    (completeEntries C n es).length ≤ ((es.flatMap (entryBytes C)).take n).length := by
  induction es generalizing n with
  | nil => exact Nat.zero_le _
  | cons e es ih =>
    rw [completeEntries]
    by_cases hle : (entryBytes C e).length ≤ n
    · have hlen := length_entryBytes (C := C) e
      have hrest := ih (n - (entryBytes C e).length)
      rw [if_pos hle, flatMap_cons, take_append, take_of_length_le hle, length_append, length_cons]
      omega
    · rw [if_neg hle]
      exact Nat.zero_le _

end Cut

/-! ## Opening a log -/

/-- A log that `Open` recovers, while nothing else runs and the index takes what it
is given. -/
structure Recovery : Type where
  log : Log
  dir : Dir UInt8
  /-- The entries handed to the cache, in order. -/
  replayed : List Entry
  /-- What the index was given. -/
  handed : List ValuesByKey

namespace Recovery

def flush (r : Recovery) (type : FlushType) : Recovery :=
  -- only flush if there isn't one already running
  if r.log.flushRunning && decide (type ≠ .memory) then r
  else
    let (rotated, dir) := r.log.rotate r.dir type
    -- exit if there's nothing to flush to the index
    if rotated.nothingToFlush && decide (type ≠ .startup) then
      { r with log := { rotated.swapCache with flushRunning := false }, dir := dir }
    else { r with
      log := { rotated.swapCache with flushCache := none, flushRunning := false }
      dir := dir.removeUpTo r.log.currentSegmentID (segmentFileNames dir)
      handed := r.handed ++ [rotated.flushValues] }

section

variable (C : EntryCodec) (cfg : Config)

def readFileToCache (r : Recovery) (f : ℕ) : Option Recovery :=
  match r.dir.lookup f with
  | none => none
  | some content =>
    let (es, ending) := readEntries C content
    if ending.isError then none
    else some { r with log := es.foldl Log.replayEntry r.log, replayed := r.replayed ++ es }

/-- The loop of `readAndFlushWAL`, which flushes whenever the memory gets over the
limit. -/
def readFiles : List ℕ → Recovery → Option Recovery
  | [], r => some r
  | f :: files, r => do
    let r ← r.readFileToCache C f
    readFiles files (if r.log.memorySize > cfg.maxMemorySizeThreshold then r.flush .memory else r)

def readAndFlushWAL (dir : Dir UInt8) : Option Recovery := do
  let r ← readFiles C cfg (segmentFileNames dir) ⟨Log.new, dir, [], []⟩
  return r.flush .startup

end

/-! ## The files that are not read yet -/

/-- The files `files` are as they were found, and newer than the current segment. -/
structure Unread (found : Dir UInt8) (files : List ℕ) (r : Recovery) : Prop where
  lookup : ∀ f ∈ files, r.dir.lookup f = found.lookup f
  above : ∀ f ∈ files, r.log.currentSegmentID < f

variable {C : EntryCodec} {cfg : Config} {found : Dir UInt8} {files : List ℕ} {r : Recovery}

/-- **A flush keeps the files that are not read yet.** -/
theorem Unread.flush {f : ℕ} (h : Unread found (f :: files) r) (hasc : (f :: files).Pairwise (· < ·))
    (type : FlushType) : Unread found files (r.flush type) := by
  have hlt := (pairwise_cons.mp hasc).1
  have hf := h.above f mem_cons_self
  have hid : (r.log.rotate r.dir type).1.currentSegmentID ≤ r.log.currentSegmentID + 1 := by
    rcases r.log.rotate_file r.dir type with ⟨-, hid⟩ | ⟨-, hid, -⟩
    · omega
    · omega
  have hrotate : ∀ g ∈ files, (r.log.rotate r.dir type).2.lookup g = found.lookup g := by
    intro g hg
    rw [← h.lookup g (mem_cons_of_mem f hg)]
    rcases r.log.lookup_rotate r.dir type g with heq | ⟨-, -, heq⟩
    · exact heq
    · have hgt := hlt g hg
      omega
  have hlookup : ∀ g ∈ files, (r.flush type).dir.lookup g = found.lookup g := by
    intro g hg
    unfold Recovery.flush
    split
    · exact h.lookup g (mem_cons_of_mem f hg)
    dsimp only
    split
    · exact hrotate g hg
    · have hgt := h.above g (mem_cons_of_mem f hg)
      dsimp only
      rw [lookup_removeSegments, if_neg (not_le.mpr hgt)]
      exact hrotate g hg
  refine ⟨hlookup, fun g hg => ?_⟩
  have hgt := hlt g hg
  have hcur : (r.flush type).log.currentSegmentID ≤ r.log.currentSegmentID + 1 := by
    unfold Recovery.flush
    split
    · omega
    · dsimp only
      split
      · exact hid
      · exact hid
  omega

theorem replayed_flush (r : Recovery) (type : FlushType) : (r.flush type).replayed = r.replayed := by
  unfold flush
  split
  · rfl
  · dsimp only
    split
    · rfl
    · rfl

theorem Unread.readFileToCache {f : ℕ} {content : Bytes} {es : List Entry} {ending : ReadEnd}
    (h : Unread found (f :: files) r) (hfound : found.lookup f = some content)
    (hread : readEntries C content = (es, ending)) :
    if ending.isError = true then r.readFileToCache C f = none
    else ∃ r', r.readFileToCache C f = some r' ∧ r'.replayed = r.replayed ++ es ∧
      Unread found (f :: files) r' := by
  have hlookup := (h.lookup f mem_cons_self).trans hfound
  have hres : r.readFileToCache C f = if ending.isError then none
      else some { r with log := es.foldl Log.replayEntry r.log, replayed := r.replayed ++ es } := by
    rw [Recovery.readFileToCache, hlookup]
    dsimp only
    rw [hread]
  rw [hres]
  by_cases herror : ending.isError = true
  · rw [if_pos herror, if_pos herror]
  rw [if_neg herror, if_neg herror]
  refine ⟨_, rfl, rfl, h.lookup, ?_⟩
  intro g hg
  show (es.foldl Log.replayEntry r.log).currentSegmentID < g
  rw [(Log.foldl_replayEntry_spec es r.log).2]
  exact h.above g hg

/-- The files that hold all their entries. -/
theorem Unread.readFiles {back : Entry → Entry} : ∀ {segments : List (ℕ × List Entry)} {r : Recovery},
    Unread found (segments.map Prod.fst ++ files) r → (segments.map Prod.fst ++ files).Pairwise (· < ·) →
    (∀ s ∈ segments, found.lookup s.1 = some (s.2.flatMap (entryBytes C))) →
    (∀ s ∈ segments, ∀ e ∈ s.2, ReadsAs C e (back e)) →
    ∃ r', readFiles C cfg (segments.map Prod.fst ++ files) r = readFiles C cfg files r' ∧
      r'.replayed = r.replayed ++ (segments.flatMap Prod.snd).map back ∧ Unread found files r'
  | [], r, h, _, _, _ => ⟨r, rfl, (append_nil _).symm, h⟩
  | (f, es) :: segments, r, h, hasc, hfound, hreads => by
    have hes : List.Forall₂ (ReadsAs C) es (es.map back) :=
      forall₂_map_right_iff.mpr (forall₂_same.mpr (hreads _ mem_cons_self))
    obtain ⟨r₁, hread, hreplayed, h₁⟩ := h.readFileToCache (hfound _ mem_cons_self)
      (readEntries_flatMap hes)
    have h₂ : ∃ r₂, (if r₁.log.memorySize > cfg.maxMemorySizeThreshold then r₁.flush .memory else r₁) = r₂ ∧
        r₂.replayed = r₁.replayed ∧ Unread found (segments.map Prod.fst ++ files) r₂ := by
      split
      · exact ⟨_, rfl, replayed_flush r₁ .memory, h₁.flush hasc .memory⟩
      · exact ⟨_, rfl, rfl, fun g hg => h₁.lookup g (mem_cons_of_mem f hg),
          fun g hg => h₁.above g (mem_cons_of_mem f hg)⟩
    obtain ⟨r₂, hr₂, hreplayed₂, h₂⟩ := h₂
    obtain ⟨r', hfiles, hreplayed', h'⟩ := h₂.readFiles (pairwise_cons.mp hasc).2
      (forall_mem_cons.mp hfound).2 (forall_mem_cons.mp hreads).2
    refine ⟨r', ?_, ?_, h'⟩
    · rw [map_cons, cons_append, Recovery.readFiles, hread]
      show Recovery.readFiles C cfg _ (if _ then _ else _) = _
      rw [hr₂, hfiles]
    · rw [hreplayed', hreplayed₂, hreplayed, flatMap_cons, map_append, append_assoc]

end Recovery

/-! ## The cut -/

/-- The segment files of a log, in the order of their numbers. The last one has only
the first `n` bytes of its entries. -/
structure TornDir (C : EntryCodec) (dir : Dir UInt8) (segments : List (ℕ × List Entry)) (last : ℕ)
    (es : List Entry) (n : ℕ) : Prop where
  names : segmentFileNames dir = segments.map Prod.fst ++ [last]
  numbered : (0 :: (segments.map Prod.fst ++ [last])).Pairwise (· < ·)
  complete : ∀ s ∈ segments, dir.lookup s.1 = some (s.2.flatMap (entryBytes C))
  cut : dir.lookup last = some ((es.flatMap (entryBytes C)).take n)

/-- **A log that is cut off is replayed exactly if no header is cut.** -/
theorem reopen_torn_iff (C : EntryCodec) (cfg : Config) (back : Entry → Entry) (dir : Dir UInt8)
    (segments : List (ℕ × List Entry)) (last : ℕ) (es : List Entry) (n : ℕ)
    (hdir : TornDir C dir segments last es n)
    (hreads : ∀ e ∈ segments.flatMap Prod.snd ++ es, ReadsAs C e (back e)) :
    (∃ r, Recovery.readAndFlushWAL C cfg dir = some r ∧
      r.replayed = (segments.flatMap Prod.snd ++ completeEntries C n es).map back) ↔
      ¬ CutsHeader C n es := by
  have hunread : Recovery.Unread dir (segments.map Prod.fst ++ [last]) ⟨Log.new, dir, [], []⟩ :=
    ⟨fun _ _ => rfl, fun f hf => (pairwise_cons.mp hdir.numbered).1 f hf⟩
  obtain ⟨r, hfiles, hreplayed, hlast⟩ : ∃ r,
      Recovery.readFiles C cfg (segments.map Prod.fst ++ [last]) ⟨Log.new, dir, [], []⟩ =
        Recovery.readFiles C cfg [last] r ∧
      r.replayed = [] ++ (segments.flatMap Prod.snd).map back ∧ Recovery.Unread dir [last] r :=
    hunread.readFiles (pairwise_cons.mp hdir.numbered).2 hdir.complete
      (fun s hs e he => hreads e (mem_append_left _ (mem_flatMap.mpr ⟨s, hs, he⟩)))
  obtain ⟨ending, hread, hend⟩ := readLoop_cut (forall_mem_append.mp hreads).2
    (Nat.lt_succ_of_le (length_completeEntries_le n _))
  have hcut := hlast.readFileToCache hdir.cut hread
  rw [← hend, Recovery.readAndFlushWAL, hdir.names, hfiles, Recovery.readFiles]
  by_cases herror : ending.isError = true
  · rw [if_pos herror] at hcut
    rw [hcut]
    refine ⟨?_, fun h => absurd herror h⟩
    rintro ⟨r', hnone, -⟩
    cases hnone
  · rw [if_neg herror] at hcut
    obtain ⟨r', hr', hreplayed', -⟩ := hcut
    rw [hr']
    refine ⟨fun _ => herror, fun _ => ⟨_, rfl, ?_⟩⟩
    have hmemory : (if r'.log.memorySize > cfg.maxMemorySizeThreshold then r'.flush .memory else r').replayed =
        r'.replayed := by
      split
      · exact r'.replayed_flush .memory
      · rfl
    rw [Recovery.replayed_flush, hmemory, hreplayed', hreplayed, nil_append, map_append]

def tornEntries : List Entry := [.points [intPoint 1 5], .series [[109]]]

def tornDir (n : ℕ) : Dir UInt8 :=
  Dir.writeAt ∅ 1 0 ((tornEntries.flatMap (entryBytes (tableCodec tornEntries))).take n)

theorem tornEntries_readsAs : ∀ e ∈ tornEntries, ReadsAs (tableCodec tornEntries) e e :=
  forall_mem_cons.mpr ⟨⟨by decide, by decide⟩, forall_mem_singleton.mpr ⟨by decide, by decide⟩⟩

theorem torn_tornDir (n : ℕ) : TornDir (tableCodec tornEntries) (tornDir n) [] 1 tornEntries n := by
  refine ⟨rfl, by decide, nofun, ?_⟩
  rw [tornDir, Dir.lookup_writeAt, if_pos rfl]
  simp [Dir.overwrite]

/-- The second payload is cut. -/
theorem reopen_torn_payload : ∃ r, Recovery.readAndFlushWAL (tableCodec tornEntries) ⟨100, 200⟩ (tornDir 11) =
    some r ∧ r.replayed = [.points [intPoint 1 5]] := by
  have hcut : ¬ CutsHeader (tableCodec tornEntries) 11 tornEntries := by
    rw [tornEntries, cutsHeader_cons_of_le (by decide), cutsHeader_cons_of_lt (by decide)]
    decide
  exact (reopen_torn_iff (tableCodec tornEntries) ⟨100, 200⟩ (fun e => e) (tornDir 11) [] 1 tornEntries 11
    (torn_tornDir 11) tornEntries_readsAs).mpr hcut

/-- **A log that does not open**: of the second entry three bytes are left, and the
first one is not replayed. -/
theorem reopen_torn_header : TornDir (tableCodec tornEntries) (tornDir 9) [] 1 tornEntries 9 ∧
      completeEntries (tableCodec tornEntries) 9 tornEntries = [.points [intPoint 1 5]] ∧
      (Recovery.readAndFlushWAL (tableCodec tornEntries) ⟨100, 200⟩ (tornDir 9)).isNone = true :=
  ⟨torn_tornDir 9, by decide, by decide⟩

end AndyEnv.Tsm1.Wal
