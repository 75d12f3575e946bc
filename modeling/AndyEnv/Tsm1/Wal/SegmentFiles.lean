import AndyEnv.Tsm1.Wal.System

/-!
# The segment files of an open log

What the writes, rotations and removals of a log do to its directory. While
the log is open each file holds exactly the entries that were logged to it, and
the next entry goes to the end of the newest one (`OpenedInv`).
-/

namespace AndyEnv.Tsm1.Wal

open List

/-! ## Files -/

theorem mem_segmentFileNames {dir : Dir UInt8} {id : ℕ} :
    id ∈ segmentFileNames dir ↔ (dir.lookup id).isSome = true := by
  rw [segmentFileNames, (perm_insertionSort _ _).mem_iff, AList.lookup_isSome]
  rfl

theorem lookup_removeSegments (dir : Dir UInt8) (last id : ℕ) :
    (dir.removeUpTo last (segmentFileNames dir)).lookup id =
      if id ≤ last then none else dir.lookup id := by
  rw [Dir.lookup_removeUpTo]
  by_cases hle : id ≤ last
  · rw [if_pos hle]
    split
    · rfl
    rename_i hnot
    cases hlook : dir.lookup id with
    | none => rfl
    | some content =>
      exact absurd ⟨mem_segmentFileNames.mpr (by rw [hlook]; rfl), hle⟩ hnot
  · rw [if_neg hle, if_neg (fun hc => hle hc.2)]

section

variable (l : Log) (dir : Dir UInt8) (type : FlushType)

/-- **The rotation** keeps the files, and adds an empty one at most. -/
theorem Log.lookup_rotate (id : ℕ) : (l.rotate dir type).2.lookup id = dir.lookup id ∨
      dir.lookup id = none ∧ (l.rotate dir type).2.lookup id = some [] ∧
        id = l.currentSegmentID + 1 := by
  have hnew : (dir.create (l.currentSegmentID + 1)).lookup id = dir.lookup id ∨
      dir.lookup id = none ∧ (dir.create (l.currentSegmentID + 1)).lookup id = some [] ∧
        id = l.currentSegmentID + 1 := by
    rw [Dir.lookup_create]
    by_cases hid : id = l.currentSegmentID + 1
    · subst hid
      rw [if_pos rfl]
      cases hlook : dir.lookup (l.currentSegmentID + 1) with
      | none => exact .inr ⟨rfl, rfl, rfl⟩
      | some content => exact .inl rfl
    · rw [if_neg hid]
      exact .inl rfl
  cases type with
  | memory | startup => exact hnew
  | idle =>
    unfold Log.rotate
    dsimp only
    split <;> exact .inl rfl

theorem Log.rotate_file : (l.rotate dir type).1.currentSegmentFile = none ∧
        (l.rotate dir type).1.currentSegmentID = l.currentSegmentID ∨
      (l.rotate dir type).1.currentSegmentFile = some ⟨l.currentSegmentID + 1, 0⟩ ∧
        (l.rotate dir type).1.currentSegmentID = l.currentSegmentID + 1 ∧
        ((l.rotate dir type).2.lookup (l.currentSegmentID + 1)).isSome = true := by
  have hnew : ((dir.create (l.currentSegmentID + 1)).lookup (l.currentSegmentID + 1)).isSome =
      true := by
    rw [Dir.lookup_create, if_pos rfl]
    rfl
  cases type with
  | memory | startup => exact .inr ⟨rfl, rfl, hnew⟩
  | idle =>
    unfold Log.rotate
    dsimp only
    split
    · rename_i hnone
      exact .inl ⟨hnone, rfl⟩
    · exact .inl ⟨rfl, rfl⟩

end

theorem lookup_of_removeSegments {dir : Dir UInt8} {last id : ℕ} {content : Bytes}
    (h : (dir.removeUpTo last (segmentFileNames dir)).lookup id = some content) :
    last < id ∧ dir.lookup id = some content := by
  rw [lookup_removeSegments] at h
  split at h
  · cases h
  · rename_i hlt
    exact ⟨Nat.lt_of_not_le hlt, h⟩

/-! ## Entries in files -/

section Recorded

variable {C : EntryCodec}

def recordedBytes (C : EntryCodec) (records : List Record) (id : ℕ) : Bytes :=
  (records.filter (fun r => r.segment = id)).flatMap (fun r => entryBytes C r.entry)

theorem recordedBytes_concat (records : List Record) (r : Record) (id : ℕ) :
    recordedBytes C (records ++ [r]) id =
      recordedBytes C records id ++ if r.segment = id then entryBytes C r.entry else [] := by
  rw [recordedBytes, filter_append, flatMap_append]
  by_cases h : r.segment = id
  · simp [h, recordedBytes]
  · simp [h, recordedBytes]

variable {records : List Record} {id : ℕ}

theorem recordedBytes_filter {last : ℕ} (h : last < id) :
    recordedBytes C (records.filter (fun r => last < r.segment)) id =
      recordedBytes C records id := by
  rw [recordedBytes, filter_filter, recordedBytes]
  congr 1
  refine filter_congr (fun r _ => ?_)
  by_cases hr : r.segment = id
  · simp [hr, h]
  · simp [hr]

theorem recordedBytes_eq_nil
    (h : ∀ r ∈ records, r.segment ≠ id) : recordedBytes C records id = [] := by
  rw [recordedBytes, filter_eq_nil_iff.mpr (fun r hr => by simpa using h r hr)]
  rfl

end Recorded

/-! ## The invariant -/

/-- Every file holds the entries logged to it, and the next write goes to the end of the current
file or to a new one. -/
structure OpenedInv (C : EntryCodec) (s : State) (l : Log) : Prop where
  fileCurrent : l.FileCurrent
  exact_eq : ∀ id content, s.dir.lookup id = some content → content = recordedBytes C s.recorded id
  le : ∀ id content, s.dir.lookup id = some content → content ≠ [] → id ≤ l.currentSegmentID
  handle : ∀ h ∈ l.currentSegmentFile, ∃ content, s.dir.lookup h.id = some content ∧
    h.offset = content.length
  flush : ∀ fl ∈ s.flush, fl.lastFileID < l.currentSegmentID ∨
    fl.lastFileID = l.currentSegmentID ∧ l.currentSegmentFile = none

section Steps

variable {C : EntryCodec} {s s' : State} {l : Log}

theorem forall_flush_of_none {P : Flush → Prop} (h : s.flush = none) : ∀ fl ∈ s.flush, P fl := by
  intro fl hfl
  rw [h] at hfl
  cases hfl

section

variable (h : OpenedInv C s l)
include h

/-- **The file of the next write** is there, and the write goes to its
end. -/
theorem OpenedInv.segmentFile : (l.segmentFile s.dir).2.2.offset =
        ((s.dir.lookup (l.segmentFile s.dir).2.2.id).getD []).length ∧
      ∀ j, (l.segmentFile s.dir).2.1.lookup j = if j = (l.segmentFile s.dir).2.2.id then
          some ((s.dir.lookup (l.segmentFile s.dir).2.2.id).getD [])
        else s.dir.lookup j := by
  obtain ⟨-, ⟨f, hfile, heq⟩ | heq⟩ := Log.segmentFile_spec l s.dir
  · rw [heq]
    obtain ⟨content, hcontent, hoffset⟩ := h.handle f hfile
    refine ⟨by rw [hcontent]; exact hoffset, fun j => ?_⟩
    split
    · rename_i hj
      rw [hj, hcontent]
      rfl
    · rfl
  · rw [heq, Log.newSegmentFile]
    -- the file of the next number, if it is there, has no bytes
    have hnil : (s.dir.lookup (l.currentSegmentID + 1)).getD [] = [] := by
      cases hlook : s.dir.lookup (l.currentSegmentID + 1) with
      | none => rfl
      | some content =>
        by_contra hne
        have := h.le _ content hlook hne
        omega
    exact ⟨by rw [hnil]; rfl, fun j => Dir.lookup_create _ _ _⟩

theorem OpenedInv.lookup_writeToLog (data : Bytes) (j : ℕ) :
    (l.writeToLog s.dir data).2.1.lookup j = if j = (l.writeToLog s.dir data).2.2 then
        some ((s.dir.lookup (l.writeToLog s.dir data).2.2).getD [] ++ data)
      else s.dir.lookup j := by
  obtain ⟨hoffset, hlookup⟩ := h.segmentFile
  rw [Log.writeToLog_eq]
  dsimp only
  rw [Dir.lookup_writeAt, hlookup, if_pos rfl, Option.getD_some, hoffset, Dir.overwrite_length,
    hlookup]
  split <;> rfl

theorem OpenedInv.of_sameFiles {l' : Log} (hid : l'.currentSegmentID = l.currentSegmentID)
    (hfile : l'.currentSegmentFile = l.currentSegmentFile) (hdir : s'.dir = s.dir)
    (hrec : s'.recorded = s.recorded) (hflush : ∀ fl ∈ s'.flush, ∃ fl₀ ∈ s.flush,
      fl.lastFileID = fl₀.lastFileID) : OpenedInv C s' l' where
  fileCurrent f hf := hid ▸ h.fileCurrent f (hfile ▸ hf)
  exact_eq := by rw [hdir, hrec]; exact h.exact_eq
  le := by rw [hdir, hid]; exact h.le
  handle := by rw [hdir, hfile]; exact h.handle
  flush fl hfl := by
    obtain ⟨fl₀, hfl₀, heq⟩ := hflush fl hfl
    rw [hid, hfile, heq]
    exact h.flush fl₀ hfl₀

/-- The flush of an open log removes older files than the current one. -/
theorem OpenedInv.removeSegments {l' : Log} {fl : Flush}
    (hfl : s.flush = some fl) (hid : l'.currentSegmentID = l.currentSegmentID)
    (hfile : l'.currentSegmentFile = l.currentSegmentFile)
    (hdir : s'.dir = s.dir.removeUpTo fl.lastFileID (segmentFileNames s.dir))
    (hrec : s'.recorded = s.recorded.filter (fun r => fl.lastFileID < r.segment))
    (hflush : s'.flush = none) : OpenedInv C s' l' := by
  have hkept : ∀ id content, s'.dir.lookup id = some content →
      fl.lastFileID < id ∧ s.dir.lookup id = some content :=
    fun id content hc => lookup_of_removeSegments (hdir ▸ hc)
  constructor
  · intro f hf
    rw [hid]
    exact h.fileCurrent f (hfile ▸ hf)
  · intro id content hc
    obtain ⟨hlt, hold⟩ := hkept id content hc
    rw [hrec, recordedBytes_filter hlt]
    exact h.exact_eq id content hold
  · intro id content hc hne
    rw [hid]
    exact h.le id content (hkept id content hc).2 hne
  · intro f hf
    rw [hfile] at hf
    obtain ⟨content, hc, hoffset⟩ := h.handle f hf
    refine ⟨content, ?_, hoffset⟩
    have hlt : fl.lastFileID < f.id := by
      rw [h.fileCurrent f hf]
      rcases h.flush fl hfl with hlt | ⟨-, hnone⟩
      · exact hlt
      · rw [hnone] at hf
        cases hf
    rw [hdir, lookup_removeSegments, if_neg (not_le.mpr hlt)]
    exact hc
  · exact forall_flush_of_none hflush

end

/-- A flush has begun, in the state `s` with the log `l`. -/
structure Rotated (type : FlushType) (s : State) (l : Log) (s' : State) (l' : Log) : Prop where
  dir : s'.dir = (l.rotate s.dir type).2
  recorded : s'.recorded = s.recorded
  id : l'.currentSegmentID = (l.rotate s.dir type).1.currentSegmentID
  file : l'.currentSegmentFile = (l.rotate s.dir type).1.currentSegmentFile
  size : l'.memorySize = 0
  flushRequested : s'.flushRequested = false
  flush : ∀ fl ∈ s'.flush, fl.lastFileID = l.currentSegmentID ∧ fl.type = type
  startup : type = .startup → s'.flush.isSome = true

section

variable (h : OpenedInv C s l) (hpresent : ∀ r ∈ s.recorded, (s.dir.lookup r.segment).isSome = true)
include h hpresent

theorem OpenedInv.getD_lookup (id : ℕ) :
    (s.dir.lookup id).getD [] = recordedBytes C s.recorded id := by
  cases hlook : s.dir.lookup id with
  | some content => exact h.exact_eq id content hlook
  | none =>
    refine (recordedBytes_eq_nil (fun r hr heq => ?_)).symm
    have := hpresent r hr
    rw [heq, hlook] at this
    cases this

theorem OpenedInv.present_logEntry {data : Bytes} {e : Entry} {start : ℕ} {r : Record}
    (hr : r ∈ s.recorded ++ [⟨(l.writeToLog s.dir data).2.2, e, start⟩]) :
    ((l.writeToLog s.dir data).2.1.lookup r.segment).isSome = true := by
  rw [h.lookup_writeToLog]
  split
  · rfl
  rename_i hne
  rcases mem_append.mp hr with hr | hr
  · exact hpresent r hr
  · rw [mem_singleton.mp hr] at hne
    exact absurd rfl hne

/-- **An entry is logged.** -/
theorem OpenedInv.logEntry (e : Entry) (start : ℕ) (calls : List Call) : OpenedInv C { s with
        log := some (l.writeToLog s.dir (entryBytes C e)).1
        dir := (l.writeToLog s.dir (entryBytes C e)).2.1
        recorded := s.recorded ++ [⟨(l.writeToLog s.dir (entryBytes C e)).2.2, e, start⟩]
        calls := calls }
      (l.writeToLog s.dir (entryBytes C e)).1 := by
  obtain ⟨-, hcurrent, hid, hseg, hnone⟩ := Log.writeToLog_spec h.fileCurrent s.dir (entryBytes C e)
  have hlookup := h.lookup_writeToLog (entryBytes C e)
  constructor
  · exact hcurrent
  · intro id content hc
    dsimp only at hc ⊢
    rw [hlookup] at hc
    rw [recordedBytes_concat]
    split at hc
    · rename_i heq
      rw [heq, if_pos rfl, ← h.getD_lookup hpresent]
      exact (Option.some.inj hc).symm
    · rename_i hne
      rw [if_neg (fun heq => hne heq.symm), append_nil]
      exact h.exact_eq id content hc
  · intro id content hc hne
    dsimp only at hc
    rw [hlookup] at hc
    split at hc
    · rename_i heq
      exact (heq.trans hseg).le
    · exact (h.le id content hc hne).trans hid
  · intro f hf
    rw [Log.writeToLog_eq] at hf
    dsimp only at hf
    rw [h.segmentFile.1, ← length_append] at hf
    cases hf
    exact ⟨_, (hlookup _).trans (if_pos rfl), rfl⟩
  · intro fl hfl
    refine .inl ?_
    rcases h.flush fl hfl with hlt | ⟨heq, hfile⟩
    · exact hlt.trans_le hid
    · rw [← hseg, hnone hfile, heq]
      exact Nat.lt_succ_self _

theorem OpenedInv.rotate {l' : Log} {type : FlushType}
    (hrot : Rotated type s l s' l') : OpenedInv C s' l' := by
  obtain ⟨hdir, hrec, hid, hfile, -, -, hflush, -⟩ := hrot
  obtain ⟨-, hle, hnew⟩ := Log.rotate_spec l s.dir type
  have hcontent : ∀ id content, s'.dir.lookup id = some content →
      (s.dir.lookup id).getD [] = content := by
    intro id content hc
    rw [hdir] at hc
    rcases l.lookup_rotate s.dir type id with h | ⟨h, h', -⟩
    · rw [← h, hc]
      rfl
    · rw [h, Option.some.inj (hc.symm.trans h')]
      rfl
  have hbytes : ∀ id content, s'.dir.lookup id = some content → content ≠ [] →
      id ≤ l.currentSegmentID := by
    intro id content hc hne
    have hold := hcontent id content hc
    refine h.le id content ?_ hne
    cases hlook : s.dir.lookup id with
    | none =>
      rw [hlook] at hold
      exact absurd hold.symm hne
    | some x =>
      rw [hlook] at hold
      rw [← hold, Option.getD_some]
  constructor
  · intro f hf
    rw [hfile] at hf
    rw [hid, (hnew f hf).2, (hnew f hf).1]
  · intro id content hc
    rw [hrec, ← h.getD_lookup hpresent, hcontent id content hc]
  · intro id content hc hne
    rw [hid]
    exact (hbytes id content hc hne).trans hle
  · intro f hf
    rw [hfile] at hf
    rcases Log.rotate_file l s.dir type with ⟨hnone, -⟩ | ⟨hsome, -, hlook⟩
    · rw [hnone] at hf
      cases hf
    obtain rfl := Option.some.inj (hsome.symm.trans hf)
    rw [← hdir] at hlook
    obtain ⟨content, hc⟩ := Option.isSome_iff_exists.mp hlook
    refine ⟨content, hc, ?_⟩
    by_cases hne : content = []
    · rw [hne]
      rfl
    · have := hbytes _ content hc hne
      omega
  · intro fl hfl
    rw [(hflush fl hfl).1, hid, hfile]
    rcases Log.rotate_file l s.dir type with ⟨hnone, heq⟩ | ⟨-, heq, -⟩
    · exact .inr ⟨heq.symm, hnone⟩
    · exact .inl (heq ▸ Nat.lt_succ_self _)

end

end Steps

end AndyEnv.Tsm1.Wal
