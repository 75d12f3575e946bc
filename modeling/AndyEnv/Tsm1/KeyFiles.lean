import AndyEnv.Lib.Run
import AndyEnv.Tsm1.KeyIDs

/-!
# The ids file and the collisions file

A flush replaces the ids file and then, if a key's hash was taken, the
collisions file; each is written under a temporary name and renamed. The
process may crash between any two of these steps. Readers know the collisions
alone: `keyToID` takes a key's id from them, or else its hash.
-/

namespace AndyEnv.Tsm1

open List

/-! ## The files -/

/-- A file that was created but not written does not decode. -/
inductive MetaFile where
  | absent
  | broken
  | map (m : KeyMap)

/-- `readCompressedFile` and `json.Unmarshal`; `none` is an error. -/
def MetaFile.read : MetaFile → Option KeyMap
  | absent => some ∅
  | broken => none
  | map m => some (throughJSON m)

def MetaFile.isAbsent : MetaFile → Bool
  | absent => true
  | _ => false

/-- A file and the one under its temporary name. -/
structure MetaPair where
  file : MetaFile
  tmp : MetaFile

/-- `cleanupMetafile`, and whether it returns: if there are both files, the
temporary one is removed and the rename that follows panics. -/
def MetaPair.cleanup (p : MetaPair) : MetaPair × Bool :=
  match p.tmp, p.file with
  | .absent, _ => (p, true)
  | _, .absent => (⟨p.tmp, .absent⟩, true)
  | _, _ => (⟨p.file, .absent⟩, false)

/-! ## The engine -/

inductive FlushPhase where
  | createIDs
  | writeIDs
  | renameIDs
  | saveCollisions
  | createCollisions
  | writeCollisions
  | renameCollisions
  | writeBlocks
  deriving DecidableEq

/-- The two files, `e.collisions` if the engine is open, and the flush that is
running. `used` and `stored` note the ids of the blocks and of the ids files of
the past. -/
structure KeyFiles where
  ids : MetaPair
  collisions : MetaPair
  memory : Option KeyMap
  flush : Option (FlushPhase × KeyIDs)
  used : List (Bytes × UInt64)
  stored : List (Bytes × UInt64)

inductive KeyFilesLabel where
  | openEngine
  | flush (pointsByKey : List (Bytes × Values))
  | advance
  | crash

def keyToID (hash : Bytes → UInt64) (collisions : KeyMap) (key : Bytes) : UInt64 :=
  (collisions.lookup key).getD (hash key)

namespace KeyFiles

variable {s : KeyFiles} {m : KeyMap}

def init : KeyFiles := ⟨⟨.absent, .absent⟩, ⟨.absent, .absent⟩, none, none, [], []⟩

def setIDs (s : KeyFiles) (ids : MetaPair) : KeyFiles :=
  { s with
    ids := ids
    stored := (ids.file.read.elim [] (fun m => m.entries.map (fun e => (e.1, e.2)))) ++ s.stored }

def advance (s : KeyFiles) (st : KeyIDs) : FlushPhase → KeyFiles
  | .createIDs => { s with ids := ⟨s.ids.file, .broken⟩, flush := some (.writeIDs, st) }
  | .writeIDs => { s with ids := ⟨s.ids.file, .map st.ids⟩, flush := some (.renameIDs, st) }
  | .renameIDs =>
    { s.setIDs ⟨s.ids.tmp, .absent⟩ with
      flush := some (if st.collisions.entries = [] then .writeBlocks else .saveCollisions, st) }
  | .saveCollisions =>
    { s with memory := s.memory.map (st.collisions ∪ ·), flush := some (.createCollisions, st) }
  | .createCollisions =>
    { s with collisions := ⟨s.collisions.file, .broken⟩, flush := some (.writeCollisions, st) }
  | .writeCollisions =>
    { s with collisions := ⟨s.collisions.file, s.memory.elim .broken .map⟩, flush := some (.renameCollisions, st) }
  | .renameCollisions =>
    { s with collisions := ⟨s.collisions.tmp, .absent⟩, flush := some (.writeBlocks, st) }
  | .writeBlocks => { s with used := st.assigned ++ s.used, flush := none }

def step (hash : Bytes → UInt64) (s : KeyFiles) : KeyFilesLabel → Option KeyFiles
  | .openEngine =>
    match s.memory with
    | some _ => none
    | none =>
      let ids := s.ids.cleanup
      let s := s.setIDs ids.1
      if ids.2 = false then some s
      else
        let collisions := s.collisions.cleanup
        let s := { s with collisions := collisions.1 }
        if collisions.2 = false then some s
        -- an error if the collisions cannot be read
        else some { s with memory := collisions.1.file.read }
  | .flush pointsByKey =>
    match s.memory, s.flush with
    | some _, none =>
      match s.ids.file.read with
      | none => some s
      | some m =>
        (convertKeys hash m pointsByKey).map (fun st =>
          { s with flush := some (if st.newKeys then .createIDs else .writeBlocks, st) })
    | _, _ => none
  | .advance => s.flush.map (fun f => s.advance f.2 f.1)
  | .crash => some { s with memory := none, flush := none }

def system (hash : Bytes → UInt64) : System KeyFiles KeyFilesLabel :=
  ⟨fun s => s = init, fun s l s' => s.step hash l = some s'⟩

/-- One key has one id and one id has one key in all blocks written, and the
id is the one that was stored for the key. -/
def NoClash (s : KeyFiles) : Prop :=
  (∀ p ∈ s.used, ∀ q ∈ s.used, p.1 = q.1 ↔ p.2 = q.2) ∧ ∀ p ∈ s.stored, ∀ q ∈ s.used, p.1 = q.1 → p.2 = q.2

def ValidBatch (_ : KeyFiles) : KeyFilesLabel → Prop
  | .flush pointsByKey => ∀ p ∈ pointsByKey, ValidKey p.1
  | _ => True

instance (s : KeyFiles) : ∀ l, Decidable (s.ValidBatch l)
  | .flush pointsByKey => inferInstanceAs (Decidable (∀ p ∈ pointsByKey, ValidKey p.1))
  | .openEngine | .advance | .crash => isTrue trivial

/-! ## The ids never clash -/

def HasAll (m : KeyMap) (ps : List (Bytes × UInt64)) : Prop := ∀ p ∈ ps, m.lookup p.1 = some p.2

/-- A map in which no two keys have one id and which is read back as it was written. -/
structure Sound (m : KeyMap) : Prop where
  injective : Injective m
  valid : ∀ k ∈ m, ValidKey k

theorem Sound.lookup (h : Sound m) (k : Bytes) : (throughJSON m).lookup k = m.lookup k :=
  lookup_throughJSON h.valid k

theorem Sound.throughJSON (h : Sound m) : Sound (throughJSON m) where
  injective k k' i hk hk' := h.injective k k' i (h.lookup k ▸ hk) (h.lookup k' ▸ hk')
  valid k hk := by
    rw [← AList.lookup_isSome, h.lookup, AList.lookup_isSome] at hk
    exact h.valid k hk

theorem sound_empty : Sound ∅ where
  injective _ _ _ hk := (nomatch hk)
  valid _ hk := (nomatch hk)

def FlushInv (s : KeyFiles) (st : KeyIDs) : FlushPhase → Prop
  | .createIDs | .writeIDs => Sound st.ids ∧ HasAll st.ids s.stored ∧ HasAll st.ids st.assigned
  | .renameIDs => Sound st.ids ∧ HasAll st.ids s.stored ∧ HasAll st.ids st.assigned ∧ s.ids.tmp = .map st.ids
  | _ => ∀ p ∈ st.assigned, p ∈ s.stored

structure Inv (s : KeyFiles) : Prop where
  /-- The ids file has everything that was ever stored. -/
  file : ∀ m, s.ids.file = .map m → Sound m ∧ ∀ k i, m.lookup k = some i ↔ (k, i) ∈ s.stored
  nofile : (∀ m, s.ids.file ≠ .map m) → s.stored = []
  tmp : ∀ m, s.ids.tmp = .map m → Sound m ∧ HasAll m s.stored
  flush : ∀ f ∈ s.flush, s.FlushInv f.2 f.1
  used : ∀ p ∈ s.used, p ∈ s.stored
  down : s.memory = none → s.flush = none

theorem inv_init : Inv init where
  file _ h := (nomatch h)
  nofile _ := rfl
  tmp _ h := (nomatch h)
  flush _ h := (nomatch h)
  used _ h := (nomatch h)
  down _ := rfl

theorem Inv.noClash (h : Inv s) : s.NoClash := by
  by_cases hmap : ∃ m, s.ids.file = .map m
  · obtain ⟨m, hm⟩ := hmap
    obtain ⟨hsound, hiff⟩ := h.file m hm
    have hlookup : ∀ p ∈ s.stored, m.lookup p.1 = some p.2 := fun p hp => (hiff p.1 p.2).mpr hp
    have hfun : ∀ p ∈ s.stored, ∀ q ∈ s.stored, p.1 = q.1 → p.2 = q.2 := by
      intro p hp q hq heq
      have hpq := hlookup p hp
      rw [heq, hlookup q hq] at hpq
      exact (Option.some.inj hpq).symm
    refine ⟨fun p hp q hq => ⟨hfun p (h.used p hp) q (h.used q hq), fun heq => ?_⟩,
      fun p hp q hq => hfun p hp q (h.used q hq)⟩
    exact hsound.injective p.1 q.1 p.2 (hlookup p (h.used p hp)) (heq ▸ hlookup q (h.used q hq))
  · have hnil := h.nofile (fun m hm => hmap ⟨m, hm⟩)
    have hused : ∀ p, p ∉ s.used := fun p hp => (nomatch hnil ▸ h.used p hp)
    exact ⟨fun p hp => absurd hp (hused p), fun _ _ q hq => absurd hq (hused q)⟩

theorem mem_setIDs {ids : MetaPair} (hfile : ids.file = .map m) (hsound : Sound m)
    (k : Bytes) (i : UInt64) :
    (k, i) ∈ (s.setIDs ids).stored ↔ m.lookup k = some i ∨ (k, i) ∈ s.stored := by
  show (k, i) ∈ ids.file.read.elim [] _ ++ s.stored ↔ _
  rw [hfile, mem_append]
  refine or_congr_left ?_
  rw [← hsound.lookup]
  refine Iff.trans ?_ AList.mem_lookup_iff.symm
  show (k, i) ∈ (throughJSON m).entries.map (fun e => (e.1, e.2)) ↔ _
  rw [mem_map]
  constructor
  · rintro ⟨e, he, heq⟩
    cases heq
    exact he
  · intro he
    exact ⟨⟨k, i⟩, he, rfl⟩

theorem stored_subset_setIDs (s : KeyFiles) (ids : MetaPair) : ∀ p ∈ s.stored, p ∈ (s.setIDs ids).stored :=
  fun _ hp => mem_append_right _ hp

/-- The ids file is replaced by one that has all of the stored pairs. -/
theorem Inv.setIDs (h : Inv s) {file : MetaFile} (hmap : ∀ m, file = .map m → Sound m ∧ HasAll m s.stored)
    (hnone : (∀ m, file ≠ .map m) → s.stored = []) {flush : Option (FlushPhase × KeyIDs)}
    (hdown : s.memory = none → flush = none)
    (hflush : ∀ f ∈ flush, ({ s.setIDs ⟨file, .absent⟩ with flush := flush } : KeyFiles).FlushInv f.2 f.1) :
    Inv { s.setIDs ⟨file, .absent⟩ with flush := flush } := by
  refine ⟨?_, ?_, fun _ hm => (nomatch hm), hflush, fun p hp => s.stored_subset_setIDs _ p (h.used p hp), hdown⟩
  · intro m hm
    obtain ⟨hsound, hall⟩ := hmap m hm
    refine ⟨hsound, fun k i => ?_⟩
    refine Iff.trans ?_ (mem_setIDs hm hsound k i).symm
    exact ⟨.inl, fun hor => hor.elim id (hall (k, i))⟩
  · intro hno
    show file.read.elim [] _ ++ s.stored = []
    rw [hnone hno, append_nil]
    cases file with
    | absent => rfl
    | broken => rfl
    | map m => exact absurd rfl (hno m)

/-- `Open` looks only at what the two files hold; with the temporary file in
place of a missing one, nothing that was stored is lost. -/
theorem Inv.cleanup (h : Inv s) (hflush : s.flush = none) : Inv (s.setIDs s.ids.cleanup.1) := by
  have hsame : (∀ m, s.ids.file = .map m → Sound m ∧ HasAll m s.stored) :=
    fun m hm => ⟨(h.file m hm).1, fun p hp => ((h.file m hm).2 p.1 p.2).mpr hp⟩
  have hnoflush : ∀ f ∈ s.flush, ∀ t : KeyFiles, t.FlushInv f.2 f.1 := fun f hf => by
    rw [hflush] at hf
    cases hf
  have htmp : s.ids.file = .absent → Inv (s.setIDs ⟨s.ids.tmp, .absent⟩) := by
    intro habsent
    have hnil := h.nofile (fun m hm => (nomatch habsent ▸ hm))
    exact h.setIDs h.tmp (fun _ => hnil) h.down (fun f hf => hnoflush f hf _)
  have hfile : Inv (s.setIDs ⟨s.ids.file, .absent⟩) := h.setIDs hsame h.nofile h.down (fun f hf => hnoflush f hf _)
  unfold MetaPair.cleanup
  split
  · rename_i habsent
    have heq : s.ids = ⟨s.ids.file, .absent⟩ := by rw [← habsent]
    rw [heq]
    exact hfile
  · exact htmp ‹_›
  · exact hfile

theorem Inv.lookup_read (h : Inv s) (hread : s.ids.file.read = some m) :
    Sound m ∧ ∀ k i, m.lookup k = some i ↔ (k, i) ∈ s.stored := by
  cases hfile : s.ids.file with
  | absent =>
    rw [hfile] at hread
    cases hread
    rw [h.nofile (fun m hm => (nomatch hfile ▸ hm))]
    exact ⟨sound_empty, fun k i => iff_of_false (fun hk => (nomatch hk)) (fun hk => (nomatch hk))⟩
  | broken =>
    rw [hfile] at hread
    cases hread
  | map m' =>
    rw [hfile] at hread
    cases hread
    obtain ⟨hsound, hiff⟩ := h.file m' hfile
    exact ⟨hsound.throughJSON, fun k i => by rw [hsound.lookup, hiff]⟩

variable {hash : Bytes → UInt64} {st : KeyIDs}

/-- The ids of a batch, from a file that has all that was stored. -/
theorem Inv.beginFlush (h : Inv s) (hup : s.memory ≠ none)
    (hread : s.ids.file.read = some m) {pointsByKey : List (Bytes × Values)}
    (hvalid : ∀ p ∈ pointsByKey, ValidKey p.1) (hst : convertKeys hash m pointsByKey = some st) :
    Inv { s with flush := some (if st.newKeys then .createIDs else .writeBlocks, st) } := by
  obtain ⟨hsound, hiff⟩ := h.lookup_read hread
  have hinv := convertKeys_inv hsound.injective hst
  have hsound' : Sound st.ids := by
    refine ⟨hinv.injective, fun k hk => ?_⟩
    obtain ⟨i, hi⟩ := Option.isSome_iff_exists.mp (AList.lookup_isSome.mpr hk)
    rcases hinv.new k i hi with hold | ⟨hmem, -⟩
    · exact hsound.valid k (AList.lookup_isSome.mp (by rw [hold]; rfl))
    · obtain ⟨p, hp, rfl⟩ := mem_map.mp hmem
      exact hvalid p hp
  refine ⟨h.file, h.nofile, h.tmp, ?_, h.used, fun hdown => absurd hdown hup⟩
  intro f hf
  cases hf
  cases hnew : st.newKeys with
  | true => exact ⟨hsound', fun p hp => (hinv.kept p.1 p.2 ((hiff p.1 p.2).mpr hp)).1, hinv.assigned⟩
  | false =>
    intro p hp
    have hids := hinv.assigned p hp
    rw [(hinv.unchanged hnew).1] at hids
    exact (hiff p.1 p.2).mp hids

theorem Inv.advance (h : Inv s) {phase : FlushPhase} (hf : s.flush = some (phase, st)) :
    Inv (s.advance st phase) := by
  have hphase : s.FlushInv st phase := h.flush (phase, st) hf
  have hup : s.memory ≠ none := by
    intro hdown
    rw [h.down hdown] at hf
    cases hf
  -- in the later phases the pairs of the batch are stored, and the ids file stays
  have hlater : ∀ (phase' : FlushPhase) (collisions : MetaPair) (memory : Option KeyMap),
      memory ≠ none → (∀ p ∈ st.assigned, p ∈ s.stored) →
      (∀ t : KeyFiles, t.FlushInv st phase' ↔ ∀ p ∈ st.assigned, p ∈ t.stored) →
      Inv { s with collisions := collisions, memory := memory, flush := some (phase', st) } := by
    intro phase' collisions memory hmem hall hiff
    refine ⟨h.file, h.nofile, h.tmp, fun f hf => ?_, h.used, fun hdown => absurd hdown hmem⟩
    cases hf
    exact (hiff _).mpr hall
  cases phase with
  | createIDs =>
    refine ⟨h.file, h.nofile, fun _ hm => (nomatch hm), fun f hf => ?_, h.used, fun hdown => absurd hdown hup⟩
    cases hf
    exact hphase
  | writeIDs =>
    obtain ⟨hsound, hall, hassigned⟩ := hphase
    refine ⟨h.file, h.nofile, fun m hm => ?_, fun f hf => ?_, h.used, fun hdown => absurd hdown hup⟩
    · cases hm
      exact ⟨hsound, hall⟩
    · cases hf
      exact ⟨hsound, hall, hassigned, rfl⟩
  | renameIDs =>
    obtain ⟨hsound, hall, hassigned, htmp⟩ := hphase
    refine h.setIDs (fun m hm => ?_) (fun hno => absurd htmp (hno st.ids))
      (fun hdown => absurd hdown hup) (fun f hf => ?_)
    · rw [htmp] at hm
      cases hm
      exact ⟨hsound, hall⟩
    · cases hf
      have hstored : ∀ p ∈ st.assigned, p ∈ (s.setIDs ⟨s.ids.tmp, .absent⟩).stored :=
        fun p hp => (mem_setIDs htmp hsound p.1 p.2).mpr (.inl (hassigned p hp))
      dsimp only
      split
      · exact hstored
      · exact hstored
  | saveCollisions => exact hlater .createCollisions s.collisions _ (by simpa using hup) hphase (fun _ => Iff.rfl)
  | createCollisions => exact hlater .writeCollisions _ s.memory hup hphase (fun _ => Iff.rfl)
  | writeCollisions => exact hlater .renameCollisions _ s.memory hup hphase (fun _ => Iff.rfl)
  | renameCollisions => exact hlater .writeBlocks _ s.memory hup hphase (fun _ => Iff.rfl)
  | writeBlocks =>
    refine ⟨h.file, h.nofile, h.tmp, fun f hf => (nomatch hf), fun p hp => ?_, fun _ => rfl⟩
    exact (mem_append.mp hp).elim (hphase p) (h.used p)

theorem Inv.step {s' : KeyFiles} {l : KeyFilesLabel} (h : Inv s) (hok : s.ValidBatch l)
    (hs : s.step hash l = some s') : Inv s' := by
  cases l with
  | openEngine =>
    simp only [KeyFiles.step] at hs
    split at hs
    · cases hs
    rename_i hdown
    have hinv := h.cleanup (h.down hdown)
    split at hs
    · cases hs
      exact hinv
    split at hs
    · cases hs
      exact ⟨hinv.file, hinv.nofile, hinv.tmp, hinv.flush, hinv.used, hinv.down⟩
    · cases hs
      exact ⟨hinv.file, hinv.nofile, hinv.tmp, hinv.flush, hinv.used, fun _ => h.down hdown⟩
  | flush pointsByKey =>
    simp only [KeyFiles.step] at hs
    split at hs
    · rename_i mem hmem hnone
      split at hs
      · cases hs
        exact h
      · rename_i m hread
        obtain ⟨st, hst, rfl⟩ := Option.map_eq_some_iff.mp hs
        exact h.beginFlush (by rw [hmem]; exact Option.some_ne_none _) hread hok hst
    · cases hs
  | advance =>
    obtain ⟨⟨phase, st⟩, hf, rfl⟩ := Option.map_eq_some_iff.mp hs
    exact h.advance hf
  | crash =>
    cases hs
    exact ⟨h.file, h.nofile, h.tmp, fun f hf => (nomatch hf), h.used, fun _ => rfl⟩

/-- **The ids of series and fields never clash**, for every hash function, in
every run with crashes between any steps in which all keys are UTF-8. -/
theorem noClash_of_validBatch {hash : Bytes → UInt64} {s : KeyFiles} (h : (system hash).Reaches ValidBatch s) :
    s.NoClash :=
  Inv.noClash (h.invariant (fun _ hs => hs ▸ inv_init) (fun _ _ _ hinv hok hs => hinv.step hok hs))

/-- Two keys with one hash, and a crash when the second flush has renamed the ids file. -/
def crashing : List KeyFilesLabel :=
  [.openEngine, .flush [([97], []), ([98], [])], .advance, .advance, .advance, .advance, .advance, .advance, .advance, .advance,
    .flush [([99], [])], .advance, .advance, .advance, .crash, .openEngine, .flush [([99], []), ([97], [])], .advance]

theorem noClash_crashing : ∃ s, (system (fun _ => 7)).Reaches ValidBatch s ∧
    s.used = [([97], 7), ([99], 2), ([98], 1), ([97], 7)] ∧ s.NoClash := by
  have hrun : (System.runIf ValidBatch (step (fun _ => 7)) init crashing).any
      (fun s => s.used = [([97], 7), ([99], 2), ([98], 1), ([97], 7)]) = true := by decide +kernel
  obtain ⟨s, hreach, hs⟩ := System.Reaches.exists_of_runIf (· = init) rfl ValidBatch (step (fun _ => 7)) crashing hrun
  exact ⟨s, hreach, of_decide_eq_true hs, noClash_of_validBatch hreach⟩

/-- Two flushes of the key with the one byte `FF`, which is not UTF-8. -/
def notUTF8 : List KeyFilesLabel :=
  [.openEngine, .flush [([0xFF], [])], .advance, .advance, .advance, .advance, .flush [([0xFF], [])], .advance, .advance,
    .advance, .advance, .advance, .advance, .advance, .advance]

/-- The key has the id 7 first and then the id 1. -/
theorem not_noClash : ∃ s, (system (fun _ => 7)).Reachable s ∧ ¬ s.NoClash := by
  have hrun : (System.runIf (fun _ _ => True) (step (fun _ => 7)) init notUTF8).any
      (fun s => s.used = [([0xFF], 1), ([0xFF], 7)]) = true := by decide +kernel
  obtain ⟨s, hreach, hs⟩ := System.Reaches.exists_of_runIf (· = init) rfl (fun _ _ => True) (step (fun _ => 7))
    notUTF8 hrun
  refine ⟨s, hreach, fun h => ?_⟩
  have hiff := h.1 ([0xFF], 1) (by rw [of_decide_eq_true hs]; simp) ([0xFF], 7) (by rw [of_decide_eq_true hs]; simp)
  exact absurd (hiff.mp rfl) (by decide)

end KeyFiles

end AndyEnv.Tsm1
