import AndyEnv.Tsm1.KeyFiles

/-!
# Readers and writers of ids

Cursors and deletes find the id of a key by `keyToID`, from the collisions and
the hash; flushes find it in the ids file. The two agree as long as no crash
comes between the replacement of the ids file and that of the collisions file.
-/

namespace AndyEnv.Tsm1

open AList
open Option (none_or map_eq_some_iff)

variable {c c' : KeyMap} {s' : KeyFiles} {st : KeyIDs}

namespace KeyFiles

variable {hash : Bytes → UInt64}

/-- Between flushes, `keyToID` gives every key of the ids file the id stored for it. -/
def Resolves (hash : Bytes → UInt64) (s : KeyFiles) : Prop :=
  s.flush = none → ∀ collisions ∈ s.memory, ∀ ids ∈ s.ids.file.read, ∀ k i, ids.lookup k = some i →
    keyToID hash collisions k = i

/-- A crash does not come when the new ids are found by the next `Open`, but not
the new collisions: after the ids file is renamed, or could be (it is written
and there is no ids file yet), until the collisions file is renamed. -/
def CrashSafe (s : KeyFiles) : KeyFilesLabel → Prop
  | .crash => ∀ f ∈ s.flush,
      match f.1 with
      | .createIDs | .writeIDs | .writeBlocks => True
      | .renameIDs => f.2.collisions.entries = [] ∨ s.ids.file.isAbsent = false
      | _ => False
  | l => s.ValidBatch l

instance (s : KeyFiles) : ∀ l, Decidable (s.CrashSafe l)
  | .crash =>
    match h : s.flush with
    | none => isTrue (fun f hf => by rw [h] at hf; cases hf)
    | some (.createIDs, _) | some (.writeIDs, _) | some (.writeBlocks, _) =>
      isTrue (fun f hf => by rw [h] at hf; cases hf; trivial)
    | some (.renameIDs, st) =>
      decidable_of_iff (st.collisions.entries = [] ∨ s.ids.file.isAbsent = false) (by simp [CrashSafe, h])
    | some (.saveCollisions, _) | some (.createCollisions, _) | some (.writeCollisions, _)
    | some (.renameCollisions, _) => isFalse (fun hall => hall _ h)
  | .openEngine => isTrue trivial
  | .advance => isTrue trivial
  | .flush pointsByKey => inferInstanceAs (Decidable (s.ValidBatch (.flush pointsByKey)))

/-- The collisions `c` resolve everything that is stored, and nothing else. -/
structure Complete (hash : Bytes → UInt64) (s : KeyFiles) (c : KeyMap) : Prop where
  agrees : ∀ k i, (k, i) ∈ s.stored → keyToID hash c k = i
  subset : ∀ k i, c.lookup k = some i → (k, i) ∈ s.stored

/-- The collisions file is `c`, and complete. -/
structure Settled (hash : Bytes → UInt64) (s : KeyFiles) (c : KeyMap) : Prop where
  tmp : s.collisions.tmp = .absent
  read : s.collisions.file.read = some c
  complete : Complete hash s c
  memory : ∀ m ∈ s.memory, ∀ k, m.lookup k = c.lookup k

/-- The collisions of a batch complete `c` for the ids of the batch. -/
structure Completes (hash : Bytes → UInt64) (st : KeyIDs) (c : KeyMap) : Prop where
  agrees : ∀ k i, st.ids.lookup k = some i → keyToID hash (st.collisions ∪ c) k = i
  subset : ∀ k i, (st.collisions ∪ c).lookup k = some i → st.ids.lookup k = some i

/-- What holds of the collisions in a flush, phase by phase. -/
def CollisionsInv (hash : Bytes → UInt64) (s : KeyFiles) (st : KeyIDs) : FlushPhase → Prop
  | .createIDs => ∃ c, Settled hash s c ∧ Completes hash st c ∧ s.ids.tmp = .absent
  | .writeIDs => ∃ c, Settled hash s c ∧ Completes hash st c ∧ s.ids.tmp = .broken
  | .renameIDs => ∃ c, Settled hash s c ∧ Completes hash st c
  | .saveCollisions => ∀ m ∈ s.memory, Complete hash s (st.collisions ∪ m) ∧ s.ids.tmp = .absent
  | .createCollisions | .writeCollisions => ∀ m ∈ s.memory, Complete hash s m ∧ s.ids.tmp = .absent
  | .renameCollisions => ∀ m ∈ s.memory, Complete hash s m ∧ s.ids.tmp = .absent ∧ s.collisions.tmp = .map m
  | .writeBlocks => ∃ c, Settled hash s c ∧ s.ids.tmp = .absent

structure ReadInv (hash : Bytes → UInt64) (s : KeyFiles) : Prop where
  inv : Inv s
  flush : ∀ f ∈ s.flush, s.CollisionsInv hash f.2 f.1
  idle : s.flush = none → ∃ c, Settled hash s c ∧ (s.memory ≠ none → s.ids.tmp = .absent) ∧
    (s.ids.file.isAbsent = true → ∀ m, s.ids.tmp = .map m → ∀ k i, m.lookup k = some i → keyToID hash c k = i)

theorem readInv_init : ReadInv hash init where
  inv := inv_init
  flush _ h := (nomatch h)
  idle _ := by
    refine ⟨∅, ⟨rfl, rfl, ⟨fun _ _ h => (nomatch h), fun _ _ h => (nomatch h)⟩, fun _ h => (nomatch h)⟩, ?_, ?_⟩
    · exact fun _ => rfl
    · exact fun _ _ h => (nomatch h)

theorem keyToID_congr {k : Bytes} (h : c.lookup k = c'.lookup k) :
    keyToID hash c k = keyToID hash c' k := by
  unfold keyToID
  rw [h]

theorem lookup_union (c c' : KeyMap) (k : Bytes) : (c ∪ c').lookup k = (c.lookup k).or (c'.lookup k) := by
  by_cases hk : k ∈ c
  · obtain ⟨v, hv⟩ := Option.isSome_iff_exists.mp (lookup_isSome.mpr hk)
    rw [lookup_union_left hk, hv]
    rfl
  · rw [lookup_union_right hk, lookup_eq_none.mpr hk]
    rfl

variable {s : KeyFiles}

theorem Complete.congr (h : Complete hash s c) (hc : ∀ k, c'.lookup k = c.lookup k) :
    Complete hash s c' where
  agrees k i hk := (keyToID_congr (hc k)).trans (h.agrees k i hk)
  subset k i hk := h.subset k i (hc k ▸ hk)

theorem Complete.of_stored (h : Complete hash s c)
    (hstored : ∀ p, p ∈ s'.stored ↔ p ∈ s.stored) : Complete hash s' c where
  agrees k i hk := h.agrees k i ((hstored _).mp hk)
  subset k i hk := (hstored _).mpr (h.subset k i hk)

variable {m : KeyMap} {phase : FlushPhase}

/-- The collisions of a batch, with those known before, are what its readers need. -/
theorem completes_of_convertKeys (hc : Complete hash s c)
    (hm : ∀ k i, m.lookup k = some i ↔ (k, i) ∈ s.stored) {ks : List Bytes}
    (hst : st.Inv hash m ks) : Completes hash st c := by
  have hold : ∀ k i, m.lookup k = some i → (st.collisions ∪ c).lookup k = c.lookup k := by
    intro k i hk
    rw [lookup_union, (hst.kept k i hk).2, none_or]
  have hnew : ∀ k, m.lookup k = none → (st.collisions ∪ c).lookup k = st.collisions.lookup k := by
    intro k hk
    have hnone : c.lookup k = none := by
      by_contra hne
      obtain ⟨i, hi⟩ := Option.ne_none_iff_exists'.mp hne
      rw [(hm k i).mpr (hc.subset k i hi)] at hk
      cases hk
    rw [lookup_union, hnone, Option.or_none]
  constructor
  · intro k i hk
    cases hmk : m.lookup k with
    | some j =>
      have hij := (hst.kept k j hmk).1
      rw [hk] at hij
      cases hij
      rw [keyToID_congr (hold k i hmk)]
      exact hc.agrees k i ((hm k i).mp hmk)
    | none =>
      rw [keyToID_congr (hnew k hmk)]
      exact ((hst.new k i hk).resolve_left (by rw [hmk]; exact fun h => (nomatch h))).2
  · intro k i hk
    cases hmk : m.lookup k with
    | some j =>
      rw [hold k j hmk] at hk
      exact (hst.kept k i ((hm k i).mpr (hc.subset k i hk))).1
    | none =>
      rw [hnew k hmk] at hk
      have hmem : k ∈ st.ids := by
        by_contra hnot
        rw [hst.collided k hnot] at hk
        cases hk
      obtain ⟨j, hj⟩ := Option.isSome_iff_exists.mp (lookup_isSome.mpr hmem)
      have hid := ((hst.new k j hj).resolve_left (by rw [hmk]; exact fun h => (nomatch h))).2
      rw [hk] at hid
      rw [hj]
      exact congrArg some hid.symm

theorem ReadInv.resolves (h : ReadInv hash s) : s.Resolves hash := by
  intro hidle collisions hmem ids hids k i hk
  obtain ⟨c, hsettled, -, -⟩ := h.idle hidle
  rw [keyToID_congr (hsettled.memory collisions hmem k)]
  exact hsettled.complete.agrees k i (((h.inv.lookup_read hids).2 k i).mp hk)

/-! ## The steps -/

theorem Settled.frame (h : Settled hash s c) (hcol : s'.collisions = s.collisions)
    (hmem : s'.memory = s.memory) (hstored : ∀ p, p ∈ s'.stored ↔ p ∈ s.stored) : Settled hash s' c where
  tmp := hcol ▸ h.tmp
  read := hcol ▸ h.read
  complete := h.complete.of_stored hstored
  memory := hmem ▸ h.memory

theorem mem_setIDs_same (h : Inv s) (tmp : MetaFile) (p : Bytes × UInt64) :
    p ∈ (s.setIDs ⟨s.ids.file, tmp⟩).stored ↔ p ∈ s.stored := by
  by_cases hmap : ∃ m, s.ids.file = .map m
  · obtain ⟨m, hm⟩ := hmap
    obtain ⟨hsound, hiff⟩ := h.file m hm
    have hset := @mem_setIDs s m ⟨s.ids.file, tmp⟩ hm hsound p.1 p.2
    rwa [hiff, or_self] at hset
  · show p ∈ s.ids.file.read.elim [] _ ++ s.stored ↔ _
    cases hfile : s.ids.file with
    | absent | broken => exact Iff.rfl
    | map m => exact absurd ⟨m, hfile⟩ hmap

/-- What `Open` finds of the ids is resolved by the collisions file. -/
theorem complete_cleanup (h : Inv s) (hc : Complete hash s c)
    (htmp : s.ids.file.isAbsent = true → ∀ m, s.ids.tmp = .map m → ∀ k i, m.lookup k = some i → keyToID hash c k = i) :
    Complete hash (s.setIDs s.ids.cleanup.1) c ∧ (s.setIDs s.ids.cleanup.1).ids.tmp = .absent := by
  have hsame : Complete hash (s.setIDs ⟨s.ids.file, .absent⟩) c := hc.of_stored (mem_setIDs_same h .absent)
  unfold MetaPair.cleanup
  split
  · rename_i habsent
    have heq : s.ids = ⟨s.ids.file, .absent⟩ := by rw [← habsent]
    exact ⟨by rw [heq]; exact hsame, habsent⟩
  · rename_i hfile _
    refine ⟨?_, rfl⟩
    have hnil := h.nofile (fun m hm => (nomatch hfile ▸ hm))
    have hnone : ∀ k i, c.lookup k ≠ some i := by
      intro k i hk
      have hmem := hc.subset k i hk
      rw [hnil] at hmem
      cases hmem
    refine ⟨fun k i hk => ?_, fun k i hk => absurd hk (hnone k i)⟩
    cases htmp' : s.ids.tmp with
    | absent | broken =>
      change (k, i) ∈ s.ids.tmp.read.elim [] _ ++ s.stored at hk
      rw [htmp', hnil] at hk
      cases hk
    | map m =>
      have hids := (mem_setIDs htmp' (h.tmp m htmp').1 k i).mp hk
      rw [hnil] at hids
      exact htmp (by rw [hfile]; rfl) m htmp' k i (hids.resolve_right (fun h => (nomatch h)))
  · exact ⟨hsame, rfl⟩

theorem ReadInv.reopen (h : ReadInv hash s) (hdown : s.memory = none)
    (hs : s.step hash .openEngine = some s') : ReadInv hash s' := by
  have hinv := h.inv.step (by exact trivial) hs
  obtain ⟨c, hsettled, -, hpending⟩ := h.idle (h.inv.down hdown)
  obtain ⟨hcomplete, htmp⟩ := complete_cleanup h.inv hsettled.complete hpending
  have hcol : s.collisions.cleanup = (s.collisions, true) := by
    unfold MetaPair.cleanup
    rw [hsettled.tmp]
  have hflush : ∀ f, f ∉ s.flush := by
    intro f hf
    rw [h.inv.down hdown] at hf
    cases hf
  simp only [step, hdown] at hs
  split at hs
  · cases hs
    refine ⟨hinv, fun f hf => absurd hf (hflush f), fun _ => ⟨c, ?_, ?_, ?_⟩⟩
    · exact ⟨hsettled.tmp, hsettled.read, hcomplete, hsettled.memory⟩
    · exact fun hup => absurd hdown hup
    · intro _ m hm
      rw [htmp] at hm
      cases hm
  · rw [show (s.setIDs s.ids.cleanup.1).collisions.cleanup = (s.collisions, true) from hcol] at hs
    dsimp only at hs
    rw [if_neg (by decide)] at hs
    cases hs
    refine ⟨hinv, fun f hf => absurd hf (hflush f), fun _ => ⟨c, ?_, fun _ => htmp, ?_⟩⟩
    · refine ⟨hsettled.tmp, hsettled.read, ⟨hcomplete.agrees, hcomplete.subset⟩, fun m hm k => ?_⟩
      have hmc : some m = some c := hm.symm.trans hsettled.read
      rw [Option.some.inj hmc]
    · intro _ m hm
      rw [htmp] at hm
      cases hm

theorem ReadInv.of_flush (hinv : Inv s) (hf : s.flush = some (phase, st))
    (h : s.CollisionsInv hash st phase) : ReadInv hash s := by
  refine ⟨hinv, fun f hf' => ?_, fun hnone => (nomatch hf.symm.trans hnone)⟩
  obtain rfl := Option.some.inj (hf.symm.trans hf')
  exact h

theorem ReadInv.beginFlush (h : ReadInv hash s) (hup : s.memory ≠ none)
    (hidle : s.flush = none) (hread : s.ids.file.read = some m) {pointsByKey : List (Bytes × Values)}
    (hvalid : ∀ p ∈ pointsByKey, ValidKey p.1) (hst : convertKeys hash m pointsByKey = some st) :
    ReadInv hash { s with flush := some (if st.newKeys then .createIDs else .writeBlocks, st) } := by
  obtain ⟨c, hsettled, htmp, -⟩ := h.idle hidle
  obtain ⟨hsound, hiff⟩ := h.inv.lookup_read hread
  have hcompletes := completes_of_convertKeys hsettled.complete hiff (convertKeys_inv hsound.injective hst)
  have hframe : Settled hash { s with flush := some (if st.newKeys then .createIDs else .writeBlocks, st) } c :=
    hsettled.frame rfl rfl (fun _ => Iff.rfl)
  refine .of_flush (h.inv.beginFlush hup hread hvalid hst) rfl ?_
  cases hnew : st.newKeys with
  | true =>
    rw [hnew] at hframe
    exact ⟨c, hframe, hcompletes, htmp hup⟩
  | false =>
    rw [hnew] at hframe
    exact ⟨c, hframe, htmp hup⟩

/-- After the ids file is renamed, the ids of the batch are stored. -/
theorem complete_renameIDs (hphase : s.FlushInv st .renameIDs)
    (h : Completes hash st c) (hc : ∀ k, c'.lookup k = (st.collisions ∪ c).lookup k) :
    Complete hash (s.setIDs ⟨s.ids.tmp, .absent⟩) c' := by
  obtain ⟨hsound, hall, -, htmp⟩ := hphase
  have hiff := @mem_setIDs s st.ids ⟨s.ids.tmp, .absent⟩ htmp hsound
  constructor
  · intro k i hk
    rw [keyToID_congr (hc k)]
    exact h.agrees k i (((hiff k i).mp hk).elim id (hall (k, i)))
  · intro k i hk
    exact (hiff k i).mpr (.inl (h.subset k i (hc k ▸ hk)))

theorem ReadInv.advance (h : ReadInv hash s)
    (hf : s.flush = some (phase, st)) : ReadInv hash (s.advance st phase) := by
  have hinv := h.inv.advance hf
  have hphase := h.inv.flush (phase, st) hf
  have hcol := h.flush (phase, st) hf
  cases phase with
  | createIDs =>
    obtain ⟨c, hsettled, hcompletes, -⟩ := hcol
    exact .of_flush hinv rfl ⟨c, hsettled.frame rfl rfl (fun _ => Iff.rfl), hcompletes, rfl⟩
  | writeIDs =>
    obtain ⟨c, hsettled, hcompletes, -⟩ := hcol
    exact .of_flush hinv rfl ⟨c, hsettled.frame rfl rfl (fun _ => Iff.rfl), hcompletes⟩
  | renameIDs =>
    obtain ⟨c, hsettled, hcompletes⟩ := hcol
    refine .of_flush hinv rfl ?_
    split
    · rename_i hempty
      have hnone : ∀ k, st.collisions.lookup k = none := by
        intro k
        rw [lookup_eq_none, mem_keys, AList.keys, hempty]
        exact List.not_mem_nil
      have hcomplete := complete_renameIDs hphase hcompletes
        (fun k => by rw [lookup_union, hnone, none_or] : ∀ k, c.lookup k = _)
      exact ⟨c, ⟨hsettled.tmp, hsettled.read, ⟨hcomplete.agrees, hcomplete.subset⟩, hsettled.memory⟩, rfl⟩
    · intro m hm
      have hcomplete := complete_renameIDs hphase hcompletes
        (fun k => by rw [lookup_union, lookup_union, hsettled.memory m hm k] :
          ∀ k, (st.collisions ∪ m).lookup k = _)
      exact ⟨⟨hcomplete.agrees, hcomplete.subset⟩, rfl⟩
  | saveCollisions =>
    refine .of_flush hinv rfl (fun m hm => ?_)
    obtain ⟨m', hm', rfl⟩ := map_eq_some_iff.mp hm
    obtain ⟨hcomplete, htmp⟩ := hcol m' hm'
    exact ⟨⟨hcomplete.agrees, hcomplete.subset⟩, htmp⟩
  | createCollisions =>
    refine .of_flush hinv rfl (fun m hm => ?_)
    obtain ⟨hcomplete, htmp⟩ := hcol m hm
    exact ⟨⟨hcomplete.agrees, hcomplete.subset⟩, htmp⟩
  | writeCollisions =>
    refine .of_flush hinv rfl (fun m hm => ?_)
    obtain ⟨hcomplete, htmp⟩ := hcol m hm
    refine ⟨⟨hcomplete.agrees, hcomplete.subset⟩, htmp, ?_⟩
    show s.memory.elim MetaFile.broken MetaFile.map = .map m
    rw [show s.memory = some m from hm]
    rfl
  | renameCollisions =>
    have hup : s.memory ≠ none := by
      intro hdown
      rw [h.inv.down hdown] at hf
      cases hf
    obtain ⟨m, hm⟩ := Option.ne_none_iff_exists'.mp hup
    obtain ⟨hcomplete, htmp, hctmp⟩ := hcol m hm
    -- the keys of the collisions are stored, so they are read back
    have hlookup : ∀ k, (throughJSON m).lookup k = m.lookup k := by
      refine lookup_throughJSON (fun k hk => ?_)
      obtain ⟨i, hi⟩ := Option.isSome_iff_exists.mp (lookup_isSome.mpr hk)
      have hstored := hcomplete.subset k i hi
      by_cases hmap : ∃ m, s.ids.file = .map m
      · obtain ⟨ids, hids⟩ := hmap
        obtain ⟨hsound, hiff⟩ := h.inv.file ids hids
        exact hsound.valid k (lookup_isSome.mp (by rw [(hiff k i).mpr hstored]; rfl))
      · rw [h.inv.nofile (fun m hm => hmap ⟨m, hm⟩)] at hstored
        cases hstored
    have hcomplete' := hcomplete.congr hlookup
    refine .of_flush hinv rfl ⟨throughJSON m, ⟨rfl, ?_, ⟨hcomplete'.agrees, hcomplete'.subset⟩, fun m' hm' k => ?_⟩, htmp⟩
    · show s.collisions.tmp.read = _
      rw [hctmp]
      rfl
    · have hmm : m' = m := Option.some.inj (hm'.symm.trans hm)
      rw [hmm, hlookup]
  | writeBlocks =>
    obtain ⟨c, hsettled, htmp⟩ := hcol
    refine ⟨hinv, fun f hf => (nomatch hf), fun _ => ⟨c, hsettled.frame rfl rfl (fun _ => Iff.rfl),
      fun _ => htmp, fun _ m hm => ?_⟩⟩
    exact (nomatch htmp.symm.trans hm)

theorem ReadInv.crash (h : ReadInv hash s) (hok : s.CrashSafe .crash) :
    ReadInv hash { s with memory := none, flush := none } := by
  have hinv : Inv { s with memory := none, flush := none } :=
    ⟨h.inv.file, h.inv.nofile, h.inv.tmp, fun f hf => (nomatch hf), h.inv.used, fun _ => rfl⟩
  have hdown : ∀ {c : KeyMap}, Settled hash s c → (s.ids.file.isAbsent = true → ∀ m, s.ids.tmp = .map m →
      ∀ k i, m.lookup k = some i → keyToID hash c k = i) → ReadInv hash { s with memory := none, flush := none } := by
    intro c hc hpending
    refine ⟨hinv, fun f hf => (nomatch hf), fun _ => ⟨c, ?_, fun hup => absurd rfl hup, hpending⟩⟩
    exact ⟨hc.tmp, hc.read, ⟨hc.complete.agrees, hc.complete.subset⟩, fun m hm => (nomatch hm)⟩
  cases hf : s.flush with
  | none =>
    obtain ⟨c, hsettled, -, hpending⟩ := h.idle hf
    exact hdown hsettled hpending
  | some f =>
    obtain ⟨phase, st⟩ := f
    have hcol := h.flush (phase, st) hf
    have hsafe := hok (phase, st) hf
    cases phase with
    | createIDs | writeIDs =>
      obtain ⟨c, hsettled, -, htmp⟩ := hcol
      exact hdown hsettled (fun _ m hm => (nomatch htmp.symm.trans hm))
    | renameIDs =>
      obtain ⟨c, hsettled, hcompletes⟩ := hcol
      refine hdown hsettled (fun habsent m hm k i hk => ?_)
      rcases hsafe with hempty | hpresent
      · have hnone : st.collisions.lookup k = none := by
          rw [lookup_eq_none, mem_keys, AList.keys, hempty]
          exact List.not_mem_nil
        have htmp := (h.inv.flush (.renameIDs, st) hf).2.2.2
        rw [hm] at htmp
        cases htmp
        have hagrees := hcompletes.agrees k i hk
        rwa [keyToID_congr (by rw [lookup_union, hnone, none_or] :
          (st.collisions ∪ c).lookup k = c.lookup k)] at hagrees
      · rw [hpresent] at habsent
        cases habsent
    | writeBlocks =>
      obtain ⟨c, hsettled, htmp⟩ := hcol
      exact hdown hsettled (fun _ m hm => (nomatch htmp.symm.trans hm))
    | saveCollisions | createCollisions | writeCollisions | renameCollisions => exact hsafe.elim

theorem ReadInv.step {l : KeyFilesLabel} (h : ReadInv hash s) (hok : s.CrashSafe l)
    (hs : s.step hash l = some s') : ReadInv hash s' := by
  cases l with
  | openEngine =>
    cases hmem : s.memory with
    | some m =>
      simp only [KeyFiles.step, hmem] at hs
      cases hs
    | none => exact h.reopen hmem hs
  | flush pointsByKey =>
    simp only [KeyFiles.step] at hs
    split at hs
    · rename_i mem hmem hnone
      split at hs
      · cases hs
        exact h
      · rename_i m hread
        obtain ⟨st, hst, rfl⟩ := map_eq_some_iff.mp hs
        exact h.beginFlush (by rw [hmem]; exact Option.some_ne_none _) hnone hread hok hst
    · cases hs
  | advance =>
    obtain ⟨⟨phase, st⟩, hf, rfl⟩ := map_eq_some_iff.mp hs
    exact h.advance hf
  | crash =>
    cases hs
    exact h.crash hok

/-- **Readers resolve keys like writers**, for every hash function, in every run
in which no crash comes between the new ids and their collisions and all keys are UTF-8. -/
theorem resolves_of_crashSafe {hash : Bytes → UInt64} {s : KeyFiles} (h : (system hash).Reaches CrashSafe s) :
    s.Resolves hash :=
  ReadInv.resolves (h.invariant (fun _ hs => hs ▸ readInv_init) (fun _ _ _ hinv hok hs => hinv.step hok hs))

/-- A batch with a collision, and a crash in the next one before its ids file is renamed. -/
def crashBefore : List KeyFilesLabel :=
  [.openEngine, .flush [([97], []), ([98], [])], .advance, .advance, .advance, .advance, .advance, .advance, .advance,
    .advance, .flush [([99], [])], .advance, .advance, .crash, .openEngine, .openEngine]

theorem resolves_crashBefore : ∃ s, (system (fun _ => 7)).Reaches CrashSafe s ∧
    (s.flush.isNone = true ∧ (s.memory.map (keyToID (fun _ => 7) · [98])) = some 1) ∧ s.Resolves (fun _ => 7) := by
  have hrun : (System.runIf CrashSafe (step (fun _ => 7)) init crashBefore).any
      (fun s => s.flush.isNone = true ∧ (s.memory.map (keyToID (fun _ => 7) · [98])) = some 1) = true := by
    decide +kernel
  obtain ⟨s, hreach, hs⟩ := System.Reaches.exists_of_runIf (· = init) rfl CrashSafe (step (fun _ => 7)) crashBefore hrun
  exact ⟨s, hreach, of_decide_eq_true hs, resolves_of_crashSafe hreach⟩

/-- A batch with a collision, and a crash when its ids file is renamed. -/
def crashBetween : List KeyFilesLabel :=
  [.openEngine, .flush [([97], []), ([98], [])], .advance, .advance, .advance, .crash, .openEngine]

/-- The id 1 is stored for the key, and its readers look for 7. -/
theorem not_resolves : ∃ s, (system (fun _ => 7)).Reachable s ∧ ¬ s.Resolves (fun _ => 7) := by
  have hrun : (System.runIf (fun _ _ => True) (step (fun _ => 7)) init crashBetween).any
      (fun s => s.flush.isNone = true ∧ (s.memory.map (keyToID (fun _ => 7) · [98])) = some 7 ∧
        (s.ids.file.read.bind (·.lookup [98])) = some 1) = true := by decide +kernel
  obtain ⟨s, hreach, hs⟩ := System.Reaches.exists_of_runIf (· = init) rfl (fun _ _ => True) (step (fun _ => 7))
    crashBetween hrun
  obtain ⟨hflush, hmem, hids⟩ := of_decide_eq_true hs
  obtain ⟨collisions, hcollisions, h7⟩ := map_eq_some_iff.mp hmem
  obtain ⟨ids, hread, h1⟩ := Option.bind_eq_some_iff.mp hids
  refine ⟨s, hreach, fun h => ?_⟩
  have h17 := h (Option.isNone_iff_eq_none.mp hflush) collisions hcollisions ids hread [98] 1 h1
  rw [h7] at h17
  exact absurd h17 (by decide)

end KeyFiles

end AndyEnv.Tsm1
