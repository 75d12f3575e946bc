import AndyEnv.Tsm1.FileRange

/-!
# The data files stay apart

`filesAndLock`, `Write` and the cursor rely on two facts about `e.files`: a
file stores no time outside its half-open range, and the ranges do not
overlap. The code does not keep them. `rewriteFile` compares the exclusive
maximum of the old file with the last time of the new values, and misses the
case that the two are equal; the same happens among the last times of several
ids.

`KeepsRanges` is the condition on a step, over the state before it, under
which both facts survive. The proof gives every running rewrite the slot of
`SplitBatch`, and shows that a rewritten file stays within its slot.
-/

namespace AndyEnv.Tsm1

open Plain
open List hiding Disjoint

/-! ## What is to be kept -/

/-- The files store only times of their ranges, and no two ranges meet. -/
structure Separated (C : BlockCodec) (files : List OpenFile) : Prop where
  within : ∀ f ∈ files, ∀ t, f.df.Stores C t → t ∈ f.df.range
  disjoint : files.Pairwise (fun f g => Disjoint f.df.range g.df.range)

/-- The condition on a step:
* a batch has no value at the largest `int64`, and no file that is to be split
  ends there;
* in a rewrite the latest of the last times is neither the old file's maximum
  nor the successor of another last time, and the merged blocks survive the
  codec and fit a file;
* the compacted blocks survive the codec and fit one file. -/
def KeepsRanges (C : BlockCodec) (cfg : EngineConfig) (s : EngineState) : EngineOp → Prop
  | .write valuesByID =>
    (∀ p ∈ valuesByID, ∀ v ∈ p.2, v.time ≠ Int64.maxValue) ∧
      ∀ f ∈ s.engine.files, ¬ f.df.size < cfg.rotateFileSize → f.df.maxTime ≠ Int64.maxValue
  | .rewrite task order =>
    Untied (initialRange (task.oldDF.map OpenFile.df)).2.toInt (lastTimes order) ∧
      MergeRoundTrips C cfg.maxPointsPerBlock (task.oldDF.map OpenFile.df) order ∧
      ShortLayout (mergedBlocks C cfg.maxPointsPerBlock (task.oldDF.map OpenFile.df) order)
  | .compact full aged =>
    let files := (compactionFiles cfg full aged s.engine).map OpenFile.df
    2 ≤ files.length → FitsOneFile C cfg.maxFileSize cfg.maxPointsPerBlock files ∧
      (∀ id, ∀ vs ∈ cuts cfg.maxPointsPerBlock (inputBlocks C files id), C.RoundTrips vs) ∧
      ShortLayout ((compactionIDs files).flatMap (compactedRun C cfg.maxPointsPerBlock files))

/-! ## Replacing files -/

section Replace

variable {C : BlockCodec} {ty : UInt64 → FieldType}

theorem DataFile.Ranged.minTime_mem {d : DataFile} (h : d.Ranged C ty) :
    d.minTime.toInt ∈ d.range := ⟨le_rfl, h.lt⟩

theorem sortFiles_perm (files : List OpenFile) : (sortFiles files).Perm files :=
  perm_insertionSort _ _

variable {files : List OpenFile} {e : Engine}

theorem ordered_sortFiles (hranged : ∀ f ∈ files, f.df.Ranged C ty)
    (hdisj : files.Pairwise (fun f g => Disjoint f.df.range g.df.range)) :
    Ordered (sortFiles files) := by
  have hsorted : (sortFiles files).Pairwise
      (fun a b => a.df.minTime.toInt ≤ b.df.minTime.toInt) := pairwise_insertionSort _ _
  have hdisj' := ((sortFiles_perm files).pairwise_iff (fun h => h.symm)).mpr hdisj
  refine (hsorted.and hdisj').imp_of_mem (fun {f g} hf hg h => ?_)
  by_contra hlt
  -- the later range begins inside the earlier one
  have hg' := hranged g ((sortFiles_perm files).mem_iff.mp hg)
  exact Set.disjoint_left.mp h.2 ⟨h.1, not_le.mp hlt⟩ hg'.minTime_mem

theorem Ordered.disjoint (h : Ordered files) :
    files.Pairwise (fun f g => Disjoint f.df.range g.df.range) :=
  Pairwise.imp (fun hfg => disjoint_range_of_le (.inl hfg)) h

/-- The state of the file set: the files are kept to their ranges, in order,
and told apart by their ids. -/
structure FilesKept (C : BlockCodec) (ty : UInt64 → FieldType) (e : Engine) : Prop where
  ranged : ∀ f ∈ e.files, f.df.Ranged C ty
  ordered : Ordered e.files
  fileID_le : ∀ f ∈ e.files, f.fileID ≤ e.currentFileID
  fileID_inj : e.files.Pairwise (fun f g => f.fileID ≠ g.fileID)

theorem FilesKept.separated (h : FilesKept C ty e) : Separated C e.files where
  within f hf := (h.ranged f hf).within
  disjoint := h.ordered.disjoint

/-- **A new file takes the place of some of the files.** -/
theorem FilesKept.replace (h : FilesKept C ty e) (keep : OpenFile → Bool)
    {newDF : DataFile} (hnew : newDF.Ranged C ty)
    (hdisj : ∀ f ∈ e.files, keep f = true → Disjoint f.df.range newDF.range) :
    FilesKept C ty ⟨sortFiles (e.files.filter keep ++ [⟨e.currentFileID + 1, newDF⟩]),
      e.currentFileID + 1⟩ := by
  have hmem : ∀ f, f ∈ sortFiles (e.files.filter keep ++ [⟨e.currentFileID + 1, newDF⟩]) ↔
      (f ∈ e.files ∧ keep f = true) ∨ f = ⟨e.currentFileID + 1, newDF⟩ := by
    intro f
    rw [(sortFiles_perm _).mem_iff, mem_append, mem_filter, mem_singleton]
  have hranged : ∀ f ∈ e.files.filter keep ++ [⟨e.currentFileID + 1, newDF⟩], f.df.Ranged C ty :=
    forall_mem_append.mpr ⟨fun f hf => h.ranged f (mem_of_mem_filter hf),
      forall_mem_singleton.mpr hnew⟩
  constructor
  · exact fun f hf => hranged f ((sortFiles_perm _).mem_iff.mp hf)
  · refine ordered_sortFiles hranged (pairwise_append.mpr
      ⟨h.ordered.disjoint.sublist filter_sublist, pairwise_singleton _ _, ?_⟩)
    intro f hf g hg
    rw [mem_singleton.mp hg]
    exact hdisj f (mem_of_mem_filter hf) (mem_filter.mp hf).2
  · intro f hf
    rcases (hmem f).mp hf with ⟨hf, -⟩ | rfl
    · exact (h.fileID_le f hf).trans (Nat.le_succ _)
    · exact le_rfl
  · refine ((sortFiles_perm _).pairwise_iff Ne.symm).mpr (pairwise_append.mpr
      ⟨h.fileID_inj.sublist filter_sublist, pairwise_singleton _ _, ?_⟩)
    intro f hf g hg
    rw [mem_singleton.mp hg]
    exact Nat.ne_of_lt (Nat.lt_succ_of_le (h.fileID_le f (mem_of_mem_filter hf)))

end Replace

/-! ## The steps -/

/-- The invariant: every running rewrite has its slot. -/
structure EngineInv (C : BlockCodec) (ty : UInt64 → FieldType) (s : EngineState) : Prop where
  kept : FilesKept C ty s.engine
  slots : ∃ slots, Forall₂ (RewriteTask.Fits ty s.engine.files) s.pending slots ∧
    slots.Pairwise Disjoint

section Steps

variable {C : BlockCodec} {ty : UInt64 → FieldType} {cfg : EngineConfig}

theorem forall₂_append_cons {α β : Type*} {R : α → β → Prop} {a : α} {after : List α} :
    ∀ {before : List α} {bs : List β}, Forall₂ R (before ++ a :: after) bs →
      ∃ b₁ b b₂, bs = b₁ ++ b :: b₂ ∧ R a b ∧ Forall₂ R (before ++ after) (b₁ ++ b₂)
  | [], bs, h => by
    cases h with
    | cons hab hrest => exact ⟨[], _, _, rfl, hab, hrest⟩
  | x :: before, bs, h => by
    cases h with
    | cons hxy hrest =>
      obtain ⟨b₁, b, b₂, rfl, hab, h⟩ := forall₂_append_cons hrest
      exact ⟨_ :: b₁, b, b₂, rfl, hab, .cons hxy h⟩

variable {task : RewriteTask} {S : Set ℤ} {e' : Engine} {s : EngineState}

/-- A rewrite keeps its slot when only files outside it are replaced. -/
theorem RewriteTask.Fits.transfer {files files' : List OpenFile}
    {T : Set ℤ} (h : task.Fits ty files T) (hST : Disjoint S T)
    (hnew : ∀ g ∈ files', g ∈ files ∨ g.df.range ⊆ S)
    (hkeep : ∀ f ∈ files, Disjoint S f.df.range → f ∈ files') : task.Fits ty files' T where
  ordConnected := h.ordConnected
  values := h.values
  old f hf := by
    obtain ⟨hmem, hsub⟩ := h.old f hf
    exact ⟨hkeep f hmem (hST.mono_right hsub), hsub⟩
  others g hg hne := by
    rcases hnew g hg with hmem | hsub
    · exact h.others g hmem hne
    · exact hST.symm.mono_right hsub

def NewValues.reorder (nv : NewValues ty) (order : ValuesByID) (h : order.Perm nv.entries) :
    NewValues ty where
  entries := order
  nodup := (h.map Prod.fst).nodup_iff.mpr nv.nodup
  id_ne p hp := nv.id_ne p (h.mem_iff.mp hp)
  ne_nil p hp := nv.ne_nil p (h.mem_iff.mp hp)
  ascending p hp := nv.ascending p (h.mem_iff.mp hp)
  ofType p hp := nv.ofType p (h.mem_iff.mp hp)

/-- **One rewrite.** The files stay apart, and the new file lies in the slot. -/
theorem FilesKept.rewrite (hmax : 1 ≤ cfg.maxPointsPerBlock) {e : Engine}
    (h : FilesKept C ty e) (hfits : task.Fits ty e.files S)
    {order : ValuesByID} (hperm : order.Perm task.valuesByID)
    (huntied : Untied (initialRange (task.oldDF.map OpenFile.df)).2.toInt (lastTimes order))
    (hmerge : MergeRoundTrips C cfg.maxPointsPerBlock (task.oldDF.map OpenFile.df) order)
    (hshort : ShortLayout
      (mergedBlocks C cfg.maxPointsPerBlock (task.oldDF.map OpenFile.df) order))
    (hstep : e.rewrite C cfg task.oldDF order = some e') :
    FilesKept C ty e' ∧ (∀ g ∈ e'.files, g ∈ e.files ∨ g.df.range ⊆ S) ∧
      ∀ f ∈ e.files, Disjoint S f.df.range → f ∈ e'.files := by
  by_cases hne : order = []
  · -- nothing to write
    rw [Engine.rewrite, rewriteFile, if_pos hne] at hstep
    cases hstep
    exact ⟨h, fun g hg => .inl hg, fun f hf _ => hf⟩
  obtain ⟨nv, hnv, hall⟩ := hfits.values
  have hall' : (nv.reorder order (hnv ▸ hperm)).All
      (fun v => v.unixNano ∈ S ∧ v.time ≠ Int64.maxValue) :=
    fun p hp => hall p (hnv ▸ hperm.mem_iff.mp hp)
  have hold : ∀ d ∈ task.oldDF.map OpenFile.df, d.Ranged C ty ∧ d.range ⊆ S := by
    intro d hd
    obtain ⟨f, hf, rfl⟩ := Option.mem_map.mp hd
    obtain ⟨hmem, hsub⟩ := hfits.old f hf
    exact ⟨h.ranged f hmem, hsub⟩
  obtain ⟨newDF, hnewDF, hranged, hrange⟩ := @rewriteFile_ranged C ty cfg.maxPointsPerBlock
    _ hmax (fun d hd => (hold d hd).1) (nv.reorder order (hnv ▸ hperm)) hne hmerge
    (hall'.imp (fun v hv => hv.2)) huntied hshort
  have hsub : newDF.range ⊆ S := hrange S hfits.ordConnected (fun d hd => (hold d hd).2)
    (hall'.imp (fun v hv => hv.1))
  have hnewDF : rewriteFile C cfg.maxPointsPerBlock (task.oldDF.map OpenFile.df) order =
    some (some newDF) := hnewDF
  rw [Engine.rewrite, hnewDF] at hstep
  cases hstep
  have hothers : ∀ f ∈ e.files, decide (some f.fileID ≠ task.oldDF.map OpenFile.fileID) = true →
      Disjoint f.df.range newDF.range := by
    intro f hf hid
    refine ((hfits.others f hf ?_).mono_left hsub).symm
    rintro g hg rfl
    exact of_decide_eq_true hid (by rw [Option.mem_def.mp hg]; rfl)
  refine ⟨h.replace _ hranged hothers, fun g hg => ?_, fun f hf hdisj => ?_⟩
  · rw [(sortFiles_perm _).mem_iff, mem_append, mem_singleton] at hg
    rcases hg with hg | rfl
    · exact .inl (mem_of_mem_filter hg)
    · exact .inr hsub
  · rw [(sortFiles_perm _).mem_iff]
    refine mem_append_left _ (mem_filter.mpr ⟨hf, decide_eq_true ?_⟩)
    intro hid
    obtain ⟨g, hg, hid⟩ := Option.map_eq_some_iff.mp hid.symm
    obtain ⟨hgmem, hgS⟩ := hfits.old g hg
    obtain rfl := inj_on_of_nodup_map (pairwise_map.mpr h.fileID_inj) hgmem hf hid
    have hmin := (h.ranged g hf).minTime_mem
    exact Set.disjoint_left.mp hdisj (hgS hmin) hmin

theorem compactionFiles_infix (cfg : EngineConfig) (full : Bool) (aged : OpenFile → Bool)
    (e : Engine) : ∃ before after, e.files = before ++ compactionFiles cfg full aged e ++ after := by
  unfold compactionFiles
  split
  · exact ⟨[], [], by simp⟩
  unfold filesToCompact
  refine ⟨e.files.takeWhile (fun f => !(aged f && decide (f.df.size < cfg.maxFileSize))),
    (e.files.dropWhile (fun f => !(aged f && decide (f.df.size < cfg.maxFileSize)))).dropWhile
      (fun f => aged f && decide (f.df.size < cfg.maxFileSize)), ?_⟩
  rw [append_assoc, takeWhile_append_dropWhile, takeWhile_append_dropWhile]

/-- **One compaction.** -/
theorem FilesKept.compact (hmax : 1 ≤ cfg.maxPointsPerBlock)
    (h : FilesKept C ty s.engine) {full : Bool} {aged : OpenFile → Bool}
    (hfits : KeepsRanges C cfg s (.compact full aged))
    (hstep : s.engine.compact C cfg full aged = some e') : FilesKept C ty e' := by
  obtain ⟨before, after, hsplit⟩ := compactionFiles_infix cfg full aged s.engine
  unfold Engine.compact at hstep
  split at hstep
  · cases hstep
    exact h
  · cases hstep
    exact h
  rename_i f g fs heq
  rw [heq] at hsplit
  rw [KeepsRanges, heq] at hfits
  obtain ⟨hone, hround, hshort⟩ := hfits (by simp)
  have hmem : ∀ d ∈ f :: g :: fs, d ∈ s.engine.files := fun d hd => by
    rw [hsplit]
    exact mem_append_left _ (mem_append_right _ hd)
  have hranged : ∀ d ∈ f :: g :: fs, d.df.Ranged C ty := fun d hd => h.ranged d (hmem d hd)
  have hordered := h.ordered
  rw [Ordered, hsplit, append_assoc, pairwise_append] at hordered
  obtain ⟨-, hordered, hbefore⟩ := hordered
  obtain ⟨hordered, -, hafter⟩ := pairwise_append.mp hordered
  have hwf : ∀ d ∈ (f :: g :: fs).map OpenFile.df, d.WellFormed C ty ∧ d.blocks ≠ [] := by
    intro d hd
    obtain ⟨x, hx, rfl⟩ := mem_map.mp hd
    exact ⟨(hranged x hx).wellFormed, (hranged x hx).ne_nil⟩
  have hnew := compactToNewFiles_single hmax hwf hround hone
  dsimp only at hstep
  rw [hnew] at hstep
  cases hstep
  refine h.replace _ (compactedFile_ranged hranged hordered hround hshort) (fun d hd hkeep => ?_)
  -- a file that stays is before or after the compacted ones
  rw [hsplit, append_assoc] at hd
  rcases mem_append.mp hd with hd | hd
  · exact (disjoint_range_of_le (.inr (hbefore d hd f (by simp)))).symm
  rcases mem_append.mp hd with hd | hd
  · have hin : (f :: g :: fs).any (fun x => x.fileID == d.fileID) = true :=
      any_eq_true.mpr ⟨d, hd, beq_self_eq_true _⟩
    rw [hin] at hkeep
    cases hkeep
  · exact (disjoint_range_of_le (.inl (hafter _ (getLast_mem _) d hd))).symm

theorem EngineInv.step (hmax : 1 ≤ cfg.maxPointsPerBlock) {s' : EngineState}
    {op : EngineOp} (h : EngineInv C ty s) (hok : KeepsRanges C cfg s op)
    (hstep : EngineStep C ty cfg s op s') : EngineInv C ty s' := by
  cases hstep with
  | write nv htasks =>
    exact ⟨h.kept, writeTasks_spec h.kept.ordered (fun f hf => (h.kept.ranged f hf).lt) hok.2
      hok.1 htasks⟩
  | rewrite hperm hrewrite =>
    obtain ⟨slots, hfits, hdisj⟩ := h.slots
    obtain ⟨b₁, S, b₂, rfl, hS, hrest⟩ := forall₂_append_cons hfits
    obtain ⟨hSdisj, hdisj⟩ := pairwise_cons.mp
      ((perm_middle.pairwise_iff (fun h => h.symm)).mp hdisj)
    obtain ⟨hkept, hnew, hkeep⟩ := h.kept.rewrite hmax hS hperm hok.1 hok.2.1 hok.2.2 hrewrite
    have hboth := ((forall₂_and_left _ _).mpr ⟨hSdisj, hrest.flip⟩).flip
    exact ⟨hkept, b₁ ++ b₂,
      hboth.imp (fun {t T} hT => RewriteTask.Fits.transfer hT.2 hT.1 hnew hkeep), hdisj⟩
  | compact hcompact => exact ⟨h.kept.compact hmax hok hcompact, [], .nil, Pairwise.nil⟩

theorem engineInv_of_reaches (hmax : 1 ≤ cfg.maxPointsPerBlock)
    (h : (engineSystem C ty cfg).Reaches (KeepsRanges C cfg) s) : EngineInv C ty s := by
  refine h.invariant ?_ (fun s op s' hinv hok hstep => hinv.step hmax hok hstep)
  rintro s rfl
  refine ⟨⟨?_, Pairwise.nil, ?_, Pairwise.nil⟩, [], .nil, Pairwise.nil⟩
  · exact fun f hf => absurd hf not_mem_nil
  · exact fun f hf => absurd hf not_mem_nil

/-- **The data files stay apart while the ranges are kept.** In every run of
batches, rewrites in any order and compactions whose steps all meet
`KeepsRanges`, every state has separated files. -/
theorem engine_separated (hmax : 1 ≤ cfg.maxPointsPerBlock) {s : EngineState}
    (h : (engineSystem C ty cfg).Reaches (KeepsRanges C cfg) s) : Separated C s.engine.files :=
  (engineInv_of_reaches hmax h).kept.separated

end Steps

/-! ## A tie

A first batch has the time 1 and makes a file with the range from 1 to 2. The
second batch has 1 again and another time. -/

def smallConfig : EngineConfig := ⟨1000, 10000, 10⟩

def firstBatch : NewValues (fun _ => FieldType.int64) where
  entries := [(1, [intValue 1])]
  nodup := by decide
  id_ne := by decide
  ne_nil := by decide
  ascending := by decide
  ofType := by decide

def secondBatch (t : Int64) (ht : 1 < t.toInt) : NewValues (fun _ => FieldType.int64) where
  entries := [(1, [intValue 1, intValue t])]
  nodup := by simp
  id_ne := by simp [dataFileEOF]
  ne_nil := by simp
  ascending := by simpa [Values.Ascending, Keyed.Ascending, Value.unixNano, intValue] using ht
  ofType := by simp [Values.OfType, intValue, Value.type]

def firstFile : OpenFile := ⟨1, ⟨[⟨1, codec.bytes [intValue 1]⟩], [(1, 4)], 1, 2⟩⟩

/-- The file of both batches, with the maximum that the rewrite gives it. -/
def secondFile (t maxTime : Int64) : OpenFile :=
  ⟨2, ⟨[⟨1, codec.bytes [intValue 1, intValue t]⟩], [(1, 4)], 1, maxTime⟩⟩

/-- The first of the running rewrites finishes, in the order of the batch. -/
theorem rewrite_first {C : BlockCodec} {ty : UInt64 → FieldType} {cfg : EngineConfig}
    {e e' : Engine} {task : RewriteTask} {tasks : List RewriteTask}
    (h : e.rewrite C cfg task.oldDF task.valuesByID = some e') :
    EngineStep C ty cfg ⟨e, task :: tasks⟩ (.rewrite task task.valuesByID) ⟨e', tasks⟩ :=
  @EngineStep.rewrite C ty cfg e e' [] tasks task _ (Perm.refl _) h

/-- With 2 as the other time the range of the file stays as it was, and the
file stores a time outside of it. -/
theorem engine_not_separated :
    ∃ s, (engineSystem codec (fun _ => FieldType.int64) smallConfig).Reachable s ∧
      ¬ Separated codec s.engine.files := by
  refine ⟨⟨⟨[secondFile 2 2], 2⟩, [⟨none, []⟩]⟩, ?_, fun h => ?_⟩
  · refine .step (.step (.step (.step (.init rfl) trivial (.write firstBatch rfl)) trivial
      (rewrite_first rfl)) trivial (.write (secondBatch 2 (by decide)) rfl)) trivial
        (rewrite_first rfl)
  · have hstores : (secondFile 2 2).df.Stores codec 2 :=
      ⟨_, mem_cons_self, [intValue 1, intValue 2], by decide, intValue 2, by decide, rfl⟩
    exact absurd (h.within _ mem_cons_self 2 hstores).2 (by decide)

/-- With 3 as the other time nothing is tied, and the files are separated. -/
theorem engine_separated_untied :
    ∃ s, (engineSystem codec (fun _ => FieldType.int64) smallConfig).Reaches
        (KeepsRanges codec smallConfig) s ∧ s.engine.files = [secondFile 3 4] ∧
      Separated codec s.engine.files := by
  have hfirst : (engineSystem codec (fun _ => FieldType.int64) smallConfig).Reaches
      (KeepsRanges codec smallConfig) ⟨⟨[firstFile], 1⟩, []⟩ := by
    refine .step (.step (.init rfl) ?_ (.write firstBatch rfl)) ?_ (rewrite_first rfl)
    · exact ⟨by decide, by decide⟩
    · refine ⟨by unfold Untied; decide, ?_, by unfold ShortLayout; decide⟩
      exact mergeRoundTrips_of_exact (by decide) (by simp) firstBatch codec_exact
  have hold : ∀ d ∈ some firstFile.df, d.WellFormed codec (fun _ => FieldType.int64) := by
    rintro d ⟨⟩
    exact ((engineInv_of_reaches (by decide) hfirst).kept.ranged _ mem_cons_self).wellFormed
  have hsecond : (engineSystem codec (fun _ => FieldType.int64) smallConfig).Reaches
      (KeepsRanges codec smallConfig) ⟨⟨[secondFile 3 4], 2⟩, [⟨none, []⟩]⟩ := by
    refine .step (.step hfirst ?_ (.write (secondBatch 3 (by decide)) rfl)) ?_ (rewrite_first rfl)
    · exact ⟨by decide, by decide⟩
    · refine ⟨by unfold Untied; decide, ?_, by unfold ShortLayout; decide⟩
      exact mergeRoundTrips_of_exact (by decide) hold (secondBatch 3 (by decide)) codec_exact
  exact ⟨_, hsecond, rfl, engine_separated (by decide) hsecond⟩

end AndyEnv.Tsm1
