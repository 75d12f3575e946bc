import AndyEnv.Tsm1.SplitBatch

/-!
# The files that rewrites and compactions write

A rewritten file stores only times of its range when the latest of the last
times is not tied (`Untied`); its range then lies in every interval that holds
the old range and the batch. A compaction of ordered files that fits one file
writes one that stores only times of the whole range.
-/

namespace AndyEnv.Tsm1

open List DataFile

/-- A block of the file decodes to values, one of them at time `t`. -/
def DataFile.Stores (C : BlockCodec) (d : DataFile) (t : ℤ) : Prop :=
  ∃ b ∈ d.blocks, ∃ vs, C.decodeBlock b.data = some vs ∧ ∃ v ∈ vs, v.unixNano = t

/-- The blocks, with the index and the footer, end before the last position a
`uint32` can hold. -/
def ShortLayout (blocks : List Block) : Prop :=
  fileHeaderSize + blocksSize blocks +
    ((indexOf blocks).length * seriesHeaderSize + footerFixedSize) < 2 ^ 32

def mergedBlocks (C : BlockCodec) (max : ℕ) (old : Option DataFile) (valuesByID : ValuesByID) :
    List Block :=
  (idsToWrite old valuesByID).flatMap (fun id =>
    encodeRun C id (rewrittenBlocks max (oldBlocks C old id) ((valuesByID.lookup id).getD [])))

/-! ## One file -/

/-- A file as the engine keeps it: well formed, not empty, and with the times
it stores in its range. -/
structure DataFile.Ranged (C : BlockCodec) (ty : UInt64 → FieldType) (d : DataFile) : Prop where
  wellFormed : d.WellFormed C ty
  ne_nil : d.blocks ≠ []
  lt : d.minTime.toInt < d.maxTime.toInt
  within : ∀ t, d.Stores C t → t ∈ d.range

variable {d : DataFile} {nv : NewValues ty} {files : List OpenFile}

section Files

variable {C : BlockCodec} {ty : UInt64 → FieldType} {max : ℕ}

variable {id : UInt64} {old : Option DataFile} {f : OpenFile}

theorem DataFile.stores_of_mem_decodedBlocks {v : Value}
    (h : v ∈ (d.decodedBlocks C id).flatten) : d.Stores C v.unixNano := by
  obtain ⟨vs, hvs, hv⟩ := mem_flatten.mp h
  obtain ⟨b, hb, rfl⟩ := mem_map.mp hvs
  cases hdec : C.decodeBlock b.data with
  | none =>
    rw [hdec] at hv
    cases hv
  | some vs =>
    rw [hdec] at hv
    exact ⟨b, mem_of_mem_filter hb, vs, hdec, v, hv, rfl⟩

theorem DataFile.exists_of_stores_layout {ids : List UInt64}
    {vss : UInt64 → List Values} (hblocks : d.blocks = ids.flatMap (fun id => encodeRun C id (vss id)))
    (hvss : ∀ id, ∀ vs ∈ vss id, C.RoundTrips vs) {t : ℤ} (h : d.Stores C t) :
    ∃ id, ∃ v ∈ (vss id).flatten, v.unixNano = t := by
  obtain ⟨b, hb, vs, hdec, v, hv, rfl⟩ := h
  rw [hblocks] at hb
  obtain ⟨id, -, hb⟩ := mem_flatMap.mp hb
  obtain ⟨ws, hws, rfl⟩ := mem_map.mp hb
  rw [(hvss id ws hws).decode] at hdec
  cases hdec
  exact ⟨id, v, mem_flatten.mpr ⟨_, hws, hv⟩, rfl⟩

theorem NewValues.All.valuesFor {P : Value → Prop} (h : nv.All P)
    : ∀ v ∈ nv.valuesFor id, P v := by
  intro v hv
  cases hl : nv.entries.lookup id with
  | none =>
    rw [NewValues.valuesFor, hl] at hv
    cases hv
  | some vs =>
    obtain ⟨l₁, l₂, he, -⟩ := lookup_eq_some_iff.mp hl
    rw [NewValues.valuesFor, hl] at hv
    exact h (id, vs) (by rw [he]; simp) v hv

/-- The range of the new file holds the batch, begins at or before the old
one and ends at or after it. -/
theorem widenRange_covers (hne : nv.entries ≠ [])
    (htime : nv.All (fun v => v.time ≠ Int64.maxValue)) {range r : Int64 × Int64}
    (hr : (nv.entries.map Prod.snd).foldlM widenRange range = some r)
    (huntied : Untied range.2.toInt (lastTimes nv.entries)) :
    r.1.toInt ≤ range.1.toInt ∧ range.2.toInt ≤ r.2.toInt ∧
      nv.All (fun v => v.unixNano ∈ Set.Ico r.1.toInt r.2.toInt) ∧
      r.1.toInt < r.2.toInt ∧
      (r.1 = range.1 ∨ ∃ p ∈ nv.entries, ∃ v ∈ p.2, v.unixNano = r.1.toInt) ∧
      (r.2.toInt = range.2.toInt ∨ ∃ p ∈ nv.entries, ∃ v ∈ p.2, v.unixNano + 1 = r.2.toInt) := by
  obtain ⟨r', hr', hmax, hmin, hle, hmem⟩ := @widenRange_spec nv.entries range
    (fun p hp => ⟨nv.ne_nil p hp, nv.ascending p hp⟩) htime
  obtain rfl : r' = r := Option.some.inj (hr'.symm.trans hr)
  have hall : nv.All (fun v => v.unixNano ∈ Set.Ico r'.1.toInt r'.2.toInt) := by
    intro p hp v hv
    obtain ⟨hi, hhi⟩ := exists_maxTime (nv.ne_nil p hp)
    have hlast : hi.toInt ∈ lastTimes nv.entries := mem_filterMap.mpr ⟨p, hp, by rw [hhi]; rfl⟩
    have hlt := huntied.lt_foldl (List.Perm.refl _) _ hlast
    exact ⟨hle p hp v hv, (le_maxTime (nv.ascending p hp) hhi v hv).trans_lt (hmax ▸ hlt)⟩
  refine ⟨hmin, hmax ▸ le_foldl_widenMax _ _, hall, ?_, ?_, ?_⟩
  · obtain ⟨p, ps, hp⟩ := exists_cons_of_ne_nil hne
    have hmem : p ∈ nv.entries := hp ▸ mem_cons_self
    obtain ⟨v, vs, hv⟩ := exists_cons_of_ne_nil (nv.ne_nil p hmem)
    obtain ⟨h1, h2⟩ := hall p hmem v (hv ▸ mem_cons_self)
    exact h1.trans_lt h2
  · rcases hmem with h | ⟨p, hp, v, hv, h⟩
    · exact .inl h
    · exact .inr ⟨p, hp, v, hv, congrArg Int64.toInt h⟩
  · rw [hmax]
    rcases @foldl_widenMax_eq range.2.toInt (lastTimes nv.entries) _ le_rfl with h | ⟨m, hm, h, -⟩
    · exact .inl h
    · obtain ⟨p, hp, hm⟩ := mem_filterMap.mp hm
      obtain ⟨t, ht, rfl⟩ := Option.map_eq_some_iff.mp hm
      obtain ⟨v, hv, rfl⟩ := Option.map_eq_some_iff.mp ht
      exact .inr ⟨p, hp, v, mem_of_mem_getLast? hv, h.symm⟩

/-- The range to start from has its ends in the slot, unless it is the empty
one. -/
theorem initialRange_mem (hold : ∀ d ∈ old, d.Ranged C ty) {S : Set ℤ}
    (hS : ∀ d ∈ old, d.range ⊆ S) : initialRange old = (Int64.maxValue, Int64.minValue) ∨
      ((initialRange old).1.toInt ∈ S ∧ (initialRange old).2.toInt - 1 ∈ S) := by
  cases old with
  | none => exact .inl rfl
  | some d =>
    have hlt := (hold d rfl).lt
    exact .inr ⟨hS d rfl ⟨le_rfl, hlt⟩, hS d rfl ⟨Int.le_sub_one_of_lt hlt, sub_one_lt _⟩⟩

/-- **A rewritten file keeps to its range**, and its range to every interval
that holds the old range and the batch. -/
theorem rewriteFile_ranged (hmax : 1 ≤ max)
    (hold : ∀ d ∈ old, d.Ranged C ty) {nv : NewValues ty} (hne : nv.entries ≠ [])
    (hmerge : MergeRoundTrips C max old nv.entries)
    (htime : nv.All (fun v => v.time ≠ Int64.maxValue))
    (huntied : Untied (initialRange old).2.toInt (lastTimes nv.entries))
    (hshort : ShortLayout (mergedBlocks C max old nv.entries)) :
    ∃ newDF, rewriteFile C max old nv.entries = some (some newDF) ∧ newDF.Ranged C ty ∧
      ∀ S : Set ℤ, S.OrdConnected → (∀ d ∈ old, d.range ⊆ S) →
        nv.All (fun v => v.unixNano ∈ S) → newDF.range ⊆ S := by
  have hwf : ∀ d ∈ old, d.WellFormed C ty := fun d hd => (hold d hd).wellFormed
  obtain ⟨range, hrange, hfile⟩ := rewriteFile_eq hmax hwf nv hmerge hne
  obtain ⟨hlo, hhi, hall, hlt, hfirst, hlast⟩ := widenRange_covers hne htime hrange huntied
  refine ⟨_, hfile, ⟨rewriteFile_wellFormed hmax hwf nv hmerge hfile ?_, ?_, hlt, ?_⟩, ?_⟩
  · unfold DataFile.length
    rw [zip_runStarts_newRun hwf nv]
    exact hshort
  · obtain ⟨p, ps, hp⟩ := exists_cons_of_ne_nil hne
    have hid : nv.valuesFor p.1 ≠ [] := (nv.valuesFor_spec p.1).2.2.mpr (by rw [hp]; simp)
    have hmem := (mem_idsToWrite hwf nv p.1).mpr (.inl hid)
    have hrun : newRun C max old nv p.1 ≠ [] := by
      rw [newRun, encodeRun, Ne, map_eq_nil_iff]
      exact rewrittenBlocks_ne_nil (.inl hid)
    exact fun hnil => hrun (flatMap_eq_nil_iff.mp hnil p.1 hmem)
  · intro t ht
    obtain ⟨id, v, hv, rfl⟩ := exists_of_stores_layout rfl hmerge ht
    change v ∈ (rewrittenBlocks max (oldBlocks C old id) (nv.valuesFor id)).flatten at hv
    rw [(rewrittenBlocks_good hmax hwf nv id).2] at hv
    rcases mem_of_mem_combined (isRun_oldBlocks hwf id).1 hv with hv | hv
    · cases old with
      | none => cases hv
      | some d =>
        obtain ⟨h1, h2⟩ := (hold d rfl).within _ (stores_of_mem_decodedBlocks hv)
        exact ⟨hlo.trans h1, h2.trans_le hhi⟩
    · exact hall.valuesFor v hv
  · intro S hS hdS hvS
    have hends := initialRange_mem hold hdS
    have hfirstS : range.1.toInt ∈ S := by
      rcases hfirst with h | ⟨p, hp, v, hv, h⟩
      · rcases hends with he | he
        · -- nothing is below the empty range's maximum
          rw [h, he] at hlt
          exact absurd (Int64.toInt_le range.2) (not_le.mpr hlt)
        · exact h ▸ he.1
      · exact h ▸ hvS p hp v hv
    have hlastS : range.2.toInt - 1 ∈ S := by
      rcases hlast with h | ⟨p, hp, v, hv, h⟩
      · rcases hends with he | he
        · rw [h, he] at hlt
          exact absurd (Int64.le_toInt range.1) (not_le.mpr hlt)
        · exact h ▸ he.2
      · rw [← h, add_sub_cancel_right]
        exact hvS p hp v hv
    intro t ht
    exact hS.out hfirstS hlastS ⟨ht.1, Int.le_sub_one_of_lt ht.2⟩

/-! ## A compacted file -/

def compactedFile (C : BlockCodec) (max : ℕ) (minTime maxTime : Int64) (files : List DataFile) :
    DataFile :=
  ⟨(compactionIDs files).flatMap (compactedRun C max files),
    indexOf ((compactionIDs files).flatMap (compactedRun C max files)), minTime, maxTime⟩

theorem Ordered.span (hordered : Ordered (f :: files))
    (hlt : ∀ g ∈ f :: files, g.df.minTime.toInt < g.df.maxTime.toInt) :
    ∀ g ∈ f :: files, f.df.minTime.toInt ≤ g.df.minTime.toInt ∧
      g.df.maxTime.toInt ≤ ((f :: files).getLast (cons_ne_nil _ _)).df.maxTime.toInt := by
  intro g hg
  constructor
  · rcases mem_cons.mp hg with rfl | hmem
    · exact le_rfl
    · exact (hlt f mem_cons_self).le.trans ((pairwise_cons.mp hordered).1 g hmem)
  · have hlast := dropLast_append_getLast (cons_ne_nil f files)
    have hmem := getLast_mem (cons_ne_nil f files)
    rw [← hlast] at hg hordered
    rcases mem_append.mp hg with hg | hg
    · have hle := (pairwise_append.mp hordered).2.2 g hg _ mem_cons_self
      exact hle.trans (hlt _ hmem).le
    · rw [mem_singleton.mp hg]

theorem ascending_inputBlocks (hfiles : ∀ g ∈ files, g.df.Ranged C ty)
    (hordered : Ordered files) (id : UInt64) :
    Values.Ascending (inputBlocks C (files.map OpenFile.df) id).flatten := by
  induction files with
  | nil => exact Keyed.ascending_nil
  | cons f files ih =>
    obtain ⟨hf, hfiles⟩ := forall_mem_cons.mp hfiles
    obtain ⟨hle, hordered⟩ := pairwise_cons.mp hordered
    rw [inputBlocks, map_cons, flatMap_cons, flatten_append]
    refine Keyed.ascending_append.mpr ⟨hf.wellFormed.ascending id _ (hf.wellFormed.valuesFor_eq id),
      ih hfiles hordered, fun v hv w hw => ?_⟩
    obtain ⟨vs, hvs, hw⟩ := mem_flatten.mp hw
    obtain ⟨d, hd, hvs⟩ := mem_flatMap.mp hvs
    obtain ⟨g, hg, rfl⟩ := mem_map.mp hd
    have hv := hf.within _ (stores_of_mem_decodedBlocks hv)
    have hw := (hfiles g hg).within _
      (stores_of_mem_decodedBlocks (mem_flatten.mpr ⟨vs, hvs, hw⟩))
    exact hv.2.trans_le ((hle g hg).trans hw.1)

/-- A well-formed file decodes to a value for the id of each of its blocks. -/
theorem DataFile.WellFormed.exists_value (h : d.WellFormed C ty) {b : Block}
    (hb : b ∈ d.blocks) : ∃ v, v ∈ (d.decodedBlocks C b.id).flatten := by
  obtain ⟨vs, hvs, -, hdata⟩ := h.encodes b hb
  obtain ⟨v, ws, rfl⟩ := exists_cons_of_ne_nil hvs.ne_nil
  refine ⟨v, mem_flatten.mpr ⟨v :: ws, mem_map.mpr ⟨b, ?_, ?_⟩, mem_cons_self⟩⟩
  · exact mem_filter.mpr ⟨hb, beq_self_eq_true _⟩
  · rw [hdata, hvs.decode]
    rfl

/-- **Ordered files compact to a file that keeps to the whole range.** -/
theorem compactedFile_ranged
    (hfiles : ∀ g ∈ f :: files, g.df.Ranged C ty) (hordered : Ordered (f :: files))
    (hround : ∀ id, ∀ vs ∈ cuts max (inputBlocks C ((f :: files).map OpenFile.df) id),
      C.RoundTrips vs)
    (hshort : ShortLayout ((compactionIDs ((f :: files).map OpenFile.df)).flatMap
      (compactedRun C max ((f :: files).map OpenFile.df)))) :
    (compactedFile C max f.df.minTime ((f :: files).getLast (cons_ne_nil _ _)).df.maxTime
      ((f :: files).map OpenFile.df)).Ranged C ty := by
  have hwf : ∀ d ∈ (f :: files).map OpenFile.df, d.WellFormed C ty := by
    intro d hd
    obtain ⟨g, hg, rfl⟩ := mem_map.mp hd
    exact (hfiles g hg).wellFormed
  have hspan := hordered.span (fun g hg => (hfiles g hg).lt)
  refine ⟨wellFormed_of_layout (pairwise_compactionIDs _) (fun id hid => ?_)
    (fun id _ => ⟨fun vs hvs => ⟨hround id vs hvs, ofType_cuts hwf id vs hvs⟩, ?_⟩) rfl rfl hshort,
    ?_, ?_, ?_⟩
  · obtain ⟨d, hd, b, hb, rfl⟩ := mem_compactionIDs_iff.mp hid
    exact (hwf d hd).id_ne b hb
  · rw [flatten_cuts]
    exact ascending_inputBlocks hfiles hordered id
  · obtain ⟨b, bs, hb⟩ := exists_cons_of_ne_nil (hfiles f mem_cons_self).ne_nil
    have hbmem : b ∈ f.df.blocks := hb ▸ mem_cons_self
    have hid : b.id ∈ compactionIDs ((f :: files).map OpenFile.df) :=
      mem_compactionIDs_iff.mpr ⟨f.df, by simp, b, hbmem, rfl⟩
    obtain ⟨v, hv⟩ := (hfiles f mem_cons_self).wellFormed.exists_value hbmem
    intro hnil
    have hcuts := map_eq_nil_iff.mp (flatMap_eq_nil_iff.mp hnil b.id hid)
    have hflat := flatten_cuts max (inputBlocks C ((f :: files).map OpenFile.df) b.id)
    rw [hcuts, inputBlocks, map_cons, flatMap_cons, flatten_append] at hflat
    exact ne_nil_of_mem hv (append_eq_nil_iff.mp hflat.symm).1
  · obtain ⟨h1, h2⟩ := hspan f mem_cons_self
    exact (hfiles f mem_cons_self).lt.trans_le h2
  · intro t ht
    obtain ⟨id, v, hv, rfl⟩ := exists_of_stores_layout rfl hround ht
    rw [flatten_cuts] at hv
    obtain ⟨vs, hvs, hv⟩ := mem_flatten.mp hv
    obtain ⟨d, hd, hvs⟩ := mem_flatMap.mp hvs
    obtain ⟨g, hg, rfl⟩ := mem_map.mp hd
    obtain ⟨h1, h2⟩ := (hfiles g hg).within _
      (stores_of_mem_decodedBlocks (mem_flatten.mpr ⟨vs, hvs, hv⟩))
    exact ⟨(hspan g hg).1.trans h1, h2.trans_le (hspan g hg).2⟩

end Files

end AndyEnv.Tsm1
