import AndyEnv.Tsm1.OrderedFiles

/-!
# What an ascending cursor returns

`SeekTo` and `Next` until the end return the values of the id from the time on,
unless the time falls between the ranges of two files, or after the values of a
file of one id, or a value has the time that marks the end.
-/

namespace AndyEnv.Tsm1

open Codec (Simple8b Snappy fileCodec)
open List Values

namespace IndexCursor

variable {S : Simple8b} {Z : Snappy} {ty : UInt64 → FieldType} {id : UInt64} {seek : Int64}
  {files : List DataFile}

def entriesFrom (S : Simple8b) (Z : Snappy) (id : UInt64) (seek : Int64) (files : List DataFile) :
    List Entry :=
  ((storedIn S Z id files).filter (fun v => seek ≤ v.time)).map Value.entry

/-- The time is at or before the first file, or in the range of a file. -/
def Covered (seek : Int64) (files : List DataFile) : Prop :=
  (∃ f, files.head? = some f ∧ seek ≤ f.minTime) ∨ ∃ f ∈ files, f.InRange seek

variable {fs : List DataFile} {c : IndexCursor}

theorem chooseFile_ranged {f : DataFile} (hlt : ¬ seek ≤ f.minTime) :
    (new id (f :: fs) true).chooseFile seek = some ((new id (f :: fs) true).rangedFile seek) := by
  have hlast := List.getLast?_eq_some_getLast (cons_ne_nil f fs)
  simp [chooseFile, new, hlast, hlt]

theorem seekTo_gap (S : Simple8b) (Z : Snappy) (id : UInt64) (h : ¬ Covered seek files) :
    ∃ c, seekTo S Z seek (new id files true) = some ((EOF, none), c) := by
  cases files with
  | nil => exact ⟨_, rfl⟩
  | cons f fs =>
    have hlt : ¬ seek ≤ f.minTime := fun hle => h (.inl ⟨f, rfl, hle⟩)
    have hwith : fileWith seek 0 (f :: fs) = none :=
      fileWith_eq_none.mpr (fun g hg hin => h (.inr ⟨g, hg, hin⟩))
    refine ⟨new id (f :: fs) true, ?_⟩
    have hranged : (new id (f :: fs) true).rangedFile seek = new id (f :: fs) true := by
      rw [rangedFile, show (new id (f :: fs) true).files = f :: fs from rfl, hwith]
    rw [seekTo, chooseFile_ranged hlt, hranged]
    rfl

/-- **A time that is covered leads to a file**, after files with values before it. -/
theorem seekTo_covered (id : UInt64) (hfiles : OrderedFiles S Z ty files) (h : Covered seek files) :
    ∃ before g after, files = before ++ g :: after ∧
      seekTo S Z seek (new id files true) = seekLoop S Z seek (files.length + 1)
        { new id files true with filesPos := (before.length : ℤ), f := some g } ∧
      (∀ v ∈ storedIn S Z id before, v.time < seek) ∧ (∀ x ∈ before, ¬ x.InRange seek) ∧
      (seek ≤ g.minTime ∨ g.InRange seek) := by
  cases files with
  | nil =>
    rcases h with ⟨f, hf, -⟩ | ⟨f, hf, -⟩
    · cases hf
    · cases hf
  | cons f fs =>
    by_cases hle : seek ≤ f.minTime
    · refine ⟨[], f, fs, rfl, ?_, nofun, nofun, .inl hle⟩
      have hlast := List.getLast?_eq_some_getLast (cons_ne_nil f fs)
      simp [seekTo, chooseFile, new, hlast, hle]
    cases hwith : fileWith seek 0 (f :: fs) with
    | none =>
      have hnone := fileWith_eq_none.mp hwith
      rcases h with ⟨g, hg, hle'⟩ | ⟨g, hg, hin⟩
      · cases hg
        exact absurd hle' hle
      · exact absurd hin (hnone g hg)
    | some r =>
      obtain ⟨k, g⟩ := r
      obtain ⟨before, after, hsplit, rfl, hin, hbefore⟩ := fileWith_eq_some hwith
      refine ⟨before, g, after, hsplit, ?_, fun v hv => ?_, hbefore, .inr hin⟩
      · have hranged : (new id (f :: fs) true).rangedFile seek =
            { new id (f :: fs) true with filesPos := (before.length : ℤ), f := some g } := by
          rw [rangedFile, show (new id (f :: fs) true).files = f :: fs from rfl, hwith, Nat.zero_add]
          rfl
        rw [seekTo, chooseFile_ranged hle, hranged]
        rfl
      · obtain ⟨x, hx, hv⟩ := mem_flatMap.mp hv
        have hord := hfiles.ordered
        rw [hsplit, pairwise_append] at hord
        have hlt := (hord.2.2 x hx g mem_cons_self).2 id v hv
        exact Int64.lt_of_lt_of_le hlt hin.1

/-- **A reading of the values ahead.** -/
theorem Ahead.rest {rest : Values} (h : Ahead S Z ty c rest)
    (hne : ∀ v ∈ rest, v.time ≠ EOF) : (cursor S Z).Rest EOF c (rest.map Value.entry) := by
  have hnext : ∀ {c : IndexCursor} {rest : Values}, Ahead S Z ty c rest →
      (cursor S Z).next c = IndexCursor.nextAscending S Z ((c.files.map DataFile.length).sum + 2) c := by
    rintro c rest ⟨-, k, d, pre, vss, post, -, -, hstate, -⟩
    exact if_pos hstate.ascending
  refine KeyedCursor.Rest.of_ahead
    (fun c es => ∃ rest : Values, es = rest.map Value.entry ∧ Ahead S Z ty c rest) ?_ ?_ ⟨rest, rfl, h⟩ ?_
  · rintro c ⟨rest, hnil, hahead⟩
    obtain ⟨c', hc'⟩ := (hahead.nextAscending _).1 (map_eq_nil_iff.mp hnil.symm)
    exact ⟨none, c', (hnext hahead).trans hc'⟩
  · rintro c e es ⟨rest, hcons, hahead⟩
    obtain ⟨v, rest', rfl, rfl, rfl⟩ := map_eq_cons_iff.mp hcons.symm
    obtain ⟨c', hc', hahead'⟩ := (hahead.nextAscending _).2 v rest' rfl
    exact ⟨c', (hnext hahead).trans hc', rest', rfl, hahead'⟩
  · intro e he
    obtain ⟨v, hv, rfl⟩ := mem_map.mp he
    exact hne v hv

/-! ## The condition -/

structure Seekable (S : Simple8b) (Z : Snappy) (id : UInt64) (seek : Int64)
    (files : List DataFile) : Prop where
  /-- No value from the time on has the time that marks the end. -/
  ne_eof : ∀ v ∈ storedIn S Z id files, seek ≤ v.time → v.time ≠ EOF
  /-- The time is not in a gap before values of the id. -/
  covered : (∃ v ∈ storedIn S Z id files, seek ≤ v.time) → Covered seek files
  /-- The time is not after the values of a file of one id. -/
  readable : ∀ f ∈ files, f.InRange seek → Readable S Z id seek f

/-- **A file of one id with no value from the time on makes `SeekTo` panic.** -/
theorem seekLoop_index {d : DataFile} {k : ℕ}
    (hd : d.WellFormed (fileCodec S Z) ty) (hpos : c.filesPos = (k : ℕ))
    (hdrop : c.files.drop k = d :: fs) (hasc : c.ascending = true) (honly : d.OnlyID c.id)
    (hbefore : ∀ v ∈ d.valuesOf S Z c.id, v.time < seek) (fuel : ℕ) :
    seekLoop S Z seek (fuel + 1) c = none := by
  have hascending := valuesOf_ascending hd c.id
  obtain ⟨v, hv⟩ := OrderedFiles.exists_value hd honly
  obtain ⟨pre, vs, vss, post, hrun, hpre, hvals, hstart, hne⟩ :=
    (hd.run_cases c.id).resolve_left (fun hnil => ne_nil_of_mem hv hnil.1)
  rw [hvals] at hbefore hascending
  have hpre_nil : pre = [] := eq_nil_iff_forall_not_mem.mpr (fun b hb =>
    hpre b hb (honly.2 b (by rw [hrun.blocks]; exact mem_append_left _ hb)))
  have hpost_nil : post = [] := eq_nil_iff_forall_not_mem.mpr (fun b hb =>
    hrun.post b hb (honly.2 b (by
      rw [hrun.blocks]
      exact mem_append_right _ (mem_append_right _ hb))))
  obtain ⟨b, bs, hblocks⟩ := exists_cons_of_ne_nil honly.1
  have hb : b.id = c.id := honly.2 b (by rw [hblocks]; exact mem_cons_self)
  subst hpre_nil hpost_nil
  obtain ⟨vals, pre', fuel', hseek, hend⟩ := seekAscending_before hd
    (c := { c with f := some d, pos := positionAfter [] }) ⟨hrun, rfl, rfl, hasc⟩ hascending
    hrun.length_le (fromTime_eq_nil.mpr hbefore)
  have hstate : At S Z { c with f := some d, vals := vals, pos := positionAfter pre' } d pre' [] [] :=
    ⟨hend, rfl, rfl, hasc⟩
  have hpanic : seekAscending S Z seek (fuel' + 1)
      { c with f := some d, vals := vals, pos := positionAfter pre' } = none :=
    seekAscending_index hd hstate hblocks hb (fuel' + 1)
  rw [seekLoop_file hpos hdrop hasc hstart, if_neg hne, hseek, hpanic]
  rfl

section

variable (hfiles : OrderedFiles S Z ty files)
include hfiles

theorem readable_of_le {f : DataFile} (hf : f ∈ files)
    (hle : seek ≤ f.minTime) : Readable S Z id seek f := by
  intro honly
  obtain ⟨v, hv⟩ := OrderedFiles.exists_value (hfiles.wellFormed f hf) honly
  exact ⟨v, hv, Int64.le_trans hle (hfiles.within f hf id v hv).1⟩

theorem readable_from (h : Seekable S Z id seek files)
    {before after : List DataFile} {g : DataFile} (hsplit : files = before ++ g :: after)
    (hg : seek ≤ g.minTime ∨ g.InRange seek) : ∀ f ∈ g :: after, Readable S Z id seek f := by
  have hmem : ∀ f ∈ g :: after, f ∈ files := fun f hf => hsplit ▸ mem_append_right _ hf
  have hend : seek ≤ g.maxTime := by
    rcases hg with hle | hin
    · exact Int64.le_trans hle (hfiles.le g (hmem g mem_cons_self))
    · exact hin.2
  have hord := hfiles.ordered
  rw [hsplit, pairwise_append] at hord
  refine forall_mem_cons.mpr ⟨?_, fun f hf => ?_⟩
  · rcases hg with hle | hin
    · exact readable_of_le hfiles (hmem g mem_cons_self) hle
    · exact h.readable g (hmem g mem_cons_self) hin
  · have hnext := ((pairwise_cons.mp hord.2.1).1 f hf).1
    exact readable_of_le hfiles (hmem f (mem_cons_of_mem g hf)) (Int64.le_trans hend hnext)

/-- **A seek that is served.** -/
theorem scan_of_seekable (h : Seekable S Z id seek files) :
    (cursor S Z).Scan EOF seek (new id files true) (entriesFrom S Z id seek files) := by
  have hfilter : fromTime seek (storedIn S Z id files) =
      (storedIn S Z id files).filter (fun v => seek ≤ v.time) :=
    fromTime_eq_filter (hfiles.ascending id)
  have hne : ∀ v ∈ fromTime seek (storedIn S Z id files), v.time ≠ EOF := by
    intro v hv
    rw [hfilter, mem_filter, decide_eq_true_eq] at hv
    exact h.ne_eof v hv.1 hv.2
  rw [entriesFrom, ← hfilter]
  by_cases hcovered : Covered seek files
  · obtain ⟨before, g, after, hsplit, hseek, hbefore, -, hg⟩ := seekTo_covered id hfiles hcovered
    have hdrop : files.drop before.length = g :: after := by rw [hsplit, drop_left]
    have hstored : fromTime seek (storedIn S Z id files) =
        fromTime seek (storedIn S Z id (g :: after)) := by
      rw [hsplit, storedIn, flatMap_append]
      exact fromTime_append_of_nil (fromTime_eq_nil.mpr hbefore)
    have hlength : (g :: after).length < files.length + 1 := by
      rw [hsplit, length_append]
      omega
    obtain ⟨hnil, hcons⟩ := seekLoop_spec
      (c := { new id files true with filesPos := (before.length : ℤ), f := some g })
      hfiles.wellFormed rfl rfl hdrop hlength (readable_from hfiles h hsplit hg)
    rw [hstored] at hne ⊢
    cases hfrom : fromTime seek (storedIn S Z id (g :: after)) with
    | nil =>
      obtain ⟨c, hc⟩ := hnil hfrom
      exact .eof (hseek.trans hc)
    | cons v rest =>
      rw [hfrom] at hne
      obtain ⟨c, hc, hahead⟩ := hcons v rest hfrom (hne v mem_cons_self)
      exact .step (hseek.trans hc) (hne v mem_cons_self)
        (hahead.rest (forall_mem_cons.mp hne).2)
  · have hnil : fromTime seek (storedIn S Z id files) = [] := by
      refine fromTime_eq_nil.mpr (fun v hv => ?_)
      by_contra hlt
      exact hcovered (h.covered ⟨v, hv, Int64.not_lt.mp hlt⟩)
    obtain ⟨c, hc⟩ := seekTo_gap S Z id hcovered
    rw [hnil]
    exact .eof hc

/-- **A seek that is not served.** -/
theorem seekable_of_scan
    (h : (cursor S Z).Scan EOF seek (new id files true) (entriesFrom S Z id seek files)) :
    Seekable S Z id seek files := by
  have hmem : ∀ v ∈ storedIn S Z id files, seek ≤ v.time → v.entry ∈ entriesFrom S Z id seek files :=
    fun v hv hle => mem_map_of_mem (mem_filter.mpr ⟨hv, decide_eq_true hle⟩)
  refine ⟨fun v hv hle => h.ne_eof _ (hmem v hv hle), ?_, ?_⟩
  · rintro ⟨v, hv, hle⟩
    by_contra hgap
    obtain ⟨c, hc⟩ := seekTo_gap S Z id hgap
    have hnil := KeyedCursor.Scan.unique h (.eof hc)
    have hentry := hmem v hv hle
    rw [hnil] at hentry
    cases hentry
  · intro f hf hin honly
    by_contra hnone
    have hbefore : ∀ v ∈ f.valuesOf S Z id, v.time < seek := fun v hv => by
        by_contra hle
        exact hnone ⟨v, hv, Int64.not_lt.mp hle⟩
    obtain ⟨v, hv⟩ := OrderedFiles.exists_value (hfiles.wellFormed f hf) honly
    have hmin : f.minTime < seek := Int64.lt_of_le_of_lt (hfiles.within f hf id v hv).1 (hbefore v hv)
    obtain ⟨before, g, after, hsplit, hseek, -, hfirst, hg⟩ :=
      seekTo_covered id hfiles (.inr ⟨f, hf, hin⟩)
    have hord := hfiles.ordered
    have hgmem : g ∈ files := hsplit ▸ mem_append_right _ mem_cons_self
    have hend : seek ≤ g.maxTime := by
      rcases hg with hle | hin'
      · exact Int64.le_trans hle (hfiles.le g hgmem)
      · exact hin'.2
    rw [hsplit, pairwise_append] at hord
    -- the chosen file is this one: it is the first in range, and the ones after it begin later
    have hfg : f = g := by
      rw [hsplit] at hf
      rcases mem_append.mp hf with hf | hf
      · exact absurd hin (hfirst f hf)
      · rcases mem_cons.mp hf with hf | hf
        · exact hf
        · have hle := ((pairwise_cons.mp hord.2.1).1 f hf).1
          exact absurd hmin (Int64.not_lt.mpr (Int64.le_trans hend hle))
    subst hfg
    have hpanic : seekLoop S Z seek (files.length + 1)
        { new id files true with filesPos := (before.length : ℤ), f := some f } = none :=
      seekLoop_index (hfiles.wellFormed f hgmem) rfl (by rw [hsplit]; exact drop_left) rfl honly
        hbefore files.length
    exact KeyedCursor.not_scan_of_panic (hseek.trans hpanic) _ h

theorem entriesFrom_ascending : ((entriesFrom S Z id seek files).map Prod.fst).Pairwise (· < ·) := by
  rw [entriesFrom, map_map, pairwise_map]
  exact ((hfiles.ascending id).sublist filter_sublist).imp Int64.lt_iff_toInt_lt.mpr

end

/-- **Ascending reads are complete exactly if the seek is served**: `SeekTo` and
`Next` until the end return the values of the id from the time on, each once and
in the order of time. -/
theorem ascending_scan_iff (S : Simple8b) (Z : Snappy) (ty : UInt64 → FieldType)
    (files : List DataFile) (hfiles : OrderedFiles S Z ty files) (id : UInt64) (seek : Int64) :
    ((cursor S Z).Scan EOF seek (new id files true) (entriesFrom S Z id seek files) ∧
      ((entriesFrom S Z id seek files).map Prod.fst).Pairwise (· < ·)) ↔
      Seekable S Z id seek files := by
  constructor
  · rintro ⟨hscan, -⟩
    exact seekable_of_scan hfiles hscan
  · intro h
    exact ⟨scan_of_seekable hfiles h, entriesFrom_ascending hfiles⟩

/-- A seek into the first of two files. -/
theorem ascending_scan_two : (cursor Simple8b.plain Snappy.plain).Scan EOF 2
      (new 1 (boolFiles 1 [([[1, 2]], 1, 2), ([[5]], 5, 6)]) true)
      [(2, some (.bool true)), (5, some (.bool true))] := by
  have hfiles : OrderedFiles Simple8b.plain Snappy.plain (fun _ => .bool)
      (boolFiles 1 [([[1, 2]], 1, 2), ([[5]], 5, 6)]) :=
    orderedFiles_boolFiles (by decide) (by decide +kernel) (by decide +kernel)
  have hstored : storedIn Simple8b.plain Snappy.plain 1 (boolFiles 1 [([[1, 2]], 1, 2), ([[5]], 5, 6)]) =
      boolsAt [1, 2, 5] := by decide +kernel
  have hseek : Seekable Simple8b.plain Snappy.plain 1 2
      (boolFiles 1 [([[1, 2]], 1, 2), ([[5]], 5, 6)]) := by
    refine ⟨?_, fun _ => .inr ⟨_, mem_cons_self, by decide⟩, ?_⟩
    · rw [hstored]
      intro v hv _
      obtain ⟨t, ht, rfl⟩ := mem_map.mp hv
      revert t
      rw [forall_mem_cons, forall_mem_cons, forall_mem_singleton]
      decide
    · refine forall_mem_cons.mpr ⟨fun _ _ => ⟨⟨2, .bool true⟩, by decide +kernel, by decide⟩, ?_⟩
      exact forall_mem_singleton.mpr (fun hin => absurd hin (by decide))
  have hentries : entriesFrom Simple8b.plain Snappy.plain 1 2
      (boolFiles 1 [([[1, 2]], 1, 2), ([[5]], 5, 6)]) =
      [(2, some (.bool true)), (5, some (.bool true))] := by
    rw [entriesFrom, hstored]
    rfl
  rw [← hentries]
  exact ((ascending_scan_iff _ _ _ _ hfiles 1 2).mpr hseek).1

/-- **Ascending reads that are not complete**: a time between two files ends the
scan although a later value is stored, a time after the values of a file of one id
makes `SeekTo` panic, and a value at the time that marks the end is not returned. -/
theorem ascending_scan_incomplete : (OrderedFiles Simple8b.plain Snappy.plain (fun _ => .bool)
        (boolFiles 1 [([[1, 2]], 1, 2), ([[5]], 5, 6)]) ∧
      (cursor Simple8b.plain Snappy.plain).Scan EOF 3
        (new 1 (boolFiles 1 [([[1, 2]], 1, 2), ([[5]], 5, 6)]) true) [] ∧
      entriesFrom Simple8b.plain Snappy.plain 1 3 (boolFiles 1 [([[1, 2]], 1, 2), ([[5]], 5, 6)]) =
        [(5, some (.bool true))]) ∧
    (OrderedFiles Simple8b.plain Snappy.plain (fun _ => .bool) (boolFiles 1 [([[1, 2]], 1, 3)]) ∧
      seekTo Simple8b.plain Snappy.plain 3 (new 1 (boolFiles 1 [([[1, 2]], 1, 3)]) true) = none) ∧
    (OrderedFiles Simple8b.plain Snappy.plain (fun _ => .bool) (boolFiles 1 [([[-1, 2]], -1, 3)]) ∧
      (cursor Simple8b.plain Snappy.plain).Scan EOF (-1)
        (new 1 (boolFiles 1 [([[-1, 2]], -1, 3)]) true) [] ∧
      entriesFrom Simple8b.plain Snappy.plain 1 (-1) (boolFiles 1 [([[-1, 2]], -1, 3)]) =
        [(-1, some (.bool true)), (2, some (.bool true))]) := by
  refine ⟨⟨?_, ?_, by decide +kernel⟩, ⟨?_, by decide +kernel⟩, ?_, ?_, by decide +kernel⟩
  · exact orderedFiles_boolFiles (by decide) (by decide +kernel) (by decide +kernel)
  · exact KeyedCursor.Scan.nil_of_key (by decide +kernel)
  · exact orderedFiles_boolFiles (by decide) (by decide +kernel) (by decide +kernel)
  · exact orderedFiles_boolFiles (by decide) (by decide +kernel) (by decide +kernel)
  · exact KeyedCursor.Scan.nil_of_key (by decide +kernel)

end IndexCursor

end AndyEnv.Tsm1
