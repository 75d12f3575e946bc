import AndyEnv.Tsm1.AscendingReads
import AndyEnv.Tsm1.SmallFiles

/-!
# Files in the order of their ranges

The files of an engine are in the order of the ranges in their footers, and
their values are within the ranges. `SeekTo` chooses a file by its range.
-/

namespace AndyEnv.Tsm1

open Codec (Simple8b Snappy fileCodec)
open IndexCursor (storedIn)
open List

variable {S : Simple8b} {Z : Snappy} {ty : UInt64 → FieldType}

/-- Well-formed files with ranges that follow one another. The end of a range may
be the beginning of the next one, if no value is stored there. -/
structure OrderedFiles (S : Simple8b) (Z : Snappy) (ty : UInt64 → FieldType)
    (files : List DataFile) : Prop where
  wellFormed : ∀ f ∈ files, f.WellFormed (fileCodec S Z) ty
  le : ∀ f ∈ files, f.minTime ≤ f.maxTime
  within : ∀ f ∈ files, ∀ id, ∀ v ∈ f.valuesOf S Z id, f.minTime ≤ v.time ∧ v.time ≤ f.maxTime
  ordered : files.Pairwise (fun f g => f.maxTime ≤ g.minTime ∧
    ∀ id, ∀ v ∈ f.valuesOf S Z id, v.time < g.minTime)

variable {f : DataFile} {id : UInt64} {v : Value}

namespace OrderedFiles

variable {files : List DataFile}

theorem tail (h : OrderedFiles S Z ty (f :: files)) : OrderedFiles S Z ty files where
  wellFormed g hg := h.wellFormed g (mem_cons_of_mem f hg)
  le g hg := h.le g (mem_cons_of_mem f hg)
  within g hg := h.within g (mem_cons_of_mem f hg)
  ordered := (pairwise_cons.mp h.ordered).2

/-- **The values of an id ascend through the files.** -/
theorem ascending (id : UInt64) : ∀ {files : List DataFile}, OrderedFiles S Z ty files →
    Values.Ascending (storedIn S Z id files)
  | [], _ => Keyed.ascending_nil
  | f :: files, h => by
    refine Keyed.ascending_append.mpr ⟨?_, h.tail.ascending id, fun v hv w hw => ?_⟩
    · exact IndexCursor.valuesOf_ascending (h.wellFormed f mem_cons_self) id
    · obtain ⟨g, hg, hw⟩ := mem_flatMap.mp hw
      have hlt := ((pairwise_cons.mp h.ordered).1 g hg).2 id v hv
      have hle := (h.within g (mem_cons_of_mem f hg) id w hw).1
      exact Int64.lt_iff_toInt_lt.mp (Int64.lt_of_lt_of_le hlt hle)

theorem exists_value (hf : f.WellFormed (fileCodec S Z) ty)
    (honly : f.OnlyID id) : ∃ v, v ∈ f.valuesOf S Z id := by
  obtain ⟨pre, post, hrun, -⟩ := hf.run id
  obtain ⟨b, bs, hblocks⟩ := exists_cons_of_ne_nil honly.1
  have hb : b ∈ f.blocks := hblocks ▸ mem_cons_self
  cases hvss : f.decodedBlocks (fileCodec S Z) id with
  | nil => exact absurd (honly.2 b hb) (decodedRun_eq_nil.mp hvss b hb)
  | cons vs vss =>
    rw [hvss] at hrun
    obtain ⟨v, vals, hvs⟩ := exists_cons_of_ne_nil hrun.roundTrips_head.ne_nil
    refine ⟨v, ?_⟩
    rw [DataFile.valuesOf, hvss, flatten_cons, hvs]
    exact mem_cons_self

variable {before after : List DataFile} {g : DataFile}

variable (h : OrderedFiles S Z ty files) (hsplit : files = before ++ f :: after)
include h hsplit

theorem lt_of_split (hg : g ∈ after) {w : Value}
    (hv : v ∈ f.valuesOf S Z id) (hw : w ∈ g.valuesOf S Z id) : v.time < w.time := by
  have hord := h.ordered
  rw [hsplit, pairwise_append] at hord
  have hlt := ((pairwise_cons.mp hord.2.1).1 g hg).2 id v hv
  have hmem : g ∈ files := hsplit ▸ mem_append_right _ (mem_cons_of_mem f hg)
  exact Int64.lt_of_lt_of_le hlt (h.within g hmem id w hw).1

theorem split_unique {before' after' : List DataFile}
    (hsplit' : files = before' ++ g :: after') (hf : v ∈ f.valuesOf S Z id) (hg : v ∈ g.valuesOf S Z id) :
    before = before' ∧ f = g ∧ after = after' := by
  rcases append_eq_append_iff.mp (hsplit.symm.trans hsplit') with ⟨as, hbefore, hcons⟩ |
    ⟨as, hbefore, hcons⟩
  all_goals
    obtain - | ⟨a, as⟩ := as
    · cases hcons
      exact ⟨by rw [hbefore, append_nil], rfl, rfl⟩
    cases hcons
    refine absurd ?_ (Int64.not_lt.mpr (Int64.le_refl v.time))
  · exact h.lt_of_split hsplit (mem_append_right as mem_cons_self) hf hg
  · exact h.lt_of_split hsplit' (mem_append_right as mem_cons_self) hg hf

end OrderedFiles

/-! ## The choice of a file -/

namespace IndexCursor

variable {seek : Int64} {files : List DataFile}

theorem mem_storedIn (hf : f ∈ files) (hv : v ∈ f.valuesOf S Z id) : v ∈ storedIn S Z id files :=
  mem_flatMap.mpr ⟨f, hf, hv⟩

theorem fileWith_eq_none : ∀ {files : List DataFile} {i : ℕ},
    fileWith seek i files = none ↔ ∀ f ∈ files, ¬ f.InRange seek
  | [], _ => ⟨fun _ => nofun, fun _ => rfl⟩
  | f :: files, i => by
    rw [fileWith, forall_mem_cons]
    by_cases hf : f.InRange seek
    · rw [if_pos hf]
      exact ⟨nofun, fun h => absurd hf h.1⟩
    · rw [if_neg hf, fileWith_eq_none]
      exact ⟨fun h => ⟨hf, h⟩, fun h => h.2⟩

theorem fileWith_eq_some : ∀ {files : List DataFile} {i j : ℕ} {f : DataFile},
    fileWith seek i files = some (j, f) →
      ∃ before after, files = before ++ f :: after ∧ j = i + before.length ∧ f.InRange seek ∧
        ∀ g ∈ before, ¬ g.InRange seek
  | [], _, _, _, h => by cases h
  | g :: files, i, j, f, h => by
    rw [fileWith] at h
    by_cases hg : g.InRange seek
    · rw [if_pos hg] at h
      cases h
      exact ⟨[], files, rfl, rfl, hg, nofun⟩
    · rw [if_neg hg] at h
      obtain ⟨before, after, rfl, rfl, hf, hbefore⟩ := fileWith_eq_some h
      refine ⟨g :: before, after, rfl, ?_, hf, forall_mem_cons.mpr ⟨hg, hbefore⟩⟩
      rw [length_cons]
      omega

end IndexCursor

/-! ## Small files -/

def boolFiles (id : UInt64) (specs : List (List (List Int64) × Int64 × Int64)) : List DataFile :=
  specs.map (fun s => boolFile id s.1 s.2.1 s.2.2)

def fitsRange (id : UInt64) (s : List (List Int64) × Int64 × Int64) : Bool :=
  s.1.all (fun ts => ShortBools ts) && decide (Values.Ascending (s.1.map boolsAt).flatten) &&
    decide ((boolFile id s.1 s.2.1 s.2.2).length < 2 ^ 32) && decide (s.2.1 ≤ s.2.2) &&
    s.1.flatten.all (fun t => decide (s.2.1 ≤ t) && decide (t ≤ s.2.2))

def precedes (s s' : List (List Int64) × Int64 × Int64) : Bool :=
  decide (s.2.2 ≤ s'.2.1) && s.1.flatten.all (fun t => t < s'.2.1)

theorem time_of_mem_boolFile {id' : UInt64} {tss : List (List Int64)} {minTime maxTime : Int64}
    (hts : ∀ ts ∈ tss, ShortBools ts)
    (hv : v ∈ (boolFile id tss minTime maxTime).valuesOf Simple8b.plain Snappy.plain id') :
    v.time ∈ tss.flatten := by
  rw [DataFile.valuesOf, decodedBlocks_boolFile hts] at hv
  split at hv
  · obtain ⟨vs, hvs, hv⟩ := mem_flatten.mp hv
    obtain ⟨ts, hmem, rfl⟩ := mem_map.mp hvs
    obtain ⟨t, ht, rfl⟩ := mem_map.mp hv
    exact mem_flatten.mpr ⟨ts, hmem, ht⟩
  · cases hv

theorem orderedFiles_boolFiles {specs : List (List (List Int64) × Int64 × Int64)}
    (hid : id ≠ 0 ∧ id ≠ dataFileEOF) (hfits : specs.all (fitsRange id) = true)
    (hord : specs.Pairwise (fun s s' => precedes s s' = true)) :
    OrderedFiles Simple8b.plain Snappy.plain (fun _ => .bool) (boolFiles id specs) := by
  have hspec : ∀ s ∈ specs, (∀ ts ∈ s.1, ShortBools ts) ∧ Values.Ascending (s.1.map boolsAt).flatten ∧
      (boolFile id s.1 s.2.1 s.2.2).length < 2 ^ 32 ∧ s.2.1 ≤ s.2.2 ∧
      ∀ t ∈ s.1.flatten, s.2.1 ≤ t ∧ t ≤ s.2.2 := by
    intro s hs
    have h := all_eq_true.mp hfits s hs
    simp only [fitsRange, Bool.and_eq_true, all_eq_true, decide_eq_true_eq] at h
    obtain ⟨⟨⟨⟨hshort, hasc⟩, hlen⟩, hle⟩, hin⟩ := h
    exact ⟨hshort, hasc, hlen, hle, hin⟩
  refine ⟨fun f hf => ?_, fun f hf => ?_, fun f hf id' v hv => ?_, ?_⟩
  · obtain ⟨s, hs, rfl⟩ := mem_map.mp hf
    obtain ⟨hshort, hasc, hlen, -, -⟩ := hspec s hs
    exact boolFile_wellFormed hid hshort hasc hlen
  · obtain ⟨s, hs, rfl⟩ := mem_map.mp hf
    exact (hspec s hs).2.2.2.1
  · obtain ⟨s, hs, rfl⟩ := mem_map.mp hf
    obtain ⟨hshort, -, -, -, hin⟩ := hspec s hs
    exact hin _ (time_of_mem_boolFile hshort hv)
  · rw [boolFiles, pairwise_map]
    refine hord.imp_of_mem (fun {s s'} hs _ h => ?_)
    simp only [precedes, Bool.and_eq_true, all_eq_true, decide_eq_true_eq] at h
    exact ⟨h.1, fun id' v hv => h.2 _ (time_of_mem_boolFile (hspec s hs).1 hv)⟩

end AndyEnv.Tsm1
