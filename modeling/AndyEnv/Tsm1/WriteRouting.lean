import AndyEnv.Tsm1.SplitBatch

/-!
# Where `Write` sends a value

Each value of a batch goes to the first cut that is not after it, so it is in
one call of `rewriteFile`. For a value in the range of a file, that is the call
for the file, unless the newest of the files is to be split and ends at the
largest `int64`: its cut `MaxTime() + 1` is then the smallest `int64`, and the
new file takes the whole batch.
-/

namespace AndyEnv.Tsm1

open List Values

def ValuesByID.has (valuesByID : ValuesByID) (id : UInt64) (v : Value) : Bool :=
  valuesByID.any (fun p => decide (p.1 = id) && decide (v ∈ p.2))

def RewriteTask.passes (id : UInt64) (v : Value) (task : RewriteTask) : Bool := task.valuesByID.has id v

/-- The ranges of the files are half-open intervals, in order and disjoint. -/
structure Sorted (files : List OpenFile) : Prop where
  ordered : Ordered files
  le : ∀ f ∈ files, f.df.minTime.toInt ≤ f.df.maxTime.toInt

/-- Each value is passed to one call of `rewriteFile`, and a value in the range
of a selected file to the call that rewrites the file. -/
def RoutesOnce (cfg : EngineConfig) (e : Engine) (valuesByID : ValuesByID) : Prop :=
  ∃ tasks, writeTasks cfg e valuesByID = some tasks ∧ ∀ p ∈ valuesByID, ∀ v ∈ p.2,
    tasks.countP (RewriteTask.passes p.1 v) = 1 ∧
      ∀ r ∈ batchRange valuesByID, ∀ f ∈ filesInRange e r.1 r.2, v.unixNano ∈ f.df.range →
        ∀ task ∈ tasks, task.passes p.1 v = true → task.oldDF = some f

/-! ## The cut of a value -/

def cutTarget : List (Option OpenFile × ℤ) → ℤ → Option OpenFile
  | [], _ => none
  | (oldDF, c) :: cs, t => if c ≤ t then oldDF else cutTarget cs t

theorem has_restrictValues (P : Value → Bool) (valuesByID : ValuesByID) (id : UInt64) (v : Value) :
    (restrictValues P valuesByID).has id v = (valuesByID.has id v && P v) := by
  rw [Bool.eq_iff_iff]
  simp only [ValuesByID.has, any_eq_true, Bool.and_eq_true, decide_eq_true_eq, mem_restrictValues]
  constructor
  · rintro ⟨_, ⟨q, hq, -, rfl⟩, rfl, hv⟩
    exact ⟨⟨q, hq, rfl, mem_of_mem_filter hv⟩, (mem_filter.mp hv).2⟩
  · rintro ⟨⟨q, hq, rfl, hv⟩, hP⟩
    have hmem : v ∈ q.2.filter P := mem_filter.mpr ⟨hv, hP⟩
    exact ⟨_, ⟨q, hq, ne_nil_of_mem hmem, rfl⟩, rfl, hmem⟩

variable {id : UInt64} {v : Value}

theorem filter_cutBatch_of_not : ∀ {cs : List (Option OpenFile × ℤ)}
    {valuesByID : ValuesByID}, valuesByID.has id v = false →
    (cutBatch cs valuesByID).filter (RewriteTask.passes id v) = []
  | [], valuesByID, h => by
    rw [cutBatch, filter_singleton, RewriteTask.passes, h]
    rfl
  | (oldDF, t) :: cs, valuesByID, h => by
    rw [cutBatch, filter_cons_of_neg (by simp [RewriteTask.passes, has_restrictValues, h])]
    exact filter_cutBatch_of_not (by rw [has_restrictValues, h]; rfl)

/-- **A value is passed to one call**, the one of its cut. -/
theorem filter_cutBatch : ∀ (cs : List (Option OpenFile × ℤ))
    {valuesByID : ValuesByID}, valuesByID.has id v = true →
    ∃ task, (cutBatch cs valuesByID).filter (RewriteTask.passes id v) = [task] ∧
      task.oldDF = cutTarget cs v.unixNano
  | [], valuesByID, h => by
    refine ⟨⟨none, valuesByID⟩, ?_, rfl⟩
    rw [cutBatch, filter_singleton, RewriteTask.passes, h]
    rfl
  | (oldDF, t) :: cs, valuesByID, h => by
    rw [cutBatch, cutTarget]
    by_cases ht : t ≤ v.unixNano
    · rw [filter_cons_of_pos (by simp [RewriteTask.passes, has_restrictValues, h, ht]),
        filter_cutBatch_of_not (by simp [has_restrictValues, not_lt.mpr ht]), if_pos ht]
      exact ⟨_, rfl, rfl⟩
    · rw [filter_cons_of_neg (by simp [RewriteTask.passes, has_restrictValues, ht]), if_neg ht]
      exact filter_cutBatch cs (by simp [has_restrictValues, h, not_le.mp ht])

/-! ## The cuts of the files -/

section Cuts

variable {rotateFileSize : UInt32} {fs : List OpenFile} {t : ℤ}

theorem cutTarget_skip {f : OpenFile} (hmin : t < f.df.minTime.toInt)
    (hmax : ¬ f.df.size < rotateFileSize → t < (f.df.maxTime + 1).toInt) :
    cutTarget (writeCuts rotateFileSize (f :: fs)) t = cutTarget (writeCuts rotateFileSize fs) t := by
  rw [writeCuts]
  split
  · rw [cutTarget, if_neg (not_le.mpr hmin)]
  · rename_i hsize
    rw [cutTarget, if_neg (not_le.mpr (hmax hsize)), cutTarget, if_neg (not_le.mpr hmin)]

/-- **The cut of a time in the range of a file** is the file's own, if no file
to be split ends at the largest `int64`. -/
theorem cutTarget_of_mem_range : ∀ {fs : List OpenFile},
    fs.Pairwise (fun f g => g.df.maxTime.toInt ≤ f.df.minTime.toInt) →
    (∀ f ∈ fs, f.df.minTime.toInt ≤ f.df.maxTime.toInt) →
    (∀ f ∈ fs, ¬ f.df.size < rotateFileSize → f.df.maxTime ≠ Int64.maxValue) →
    ∀ f ∈ fs, t ∈ f.df.range → cutTarget (writeCuts rotateFileSize fs) t = some f
  | g :: gs, hsorted, hle, hbig, f, hf, ht => by
    obtain ⟨hg, hgs⟩ := pairwise_cons.mp hsorted
    have hsucc := fun hsize => toInt_add_one (hbig g mem_cons_self hsize)
    rcases mem_cons.mp hf with rfl | hf
    · rw [writeCuts]
      split
      · rw [cutTarget, if_pos ht.1]
      rename_i hsize
      have hnot : ¬ (f.df.maxTime + 1).toInt ≤ t := by
        rw [hsucc hsize]
        have := ht.2
        omega
      rw [cutTarget, if_neg hnot, cutTarget, if_pos ht.1]
    · have hlt : t < g.df.minTime.toInt := lt_of_lt_of_le ht.2 (hg f hf)
      have hle' := hle g mem_cons_self
      rw [cutTarget_skip hlt (fun hsize => by rw [hsucc hsize]; omega)]
      exact cutTarget_of_mem_range hgs (forall_mem_cons.mp hle).2
        (forall_mem_cons.mp hbig).2 f hf ht

/-- **The cut that wraps** takes everything. -/
theorem cutTarget_of_wraps (hlo : Int64.minValue.toInt ≤ t) (hhi : t < Int64.maxValue.toInt) :
    ∀ {fs : List OpenFile}, fs.Pairwise (fun f g => g.df.maxTime.toInt ≤ f.df.minTime.toInt) →
    (∀ f ∈ fs, f.df.minTime.toInt ≤ f.df.maxTime.toInt) →
    ∀ f ∈ fs, ¬ f.df.size < rotateFileSize → f.df.maxTime = Int64.maxValue →
      cutTarget (writeCuts rotateFileSize fs) t = none
  | g :: gs, hsorted, hle, f, hf, hsize, hmax => by
    by_cases hg : ¬ g.df.size < rotateFileSize ∧ g.df.maxTime = Int64.maxValue
    · have hwrap : (g.df.maxTime + 1).toInt ≤ t := by
        rw [hg.2]
        exact hlo
      rw [writeCuts, if_neg hg.1, cutTarget, if_pos hwrap]
    rcases mem_cons.mp hf with rfl | hf
    · exact absurd ⟨hsize, hmax⟩ hg
    obtain ⟨hbefore, hgs⟩ := pairwise_cons.mp hsorted
    -- the files newer than `f` begin and end at the largest `int64`
    have hmin := hbefore f hf
    rw [hmax] at hmin
    have hgmax : g.df.maxTime = Int64.maxValue :=
      Int64.toInt_inj.mp (le_antisymm (Int64.toInt_le _) (hmin.trans (hle g mem_cons_self)))
    rw [cutTarget_skip (hhi.trans_le hmin) (fun hgsize => absurd ⟨hgsize, hgmax⟩ hg)]
    exact cutTarget_of_wraps hlo hhi hgs (forall_mem_cons.mp hle).2 f hf hsize hmax

end Cuts

/-! ## The whole batch -/

theorem isSome_batchRange_fold : ∀ {lists : List Values} {r₀ : Int64 × Int64},
    (lists.foldlM (fun (r : Int64 × Int64) (values : Values) => do
      let lo ← values.minTime
      let hi ← values.maxTime
      return (if lo < r.1 then lo else r.1, if r.2 < hi then hi else r.2)) r₀).isSome = true ↔
    ∀ vs ∈ lists, vs ≠ []
  | [], r₀ => by simp
  | [] :: lists, r₀ => by simp [minTime]
  | (v :: vs) :: lists, r₀ => by
    obtain ⟨hi, hhi⟩ := exists_maxTime (cons_ne_nil v vs)
    rw [foldlM_cons, forall_mem_cons, and_iff_right (cons_ne_nil v vs)]
    simp only [hhi, minTime, List.head?_cons, Option.map_some, Option.bind_eq_bind, Option.bind_some]
    exact isSome_batchRange_fold

theorem mem_filesInRange {e : Engine} {start stop : Int64} {f : OpenFile} (hf : f ∈ e.files) {t : ℤ}
    (hstart : start.toInt ≤ t) (ht : t < f.df.maxTime.toInt) : f ∈ filesInRange e start stop := by
  refine mem_filter.mpr ⟨hf, ?_⟩
  simp [Int64.lt_iff_toInt_lt, hstart.trans_lt ht]

theorem isSome_batchRange {valuesByID : ValuesByID} :
    (batchRange valuesByID).isSome = true ↔ ∀ p ∈ valuesByID, p.2 ≠ [] := by
  rw [batchRange, isSome_batchRange_fold, forall_mem_map]

section Route

variable {cfg : EngineConfig} {e : Engine} {valuesByID : ValuesByID} {r : Int64 × Int64}

theorem has_of_mem {p : UInt64 × Values} (hp : p ∈ valuesByID) {v : Value} (hv : v ∈ p.2) :
    valuesByID.has p.1 v = true :=
  any_eq_true.mpr ⟨p, hp, by simp [hv]⟩

theorem Sorted.newestFirst (h : Sorted e.files) :
    (filesInRange e r.1 r.2).reverse.Pairwise (fun f g => g.df.maxTime.toInt ≤ f.df.minTime.toInt) ∧
      ∀ f ∈ (filesInRange e r.1 r.2).reverse, f.df.minTime.toInt ≤ f.df.maxTime.toInt :=
  ⟨List.pairwise_reverse.mpr (h.ordered.sublist filter_sublist),
    fun f hf => h.le f (mem_of_mem_filter (mem_reverse.mp hf))⟩

/-- **Where the values of a batch go.** Every value is passed to one call of
`rewriteFile`, and those in the range of a file to the call for the file, exactly
when every list of the batch has a value and no file that is to be split ends at
the largest `int64`, or no value lies in the range of a file. -/
theorem routesOnce_iff (hsorted : Sorted e.files) (hasc : ∀ p ∈ valuesByID, Ascending p.2)
    (hmax : ∀ p ∈ valuesByID, ∀ v ∈ p.2, v.time ≠ Int64.maxValue) :
    RoutesOnce cfg e valuesByID ↔ (∀ p ∈ valuesByID, p.2 ≠ []) ∧
      ((∀ f ∈ e.files, ¬ f.df.size < cfg.rotateFileSize → f.df.maxTime ≠ Int64.maxValue) ∨
        ∀ f ∈ e.files, ∀ p ∈ valuesByID, ∀ v ∈ p.2, v.unixNano ∉ f.df.range) := by
  by_cases hne : valuesByID = []
  · subst hne
    exact iff_of_true ⟨[], rfl, by simp⟩ ⟨by simp, .inr (by simp)⟩
  constructor
  · rintro ⟨tasks, htasks, hroute⟩
    have hvals : ∀ p ∈ valuesByID, p.2 ≠ [] := by
      rw [writeTasks, if_neg hne] at htasks
      obtain ⟨r, hr, -⟩ := Option.bind_eq_some_iff.mp htasks
      exact isSome_batchRange.mp (by rw [hr]; rfl)
    refine ⟨hvals, or_iff_not_imp_left.mpr (fun hbig g hg p hp v hv hin => ?_)⟩
    push Not at hbig
    obtain ⟨f, hf, hsize, hfmax⟩ := hbig
    rw [writeTasks_eq hne (fun p hp => ⟨hvals p hp, hasc p hp⟩) hmax] at htasks
    obtain ⟨r, hr, rfl⟩ := Option.map_eq_some_iff.mp htasks
    obtain ⟨task, htask, hold⟩ := filter_cutBatch
      (writeCuts cfg.rotateFileSize (filesInRange e r.1 r.2).reverse) (has_of_mem hp hv)
    obtain ⟨hmem, hpasses⟩ := mem_filter.mp (htask ▸ mem_singleton_self task)
    have hstart := (batchRange_spec hasc hr p hp v hv).1
    have hlt := lt_maxValue (hmax p hp v hv)
    -- the cut of `f` takes the value away from the file `g` that it lies in
    have hwrap := @cutTarget_of_wraps cfg.rotateFileSize _ (Int64.le_toInt v.time) hlt _
      hsorted.newestFirst.1 hsorted.newestFirst.2 f
      (mem_reverse.mpr (mem_filesInRange hf hstart (hfmax ▸ hlt))) hsize hfmax
    rw [Value.unixNano, hwrap] at hold
    have hg' := (hroute p hp v hv).2 r hr g (mem_filesInRange hg hstart hin.2) hin task hmem hpasses
    rw [hold] at hg'
    cases hg'
  · rintro ⟨hvals, hcond⟩
    obtain ⟨r, hr⟩ := Option.isSome_iff_exists.mp (isSome_batchRange.mpr hvals)
    refine ⟨_, by rw [writeTasks_eq hne (fun p hp => ⟨hvals p hp, hasc p hp⟩) hmax, hr]; rfl, ?_⟩
    intro p hp v hv
    obtain ⟨task, htask, hold⟩ := filter_cutBatch _ (has_of_mem hp hv)
    refine ⟨by rw [countP_eq_length_filter, htask]; rfl, fun r' hr' f hf hin task' hmem hpasses => ?_⟩
    cases hr.symm.trans hr'
    have htask' : task' ∈ [task] := htask ▸ mem_filter.mpr ⟨hmem, hpasses⟩
    rw [mem_singleton.mp htask', hold]
    have hfile : ∀ g ∈ (filesInRange e r.1 r.2).reverse, g ∈ e.files := fun g hg =>
      mem_of_mem_filter (mem_reverse.mp hg)
    rcases hcond with hbig | hnone
    · exact cutTarget_of_mem_range hsorted.newestFirst.1 hsorted.newestFirst.2
        (fun g hg => hbig g (hfile g hg)) f (mem_reverse.mpr hf) hin
    · exact absurd hin (hnone f (mem_of_mem_filter hf) p hp v hv)

end Route

/-! ## A file that ends at the largest time -/

def twoFiles (maxTime : Int64) : Engine :=
  ⟨[⟨1, ⟨[], [], 0, 10⟩⟩, ⟨2, ⟨[⟨1, [0, 0]⟩], [(1, 4)], 10, maxTime⟩⟩], 2⟩

def rotateAtOnce : EngineConfig := ⟨20, 10000, 10⟩

/-- Values for both files, and after them. -/
def spreadBatch : ValuesByID := [(1, [⟨5, .bool true⟩, ⟨15, .bool true⟩]), (2, [⟨30, .bool true⟩])]

theorem sorted_twoFiles (maxTime : Int64) (h : 10 ≤ maxTime.toInt) : Sorted (twoFiles maxTime).files where
  ordered := by simp [Ordered, twoFiles]
  le := by simpa [twoFiles] using h

theorem routesOnce_twoFiles : RoutesOnce rotateAtOnce (twoFiles 20) spreadBatch :=
  (routesOnce_iff (sorted_twoFiles 20 (by decide)) (by decide) (by decide)).mpr
    ⟨by decide, .inl (by decide)⟩

/-- The value at 5 is passed to the call for a new file. -/
theorem not_routesOnce : ¬ ∀ (cfg : EngineConfig) (e : Engine) (valuesByID : ValuesByID), Sorted e.files →
    (∀ p ∈ valuesByID, p.2 ≠ [] ∧ Ascending p.2) →
    (∀ p ∈ valuesByID, ∀ v ∈ p.2, v.time ≠ Int64.maxValue) → RoutesOnce cfg e valuesByID := by
  intro h
  obtain ⟨tasks, htasks, hroute⟩ := h rotateAtOnce (twoFiles Int64.maxValue) spreadBatch
    (sorted_twoFiles _ (by decide)) (by decide) (by decide)
  have hfirst : ⟨none, spreadBatch⟩ ∈ tasks := by
    cases htasks
    decide +kernel
  have hnone := (hroute _ mem_cons_self ⟨5, .bool true⟩ (by decide)).2 (5, 30) (by decide)
    ⟨1, ⟨[], [], 0, 10⟩⟩ (by decide) ⟨by decide, by decide⟩ _ hfirst (by decide)
  cases hnone

end AndyEnv.Tsm1
