import AndyEnv.Tsm1.TimeRange
import Mathlib.Order.CompletePartialOrder

/-!
# How `Write` splits a batch

`Write` goes through the files from the newest to the oldest and takes from
the batch what belongs to each of them. When the files' ranges do not overlap
and no time is the largest `int64`, every rewrite gets its own interval of
times, its slot: the slots are pairwise disjoint, a slot contains the range of
the file to be rewritten, and it meets no other file.
-/

namespace AndyEnv.Tsm1

open Int64 Option RewriteTask Values
open List hiding Disjoint

/-! ## The filter -/

/-- The values of a batch that satisfy `P`; an id without any is left out. -/
def restrictValues (P : Value → Bool) (valuesByID : ValuesByID) : ValuesByID :=
  valuesByID.filterMap (fun p => if p.2.filter P = [] then none else some (p.1, p.2.filter P))

theorem filterValues_eq {values : Values} {minTime maxTime : Int64}
    (hasc : Ascending values) (hne : values ≠ []) (hlt : ∀ v ∈ values, v.unixNano < maxTime.toInt) :
    filterValues values minTime maxTime =
      if values.filter (fun v => minTime.toInt ≤ v.unixNano) = [] then none
      else some (values.filter (fun v => minTime.toInt ≤ v.unixNano),
        values.filter (fun v => v.unixNano < minTime.toInt)) := by
  obtain ⟨htake, hdrop⟩ := Keyed.takeWhile_dropWhile_eq_filter hasc minTime.toInt
  have hfirst : values.findIdx? (fun v =>
      decide (minTime.toInt ≤ v.unixNano) && decide (v.unixNano < maxTime.toInt)) =
      values.findIdx? (fun v => minTime.toInt ≤ v.unixNano) := by
    refine Search.findIdx?_congr (fun v hv => ?_)
    simp [hlt v hv]
  have hlast : values.reverse.findIdx? (fun v => v.unixNano < maxTime.toInt) = some 0 := by
    obtain ⟨v, vs, hcons⟩ := exists_cons_of_ne_nil (mt reverse_eq_nil_iff.mp hne)
    have hv : v ∈ values := mem_reverse.mp (hcons ▸ mem_cons_self)
    rw [hcons, findIdx?_cons, if_pos (by simpa using hlt v hv)]
  have hnot : (fun v : Value => !decide (v.unixNano < minTime.toInt)) =
      fun v => decide (minTime.toInt ≤ v.unixNano) := by
    funext v
    rw [← decide_not]
    simp
  rw [takeWhile_eq_take_findIdx_not, hnot] at htake
  rw [dropWhile_eq_drop_findIdx_not, hnot] at hdrop
  rw [filterValues, hfirst, hlast]
  cases hidx : values.findIdx? (fun v => minTime.toInt ≤ v.unixNano) with
  | none =>
    rw [findIdx?_eq_none_iff] at hidx
    rw [if_pos (filter_eq_nil_iff.mpr (fun v hv => by simp [hidx v hv]))]
    rfl
  | some i =>
    obtain ⟨hi, hfind⟩ := findIdx?_eq_some_iff_findIdx_eq.mp hidx
    rw [hfind] at htake hdrop
    rw [if_neg]
    · simp [htake, hdrop]
    · rw [← hdrop, drop_eq_nil_iff]
      omega

variable {valuesByID : ValuesByID}

theorem filterDataBetweenTimes_eq {minTime maxTime : Int64}
    (hvals : ∀ p ∈ valuesByID, p.2 ≠ [] ∧ Ascending p.2)
    (hlt : ∀ p ∈ valuesByID, ∀ v ∈ p.2, v.unixNano < maxTime.toInt) :
    filterDataBetweenTimes valuesByID minTime maxTime =
      (restrictValues (fun v => minTime.toInt ≤ v.unixNano) valuesByID,
        restrictValues (fun v => v.unixNano < minTime.toInt) valuesByID) := by
  have hf : ∀ p ∈ valuesByID, _ := fun p hp =>
    @filterValues_eq p.2 minTime maxTime (hvals p hp).2 (hvals p hp).1 (hlt p hp)
  rw [filterDataBetweenTimes, restrictValues, restrictValues]
  refine Prod.ext (filterMap_congr fun p hp => ?_) (filterMap_congr fun p hp => ?_)
  · rw [hf p hp]
    split
    · rfl
    · rfl
  · rw [hf p hp]
    by_cases hnil : p.2.filter (fun v => minTime.toInt ≤ v.unixNano) = []
    · -- nothing in the range: all of the values stay
      have hall : p.2.filter (fun v => v.unixNano < minTime.toInt) = p.2 := by
        rw [filter_eq_self]
        intro v hv
        have := filter_eq_nil_iff.mp hnil v hv
        simpa using this
      rw [if_pos hnil, hall, if_neg (hvals p hp).1]
    · rw [if_neg hnil]

variable {P : Value → Bool} {Q : Value → Prop} {L : ℤ} {e : Engine}

theorem mem_restrictValues {p : UInt64 × Values} : p ∈ restrictValues P valuesByID ↔
      ∃ q ∈ valuesByID, q.2.filter P ≠ [] ∧ p = (q.1, q.2.filter P) := by
  rw [restrictValues, mem_filterMap]
  refine exists_congr (fun q => and_congr_right (fun _ => ?_))
  by_cases h : q.2.filter P = []
  · simp [h]
  · simp [h, eq_comm]

theorem map_fst_restrictValues_sublist (P : Value → Bool) (valuesByID : ValuesByID) :
    ((restrictValues P valuesByID).map Prod.fst).Sublist (valuesByID.map Prod.fst) := by
  induction valuesByID with
  | nil => exact Sublist.refl _
  | cons p ps ih =>
    unfold restrictValues at ih ⊢
    rw [filterMap_cons, map_cons]
    split
    · exact ih.cons _
    rename_i h
    split at h
    · cases h
    · cases h
      exact ih.cons_cons _

theorem restrict_ascending (h : ∀ p ∈ valuesByID, p.2 ≠ [] ∧ Ascending p.2) :
    ∀ p ∈ restrictValues P valuesByID, p.2 ≠ [] ∧ Ascending p.2 := by
  intro p hp
  obtain ⟨q, hq, hne, rfl⟩ := mem_restrictValues.mp hp
  exact ⟨hne, (h q hq).2.sublist filter_sublist⟩

theorem restrict_forall (h : ∀ p ∈ valuesByID, ∀ v ∈ p.2, P v = true → Q v) :
    ∀ p ∈ restrictValues P valuesByID, ∀ v ∈ p.2, Q v := by
  intro p hp v hv
  obtain ⟨q, hq, -, rfl⟩ := mem_restrictValues.mp hp
  exact h q hq v (mem_of_mem_filter hv) (mem_filter.mp hv).2

def NewValues.restrict {ty : UInt64 → FieldType} (nv : NewValues ty) (P : Value → Bool) :
    NewValues ty where
  entries := restrictValues P nv.entries
  nodup := nv.nodup.sublist (map_fst_restrictValues_sublist P nv.entries)
  id_ne p hp := by
    obtain ⟨q, hq, -, rfl⟩ := mem_restrictValues.mp hp
    exact nv.id_ne q hq
  ne_nil p hp := (restrict_ascending (fun q hq => ⟨nv.ne_nil q hq, nv.ascending q hq⟩) p hp).1
  ascending p hp := (restrict_ascending (fun q hq => ⟨nv.ne_nil q hq, nv.ascending q hq⟩) p hp).2
  ofType p hp := by
    obtain ⟨q, hq, -, rfl⟩ := mem_restrictValues.mp hp
    exact (nv.ofType q hq).sublist filter_sublist

namespace NewValues

variable {ty : UInt64 → FieldType}

def All (nv : NewValues ty) (P : Value → Prop) : Prop := ∀ p ∈ nv.entries, ∀ v ∈ p.2, P v

theorem All.imp {nv : NewValues ty} {P : Value → Prop} (h : nv.All P) (hPQ : ∀ v, P v → Q v) :
    nv.All Q :=
  fun p hp v hv => hPQ v (h p hp v hv)

theorem all_restrict (nv : NewValues ty) (h : nv.All Q) :
    (nv.restrict P).All (fun v => P v = true ∧ Q v) :=
  restrict_forall (fun p hp v hv hP => ⟨hP, h p hp v hv⟩)

end NewValues

/-! ## Slots -/

def DataFile.range (d : DataFile) : Set ℤ := Set.Ico d.minTime.toInt d.maxTime.toInt

/-- The slot `S` of a rewrite: its values and the file it rewrites lie in it,
and no other file meets it. -/
structure RewriteTask.Fits (ty : UInt64 → FieldType) (files : List OpenFile)
    (task : RewriteTask) (S : Set ℤ) : Prop where
  ordConnected : S.OrdConnected
  values : ∃ nv : NewValues ty, nv.entries = task.valuesByID ∧
    nv.All (fun v => v.unixNano ∈ S ∧ v.time ≠ Int64.maxValue)
  old : ∀ f ∈ task.oldDF, f ∈ files ∧ f.df.range ⊆ S
  others : ∀ g ∈ files, (∀ f ∈ task.oldDF, g ≠ f) → Disjoint S g.df.range

def Ordered (files : List OpenFile) : Prop :=
  files.Pairwise (fun f g => f.df.maxTime.toInt ≤ g.df.minTime.toInt)

theorem disjoint_range_of_le {d : DataFile} {a b : ℤ}
    (h : b ≤ d.minTime.toInt ∨ d.maxTime.toInt ≤ a) : Disjoint (Set.Ico a b) d.range := by
  rw [DataFile.range, Set.Ico_disjoint_Ico]
  rcases h with h | h
  · exact (min_le_left _ _).trans (h.trans (le_max_right _ _))
  · exact (min_le_right _ _).trans (h.trans (le_max_left _ _))

theorem RewriteTask.fits_Ico {ty : UInt64 → FieldType} {files : List OpenFile}
    {oldDF : Option OpenFile} (nv : NewValues ty) {a b : ℤ}
    (hvalues : nv.All (fun v => v.unixNano ∈ Set.Ico a b ∧ v.time ≠ Int64.maxValue))
    (hold : ∀ f ∈ oldDF, f ∈ files ∧ a ≤ f.df.minTime.toInt ∧ f.df.maxTime.toInt ≤ b)
    (hothers : ∀ g ∈ files, (∀ f ∈ oldDF, g ≠ f) →
      b ≤ g.df.minTime.toInt ∨ g.df.maxTime.toInt ≤ a) :
    RewriteTask.Fits ty files ⟨oldDF, nv.entries⟩ (Set.Ico a b) where
  ordConnected := Set.ordConnected_Ico
  values := ⟨nv, rfl, hvalues⟩
  old f hf := ⟨(hold f hf).1, Set.Ico_subset_Ico (hold f hf).2.1 (hold f hf).2.2⟩
  others g hg hne := disjoint_range_of_le (hothers g hg hne)

/-! ## The cuts

The loop of `Write` takes from what is left of the batch, again and again, all
the values from some time on. -/

/-- The times at which the batch is cut, with the file that takes what is not
before the cut; the files come newest first. -/
def writeCuts (rotateFileSize : UInt32) : List OpenFile → List (Option OpenFile × ℤ)
  | [] => []
  | f :: fs =>
    if f.df.size < rotateFileSize then
      (some f, f.df.minTime.toInt) :: writeCuts rotateFileSize fs
    else
      (none, (f.df.maxTime + 1).toInt) :: (some f, f.df.minTime.toInt) ::
        writeCuts rotateFileSize fs

/-- The rewrites of a batch that is cut at the given times. -/
def cutBatch : List (Option OpenFile × ℤ) → ValuesByID → List RewriteTask
  | [], valuesByID => [⟨none, valuesByID⟩]
  | (oldDF, t) :: cs, valuesByID =>
    ⟨oldDF, restrictValues (fun v => t ≤ v.unixNano) valuesByID⟩ ::
      cutBatch cs (restrictValues (fun v => v.unixNano < t) valuesByID)

/-- The loop of `Write` cuts the batch. -/
theorem assignTasks_eq {rotateFileSize : UInt32} : ∀ {fs : List OpenFile} {maxTime : Int64}
    {valuesByID : ValuesByID}, (∀ p ∈ valuesByID, p.2 ≠ [] ∧ Ascending p.2) →
    (∀ p ∈ valuesByID, ∀ v ∈ p.2, v.unixNano < maxTime.toInt) →
    (assignTasks rotateFileSize fs maxTime valuesByID).1 ++
        [⟨none, (assignTasks rotateFileSize fs maxTime valuesByID).2⟩] =
      cutBatch (writeCuts rotateFileSize fs) valuesByID
  | [], maxTime, valuesByID, _, _ => rfl
  | f :: fs, maxTime, valuesByID, hvals, hlt => by
    rw [assignTasks, writeCuts]
    by_cases hsize : f.df.size < rotateFileSize
    · simp only [if_pos hsize]
      rw [filterDataBetweenTimes_eq hvals hlt, cutBatch, cons_append]
      rw [assignTasks_eq (restrict_ascending hvals) (restrict_forall fun p hp v hv _ => hlt p hp v hv)]
    simp only [if_neg hsize]
    rw [filterDataBetweenTimes_eq hvals hlt, cutBatch, cutBatch]
    have holder := restrict_ascending (P := fun v => decide (v.unixNano < (f.df.maxTime + 1).toInt)) hvals
    rw [filterDataBetweenTimes_eq holder (restrict_forall fun _ _ _ _ h => of_decide_eq_true h),
      cons_append, cons_append]
    rw [assignTasks_eq (restrict_ascending holder) (restrict_forall fun _ _ _ _ h => of_decide_eq_true h)]

/-- The intervals between the cuts, for values from `L` to before `U`. -/
def cutSlots (L : ℤ) : ℤ → List (Option OpenFile × ℤ) → List (Set ℤ)
  | U, [] => [Set.Ico L U]
  | U, (_, t) :: cs => Set.Ico t U :: cutSlots L (min t U) cs

theorem subset_cutSlots : ∀ {U : ℤ} {cs : List (Option OpenFile × ℤ)},
    ∀ S ∈ cutSlots L U cs, S ⊆ Set.Iio U
  | U, [], S, hS => by
    rw [mem_singleton.mp hS]
    exact fun t ht => ht.2
  | U, (_, t) :: cs, S, hS => by
    rcases mem_cons.mp hS with rfl | hS
    · exact fun t ht => ht.2
    · exact (subset_cutSlots S hS).trans (Set.Iio_subset_Iio (min_le_right _ _))

theorem cutSlots_disjoint : ∀ {U : ℤ} {cs : List (Option OpenFile × ℤ)},
    (cutSlots L U cs).Pairwise Disjoint
  | U, [] => pairwise_singleton _ _
  | U, (_, t) :: cs => by
    refine pairwise_cons.mpr ⟨fun S hS => Set.disjoint_left.mpr (fun x hx hxS => ?_), cutSlots_disjoint⟩
    exact absurd (lt_of_lt_of_le (subset_cutSlots S hS hxS) (min_le_left _ _)) (not_lt.mpr hx.1)

section Assign

variable {ty : UInt64 → FieldType} {rotateFileSize : UInt32} {files lower : List OpenFile}

/-- Where the files lie when the loop is at the file `f`. -/
theorem Ordered.around {f : OpenFile} {fs upper : List OpenFile}
    (hordered : Ordered (lower ++ (f :: fs).reverse ++ upper)) {g : OpenFile}
    (hg : g ∈ lower ++ (f :: fs).reverse ++ upper) :
    g.df.maxTime.toInt ≤ f.df.minTime.toInt ∨ g = f ∨ g ∈ upper := by
  rw [reverse_cons, ← append_assoc, append_assoc (lower ++ fs.reverse)] at hordered hg
  rcases mem_append.mp hg with hg | hg
  · exact .inl ((pairwise_append.mp hordered).2.2 g hg f (by simp))
  · exact .inr (by simpa using hg)

/-- **The loop of `Write` gives every rewrite a slot.** `lower` are the files
the batch does not reach, `fs` the files still to be visited, newest first,
and `upper` those visited already; `U` bounds the values that are left. -/
theorem cutBatch_fits (hlower : ∀ g ∈ lower, g.df.maxTime.toInt ≤ L) (hordered : Ordered files)
    (hrange : ∀ f ∈ files, f.df.minTime.toInt < f.df.maxTime.toInt) :
    ∀ (nv : NewValues ty) {fs upper : List OpenFile} {U : ℤ}, files = lower ++ fs.reverse ++ upper →
      (∀ f ∈ fs, ¬ f.df.size < rotateFileSize → f.df.maxTime ≠ Int64.maxValue) →
      (∀ g ∈ upper, U ≤ g.df.minTime.toInt) → (∀ f ∈ fs, f.df.maxTime.toInt ≤ U) →
      nv.All (fun v => v.unixNano < U ∧ L ≤ v.unixNano ∧ v.time ≠ Int64.maxValue) →
      Forall₂ (RewriteTask.Fits ty files) (cutBatch (writeCuts rotateFileSize fs) nv.entries)
        (cutSlots L U (writeCuts rotateFileSize fs))
  | nv, [], upper, U, hfiles, _, hupper, _, hall => by
    refine .cons (fits_Ico nv (hall.imp fun v h => ⟨⟨h.2.1, h.1⟩, h.2.2⟩) (by simp) ?_) .nil
    intro g hg _
    rw [hfiles, reverse_nil, append_nil] at hg
    rcases mem_append.mp hg with hg | hg
    · exact .inr (hlower g hg)
    · exact .inl (hupper g hg)
  | nv, f :: fs, upper, U, hfiles, hbig, hupper, hle, hall => by
    have hfU := hle f mem_cons_self
    have haround := fun g (hg : g ∈ files) => (hfiles ▸ hordered).around (hfiles ▸ hg : g ∈ _)
    have hf : f ∈ files := by rw [hfiles]; simp
    have hlt := hrange f hf
    -- the files after this one, and the slots for what is left of the batch
    have hfiles' : files = lower ++ fs.reverse ++ (f :: upper) := by
      rw [hfiles, reverse_cons]; simp
    have hupper' : ∀ g ∈ f :: upper, f.df.minTime.toInt ≤ g.df.minTime.toInt :=
      forall_mem_cons.mpr ⟨le_rfl, fun g hg => (hlt.le.trans hfU).trans (hupper g hg)⟩
    have hle' : ∀ g ∈ fs, g.df.maxTime.toInt ≤ f.df.minTime.toInt := by
      intro g hg
      rw [hfiles', append_assoc] at hordered
      exact (pairwise_append.mp (pairwise_append.mp hordered).2.1).2.2 g
        (mem_reverse.mpr hg) f mem_cons_self
    have hrest := fun nv' => cutBatch_fits hlower hordered hrange nv' hfiles'
      (fun g hg => hbig g (mem_cons_of_mem _ hg)) hupper' hle'
    rw [writeCuts]
    by_cases hsize : f.df.size < rotateFileSize
    · rw [if_pos hsize, cutBatch, cutSlots, min_eq_left (hlt.le.trans hfU)]
      refine .cons (fits_Ico (nv.restrict _) ?_ ?_ ?_) (hrest (nv.restrict _) ?_)
      · exact (nv.all_restrict hall).imp (fun v h => ⟨⟨of_decide_eq_true h.1, h.2.1⟩, h.2.2.2⟩)
      · intro g hg
        cases hg
        exact ⟨hf, le_rfl, hfU⟩
      · intro g hg hne
        rcases haround g hg with h | rfl | h
        · exact .inr h
        · exact absurd rfl (hne g rfl)
        · exact .inl (hupper g h)
      · exact (nv.all_restrict hall).imp (fun v h => ⟨of_decide_eq_true h.1, h.2.2⟩)
    · have hsucc := toInt_add_one (hbig f mem_cons_self hsize)
      have hmid : f.df.minTime.toInt ≤ min (f.df.maxTime.toInt + 1) U := by omega
      rw [if_neg hsize, hsucc, cutBatch, cutBatch, cutSlots, cutSlots, min_eq_left hmid]
      refine .cons (fits_Ico (nv.restrict _) ?_ (by simp) ?_)
        (.cons (fits_Ico ((nv.restrict _).restrict _) ?_ ?_ ?_)
          (hrest ((nv.restrict _).restrict _) ?_))
      · exact (nv.all_restrict hall).imp (fun v h => ⟨⟨of_decide_eq_true h.1, h.2.1⟩, h.2.2.2⟩)
      · intro g hg _
        rcases haround g hg with h | rfl | h
        · exact .inr (by omega)
        · exact .inr (by omega)
        · exact .inl (hupper g h)
      · exact (NewValues.all_restrict _ (nv.all_restrict hall)).imp (fun v h =>
          ⟨⟨of_decide_eq_true h.1, lt_min (of_decide_eq_true h.2.1) h.2.2.1⟩, h.2.2.2.2⟩)
      · intro g hg
        cases hg
        exact ⟨hf, le_rfl, le_min (by omega) hfU⟩
      · intro g hg hne
        rcases haround g hg with h | rfl | h
        · exact .inr h
        · exact absurd rfl (hne g rfl)
        · exact .inl ((min_le_right _ _).trans (hupper g h))
      · exact (NewValues.all_restrict _ (nv.all_restrict hall)).imp (fun v h =>
          ⟨of_decide_eq_true h.1, h.2.2.2⟩)

end Assign

/-! ## The whole batch -/

theorem lt_maxValue {v : Value} (h : v.time ≠ Int64.maxValue) : v.unixNano < Int64.maxValue.toInt :=
  lt_of_le_of_ne (toInt_le v.time) (fun heq => h (toInt_inj.mp heq))

theorem batchRange_fold : ∀ {lists : List Values} {r₀ r : Int64 × Int64},
    (∀ vs ∈ lists, Ascending vs) →
    lists.foldlM (fun r values => do
      let lo ← values.minTime
      let hi ← values.maxTime
      return (if lo < r.1 then lo else r.1, if r.2 < hi then hi else r.2)) r₀ = some r →
    (r.1.toInt ≤ r₀.1.toInt ∧ r₀.2.toInt ≤ r.2.toInt) ∧
      ∀ vs ∈ lists, ∀ v ∈ vs, r.1.toInt ≤ v.unixNano ∧ v.unixNano ≤ r.2.toInt
  | [], r₀, r, _, h => by
    cases h
    exact ⟨⟨le_rfl, le_rfl⟩, by simp⟩
  | vs :: lists, r₀, r, hasc, h => by
    rw [foldlM_cons] at h
    obtain ⟨r₁, hr₁, h⟩ := bind_eq_some_iff.mp h
    obtain ⟨lo, hlo, hr₁⟩ := bind_eq_some_iff.mp hr₁
    obtain ⟨hi, hhi, hr₁⟩ := bind_eq_some_iff.mp hr₁
    cases hr₁
    have hvs := hasc vs mem_cons_self
    obtain ⟨⟨h1, h2⟩, hall⟩ := batchRange_fold
      (fun ws hws => hasc ws (mem_cons_of_mem _ hws)) h
    have hmin : (if lo < r₀.1 then lo else r₀.1).toInt = min lo.toInt r₀.1.toInt := by
      split
      · rename_i hlt
        rw [min_eq_left (lt_iff_toInt_lt.mp hlt).le]
      · rename_i hlt
        rw [min_eq_right (not_lt.mp (mt lt_iff_toInt_lt.mpr hlt))]
    have hmax : (if r₀.2 < hi then hi else r₀.2).toInt = max hi.toInt r₀.2.toInt := by
      split
      · rename_i hlt
        rw [max_eq_left (lt_iff_toInt_lt.mp hlt).le]
      · rename_i hlt
        rw [max_eq_right (not_lt.mp (mt lt_iff_toInt_lt.mpr hlt))]
    simp only [hmin, hmax] at h1 h2
    refine ⟨by omega, forall_mem_cons.mpr ⟨fun v hv => ?_, hall⟩⟩
    have hlov := minTime_le hvs hlo v hv
    have hvhi := le_maxTime hvs hhi v hv
    omega

theorem batchRange_spec (hasc : ∀ p ∈ valuesByID, Ascending p.2)
    {r : Int64 × Int64} (h : batchRange valuesByID = some r) :
    ∀ p ∈ valuesByID, ∀ v ∈ p.2, r.1.toInt ≤ v.unixNano ∧ v.unixNano ≤ r.2.toInt := by
  have hasc' : ∀ vs ∈ valuesByID.map Prod.snd, Ascending vs := by
    intro vs hvs
    obtain ⟨p, hp, rfl⟩ := mem_map.mp hvs
    exact hasc p hp
  exact fun p hp v hv => (batchRange_fold hasc' h).2 p.2 (mem_map_of_mem hp) v hv

/-- **The rewrites of a batch** are those of its cuts. -/
theorem writeTasks_eq {cfg : EngineConfig}
    (hne : valuesByID ≠ []) (hvals : ∀ p ∈ valuesByID, p.2 ≠ [] ∧ Ascending p.2)
    (hmax : ∀ p ∈ valuesByID, ∀ v ∈ p.2, v.time ≠ Int64.maxValue) :
    writeTasks cfg e valuesByID = (batchRange valuesByID).map (fun r =>
      cutBatch (writeCuts cfg.rotateFileSize (filesInRange e r.1 r.2).reverse) valuesByID) := by
  rw [writeTasks, if_neg hne]
  cases batchRange valuesByID with
  | none => rfl
  | some r =>
    simp only [bind_eq_bind, bind_some, map_some]
    split
    · rename_i hnil
      rw [hnil]
      rfl
    · rw [assignTasks_eq hvals (fun p hp v hv => lt_maxValue (hmax p hp v hv))]
      rfl

variable (hordered : Ordered e.files)
  (hrange : ∀ f ∈ e.files, f.df.minTime.toInt < f.df.maxTime.toInt)
include hordered hrange

/-- The files a batch reaches are the newest ones. -/
theorem filesInRange_suffix {start stop : Int64} (hle : start.toInt ≤ stop.toInt) :
    ∃ lower, e.files = lower ++ filesInRange e start stop ∧
      (∀ f ∈ lower, f.df.maxTime.toInt ≤ start.toInt) := by
  have hkey : Keyed.Ascending (fun f : OpenFile => f.df.maxTime.toInt) e.files := by
    refine Pairwise.imp_of_mem (fun {f g} hf hg hfg => ?_) hordered
    exact hfg.trans_lt (hrange g hg)
  have hfilter : filesInRange e start stop =
      e.files.filter (fun f => start.toInt + 1 ≤ f.df.maxTime.toInt) := by
    refine filter_congr (fun f hf => ?_)
    simp only [lt_iff_toInt_lt, le_iff_toInt_le, ge_iff_le, le_refl, decide_true, Bool.and_true]
    rw [← Bool.decide_and, ← Bool.decide_or, decide_eq_decide]
    omega
  refine ⟨_, by rw [hfilter]; exact (Keyed.filter_lt_append_filter_ge (hkey.imp le_of_lt) _).symm, fun f hf => ?_⟩
  have := of_decide_eq_true (mem_filter.mp hf).2
  omega

/-- **`Write` splits a batch into slots.** -/
theorem writeTasks_spec {ty : UInt64 → FieldType} {cfg : EngineConfig}
    (hbig : ∀ f ∈ e.files, ¬ f.df.size < cfg.rotateFileSize → f.df.maxTime ≠ Int64.maxValue)
    {nv : NewValues ty} (hmax : nv.All (fun v => v.time ≠ Int64.maxValue))
    {tasks : List RewriteTask} (h : writeTasks cfg e nv.entries = some tasks) :
    ∃ slots, Forall₂ (RewriteTask.Fits ty e.files) tasks slots ∧ slots.Pairwise Disjoint := by
  by_cases hne : nv.entries = []
  · rw [writeTasks, if_pos hne] at h
    cases h
    exact ⟨[], .nil, Pairwise.nil⟩
  rw [writeTasks_eq hne (fun p hp => ⟨nv.ne_nil p hp, nv.ascending p hp⟩) hmax] at h
  obtain ⟨⟨start, stop⟩, hr, rfl⟩ := map_eq_some_iff.mp h
  have hbatch := batchRange_spec nv.ascending hr
  have hle : start.toInt ≤ stop.toInt := by
    obtain ⟨p, ps, hp⟩ := exists_cons_of_ne_nil hne
    have hmem : p ∈ nv.entries := hp ▸ mem_cons_self
    obtain ⟨v, vs, hv⟩ := exists_cons_of_ne_nil (nv.ne_nil p hmem)
    have := hbatch p hmem v (hv ▸ mem_cons_self)
    exact this.1.trans this.2
  obtain ⟨lower, hsplit, hlower⟩ := filesInRange_suffix hordered hrange hle
  have hfs : e.files = lower ++ (filesInRange e start stop).reverse.reverse ++ [] := by
    rw [reverse_reverse, append_nil]
    exact hsplit
  have hmem : ∀ f ∈ (filesInRange e start stop).reverse, f ∈ e.files := fun f hf =>
    hsplit ▸ mem_append_right _ (mem_reverse.mp hf)
  exact ⟨_, cutBatch_fits hlower hordered hrange nv hfs (fun f hf => hbig f (hmem f hf)) (by simp)
    (fun f _ => toInt_le f.df.maxTime)
    (fun p hp v hv => ⟨lt_maxValue (hmax p hp v hv), (hbatch p hp v hv).1, hmax p hp v hv⟩),
    cutSlots_disjoint⟩

end AndyEnv.Tsm1
