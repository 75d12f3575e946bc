import AndyEnv.Wal.System

/-!
# The points of a series

Points are cached, flushed and replayed by series. Whatever the map, a series has in
it the points that were added for it, in their order; so what the index is handed can
be compared with the blocks that were written.
-/

namespace AndyEnv.Wal

open List

def pointsOf (k : Bytes) (ps : List Point) : List Point := ps.filter (fun p => p.key = k)

@[simp] theorem pointsOf_nil (k : Bytes) : pointsOf k [] = [] := rfl

@[simp] theorem pointsOf_append (k : Bytes) (ps qs : List Point) :
    pointsOf k (ps ++ qs) = pointsOf k ps ++ pointsOf k qs := filter_append ..

variable {k : Bytes} {p : Point}

theorem mem_pointsOf {ps : List Point} : p ∈ pointsOf k ps ↔ p ∈ ps ∧ p.key = k := by
  simp [pointsOf]

theorem pointsOf_cons_self (p : Point) (ps : List Point) :
    pointsOf p.key (p :: ps) = p :: pointsOf p.key ps := by
  simp [pointsOf]

theorem pointsOf_cons_ne (h : k ≠ p.key) (ps : List Point) :
    pointsOf k (p :: ps) = pointsOf k ps := by
  simp [pointsOf, Ne.symm h]

/-! ## Maps of points -/

namespace Series

theorem points_insert (m : Series) (k j : Bytes) (ps : List Point) :
    Series.points (m.insert k ps) j = if j = k then ps else m.points j := by
  unfold points
  split
  · rename_i h
    rw [h, AList.lookup_insert]
    rfl
  · rename_i h
    rw [AList.lookup_insert_ne h]

/-- Each point is filed under its own key. -/
def Sorted (m : Series) : Prop := ∀ e ∈ m.entries, ∀ p ∈ e.2, p.key = e.1

theorem pointsOf_flatMap {k : Bytes} : ∀ {l : List (Sigma (fun _ : Bytes => List Point))},
    l.NodupKeys → (∀ e ∈ l, ∀ p ∈ e.2, p.key = e.1) →
    pointsOf k (l.flatMap (fun e => e.2)) = (List.dlookup k l).getD []
  | [], _, _ => rfl
  | ⟨a, ps⟩ :: l, hnodup, hkeys => by
    obtain ⟨hnot, hnodup⟩ := nodupKeys_cons.mp hnodup
    have ih := pointsOf_flatMap (k := k) hnodup (forall_mem_cons.mp hkeys).2
    have hps : ∀ p ∈ ps, p.key = a := hkeys ⟨a, ps⟩ mem_cons_self
    rw [flatMap_cons, pointsOf_append, ih]
    by_cases h : k = a
    · subst h
      rw [dlookup_cons_eq, dlookup_eq_none.mpr hnot, Option.getD_none, append_nil,
        Option.getD_some, pointsOf, filter_eq_self.mpr]
      intro p hp
      exact decide_eq_true (hps p hp)
    · rw [dlookup_cons_ne _ _ h, pointsOf, filter_eq_nil_iff.mpr, nil_append]
      intro p hp hkey
      exact h ((of_decide_eq_true hkey).symm.trans (hps p hp))

variable {m : Series}

/-- `WriteIndex` is handed, of each series, what the map has for it. -/
theorem pointsOf_all (h : m.Sorted) (k : Bytes) : pointsOf k m.all = m.points k :=
  pointsOf_flatMap m.nodupKeys h

theorem sorted_of_points {ps : List Point} (h : ∀ k, m.points k = pointsOf k ps) : m.Sorted := by
  rintro ⟨k, qs⟩ he p hp
  have hqs : m.points k = qs := by
    rw [points, AList.mem_lookup_iff.mpr he, Option.getD_some]
  rw [h k] at hqs
  exact (mem_pointsOf.mp (hqs ▸ hp)).2

theorem mem_all {p : Point} (h : m.Sorted) : p ∈ m.all ↔ p ∈ m.points p.key := by
  rw [← pointsOf_all h, mem_pointsOf]
  exact ⟨fun hp => ⟨hp, rfl⟩, fun hp => hp.1⟩

end Series

section

variable (ps : List Point)

theorem points_foldl_insert (m : Series) (k : Bytes) :
    Series.points (ps.foldl (fun m e => m.insert e.key (m.points e.key ++ [e])) m) k =
      m.points k ++ pointsOf k ps := by
  induction ps generalizing m with
  | nil => exact (append_nil _).symm
  | cons p ps ih =>
    rw [foldl_cons, ih, Series.points_insert]
    split
    · rename_i h
      rw [h, pointsOf_cons_self, append_assoc]
      rfl
    · rename_i h
      rw [pointsOf_cons_ne h]

/-- **What a file is replayed as.** -/
theorem points_seriesToFlush (k : Bytes) :
    (seriesToFlush ps).points k = pointsOf k ps := points_foldl_insert ps ∅ k

theorem sorted_seriesToFlush : (seriesToFlush ps).Sorted :=
  Series.sorted_of_points (points_seriesToFlush ps)

end

/-! ## The cache -/

theorem Cache.points_insert (m : Cache) (k j : Bytes) (e : CacheEntry) :
    Cache.points (m.insert k e) j = if j = k then e.points else m.points j := by
  unfold points
  split
  · rename_i h
    rw [h, AList.lookup_insert]
    rfl
  · rename_i h
    rw [AList.lookup_insert_ne h]

namespace Partition

theorem points_addToCache (p : Partition) (pp : Point) (k : Bytes) :
    (p.addToCache pp).cache.points k = p.cache.points k ++ pointsOf k [pp] := by
  unfold addToCache
  rw [Cache.points_insert]
  split
  · rename_i h
    rw [h, pointsOf_cons_self, pointsOf_nil, Cache.points]
    split
    · rename_i hnone
      rw [hnone]
      rfl
    · rename_i e hsome
      rw [hsome]
      rfl
  · rename_i h
    rw [pointsOf_cons_ne h, pointsOf_nil, append_nil]

theorem points_foldl_addToCache (pps : List Point) (p : Partition) (k : Bytes) :
    (pps.foldl addToCache p).cache.points k = p.cache.points k ++ pointsOf k pps := by
  induction pps generalizing p with
  | nil => exact (append_nil _).symm
  | cons pp pps ih =>
    rw [foldl_cons, ih, points_addToCache, append_assoc, ← pointsOf_append]
    rfl

theorem points_foldl_entries {k : Bytes} : ∀ {l : List (Sigma (fun _ : Bytes => CacheEntry))}
    (m : Series), l.NodupKeys →
    Series.points (l.foldl (fun m e => m.insert e.1 e.2.points) m) k =
      ((List.dlookup k l).map CacheEntry.points).getD (m.points k)
  | [], m, _ => rfl
  | ⟨a, e⟩ :: l, m, hnodup => by
    obtain ⟨hnot, hnodup⟩ := nodupKeys_cons.mp hnodup
    rw [foldl_cons, points_foldl_entries _ hnodup, Series.points_insert]
    by_cases h : k = a
    · subst h
      rw [dlookup_cons_eq, dlookup_eq_none.mpr hnot, if_pos rfl]
      rfl
    · rw [dlookup_cons_ne _ _ h, if_neg h]

/-- **What a flush takes from the cache.** -/
theorem points_cachedSeries (p : Partition) (k : Bytes) :
    p.cachedSeries.points k = p.cache.points k :=
  points_foldl_entries ∅ p.cache.nodupKeys

end Partition

end AndyEnv.Wal
