import Mathlib.Data.List.Sort
import Mathlib.Data.String.Basic
import AndyEnv.Lib.Keyed

/-!
# Manifests of snapshots (`snapshot.go`)

A manifest lists the files of a snapshot. The manifests of a base snapshot and of its
incremental snapshots are merged: of each file the newest version stays, and of equally new
ones that of the earlier snapshot.

The name of a manifest's file is unique. `sort.Sort` by a key that is unique has one result, so
it is the insertion sort here.
-/

namespace AndyEnv.Snapshot

open Keyed
open List

structure File : Type where
  name : String
  size : ℤ
  modTime : ℤ
deriving DecidableEq, Repr

/-- `Files`: `Less` compares the names. -/
def sortFiles (files : List File) : List File := files.insertionSort (fun a b => a.name ≤ b.name)

namespace Manifest

/-- The inner loop of `Merge`: the version of the file is updated, or the file appended. -/
def mergeFile (a : File) : List File → List File
  | [] => [a]
  | b :: ret =>
    if a.name ≠ b.name then b :: mergeFile a ret
    -- update if it's newer
    else if b.modTime < a.modTime then a :: ret
    else b :: ret

def merge (m other : List File) : List File := sortFiles (other.foldl (fun ret a => mergeFile a ret) m)

/-! ## One version of each file -/

def Distinct (files : List File) : Prop := (files.map File.name).Nodup

theorem Distinct.eq_of_name {files : List File} (h : Distinct files) {f g : File} (hf : f ∈ files)
    (hg : g ∈ files) (hname : f.name = g.name) : f = g := inj_on_of_nodup_map h hf hg hname

theorem mem_mergeFile {a f : File} : ∀ {ret : List File}, Distinct ret →
    (f ∈ mergeFile a ret ↔ (f ∈ ret ∧ (f.name = a.name → a.modTime ≤ f.modTime)) ∨
      (f = a ∧ ∀ g ∈ ret, g.name = a.name → g.modTime < a.modTime))
  | [], _ => by
    simp [mergeFile]
  | b :: ret, h => by
    obtain ⟨hb, hret⟩ := nodup_cons.mp h
    have hother : ∀ g ∈ ret, g.name ≠ b.name := fun g hg hname => hb (hname ▸ mem_map_of_mem hg)
    unfold mergeFile
    split
    · rename_i hne
      rw [mem_cons, mem_mergeFile hret]
      grind
    · rename_i heq
      split
      · grind
      · grind

theorem Distinct.mergeFile (a : File) : ∀ {ret : List File}, Distinct ret → Distinct (mergeFile a ret)
  | [], _ => nodup_singleton _
  | b :: ret, h => by
    obtain ⟨hb, hret⟩ := nodup_cons.mp h
    unfold Manifest.mergeFile
    split
    · rename_i hne
      refine nodup_cons.mpr ⟨?_, Distinct.mergeFile a hret⟩
      intro hmem
      obtain ⟨f, hf, hname⟩ := mem_map.mp hmem
      rcases (mem_mergeFile hret).mp hf with ⟨hf, -⟩ | ⟨rfl, -⟩
      · exact hb (hname ▸ mem_map_of_mem hf)
      · exact hne hname
    · rename_i heq
      rw [not_not] at heq
      split
      · exact nodup_cons.mpr ⟨heq ▸ hb, hret⟩
      · exact h

theorem mem_foldl_mergeFile {f : File} : ∀ {other m : List File}, Distinct other → Distinct m →
    Distinct (other.foldl (fun ret a => mergeFile a ret) m) ∧
    (f ∈ other.foldl (fun ret a => mergeFile a ret) m ↔
      (f ∈ m ∧ ∀ a ∈ other, a.name = f.name → a.modTime ≤ f.modTime) ∨
      (f ∈ other ∧ ∀ g ∈ m, g.name = f.name → g.modTime < f.modTime))
  | [], m, _, hm => by
    simpa using hm
  | a :: other, m, hother, hm => by
    obtain ⟨ha, hother⟩ := nodup_cons.mp hother
    have hne : ∀ g ∈ other, g.name ≠ a.name := fun g hg hname => ha (hname ▸ mem_map_of_mem hg)
    obtain ⟨hdistinct, hmem⟩ := @mem_foldl_mergeFile f other (mergeFile a m) hother (hm.mergeFile a)
    refine ⟨hdistinct, hmem.trans ?_⟩
    simp only [mem_mergeFile hm, mem_cons]
    constructor
    · rintro (⟨⟨hf, hnew⟩ | ⟨rfl, hnew⟩, hlater⟩ | ⟨hf, hnew⟩)
      · refine .inl ⟨hf, ?_⟩
        rintro x (rfl | hx) hname
        · exact hnew hname.symm
        · exact hlater x hx hname
      · exact .inr ⟨.inl rfl, hnew⟩
      · refine .inr ⟨.inr hf, fun g hg hname => hnew g (.inl ⟨hg, fun hga => ?_⟩) hname⟩
        exact absurd (hname.symm.trans hga) (hne f hf)
    · rintro (⟨hf, hnew⟩ | ⟨rfl | hf, hnew⟩)
      · exact .inl ⟨.inl ⟨hf, fun hname => hnew a (.inl rfl) hname.symm⟩, fun x hx => hnew x (.inr hx)⟩
      · exact .inl ⟨.inr ⟨rfl, hnew⟩, fun x hx hname => absurd hname (hne x hx)⟩
      · refine .inr ⟨hf, ?_⟩
        rintro g (⟨hg, -⟩ | ⟨rfl, -⟩) hname
        · exact hnew g hg hname
        · exact absurd hname.symm (hne f hf)

theorem sortFiles_perm (files : List File) : (sortFiles files).Perm files := perm_insertionSort _ _

theorem ascending_sortFiles {files : List File} (h : Distinct files) : Ascending File.name (sortFiles files) := by
  have hsorted : (sortFiles files).Pairwise (fun a b => a.name ≤ b.name) :=
    pairwise_insertionSort (r := fun a b : File => a.name ≤ b.name) files
  have hne : (sortFiles files).Pairwise (fun a b => a.name ≠ b.name) :=
    pairwise_map.mp (((sortFiles_perm files).map File.name).nodup_iff.mpr h)
  exact hsorted.imp₂ (fun _ _ hle hne => lt_of_le_of_ne hle hne) hne

theorem distinct_of_ascending {files : List File} (h : Ascending File.name files) : Distinct files :=
  pairwise_map.mpr (h.imp (fun hlt => hlt.ne))

/-- **`Merge`** keeps the newer version of each file, and the first of equally new ones. -/
theorem merge_spec {m other : List File} (hm : Distinct m) (hother : Distinct other) :
    Ascending File.name (merge m other) ∧ ∀ f, f ∈ merge m other ↔
      (f ∈ m ∧ ∀ a ∈ other, a.name = f.name → a.modTime ≤ f.modTime) ∨
      (f ∈ other ∧ ∀ g ∈ m, g.name = f.name → g.modTime < f.modTime) := by
  have hfold := fun f => @mem_foldl_mergeFile f other m hother hm
  refine ⟨ascending_sortFiles (hfold ⟨"", 0, 0⟩).1, fun f => ?_⟩
  rw [merge, (sortFiles_perm _).mem_iff]
  exact (hfold f).2

/-! ## The newest version of each file -/

/-- **The version to restore**: no snapshot has a newer one, and no earlier snapshot one as new. -/
def Newest (ms : List (List File)) (f : File) : Prop :=
  ∃ pre m post, ms = pre ++ m :: post ∧ f ∈ m ∧
    (∀ m' ∈ pre, ∀ g ∈ m', g.name = f.name → g.modTime < f.modTime) ∧
    ∀ m' ∈ post, ∀ g ∈ m', g.name = f.name → g.modTime ≤ f.modTime

theorem newest_append_singleton {ms : List (List File)} {other : List File} {f : File} :
    Newest (ms ++ [other]) f ↔
      (Newest ms f ∧ ∀ a ∈ other, a.name = f.name → a.modTime ≤ f.modTime) ∨
      (f ∈ other ∧ ∀ m ∈ ms, ∀ g ∈ m, g.name = f.name → g.modTime < f.modTime) := by
  constructor
  · rintro ⟨pre, m, post, hms, hf, hpre, hpost⟩
    rcases eq_nil_or_concat' post with rfl | ⟨post, last, rfl⟩
    · obtain ⟨rfl, h⟩ := append_inj' hms rfl
      obtain rfl := (List.cons.inj h).1
      exact .inr ⟨hf, hpre⟩
    rw [← cons_append, ← append_assoc] at hms
    obtain ⟨rfl, h⟩ := append_inj' hms rfl
    obtain rfl := (List.cons.inj h).1
    refine .inl ⟨⟨pre, m, post, rfl, hf, hpre, fun m' hm' => hpost m' ?_⟩, hpost other ?_⟩
    · exact mem_append_left _ hm'
    · exact mem_append_right _ (mem_singleton_self _)
  · rintro (⟨⟨pre, m, post, rfl, hf, hpre, hpost⟩, hlast⟩ | ⟨hf, hpre⟩)
    · refine ⟨pre, m, post ++ [other], by rw [append_assoc, cons_append], hf, hpre, ?_⟩
      intro m' hm'
      rcases mem_append.mp hm' with hm' | hm'
      · exact hpost m' hm'
      · rw [mem_singleton.mp hm']
        exact hlast
    · exact ⟨ms, other, [], rfl, hf, hpre, fun m' hm' => (nomatch hm')⟩

/-- The combined manifest of `MultiReader.Manifest`. -/
def mergeAll (ms : List (List File)) : List File := ms.foldl merge []

/-- **The combined manifest** has the newest version of each file, ascending in the names. -/
theorem mergeAll_spec (ms : List (List File)) (hms : ∀ m ∈ ms, Distinct m) :
    Ascending File.name (mergeAll ms) ∧ (∀ f, f ∈ mergeAll ms ↔ Newest ms f) ∧
      ∀ m ∈ ms, ∀ g ∈ m, ∃ f ∈ mergeAll ms, f.name = g.name ∧ g.modTime ≤ f.modTime := by
  induction ms using List.reverseRecOn with
  | nil =>
    refine ⟨ascending_nil, fun f => ⟨fun h => (nomatch h), ?_⟩, fun m hm => (nomatch hm)⟩
    rintro ⟨pre, m, post, h, -⟩
    exact absurd h.symm (append_ne_nil_of_right_ne_nil _ (cons_ne_nil _ _))
  | append_singleton ms other ih =>
    obtain ⟨hasc, hnewest, hmax⟩ := ih (forall_mem_append.mp hms).1
    have hother := hms other (mem_append_right _ (mem_singleton_self _))
    have hmerge : mergeAll (ms ++ [other]) = merge (mergeAll ms) other := by
      rw [mergeAll, foldl_append]
      rfl
    obtain ⟨hsorted, hmem⟩ := merge_spec (distinct_of_ascending hasc) hother
    rw [hmerge]
    refine ⟨hsorted, ?_, ?_⟩
    · intro f
      rw [hmem, newest_append_singleton, hnewest]
      refine or_congr_right (and_congr_right fun hf => ⟨?_, ?_⟩)
      · intro h m hm g hg hname
        obtain ⟨f', hf', hname', hle⟩ := hmax m hm g hg
        exact hle.trans_lt (h f' hf' (hname'.trans hname))
      · intro h g hg hname
        obtain ⟨pre, m, post, rfl, hgm, -⟩ := (hnewest g).mp hg
        exact h m (mem_append_right _ mem_cons_self) g hgm hname
    · have hold : ∀ f ∈ mergeAll ms, ∃ f' ∈ merge (mergeAll ms) other, f'.name = f.name ∧ f.modTime ≤ f'.modTime := by
        intro f hf
        by_cases hnew : ∃ a ∈ other, a.name = f.name ∧ f.modTime < a.modTime
        · obtain ⟨a, ha, hname, hlt⟩ := hnew
          refine ⟨a, (hmem a).mpr (.inr ⟨ha, fun g hg hg' => ?_⟩), hname, hlt.le⟩
          rw [(distinct_of_ascending hasc).eq_of_name hg hf (hg'.trans hname)]
          exact hlt
        · refine ⟨f, (hmem f).mpr (.inl ⟨hf, fun a ha hname => ?_⟩), rfl, le_rfl⟩
          exact not_lt.mp (fun hlt => hnew ⟨a, ha, hname, hlt⟩)
      intro m hm g hg
      rcases mem_append.mp hm with hm | hm
      · obtain ⟨f, hf, hname, hle⟩ := hmax m hm g hg
        obtain ⟨f', hf', hname', hle'⟩ := hold f hf
        exact ⟨f', hf', hname'.trans hname, hle.trans hle'⟩
      rw [mem_singleton.mp hm] at hg
      by_cases hnew : ∃ f ∈ mergeAll ms, f.name = g.name ∧ g.modTime ≤ f.modTime
      · obtain ⟨f, hf, hname, hle⟩ := hnew
        obtain ⟨f', hf', hname', hle'⟩ := hold f hf
        exact ⟨f', hf', hname'.trans hname, hle.trans hle'⟩
      · refine ⟨g, (hmem g).mpr (.inr ⟨hg, fun f hf hname => ?_⟩), rfl, le_rfl⟩
        exact not_le.mp (fun hle => hnew ⟨f, hf, hname, hle⟩)

/-! ## Chains of incremental snapshots -/

/-- The inner loop of `Diff`: whether the file is newer than its version in the other manifest. -/
def isNewer (a : File) : List File → Bool
  | [] => true
  | b :: other => if a.name ≠ b.name then isNewer a other else decide (b.modTime < a.modTime)

def diff (m other : List File) : List File := sortFiles (m.filter (fun a => isNewer a other))

/-- A full manifest, and the differences of later ones merged into it. -/
def chain (n : List File) (ns : List (List File)) : List File := ns.foldl (fun m n => merge m (diff n m)) n

theorem isNewer_iff {a : File} : ∀ {other : List File}, Distinct other →
    (isNewer a other = true ↔ ∀ b ∈ other, b.name = a.name → b.modTime < a.modTime)
  | [], _ => by simp [isNewer]
  | b :: other, h => by
    obtain ⟨hb, hother⟩ := nodup_cons.mp h
    unfold isNewer
    split
    · rename_i hne
      rw [isNewer_iff hother, forall_mem_cons]
      exact (and_iff_right (fun heq => absurd heq.symm hne)).symm
    · rename_i heq
      rw [not_not] at heq
      rw [decide_eq_true_iff, forall_mem_cons]
      refine ⟨fun hlt => ⟨fun _ => hlt, fun g hg hname => ?_⟩, fun h => h.1 heq.symm⟩
      exact absurd (mem_map.mpr ⟨g, hg, hname.trans heq⟩) hb

section

variable {m n : List File} (hm : Distinct m) (hn : Distinct n)
include hm

theorem mem_diff {f : File} :
    f ∈ diff n m ↔ f ∈ n ∧ ∀ b ∈ m, b.name = f.name → b.modTime < f.modTime := by
  rw [diff, (sortFiles_perm _).mem_iff, mem_filter, isNewer_iff hm]

include hn

/-- **The difference loses nothing**: merged, it gives what the whole manifest gives. -/
theorem merge_diff : merge m (diff n m) = merge m n := by
  have hdiff : Distinct (diff n m) :=
    ((sortFiles_perm _).map File.name).nodup_iff.mpr (hn.sublist (filter_sublist.map _))
  obtain ⟨hasc, hmem⟩ := merge_spec hm hdiff
  obtain ⟨hasc', hmem'⟩ := merge_spec hm hn
  refine ascending_ext hasc hasc' (fun f => ?_)
  rw [hmem, hmem']
  simp only [mem_diff hm]
  constructor
  · rintro (⟨hf, hold⟩ | ⟨⟨hf, hnew⟩, -⟩)
    · refine .inl ⟨hf, fun a ha hname => not_lt.mp (fun hlt => ?_)⟩
      -- a version newer than that of `m` is in the difference
      refine absurd (hold a ⟨ha, fun b hb hb' => ?_⟩ hname) (not_le.mpr hlt)
      rw [hm.eq_of_name hb hf (hb'.trans hname)]
      exact hlt
    · exact .inr ⟨hf, hnew⟩
  · rintro (⟨hf, hold⟩ | ⟨hf, hnew⟩)
    · exact .inl ⟨hf, fun a ha => hold a ha.1⟩
    · exact .inr ⟨⟨hf, hnew⟩, hnew⟩

theorem merge_perm {m' : List File} (hperm : m'.Perm m) : merge m' n = merge m n := by
  obtain ⟨hasc, hmem⟩ := merge_spec hm hn
  obtain ⟨hasc', hmem'⟩ := merge_spec ((hperm.map File.name).nodup_iff.mpr hm) hn
  refine ascending_ext hasc' hasc (fun f => ?_)
  rw [hmem, hmem']
  simp only [hperm.mem_iff]

end

/-- The chain has what merging the full manifests gives. -/
theorem chain_perm {n : List File} {ns : List (List File)} (h : ∀ m ∈ n :: ns, Distinct m) :
    (chain n ns).Perm (mergeAll (n :: ns)) ∧ (ns ≠ [] → chain n ns = mergeAll (n :: ns)) := by
  induction ns using List.reverseRecOn with
  | nil =>
    have hnil : Distinct [] := nodup_nil
    obtain ⟨hasc, hmem⟩ := merge_spec hnil (h n mem_cons_self)
    refine ⟨(perm_ext_iff_of_nodup (h n mem_cons_self).of_map hasc.nodup).mpr (fun f => ?_), absurd rfl⟩
    exact Iff.symm ((hmem f).trans (by simp))
  | append_singleton ns last ih =>
    rw [← cons_append, forall_mem_append, forall_mem_singleton] at h
    obtain ⟨hperm, -⟩ := ih h.1
    have hall := distinct_of_ascending (mergeAll_spec _ h.1).1
    have heq : chain n (ns ++ [last]) = mergeAll (n :: (ns ++ [last])) := by
      rw [chain, foldl_append, ← cons_append, mergeAll, foldl_append]
      exact (merge_diff ((hperm.map File.name).nodup_iff.mpr hall) h.2).trans (merge_perm hall h.2 hperm)
    exact ⟨heq ▸ Perm.refl _, fun _ => heq⟩

/-- **A chain of incremental snapshots is complete**: it lists the newest version of each file of the
full manifests, ascending in the names if there is a difference or the first manifest is so. -/
theorem chain_complete (n : List File) (ns : List (List File)) (h : ∀ m ∈ n :: ns, Distinct m) :
    Distinct (chain n ns) ∧ (ns ≠ [] ∨ Ascending File.name n → Ascending File.name (chain n ns)) ∧
      (∀ f, f ∈ chain n ns ↔ Newest (n :: ns) f) ∧
      ∀ m ∈ n :: ns, ∀ g ∈ m, ∃ f ∈ chain n ns, f.name = g.name ∧ g.modTime ≤ f.modTime := by
  obtain ⟨hperm, heq⟩ := chain_perm h
  obtain ⟨hasc, hnewest, hmax⟩ := mergeAll_spec _ h
  simp only [hperm.mem_iff]
  refine ⟨(hperm.map File.name).nodup_iff.mpr (distinct_of_ascending hasc), fun hcase => ?_, hnewest, hmax⟩
  cases ns with
  | nil => exact hcase.resolve_left (absurd rfl)
  | cons last ns => exact heq (cons_ne_nil _ _) ▸ hasc

/-- A file that changes, and one that stays. -/
theorem chain_complete_two :
    chain [⟨"b", 1, 1⟩, ⟨"a", 1, 1⟩] [[⟨"a", 2, 2⟩, ⟨"b", 1, 1⟩]] = [⟨"a", 2, 2⟩, ⟨"b", 1, 1⟩] ∧
      Ascending File.name (chain [⟨"b", 1, 1⟩, ⟨"a", 1, 1⟩] [[⟨"a", 2, 2⟩, ⟨"b", 1, 1⟩]]) :=
  ⟨by decide +kernel, (chain_complete _ _ (by simp [Distinct])).2.1 (.inl (cons_ne_nil _ _))⟩

/-- The first manifest alone stays in its order. -/
theorem chain_unsorted : Distinct [⟨"b", 1, 1⟩, ⟨"a", 1, 1⟩] ∧
    ¬Ascending File.name (chain [⟨"b", 1, 1⟩, ⟨"a", 1, 1⟩] []) := by
  refine ⟨by simp [Distinct], fun h => ?_⟩
  exact absurd ((ascending_cons.mp h).1 _ mem_cons_self) (by decide +kernel)

end Manifest

end AndyEnv.Snapshot
