import AndyEnv.Tsm1.Wal.System

/-!
# What the log may forget

A segment file may be removed once all the points in it have been handed to
the index, and a point that has not been handed over must still be returned by
`Cursor`. The code keeps to this as long as no flush fails: a flush that fails
leaves its values in `flushCache`, the next flush overwrites them, and then
removes the segment files of both.

The history falls into three parts: the values that have been handed over,
those in the flush cache and those in the cache.
-/

namespace AndyEnv.Tsm1.Wal

open List Keyed Option

/-! ## The property -/

namespace State

variable (s : State)

/-- `v` was added for `k` at position `i` of the history; `v'` is `v`, or a
value for the same time that was added later. -/
def Replaces (i : ℕ) (k : Bytes) (v v' : Value) : Prop :=
  s.history[i]? = some (k, v) ∧ (k, v') ∈ s.history.drop i ∧ v'.unixNano = v.unixNano

/-- The value at position `i` was given to a call of `IndexWriter.Write` that
returned nil. -/
def Handed (i : ℕ) (k : Bytes) (v : Value) : Prop :=
  ∃ v', s.Replaces i k v v' ∧ ∃ batch ∈ s.handed, v' ∈ batch.get k

/-- The value at position `i` is returned by `Cursor`. -/
def Readable (i : ℕ) (k : Bytes) (v : Value) : Prop :=
  ∃ v', s.Replaces i k v v' ∧ ∃ l, s.log = some l ∧ v' ∈ l.cursor k

end State

/-- Every point of a removed segment file has been handed to the index, and
every point of a segment file that is there has been, or can be read. -/
structure NeverDrops (s : State) : Prop where
  removed : ∀ r ∈ s.removed, ∀ j k v, r.entry.values[j]? = some (k, v) → s.Handed (r.start + j) k v
  kept : ∀ r ∈ s.recorded, ∀ j k v, r.entry.values[j]? = some (k, v) →
    s.Handed (r.start + j) k v ∨ s.Readable (r.start + j) k v

def Op.isWriteOrFlush : Op → Prop
  | .writePoints _ _ _ | .advance _ | .beginFlush _ | .indexWrite _ | .removeSegments => True
  | _ => False

/-- The condition: no flush begins while an earlier one, which failed, has
left values in the flush cache. -/
def KeepsFlushCache (s : State) (op : Op) : Prop :=
  op.isWriteOrFlush ∧ ∀ type, op = .beginFlush type → ∀ l ∈ s.log, ∀ m ∈ l.flushCache,
    ∀ k, m.get k = []

/-! ## The invariant -/

variable {i : ℕ} {k : Bytes} {v : Value}

theorem exists_replaces {h : List (Bytes × Value)} {a b : ℕ}
    (ha : a ≤ i) (hb : i < b) (hi : h[i]? = some (k, v)) :
    ∃ v' ∈ Values.deduplicate (valuesOf k ((h.take b).drop a)),
      (k, v') ∈ h.drop i ∧ v'.unixNano = v.unixNano := by
  have hlt : i < h.length := (List.getElem?_eq_some_iff.mp hi).1
  have hdrop : h.drop i = (k, v) :: h.drop (i + 1) := by
    rw [drop_eq_getElem_cons hlt, (List.getElem?_eq_some_iff.mp hi).2]
  have hsplit : (h.take b).drop a =
      ((h.take b).drop a).take (i - a) ++ (k, v) :: (h.take b).drop (i + 1) := by
    have hcons : (h.take b).drop i = (k, v) :: (h.take b).drop (i + 1) := by
      rw [drop_take, hdrop, show b - i = (b - (i + 1)) + 1 by omega, take_succ_cons, drop_take]
    rw [← hcons]
    conv_lhs => rw [← take_append_drop (i - a) ((h.take b).drop a)]
    rw [drop_drop, show a + (i - a) = i by omega]
  rw [hsplit, valuesOf_append, valuesOf_cons_self]
  obtain ⟨x, hx, hk, hmem⟩ := @Keyed.exists_mem_ofList_of_split _ _ _ Value.unixNano
    (valuesOf k (((h.take b).drop a).take (i - a))) (valuesOf k ((h.take b).drop (i + 1))) v
  refine ⟨x, hmem, ?_, hk⟩
  rw [hdrop]
  rcases mem_cons.mp hx with rfl | hx
  · exact mem_cons_self
  · have hx := mem_valuesOf.mp hx
    rw [drop_take] at hx
    exact mem_cons_of_mem _ (mem_of_mem_take hx)

theorem State.Handed.mono {s s' : State} (h : s.Handed i k v)
    (hhistory : s.history <+: s'.history) (hhanded : s.handed ⊆ s'.handed) : s'.Handed i k v := by
  obtain ⟨v', ⟨hi, hmem, htime⟩, batch, hbatch, hv'⟩ := h
  obtain ⟨more, hmore⟩ := hhistory
  have hlt : i < s.history.length := (List.getElem?_eq_some_iff.mp hi).1
  refine ⟨v', ⟨?_, ?_, htime⟩, batch, hhanded hbatch, hv'⟩
  · rw [← hmore, List.getElem?_append_left hlt, hi]
  · rw [← hmore, drop_append_of_le_length hlt.le]
    exact mem_append_left _ hmem

/-- The entry's values are at position `start` of the history. -/
def At (history : List (Bytes × Value)) (start : ℕ) (e : Entry) : Prop :=
  ∀ j kv, e.values[j]? = some kv → history[start + j]? = some kv

theorem At.append {history : List (Bytes × Value)} {start : ℕ} {e : Entry}
    (h : At history start e) (more : List (Bytes × Value)) : At (history ++ more) start e := by
  intro j kv hj
  have hi := h j kv hj
  rw [List.getElem?_append_left (List.getElem?_eq_some_iff.mp hi).1, hi]

/-- The record's values lie before position `m` of the history. -/
def Record.Before (r : Record) (m : ℕ) : Prop := ∀ j < r.entry.values.length, r.start + j < m

/-- **The invariant.** Up to `m₁` the history has been handed to the index,
from there to `m₂` it is in the flush cache, and after that in the cache. The
entries of the segment files a flush will remove lie before `m₂`, and before
`m₁` once the index has them. -/
structure Retained (s : State) (l : Log) (m₁ m₂ : ℕ) : Prop where
  log_eq : s.log = some l
  opening_eq : s.opening = none
  le : m₁ ≤ m₂
  le_length : m₂ ≤ s.history.length
  handed : ∀ i k v, i < m₁ → s.history[i]? = some (k, v) → s.Handed i k v
  flush_eq : ∀ k, (l.flushCache.getD ∅).get k =
    Values.deduplicate (valuesOf k ((s.history.take m₂).drop m₁))
  cache_eq : ∀ k, l.cache.get k = valuesOf k (s.history.drop m₂)
  sorted : l.CacheSorted
  fileCurrent : l.FileCurrent
  recorded : ∀ r ∈ s.recorded, At s.history r.start r.entry ∧ r.segment ≤ l.currentSegmentID
  removed : ∀ r ∈ s.removed, At s.history r.start r.entry ∧ r.Before m₁
  calls : ∀ c ∈ s.calls, ∀ a ∈ c.actions, ∃ e, a = .log e ∧ At s.history c.start e
  flush : ∀ fl ∈ s.flush, (fl.lastFileID < l.currentSegmentID ∨
      fl.lastFileID = l.currentSegmentID ∧ l.currentSegmentFile = none) ∧
    ∀ r ∈ s.recorded, r.segment ≤ fl.lastFileID → r.Before (if fl.written then m₁ else m₂)

namespace Retained

variable {C : EntryCodec} {cfg : Config} {s s' : State} {l : Log} {m₁ m₂ : ℕ}

/-- What is read and what has been handed over make up the history. -/
theorem cursor_eq (h : Retained s l m₁ m₂) (k : Bytes) :
    l.cursor k = Values.deduplicate (valuesOf k (s.history.drop m₁)) := by
  have hsplit : s.history.drop m₁ = (s.history.take m₂).drop m₁ ++ s.history.drop m₂ := by
    conv_lhs => rw [← take_append_drop m₂ s.history]
    rw [drop_append_of_le_length]
    rw [List.length_take]
    exact le_min h.le (h.le.trans h.le_length)
  rw [h.sorted.cursor_eq, h.flush_eq, h.cache_eq, hsplit, valuesOf_append]
  exact (ofList_append (ascending_ofList _)).trans (overlay_append _ _ _).symm

theorem neverDrops (h : Retained s l m₁ m₂) : NeverDrops s where
  removed r hr j k v hj := by
    obtain ⟨hat, hlt⟩ := h.removed r hr
    exact h.handed _ k v (hlt j (List.getElem?_eq_some_iff.mp hj).1) (hat j _ hj)
  kept r hr j k v hj := by
    have hi := (h.recorded r hr).1 j _ hj
    rcases lt_or_ge (r.start + j) m₁ with hlt | hge
    · exact .inl (h.handed _ k v hlt hi)
    · have hlen := (List.getElem?_eq_some_iff.mp hi).1
      obtain ⟨v', hmem, hdrop, htime⟩ := exists_replaces hge hlen hi
      rw [take_length] at hmem
      exact .inr ⟨v', ⟨hi, hdrop, htime⟩, l, h.log_eq, h.cursor_eq k ▸ hmem⟩

theorem opened : Retained State.opened
    { Log.new with currentSegmentID := 1, currentSegmentFile := some ⟨1, 0⟩ } 0 0 where
  log_eq := rfl
  opening_eq := rfl
  le := le_rfl
  le_length := le_rfl
  handed i k v hi := absurd hi (Nat.not_lt_zero i)
  flush_eq k := rfl
  cache_eq k := rfl
  sorted k _ := ascending_nil
  fileCurrent h hh := by cases hh; rfl
  recorded r hr := absurd hr not_mem_nil
  removed r hr := absurd hr not_mem_nil
  calls c hc := absurd hc not_mem_nil
  flush fl hfl := by cases hfl

section

variable (h : Retained s l m₁ m₂)
include h

theorem extend {l' : Log} (hfiles : Log.SameFiles l l')
    (hsorted : l'.CacheSorted) {new : List (Bytes × Value)}
    (hget : ∀ k, l'.cache.get k = l.cache.get k ++ valuesOf k new) :
    Retained { s with log := some l', history := s.history ++ new } l' m₁ m₂ where
  log_eq := rfl
  opening_eq := h.opening_eq
  le := h.le
  le_length := by
    rw [length_append]
    exact h.le_length.trans (Nat.le_add_right _ _)
  handed i k v hi hk := by
    have hlt : i < s.history.length := hi.trans_le (h.le.trans h.le_length)
    rw [List.getElem?_append_left hlt] at hk
    exact (h.handed i k v hi hk).mono (prefix_append _ _) (List.Subset.refl _)
  flush_eq k := by
    rw [hfiles.flushCache, take_append_of_le_length h.le_length]
    exact h.flush_eq k
  cache_eq k := by
    rw [hget, h.cache_eq, drop_append_of_le_length h.le_length, valuesOf_append]
  sorted := hsorted
  fileCurrent f hf := by
    rw [hfiles.currentSegmentID]
    exact h.fileCurrent f (hfiles.currentSegmentFile ▸ hf)
  recorded r hr := ⟨(h.recorded r hr).1.append _, hfiles.currentSegmentID ▸ (h.recorded r hr).2⟩
  removed r hr := ⟨(h.removed r hr).1.append _, (h.removed r hr).2⟩
  calls c hc a ha := by
    obtain ⟨e, he, hat⟩ := h.calls c hc a ha
    exact ⟨e, he, hat.append _⟩
  flush fl hfl := by
    rw [hfiles.currentSegmentID, hfiles.currentSegmentFile]
    exact h.flush fl hfl

theorem writePoints {points : List Point} {fields series : List Bytes}
    (hstep : stepWritePoints cfg s points fields series = some s') :
    ∃ l', Retained s' l' m₁ m₂ := by
  obtain ⟨l₀, hl₀, -, hcases⟩ := stepWritePoints_cases hstep
  obtain rfl : l₀ = l := some.inj (hl₀.symm.trans h.log_eq)
  obtain ⟨hfiles, hsorted, hget⟩ := Log.addToCache_spec cfg l₀ points fields series true
  refine ⟨(l₀.addToCache cfg points fields series true).log, ?_⟩
  have hext := h.extend hfiles (hsorted h.sorted) hget
  dsimp only at hcases
  rcases hcases with ⟨hacc, rfl⟩ | ⟨hacc, rfl⟩
  · simp only [hacc, Bool.false_eq_true, if_false, append_nil] at hext
    exact { hext with }
  simp only [hacc, if_true] at hext
  refine { hext with calls := fun c hc a ha => ?_ }
  rcases mem_append.mp hc with hc | hc
  · exact hext.calls c hc a ha
  -- the new call: only its first entry has values
  obtain rfl := mem_singleton.mp hc
  obtain ⟨e, he, rfl⟩ := mem_map.mp ha
  refine ⟨e, rfl, fun j kv hj => ?_⟩
  have hval : e.values = points.flatMap Point.values ∨ e.values = [] := by
    rcases mem_cons.mp he with rfl | he
    · exact .inl rfl
    right
    rcases mem_append.mp he with he | he
    all_goals
      split at he
      · cases he
      · rw [mem_singleton.mp he]
        rfl
  rcases hval with hval | hval
  · rw [hval] at hj
    rw [List.getElem?_append_right (Nat.le_add_right _ _), Nat.add_sub_cancel_left, hj]
  · rw [hval] at hj
    cases hj

theorem advance {i : ℕ} (hstep : stepAdvance C s i = some s') : ∃ l', Retained s' l' m₁ m₂ := by
  obtain ⟨l₀, start, a, rest, hl₀, -, hcall, rfl⟩ := stepAdvance_cases hstep
  obtain rfl : l₀ = l := some.inj (hl₀.symm.trans h.log_eq)
  have hmem := mem_of_getElem? hcall
  obtain ⟨e, rfl, hat⟩ := h.calls _ hmem a mem_cons_self
  obtain ⟨hcache, hcurrent, hid, hseg, hnone⟩ :=
    Log.writeToLog_spec h.fileCurrent s.dir (entryBytes C e)
  have hnew : ∀ fl ∈ s.flush, fl.lastFileID < (l₀.writeToLog s.dir (entryBytes C e)).2.2 := by
    intro fl hfl
    rcases (h.flush fl hfl).1 with hlt | ⟨heq, hfile⟩
    · exact hseg ▸ hlt.trans_le hid
    · rw [hnone hfile, heq]
      exact Nat.lt_succ_self _
  refine ⟨(l₀.writeToLog s.dir (entryBytes C e)).1, ?_⟩
  exact
    { log_eq := rfl
      opening_eq := h.opening_eq
      le := h.le
      le_length := h.le_length
      handed := h.handed
      flush_eq := fun k => by rw [hcache.flushCache]; exact h.flush_eq k
      cache_eq := fun k => by rw [hcache.cache]; exact h.cache_eq k
      sorted := hcache.cacheSorted h.sorted
      fileCurrent := hcurrent
      recorded := forall_mem_append.mpr
        ⟨fun r hr => ⟨(h.recorded r hr).1, (h.recorded r hr).2.trans hid⟩, forall_mem_singleton.mpr ⟨hat, hseg.le⟩⟩
      removed := h.removed
      calls := by
        intro c hc b hb
        dsimp only at hc
        split at hc
        · exact h.calls c (mem_of_mem_eraseIdx hc) b hb
        · rcases mem_or_eq_of_mem_set hc with hc | rfl
          · exact h.calls c hc b hb
          · exact h.calls _ hmem b (mem_cons_of_mem _ hb)
      flush := by
        intro fl hfl
        refine ⟨.inl (hseg ▸ hnew fl hfl), fun r hr hle => ?_⟩
        rcases mem_append.mp hr with hr | hr
        · exact (h.flush fl hfl).2 r hr hle
        · obtain rfl := mem_singleton.mp hr
          exact absurd hle (not_le.mpr (hnew fl hfl)) }

section

variable (hempty : ∀ m ∈ l.flushCache, ∀ k, m.get k = [])
include hempty

/-- When the flush cache is empty, all that was ever in it has been handed
over. -/
theorem handed_of_flushCache_empty :
    ∀ i k v, i < m₂ → s.history[i]? = some (k, v) → s.Handed i k v := by
  intro i k v hi hk
  rcases lt_or_ge i m₁ with hlt | hge
  · exact h.handed i k v hlt hk
  obtain ⟨v', hmem, -, -⟩ := exists_replaces hge hi hk
  have hnil : (l.flushCache.getD ∅).get k = [] := by
    cases hfc : l.flushCache with
    | none => rfl
    | some m => exact hempty m hfc k
  rw [← h.flush_eq, hnil] at hmem
  cases hmem

theorem swap (type : FlushType) (running : Bool) {fl : Option Flush}
    (hfl : fl = none ∨ fl = some ⟨type, l.currentSegmentID, false⟩) : Retained
      { s with
        log := some { (l.rotate s.dir type).1.swapCache with flushRunning := running }
        dir := (l.rotate s.dir type).2
        flushRequested := false
        flush := fl }
      { (l.rotate s.dir type).1.swapCache with flushRunning := running } m₂ s.history.length := by
  obtain ⟨hcache, hid, hfile⟩ := Log.rotate_spec l s.dir type
  exact
    { log_eq := rfl
      opening_eq := h.opening_eq
      le := h.le_length
      le_length := le_rfl
      handed := h.handed_of_flushCache_empty hempty
      flush_eq := fun k => by
        show (l.rotate s.dir type).1.flushValues.get k = _
        rw [(hcache.cacheSorted h.sorted).get_flushValues, hcache.cache, h.cache_eq, take_length]
      cache_eq := fun k => by
        rw [drop_length]
        rfl
      sorted := fun k _ => ascending_nil
      fileCurrent := fun f hf => by
        obtain ⟨rfl, hcur⟩ := hfile f hf
        exact hcur.symm
      recorded := fun r hr => ⟨(h.recorded r hr).1, (h.recorded r hr).2.trans hid⟩
      removed := fun r hr =>
        ⟨(h.removed r hr).1, fun j hj => ((h.removed r hr).2 j hj).trans_le h.le⟩
      calls := h.calls
      flush := by
        rintro fl' hfl'
        rcases hfl with rfl | rfl
        · cases hfl'
        cases hfl'
        refine ⟨?_, fun r hr _ j hj => ?_⟩
        · cases hf : (l.rotate s.dir type).1.currentSegmentFile with
          | none =>
            rcases hid.lt_or_eq with hlt | heq
            · exact .inl hlt
            · exact .inr ⟨heq, hf⟩
          | some f =>
            obtain ⟨-, hcur⟩ := hfile f hf
            exact .inl (hcur ▸ Nat.lt_succ_self _)
        · have hat := (h.recorded r hr).1 j _ (List.getElem?_eq_getElem hj)
          exact (List.getElem?_eq_some_iff.mp hat).1 }

theorem beginFlush {type : FlushType}
    (hstep : stepBeginFlush s type = some s') : ∃ l' m₁' m₂', Retained s' l' m₁' m₂' := by
  obtain ⟨l₀, hl₀, hflush, -, hcases⟩ := stepBeginFlush_cases hstep
  obtain rfl : l₀ = l := some.inj (hl₀.symm.trans h.log_eq)
  rcases hcases with rfl | ⟨-, rfl⟩ | rfl
  · exact ⟨l₀, m₁, m₂, h⟩
  · exact ⟨_, _, _, { h.swap hempty type false (.inl rfl) with
      flush := fun fl hfl => by rw [hflush] at hfl; cases hfl }⟩
  · exact ⟨_, _, _, h.swap hempty type true (.inr rfl)⟩

end

theorem indexWrite {ok : Bool} (hstep : stepIndexWrite s ok = some s') :
    ∃ l' m₁' m₂', Retained s' l' m₁' m₂' := by
  obtain ⟨l₀, type, lastFileID, hl₀, hflush, hcases⟩ := stepIndexWrite_cases hstep
  obtain rfl : l₀ = l := some.inj (hl₀.symm.trans h.log_eq)
  rcases hcases with ⟨-, rfl⟩ | ⟨hopening, rfl⟩ | ⟨-, rfl⟩
  · -- the index takes the values from `m₁` to `m₂`
    refine ⟨_, m₂, m₂, { h with
      log_eq := rfl
      le := le_rfl
      handed := fun i k v hi hk => ?_
      flush_eq := fun k => ?_
      removed := fun r hr =>
        ⟨(h.removed r hr).1, fun j hj => ((h.removed r hr).2 j hj).trans_le h.le⟩
      flush := fun fl hfl => ?_ }⟩
    · rcases lt_or_ge i m₁ with hlt | hge
      · exact (h.handed i k v hlt hk).mono (prefix_refl _) (subset_append_left _ _)
      · obtain ⟨v', hmem, hdrop, htime⟩ := exists_replaces hge hi hk
        refine ⟨v', ⟨hk, hdrop, htime⟩, _, mem_append_right _ mem_cons_self, ?_⟩
        rw [h.flush_eq]
        exact hmem
    · rw [drop_eq_nil_of_le (length_take_le _ _)]
      rfl
    · cases hfl
      exact h.flush ⟨type, lastFileID, false⟩ hflush
  · rw [h.opening_eq] at hopening
    cases hopening
  · -- the flush has failed and leaves everything as it is
    exact ⟨_, m₁, m₂, { h with log_eq := rfl, flush := fun fl hfl => by cases hfl }⟩

theorem removeSegments (hstep : stepRemoveSegments s = some s') : ∃ l', Retained s' l' m₁ m₂ := by
  obtain ⟨l₀, type, lastFileID, hl₀, hflush, rfl⟩ := stepRemoveSegments_cases hstep
  obtain rfl : l₀ = l := some.inj (hl₀.symm.trans h.log_eq)
  refine ⟨_, { h with
    log_eq := rfl
    opening_eq := ?_
    recorded := fun r hr => h.recorded r (mem_of_mem_filter hr)
    removed := fun r hr => ?_
    flush := fun fl hfl => by cases hfl }⟩
  · dsimp only
    rw [h.opening_eq]
    split <;> rfl
  · rcases mem_append.mp hr with hr | hr
    · exact h.removed r hr
    · obtain ⟨hr, hle⟩ := mem_filter.mp hr
      exact ⟨(h.recorded r hr).1, (h.flush _ hflush).2 r hr (of_decide_eq_true hle)⟩

theorem step {op : Op} (hok : KeepsFlushCache s op)
    (hstep : Wal.step C cfg s op = some s') : ∃ l' m₁' m₂', Retained s' l' m₁' m₂' := by
  obtain ⟨hop, hempty⟩ := hok
  cases op with
  | writePoints points fields series =>
    obtain ⟨l', h'⟩ := h.writePoints hstep
    exact ⟨l', m₁, m₂, h'⟩
  | advance i =>
    obtain ⟨l', h'⟩ := h.advance hstep
    exact ⟨l', m₁, m₂, h'⟩
  | beginFlush type => exact h.beginFlush (hempty type rfl l h.log_eq) hstep
  | indexWrite ok => exact h.indexWrite hstep
  | removeSegments =>
    obtain ⟨l', h'⟩ := h.removeSegments hstep
    exact ⟨l', m₁, m₂, h'⟩
  | _ => exact hop.elim

end

end Retained

/-- **Nothing is dropped while no flush fails.** In every run of `WritePoints`
and flushes in which no flush begins over what a failed one has left, every
point of a removed segment file has been handed to the index, and every other
logged point has been, or is returned by `Cursor`. -/
theorem wal_neverDrops {C : EntryCodec} {cfg : Config} {s : State}
    (h : (openedSystem C cfg).Reaches KeepsFlushCache s) : NeverDrops s := by
  have hinv : ∃ l m₁ m₂, Retained s l m₁ m₂ := by
    refine h.invariant (I := fun s => ∃ l m₁ m₂, Retained s l m₁ m₂) ?_ ?_
    · rintro s rfl
      exact ⟨_, _, _, Retained.opened⟩
    · rintro s op s' ⟨l, m₁, m₂, hr⟩ hok hstep
      exact hr.step hok hstep
  obtain ⟨l, m₁, m₂, hr⟩ := hinv
  exact hr.neverDrops

/-! ## A flush that fails -/

/-- A first point is logged, and the flush fails; a second one is logged, and
the flush succeeds. -/
def failingFlush : List Op :=
  [.writePoints [intPoint 1 1] [] [], .advance 0, .beginFlush .idle, .indexWrite false,
    .writePoints [intPoint 2 2] [] [], .advance 0, .beginFlush .idle, .indexWrite true,
    .removeSegments]

/-- The second flush removes both segment files, but hands over the second
point only. -/
theorem wal_drops_point :
    ∃ s, (openedSystem (tableCodec []) ⟨100, 100⟩).Reaches (fun _ op => op.isWriteOrFlush) s ∧
      ¬ NeverDrops s := by
  obtain ⟨s, hs⟩ : ∃ s, run (tableCodec []) ⟨100, 100⟩ State.opened failingFlush = some s :=
    isSome_iff_exists.mp (by decide +kernel)
  have hremoved : s.removed = [⟨1, .points [intPoint 1 1], 0⟩, ⟨2, .points [intPoint 2 2], 1⟩] := by
    apply some.inj
    change (some s).map State.removed = _
    rw [← hs]
    decide +kernel
  have hhanded : s.handed.map (fun batch => batch.get intKey) = [[], [⟨2, .int64 2⟩]] := by
    apply some.inj
    change (some s).map (fun s => s.handed.map (fun batch => batch.get intKey)) = _
    rw [← hs]
    decide +kernel
  refine ⟨s, reaches_run (.init rfl) (by simp [failingFlush, Op.isWriteOrFlush]) hs, fun h => ?_⟩
  obtain ⟨v', ⟨-, -, htime⟩, batch, hbatch, hv'⟩ :=
    h.removed ⟨1, .points [intPoint 1 1], 0⟩ (by simp [hremoved]) 0 intKey ⟨1, .int64 1⟩ rfl
  have hmem : batch.get intKey ∈ s.handed.map (fun batch => batch.get intKey) :=
    mem_map_of_mem hbatch
  rw [hhanded] at hmem
  have hall : ∀ vs ∈ [[], [(⟨2, .int64 2⟩ : Value)]], ∀ v ∈ vs, v.unixNano ≠ 1 := by decide
  exact hall _ hmem v' hv' htime

/-- Without a failure the flush removes the segment file of a point that it
has handed over. -/
theorem wal_neverDrops_flushed :
    ∃ s, (openedSystem (tableCodec []) ⟨100, 100⟩).Reaches KeepsFlushCache s ∧
      s.removed = [⟨1, .points [intPoint 1 1], 0⟩] ∧ NeverDrops s := by
  have hlogged : (openedSystem (tableCodec []) ⟨100, 100⟩).Reaches KeepsFlushCache _ :=
    .step (l := .advance 0)
      (.step (l := .writePoints [intPoint 1 1] [] []) (.init rfl) ⟨trivial, nofun⟩ rfl)
      ⟨trivial, nofun⟩ rfl
  have hflushed : (openedSystem (tableCodec []) ⟨100, 100⟩).Reaches KeepsFlushCache _ :=
    .step (l := .removeSegments) (.step (l := .indexWrite true)
      (.step (l := .beginFlush .idle) hlogged ⟨trivial, fun _ _ l hl m hm => by
        cases hl
        cases hm⟩ rfl) ⟨trivial, nofun⟩ rfl) ⟨trivial, nofun⟩ rfl
  exact ⟨_, hflushed, rfl, wal_neverDrops hflushed⟩

end AndyEnv.Tsm1.Wal
