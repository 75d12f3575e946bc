import AndyEnv.Bz1.AscendingScan
import AndyEnv.Wal.Acknowledged

/-!
# Reading after a restart

What `Open` has handed to `WriteIndex` goes to the blocks of each series, together with what
the flushes before it have handed over. The calls of `writeIndex` cut the points of a series in
any way. Read from the blocks, a series has the last value of each time over all the points that
were written to the log, though flushes and replays hand points over twice.
-/

namespace AndyEnv.Bz1

open List Tsdb Keyed Entry LastWrite
open Tsm1.Codec (Snappy)

/-- The entries of a series, in order. -/
def entriesOf (k : Bytes) (ps : List Wal.Point) : List Entry :=
  (Wal.pointsOf k ps).map (fun p => ⟨p.time, p.data⟩)

variable {k : Bytes} {ps qs : List Wal.Point}

theorem mem_ofList_entriesOf {e : Entry} : e ∈ ofList Entry.key (entriesOf k ps) ↔
    (last Wal.Point.slot ps (k, e.time)).map (fun p => (⟨p.time, p.data⟩ : Entry)) = some e := by
  rw [mem_ofList_iff, entriesOf, Wal.pointsOf, filter_map, filter_filter, getLast?_map, last,
    ← head?_filter, filter_reverse, head?_reverse]
  have hslot : ∀ p : Wal.Point, p.slot = (k, e.time) ↔ key ⟨p.time, p.data⟩ = e.key ∧ p.key = k :=
    fun p => by rw [key_eq_iff, Wal.Point.slot, Prod.mk.injEq, and_comm]
  simp only [Function.comp_apply, ← Bool.decide_and, hslot]

theorem ofList_entriesOf_congr
    (h : ∀ i, last Wal.Point.slot ps i = last Wal.Point.slot qs i) :
    ofList Entry.key (entriesOf k ps) = ofList Entry.key (entriesOf k qs) := by
  refine ascending_ext (ascending_ofList _) (ascending_ofList _) (fun e => ?_)
  rw [mem_ofList_entriesOf, mem_ofList_entriesOf, h]

/-- **A restart loses nothing.** When `Open` returns, and the points the index was handed of a
series are written in any batches, a reading forward of the series returns the last value of
each time over all the blocks that were written to the log. -/
theorem opened_scan {α : Type} (Z : Snappy) (hZ : Z.RoundTrip) (blockSize : ℕ)
    (decodeValue : Bytes → Option α) {cfg : Wal.Config} {s s' : Wal.State}
    (h : (Wal.partitionSystem cfg).Reaches Wal.WritesAndFlushes s)
    (hopen : Wal.step cfg s .opened = some s') {batches : List (List Entry)}
    (hbatches : batches.flatten = entriesOf k s'.index)
    (hfits : ∀ e ∈ entriesOf k s'.index, 0 ≤ e.time ∧ e.data.length < 2 ^ 32) :
    ∃ bkt, writeAll Z blockSize batches [] = some bkt ∧
      ∀ (seek : Int64) (c : Cursor), 0 ≤ seek → c.bucket = bkt → c.ascending = true →
        (Cursor.cursor Z decodeValue).Scan EOF seek c (Cursor.entriesFrom decodeValue seek
          (ofList Entry.key (entriesOf k (s'.writes.flatMap Wal.Written.points)))) := by
  have hes : ∀ es ∈ batches, ∀ e ∈ es, Fits e := fun es hes e he => by
    obtain ⟨hnonneg, hshort⟩ := hfits e (hbatches ▸ mem_flatten.mpr ⟨es, hes, he⟩)
    exact ⟨hnonneg, hshort⟩
  obtain ⟨bkt, chunks, hwrite, hstores, hflat⟩ := Stores.writeAll blockSize hZ hes
  refine ⟨bkt, hwrite, ?_⟩
  rintro seek c hseek rfl hasc
  rw [← ofList_entriesOf_congr (Wal.last_index_of_opened h hopen), ← hbatches, ← hflat]
  exact Cursor.scan_stored decodeValue hZ hstores hasc hseek

/-- A write that did not return is read after the restart. -/
theorem opened_scan_crashedWrite : ∃ s s' bkt,
    (Wal.partitionSystem Wal.smallConfig).Reaches Wal.WritesAndFlushes s ∧
      Wal.step Wal.smallConfig s .opened = some s' ∧
      writeAll Snappy.plain 100 [entriesOf [97] s'.index] [] = some bkt ∧
      (Cursor.cursor Snappy.plain some).Scan EOF 0 ⟨bkt, none, [], 0, true, [], 0⟩
        (Cursor.entriesFrom some 0
          (ofList Entry.key (entriesOf [97] (s'.writes.flatMap Wal.Written.points)))) := by
  obtain ⟨s, hreach, hs⟩ := System.Reaches.exists_of_runIf (· = Wal.State.init) rfl
    Wal.WritesAndFlushes (Wal.step Wal.smallConfig) Wal.crashedWriteOps
    (P := fun s => (Wal.step Wal.smallConfig s .opened).any (fun s' =>
      (entriesOf [97] s'.index).all (fun e => 0 ≤ e.time ∧ e.data.length < 2 ^ 32)))
    (by decide +kernel)
  obtain ⟨s', hopen, hall⟩ := (Option.any_eq_true _ _).mp hs
  obtain ⟨bkt, hwrite, hscan⟩ := opened_scan Snappy.plain Snappy.plain_roundTrip 100 some hreach
    hopen flatten_singleton (fun e he => of_decide_eq_true (all_eq_true.mp hall e he))
  exact ⟨s, s', bkt, hreach, hopen, hwrite, hscan 0 _ (by decide) rfl rfl⟩

end AndyEnv.Bz1
