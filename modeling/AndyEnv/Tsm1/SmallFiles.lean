import AndyEnv.Tsm1.Codec.Block

/-!
# Small files

Files of bools with the codecs as they are and nothing packed or compressed, so
that cursors over them can be evaluated.
-/

namespace AndyEnv.Tsm1

open Codec (Simple8b Snappy fileCodec)
open List

abbrev smallCodec : BlockCodec := fileCodec Simple8b.plain Snappy.plain

def boolsAt (ts : List Int64) : Values := ts.map (fun t => ⟨t, .bool true⟩)

/-- The blocks of an id, each with a bool at the times given. -/
def boolFile (id : UInt64) (tss : List (List Int64)) (minTime maxTime : Int64) : DataFile where
  blocks := encodeRun smallCodec id (tss.map boolsAt)
  index := indexOf (encodeRun smallCodec id (tss.map boolsAt))
  minTime := minTime
  maxTime := maxTime

theorem boolsAt_ofType (ts : List Int64) : Values.OfType .bool (boolsAt ts) := by
  intro v hv
  obtain ⟨t, -, rfl⟩ := mem_map.mp hv
  rfl

def ShortBools (ts : List Int64) : Prop :=
  ts ≠ [] ∧ ts.length < 2 ^ 63 ∧ (smallCodec.bytes (boolsAt ts)).length < 2 ^ 63

instance (ts : List Int64) : Decidable (ShortBools ts) := inferInstanceAs (Decidable (_ ∧ _ ∧ _))

theorem roundTrips_boolsAt {ts : List Int64} (h : ShortBools ts) : smallCodec.RoundTrips (boolsAt ts) := by
  obtain ⟨hne, hlen, hblock⟩ := h
  have hlen' : (boolsAt ts).length < 2 ^ 63 := by rwa [boolsAt, length_map]
  refine Codec.fileCodec_roundTrips Simple8b.plain_streamRoundTrip (fun hnil => hne (map_eq_nil_iff.mp hnil))
    (boolsAt_ofType ts) (Codec.survives_of_type Snappy.plain_roundTrip (boolsAt_ofType ts)
      (fun h => by cases h) ?_ hlen' ?_) hlen' hblock
  · intro v hv bits hbits
    obtain ⟨t, -, rfl⟩ := mem_map.mp hv
    cases hbits
  · intro v hv
    obtain ⟨t, -, rfl⟩ := mem_map.mp hv
    exact (by decide : (9 : ℕ) < 2 ^ 63)

variable {id : UInt64} {tss : List (List Int64)} {minTime maxTime : Int64}

theorem boolFile_wellFormed (hid : id ≠ 0 ∧ id ≠ dataFileEOF) (hts : ∀ ts ∈ tss, ShortBools ts)
    (hasc : Values.Ascending (tss.map boolsAt).flatten)
    (hlen : (boolFile id tss minTime maxTime).length < 2 ^ 32) :
    (boolFile id tss minTime maxTime).WellFormed smallCodec (fun _ => .bool) := by
  refine @wellFormed_of_layout smallCodec _ _ [id] (fun _ => tss.map boolsAt) (pairwise_singleton _ _)
    (forall_mem_singleton.mpr hid) (fun _ _ => ⟨fun vs hvs => ?_, hasc⟩)
    (append_nil _).symm rfl hlen
  obtain ⟨ts, hmem, rfl⟩ := mem_map.mp hvs
  exact ⟨roundTrips_boolsAt (hts ts hmem), boolsAt_ofType ts⟩

theorem decodedBlocks_boolFile (hts : ∀ ts ∈ tss, ShortBools ts) (id' : UInt64) :
    (boolFile id tss minTime maxTime).decodedBlocks smallCodec id' =
      if id' = id then tss.map boolsAt else [] := by
  split
  · rename_i h
    subst h
    refine decodedRun_encodeRun (fun vs hvs => ?_)
    obtain ⟨ts, hmem, rfl⟩ := mem_map.mp hvs
    exact roundTrips_boolsAt (hts ts hmem)
  · rename_i hne
    exact decodedRun_eq_nil.mpr (fun b hb hid => hne (hid.symm.trans (id_of_mem_encodeRun hb)))

end AndyEnv.Tsm1
