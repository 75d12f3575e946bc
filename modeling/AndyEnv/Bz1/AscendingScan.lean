import Mathlib.Data.List.TakeWhile
import AndyEnv.Bz1.Cursor

/-!
# Reading forward

After writes in any order, a cursor that goes forward returns the last point of
each time from the seek on. A negative seek has the greatest bytes, so it finds
nothing.
-/

namespace AndyEnv.Bz1

open Tsdb Bytes Keyed Option
open Tsm1.Codec (Snappy)
open List

theorem length_valueOf {Z : Snappy} (c : List Entry) : 8 ≤ (blockOf Z c).2.length := by
  simp [blockOf]

namespace Cursor

/-! ## The buffer -/

section Buffer

variable {Z : Snappy} {α : Type} {decodeValue : Bytes → Option α} {c : Cursor} {x y : List Entry} {e : Entry}

theorem setBuf_nil (c : Cursor) :
    setBuf Z [] c = some { c with buf := [], off := 0, fieldIndices := [], index := 0 } := rfl

theorem setBuf_ascending (hZ : Z.RoundTrip) (hasc : c.ascending = true) (es : List Entry) :
    setBuf Z (blockOf Z es).2 c = some { c with buf := es.flatMap entryBytes, off := 0 } := by
  have hlen := @length_valueOf Z es
  have hne : (blockOf Z es).2 ≠ [] := ne_nil_of_length_pos (by omega)
  rw [setBuf, if_neg hne, if_neg (by omega), decode_blockOf hZ]
  simp only [getD_some, if_pos hasc]

abbrev after (c : Cursor) (x : List Entry) : Cursor := { c with off := (x.flatMap entryBytes).length }

section

variable (hbuf : c.buf = (x ++ y).flatMap entryBytes) (hoff : c.off = (x.flatMap entryBytes).length)
include hbuf hoff

theorem drop_buf
    : c.buf.drop c.off = y.flatMap entryBytes := by
  rw [hbuf, hoff, flatMap_append, drop_left]

theorem off_le
    : c.off ≤ c.buf.length := by
  rw [hbuf, hoff, flatMap_append, length_append]
  exact Nat.le_add_right _ _

end

theorem off_lt (hbuf : c.buf = (x ++ e :: y).flatMap entryBytes)
    (hoff : c.off = (x.flatMap entryBytes).length) : c.off < c.buf.length := by
  rw [hbuf, hoff, flatMap_append, flatMap_cons, length_append, length_append,
    length_entryBytes, entryHeaderSize]
  omega

theorem key_buf (e : Entry) (y : List Entry) :
    (e :: y).flatMap entryBytes ≠ [] ∧ ¬ ((e :: y).flatMap entryBytes).length < 8 ∧
      ((e :: y).flatMap entryBytes).take 8 = putUint64 e.time.toUInt64 := by
  refine ⟨append_ne_nil_of_left_ne_nil (entryBytes_ne_nil e) _, ?_, ?_⟩
  · rw [flatMap_cons, length_append, length_entryBytes, entryHeaderSize]
    omega
  · rw [flatMap_cons, entryBytes, marshalEntry, append_assoc, take_left' (by simp)]

theorem read_entry (hbuf : c.buf = (x ++ e :: y).flatMap entryBytes)
    (hoff : c.off = (x.flatMap entryBytes).length) (he : e.data.length < 2 ^ 32) :
    read decodeValue c = some (returned decodeValue e) := by
  have hdrop : c.buf.drop c.off = entryBytes e ++ y.flatMap entryBytes := drop_buf hbuf hoff
  have hlen : entryHeaderSize + e.data.length ≤ (entryBytes e ++ y.flatMap entryBytes).length := by
    rw [length_append, length_entryBytes]
    omega
  have hdata : ((entryBytes e ++ y.flatMap entryBytes).drop entryHeaderSize).take e.data.length = e.data := by
    have hsplit : entryBytes e ++ y.flatMap entryBytes =
        (putUint64 e.time.toUInt64 ++ putUint32 (UInt32.ofNat e.data.length)) ++
          (e.data ++ y.flatMap entryBytes) := by
      simp only [entryBytes, marshalEntry, append_assoc]
    rw [hsplit, drop_left' (by simp [entryHeaderSize]), take_left]
  have hread : ¬ c.off ≥ c.buf.length := not_le.mpr (off_lt hbuf hoff)
  simp only [read, if_neg hread, hdrop, entryDataSize_bytes he, bind_eq_bind, bind_some,
    if_pos hlen, hdata, timestamp_entryBytes]
  rfl

theorem seekBufLoop_ascending (hasc : c.ascending = true) (seek : UInt64) {fuel : ℕ}
    (hbuf : c.buf = (x ++ y).flatMap entryBytes) (hy : ∀ e ∈ y, e.data.length < 2 ^ 32)
    (hfuel : y.length < fuel) :
    seekBufLoop (putUint64 seek) fuel (c.after x) = some (c.after (x ++ beforeKey seek y)) := by
  induction y generalizing x fuel with
  | nil =>
    obtain ⟨n, rfl⟩ := Nat.exists_eq_succ_of_ne_zero (Nat.ne_of_gt hfuel)
    have hdrop := @drop_buf (c.after x) x [] hbuf rfl
    have hle := @off_le (c.after x) x [] hbuf rfl
    rw [seekBufLoop, if_neg (not_lt.mpr hle), hdrop]
    simp [beforeKey]
  | cons e y ih =>
    obtain ⟨n, rfl⟩ := Nat.exists_eq_succ_of_ne_zero (Nat.ne_of_gt (Nat.zero_lt_of_lt hfuel))
    have hdrop := @drop_buf (c.after x) x (e :: y) hbuf rfl
    have hle := @off_le (c.after x) x (e :: y) hbuf rfl
    obtain ⟨hne, hlen, htake⟩ := key_buf e y
    have hsize : entryDataSize ((e :: y).flatMap entryBytes) = some e.data.length :=
      entryDataSize_bytes (hy e mem_cons_self) _
    simp only [seekBufLoop, if_neg (not_lt.mpr hle), hdrop, if_neg hne, if_neg hlen, if_pos hasc, htake,
      hsize, bind_eq_bind, bind_some]
    by_cases hkey : e.key < seek.toNat
    · have hnot : ¬ le (putUint64 seek) (putUint64 e.time.toUInt64) = true := by
        rw [le_putUint64, UInt64.not_le, UInt64.lt_iff_toNat_lt]
        exact hkey
      have hoff : (x.flatMap entryBytes).length + (entryHeaderSize + e.data.length) =
          ((x ++ [e]).flatMap entryBytes).length := by
        simp
      have hrest := @ih (x ++ [e]) n (by rw [hbuf, append_assoc]; rfl)
        (forall_mem_cons.mp hy).2 (Nat.lt_of_succ_lt_succ hfuel)
      have hbefore : beforeKey seek (e :: y) = e :: beforeKey seek y := by
        rw [beforeKey, takeWhile_cons, if_pos (decide_eq_true hkey)]
        rfl
      rw [if_neg hnot, hoff, hrest, hbefore, append_assoc]
      rfl
    · have hpos : le (putUint64 seek) (putUint64 e.time.toUInt64) = true := by
        rw [le_putUint64, UInt64.le_iff_toNat_le]
        exact not_lt.mp hkey
      rw [if_pos hpos, beforeKey, takeWhile_cons_of_neg (by simpa using hkey), append_nil]

end Buffer

/-! ## Entry by entry -/

section Ahead

variable {Z : Snappy} {α : Type} (decodeValue : Bytes → Option α) {chunks : List (List Entry)} {c : Cursor}
  {pre post : List (List Entry)} {x y : List Entry} {e e' : Entry}
variable {seek : Int64}

/-- The cursor is at the entry `e`: `x` before it in its block, `y` after it. -/
structure At (Z : Snappy) (c : Cursor) (pre : List (List Entry)) (x : List Entry) (e : Entry) (y : List Entry)
    (post : List (List Entry)) : Prop where
  ascending : c.ascending = true
  bucket : c.bucket = (pre ++ (x ++ e :: y) :: post).map (blockOf Z)
  position : c.position = some pre.length
  buf : c.buf = (x ++ e :: y).flatMap entryBytes
  off : c.off = (x.flatMap entryBytes).length

/-- The entries that are after the cursor. -/
def Ahead (Z : Snappy) (chunks : List (List Entry)) (c : Cursor) (r : List Entry) : Prop :=
  ∃ pre x e y post, chunks = pre ++ (x ++ e :: y) :: post ∧ At Z c pre x e y post ∧ r = y ++ post.flatten

theorem At.buf_ne_nil (h : At Z c pre x e y post) : c.buf ≠ [] :=
  ne_nil_of_length_pos (Nat.zero_lt_of_lt (off_lt h.buf h.off))

theorem At.forward (h : At Z c pre x e y post) (he : e.data.length < 2 ^ 32) :
    forward c = some (c.after (x ++ [e])) := by
  have hdrop : c.buf.drop c.off = entryBytes e ++ y.flatMap entryBytes := drop_buf h.buf h.off
  have hle := off_le h.buf h.off
  simp only [Cursor.forward, if_neg (not_lt.mpr hle), hdrop, entryDataSize_bytes he, bind_eq_bind,
    bind_some]
  have hoff : c.off + (entryHeaderSize + e.data.length) = ((x ++ [e]).flatMap entryBytes).length := by
    rw [h.off]
    simp
  rw [hoff]
  rfl

theorem nextBlock_of_lt (h : c.off < c.buf.length) : nextBlock Z c = some c :=
  if_neg (not_le.mpr h)

theorem At.next_within
    (h : At Z c pre x e (e' :: y) post) (he : e.data.length < 2 ^ 32) (he' : e'.data.length < 2 ^ 32) :
    ∃ c', next Z decodeValue c = some (returned decodeValue e', c') ∧ At Z c' pre (x ++ [e]) e' y post := by
  have happend : x ++ e :: e' :: y = (x ++ [e]) ++ e' :: y := by rw [append_assoc]; rfl
  have hbuf : c.buf = ((x ++ [e]) ++ e' :: y).flatMap entryBytes := by rw [h.buf, happend]
  refine ⟨c.after (x ++ [e]), ?_,
    ⟨h.ascending, by rw [← happend]; exact h.bucket, h.position, hbuf, rfl⟩⟩
  have hread := @read_entry α decodeValue (c.after (x ++ [e])) (x ++ [e]) y e' hbuf rfl he'
  have hlt := @off_lt (c.after (x ++ [e])) (x ++ [e]) y e' hbuf rfl
  simp only [next, if_neg h.buf_ne_nil, if_pos h.ascending, h.forward he, nextBlock_of_lt hlt, hread,
    bind_eq_bind, bind_some]
  rfl

theorem At.nextBlock (h : At Z c pre x e [] post) : nextBlock Z (c.after (x ++ [e])) =
      setBuf Z (if (c.bucket.next c.position).2 then c.bucket.valueAt (c.bucket.next c.position).1 else [])
        { c.after (x ++ [e]) with position := (c.bucket.next c.position).1 } := by
  have hge : ((x ++ [e]).flatMap entryBytes).length ≥ c.buf.length := by
    rw [h.buf]
  rw [Cursor.nextBlock, if_pos hge]

theorem At.next_block (hZ : Z.RoundTrip)
    (h : At Z c pre x e [] ((e' :: y) :: post)) (he : e.data.length < 2 ^ 32) (he' : e'.data.length < 2 ^ 32) :
    ∃ c', next Z decodeValue c = some (returned decodeValue e', c') ∧
      At Z c' (pre ++ [x ++ [e]]) [] e' y post := by
  have happend : pre ++ (x ++ [e]) :: (e' :: y) :: post = (pre ++ [x ++ [e]]) ++ (e' :: y) :: post := by
    rw [append_assoc]
    rfl
  have hlength : (pre ++ [x ++ [e]]).length = pre.length + 1 := by simp
  have hnext : c.bucket.next c.position = (some (pre.length + 1), true) := by
    rw [h.position, Bucket.next, if_pos]
    rw [h.bucket, length_map, length_append]
    simp only [length_cons]
    omega
  have hvalue : c.bucket.valueAt (some (pre.length + 1)) = (blockOf Z (e' :: y)).2 := by
    rw [h.bucket, happend, ← hlength, valueAt_split]
  refine ⟨{ c with off := 0, position := some (pre.length + 1), buf := (e' :: y).flatMap entryBytes }, ?_,
    ⟨h.ascending, by rw [nil_append, ← happend]; exact h.bucket, by rw [hlength], rfl, rfl⟩⟩
  have hread := @read_entry α decodeValue
    { c with off := 0, position := some (pre.length + 1), buf := (e' :: y).flatMap entryBytes } [] y e' rfl rfl he'
  simp only [next, if_neg h.buf_ne_nil, if_pos h.ascending, h.forward he, bind_eq_bind, bind_some,
    h.nextBlock, hnext, if_true, hvalue]
  rw [setBuf_ascending hZ]
  · simp only [bind_some, hread]
    rfl
  · exact h.ascending

theorem At.next_end (h : At Z c pre x e [] []) (he : e.data.length < 2 ^ 32) :
    ∃ c', next Z decodeValue c = some ((EOF, none), c') := by
  have hnext : c.bucket.next c.position = (some pre.length, false) := by
    rw [h.position, Bucket.next, if_neg]
    rw [h.bucket, length_map, length_append]
    simp
  simp only [next, if_neg h.buf_ne_nil, if_pos h.ascending, h.forward he, bind_eq_bind, bind_some,
    h.nextBlock, hnext, Bool.false_eq_true, if_false, setBuf_nil]
  exact ⟨_, rfl⟩

/-- **A reading forward**: the entries that are ahead, one after the other. -/
theorem Ahead.rest (hZ : Z.RoundTrip) (hne : ∀ b ∈ chunks, b ≠ []) (hfits : ∀ e ∈ chunks.flatten, Fits e)
    {r : List Entry} (h : Ahead Z chunks c r) :
    (cursor Z decodeValue).Rest EOF c (r.map (returned decodeValue)) := by
  have hmem : ∀ {pre post : List (List Entry)} {x y : List Entry} {e : Entry},
      chunks = pre ++ (x ++ e :: y) :: post → ∀ f ∈ e :: (y ++ post.flatten), Fits f := by
    rintro pre post x y e rfl f hf
    refine hfits f ?_
    simp only [flatten_append, flatten_cons, mem_append, mem_cons] at hf ⊢
    tauto
  refine KeyedCursor.Rest.of_ahead
    (fun s es => ∃ r, Ahead Z chunks s r ∧ es = r.map (returned decodeValue)) ?_ ?_ ⟨r, h, rfl⟩ ?_
  · rintro s ⟨r, ⟨pre, x, e, y, post, hchunks, hat, hr⟩, hnil⟩
    have hr' := map_eq_nil_iff.mp hnil.symm
    rw [hr, append_eq_nil_iff] at hr'
    obtain ⟨rfl, hpost⟩ := hr'
    obtain rfl : post = [] := eq_nil_iff_forall_not_mem.mpr (fun b hb =>
      hne b (hchunks ▸ mem_append_right _ (mem_cons_of_mem _ hb)) (flatten_eq_nil_iff.mp hpost b hb))
    obtain ⟨s', hnext⟩ := hat.next_end decodeValue (hmem hchunks e mem_cons_self).short
    exact ⟨none, s', hnext⟩
  · rintro s f es ⟨r, ⟨pre, x, e, y, post, hchunks, hat, hr⟩, hcons⟩
    have he := (hmem hchunks e mem_cons_self).short
    cases y with
    | cons e' y =>
      rw [hr, cons_append, map_cons, List.cons.injEq] at hcons
      obtain ⟨rfl, rfl⟩ := hcons
      obtain ⟨s', hnext, hat'⟩ := hat.next_within decodeValue he (hmem hchunks e' (by simp)).short
      exact ⟨s', hnext, _, ⟨pre, x ++ [e], e', y, post, by rw [hchunks, append_assoc]; rfl, hat', rfl⟩, rfl⟩
    | nil =>
      cases post with
      | nil =>
        rw [hr] at hcons
        cases hcons
      | cons b post =>
        obtain ⟨e', y, rfl⟩ := exists_cons_of_ne_nil (hne b (by rw [hchunks]; simp))
        rw [hr, nil_append, flatten_cons, cons_append, map_cons, List.cons.injEq] at hcons
        obtain ⟨rfl, rfl⟩ := hcons
        obtain ⟨s', hnext, hat'⟩ := hat.next_block decodeValue hZ he (hmem hchunks e' (by simp)).short
        exact ⟨s', hnext, _, ⟨pre ++ [x ++ [e]], [], e', y, post, by rw [hchunks, append_assoc]; rfl, hat', rfl⟩, rfl⟩
  · intro f hf heq
    obtain ⟨e, he, rfl⟩ := mem_map.mp hf
    obtain ⟨pre, x, e₀, y, post, hchunks, -, rfl⟩ := h
    exact (hmem hchunks e (mem_cons_of_mem e₀ he)).ne_eof heq

/-! ## The seek -/

section Seek

variable {es : List Entry}

variable (hZ : Z.RoundTrip) (hasc : c.ascending = true)
  (hbucket : c.bucket = (pre ++ es :: post).map (blockOf Z))
  (hpos : seekPosition c.bucket seek = some pre.length)
include hZ hasc hbucket hpos

theorem seekTo_ascending (hes : ∀ e ∈ es, e.data.length < 2 ^ 32) :
    ∃ c', c'.ascending = true ∧ c'.bucket = c.bucket ∧ c'.position = some pre.length ∧
      c'.buf = es.flatMap entryBytes ∧
      c'.off = ((beforeKey seek.toUInt64 es).flatMap entryBytes).length ∧
      seekTo Z decodeValue seek c = (read decodeValue c').map (fun e => (e, c')) := by
  have hvalue : c.bucket.valueAt (some pre.length) = (blockOf Z es).2 := by rw [hbucket, valueAt_split]
  have hseek := @seekBufLoop_ascending
    { c with position := some pre.length, buf := es.flatMap entryBytes, off := 0 } [] es hasc seek.toUInt64
    ((es.flatMap entryBytes).length + c.fieldIndices.length + 1) rfl hes
    (Nat.lt_succ_of_le (Nat.le_add_right_of_le (length_le_flatMap es)))
  rw [nil_append] at hseek
  refine ⟨⟨c.bucket, some pre.length, es.flatMap entryBytes, ((beforeKey seek.toUInt64 es).flatMap entryBytes).length,
    c.ascending, c.fieldIndices, c.index⟩, hasc, rfl, rfl, rfl, rfl, ?_⟩
  simp only [seekTo, hpos, hvalue]
  rw [setBuf_ascending hZ]
  · simp only [bind_eq_bind, bind_some]
    rw [seekBuf]
    simp only [after, flatMap_nil, length_nil] at hseek
    rw [hseek]
    simp only [bind_some]
    cases hread : read decodeValue _ with
    | none => rfl
    | some e => rfl
  · exact hasc

/-- **A reading forward from a block.** Only the last one may have no entry from the
seek on. -/
theorem scan_ascending
    (hne : ∀ b ∈ pre ++ es :: post, b ≠ []) (hfits : ∀ e ∈ (pre ++ es :: post).flatten, Fits e)
    (hpost : fromKey seek.toUInt64 es = [] → post = []) :
    (cursor Z decodeValue).Scan EOF seek c ((fromKey seek.toUInt64 es ++ post.flatten).map (returned decodeValue)) := by
  have hes : ∀ e ∈ es, Fits e := fun e he => hfits e (mem_flatten.mpr ⟨es, by simp, he⟩)
  obtain ⟨c', hasc', hbucket', hpos', hbuf, hoff, hseek⟩ := seekTo_ascending decodeValue hZ hasc hbucket hpos
    (fun e he => (hes e he).short)
  have htake := beforeKey_append_fromKey seek.toUInt64 es
  cases hy : fromKey seek.toUInt64 es with
  | nil =>
    rw [hy, append_nil] at htake
    have hread : read decodeValue c' = some (EOF, none) := by
      rw [read, if_pos]
      rw [hbuf, hoff, htake]
    rw [hread] at hseek
    rw [hpost hy]
    exact .eof hseek
  | cons e y =>
    rw [hy] at htake
    rw [← htake] at hbuf
    have he : Fits e := hes e (by rw [← htake]; simp)
    have hat : At Z c' pre (beforeKey seek.toUInt64 es) e y post :=
      ⟨hasc', by rw [htake, hbucket', hbucket], hpos', hbuf, hoff⟩
    rw [read_entry hbuf hoff he.short] at hseek
    exact .step hseek he.ne_eof (Ahead.rest decodeValue hZ hne hfits ⟨pre, _, e, y, post, by rw [htake], hat, rfl⟩)

end Seek

/-! ## The whole bucket -/

/-- What is stored from the seek on, as it is returned. -/
def entriesFrom (seek : Int64) (es : List Entry) : List (Int64 × Option α) :=
  (es.filter (fun e => seek ≤ e.time)).map (returned decodeValue)

theorem le_seek_iff (hseek : 0 ≤ seek) (he : 0 ≤ e.time) :
    seek.toUInt64.toNat ≤ e.key ↔ seek ≤ e.time := by
  have h := Entry.key_lt_iff (a := e) (b := ⟨seek, []⟩) he hseek
  rw [← not_lt, ← Int64.not_lt]
  exact not_congr h

theorem fromKey_eq_filter (hseek : 0 ≤ seek) {es : List Entry}
    (hasc : Ascending Entry.key es) (hfits : ∀ e ∈ es, Fits e) :
    fromKey seek.toUInt64 es = es.filter (fun e => seek ≤ e.time) := by
  rw [fromKey, (takeWhile_dropWhile_eq_filter hasc seek.toUInt64.toNat).2]
  exact filter_congr (fun e he => decide_eq_decide.mpr (le_seek_iff hseek (hfits e he).nonneg))

theorem scan_empty (hbucket : c.bucket = []) : (cursor Z decodeValue).Scan EOF seek c [] := by
  have hpos : seekPosition c.bucket seek = none := by
    rw [hbucket]
    rfl
  refine @KeyedCursor.Scan.eof _ _ _ _ _ _ _
    ⟨c.bucket, none, [], 0, c.ascending, [], 0⟩ none ?_
  change seekTo Z decodeValue seek c = _
  rw [seekTo, hpos]
  rfl

variable (hZ : Z.RoundTrip) (h : Stores Z c.bucket chunks) (hasc : c.ascending = true)
include hZ h hasc

/-- **A reading forward of what is stored.** -/
theorem scan_stored (hseek : 0 ≤ seek) :
    (cursor Z decodeValue).Scan EOF seek c (entriesFrom decodeValue seek chunks.flatten) := by
  rcases h.seekPosition_cases hseek with ⟨rfl, -⟩ | ⟨pre, es, post, rfl, hpos, hcases⟩
  · exact scan_empty decodeValue h.blocks
  have hes : es ∈ pre ++ es :: post := by simp
  have hpre : ∀ e ∈ pre.flatten, e.time < seek := by
    intro e he
    have hfirst := h.time_lt_firstTime rfl e he
    rcases hcases with ⟨hle, -⟩ | ⟨-, hlt⟩ | ⟨-, hall⟩
    · exact Int64.lt_of_lt_of_le hfirst hle
    · exact Int64.lt_trans (Int64.lt_of_lt_of_le hfirst (h.firstTime_le_lastTime hes)) hlt
    · exact hall e he
  have hpost : ∀ e ∈ post.flatten, seek ≤ e.time := by
    intro e he
    have hlast := h.lastTime_lt_time rfl e he
    rcases hcases with ⟨-, hle⟩ | ⟨rfl, -⟩ | ⟨hlt, -⟩
    · exact Int64.le_of_lt (Int64.lt_of_le_of_lt hle hlast)
    · exact absurd he not_mem_nil
    · exact Int64.le_of_lt (Int64.lt_trans (Int64.lt_of_lt_of_le hlt (h.firstTime_le_lastTime hes)) hlast)
  have hfrom := fromKey_eq_filter hseek (h.chunk_ascending hes) (h.chunk_fits hes)
  have hsplit : (pre ++ es :: post).flatten.filter (fun e => seek ≤ e.time) =
      fromKey seek.toUInt64 es ++ post.flatten := by
    rw [flatten_append, flatten_cons, filter_append, filter_append, hfrom,
      filter_eq_nil_iff.mpr (fun e he => by simpa using hpre e he),
      filter_eq_self.mpr (fun e he => decide_eq_true (hpost e he))]
    rfl
  rw [entriesFrom, hsplit]
  refine scan_ascending decodeValue hZ hasc h.blocks hpos h.nonempty h.fits (fun hnil => ?_)
  -- all entries of the block are before the seek, so it is the last one
  have hall : ∀ e ∈ es, e.time < seek := by
    rw [hfrom] at hnil
    intro e he
    simpa using filter_eq_nil_iff.mp hnil e he
  obtain ⟨x, hx, hlast⟩ := lastTime_mem (h.nonempty es hes)
  obtain ⟨y, hy, hfirst⟩ := firstTime_mem (h.nonempty es hes)
  rcases hcases with ⟨-, hle⟩ | ⟨hpost, -⟩ | ⟨hlt, -⟩
  · rw [hlast] at hle
    exact absurd (hall x hx) (Int64.not_lt.mpr hle)
  · exact hpost
  · rw [hfirst] at hlt
    exact absurd (hall y hy) (Int64.not_lt.mpr (Int64.le_of_lt hlt))

theorem scan_negative (hseek : seek < 0) : (cursor Z decodeValue).Scan EOF seek c [] := by
  rcases eq_nil_or_concat' chunks with rfl | ⟨pre, es, rfl⟩
  · exact scan_empty decodeValue h.blocks
  have hes : es ∈ pre ++ [es] := by simp
  have hpos : seekPosition c.bucket seek = some pre.length := by
    rw [h.seekPosition_neg hseek, h.blocks, last_concat]
  have hnil : fromKey seek.toUInt64 es = [] := by
    refine dropWhile_eq_nil_iff.mpr (fun e he => decide_eq_true ?_)
    exact UInt64.lt_iff_toNat_lt.mp (Entry.toUInt64_lt_of_neg (h.chunk_fits hes e he).nonneg hseek)
  have hscan := scan_ascending decodeValue hZ hasc h.blocks hpos h.nonempty h.fits (fun _ => rfl)
  rwa [hnil] at hscan

theorem scan_stored_iff (seek : Int64) :
    (cursor Z decodeValue).Scan EOF seek c (entriesFrom decodeValue seek chunks.flatten) ↔
      0 ≤ seek ∨ chunks.flatten = [] := by
  constructor
  · intro hscan
    refine (Entry.lt_or_le seek 0).symm.imp_right (fun hneg => ?_)
    have hnil := hscan.unique (scan_negative decodeValue hZ h hasc hneg)
    have hall : chunks.flatten.filter (fun e => seek ≤ e.time) = chunks.flatten := by
      refine filter_eq_self.mpr (fun e he => decide_eq_true ?_)
      exact Int64.le_of_lt (Int64.lt_of_lt_of_le hneg (h.fits e he).nonneg)
    rw [entriesFrom, hall, map_eq_nil_iff] at hnil
    exact hnil
  · rintro (hseek | hnil)
    · exact scan_stored decodeValue hZ h hasc hseek
    · rcases Entry.lt_or_le seek 0 with hneg | hseek
      · rw [hnil]
        exact scan_negative decodeValue hZ h hasc hneg
      · exact scan_stored decodeValue hZ h hasc hseek

end Ahead

/-- **What was written is read back**: after any calls of `writeIndex` the ranges of
the blocks are disjoint, and a reading forward returns the last point of each time
from the seek on, if and only if the seek is not negative or there is nothing. -/
theorem written_scan_iff {α : Type} (Z : Snappy) (hZ : Z.RoundTrip) (blockSize : ℕ)
    (decodeValue : Bytes → Option α) (batches : List (List Entry))
    (hnonneg : ∀ es ∈ batches, ∀ e ∈ es, 0 ≤ e.time)
    (hshort : ∀ es ∈ batches, ∀ e ∈ es, e.data.length < 2 ^ 32) :
    ∃ bkt, writeAll Z blockSize batches [] = some bkt ∧ DisjointRanges bkt ∧
      ∀ (seek : Int64) (c : Cursor), c.bucket = bkt → c.ascending = true →
        ((cursor Z decodeValue).Scan EOF seek c
            (entriesFrom decodeValue seek (ofList Entry.key batches.flatten)) ↔
          0 ≤ seek ∨ batches.flatten = []) := by
  obtain ⟨bkt, chunks, hall, hstores, hflat⟩ := Stores.writeAll blockSize hZ
    (fun es hes e he => ⟨hnonneg es hes e he, hshort es hes e he⟩)
  refine ⟨bkt, hall, hstores.disjointRanges, ?_⟩
  rintro seek c rfl hasc
  have hnil : ofList Entry.key batches.flatten = [] ↔ batches.flatten = [] := by
    constructor
    · intro h
      refine eq_nil_iff_forall_not_mem.mpr (fun e he => ?_)
      obtain ⟨x, hx, -⟩ := @Keyed.exists_mem_overlay_key _ _ _ Entry.key e [] batches.flatten List.Pairwise.nil (.inr he)
      rw [← ofList, h] at hx
      exact absurd hx not_mem_nil
    · intro h
      rw [h]
      rfl
  rw [← hflat, scan_stored_iff decodeValue hZ hstores hasc, hflat, hnil]

/-- Two batches that overlap, in blocks of one entry. -/
def overlapping : List (List Entry) := [[⟨1, [10]⟩, ⟨5, [50]⟩], [⟨3, [30]⟩, ⟨5, [51]⟩]]

theorem written_scan_overlapping : ∃ bkt, writeAll Snappy.plain 1 overlapping [] = some bkt ∧
      (cursor Snappy.plain some).Scan EOF 2 ⟨bkt, none, [], 0, true, [], 0⟩ [(3, some [30]), (5, some [51])] := by
  have hnonneg : ∀ es ∈ overlapping, ∀ e ∈ es, 0 ≤ e.time := by
    simp only [overlapping, forall_mem_cons]
    decide
  have hshort : ∀ es ∈ overlapping, ∀ e ∈ es, e.data.length < 2 ^ 32 := by
    simp only [overlapping, forall_mem_cons]
    decide
  obtain ⟨bkt, hall, -, hscan⟩ := written_scan_iff Snappy.plain Snappy.plain_roundTrip 1 some overlapping hnonneg hshort
  exact ⟨bkt, hall, (hscan 2 _ rfl rfl).mpr (.inl (by decide))⟩

/-- A point at time 1, and a seek to the time -5. -/
theorem written_scan_negative : ∃ bkt, writeAll Snappy.plain 1 [[⟨1, [10]⟩]] [] = some bkt ∧
      (cursor Snappy.plain some).Scan EOF (-5) ⟨bkt, none, [], 0, true, [], 0⟩ [] ∧
      entriesFrom some (-5) (ofList Entry.key [⟨1, [10]⟩]) = [((1 : Int64), some [10])] :=
  ⟨_, rfl, KeyedCursor.Scan.nil_of_key (by decide), by decide⟩

end Cursor

end AndyEnv.Bz1
