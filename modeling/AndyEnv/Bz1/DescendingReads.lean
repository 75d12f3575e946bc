import AndyEnv.Bz1.AscendingScan

/-!
# Reading back

A cursor that goes back has the offsets of the entries of its block. `SeekTo`
returns the last entry of its block that is not after the seek, and leaves the
index at it, so that `Next` returns it once more; if all entries are after the seek
it returns the first of them.
-/

namespace AndyEnv.Bz1

open Tsdb Option Bytes
open Tsm1.Codec (Snappy)
open List

/-! ## The offsets of the entries -/

def offsets (base : ℕ) : List Entry → List ℕ
  | [] => []
  | e :: es => base :: offsets (base + (entryBytes e).length) es

@[simp] theorem length_offsets (es : List Entry) : ∀ base, (offsets base es).length = es.length := by
  induction es with
  | nil => exact fun _ => rfl
  | cons e es ih => exact fun base => congrArg (· + 1) (ih _)

/-- The offset of an entry is the length of those before it. -/
theorem offsets_append (x : List Entry) (e : Entry) (y : List Entry) : ∀ base,
    (offsets base (x ++ e :: y))[x.length]? = some (base + (x.flatMap entryBytes).length) := by
  induction x with
  | nil => exact fun base => rfl
  | cons f x ih =>
    intro base
    rw [cons_append, offsets, length_cons, List.getElem?_cons_succ, ih, flatMap_cons,
      length_append, add_assoc]

namespace Cursor

section Buffer

variable {Z : Snappy} {c : Cursor}

theorem indexLoop_eq {buf : Bytes} {y : List Entry} (hy : ∀ e ∈ y, e.data.length < 2 ^ 32) :
    ∀ {x : List Entry} {fuel : ℕ}, buf = (x ++ y).flatMap entryBytes → y.length < fuel →
      indexLoop buf fuel (x.flatMap entryBytes).length = some (offsets (x.flatMap entryBytes).length y) := by
  induction y with
  | nil =>
    rintro x fuel rfl hfuel
    obtain ⟨n, rfl⟩ := Nat.exists_eq_succ_of_ne_zero (Nat.ne_of_gt hfuel)
    rw [indexLoop, if_pos (by rw [append_nil])]
    rfl
  | cons e y ih =>
    rintro x fuel rfl hfuel
    obtain ⟨n, rfl⟩ := Nat.exists_eq_succ_of_ne_zero (Nat.ne_of_gt (Nat.zero_lt_of_lt hfuel))
    have hlt : ¬ (x.flatMap entryBytes).length ≥ ((x ++ e :: y).flatMap entryBytes).length := by
      rw [flatMap_append, flatMap_cons, length_append, length_append, length_entryBytes,
        entryHeaderSize]
      omega
    have hdrop : ((x ++ e :: y).flatMap entryBytes).drop (x.flatMap entryBytes).length =
        entryBytes e ++ y.flatMap entryBytes := by
      rw [flatMap_append, drop_left, flatMap_cons]
    have hoff : (x.flatMap entryBytes).length + (entryHeaderSize + e.data.length) =
        ((x ++ [e]).flatMap entryBytes).length := by
      simp
    have hbuf : (x ++ e :: y).flatMap entryBytes = ((x ++ [e]) ++ y).flatMap entryBytes := by
      rw [append_assoc]
      rfl
    have hrest := @ih (forall_mem_cons.mp hy).2 (x ++ [e]) n hbuf (Nat.lt_of_succ_lt_succ hfuel)
    rw [indexLoop, if_neg hlt, hdrop, entryDataSize_bytes (hy e mem_cons_self)]
    simp only [bind_eq_bind, bind_some]
    rw [hoff, hrest, offsets, length_entryBytes, hoff]
    rfl

structure Loaded (Z : Snappy) (c : Cursor) (pre : List (List Entry)) (es : List Entry)
    (post : List (List Entry)) : Prop where
  descending : c.ascending = false
  bucket : c.bucket = (pre ++ es :: post).map (blockOf Z)
  position : c.position = some pre.length
  buf : c.buf = es.flatMap entryBytes
  fieldIndices : c.fieldIndices = offsets 0 es

def load (c : Cursor) (n : ℕ) (es : List Entry) (off : ℕ) (index : ℤ) : Cursor :=
  ⟨c.bucket, some n, es.flatMap entryBytes, off, c.ascending, offsets 0 es, index⟩

/-- `setBuf`, going back: the cursor is at the last entry. -/
theorem setBuf_descending (hZ : Z.RoundTrip) (hdown : c.ascending = false) (n : ℕ) {x : List Entry} {e : Entry}
    (hes : ∀ f ∈ x ++ [e], f.data.length < 2 ^ 32) :
    setBuf Z (blockOf Z (x ++ [e])).2 { c with position := some n } =
      some (load c n (x ++ [e]) (x.flatMap entryBytes).length x.length) := by
  have hlen := @length_valueOf Z (x ++ [e])
  have hne : (blockOf Z (x ++ [e])).2 ≠ [] := ne_nil_of_length_pos (by omega)
  have hloop := @indexLoop_eq ((x ++ [e]).flatMap entryBytes) (x ++ [e]) hes []
    (((x ++ [e]).flatMap entryBytes).length + 1) rfl (Nat.lt_succ_of_le (length_le_flatMap _))
  simp only [flatMap_nil, length_nil] at hloop
  have hlast : (offsets 0 (x ++ [e])).getLast? = some (x.flatMap entryBytes).length := by
    rw [List.getLast?_eq_getElem?, length_offsets, length_append, length_singleton, Nat.add_sub_cancel,
      offsets_append, Nat.zero_add]
  have hindex : ((offsets 0 (x ++ [e])).length : ℤ) - 1 = x.length := by
    rw [length_offsets, length_append, length_singleton]
    omega
  rw [setBuf, if_neg hne, if_neg (by omega), decode_blockOf hZ]
  simp only [load, getD_some, hdown, Bool.false_eq_true, if_false, hloop, bind_eq_bind, bind_some,
    hlast, hindex]
  rfl

theorem fieldIndex_eq {x y : List Entry} {e : Entry} (h : c.fieldIndices = offsets 0 (x ++ e :: y)) :
    c.fieldIndex (x.length : ℤ) = some (x.flatMap entryBytes).length := by
  rw [fieldIndex, if_neg (by omega), h, Int.toNat_natCast, offsets_append, zero_add]

end Buffer

/-! ## Entry by entry -/

section Behind

variable {Z : Snappy} {α : Type} (decodeValue : Bytes → Option α) {chunks : List (List Entry)} {c : Cursor}
  {pre post : List (List Entry)} {x y es : List Entry} {e : Entry}

/-- The entries that are still to be returned, the last of them first: those of the
block that are not after the index, and the blocks before it. -/
def Behind (Z : Snappy) (chunks : List (List Entry)) (c : Cursor) (r : List Entry) : Prop :=
  ∃ pre x y post, chunks = pre ++ (x ++ y) :: post ∧ Loaded Z c pre (x ++ y) post ∧
    c.index = (x.length : ℤ) - 1 ∧ r = pre.flatten ++ x

theorem Loaded.buf_ne_nil (h : Loaded Z c pre es post) (hne : es ≠ []) : c.buf ≠ [] := by
  obtain ⟨e, es, rfl⟩ := exists_cons_of_ne_nil hne
  rw [h.buf]
  exact append_ne_nil_of_left_ne_nil (entryBytes_ne_nil e) _

theorem next_eq_of_backward {c' : Cursor} {e : Int64 × Option α} (hbuf : c.buf ≠ []) (hdown : c.ascending = false)
    (hback : backward Z c = some c') (hlt : c'.off < c'.buf.length) (hread : read decodeValue c' = some e) :
    next Z decodeValue c = some (e, c') := by
  simp only [next, if_neg hbuf, hdown, Bool.false_eq_true, if_false, hback, bind_eq_bind, bind_some,
    nextBlock_of_lt hlt, hread]
  rfl

theorem Loaded.next_within (h : Loaded Z c pre (x ++ e :: y) post)
    (hindex : c.index = x.length) (he : e.data.length < 2 ^ 32) :
    next Z decodeValue c = some (returned decodeValue e,
      { c.after x with index := (x.length : ℤ) - 1 }) := by
  have hbuf : c.buf ≠ [] := h.buf_ne_nil (append_ne_nil_of_right_ne_nil _ (cons_ne_nil _ _))
  have hfields : c.fieldIndices ≠ [] := by
    rw [h.fieldIndices]
    exact ne_nil_of_length_pos (by simp)
  refine next_eq_of_backward decodeValue hbuf h.descending ?_ ?_ ?_
  · rw [backward, if_neg (by omega)]
    simp only [bind_eq_bind, bind_some, if_pos hfields, hindex, fieldIndex_eq h.fieldIndices]
    rfl
  · exact @off_lt { c.after x with index := (x.length : ℤ) - 1 } x y e h.buf rfl
  · exact @read_entry _ decodeValue { c.after x with index := (x.length : ℤ) - 1 } x y e h.buf rfl he

theorem Loaded.next_block (hZ : Z.RoundTrip) (h : Loaded Z c (pre ++ [x ++ [e]]) es post)
    (hne : es ≠ []) (hindex : c.index = -1) (hfits : ∀ f ∈ x ++ [e], f.data.length < 2 ^ 32) :
    ∃ c', next Z decodeValue c = some (returned decodeValue e, c') ∧ Loaded Z c' pre (x ++ [e]) (es :: post) ∧
      c'.index = (x.length : ℤ) - 1 := by
  have hchunks : (pre ++ [x ++ [e]]) ++ es :: post = pre ++ (x ++ [e]) :: es :: post := by
    rw [append_assoc]
    rfl
  have hprev : Bucket.prev c.position = some pre.length := by
    rw [h.position]
    simp [Bucket.prev]
  have hvalue : c.bucket.valueAt (some pre.length) = (blockOf Z (x ++ [e])).2 := by
    rw [h.bucket, hchunks, valueAt_split]
  have hfields : offsets 0 (x ++ [e]) ≠ [] := ne_nil_of_length_pos (by simp)
  refine ⟨load c pre.length (x ++ [e]) (x.flatMap entryBytes).length ((x.length : ℤ) - 1), ?_,
    ⟨h.descending, by rw [← hchunks]; exact h.bucket, rfl, rfl, rfl⟩, rfl⟩
  refine next_eq_of_backward decodeValue (h.buf_ne_nil hne) h.descending ?_ ?_ ?_
  · rw [backward, if_pos (by omega), hprev, hvalue, setBuf_descending hZ h.descending pre.length hfits]
    simp only [load, bind_eq_bind, bind_some, ne_eq, hfields, not_false_eq_true, if_true]
    rw [@fieldIndex_eq _ x [] e rfl]
    rfl
  · exact off_lt (y := []) rfl rfl
  · exact read_entry (y := []) rfl rfl (hfits e (by simp))

theorem Loaded.next_end (h : Loaded Z c [] es post) (hne : es ≠ [])
    (hindex : c.index = -1) : ∃ c', next Z decodeValue c = some ((EOF, none), c') := by
  have hprev : Bucket.prev c.position = none := by
    rw [h.position]
    rfl
  have hback : backward Z c =
      some { c with position := none, buf := [], off := 0, fieldIndices := [], index := -1 } := by
    rw [backward, if_pos (by omega), hprev]
    rfl
  simp only [next, if_neg (h.buf_ne_nil hne), h.descending, Bool.false_eq_true, if_false, hback,
    bind_eq_bind, bind_some]
  exact ⟨_, rfl⟩

/-- **A reading back**: the entries that are behind, the last of them first. -/
theorem Behind.rest (hZ : Z.RoundTrip) (hne : ∀ b ∈ chunks, b ≠ []) (hfits : ∀ e ∈ chunks.flatten, Fits e)
    {r : List Entry} (h : Behind Z chunks c r) :
    (cursor Z decodeValue).Rest EOF c (r.reverse.map (returned decodeValue)) := by
  have hblock : ∀ b ∈ chunks, ∀ e ∈ b, e.data.length < 2 ^ 32 :=
    fun b hb e he => (hfits e (mem_flatten.mpr ⟨b, hb, he⟩)).short
  refine KeyedCursor.Rest.of_ahead
    (fun s es => ∃ r, Behind Z chunks s r ∧ es = r.reverse.map (returned decodeValue)) ?_ ?_ ⟨r, h, rfl⟩ ?_
  · rintro s ⟨r, ⟨pre, x, y, post, hchunks, hload, hindex, hr⟩, hnil⟩
    have hr' := reverse_eq_nil_iff.mp (map_eq_nil_iff.mp hnil.symm)
    rw [hr, append_eq_nil_iff] at hr'
    obtain ⟨hpre, rfl⟩ := hr'
    obtain rfl : pre = [] := eq_nil_iff_forall_not_mem.mpr (fun b hb =>
      hne b (hchunks ▸ mem_append_left _ hb) (flatten_eq_nil_iff.mp hpre b hb))
    obtain ⟨s', hnext⟩ := hload.next_end decodeValue (hne _ (by rw [hchunks]; simp)) hindex
    exact ⟨none, s', hnext⟩
  · rintro s f es ⟨r, ⟨pre, x, y, post, hchunks, hload, hindex, hr⟩, hcons⟩
    have hlast : ∀ {l e}, r = l ++ [e] →
        f = returned decodeValue e ∧ es = l.reverse.map (returned decodeValue) := by
      intro l e hsplit
      rw [hsplit, reverse_append, reverse_singleton, singleton_append, map_cons] at hcons
      exact List.cons.inj hcons
    rcases eq_nil_or_concat' x with rfl | ⟨x, e, rfl⟩
    · rcases eq_nil_or_concat' pre with rfl | ⟨pre, b, rfl⟩
      · rw [hr] at hcons
        cases hcons
      have hb : b ≠ [] := hne b (by rw [hchunks]; simp)
      rcases eq_nil_or_concat' b with rfl | ⟨x, e, rfl⟩
      · exact absurd rfl hb
      obtain ⟨rfl, rfl⟩ := hlast (l := pre.flatten ++ x) (e := e) (by rw [hr]; simp)
      obtain ⟨s', hnext, hload', hindex'⟩ := hload.next_block decodeValue hZ (hne _ (by rw [hchunks]; simp)) hindex
        (hblock _ (by rw [hchunks]; simp))
      refine ⟨s', hnext, _, ⟨pre, x, [e], ([] ++ y) :: post, ?_, hload', hindex', rfl⟩, rfl⟩
      rw [hchunks, append_assoc]
      rfl
    · obtain ⟨rfl, rfl⟩ := hlast (l := pre.flatten ++ x) (by rw [hr, append_assoc])
      have happend : x ++ [e] ++ y = x ++ e :: y := by rw [append_assoc]; rfl
      rw [happend] at hchunks hload
      have hindex' : s.index = x.length := by
        rw [hindex, length_append, length_singleton]
        omega
      have hnext := hload.next_within decodeValue hindex' (hblock (x ++ e :: y) (by rw [hchunks]; simp) e (by simp))
      exact ⟨_, hnext, _, ⟨pre, x, e :: y, post, hchunks,
        ⟨hload.descending, hload.bucket, hload.position, hload.buf, hload.fieldIndices⟩, rfl, rfl⟩, rfl⟩
  · intro f hf heq
    obtain ⟨e, he, rfl⟩ := mem_map.mp hf
    obtain ⟨pre, x, y, post, hchunks, -, -, rfl⟩ := h
    refine (hfits e ?_).ne_eof heq
    rw [hchunks]
    simp only [mem_reverse, mem_append, flatten_append, flatten_cons] at he ⊢
    tauto

/-! ## The seek -/

theorem seekBufLoop_down (hdown : c.ascending = false) (seek : UInt64)
    (hbuf : c.buf = (x ++ e :: y).flatMap entryBytes) (fuel : ℕ) :
    seekBufLoop (putUint64 seek) (fuel + 1) { c.after x with index := x.length } =
      if e.key ≤ seek.toNat then some { c.after x with index := x.length }
      else if (x.length : ℤ) - 1 < 0 then
        some { c.after x with index := (x.length : ℤ) - 1 }
      else (c.fieldIndex ((x.length : ℤ) - 1)).bind (fun off =>
        seekBufLoop (putUint64 seek) fuel { c with off := off, index := (x.length : ℤ) - 1 }) := by
  have hdrop := @drop_buf { c.after x with index := x.length } x (e :: y) hbuf rfl
  have hle := @off_le { c.after x with index := x.length } x (e :: y) hbuf rfl
  obtain ⟨hne, hlen, htake⟩ := key_buf e y
  have hkey : le (putUint64 e.time.toUInt64) (putUint64 seek) = true ↔ e.key ≤ seek.toNat := by
    rw [le_putUint64, UInt64.le_iff_toNat_le]
    rfl
  have hnot : ¬ c.ascending = true := by rw [hdown]; exact Bool.false_ne_true
  simp only [seekBufLoop, if_neg (not_lt.mpr hle), hdrop, if_neg hne, if_neg hlen, if_neg hnot, htake, hkey]
  rfl

/-- The seek back within a buffer: to the last entry that is not after the key, or to
the first entry, with the index before it. -/
theorem seekBufLoop_descending (hdown : c.ascending = false) (seek : UInt64)
    (hbuf : c.buf = es.flatMap entryBytes) (hfields : c.fieldIndices = offsets 0 es) :
    ∀ {y : List Entry} {e : Entry} {fuel : ℕ}, es = x ++ e :: y → (∀ f ∈ y, seek.toNat < f.key) →
      x.length < fuel →
      (∃ x' f y', es = x' ++ f :: y' ∧ f.key ≤ seek.toNat ∧ (∀ g ∈ y', seek.toNat < g.key) ∧
        seekBufLoop (putUint64 seek) fuel { c.after x with index := x.length } =
          some { c.after x' with index := x'.length }) ∨
      (∀ g ∈ es, seek.toNat < g.key) ∧
        seekBufLoop (putUint64 seek) fuel { c.after x with index := x.length } =
          some { c with off := 0, index := -1 } := by
  induction x using List.reverseRecOn with
  | nil =>
    intro y e fuel hes hy hfuel
    obtain ⟨n, rfl⟩ := Nat.exists_eq_succ_of_ne_zero (Nat.ne_of_gt hfuel)
    subst hes
    rw [seekBufLoop_down hdown seek hbuf]
    by_cases hkey : e.key ≤ seek.toNat
    · exact .inl ⟨[], e, y, rfl, hkey, hy, if_pos hkey⟩
    · refine .inr ⟨forall_mem_cons.mpr ⟨not_le.mp hkey, hy⟩, ?_⟩
      rw [if_neg hkey]
      rfl
  | append_singleton x d ih =>
    intro y e fuel hes hy hfuel
    obtain ⟨n, rfl⟩ := Nat.exists_eq_succ_of_ne_zero (Nat.ne_of_gt (Nat.zero_lt_of_lt hfuel))
    rw [length_append, length_singleton] at hfuel
    rw [seekBufLoop_down hdown seek (hes ▸ hbuf)]
    by_cases hkey : e.key ≤ seek.toNat
    · exact .inl ⟨x ++ [d], e, y, hes, hkey, hy, if_pos hkey⟩
    have hes' : es = x ++ d :: e :: y := by rw [hes, append_assoc]; rfl
    have hindex : ((x ++ [d]).length : ℤ) - 1 = x.length := by
      rw [length_append, length_singleton]
      omega
    rw [if_neg hkey, hindex, if_neg (by omega), fieldIndex_eq (hes' ▸ hfields), bind_some]
    exact ih hes' (forall_mem_cons.mpr ⟨not_le.mp hkey, hy⟩) (by omega)

section Seek

variable {seek : Int64}

/-- What is returned of a block and of those before it, going back from a key. -/
def scanDown (seek : UInt64) (pre : List (List Entry)) (es : List Entry) : List Entry :=
  match (es.filter (fun e => e.key ≤ seek.toNat)).getLast? with
  | some e => e :: (pre.flatten ++ es.filter (fun e => e.key ≤ seek.toNat)).reverse
  | none => (es.head?.toList) ++ pre.flatten.reverse

/-- **A reading back from a block.** -/
theorem scan_descending (hZ : Z.RoundTrip) (hdown : c.ascending = false)
    (hbucket : c.bucket = (pre ++ es :: post).map (blockOf Z)) (hpos : seekPosition c.bucket seek = some pre.length)
    (hne : ∀ b ∈ pre ++ es :: post, b ≠ []) (hasc : Keyed.Ascending Entry.key es)
    (hfits : ∀ e ∈ (pre ++ es :: post).flatten, Fits e) :
    (cursor Z decodeValue).Scan EOF seek c ((scanDown seek.toUInt64 pre es).map (returned decodeValue)) := by
  have hesfits : ∀ e ∈ es, Fits e := fun e he => hfits e (mem_flatten.mpr ⟨es, by simp, he⟩)
  have hvalue : c.bucket.valueAt (some pre.length) = (blockOf Z es).2 := by rw [hbucket, valueAt_split]
  obtain ⟨x, e, hes⟩ : ∃ x e, es = x ++ [e] := by
    rcases eq_nil_or_concat' es with rfl | ⟨x, e, hes⟩
    · exact absurd rfl (hne [] (by simp))
    · exact ⟨x, e, hes⟩
  have hset := setBuf_descending hZ hdown pre.length (fun f hf => (hesfits f (hes ▸ hf)).short)
  rw [← hes] at hset
  have hfuel : x.length < (es.flatMap entryBytes).length + (offsets 0 es).length + 1 := by
    rw [length_offsets, hes, length_append]
    omega
  -- the state after the seek within the buffer
  have hstep : ∀ {off : ℕ} {index : ℤ} {f : Entry}, seekBufLoop (putUint64 seek.toUInt64)
        ((es.flatMap entryBytes).length + (offsets 0 es).length + 1)
        (load c pre.length es (x.flatMap entryBytes).length x.length) = some (load c pre.length es off index) →
      read decodeValue (load c pre.length es off index) = some (returned decodeValue f) →
      seekTo Z decodeValue seek c = some (returned decodeValue f, load c pre.length es off index) := by
    intro off index f hloop hread
    simp only [load] at hset hloop hread ⊢
    simp only [seekTo, hpos, hvalue, hset, bind_eq_bind, bind_some, seekBuf, hloop, hread]
    rfl
  have hload : ∀ off index, Loaded Z (load c pre.length es off index) pre es post :=
    fun _ _ => ⟨hdown, hbucket, rfl, rfl, rfl⟩
  rcases seekBufLoop_descending (c := load c pre.length es 0 0) hdown seek.toUInt64 rfl rfl
      hes (fun _ hx => absurd hx not_mem_nil) hfuel with ⟨x', f, y', hes', hf, hy', hloop⟩ | ⟨hall, hloop⟩
  · have hsplit : es = (x' ++ [f]) ++ y' := by rw [hes', append_assoc]; rfl
    have hfilter : es.filter (fun e => e.key ≤ seek.toUInt64.toNat) = x' ++ [f] := by
      have hlt := (Keyed.ascending_append.mp (hes' ▸ hasc)).2.2
      have hlow : (x' ++ [f]).filter (fun e => e.key ≤ seek.toUInt64.toNat) = x' ++ [f] := by
        refine filter_eq_self.mpr (fun g hg => decide_eq_true ?_)
        rcases mem_append.mp hg with hg | hg
        · exact le_trans (hlt g hg f mem_cons_self).le hf
        · rw [mem_singleton.mp hg]
          exact hf
      have hhigh : y'.filter (fun e => e.key ≤ seek.toUInt64.toNat) = [] :=
        filter_eq_nil_iff.mpr (fun g hg => by simpa using hy' g hg)
      rw [hsplit, filter_append, hlow, hhigh, append_nil]
    have hffits : Fits f := hesfits f (by rw [hes']; simp)
    have hseek := hstep hloop (read_entry (congrArg (flatMap entryBytes) hes') rfl hffits.short)
    rw [scanDown, hfilter, List.getLast?_concat, map_cons]
    refine .step hseek hffits.ne_eof (Behind.rest decodeValue hZ hne hfits
      ⟨pre, x' ++ [f], y', post, by rw [hsplit], by rw [← hsplit]; exact hload _ _, ?_, rfl⟩)
    change (x'.length : ℤ) = _
    rw [length_append, length_singleton]
    omega
  · have hfilter : es.filter (fun e => e.key ≤ seek.toUInt64.toNat) = [] :=
      filter_eq_nil_iff.mpr (fun g hg => by simpa using hall g hg)
    obtain ⟨f, es', hes'⟩ := exists_cons_of_ne_nil (hne es (by simp))
    have hffits : Fits f := hesfits f (by rw [hes']; exact mem_cons_self)
    have hseek := hstep hloop (read_entry (x := []) (congrArg (flatMap entryBytes) hes') rfl hffits.short)
    have hscan : scanDown seek.toUInt64 pre es = f :: pre.flatten.reverse := by
      rw [scanDown, hfilter, hes']
      rfl
    rw [hscan, map_cons]
    exact .step hseek hffits.ne_eof (Behind.rest decodeValue hZ hne hfits
      ⟨pre, [], es, post, rfl, hload _ _, rfl, by rw [append_nil]⟩)

end Seek

end Behind

end Cursor

end AndyEnv.Bz1
