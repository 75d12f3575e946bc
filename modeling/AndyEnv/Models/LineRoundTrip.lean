import AndyEnv.Models.Points
import AndyEnv.Models.Key
import AndyEnv.Models.FieldBlock

/-!
# Lines that are written and read again

The text of a point is read as the point. In a batch each line must also be cut
where it was: the quotes that `scanLine` counts must be those of the line as it
was first read.
-/

namespace AndyEnv.Models

open Escape Strconv
open Option (bind_some)
open List

variable {parseFloat : Bytes → Option UInt64}

/-! ## One point -/

variable {now : Int64} {pt : Point} {c : UInt8} {k : Key} {tail rest block before : Bytes} {q f : Bool}

theorem parsePoint_ok {buf : Bytes} :
    parsePoint parseFloat now buf = .ok pt ↔ ∃ before rest rest' ts,
      scanKey buf = .ok (pt.key, before, rest) ∧ pt.key ≠ [] ∧
      scanFields parseFloat before rest = .ok (pt.fields, rest') ∧ pt.fields ≠ [] ∧
      scanTime rest' = .ok ts ∧ parseTime now ts = .ok pt.time := by
  obtain ⟨key, fields, time⟩ := pt
  constructor
  · intro h
    obtain ⟨⟨key', before, rest⟩, hkey, h⟩ := except_bind_eq_ok.mp h
    dsimp only at h
    split at h
    · cases h
    rename_i hne
    obtain ⟨⟨fields', rest'⟩, hfields, h⟩ := except_bind_eq_ok.mp h
    dsimp only at h
    split at h
    · cases h
    rename_i hne'
    obtain ⟨ts, htime, h⟩ := except_bind_eq_ok.mp h
    obtain ⟨t, hparse, h⟩ := except_bind_eq_ok.mp h
    cases h
    exact ⟨before, rest, rest', ts, hkey, hne, hfields, hne', htime, hparse⟩
  · rintro ⟨before, rest, rest', ts, hkey, hne, hfields, hne', htime, hparse⟩
    simp only [parsePoint, hkey, hfields, htime, hparse, bind, Except.bind, pure, Except.pure,
      if_neg hne, if_neg hne']

theorem isDigit_spec (hc : isDigit c = true) :
    isWhitespace c = false ∧ c ≠ minus ∧ c ≠ quote ∧ c ≠ newline := by
  have hge : (48 : UInt8) ≤ c := by
    rw [isDigit, Bool.and_eq_true, decide_eq_true_eq] at hc
    exact hc.1
  refine ⟨?_, ?_, ?_, ?_⟩
  · rw [isWhitespace, Bool.or_eq_false_iff, Bool.or_eq_false_iff]
    refine ⟨⟨?_, ?_⟩, ?_⟩ <;>
    · rw [beq_eq_false_iff_ne]
      rintro rfl
      exact absurd hge (by decide)
  all_goals
    rintro rfl
    exact absurd hge (by decide)

theorem scanTime_formatInt (t : Int64) : scanTime (space :: formatInt t) = .ok (formatInt t) := by
  have hdigit := isDigit_formatNat t.toInt.natAbs
  obtain ⟨c, digits, hcons⟩ := exists_cons_of_ne_nil (formatNat_ne_nil t.toInt.natAbs)
  rw [hcons] at hdigit
  have hc := isDigit_spec (hdigit c mem_cons_self)
  have hall : (c :: digits).all isDigit = true := all_eq_true.mpr hdigit
  unfold scanTime formatInt
  rw [skipWhitespace_space, hcons]
  split
  · rw [skipWhitespace_cons (by decide)]
    exact if_pos hall
  · have hhead : ¬ (c :: digits).head? = some minus := fun he => hc.2.1 (Option.some.inj he)
    rw [skipWhitespace_cons hc.1]
    dsimp only
    rw [if_neg hhead, if_pos hall]

theorem formatInt_ne_nil (t : Int64) : formatInt t ≠ [] := by
  unfold formatInt
  split
  · nofun
  · exact formatNat_ne_nil _

theorem parseTime_formatInt (now t : Int64) : parseTime now (formatInt t) = .ok t := by
  rw [parseTime, if_neg (formatInt_ne_nil t), parseInt_formatInt]

/-- The condition on the line of a point: the key is a measurement and tags with
distinct names, the fields begin with a name, and the line does not end with a
backslash. -/
structure SafeLine (line : Bytes) (k : Key) (tail : Bytes) : Prop where
  eq : line = k.text ++ space :: tail
  named : (skipWhitespace tail).head? ≠ some equal
  ends : line.getLast? ≠ some backslash

theorem head_tagsText {tags : List Tag} (h : tags ≠ []) : (tagsText tags).head? = some comma := by
  obtain ⟨t, tags, rfl⟩ := exists_cons_of_ne_nil h
  rfl

variable {k' : Key} {ts fields text : Bytes}

/-- A key with its tags in another order begins with the same byte. -/
theorem head_text_of_perm (hmeas : k'.measurement = k.measurement)
    (hperm : k'.tags.Perm k.tags) : k'.text.head? = k.text.head? := by
  rw [Key.text, Key.text, hmeas, List.head?_append, List.head?_append]
  by_cases htags : k.tags = []
  · rw [htags] at hperm
    rw [htags, perm_nil.mp hperm]
  · rw [head_tagsText htags, head_tagsText (fun h => htags (nil_perm.mp (h ▸ hperm)))]

theorem starts_of_head (h : k.text.head? = some c) (hc : isWhitespace c = false) : k.Starts := by
  cases htext : k.text with
  | nil => rw [htext] at h; cases h
  | cons d rest =>
    rw [htext] at h
    exact ⟨d, rest, htext, by rw [Option.some.inj h]; exact hc⟩

theorem getLast?_skipWhitespace (h : skipWhitespace tail ≠ []) :
    tail.getLast? = (skipWhitespace tail).getLast? := by
  conv_lhs => rw [← takeWhile_append_dropWhile (p := isWhitespace) (l := tail)]
  exact List.getLast?_append_of_ne_nil _ h

/-- **The text of a point is read as the point.** -/
theorem parsePoint_string {line : Bytes} (hsafe : SafeLine line k tail) (hstart : k.Starts)
    (h : parsePoint parseFloat now line = .ok pt) :
    ∃ k' : Key, k'.measurement = k.measurement ∧ k'.tags.Perm k.tags ∧ pt.key = k'.text ∧
      (∃ rest ts, skipWhitespace tail = pt.fields ++ rest ∧ EndsFields rest ∧ scanTime rest = .ok ts) ∧
      pt.fields ≠ [] ∧ ∀ now', parsePoint parseFloat now' pt.string = .ok pt := by
  obtain ⟨before, rest, rest', ts, hkey, hne, hfields, hne', htime, hparse⟩ := parsePoint_ok.mp h
  obtain ⟨k', hmeas, hperm, horder, hscan⟩ := scanKey_key hstart tail
  rw [hsafe.eq, hscan] at hkey
  obtain ⟨hk', hbefore, hrest⟩ : k'.text = pt.key ∧ k.text.reverse = before ∧ space :: tail = rest := by
    simpa using hkey
  subst hbefore hrest
  obtain ⟨hbuf, hends, hagain⟩ := scanFields_spec hfields
  refine ⟨k', hmeas, hperm, hk'.symm, ⟨rest', ts, hbuf, hends, htime⟩, hne', fun now' => ?_⟩
  have hstart' : k'.Starts := by
    obtain ⟨c, text, htext, hc⟩ := hstart
    exact starts_of_head ((head_text_of_perm hmeas hperm).trans (by rw [htext]; rfl)) hc
  have hequal : pt.fields.head? ≠ some equal := by
    have hnamed := hsafe.named
    rwa [hbuf, List.head?_append_of_ne_nil _ hne'] at hnamed
  have hlast : rest' = [] → pt.fields.getLast? ≠ some backslash := by
    rintro rfl
    rw [append_nil] at hbuf
    have hline := hsafe.ends
    rwa [hsafe.eq, List.getLast?_append_of_ne_nil _ (cons_ne_nil _ _), List.getLast?_cons_of_ne_nil,
      getLast?_skipWhitespace (by rwa [hbuf]), hbuf] at hline
    rintro rfl
    exact hne' hbuf.symm
  refine parsePoint_ok.mpr ⟨_, _, _, _, ?_, hne, hagain k'.text.reverse _ hne' hequal hlast, hne',
    scanTime_formatInt pt.time, parseTime_formatInt now' pt.time⟩
  rw [Point.string, ← hk', append_assoc]
  exact scanKey_inOrder hstart' horder _

/-! ## Where lines are cut -/

/-- Whether `scanLine` is inside of quotes, and behind the first space, after a
text; nothing if it cuts the text. -/
def lineState (quoted fields : Bool) (before : Bytes) : Bytes → Option (Bool × Bool)
  | [] => some (quoted, fields)
  | c :: rest =>
    let fields := fields || c == space
    if fields && c == quote && (decide (before.length > 1) && before.head? != some backslash) then
      lineState (!quoted) fields (c :: before) rest
    else if c == newline && !quoted then none
    else lineState quoted fields (c :: before) rest

theorem scanLineLoop_append : ∀ {text : Bytes} {quoted fields : Bool} {before : Bytes}
    {q f : Bool}, lineState quoted fields before text = some (q, f) →
      scanLineLoop quoted fields before (text ++ rest) =
        (text ++ (scanLineLoop q f (text.reverse ++ before) rest).1,
          (scanLineLoop q f (text.reverse ++ before) rest).2)
  | [], quoted, fields, before, q, f, h => by
    obtain ⟨rfl, rfl⟩ : quoted = q ∧ fields = f := by simpa [lineState] using h
    rfl
  | c :: text, quoted, fields, before, q, f, h => by
    rw [lineState] at h
    rw [cons_append, scanLineLoop, reverse_cons, append_assoc, singleton_append]
    dsimp only at h ⊢
    split at h
    · rename_i hquote
      rw [if_pos hquote, scanLineLoop_append h]
      rfl
    rename_i hquote
    rw [if_neg hquote]
    split at h
    · cases h
    · rename_i hnewline
      rw [if_neg hnewline, scanLineLoop_append h]
      rfl

/-- What `scanLine` cuts off: a text that it does not cut, up to the end or to a
newline outside of quotes. -/
theorem scanLineLoop_spec : ∀ {buf : Bytes} {quoted fields : Bool} {before block rest : Bytes},
    scanLineLoop quoted fields before buf = (block, rest) →
      buf = block ++ rest ∧ ∃ q f, lineState quoted fields before block = some (q, f) ∧
        (rest ≠ [] → q = false)
  | [], quoted, fields, before, block, rest, h => by
    obtain ⟨rfl, rfl⟩ : block = [] ∧ rest = [] := by simpa [scanLineLoop, eq_comm] using h
    exact ⟨rfl, quoted, fields, rfl, fun h => absurd rfl h⟩
  | c :: buf, quoted, fields, before, block, rest, h => by
    rw [scanLineLoop] at h
    dsimp only at h
    split_ifs at h with hquote hnewline
    rotate_left
    · obtain ⟨rfl, rfl⟩ := Prod.mk.inj h
      rw [Bool.and_eq_true, Bool.not_eq_true'] at hnewline
      exact ⟨rfl, quoted, fields, rfl, fun _ => hnewline.2⟩
    all_goals
      obtain ⟨rfl, rfl⟩ := Prod.mk.inj h
      obtain ⟨hbuf, q, f, hstate, hrest⟩ :=
        scanLineLoop_spec (Prod.mk.eta (p := scanLineLoop _ _ _ buf)).symm
      refine ⟨by rw [cons_append, ← hbuf], q, f, ?_, hrest⟩
      rw [lineState]
    · rw [if_neg hquote, if_neg hnewline, hstate]
    · rw [if_pos hquote, hstate]

theorem lineState_append : ∀ {text : Bytes} {quoted fields : Bool} {before rest : Bytes},
    lineState quoted fields before (text ++ rest) = (lineState quoted fields before text).bind
      (fun s => lineState s.1 s.2 (text.reverse ++ before) rest)
  | [], _, _, _, _ => rfl
  | c :: text, quoted, fields, before, rest => by
    rw [cons_append, lineState, lineState, reverse_cons, append_assoc, singleton_append]
    split
    · exact lineState_append
    · split
      · rfl
      · exact lineState_append

/-- Behind two bytes only a backslash matters. -/
theorem lineState_congr : ∀ {text : Bytes} {quoted fields : Bool} {before before' : Bytes},
    before.length > 1 → before'.length > 1 →
      ((before.head? = some backslash) ↔ (before'.head? = some backslash)) →
      lineState quoted fields before text = lineState quoted fields before' text
  | [], _, _, _, _, _, _, _ => rfl
  | c :: text, quoted, fields, before, before', hb, hb', h => by
    have hne : (before.head? != some backslash) = (before'.head? != some backslash) := by
      rw [Bool.eq_iff_iff]
      simp [h]
    have hnext : ∀ q f, lineState q f (c :: before) text = lineState q f (c :: before') text :=
      fun q f => lineState_congr (by simp; omega) (by simp; omega) Iff.rfl
    rw [lineState, lineState]
    simp only [hb, hb', hne, hnext]

theorem lineState_plain : ∀ {text : Bytes} {quoted fields : Bool} {before : Bytes},
    (∀ c ∈ text, c ≠ quote ∧ c ≠ newline) →
      lineState quoted fields before text = some (quoted, fields || text.contains space)
  | [], quoted, fields, before, _ => by simp [lineState]
  | c :: text, quoted, fields, before, h => by
    have hc := h c mem_cons_self
    rw [lineState]
    rw [if_neg (by simp [hc.1]), if_neg (by simp [hc.2]),
      lineState_plain (forall_mem_cons.mp h).2, contains_cons,
      Bool.or_assoc, @BEq.comm _ _ _ c space]

/-- A text where no quote counts is cut at its first newline. -/
theorem lineState_unquoted : ∀ {text : Bytes} {fields : Bool} {before : Bytes},
    (quote ∈ text → space ∉ text ∧ fields = false) → lineState false fields before text =
        if newline ∈ text then none else some (false, fields || text.contains space)
  | [], fields, before, _ => by simp [lineState]
  | c :: text, fields, before, h => by
    have hquote : ¬ ((fields || c == space) && c == quote &&
        (decide (before.length > 1) && before.head? != some backslash)) = true := by
      intro hc
      simp only [Bool.and_eq_true, beq_iff_eq, Bool.or_eq_true] at hc
      obtain ⟨⟨hfields, rfl⟩, -⟩ := hc
      have hq := h mem_cons_self
      rcases hfields with hf | hf
      · rw [hq.2] at hf
        cases hf
      · exact absurd hf (by decide)
    have hnext : quote ∈ text → space ∉ text ∧ (fields || c == space) = false := by
      intro hmem
      obtain ⟨hspace, hf⟩ := h (mem_cons_of_mem _ hmem)
      rw [mem_cons, not_or] at hspace
      exact ⟨hspace.2, by rw [hf, Bool.false_or, beq_eq_false_iff_ne]; exact fun hc => hspace.1 hc.symm⟩
    rw [lineState, if_neg hquote, lineState_unquoted hnext, contains_cons, Bool.or_assoc,
      @BEq.comm _ _ _ c space]
    by_cases hc : c = newline
    · rw [if_pos (by simp [hc]), if_pos (by simp [hc])]
    · rw [if_neg (by simp [hc])]
      simp [hc, eq_comm]

/-- The condition on a block of the buffer: its line is safe, and no quote stands
behind a space before the fields. -/
structure SafeBlock (block : Bytes) (k : Key) (tail : Bytes) : Prop where
  line : SafeLine (lineOf block) k tail
  unquoted : quote ∈ k.text → space ∉ block.takeWhile isWhitespace ∧ space ∉ k.text

/-- A block is its line between whitespace and perhaps a newline. -/
theorem block_eq (h : isSkipped block = false) :
    ∃ nl, (nl = [] ∨ nl = [newline]) ∧ block = block.takeWhile isWhitespace ++ (lineOf block ++ nl) ∧
      ∀ c ∈ (lineOf block).head?, isWhitespace c = false ∧ c ≠ hash := by
  rw [isSkipped, Bool.or_eq_false_iff, isEmpty_eq_false_iff, beq_eq_false_iff_ne] at h
  obtain ⟨hne, hhash⟩ := h
  have hblock : block = block.takeWhile isWhitespace ++ skipWhitespace block :=
    takeWhile_append_dropWhile.symm
  have hhead : ∀ c ∈ (skipWhitespace block).head?, isWhitespace c = false ∧ c ≠ hash := by
    intro c hc
    have hnot := List.head?_dropWhile_not isWhitespace block
    rw [show (block.dropWhile isWhitespace).head? = some c from hc] at hnot
    exact ⟨hnot, fun he => hhash (he ▸ hc)⟩
  unfold lineOf
  split
  · rename_i hlast
    rw [getLast?_skipWhitespace hne, List.getLast?_eq_some_getLast hne, Option.some.injEq] at hlast
    have hline : (skipWhitespace block).dropLast ++ [newline] = skipWhitespace block := by
      rw [← hlast, dropLast_append_getLast hne]
    refine ⟨[newline], .inr rfl, by rw [hline]; exact hblock, fun c hc => hhead c ?_⟩
    rw [← hline, List.head?_append, Option.mem_def.mp hc]
    rfl
  · exact ⟨[], .inl rfl, by rw [append_nil]; exact hblock, hhead⟩

theorem plain_of_whitespace (h : isWhitespace c = true) : c ≠ quote ∧ c ≠ newline := by
  constructor
  · rintro rfl
    exact absurd h (by decide)
  · rintro rfl
    exact absurd h (by decide)

theorem plain_of_scanTime (h : scanTime rest = .ok ts) : ∀ c ∈ rest, c ≠ quote ∧ c ≠ newline := by
  intro c hc
  rw [← takeWhile_append_dropWhile (p := isWhitespace) (l := rest), mem_append] at hc
  rcases hc with hc | hc
  · exact plain_of_whitespace (mem_takeWhile_imp hc)
  have hall : (if (skipWhitespace rest).head? = some minus then (skipWhitespace rest).tail
      else skipWhitespace rest).all isDigit = true := by
    by_contra hall
    unfold scanTime at h
    dsimp only at h
    rw [if_neg hall] at h
    cases h
  rw [all_eq_true] at hall
  change c ∈ skipWhitespace rest at hc
  split at hall
  · rename_i hminus
    cases hs : skipWhitespace rest with
    | nil =>
      rw [hs] at hc
      cases hc
    | cons d digits =>
      rw [hs] at hc hall hminus
      rcases mem_cons.mp hc with rfl | hc
      · rw [Option.some.inj hminus]
        decide
      · exact (isDigit_spec (hall c hc)).2.2
  · exact (isDigit_spec (hall c hc)).2.2

theorem starts_of_block (hsafe : SafeBlock block k tail) (hskip : isSkipped block = false) :
    ∃ c, k.text.head? = some c ∧ isWhitespace c = false ∧ c ≠ hash := by
  obtain ⟨nl, -, -, hhead⟩ := block_eq hskip
  rw [hsafe.line.eq, List.head?_append] at hhead
  cases htext : k.text.head? with
  | none =>
    rw [htext] at hhead
    exact absurd (hhead space rfl).1 (by decide)
  | some c =>
    rw [htext] at hhead
    exact ⟨c, rfl, hhead c rfl⟩

theorem mem_text_of_perm (hmeas : k'.measurement = k.measurement)
    (hperm : k'.tags.Perm k.tags) (c : UInt8) : c ∈ k'.text ↔ c ∈ k.text := by
  rw [Key.text, Key.text, hmeas]
  exact (List.Perm.append_left _ (hperm.flatMap_right _)).mem_iff

theorem plain_formatInt (t : Int64) : ∀ c ∈ space :: formatInt t, c ≠ quote ∧ c ≠ newline :=
  plain_of_scanTime (scanTime_formatInt t)

theorem lineState_block {nl : Bytes} {ws ws' : Bytes}
    (hblock : block = (ws ++ text) ++ ((space :: ws') ++ (fields ++ (rest ++ nl))))
    (hunquoted : quote ∈ ws ++ text → space ∉ ws ++ text) (hws' : ∀ c ∈ ws', isWhitespace c = true)
    (htime : scanTime rest = .ok ts) (hnl : nl = [] ∨ nl = [newline])
    (hstate : lineState false false before block = some (q, f)) : newline ∉ ws ++ text ∧ ∃ f',
      lineState false true ((space :: ws').reverse ++ ((ws ++ text).reverse ++ before)) fields =
        some (q, f') := by
  rw [hblock, lineState_append, lineState_unquoted (fun h => ⟨hunquoted h, rfl⟩)] at hstate
  by_cases hnewline : newline ∈ ws ++ text
  · rw [if_pos hnewline] at hstate
    cases hstate
  refine ⟨hnewline, ?_⟩
  have hplain : ∀ c ∈ space :: ws', c ≠ quote ∧ c ≠ newline :=
    forall_mem_cons.mpr ⟨by decide, fun c hc => plain_of_whitespace (hws' c hc)⟩
  rw [if_neg hnewline, bind_some, lineState_append, lineState_plain hplain, bind_some,
    lineState_append] at hstate
  dsimp only at hstate
  rw [contains_cons, beq_self_eq_true, Bool.true_or, Bool.or_true] at hstate
  obtain ⟨⟨q', f'⟩, hfields, hstate⟩ := Option.bind_eq_some_iff.mp hstate
  rw [lineState_append, lineState_plain (plain_of_scanTime htime), bind_some] at hstate
  refine ⟨f', hfields.trans ?_⟩
  rcases hnl with rfl | rfl
  · obtain ⟨rfl, -⟩ := Prod.mk.inj (Option.some.inj hstate)
    rfl
  cases q' with
  | false => simp [lineState, newline, quote] at hstate
  | true =>
    rw [lineState, if_neg (by simp [newline, quote]), if_neg (by simp)] at hstate
    obtain ⟨rfl, -⟩ := Prod.mk.inj (Option.some.inj hstate)
    rfl

theorem lineState_line
    (hunquoted : quote ∈ text → space ∉ text) (hnewline : newline ∉ text) (hne : text ≠ [])
    (hlong : before.length > 1) (hback : before.head? ≠ some backslash)
    (hstate : lineState false true before fields = some (q, f))
    (htail : ∀ c ∈ tail, c ≠ quote ∧ c ≠ newline) (before' : Bytes) :
    ∃ f', lineState false false before' (text ++ (space :: fields ++ tail)) = some (q, f') := by
  have hlong' : (space :: (text.reverse ++ before')).length > 1 := by
    have := length_pos_iff.mpr hne
    simp
    omega
  have hback' : (space :: (text.reverse ++ before')).head? ≠ some backslash :=
    fun he => absurd (Option.some.inj he) (by decide)
  rw [lineState_congr hlong hlong' (iff_of_false hback hback')] at hstate
  rw [lineState_append, lineState_unquoted (fun h => ⟨hunquoted h, rfl⟩), if_neg hnewline,
    bind_some, cons_append, lineState, if_neg (by simp [space, quote]),
    if_neg (by simp [space, newline])]
  dsimp only
  rw [beq_self_eq_true, Bool.or_true, lineState_append, hstate, bind_some, lineState_plain htail]
  exact ⟨_, rfl⟩

/-- What is known of a point that was read from a safe block. -/
structure ReadsAgain (parseFloat : Bytes → Option UInt64) (q : Bool) (pt : Point) : Prop where
  /-- The text is read as the point. -/
  point : ∀ now', parsePoint parseFloat now' pt.string = .ok pt
  /-- It is no comment, and does not begin with whitespace. -/
  head : ∃ c, pt.string.head? = some c ∧ isWhitespace c = false ∧ c ≠ hash
  /-- It is cut like the block. -/
  state : ∀ before', ∃ f', lineState false false before' pt.string = some (q, f')

/-- **The line of a point is read and cut like the block it came from.** -/
theorem readsAgain (hsafe : SafeBlock block k tail) (hskip : isSkipped block = false)
    (h : parsePoint parseFloat now (lineOf block) = .ok pt)
    (hstate : lineState false false before block = some (q, f)) : ReadsAgain parseFloat q pt := by
  obtain ⟨c, hhead, hc⟩ := starts_of_block hsafe hskip
  obtain ⟨k', hmeas, hperm, hkey, ⟨rest, ts, hfields, -, htime⟩, -, hagain⟩ :=
    parsePoint_string hsafe.line (starts_of_head hhead hc.1) h
  obtain ⟨nl, hnl, hblock, -⟩ := block_eq hskip
  have hhead' : k'.text.head? = some c := (head_text_of_perm hmeas hperm).trans hhead
  have hmem := mem_text_of_perm hmeas hperm
  refine ⟨hagain, ⟨c, ?_, hc⟩, fun before' => ?_⟩
  · rw [Point.string, hkey, append_assoc, List.head?_append, hhead']
    rfl
  · -- the block, cut into its parts
    have htail : tail = tail.takeWhile isWhitespace ++ (pt.fields ++ rest) := by
      rw [← hfields]
      exact takeWhile_append_dropWhile.symm
    have hparts : block = (block.takeWhile isWhitespace ++ k.text) ++
        ((space :: tail.takeWhile isWhitespace) ++ (pt.fields ++ (rest ++ nl))) := by
      conv_lhs => rw [hblock, hsafe.line.eq, htail]
      simp
    have hunquoted : quote ∈ block.takeWhile isWhitespace ++ k.text →
        space ∉ block.takeWhile isWhitespace ++ k.text := by
      intro hq
      rw [mem_append] at hq ⊢
      rcases hq with hq | hq
      · exact absurd rfl (plain_of_whitespace (mem_takeWhile_imp hq)).1
      · exact not_or.mpr (hsafe.unquoted hq)
    have hws : ∀ c ∈ tail.takeWhile isWhitespace, isWhitespace c = true :=
      fun c hc => mem_takeWhile_imp hc
    obtain ⟨hnewline, f', hstate'⟩ := lineState_block hparts hunquoted hws htime hnl hstate
    have hnewline' : newline ∉ k'.text := by
      rw [hmem]
      exact fun hn => hnewline (mem_append_right _ hn)
    have hunquoted' : quote ∈ k'.text → space ∉ k'.text := by
      rw [hmem, hmem]
      exact fun hq => (hsafe.unquoted hq).2
    have hback : ((space :: tail.takeWhile isWhitespace).reverse ++
        ((block.takeWhile isWhitespace ++ k.text).reverse ++ before)).head? ≠ some backslash :=
      head_whitespace (forall_mem_cons.mpr ⟨by decide, hws⟩) (cons_ne_nil _ _)
    have hlong : ((space :: tail.takeWhile isWhitespace).reverse ++
        ((block.takeWhile isWhitespace ++ k.text).reverse ++ before)).length > 1 := by
      have := length_pos_of_mem (mem_of_head? hhead)
      simp
      omega
    rw [Point.string, hkey, append_assoc]
    exact lineState_line hunquoted' hnewline' (ne_nil_of_mem (mem_of_head? hhead')) hlong
      hback hstate' (plain_formatInt pt.time) before'

end AndyEnv.Models
