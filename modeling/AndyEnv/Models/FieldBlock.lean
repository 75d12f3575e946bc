import AndyEnv.Models.Scan
import Mathlib.Data.List.TakeWhile

/-!
# Fields that are scanned again

What `scanFields` has accepted, it accepts again if a space follows: the scan
looks only at the two bytes before the first equals sign, and at the byte after
a backslash.
-/

namespace AndyEnv.Models

open Escape Strconv
open List

/-! ## Values -/

def EndsValue (rest : Bytes) : Prop := ∀ c ∈ rest.head?, endsValue c = true

/-- What the loop of `scanNumber` makes of one byte. -/
def numberStep (s : NumberScan) (text : Bytes) (c : UInt8) : Option NumberScan :=
  if c == 105 && !text.isEmpty && !s.isInt then some { s with isInt := true }
  else
    let s := if c == 46 then { s with decimals := s.decimals + 1 } else s
    if s.decimals > 1 then none
    else if !text.isEmpty && isExponent c then some { s with scientific := true }
    else if (c == plus || c == minus) && text.head?.any isExponent then some s
    else if isNumeric c then some s else none

variable {c : UInt8} {rest text buf F before before' : Bytes} {f : FieldScan}

theorem scanNumberLoop_cons (hc : endsValue c = false) (s : NumberScan)
    (text rest : Bytes) : scanNumberLoop s text (c :: rest) = match numberStep s text c with
      | none => .error .invalidNumber
      | some s' => scanNumberLoop s' (c :: text) rest := by
  have hnan : (c == 78 || c == 110) = true → isNumeric c = false := by
    intro h
    rcases Bool.or_eq_true_iff.mp h with h | h
    · rw [beq_iff_eq.mp h]
      decide
    · rw [beq_iff_eq.mp h]
      decide
  rw [scanNumberLoop, if_neg (by simp [hc]), numberStep]
  split
  · rfl
  generalize (if c == 46 then { s with decimals := s.decimals + 1 } else s) = s₁
  dsimp only
  split
  · rfl
  split
  · rfl
  split
  · rfl
  split
  · rename_i h
    rw [Bool.and_eq_true] at h
    rw [hnan h.2]
    rfl
  · cases isNumeric c <;> rfl

theorem scanNumberLoop_end (h : EndsValue rest) (s : NumberScan) (text : Bytes) :
    scanNumberLoop s text rest = .ok (s, text) := by
  cases rest with
  | nil => rfl
  | cons c rest => rw [scanNumberLoop, if_pos (h c rfl)]

/-- The loop reads up to the end of the value, whatever follows. -/
theorem scanNumberLoop_spec : ∀ {buf : Bytes} {s s' : NumberScan} {text text' : Bytes},
    scanNumberLoop s text buf = .ok (s', text') →
      ∃ body rest, buf = body ++ rest ∧ EndsValue rest ∧ text' = body.reverse ++ text ∧
        ∀ rest', EndsValue rest' → scanNumberLoop s text (body ++ rest') = .ok (s', text')
  | [], s, s', text, text', h => by
    obtain ⟨rfl, rfl⟩ : s = s' ∧ text = text' := by simpa [scanNumberLoop] using h
    exact ⟨[], [], rfl, nofun, rfl, fun rest' hrest' => scanNumberLoop_end hrest' _ _⟩
  | c :: buf, s, s', text, text', h => by
    cases hend : endsValue c with
    | true =>
      have hends : EndsValue (c :: buf) := fun d hd => by
        obtain rfl : c = d := by simpa using hd
        exact hend
      rw [scanNumberLoop_end hends] at h
      obtain ⟨rfl, rfl⟩ : s = s' ∧ text = text' := by simpa using h
      exact ⟨[], c :: buf, rfl, hends, rfl, fun rest' hrest' => scanNumberLoop_end hrest' _ _⟩
    | false =>
      rw [scanNumberLoop_cons hend] at h
      cases hstep : numberStep s text c with
      | none => simp [hstep] at h
      | some s₁ =>
        simp only [hstep] at h
        obtain ⟨body, rest, rfl, hrest, rfl, hagain⟩ := scanNumberLoop_spec h
        refine ⟨c :: body, rest, rfl, hrest, by simp, fun rest' hrest' => ?_⟩
        rw [cons_append, scanNumberLoop_cons hend, hstep]
        exact hagain rest' hrest'

variable {parseFloat : Bytes → Option UInt64}

variable {text' tail r : Bytes} {f' : FieldScan} {skip : ℕ}

theorem checkNumber_eq {s : NumberScan}
    (h : checkNumber parseFloat s text = .ok text') : text' = text := by
  unfold checkNumber at h
  split_ifs at h
  all_goals exact (Except.ok.inj h).symm

theorem scanNumber_minus (h : buf ≠ []) : scanNumber parseFloat (minus :: buf) =
      (scanNumberLoop ⟨false, 0, false⟩ [minus] buf).bind
        (fun p => checkNumber parseFloat p.1 p.2.reverse) := by
  simp only [scanNumber, List.cons.injEq, true_and, h, if_false, List.head?_cons, if_true,
    tail_cons]
  rfl

theorem scanNumber_of_head (h : buf.head? ≠ some minus) :
    scanNumber parseFloat buf = (scanNumberLoop ⟨false, 0, false⟩ [] buf).bind
      (fun p => checkNumber parseFloat p.1 p.2.reverse) := by
  have hne : buf ≠ [minus] := by
    rintro rfl
    exact h rfl
  simp only [scanNumber, if_neg hne, if_neg h]
  rfl

theorem loop_check_spec {sign : Bytes} (h : (scanNumberLoop ⟨false, 0, false⟩ sign buf).bind
      (fun p => checkNumber parseFloat p.1 p.2.reverse) = .ok text) :
    ∃ body rest, buf = body ++ rest ∧ text = sign.reverse ++ body ∧ EndsValue rest ∧
      ∀ rest', EndsValue rest' → (scanNumberLoop ⟨false, 0, false⟩ sign (body ++ rest')).bind
        (fun p => checkNumber parseFloat p.1 p.2.reverse) = .ok text := by
  obtain ⟨⟨s, text'⟩, hloop, h⟩ := except_bind_eq_ok.mp h
  obtain ⟨body, rest, hbuf, hrest, rfl, hagain⟩ := scanNumberLoop_spec hloop
  refine ⟨body, rest, hbuf, by simpa using checkNumber_eq h, hrest, fun rest' hrest' => ?_⟩
  rw [hagain rest' hrest']
  exact h

/-- **A number is scanned up to its end**, whatever byte ends it. -/
theorem scanNumber_spec (h : scanNumber parseFloat buf = .ok text) :
    ∃ rest, buf = text ++ rest ∧ EndsValue rest ∧
      ∀ rest', EndsValue rest' → rest' ≠ [] → scanNumber parseFloat (text ++ rest') = .ok text := by
  by_cases hminus : buf.head? = some minus
  · obtain ⟨tail, rfl⟩ : ∃ tail, buf = minus :: tail := by
      cases buf with
      | nil => cases hminus
      | cons c tail => exact ⟨tail, by rw [Option.some.inj hminus]⟩
    have htail : tail ≠ [] := by
      rintro rfl
      cases h
    rw [scanNumber_minus htail] at h
    obtain ⟨body, rest, rfl, rfl, hrest, hagain⟩ := loop_check_spec h
    refine ⟨rest, rfl, hrest, fun rest' hrest' hne => ?_⟩
    have hne' : body ++ rest' ≠ [] := fun he => hne (append_eq_nil_iff.mp he).2
    exact (scanNumber_minus hne').trans (hagain rest' hrest')
  · rw [scanNumber_of_head hminus] at h
    obtain ⟨body, rest, rfl, htext, hrest, hagain⟩ := loop_check_spec h
    obtain rfl : text = body := htext
    refine ⟨rest, rfl, hrest, fun rest' hrest' _ => ?_⟩
    have hhead : (text ++ rest').head? ≠ some minus := by
      cases text with
      | nil => exact fun hh => absurd (hrest' _ hh) (by decide)
      | cons c text => exact hminus
    exact (scanNumber_of_head hhead).trans (hagain rest' hrest')

theorem checkBoolean_eq (h : checkBoolean text = .ok text') : text' = text := by
  unfold checkBoolean at h
  split_ifs at h
  all_goals exact (Except.ok.inj h).symm

theorem takeWhile_value {body : Bytes} (hbody : ∀ c ∈ body, endsValue c = false)
    (hrest : EndsValue rest) : (body ++ rest).takeWhile (!endsValue ·) = body := by
  rw [takeWhile_append_of_pos (fun c hc => by simp [hbody c hc])]
  cases rest with
  | nil => simp
  | cons c rest => simp [hrest c rfl]

theorem scanBoolean_spec (h : scanBoolean (c :: buf) = .ok text) :
    ∃ rest, c :: buf = text ++ rest ∧ EndsValue rest ∧
      ∀ rest', EndsValue rest' → scanBoolean (text ++ rest') = .ok text := by
  have htext := checkBoolean_eq h
  refine ⟨buf.dropWhile (!endsValue ·), ?_, fun d hd => ?_, fun rest' hrest' => ?_⟩
  · rw [htext, cons_append, takeWhile_append_dropWhile]
  · have hnot := List.head?_dropWhile_not (!endsValue ·) buf
    rw [Option.mem_def.mp hd] at hnot
    simpa using hnot
  · rw [htext, cons_append, scanBoolean, takeWhile_value _ hrest']
    · rw [htext] at h
      exact h
    · intro d hd
      simpa using mem_takeWhile_imp hd

/-- What follows the fields: nothing, or a space. -/
def EndsFields (rest : Bytes) : Prop := ∀ c ∈ rest.head?, c = space

/-- The value ends inside of the fields, or with them. -/
theorem exists_append_of_value (h : F ++ rest = text ++ tail)
    (hlen : text.length ≤ F.length) (htail : EndsValue tail) :
    ∃ G, F ++ space :: r = text ++ G ∧ EndsValue G ∧ G ≠ [] := by
  obtain ⟨G, rfl⟩ : ∃ G, F = text ++ G := by
    have htext : text <+: F ++ rest := h ▸ prefix_append text tail
    have hprefix := prefix_of_prefix_length_le htext (prefix_append F rest) hlen
    exact ⟨_, (prefix_iff_eq_append.mp hprefix).symm⟩
  refine ⟨G ++ space :: r, by rw [append_assoc], ?_, by simp⟩
  rw [append_assoc] at h
  have htail' := append_cancel_left h
  cases G with
  | nil =>
    intro c hc
    obtain rfl : space = c := by simpa using hc
    decide
  | cons g G =>
    intro c hc
    rw [← htail'] at htail
    exact htail c hc

theorem length_scanValue_le (h : scanValue parseFloat buf = .ok text) :
    text.length ≤ buf.length := by
  cases buf with
  | nil => cases h
  | cons c buf =>
    rw [scanValue] at h
    split_ifs at h
    · obtain ⟨rest, hbuf, -⟩ := scanNumber_spec h
      rw [hbuf, length_append]
      omega
    · obtain ⟨rest, hbuf, -⟩ := scanBoolean_spec h
      rw [hbuf, length_append]
      omega
    · rw [← Except.ok.inj h]
      exact Nat.zero_le _

/-- **A value is scanned again** when a space ends the fields. -/
theorem scanValue_append (h : scanValue parseFloat (F ++ rest) = .ok text)
    (hrest : EndsFields rest) (hlen : text.length ≤ F.length) (r : Bytes) :
    scanValue parseFloat (F ++ space :: r) = .ok text := by
  cases F with
  | nil =>
    cases rest with
    | nil => cases h
    | cons c rest =>
      obtain rfl := hrest c rfl
      cases h
  | cons c F =>
    rw [cons_append, scanValue] at h ⊢
    split_ifs at h ⊢
    · obtain ⟨tail, hbuf, htail, hagain⟩ := scanNumber_spec h
      obtain ⟨G, hG, hends, hne⟩ := exists_append_of_value (F := c :: F) (r := r) hbuf hlen htail
      rw [← cons_append, hG]
      exact hagain G hends hne
    · obtain ⟨tail, hbuf, htail, hagain⟩ := scanBoolean_spec h
      obtain ⟨G, hG, hends, -⟩ := exists_append_of_value (F := c :: F) (r := r) hbuf hlen htail
      rw [← cons_append, hG]
      exact hagain G hends
    · exact h

/-! ## The loop -/

/-- What the loop of `scanFields` makes of one byte. -/
inductive FieldStep : Type
  | fail (e : ParseError)
  | stop
  | go (f : FieldScan) (skip : ℕ)

def fieldStep (parseFloat : Bytes → Option UInt64) (f : FieldScan) (before : Bytes) (c : UInt8)
    (rest : Bytes) : FieldStep :=
  if c == backslash && rest.head?.any (escapes f.quoted) then .go f 1
  else if c == quote then .go { f with quoted := !f.quoted } 0
  else if c == equal && !f.quoted then
    if missesName before then .fail .missingFieldKey
    else
      match scanValue parseFloat rest with
      | .error e => .fail e
      | .ok text => .go { f with equals := f.equals + 1 } text.length
  else if c == comma && !f.quoted then .go { f with commas := f.commas + 1 } 0
  else if c == space && !f.quoted then .stop
  else .go f 0

theorem scanFieldsLoop_cons (f : FieldScan) (before : Bytes) (c : UInt8) (rest : Bytes) :
    scanFieldsLoop parseFloat f 0 before (c :: rest) =
      match fieldStep parseFloat f before c rest with
      | .fail e => .error e
      | .stop => checkFields f before (c :: rest)
      | .go f' skip => scanFieldsLoop parseFloat f' skip (c :: before) rest := by
  rw [scanFieldsLoop, fieldStep]
  cases scanValue parseFloat rest
  all_goals split_ifs <;> rfl

/-- The scan looks back in the same way from both places. -/
structure SameBack (before before' : Bytes) : Prop where
  misses : missesName before = missesName before'
  escaped : (before.head? = some backslash) ↔ (before'.head? = some backslash)

theorem SameBack.cons
    (h : (before.head? = some backslash) ↔ (before'.head? = some backslash)) (c : UInt8) :
    SameBack (c :: before) (c :: before') := by
  refine ⟨?_, by simp⟩
  have hne : (before.head? != some backslash) = (before'.head? != some backslash) := by
    rw [Bool.eq_iff_iff]
    simp [h]
  simp only [missesName, List.head?_cons, tail_cons, hne]

theorem fieldStep_skip_le
    (h : fieldStep parseFloat f before c rest = .go f' skip) : skip ≤ rest.length := by
  unfold fieldStep at h
  split_ifs at h with hc
  · obtain ⟨-, rfl⟩ := FieldStep.go.inj h
    cases rest with
    | nil => simp at hc
    | cons d rest => simp
  · obtain ⟨-, rfl⟩ := FieldStep.go.inj h
    exact Nat.zero_le _
  · split at h
    · cases h
    · rename_i hvalue
      obtain ⟨-, rfl⟩ := FieldStep.go.inj h
      exact length_scanValue_le hvalue
  all_goals
    obtain ⟨-, rfl⟩ := FieldStep.go.inj h
    exact Nat.zero_le _

/-- A step is made again when a space ends the fields. -/
theorem fieldStep_append
    (h : fieldStep parseFloat f before c (F ++ rest) = .go f' skip) (hlen : skip ≤ F.length)
    (hrest : EndsFields rest) (hback : c = equal → missesName before = missesName before')
    (hlast : F = [] → rest = [] → c ≠ backslash) (r : Bytes) :
    fieldStep parseFloat f before' c (F ++ space :: r) = .go f' skip := by
  have hhead : c = backslash → (F ++ space :: r).head? = (F ++ rest).head? := by
    intro hc
    cases F with
    | nil =>
      cases rest with
      | nil => exact absurd hc (hlast rfl rfl)
      | cons d rest => rw [hrest d rfl]; rfl
    | cons d F => rfl
  unfold fieldStep at h ⊢
  by_cases hc : c = backslash
  · rw [hhead hc]
    subst hc
    exact h
  rw [if_neg (by simp [hc])] at h ⊢
  by_cases hequal : (c == equal && !f.quoted) = true
  · have hce : c = equal := by
      rw [Bool.and_eq_true, beq_iff_eq] at hequal
      exact hequal.1
    rw [if_pos hequal] at h ⊢
    rw [← hback hce]
    split_ifs at h ⊢
    · exact h
    · split at h
      · cases h
      · rename_i text hvalue
        obtain ⟨-, hskip⟩ := FieldStep.go.inj h
        rw [scanValue_append hvalue hrest (hskip ▸ hlen) r]
        exact h
  · rwa [if_neg hequal] at h ⊢

theorem getLast?_ne_of_cons {d : UInt8} (h : (c :: F).getLast? ≠ some d) : F.getLast? ≠ some d := by
  cases F with
  | nil => nofun
  | cons e F => rwa [List.getLast?_cons_cons] at h

theorem fieldStep_stop (h : fieldStep parseFloat f before c rest = .stop) : c = space := by
  unfold fieldStep at h
  split_ifs at h with _ _ _ _ _ hc
  · split at h <;> cases h
  · rw [Bool.and_eq_true, beq_iff_eq] at hc
    exact hc.1

theorem checkFields_ok {rest' : Bytes} (h : checkFields f before rest = .ok (before', rest')) :
    f.quoted = false ∧ before' = before ∧ rest' = rest ∧ ∀ b r, checkFields f b r = .ok (b, r) := by
  unfold checkFields at h
  split_ifs at h with hquoted hcount
  obtain ⟨rfl, rfl⟩ := Prod.mk.inj (Except.ok.inj h)
  refine ⟨by simpa using hquoted, rfl, rfl, fun b r => ?_⟩
  rw [checkFields, if_neg hquoted, if_neg hcount]

theorem scanFieldsLoop_space (hcheck : checkFields f before (space :: r) = .ok (before, space :: r))
    (hquoted : f.quoted = false) :
    scanFieldsLoop parseFloat f 0 before (space :: r) = .ok (before, space :: r) := by
  have hstep : fieldStep parseFloat f before space r = .stop := by
    unfold fieldStep
    rw [hquoted]
    rfl
  rw [scanFieldsLoop_cons, hstep]
  exact hcheck

/-- **Accepted fields are accepted again** when a space follows them. -/
theorem scanFieldsLoop_spec : ∀ {buf : Bytes} {f : FieldScan} {skip : ℕ} {before stop rest : Bytes},
    skip ≤ buf.length → scanFieldsLoop parseFloat f skip before buf = .ok (stop, rest) →
      ∃ F, buf = F ++ rest ∧ stop = F.reverse ++ before ∧ skip ≤ F.length ∧ EndsFields rest ∧
        ∀ before' r, (buf.head? = some equal → missesName before = missesName before') →
          ((before.head? = some backslash) ↔ (before'.head? = some backslash)) →
          (rest = [] → F.getLast? ≠ some backslash) →
          scanFieldsLoop parseFloat f skip before' (F ++ space :: r) =
            .ok (F.reverse ++ before', space :: r)
  | [], f, skip, before, stop, rest, hskip, h => by
    obtain rfl : skip = 0 := Nat.le_zero.mp hskip
    obtain ⟨hquoted, rfl, rfl, hcheck⟩ := checkFields_ok h
    exact ⟨[], rfl, rfl, le_rfl, nofun, fun before' r _ _ _ =>
      scanFieldsLoop_space (hcheck _ _) hquoted⟩
  | c :: buf, f, skip + 1, before, stop, rest, hskip, h => by
    -- a byte that is skipped
    obtain ⟨F, rfl, rfl, hF, hrest, hagain⟩ :=
      @scanFieldsLoop_spec buf f skip (c :: before) stop rest (Nat.le_of_succ_le_succ hskip) h
    refine ⟨c :: F, rfl, by simp, Nat.succ_le_succ hF, hrest, fun before' r _ hback hlast => ?_⟩
    have hcons := SameBack.cons hback c
    have := hagain (c :: before') r (fun _ => hcons.misses) hcons.escaped
      (fun hr => getLast?_ne_of_cons (hlast hr))
    rw [cons_append, scanFieldsLoop, this]
    simp
  | c :: buf, f, 0, before, stop, rest, _, h => by
    rw [scanFieldsLoop_cons] at h
    cases hstep : fieldStep parseFloat f before c buf with
    | fail e =>
      rw [hstep] at h
      cases h
    | stop =>
      rw [hstep] at h
      obtain rfl := fieldStep_stop hstep
      obtain ⟨hquoted, rfl, rfl, hcheck⟩ := checkFields_ok h
      refine ⟨[], rfl, rfl, le_rfl, ?_, fun before' r _ _ _ =>
        scanFieldsLoop_space (hcheck _ _) hquoted⟩
      intro d hd
      simpa using hd.symm
    | go f' skip =>
      rw [hstep] at h
      obtain ⟨F, rfl, rfl, hF, hrest, hagain⟩ := @scanFieldsLoop_spec buf f' skip (c :: before)
        stop rest (fieldStep_skip_le hstep) h
      refine ⟨c :: F, rfl, by simp, Nat.zero_le _, hrest, fun before' r hmiss hback hlast => ?_⟩
      have hcons := SameBack.cons hback c
      have hnext := hagain (c :: before') r (fun _ => hcons.misses) hcons.escaped
        (fun hr => getLast?_ne_of_cons (hlast hr))
      have hstep' := fieldStep_append hstep hF hrest
        (fun hc => hmiss (by rw [hc]; rfl)) (fun hnil hr hc => hlast hr (by rw [hnil, hc]; rfl)) r
      rw [cons_append, scanFieldsLoop_cons, hstep']
      change scanFieldsLoop parseFloat f' skip (c :: before') (F ++ space :: r) = _
      rw [hnext]
      simp

/-! ## The block -/

theorem scanFields_eq (before rest : Bytes) : scanFields parseFloat before rest =
    (scanFieldsLoop parseFloat ⟨false, 0, 0⟩ 0 ((rest.takeWhile isWhitespace).reverse ++ before)
      (skipWhitespace rest)).map (fun p => ((p.1.take (p.1.length -
        ((rest.takeWhile isWhitespace).reverse ++ before).length)).reverse, p.2)) := by
  unfold scanFields
  dsimp only
  cases scanFieldsLoop parseFloat ⟨false, 0, 0⟩ 0
    ((rest.takeWhile isWhitespace).reverse ++ before) (skipWhitespace rest) <;> rfl

theorem take_reverse_append (F before : Bytes) :
    ((F.reverse ++ before).take ((F.reverse ++ before).length - before.length)).reverse = F := by
  rw [length_append, Nat.add_sub_cancel, take_left, reverse_reverse]

theorem skipWhitespace_cons (hc : isWhitespace c = false) (buf : Bytes) :
    skipWhitespace (c :: buf) = c :: buf := by
  rw [skipWhitespace, dropWhile_cons, if_neg (by simp [hc])]

theorem skipWhitespace_space (buf : Bytes) : skipWhitespace (space :: buf) = skipWhitespace buf := by
  rw [skipWhitespace, dropWhile_cons, if_pos (by decide)]
  rfl

theorem head_whitespace {ws : Bytes} (hws : ∀ c ∈ ws, isWhitespace c = true) (hne : ws ≠ []) :
    (ws.reverse ++ before).head? ≠ some backslash := by
  intro h
  rw [List.head?_append_of_ne_nil _ (by simpa using hne), List.head?_reverse] at h
  exact absurd (hws _ (mem_of_getLast? h)) (by decide)

/-- **The fields of a line are scanned again**, behind one space and before
another, if they do not begin with an equals sign or end with a backslash. -/
theorem scanFields_spec {fields : Bytes}
    (h : scanFields parseFloat before (space :: tail) = .ok (fields, rest)) :
    skipWhitespace tail = fields ++ rest ∧ EndsFields rest ∧
      ∀ before' r, fields ≠ [] → fields.head? ≠ some equal →
        (rest = [] → fields.getLast? ≠ some backslash) →
        scanFields parseFloat before' (space :: (fields ++ space :: r)) = .ok (fields, space :: r) := by
  have hblank : (space :: tail).takeWhile isWhitespace ≠ [] := by
    rw [takeWhile_cons, if_pos (by decide)]
    nofun
  have hws : ∀ c ∈ (space :: tail).takeWhile isWhitespace, isWhitespace c = true :=
    fun c hc => mem_takeWhile_imp hc
  rw [scanFields_eq, skipWhitespace_space] at h
  obtain ⟨⟨stop, rest'⟩, hloop, h⟩ := except_map_eq_ok.mp h
  obtain ⟨hfields, rfl⟩ := Prod.mk.inj h
  obtain ⟨F, hbuf, rfl, -, hends, hagain⟩ := scanFieldsLoop_spec (Nat.zero_le _) hloop
  dsimp only at hfields
  rw [take_reverse_append] at hfields
  subst hfields
  refine ⟨hbuf, hends, fun before' r hne hequal hlast => ?_⟩
  obtain ⟨c, F, rfl⟩ := exists_cons_of_ne_nil hne
  have hc : isWhitespace c = false := by
    have hnot := List.head?_dropWhile_not isWhitespace tail
    rw [show tail.dropWhile isWhitespace = _ from hbuf] at hnot
    exact hnot
  have htake : (space :: (c :: F ++ space :: r)).takeWhile isWhitespace = [space] := by
    rw [takeWhile_cons, if_pos (by decide), cons_append, takeWhile_cons, if_neg (by simp [hc])]
  have hdrop : skipWhitespace (space :: (c :: F ++ space :: r)) = c :: F ++ space :: r := by
    rw [skipWhitespace_space, cons_append, skipWhitespace_cons hc]
  have hnext := hagain (space :: before') r
    (fun hh => absurd (by rw [hbuf] at hh; exact hh) hequal)
    (iff_of_false (head_whitespace hws hblank)
      (fun he => absurd (Option.some.inj he) (by decide))) hlast
  rw [scanFields_eq, htake, hdrop, reverse_singleton, singleton_append, hnext]
  change Except.ok (_, _) = _
  rw [take_reverse_append]

end AndyEnv.Models
