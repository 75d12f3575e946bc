import AndyEnv.Lib.Bytes
import AndyEnv.Lib.Maps
import AndyEnv.Tsm1.Value

/-!
# The ids of series and fields

`convertKeysAndWriteMetadata` gives every key of a batch its id: the one stored
for it, the hash of the key, or, if another key has that id, the first number
from 1 on that no key has. The hash function is arbitrary.

The map is kept as JSON. `json.Marshal` replaces the bytes of a key that are
not UTF-8, so such a key is read back as another key.
-/

namespace AndyEnv.Tsm1

open List AList Option

variable {idToKey : AList (fun _ : UInt64 => Bytes)} {ks : List Bytes} {st : KeyIDs}

/-! ## A map that is written and read back -/

abbrev KeyMap : Type := AList (fun _ : Bytes => UInt64)

def isCont (b : UInt8) : Bool := decide (0x80 ≤ b) && decide (b ≤ 0xBF)

/-- The number of bytes of the UTF-8 sequence at the front, 0 if there is none. -/
def runeLen : Bytes → ℕ
  | [] => 0
  | b :: bs =>
    if b < 0x80 then 1
    else if 0xC2 ≤ b ∧ b ≤ 0xDF then
      match bs with
      | c :: _ => if isCont c then 2 else 0
      | _ => 0
    else if 0xE0 ≤ b ∧ b ≤ 0xEF then
      match bs with
      | c :: d :: _ =>
        -- no shorter form, no surrogate
        if isCont c ∧ isCont d ∧ (b = 0xE0 → 0xA0 ≤ c) ∧ (b = 0xED → c ≤ 0x9F) then 3 else 0
      | _ => 0
    else if 0xF0 ≤ b ∧ b ≤ 0xF4 then
      match bs with
      | c :: d :: e :: _ =>
        if isCont c ∧ isCont d ∧ isCont e ∧ (b = 0xF0 → 0x90 ≤ c) ∧ (b = 0xF4 → c ≤ 0x8F) then 4 else 0
      | _ => 0
    else 0

/-- A string after `json.Marshal` and `json.Unmarshal`: each byte that belongs
to no UTF-8 sequence becomes U+FFFD. The number counts the bytes left of a sequence. -/
def jsonString : ℕ → Bytes → Bytes
  | _, [] => []
  | n + 1, b :: bs => b :: jsonString n bs
  | 0, b :: bs =>
    match runeLen (b :: bs) with
    | 0 => 0xEF :: 0xBF :: 0xBD :: jsonString 0 bs
    | n + 1 => b :: jsonString n bs

/-- A key that is read back as it was written. -/
def ValidKey (k : Bytes) : Prop := jsonString 0 k = k

instance (k : Bytes) : Decidable (ValidKey k) := inferInstanceAs (Decidable (_ = _))

/-- A map read from the JSON it was written to. `Marshal` writes the keys in
ascending order; of two that have become the same the later one stays. -/
def throughJSON (m : KeyMap) : KeyMap :=
  insertAll (fun e => some (jsonString 0 e.1)) (fun e => e.2)
    (m.entries.insertionSort (fun a b => Bytes.le a.1 b.1)) ∅

theorem lookup_throughJSON {m : KeyMap} (h : ∀ k ∈ m, ValidKey k) (k : Bytes) :
    (throughJSON m).lookup k = m.lookup k := by
  have hvalid : ∀ e ∈ m.entries, jsonString 0 e.1 = e.1 :=
    fun e he => h e.1 (mem_keys.mpr (mem_keys_of_mem he))
  refine ext (fun v => ?_)
  unfold throughJSON
  refine (lookup_insertAll_empty_iff (fun e he e' he' hk hk' => ?_)).trans ?_
  · rw [mem_insertionSort] at he he'
    rw [hvalid e he, some.injEq] at hk
    rw [hvalid e' he', some.injEq] at hk'
    exact m.nodupKeys.eq_of_fst_eq he he' (hk.trans hk'.symm)
  · refine Iff.trans ?_ mem_lookup_iff.symm
    constructor
    · rintro ⟨⟨k', v'⟩, he, hk, rfl⟩
      rw [mem_insertionSort] at he
      rw [hvalid _ he, some.injEq] at hk
      subst hk
      exact he
    · intro he
      exact ⟨⟨k, v⟩, mem_insertionSort _ |>.mpr he, congrArg some (hvalid _ he), rfl⟩

/-! ## Giving ids to keys -/

/-- The variables of the loop. `assigned` notes which id each key's values go to. -/
structure KeyIDs where
  ids : KeyMap
  idToKey : AList (fun _ : UInt64 => Bytes)
  collisions : KeyMap
  newKeys : Bool
  valuesByID : AList (fun _ : UInt64 => Values)
  assigned : List (Bytes × UInt64)

/-- The next available id. The fuel is the number of ids in use and one more. -/
def nextAvailable (idToKey : AList (fun _ : UInt64 => Bytes)) : ℕ → UInt64 → Option UInt64
  | 0, _ => none
  | fuel + 1, hashID =>
    if (idToKey.lookup (hashID + 1)).isNone then some (hashID + 1) else nextAvailable idToKey fuel (hashID + 1)

/-- `idToKey`, filled from `ids` when the first new key is met. -/
def populated (st : KeyIDs) : AList (fun _ : UInt64 => Bytes) :=
  if st.idToKey.entries = [] then insertAll (fun e => some e.2) (fun e => e.1) st.ids.entries ∅ else st.idToKey

namespace KeyIDs

def store (st : KeyIDs) (idToKey : AList (fun _ : UInt64 => Bytes)) (k : Bytes) (id : UInt64) (values : Values) : KeyIDs :=
  { st with
    ids := st.ids.insert k id
    idToKey := idToKey.insert id k
    newKeys := true
    valuesByID := st.valuesByID.insert id values
    assigned := (k, id) :: st.assigned }

/-- One round of the loop. `none` is a search for an id that does not end. -/
def assign (hash : Bytes → UInt64) (st : KeyIDs) (k : Bytes) (values : Values) : Option KeyIDs :=
  match st.ids.lookup k with
  | some id =>
    some { st with valuesByID := st.valuesByID.insert id values, assigned := (k, id) :: st.assigned }
  | none =>
    let idToKey := populated st
    match idToKey.lookup (hash k) with
    | some existingKey =>
      -- we only care if the keys are different
      if k ≠ existingKey then
        (nextAvailable idToKey (idToKey.entries.length + 1) 0).map (fun id =>
          { st.store idToKey k id values with collisions := st.collisions.insert k id })
      else some (st.store idToKey k (hash k) values)
    | none => some (st.store idToKey k (hash k) values)

end KeyIDs

/-- The loop of `convertKeysAndWriteMetadata` over the batch, in the order `range` visits it. -/
def convertKeys (hash : Bytes → UInt64) (ids : KeyMap) (pointsByKey : List (Bytes × Values)) : Option KeyIDs :=
  pointsByKey.foldlM (fun st p => st.assign hash p.1 p.2) ⟨ids, ∅, ∅, false, ∅, []⟩

/-! ## The search for an id -/

theorem lookup_nextAvailable : ∀ {fuel : ℕ} {hashID id : UInt64},
    nextAvailable idToKey fuel hashID = some id → idToKey.lookup id = none
  | 0, _, _, h => (nomatch h)
  | fuel + 1, hashID, id, h => by
    rw [nextAvailable] at h
    split at h
    · rename_i hnone
      cases h
      exact isNone_iff_eq_none.mp hnone
    · exact lookup_nextAvailable h

/-- While the search goes on, it has met only ids in use. -/
theorem mem_of_nextAvailable_eq_none : ∀ {fuel : ℕ} {hashID : UInt64},
    nextAvailable idToKey fuel hashID = none → ∀ i, i < fuel → hashID + 1 + UInt64.ofNat i ∈ idToKey
  | 0, _, _, i, hi => absurd hi (Nat.not_lt_zero i)
  | fuel + 1, hashID, h, i, hi => by
    rw [nextAvailable] at h
    split at h
    · cases h
    rename_i hsome
    cases i with
    | zero =>
      rw [isNone_iff_eq_none, lookup_eq_none, not_not] at hsome
      simpa using hsome
    | succ i =>
      have hmem := mem_of_nextAvailable_eq_none h i (Nat.lt_of_succ_lt_succ hi)
      have heq : hashID + 1 + UInt64.ofNat (i + 1) = hashID + 1 + 1 + UInt64.ofNat i := by
        rw [UInt64.ofNat_add, UInt64.add_comm (UInt64.ofNat i), UInt64.add_assoc (hashID + 1)]
        rfl
      rwa [heq]

/-- **The search ends** while fewer than all ids are in use. -/
theorem nextAvailable_isSome (h : idToKey.entries.length + 1 < 2 ^ 64) :
    (nextAvailable idToKey (idToKey.entries.length + 1) 0).isSome = true := by
  rw [isSome_iff_ne_none]
  intro hnone
  have hmem := mem_of_nextAvailable_eq_none hnone
  -- more different ids than entries
  have hsub : (List.range (idToKey.entries.length + 1)).map (fun i => (0 : UInt64) + 1 + UInt64.ofNat i) ⊆ idToKey.keys := by
    intro x hx
    obtain ⟨i, hi, rfl⟩ := mem_map.mp hx
    exact hmem i (mem_range.mp hi)
  have hnodup : ((List.range (idToKey.entries.length + 1)).map (fun i => (0 : UInt64) + 1 + UInt64.ofNat i)).Nodup := by
    refine List.Nodup.map_on ?_ nodup_range
    intro i hi j hj heq
    rw [mem_range] at hi hj
    have hnat := congrArg UInt64.toNat heq
    simp only [UInt64.toNat_add, UInt64.toNat_ofNat', UInt64.reduceToNat] at hnat
    omega
  have hle := (subperm_of_subset hnodup hsub).length_le
  rw [length_map, length_range] at hle
  have : idToKey.keys.length = idToKey.entries.length := length_map _
  omega

/-! ## The loop -/

def Injective (m : KeyMap) : Prop := ∀ k k' i, m.lookup k = some i → m.lookup k' = some i → k = k'

/-- What holds in the loop, begun with the map `stored`, after the keys `ks`. -/
structure KeyIDs.Inv (hash : Bytes → UInt64) (stored : KeyMap) (ks : List Bytes) (st : KeyIDs) : Prop where
  injective : Injective st.ids
  inverse : st.idToKey.entries = [] ∨ ∀ i k, st.idToKey.lookup i = some k ↔ st.ids.lookup k = some i
  kept : ∀ k i, stored.lookup k = some i → st.ids.lookup k = some i ∧ st.collisions.lookup k = none
  /-- A new key has its hash for its id, or is a collision. -/
  new : ∀ k i, st.ids.lookup k = some i → stored.lookup k = some i ∨
    (k ∈ ks ∧ (st.collisions.lookup k).getD (hash k) = i)
  collided : ∀ k, k ∉ st.ids → st.collisions.lookup k = none
  assigned : ∀ p ∈ st.assigned, st.ids.lookup p.1 = some p.2
  unchanged : st.newKeys = false → st.ids = stored ∧ st.collisions = ∅

variable {hash : Bytes → UInt64} {stored : KeyMap}

theorem lookup_populated (h : st.Inv hash stored ks) (i : UInt64) (k : Bytes) :
    (populated st).lookup i = some k ↔ st.ids.lookup k = some i := by
  unfold populated
  split
  · refine (lookup_insertAll_empty_iff ?_).trans ?_
    · intro e he e' he' hi hi'
      refine st.ids.nodupKeys.eq_of_fst_eq he he' (h.injective _ _ i ?_ ?_)
      · exact some.inj hi ▸ mem_lookup_iff.mpr he
      · exact some.inj hi' ▸ mem_lookup_iff.mpr he'
    · refine Iff.trans ?_ mem_lookup_iff.symm
      constructor
      · rintro ⟨⟨k', i'⟩, he, hi, rfl⟩
        cases hi
        exact he
      · intro he
        exact ⟨⟨k, i⟩, he, rfl, rfl⟩
  · rename_i hne
    exact h.inverse.resolve_left hne i k

theorem KeyIDs.Inv.init (h : Injective stored) :
    KeyIDs.Inv hash stored [] ⟨stored, ∅, ∅, false, ∅, []⟩ where
  injective := h
  inverse := .inl rfl
  kept _ _ hk := ⟨hk, rfl⟩
  new _ _ hk := .inl hk
  collided _ _ := rfl
  assigned _ hp := (nomatch hp)
  unchanged _ := ⟨rfl, rfl⟩

/-- A key without an id gets one that no key has. -/
theorem KeyIDs.Inv.store (h : st.Inv hash stored ks) {k : Bytes}
    {id : UInt64} {collisions : KeyMap} (values : Values) (hk : st.ids.lookup k = none)
    (hid : (populated st).lookup id = none)
    (hold : ∀ k', k' ≠ k → collisions.lookup k' = st.collisions.lookup k')
    (hnew : (collisions.lookup k).getD (hash k) = id) :
    KeyIDs.Inv hash stored (ks ++ [k]) { st.store (populated st) k id values with collisions := collisions } := by
  have hfree : ∀ k', st.ids.lookup k' ≠ some id := by
    intro k' hk'
    rw [(lookup_populated h id k').mpr hk'] at hid
    cases hid
  have hlookup : ∀ k' i, (st.ids.insert k id).lookup k' = some i ↔
      (k' = k ∧ i = id) ∨ (k' ≠ k ∧ st.ids.lookup k' = some i) := by
    intro k' i
    by_cases heq : k' = k
    · subst heq
      rw [lookup_insert]
      simp [eq_comm]
    · rw [lookup_insert_ne heq]
      simp [heq]
  have hne : ∀ {k' : Bytes} {i : UInt64}, st.ids.lookup k' = some i → k' ≠ k := by
    rintro k' i hk' rfl
    rw [hk] at hk'
    cases hk'
  refine ⟨?_, .inr ?_, ?_, ?_, ?_, ?_, fun hfalse => (nomatch hfalse)⟩
  · intro k₁ k₂ i h₁ h₂
    rcases (hlookup k₁ i).mp h₁ with ⟨rfl, rfl⟩ | ⟨-, hk₁⟩
    · rcases (hlookup k₂ i).mp h₂ with ⟨rfl, -⟩ | ⟨-, hk₂⟩
      · rfl
      · exact absurd hk₂ (hfree k₂)
    · rcases (hlookup k₂ i).mp h₂ with ⟨-, rfl⟩ | ⟨-, hk₂⟩
      · exact absurd hk₁ (hfree k₁)
      · exact h.injective k₁ k₂ i hk₁ hk₂
  · intro i k'
    refine Iff.trans ?_ (hlookup k' i).symm
    show ((populated st).insert id k).lookup i = some k' ↔ _
    by_cases hi : i = id
    · subst hi
      rw [lookup_insert, some.injEq]
      constructor
      · rintro rfl
        exact .inl ⟨rfl, rfl⟩
      · rintro (⟨rfl, -⟩ | ⟨-, hk'⟩)
        · rfl
        · exact absurd hk' (hfree k')
    · rw [lookup_insert_ne hi, lookup_populated h]
      constructor
      · exact fun hk' => .inr ⟨hne hk', hk'⟩
      · rintro (⟨-, hi'⟩ | ⟨-, hk'⟩)
        · exact absurd hi' hi
        · exact hk'
  · intro k' i hk'
    obtain ⟨hids, hcol⟩ := h.kept k' i hk'
    exact ⟨(hlookup k' i).mpr (.inr ⟨hne hids, hids⟩), (hold k' (hne hids)).trans hcol⟩
  · intro k' i hk'
    rcases (hlookup k' i).mp hk' with ⟨rfl, rfl⟩ | ⟨hkk, hk'⟩
    · exact .inr ⟨mem_append_right _ (mem_singleton_self _), hnew⟩
    · refine (h.new k' i hk').imp_right (fun hc => ⟨mem_append_left _ hc.1, ?_⟩)
      show (collisions.lookup k').getD (hash k') = i
      rw [hold k' hkk]
      exact hc.2
  · intro k' hk'
    have hmem : k' ≠ k ∧ k' ∉ st.ids := not_or.mp (fun hor => hk' ((mem_insert _).mpr hor))
    exact (hold k' hmem.1).trans (h.collided k' hmem.2)
  · exact forall_mem_cons.mpr ⟨(hlookup _ _).mpr (.inl ⟨rfl, rfl⟩),
      fun p hp => (hlookup _ _).mpr (.inr ⟨hne (h.assigned p hp), h.assigned p hp⟩)⟩

theorem KeyIDs.Inv.assign {st' : KeyIDs}
    (h : st.Inv hash stored ks) {k : Bytes} {values : Values} (hs : st.assign hash k values = some st') :
    st'.Inv hash stored (ks ++ [k]) := by
  unfold KeyIDs.assign at hs
  cases hk : st.ids.lookup k with
  | some id =>
    rw [hk] at hs
    cases hs
    refine ⟨h.injective, h.inverse, h.kept, ?_, h.collided, forall_mem_cons.mpr ⟨hk, h.assigned⟩, h.unchanged⟩
    exact fun k' i hk' => (h.new k' i hk').imp_right (fun hc => ⟨mem_append_left _ hc.1, hc.2⟩)
  | none =>
    rw [hk] at hs
    have hcol : st.collisions.lookup k = none := h.collided k (lookup_eq_none.mp hk)
    have hhash : (populated st).lookup (hash k) = none → (st.store (populated st) k (hash k) values).Inv hash stored
        (ks ++ [k]) :=
      fun hid => h.store values hk hid (fun _ _ => rfl) (by rw [hcol]; rfl)
    dsimp only at hs
    cases hid : (populated st).lookup (hash k) with
    | none =>
      rw [hid] at hs
      cases hs
      exact hhash hid
    | some existingKey =>
      rw [hid] at hs
      dsimp only at hs
      split at hs
      · obtain ⟨id, hnext, rfl⟩ := map_eq_some_iff.mp hs
        refine h.store values hk (lookup_nextAvailable hnext) ?_ ?_
        · exact fun k' hk' => lookup_insert_ne hk'
        · rw [lookup_insert]
          rfl
      · rename_i heq
        -- the key itself would have the id already
        rw [not_not] at heq
        subst heq
        rw [(lookup_populated h _ _).mp hid] at hk
        cases hk

/-- **What the loop makes of the stored map.** -/
theorem convertKeys_inv (hstored : Injective stored) {pointsByKey : List (Bytes × Values)}
    (h : convertKeys hash stored pointsByKey = some st) :
    st.Inv hash stored (pointsByKey.map Prod.fst) := by
  have hloop : ∀ {points : List (Bytes × Values)} {ks : List Bytes} {st₀ : KeyIDs}, st₀.Inv hash stored ks →
      points.foldlM (fun st p => st.assign hash p.1 p.2) st₀ = some st →
      st.Inv hash stored (ks ++ points.map Prod.fst) := by
    intro points
    induction points with
    | nil =>
      intro ks st₀ hinv hs
      cases hs
      rwa [map_nil, append_nil]
    | cons p points ih =>
      intro ks st₀ hinv hs
      obtain ⟨st₁, h₁, hs⟩ := bind_eq_some_iff.mp hs
      rw [map_cons, append_cons]
      exact ih (hinv.assign h₁) hs
  exact hloop (.init hstored) h

/-! ## The values of a batch -/

theorem KeyIDs.Inv.length_populated_le (h : st.Inv hash stored ks) :
    (populated st).entries.length ≤ st.ids.entries.length := by
  have hids : (populated st).keys ⊆ st.ids.entries.map Sigma.snd := fun i hi => by
    obtain ⟨k, hk⟩ := isSome_iff_exists.mp (lookup_isSome.mpr hi)
    exact mem_map.mpr ⟨⟨k, i⟩, mem_lookup_iff.mp ((lookup_populated h i k).mp hk), rfl⟩
  simpa [AList.keys, List.keys] using (subperm_of_subset (populated st).nodupKeys hids).length_le

/-- One round ends, and files the values under the id of the key. -/
theorem KeyIDs.Inv.exists_assign (h : st.Inv hash stored ks)
    (hroom : st.ids.entries.length + 1 < 2 ^ 64) (k : Bytes) (values : Values) :
    ∃ st' id, st.assign hash k values = some st' ∧ st'.ids.lookup k = some id ∧
      st'.valuesByID = st.valuesByID.insert id values ∧
      (∀ k' i, st.ids.lookup k' = some i → st'.ids.lookup k' = some i) ∧
      st'.ids.entries.length ≤ st.ids.entries.length + 1 := by
  unfold KeyIDs.assign
  cases hk : st.ids.lookup k with
  | some id => exact ⟨_, id, rfl, hk, rfl, fun _ _ h => h, Nat.le_succ _⟩
  | none =>
    have hkept : ∀ id k' i, st.ids.lookup k' = some i → (st.ids.insert k id).lookup k' = some i := by
      intro id k' i hk'
      rwa [lookup_insert_ne]
      rintro rfl
      cases hk.symm.trans hk'
    have hlen : ∀ id, (st.ids.insert k id).entries.length ≤ st.ids.entries.length + 1 := by
      intro id
      rw [entries_insert, length_cons, kerase]
      exact Nat.succ_le_succ length_eraseP_le
    dsimp only
    split
    · split
      · obtain ⟨id, hid⟩ := isSome_iff_exists.mp (nextAvailable_isSome
          (lt_of_le_of_lt (Nat.succ_le_succ h.length_populated_le) hroom))
        rw [hid]
        exact ⟨_, id, rfl, lookup_insert _, rfl, hkept id, hlen id⟩
      · exact ⟨_, _, rfl, lookup_insert _, rfl, hkept _, hlen _⟩
    · exact ⟨_, _, rfl, lookup_insert _, rfl, hkept _, hlen _⟩

end AndyEnv.Tsm1
