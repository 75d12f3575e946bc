import AndyEnv.Lib.Bytes
import AndyEnv.Meta.Operations
import Mathlib.Data.List.AList

/-!
# Authentication

A login that succeeds is cached with a salted hash of its password, next to the
metadata. Commands that drop or change a user remove the user from the cache;
metadata that is replaced as a whole leaves the cache as it is. `Authenticate` takes
the metadata under one lock, and looks at the cache under another.
-/

namespace AndyEnv.Meta

open Option

/-! ## The store -/

structure AuthUser : Type where
  salt : Bytes
  hash : Bytes
deriving DecidableEq, Repr

/-- A call of `Authenticate` that has taken the metadata. -/
structure Login : Type where
  username : String
  password : String
  data : Data

structure Store : Type where
  data : Data
  authCache : AList (fun _ : String => AuthUser)
  /-- The calls of `Authenticate`. -/
  logins : List Login
  /-- The snapshots that `updateMetaData` is about to take. -/
  fetched : List Data

inductive AuthError : Type
  | userNotFound
  | authenticate
  /-- The source of random numbers fails. -/
  | random
deriving DecidableEq, Repr

/-- `NewStore`. -/
def Store.new : Store := ⟨Data.empty, ∅, [], []⟩

inductive StoreOp : Type
  /-- `storeFSM.Apply`. -/
  | apply (now : Time) (e : Entry)
  /-- `storeFSM.Restore`. -/
  | restore (data : Data)
  /-- `updateMetaData`: the comparison. -/
  | fetch (ms : Data)
  /-- `updateMetaData`: the assignment. -/
  | replace (k : ℕ)
  /-- `Authenticate`: `read` takes the metadata. -/
  | read (username password : String)
  /-- `Authenticate`: the rest, with the salt if it can be generated. -/
  | authenticate (k : ℕ) (salt : Option Bytes)

/-- The user that the command removes from the cache. -/
def Command.forgets : Command → Option String
  | .dropUser name => some name
  | .updateUser name _ => some name
  | _ => none

/-- The handler of the command deletes its user from the cache when it has succeeded. -/
def Command.clearCache (cache : AList (fun _ : String => AuthUser)) (c : Command)
    (result : Except MetaError Data) : AList (fun _ : String => AuthUser) :=
  match result, c.forgets with
  | .ok _, some name => cache.erase name
  | _, _ => cache

section

variable (sort : List ShardGroupInfo → List ShardGroupInfo)
  -- `bcrypt.CompareHashAndPassword`
  (compareHashAndPassword : String → String → Bool)
  (hashWithSalt : Bytes → String → Bytes)

namespace Store

/-- The function that `Authenticate` gives to `read`. -/
def authenticate (s : Store) (data : Data) (username password : String) (salt : Option Bytes) :
    Except AuthError UserInfo × Store :=
  match data.user username with
  | none => (.error .userNotFound, s)
  | some u =>
    match s.authCache.lookup username with
    | some au =>
      -- verify the password using the cached salt and hash
      if hashWithSalt au.salt password = au.hash then (.ok u, s) else (.error .authenticate, s)
    | none =>
      if compareHashAndPassword u.hash password then
        match salt with
        | none => (.error .random, s)
        | some salt => (.ok u, { s with
            authCache := s.authCache.insert username ⟨salt, hashWithSalt salt password⟩ })
      else (.error .authenticate, s)

def step (s : Store) : StoreOp → Option Store
  | .apply now e => (s.data.applyLog sort now e).map (fun d => { s with
      data := d
      authCache := e.command.clearCache s.authCache (s.data.applyCommand sort now e.command) })
  | .restore data => some { s with data := data }
  | .fetch ms => some (if ms.index > s.data.index then { s with fetched := s.fetched ++ [ms] } else s)
  | .replace k =>
    (s.fetched[k]?).map (fun ms => { s with data := ms, fetched := s.fetched.eraseIdx k })
  | .read username password => some { s with logins := s.logins ++ [⟨username, password, s.data⟩] }
  | .authenticate k salt =>
    (s.logins[k]?).map (fun l =>
      { (s.authenticate compareHashAndPassword hashWithSalt l.data l.username l.password salt).2 with
        logins := s.logins.eraseIdx k })

def Matches (s : Store) (username password : String) : Prop :=
  ∃ ui, s.data.user username = some ui ∧ compareHashAndPassword ui.hash password = true

/-- Metadata that keeps the hashes of the users that are cached. -/
def KeepsCached (s : Store) (data : Data) : Prop :=
  ∀ username ∈ s.authCache,
    (data.user username).map UserInfo.hash = (s.data.user username).map UserInfo.hash

/-- Metadata that replaces the present one keeps the hashes of the users that are
cached; a login goes on as long as the hash of its user is the one that it took. -/
def Current (s : Store) : StoreOp → Prop
  | .apply _ e => ∀ data, e.command = .setData data → s.KeepsCached (Data.unmarshal data)
  | .restore data => s.KeepsCached data
  | .replace k => ∀ ms, s.fetched[k]? = some ms → s.KeepsCached ms
  | .authenticate k _ => ∀ l, s.logins[k]? = some l →
      (l.data.user l.username).map UserInfo.hash = (s.data.user l.username).map UserInfo.hash
  | _ => True

end Store

def storeSystem : System Store StoreOp where
  init s := s = Store.new
  step s op s' := s.step sort compareHashAndPassword hashWithSalt op = some s'

end

/-! ## Commands keep the hashes -/

section

variable {sort : List ShardGroupInfo → List ShardGroupInfo} {now : Time} {d d' : Data} {username : String}

theorem Data.hash_of_users_eq (h : d'.users = d.users) :
    (d'.user username).map UserInfo.hash = (d.user username).map UserInfo.hash := by
  unfold user
  rw [h]

/-- A user that exists keeps the hash, unless the command removes the user from the
cache or replaces the metadata. -/
theorem Data.hash_applyCommand {c : Command} (h : d.applyCommand sort now c = .ok d')
    (hset : ∀ data, c ≠ .setData data) (hforgets : c.forgets ≠ some username)
    (huser : (d.user username).isSome) :
    (d'.user username).map UserInfo.hash = (d.user username).map UserInfo.hash := by
  have hchange : ∀ {name : String} {g : UserInfo → UserInfo}, (∀ ui, (g ui).name = ui.name) →
      (∀ ui, (g ui).hash = ui.hash) → d.changeUser name (fun ui => [g ui]) = .ok d' →
      (d'.user username).map UserInfo.hash = (d.user username).map UserInfo.hash := by
    intro name g hname hhash h
    by_cases hne : username = name
    · subst hne
      rw [user_changeUser_self hname h, map_map]
      congr 1
      funext ui
      exact hhash ui
    · rw [user_changeUser_of_ne (fun ui ui' hui' => by rw [List.mem_singleton.mp hui', hname]) h hne]
  cases c with
  | removePeer id addr =>
    obtain rfl := Except.ok.inj h
    rfl
  | createNode host rand =>
    obtain ⟨other, hother, rfl⟩ := except_map_eq_ok.mp h
    rw [← hash_of_users_eq (users_createNode hother)]
    split <;> rfl
  | deleteNode id force =>
    simp only [applyCommand, deleteNode] at h
    split_ifs at h
    obtain rfl := Except.ok.inj h
    rfl
  | createDatabase name =>
    simp only [applyCommand, createDatabase] at h
    split_ifs at h
    obtain rfl := Except.ok.inj h
    rfl
  | createRetentionPolicy database name replicaN duration shardGroupDuration =>
    simp only [applyCommand, createRetentionPolicy] at h
    split_ifs at h
    exact hash_of_users_eq (users_changeDatabase h)
  | createShardGroup database policy timestamp =>
    obtain ⟨-, -, -, -, -, -, -, -, -, -, -, -, rfl⟩ := split_of_createShardGroup h
    rfl
  | createUser name hash admin =>
    simp only [applyCommand, createUser] at h
    split_ifs at h
    obtain rfl := Except.ok.inj h
    obtain ⟨ui, hui⟩ := isSome_iff_exists.mp huser
    unfold user at hui ⊢
    dsimp only
    rw [List.find?_append, hui, some_or]
  | dropUser name =>
    have hne : username ≠ name := fun heq => hforgets (congrArg some heq.symm)
    rw [user_changeUser_of_ne (fun ui ui' hui' => absurd hui' List.not_mem_nil) h hne]
  | updateUser name hash =>
    have hne : username ≠ name := fun heq => hforgets (congrArg some heq.symm)
    rw [user_changeUser_of_ne (fun ui ui' hui' => by rw [List.mem_singleton.mp hui']) h hne]
  | setPrivilege _ _ _ | setAdminPrivilege _ _ => refine hchange ?_ ?_ h <;> exact fun _ => rfl
  | setData data => exact absurd rfl (hset data)
  | updateNode id host =>
    obtain ⟨nodes, -, rfl⟩ := except_map_eq_ok.mp h
    rfl
  | _ => exact hash_of_users_eq (users_changeDatabase h)

end

/-! ## Runs -/

namespace Store

variable {sort : List ShardGroupInfo → List ShardGroupInfo}
  {compareHashAndPassword : String → String → Bool} {hashWithSalt : Bytes → String → Bytes} {s s' : Store}

variable (compareHashAndPassword hashWithSalt) in
/-- Each cached user exists, and the cached password matches the hash. -/
def CacheValid (s : Store) : Prop :=
  ∀ username au, s.authCache.lookup username = some au → ∃ ui, s.data.user username = some ui ∧
      ∃ password, hashWithSalt au.salt password = au.hash ∧
        compareHashAndPassword ui.hash password = true

section

variable (h : s.CacheValid compareHashAndPassword hashWithSalt)
include h

/-- The cache stays valid as long as the cached users keep their hashes. -/
theorem CacheValid.of_hash (hcache : ∀ username au, s'.authCache.lookup username = some au →
      s.authCache.lookup username = some au)
    (hhash : ∀ username ∈ s'.authCache, (s.data.user username).isSome →
      (s'.data.user username).map UserInfo.hash = (s.data.user username).map UserInfo.hash) :
    s'.CacheValid compareHashAndPassword hashWithSalt := by
  intro username au hau
  obtain ⟨ui, hui, password, hsalted, hmatch⟩ := h username au (hcache username au hau)
  have hmem : username ∈ s'.authCache := by
    rw [← AList.lookup_isSome, hau]
    rfl
  have hsame := hhash username hmem (by rw [hui]; rfl)
  rw [hui] at hsame
  obtain ⟨ui', hui', heq⟩ := map_eq_some_iff.mp hsame
  exact ⟨ui', hui', password, hsalted, by rw [heq]; exact hmatch⟩

theorem CacheValid.replace {data : Data}
    (hkeeps : s.KeepsCached data) (husers : s'.data.users = data.users) (hcache : s'.authCache = s.authCache) :
    s'.CacheValid compareHashAndPassword hashWithSalt := by
  apply h.of_hash
  · rw [hcache]
    exact fun _ _ hau => hau
  · rw [hcache]
    exact fun username hmem _ => (Data.hash_of_users_eq husers).trans (hkeeps username hmem)

theorem CacheValid.apply {now : Time} {e : Entry} (hcurrent : s.Current (.apply now e))
    (hstep : s.step sort compareHashAndPassword hashWithSalt (.apply now e) = some s') :
    s'.CacheValid compareHashAndPassword hashWithSalt := by
  obtain ⟨d, hd, rfl⟩ := map_eq_some_iff.mp hstep
  rw [Data.applyLog] at hd
  cases hresult : s.data.applyCommand sort now e.command with
  | error err =>
    rw [hresult] at hd
    apply h.of_hash
    · intro username au hau
      exact hau
    · intro username _ _
      cases err with
      | runtime => cases hd
      | _ =>
        rw [← some.inj hd]
        rfl
  | ok other =>
    rw [hresult] at hd
    obtain rfl := some.inj hd
    by_cases hset : ∃ data, e.command = .setData data
    · obtain ⟨data, hset⟩ := hset
      rw [hset] at hresult
      obtain rfl := Except.ok.inj hresult
      refine h.replace (hcurrent data hset) rfl ?_
      simp only [hset, Command.clearCache, Command.forgets]
    · cases hforgets : e.command.forgets with
      | none =>
        apply h.of_hash
        · intro username au hau
          simpa only [Command.clearCache, hforgets] using hau
        · intro username _ huser
          have hhash := Data.hash_applyCommand hresult (fun data hdata => hset ⟨data, hdata⟩)
            (by rw [hforgets]; exact nofun) huser
          exact hhash
      | some name =>
        have hne : ∀ username, username ∈ s.authCache.erase name → username ≠ name := by
          rintro username hmem rfl
          exact (AList.mem_erase.mp hmem).1 rfl
        apply h.of_hash
        · intro username au hau
          simp only [Command.clearCache, hforgets] at hau
          have hmem : username ∈ s.authCache.erase name := by
            rw [← AList.lookup_isSome, hau]
            rfl
          rwa [AList.lookup_erase_ne (hne username hmem)] at hau
        · intro username hmem huser
          simp only [Command.clearCache, hforgets] at hmem
          have hkept : e.command.forgets ≠ some username := by
            rw [hforgets]
            intro heq
            exact hne username hmem (some.inj heq).symm
          have hhash := Data.hash_applyCommand hresult (fun data hdata => hset ⟨data, hdata⟩) hkept
            huser
          exact hhash

/-- A login that goes on with the hash of its user. -/
theorem CacheValid.authenticate
    {data : Data} {username : String} (password : String) (salt : Option Bytes)
    (hcurrent : (data.user username).map UserInfo.hash = (s.data.user username).map UserInfo.hash) :
    (s.authenticate compareHashAndPassword hashWithSalt data username password salt).2.CacheValid
      compareHashAndPassword hashWithSalt := by
  unfold Store.authenticate
  split
  · exact h
  rename_i u hu
  split
  · split
    · exact h
    · exact h
  split
  · rename_i hmatch
    split
    · exact h
    rename_i salt
    intro name au hau
    dsimp only at hau ⊢
    by_cases hname : name = username
    · subst hname
      rw [AList.lookup_insert] at hau
      obtain rfl := some.inj hau
      rw [hu] at hcurrent
      obtain ⟨ui, hui, heq⟩ := map_eq_some_iff.mp hcurrent.symm
      exact ⟨ui, hui, password, rfl, by rw [heq]; exact hmatch⟩
    · rw [AList.lookup_insert_ne hname] at hau
      exact h name au hau
  · exact h

/-- **A step keeps the cache valid.** -/
theorem CacheValid.step {op : StoreOp} (hcurrent : s.Current op)
    (hstep : s.step sort compareHashAndPassword hashWithSalt op = some s') :
    s'.CacheValid compareHashAndPassword hashWithSalt := by
  cases op with
  | apply now e => exact h.apply hcurrent hstep
  | restore data =>
    obtain rfl := some.inj hstep
    exact h.replace hcurrent rfl rfl
  | fetch ms =>
    obtain rfl := some.inj hstep
    split
    · exact h
    · exact h
  | replace k =>
    obtain ⟨ms, hms, rfl⟩ := map_eq_some_iff.mp hstep
    exact h.replace (hcurrent ms hms) rfl rfl
  | read username password =>
    obtain rfl := some.inj hstep
    exact h
  | authenticate k salt =>
    obtain ⟨l, hl, rfl⟩ := map_eq_some_iff.mp hstep
    have hvalid := h.authenticate l.password salt (hcurrent l hl)
    exact hvalid

end

theorem CacheValid.matches_of_ok (hinj : ∀ salt, Function.Injective (hashWithSalt salt))
    (h : s.CacheValid compareHashAndPassword hashWithSalt)
    {data : Data} {username password : String} {salt : Option Bytes} {u : UserInfo}
    (hcurrent : (data.user username).map UserInfo.hash = (s.data.user username).map UserInfo.hash)
    (hok : (s.authenticate compareHashAndPassword hashWithSalt data username password salt).1 = .ok u) :
    s.Matches compareHashAndPassword username password := by
  unfold Store.authenticate at hok
  split at hok
  · cases hok
  rename_i u' hu'
  rw [hu'] at hcurrent
  obtain ⟨ui, hui, heq⟩ := map_eq_some_iff.mp hcurrent.symm
  split at hok
  · rename_i au hau
    split at hok
    · rename_i hsalted
      obtain ⟨ui', hui', password', hsalted', hmatch⟩ := h username au hau
      obtain rfl := hinj au.salt (hsalted'.trans hsalted.symm)
      exact ⟨ui', hui', hmatch⟩
    · cases hok
  · split at hok
    · rename_i hmatch
      exact ⟨ui, hui, by rw [heq]; exact hmatch⟩
    · cases hok

end Store

/-- **Authentication follows the metadata.** In a run whose steps are all current, a call
of `Authenticate` that goes on with the hash of its user succeeds only if the user
exists and the password matches. -/
theorem authenticate_matches (sort : List ShardGroupInfo → List ShardGroupInfo)
    (compareHashAndPassword : String → String → Bool) (hashWithSalt : Bytes → String → Bytes)
    (hinj : ∀ salt, Function.Injective (hashWithSalt salt)) (s : Store)
    (hs : (storeSystem sort compareHashAndPassword hashWithSalt).Reaches Store.Current s)
    (k : ℕ) (salt : Option Bytes) (hcurrent : s.Current (.authenticate k salt))
    (l : Login) (hl : s.logins[k]? = some l) (u : UserInfo)
    (hok : (s.authenticate compareHashAndPassword hashWithSalt l.data l.username l.password salt).1 =
      .ok u) :
    s.Matches compareHashAndPassword l.username l.password := by
  have hvalid : s.CacheValid compareHashAndPassword hashWithSalt := by
    refine hs.invariant (I := Store.CacheValid compareHashAndPassword hashWithSalt) (fun s hs => ?_)
      (fun s op s' h hcurrent hstep => h.step hcurrent hstep)
    rw [show s = Store.new from hs]
    intro username au hau
    cases hau
  exact hvalid.matches_of_ok hinj (hcurrent l hl) hok

/-- A salted hash that can be read. -/
def plainHash (salt : Bytes) (password : String) : Bytes := salt ++ password.toByteArray.data.toList

theorem plainHash_injective (salt : Bytes) : Function.Injective (plainHash salt) := by
  intro p q h
  have hdata := Array.toList_inj.mp (List.append_cancel_left h)
  exact String.toByteArray_inj.mp (ByteArray.ext hdata)

/-- The second login of a user, which is in the cache. -/
theorem authenticate_matches_cached : ∃ s : Store, s.authCache.keys = ["bob"] ∧
    s.Matches (fun hash password => hash == password) "bob" "x" := by
  have hread : (storeSystem id (fun hash password => hash == password) plainHash).Reaches
      Store.Current _ :=
    .step (l := .read "bob" "x")
      (.step (l := .apply 0 ⟨1, 1, .createUser "bob" "x" false⟩) (.init rfl) nofun rfl) trivial rfl
  have hagain : (storeSystem id (fun hash password => hash == password) plainHash).Reaches
      Store.Current _ :=
    .step (l := .read "bob" "x") (.step (l := .authenticate 0 (some [])) hread
      (fun l hl => by obtain rfl := some.inj hl; rfl) rfl) trivial rfl
  refine ⟨_, rfl, authenticate_matches id _ plainHash plainHash_injective _ hagain 0 none
    (fun l hl => ?_) _ rfl _ rfl⟩
  obtain rfl := some.inj hl
  rfl

/-- After a `SetData` the old password is still accepted; so is one that is changed during the
login. -/
theorem authenticate_old_password :
    (∃ s : Store, (storeSystem id (fun hash password => hash == password) plainHash).Reachable s ∧
      ∃ l u, s.logins[0]? = some l ∧
        (s.authenticate (fun hash password => hash == password) plainHash l.data l.username l.password
          none).1 = .ok u ∧
        ¬s.Matches (fun hash password => hash == password) l.username l.password) ∧
    ∃ s : Store, (storeSystem id (fun hash password => hash == password) plainHash).Reachable s ∧
      ∃ l u, s.logins[0]? = some l ∧
        (s.authenticate (fun hash password => hash == password) plainHash l.data l.username l.password
          (some [])).1 = .ok u ∧
        ¬s.Matches (fun hash password => hash == password) l.username l.password := by
  have hread : (storeSystem id (fun hash password => hash == password) plainHash).Reachable _ :=
    .step (l := .read "bob" "x")
      (.step (l := .apply 0 ⟨1, 1, .createUser "bob" "x" false⟩) (.init rfl) trivial rfl) trivial rfl
  constructor
  · refine ⟨_, .step (l := .read "bob" "x") (.step
      (l := .apply 0 ⟨1, 2, .setData ⟨0, 0, 0, [], [], [⟨"bob", "y", false, []⟩], 0, 0, 0⟩⟩)
      (.step (l := .authenticate 0 (some [])) hread trivial rfl) trivial rfl) trivial rfl,
      _, _, rfl, rfl, ?_⟩
    rintro ⟨ui, hui, hmatch⟩
    obtain rfl := some.inj hui
    exact absurd hmatch (by decide)
  · refine ⟨_, .step (l := .apply 0 ⟨1, 2, .updateUser "bob" "y"⟩) hread trivial rfl,
      _, _, rfl, rfl, ?_⟩
    rintro ⟨ui, hui, hmatch⟩
    obtain rfl := some.inj hui
    exact absurd hmatch (by decide)

end AndyEnv.Meta
