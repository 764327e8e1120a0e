/-
# Creation times of routes (`internal/pkg/db`, `internal/pkg/db/redis`, `internal/pkg/db/dynamo`)

The three route storers stamp a route when they store it: `Modified` is the time of the set, and
`Created` is taken over from the stored route if there is one.  So each set reads before it
writes.  The read can fail although the route is there: the storer for DynamoDB then gives
up, but the one for Redis takes every error for the absence of the route.

`times_kept_iff`: `Created` is the time of the first set since the last deletion, and `Modified`
that of the last one, in every state that the calls go through; for Redis, exactly when no set of a
stored route gets through after its read has failed, unless the clock says the same second.
-/
import Ears.Tenant
import Ears.Runs

namespace RouteStorer

/-- `route.Config`: the storers read the tenant, the id and the times; `rest` are its other
fields. -/
structure Config (ν : Type) where
  tenantId : Tenant.Id
  id : String
  rest : ν
  created : ℤ
  modified : ℤ
  deriving DecidableEq

/-- The errors of the storers: a text, or one of the error types with the text it wraps. -/
inductive StorerError where
  | text (s : String)
  | routeNotFound (tid : Tenant.Id) (id : String)
  | newSession (source : String)
  | getItem (source : String)
  | marshal (source : String)
  | putItem (source : String)
  | deleteItem (source : String)
  deriving DecidableEq, Repr

/-- What the backend answers to the requests of a call: an error, or `none` when it does what it is
asked to. -/
structure Faults where
  read : Option String := none
  write : Option String := none
  deriving DecidableEq

/-- How a backend represents configurations: what is encoded can be decoded, and its times are as
before. -/
structure Codec (ν W : Type) where
  encode : Config ν → Except String W
  decode : W → Except String (Config ν)
  decode_encode : ∀ c w, encode c = .ok w →
    ∃ c', decode w = .ok c' ∧ c'.created = c.created ∧ c'.modified = c.modified

/-- `json.Marshal` and `json.Unmarshal` of a configuration, which has a text that is not empty. -/
structure JsonCodec (ν : Type) extends Codec ν String where
  encode_ne_empty : ∀ c w, encode c = .ok w → w ≠ ""

/-- A set of one route: the configuration, the clock and the backend's answers. -/
structure SetItem (ν : Type) where
  config : Config ν
  now : ℤ
  faults : Faults := {}

/-! ## The storers -/

/-- A storer: `get` is `GetRoute` when the backend answers, `set` is `setRoute` (`SetRoute` for
Redis), `delete` is the deletion of one route, `connect` is what the calls do first, and
`nilRoutes` what `SetRoutes` does without a slice. -/
structure Storer (ν T : Type) where
  empty : T
  get : T → Tenant.Id → String → Option (Config ν)
  set : T → SetItem ν → Except StorerError T
  delete : T → Tenant.Id → String → Faults → Except StorerError T
  connect : Option String → Except StorerError Unit
  nilRoutes : Except StorerError Unit

variable {ν T W : Type}

namespace InMemory

/-- `tenants`, by tenant key and route id. -/
abbrev Table (ν : Type) := String → Option (String → Option (Config ν))

/-- `GetRoute`. -/
def getRoute (s : Table ν) (tid : Tenant.Id) (id : String) : Except StorerError (Config ν) :=
  match s tid.key with
  | none => .error (.routeNotFound tid id)
  | some t =>
      match t id with
      | none => .error (.routeNotFound tid id)
      | some r => .ok r

/-- `setRoute`. -/
def setRoute (s : Table ν) (r : Config ν) (now : ℤ) : Table ν :=
  let r := { r with modified := now }
  let tenant := (s r.tenantId.key).getD fun _ => none
  let r :=
    match tenant r.id with
    | none => { r with created := r.modified }
    | some existing => { r with created := existing.created }
  Function.update s r.tenantId.key (some (Function.update tenant r.id (some r)))

/-- `DeleteRoute`. -/
def deleteRoute (s : Table ν) (tid : Tenant.Id) (id : String) : Table ν :=
  match s tid.key with
  | none => s
  | some t => Function.update s tid.key (some (Function.update t id none))

/-- `InMemoryRouteStorer`: nothing fails. -/
def storer (ν : Type) : Storer ν (Table ν) where
  empty := fun _ => none
  get s tid id := (getRoute s tid id).toOption
  set s i := .ok (setRoute s i.config i.now)
  delete s tid id _ := .ok (deleteRoute s tid id)
  connect _ := .ok ()
  nilRoutes := .ok ()

end InMemory

namespace Redis

/-- The hash `routes`. -/
abbrev Table := String → Option String

/-- `GetRoute`; a field that is not there is the error "redis: nil". -/
def getRoute (json : JsonCodec ν) (d : Table) (tid : Tenant.Id) (id : String)
    (read : Option String) : Except StorerError (Config ν) :=
  match read with
  | some err =>
      if err = "redis: nil" then .error (.routeNotFound tid id)
      else .error (.text ("could not get route from redis: " ++ err))
  | none =>
      match d (tid.keyWithRoute id) with
      | none => .error (.routeNotFound tid id)
      | some result =>
          if result = "" then .error (.routeNotFound tid id)
          else
            match json.decode result with
            | .error err => .error (.text err)
            | .ok r => .ok r

/-- The end of `SetRoute`: the route is marshalled and written. -/
def hset (json : JsonCodec ν) (d : Table) (r : Config ν) (write : Option String) :
    Except StorerError Table :=
  match json.encode r with
  | .error err => .error (.text err)
  | .ok val =>
      match write with
      | some err => .error (.text ("could not insert route into redis: " ++ err))
      | none => .ok (Function.update d (r.tenantId.keyWithRoute r.id) (some val))

/-- `SetRoute`. -/
def setRoute (json : JsonCodec ν) (d : Table) (r : Config ν) (now : ℤ) (faults : Faults) :
    Except StorerError Table :=
  if r.id = "" then .error (.text "no route to store in redis")
  else
    let r := { r with modified := now }
    let r :=
      match getRoute json d r.tenantId r.id faults.read with
      | .ok oldRoute => { r with created := oldRoute.created }
      | .error _ => { r with created := r.modified }
    hset json d r faults.write

/-- `DeleteRoute`. -/
def deleteRoute (d : Table) (tid : Tenant.Id) (id : String) (faults : Faults) :
    Except StorerError Table :=
  if id = "" then .error (.text "no route to delete in bolt")
  else
    match faults.write with
    | some err => .error (.text ("could not delete route from redis: " ++ err))
    | none => .ok (Function.update d (tid.keyWithRoute id) none)

/-- `RedisDbStorer`. -/
def storer (json : JsonCodec ν) : Storer ν Table where
  empty := fun _ => none
  get d tid id := (getRoute json d tid id none).toOption
  set d i := setRoute json d i.config i.now i.faults
  delete := deleteRoute
  connect _ := .ok ()
  nilRoutes := .error (.text "no routes to store in bolt")

end Redis

namespace Dynamo

/-- The table, by the key `id`. -/
abbrev Table (W : Type) := String → Option W

/-- `getRoute`. -/
def getRoute (av : Codec ν W) (d : Table W) (tid : Tenant.Id) (routeId : String)
    (read : Option String) : Except StorerError (Config ν) :=
  match read with
  | some err => .error (.getItem err)
  | none =>
      match d (tid.keyWithRoute routeId) with
      | none => .error (.routeNotFound tid routeId)
      | some item =>
          match av.decode item with
          | .error err => .error (.marshal err)
          | .ok r => .ok r

/-- The end of `setRoute`: the route is encoded and written. -/
def putItem (av : Codec ν W) (d : Table W) (r : Config ν) (write : Option String) :
    Except StorerError (Table W) :=
  match av.encode r with
  | .error err => .error (.marshal err)
  | .ok item =>
      match write with
      | some err => .error (.putItem err)
      | none => .ok (Function.update d (r.tenantId.keyWithRoute r.id) (some item))

/-- `setRoute` after the read, with the stored route if there is one. -/
def putRoute (av : Codec ν W) (d : Table W) (r : Config ν) (now : ℤ)
    (oldRoute : Option (Config ν)) (write : Option String) : Except StorerError (Table W) :=
  let r := { r with created := now, modified := now }
  let r :=
    match oldRoute with
    | some old => { r with created := old.created }
    | none => r
  putItem av d r write

/-- `setRoute`. -/
def setRoute (av : Codec ν W) (d : Table W) (r : Config ν) (now : ℤ) (faults : Faults) :
    Except StorerError (Table W) :=
  match getRoute av d r.tenantId r.id faults.read with
  | .ok oldRoute => putRoute av d r now (some oldRoute) faults.write
  | .error (.routeNotFound _ _) => putRoute av d r now none faults.write
  | .error err => .error err

/-- `deleteRoute`. -/
def deleteRoute (d : Table W) (tid : Tenant.Id) (id : String) (faults : Faults) :
    Except StorerError (Table W) :=
  match faults.write with
  | some err => .error (.deleteItem err)
  | none => .ok (Function.update d (tid.keyWithRoute id) none)

/-- `DynamoDbStorer`. -/
def storer (av : Codec ν W) : Storer ν (Table W) where
  empty := fun _ => none
  get d tid id := (getRoute av d tid id none).toOption
  set d i := setRoute av d i.config i.now i.faults
  delete := deleteRoute
  connect session :=
    match session with
    | some err => .error (.newSession err)
    | none => .ok ()
  nilRoutes := .ok ()

end Dynamo

/-! ## Calls -/

/-- What was stored and deleted. -/
inductive Entry where
  | set (tid : Tenant.Id) (id : String) (now : ℤ)
  | deleted (tid : Tenant.Id) (id : String)
  deriving DecidableEq

/-- A storer's table with the history of what was stored and deleted. -/
structure Store (T : Type) where
  table : T
  history : List Entry

/-- The calls, with what a new session answers; `SetRoutes` may get no slice. -/
inductive Call (ν : Type) where
  | setRoute (session : Option String) (i : SetItem ν)
  | setRoutes (session : Option String) (routes : Option (List (SetItem ν)))
  | deleteRoute (session : Option String) (tid : Tenant.Id) (id : String) (faults : Faults)

/-- What a call does to one route. -/
inductive Step (ν : Type) where
  | set (i : SetItem ν)
  | delete (tid : Tenant.Id) (id : String) (faults : Faults)

namespace Storer

variable (st : Storer ν T)

/-- An empty storer. -/
def start : Store T := ⟨st.empty, []⟩

/-- Set one route. -/
def setOne (s : Store T) (i : SetItem ν) : Except StorerError (Store T) :=
  match st.set s.table i with
  | .error err => .error err
  | .ok t => .ok ⟨t, s.history ++ [.set i.config.tenantId i.config.id i.now]⟩

/-- Delete one route. -/
def deleteOne (s : Store T) (tid : Tenant.Id) (id : String) (faults : Faults) :
    Except StorerError (Store T) :=
  match st.delete s.table tid id faults with
  | .error err => .error err
  | .ok t => .ok ⟨t, s.history ++ [.deleted tid id]⟩

/-- The loop of `SetRoutes`: the first error stops it. -/
def setEach (s : Store T) : List (SetItem ν) → Store T × Except StorerError Unit
  | [] => (s, .ok ())
  | i :: is =>
      match st.setOne s i with
      | .error err => (s, .error err)
      | .ok s' => setEach s' is

/-- The store after a change that may fail. -/
def settle (s : Store T) : Except StorerError (Store T) → Store T × Except StorerError Unit
  | .error err => (s, .error err)
  | .ok s' => (s', .ok ())

/-- `SetRoute`, `SetRoutes` and `DeleteRoute`. -/
def call (s : Store T) : Call ν → Store T × Except StorerError Unit
  | .setRoute session i =>
      match st.connect session with
      | .error err => (s, .error err)
      | .ok () => settle s (st.setOne s i)
  | .setRoutes session routes =>
      match st.connect session with
      | .error err => (s, .error err)
      | .ok () =>
          match routes with
          | none => (s, st.nilRoutes)
          | some is => st.setEach s is
  | .deleteRoute session tid id faults =>
      match st.connect session with
      | .error err => (s, .error err)
      | .ok () => settle s (st.deleteOne s tid id faults)

/-- The store after calls in order. -/
def calls (s : Store T) : List (Call ν) → Store T
  | [] => s
  | c :: cs => calls (st.call s c).1 cs

/-! ## Steps -/

/-- A set or a deletion; one that fails changes nothing. -/
def step (s : Store T) : Step ν → Option (Store T)
  | .set i => some (settle s (st.setOne s i)).1
  | .delete tid id faults => some (settle s (st.deleteOne s tid id faults)).1

/-- The sets that the loop of `SetRoutes` comes to. -/
def setsOf (s : Store T) : List (SetItem ν) → List (Step ν)
  | [] => []
  | i :: is =>
      match st.setOne s i with
      | .error _ => [.set i]
      | .ok s' => .set i :: setsOf s' is

/-- The sets and deletions that a call comes to. -/
def stepsOf (s : Store T) : Call ν → List (Step ν)
  | .setRoute session i =>
      match st.connect session with
      | .error _ => []
      | .ok () => [.set i]
  | .setRoutes session routes =>
      match st.connect session with
      | .error _ => []
      | .ok () => st.setsOf s (routes.getD [])
  | .deleteRoute session tid id faults =>
      match st.connect session with
      | .error _ => []
      | .ok () => [.delete tid id faults]

/-- The sets and deletions of calls in order. -/
def steps (s : Store T) : List (Call ν) → List (Step ν)
  | [] => []
  | c :: cs => st.stepsOf s c ++ steps (st.call s c).1 cs

/-- The loop of `SetRoutes` takes its steps. -/
theorem run_setsOf (s : Store T) (is : List (SetItem ν)) :
    Runs.run st.step s (st.setsOf s is) = some (st.setEach s is).1 := by
  induction is generalizing s with
  | nil => rfl
  | cons i is ih =>
      unfold setsOf setEach
      cases hset : st.setOne s i with
      | error err =>
          dsimp only
          rw [Runs.run_singleton, step, hset]
          rfl
      | ok s' =>
          dsimp only
          rw [Runs.run_cons, step, hset]
          exact ih s'

/-- A call takes its steps. -/
theorem run_stepsOf (s : Store T) (c : Call ν) :
    Runs.run st.step s (st.stepsOf s c) = some (st.call s c).1 := by
  cases c with
  | setRoute session i =>
      unfold stepsOf call
      dsimp only
      cases st.connect session with
      | error err => rfl
      | ok _ => exact Runs.run_singleton
  | setRoutes session routes =>
      unfold stepsOf call
      dsimp only
      cases st.connect session with
      | error err => rfl
      | ok _ =>
          cases routes with
          | none => rfl
          | some is => exact st.run_setsOf s is
  | deleteRoute session tid id faults =>
      unfold stepsOf call
      dsimp only
      cases st.connect session with
      | error err => rfl
      | ok _ => exact Runs.run_singleton

/-- Calls in order take their steps in order. -/
theorem run_steps (s : Store T) (cs : List (Call ν)) :
    Runs.run st.step s (st.steps s cs) = some (st.calls s cs) := by
  induction cs generalizing s with
  | nil => rfl
  | cons c cs ih =>
      unfold steps calls
      rw [Runs.run_append, st.run_stepsOf s c]
      exact ih _

end Storer

/-! ## The property -/

/-- The times of the sets of a route since its last deletion. -/
def setTimes (tid : Tenant.Id) (id : String) (history : List Entry) : List ℤ :=
  history.foldl (fun times entry =>
    match entry with
    | .set tid' id' now => if tid' = tid ∧ id' = id then times ++ [now] else times
    | .deleted tid' id' => if tid' = tid ∧ id' = id then [] else times) []

variable {st : Storer ν T} {s s' : Store T}

/-- The times of a stored route are those of the first and of the last set since its last
deletion. -/
def KeepsTimes (st : Storer ν T) (s : Store T) : Prop :=
  ∀ tid id c, st.get s.table tid id = some c →
    (setTimes tid id s.history).head? = some c.created ∧
      (setTimes tid id s.history).getLast? = some c.modified

/-- And a route that is not stored was not set since its last deletion. -/
structure Inv (st : Storer ν T) (s : Store T) : Prop where
  times : KeepsTimes st s
  absent : ∀ tid id, st.get s.table tid id = none → setTimes tid id s.history = []

theorem setTimes_set (tid tid' : Tenant.Id) (id id' : String) (now : ℤ) (history : List Entry) :
    setTimes tid id (history ++ [.set tid' id' now]) =
      if tid' = tid ∧ id' = id then setTimes tid id history ++ [now]
      else setTimes tid id history := by
  unfold setTimes
  rw [List.foldl_append]
  rfl

theorem setTimes_deleted (tid tid' : Tenant.Id) (id id' : String) (history : List Entry) :
    setTimes tid id (history ++ [.deleted tid' id']) =
      if tid' = tid ∧ id' = id then [] else setTimes tid id history := by
  unfold setTimes
  rw [List.foldl_append]
  rfl

/-- A table after a set: the route has the time of the set, and other routes are as before. -/
structure SetTo (st : Storer ν T) (t t' : T) (i : SetItem ν) (c : Config ν) : Prop where
  stored : st.get t' i.config.tenantId i.config.id = some c
  modified : c.modified = i.now
  others : ∀ tid id, ¬ (i.config.tenantId = tid ∧ i.config.id = id) →
    st.get t' tid id = st.get t tid id

/-- The creation time after a set that found what is stored. -/
def createdBy (old : Option (Config ν)) (now : ℤ) : ℤ := (old.map Config.created).getD now

/-- A configuration with its times. -/
def Config.stamped (r : Config ν) (created modified : ℤ) : Config ν :=
  { r with created := created, modified := modified }

/-- A set that takes the creation time over keeps the invariant. -/
theorem Inv.set {t' : T} {i : SetItem ν} {c : Config ν} (h : Inv st s)
    (hset : SetTo st s.table t' i c)
    (hcreated : c.created = createdBy (st.get s.table i.config.tenantId i.config.id) i.now) :
    Inv st ⟨t', s.history ++ [.set i.config.tenantId i.config.id i.now]⟩ where
  times := by
    intro tid id c' hc'
    dsimp only at hc' ⊢
    rw [setTimes_set]
    by_cases hkey : i.config.tenantId = tid ∧ i.config.id = id
    · obtain ⟨rfl, rfl⟩ := hkey
      rw [hset.stored] at hc'
      obtain rfl := Option.some.inj hc'
      rw [if_pos ⟨rfl, rfl⟩, List.getLast?_concat, hset.modified, hcreated]
      refine ⟨?_, rfl⟩
      cases hold : st.get s.table i.config.tenantId i.config.id with
      | none =>
          rw [h.absent _ _ hold]
          rfl
      | some old =>
          rw [List.head?_append, (h.times _ _ old hold).1]
          rfl
    · rw [if_neg hkey]
      rw [hset.others tid id hkey] at hc'
      exact h.times tid id c' hc'
  absent := by
    intro tid id hnone
    dsimp only at hnone ⊢
    rw [setTimes_set]
    by_cases hkey : i.config.tenantId = tid ∧ i.config.id = id
    · obtain ⟨rfl, rfl⟩ := hkey
      rw [hset.stored] at hnone
      cases hnone
    · rw [if_neg hkey]
      rw [hset.others tid id hkey] at hnone
      exact h.absent tid id hnone

/-- A deletion keeps the invariant. -/
theorem Inv.delete {t' : T} {tid : Tenant.Id} {id : String} (h : Inv st s)
    (hnone : st.get t' tid id = none)
    (hothers : ∀ tid' id', ¬ (tid = tid' ∧ id = id') →
      st.get t' tid' id' = st.get s.table tid' id') :
    Inv st ⟨t', s.history ++ [.deleted tid id]⟩ where
  times := by
    intro tid' id' c hc
    dsimp only at hc ⊢
    rw [setTimes_deleted]
    by_cases hkey : tid = tid' ∧ id = id'
    · obtain ⟨rfl, rfl⟩ := hkey
      rw [hnone] at hc
      cases hc
    · rw [if_neg hkey]
      rw [hothers tid' id' hkey] at hc
      exact h.times tid' id' c hc
  absent := by
    intro tid' id' hnone'
    dsimp only at hnone' ⊢
    rw [setTimes_deleted]
    by_cases hkey : tid = tid' ∧ id = id'
    · rw [if_pos hkey]
    · rw [if_neg hkey]
      rw [hothers tid' id' hkey] at hnone'
      exact h.absent tid' id' hnone'

/-! ## In memory -/

theorem InMemory.key_inj {tid tid' : Tenant.Id} : tid.key = tid'.key ↔ tid = tid' := by
  constructor
  · intro h
    have hroute : tid.keyWithRoute "" = tid'.keyWithRoute "" := by
      unfold Tenant.Id.keyWithRoute
      rw [h]
    exact (Tenant.keyWithRoute_inj.mp hroute).1
  · exact congrArg Tenant.Id.key

namespace InMemory

/-- A stored route, by tenant and id. -/
theorem get_eq (t : Table ν) (tid : Tenant.Id) (id : String) :
    (storer ν).get t tid id = (t tid.key).bind fun tenant => tenant id := by
  show (getRoute t tid id).toOption = _
  unfold getRoute
  cases t tid.key with
  | none => rfl
  | some tenant =>
      dsimp only [Option.bind_some]
      cases tenant id with
      | none => rfl
      | some r => rfl

theorem get_update (t : Table ν) (tid tid' : Tenant.Id) (id : String)
    (tenant : String → Option (Config ν)) :
    (storer ν).get (Function.update t tid.key (some tenant)) tid' id =
      if tid = tid' then tenant id else (storer ν).get t tid' id := by
  rw [get_eq, get_eq]
  by_cases h : tid = tid'
  · rw [if_pos h, ← h, Function.update_self]
    rfl
  · rw [if_neg h, Function.update_of_ne fun hkey => h (key_inj.mp hkey).symm]

theorem get_getD (t : Table ν) (tid : Tenant.Id) (id : String) :
    ((t tid.key).getD fun _ => none) id = (storer ν).get t tid id := by
  rw [get_eq]
  cases t tid.key with
  | none => rfl
  | some tenant => rfl

/-- `setRoute` stores the route with its times. -/
theorem setRoute_eq (t : Table ν) (r : Config ν) (now : ℤ) :
    setRoute t r now = Function.update t r.tenantId.key
      (some (Function.update ((t r.tenantId.key).getD fun _ => none) r.id
        (some (r.stamped (createdBy ((storer ν).get t r.tenantId r.id) now) now)))) := by
  have hget := get_getD t r.tenantId r.id
  unfold setRoute
  dsimp only
  rw [hget]
  cases (storer ν).get t r.tenantId r.id with
  | none => rfl
  | some existing => rfl

/-- A set takes the creation time over. -/
theorem setTo (t : Table ν) (i : SetItem ν) :
    SetTo (storer ν) t (setRoute t i.config i.now) i (i.config.stamped
      (createdBy ((storer ν).get t i.config.tenantId i.config.id) i.now) i.now) := by
  rw [setRoute_eq]
  refine ⟨?_, rfl, fun tid id hkey => ?_⟩
  · rw [get_update, if_pos rfl, Function.update_self]
  · rw [get_update]
    split
    · rename_i htid
      rw [Function.update_of_ne fun hid => hkey ⟨htid, hid.symm⟩, get_getD, htid]
    · rfl

/-- A deletion takes one route away. -/
theorem get_deleteRoute (t : Table ν) (tid tid' : Tenant.Id) (id id' : String) :
    (storer ν).get (deleteRoute t tid id) tid' id' =
      if tid = tid' ∧ id = id' then none else (storer ν).get t tid' id' := by
  unfold deleteRoute
  split
  · rename_i hnone
    split
    · rename_i hkey
      rw [get_eq, ← hkey.1, hnone]
      rfl
    · rfl
  · rename_i tenant htenant
    rw [get_update]
    by_cases htid : tid = tid'
    · rw [if_pos htid]
      by_cases hid : id = id'
      · rw [if_pos ⟨htid, hid⟩, hid, Function.update_self]
      · rw [if_neg fun hkey => hid hkey.2, Function.update_of_ne (Ne.symm hid), get_eq, ← htid,
          htenant]
        rfl
    · rw [if_neg htid, if_neg fun hkey => htid hkey.1]

/-- Every step keeps the invariant. -/
theorem inv_step {a : Step ν} {s s' : Store (Table ν)} (h : Inv (storer ν) s)
    (hs : (storer ν).step s a = some s') : Inv (storer ν) s' := by
  cases a with
  | set i =>
      obtain rfl := Option.some.inj hs
      exact h.set (setTo s.table i) rfl
  | delete tid id faults =>
      obtain rfl := Option.some.inj hs
      refine h.delete ?_ fun tid' id' hkey => ?_
      · rw [get_deleteRoute, if_pos ⟨rfl, rfl⟩]
      · rw [get_deleteRoute, if_neg hkey]

end InMemory

/-! ## Tables with one key for a route -/

theorem update_keyWithRoute {W : Type} (d : String → Option W) (tid tid' : Tenant.Id)
    (id id' : String) (w : Option W) :
    Function.update d (tid.keyWithRoute id) w (tid'.keyWithRoute id') =
      if tid = tid' ∧ id = id' then w else d (tid'.keyWithRoute id') := by
  by_cases hkey : tid = tid' ∧ id = id'
  · rw [if_pos hkey, hkey.1, hkey.2, Function.update_self]
  · rw [if_neg hkey, Function.update_of_ne]
    exact fun h => hkey ((Tenant.keyWithRoute_inj.mp h).imp Eq.symm Eq.symm)

namespace Dynamo

variable {av : Codec ν W} {d d' : Table W} {i : SetItem ν}

/-- What goes through is written. -/
theorem putItem_eq_ok {c : Config ν} {write : Option String} (h : putItem av d c write = .ok d') :
    ∃ w, av.encode c = .ok w ∧ d' = Function.update d (c.tenantId.keyWithRoute c.id) (some w) := by
  unfold putItem at h
  split at h
  · cases h
  · rename_i item hitem
    split at h
    · cases h
    · exact ⟨item, hitem, (Except.ok.inj h).symm⟩

/-- `putRoute` writes the route with its times. -/
theorem putRoute_eq (r : Config ν) (now : ℤ) (old : Option (Config ν)) (write : Option String) :
    putRoute av d r now old write = putItem av d (r.stamped (createdBy old now) now) write := by
  cases old with
  | none => rfl
  | some old => rfl

/-- What a set that goes through has read and written. -/
theorem setRoute_eq_ok (h : setRoute av d i.config i.now i.faults = .ok d') :
    ∃ w, av.encode (i.config.stamped
        (createdBy ((storer av).get d i.config.tenantId i.config.id) i.now) i.now) = .ok w ∧
      d' = Function.update d (i.config.tenantId.keyWithRoute i.config.id) (some w) := by
  unfold setRoute at h
  have hget : (storer av).get d i.config.tenantId i.config.id =
      (getRoute av d i.config.tenantId i.config.id none).toOption := rfl
  cases hread : i.faults.read with
  | some err =>
      rw [hread] at h
      cases h
  | none =>
      rw [hread] at h
      split at h
      · rename_i old hold
        rw [hget, hold]
        rw [putRoute_eq] at h
        exact putItem_eq_ok h
      · rename_i hold
        rw [hget, hold]
        rw [putRoute_eq] at h
        exact putItem_eq_ok h
      · cases h

/-- A set that goes through takes the creation time over. -/
theorem setTo (h : setRoute av d i.config i.now i.faults = .ok d') :
    ∃ c, SetTo (storer av) d d' i c ∧
      c.created = createdBy ((storer av).get d i.config.tenantId i.config.id) i.now := by
  obtain ⟨w, hw, rfl⟩ := setRoute_eq_ok h
  obtain ⟨c, hc, hcreated, hmodified⟩ := av.decode_encode _ w hw
  refine ⟨c, ⟨?_, hmodified, fun tid id hkey => ?_⟩, hcreated⟩
  · show (getRoute av _ _ _ none).toOption = some c
    unfold getRoute
    dsimp only
    rw [Function.update_self]
    dsimp only
    rw [hc]
    rfl
  · show (getRoute av _ _ _ none).toOption = (getRoute av _ _ _ none).toOption
    unfold getRoute
    dsimp only
    rw [update_keyWithRoute, if_neg hkey]

/-- Every step keeps the invariant. -/
theorem inv_step {a : Step ν} {s s' : Store (Table W)} (h : Inv (storer av) s)
    (hs : (storer av).step s a = some s') : Inv (storer av) s' := by
  cases a with
  | set i =>
      obtain rfl := Option.some.inj hs
      unfold Storer.setOne
      cases hset : (storer av).set s.table i with
      | error err => exact h
      | ok d' =>
          obtain ⟨c, hto, hcreated⟩ := setTo hset
          exact h.set hto hcreated
  | delete tid id faults =>
      obtain rfl := Option.some.inj hs
      unfold Storer.deleteOne
      cases hdelete : (storer av).delete s.table tid id faults with
      | error err => exact h
      | ok d' =>
          have hd : deleteRoute s.table tid id faults = .ok d' := hdelete
          unfold deleteRoute at hd
          split at hd
          · cases hd
          · obtain rfl := Except.ok.inj hd
            refine h.delete ?_ fun tid' id' hkey => ?_
            · show (getRoute av _ _ _ none).toOption = none
              unfold getRoute
              dsimp only
              rw [Function.update_self]
              rfl
            · show (getRoute av _ _ _ none).toOption = (getRoute av _ _ _ none).toOption
              unfold getRoute
              dsimp only
              rw [update_keyWithRoute, if_neg hkey]

end Dynamo

/-! ## Redis -/

namespace Redis

variable {json : JsonCodec ν} {d d' : Table} {i : SetItem ν}

/-- The creation time that a set gives: an error of the read counts as absence. -/
def createdAt (json : JsonCodec ν) (d : Table) (i : SetItem ν) : ℤ :=
  createdBy (getRoute json d i.config.tenantId i.config.id i.faults.read).toOption i.now

/-- A set that gets through: it has an id, and neither the encoding nor the write fails. -/
def GetsThrough (json : JsonCodec ν) (d : Table) (i : SetItem ν) : Prop :=
  i.config.id ≠ "" ∧ i.faults.write = none ∧
    (json.encode (i.config.stamped (createdAt json d i) i.now)).toBool = true

theorem hset_eq_ok {c : Config ν} {write : Option String} :
    hset json d c write = .ok d' ↔ write = none ∧ ∃ w, json.encode c = .ok w ∧
      d' = Function.update d (c.tenantId.keyWithRoute c.id) (some w) := by
  unfold hset
  constructor
  · intro h
    split at h
    · cases h
    · rename_i val hval
      split at h
      · cases h
      · exact ⟨rfl, val, hval, (Except.ok.inj h).symm⟩
  · rintro ⟨rfl, w, hw, rfl⟩
    rw [hw]

/-- `SetRoute` writes the route with its times. -/
theorem setRoute_eq (r : Config ν) (now : ℤ) (faults : Faults) (hid : r.id ≠ "") :
    setRoute json d r now faults =
      hset json d (r.stamped (createdAt json d ⟨r, now, faults⟩) now) faults.write := by
  unfold setRoute createdAt
  rw [if_neg hid]
  dsimp only
  cases getRoute json d r.tenantId r.id faults.read with
  | error err => rfl
  | ok old => rfl

/-- When a set goes through, and what it writes. -/
theorem setRoute_eq_ok : setRoute json d i.config i.now i.faults = .ok d' ↔
    GetsThrough json d i ∧ ∃ w, json.encode (i.config.stamped (createdAt json d i) i.now) = .ok w ∧
      d' = Function.update d (i.config.tenantId.keyWithRoute i.config.id) (some w) := by
  by_cases hid : i.config.id = ""
  · unfold setRoute GetsThrough
    rw [if_pos hid]
    simp [hid]
  · rw [setRoute_eq _ _ _ hid, hset_eq_ok]
    constructor
    · rintro ⟨hwrite, w, hw, rfl⟩
      refine ⟨⟨hid, hwrite, ?_⟩, w, hw, rfl⟩
      rw [hw]
      rfl
    · rintro ⟨⟨-, hwrite, -⟩, w, hw, rfl⟩
      exact ⟨hwrite, w, hw, rfl⟩

theorem get_update {d : Table} {tid tid' : Tenant.Id} {id id' : String} {w : Option String}
    (hkey : ¬ (tid = tid' ∧ id = id')) :
    (storer json).get (Function.update d (tid.keyWithRoute id) w) tid' id' =
      (storer json).get d tid' id' := by
  show (getRoute json _ _ _ none).toOption = (getRoute json _ _ _ none).toOption
  unfold getRoute
  dsimp only
  rw [update_keyWithRoute, if_neg hkey]

/-- The route that a set has written. -/
theorem setTo (h : setRoute json d i.config i.now i.faults = .ok d') :
    ∃ c, SetTo (storer json) d d' i c ∧ c.created = createdAt json d i := by
  obtain ⟨-, w, hw, rfl⟩ := setRoute_eq_ok.mp h
  obtain ⟨c, hc, hcreated, hmodified⟩ := json.decode_encode _ w hw
  refine ⟨c, ⟨?_, hmodified, fun tid id hkey => get_update hkey⟩, hcreated⟩
  show (getRoute json _ _ _ none).toOption = some c
  unfold getRoute
  dsimp only
  rw [Function.update_self]
  dsimp only
  rw [if_neg (json.encode_ne_empty _ w hw), hc]
  rfl

/-- A read that fails, whatever the error. -/
theorem createdAt_of_fault (h : i.faults.read ≠ none) : createdAt json d i = i.now := by
  obtain ⟨err, herr⟩ := Option.ne_none_iff_exists'.mp h
  unfold createdAt getRoute
  rw [herr]
  dsimp only
  split <;> rfl

/-- No set of a stored route gets through after its read has failed, unless it is made in the second
of the route's creation. -/
def ReadsBeforeWrites (json : JsonCodec ν) (s : Store Table) : Step ν → Prop
  | .set i => i.faults.read ≠ none → i.config.id ≠ "" → i.faults.write = none →
      (json.encode (i.config.stamped i.now i.now)).toBool = true →
      ∀ old, (storer json).get s.table i.config.tenantId i.config.id = some old →
        i.now = old.created
  | .delete _ _ _ => True

/-- The step lemma. -/
theorem inv_step {a : Step ν} {s s' : Store Table} (h : Inv (storer json) s)
    (hguard : ReadsBeforeWrites json s a) (hs : (storer json).step s a = some s') :
    Inv (storer json) s' := by
  cases a with
  | set i =>
      obtain rfl := Option.some.inj hs
      unfold Storer.setOne
      cases hset : (storer json).set s.table i with
      | error err => exact h
      | ok d' =>
          have hset' : setRoute json s.table i.config i.now i.faults = .ok d' := hset
          obtain ⟨c, hto, hcreated⟩ := setTo hset'
          refine h.set hto ?_
          rw [hcreated]
          by_cases hread : i.faults.read = none
          · unfold createdAt
            rw [hread]
            rfl
          · obtain ⟨⟨hid, hwrite, hencode⟩, -⟩ := setRoute_eq_ok.mp hset'
            rw [createdAt_of_fault hread] at hencode ⊢
            cases hold : (storer json).get s.table i.config.tenantId i.config.id with
            | none => rfl
            | some old => exact hguard hread hid hwrite hencode old hold
  | delete tid id faults =>
      obtain rfl := Option.some.inj hs
      unfold Storer.deleteOne
      cases hdelete : (storer json).delete s.table tid id faults with
      | error err => exact h
      | ok d' =>
          have hd : deleteRoute s.table tid id faults = .ok d' := hdelete
          unfold deleteRoute at hd
          split at hd
          · cases hd
          · split at hd
            · cases hd
            · obtain rfl := Except.ok.inj hd
              refine h.delete ?_ fun tid' id' hkey => get_update hkey
              show (getRoute json _ _ _ none).toOption = none
              unfold getRoute
              dsimp only
              rw [Function.update_self]
              rfl

/-- The converse of the step lemma. -/
theorem readsBeforeWrites_of_step {a : Step ν} {s s' : Store Table} (h : Inv (storer json) s)
    (hs : (storer json).step s a = some s') (htimes : KeepsTimes (storer json) s') :
    ReadsBeforeWrites json s a := by
  cases a with
  | set i =>
      intro hread hid hwrite hencode old hold
      have hfault : createdAt json s.table i = i.now := createdAt_of_fault hread
      obtain ⟨w, hw⟩ : ∃ w, json.encode (i.config.stamped (createdAt json s.table i) i.now) =
          .ok w := by
        rw [hfault]
        cases he : json.encode (i.config.stamped i.now i.now) with
        | error err =>
            rw [he] at hencode
            cases hencode
        | ok w => exact ⟨w, rfl⟩
      have hset := setRoute_eq_ok.mpr ⟨⟨hid, hwrite, by rw [hw]; rfl⟩, w, hw, rfl⟩
      obtain ⟨c, hto, hcreated⟩ := setTo hset
      have hset' : (storer json).set s.table i = .ok _ := hset
      obtain rfl := Option.some.inj hs
      unfold Storer.setOne at htimes
      rw [hset'] at htimes
      -- the first set since the last deletion is the one that `old` is from
      have hhead : (setTimes i.config.tenantId i.config.id
          (s.history ++ [.set i.config.tenantId i.config.id i.now])).head? = some c.created :=
        (htimes _ _ c hto.stored).1
      rw [setTimes_set, if_pos ⟨rfl, rfl⟩, List.head?_append, (h.times _ _ old hold).1] at hhead
      have hcreated' : old.created = c.created := Option.some.inj hhead
      rw [hcreated', hcreated, hfault]
  | delete tid id faults => trivial

end Redis

/-! ## Whole runs -/

theorem setTimes_nil (tid : Tenant.Id) (id : String) : setTimes tid id [] = [] := rfl

theorem inv_start (h : ∀ tid id, st.get st.empty tid id = none) : Inv st st.start where
  times := by
    intro tid id c hc
    rw [show st.start.table = st.empty from rfl, h] at hc
    cases hc
  absent := fun tid id _ => setTimes_nil tid id

/-- The states that calls go through, from an empty storer. -/
def Reached (st : Storer ν T) (cs : List (Call ν)) (s : Store T) : Prop :=
  ∃ as, as <+: st.steps st.start cs ∧ Runs.run st.step st.start as = some s

/-- The store after all the calls is one of them. -/
theorem reached_calls (st : Storer ν T) (cs : List (Call ν)) :
    Reached st cs (st.calls st.start cs) :=
  ⟨_, List.prefix_refl _, st.run_steps st.start cs⟩

/-- **Creation times are kept** by the storer in memory and by the one for DynamoDB, whatever calls
fail, and by the one for Redis exactly when no set of a stored route gets through after its read has
failed, unless it is made in the second of the route's creation. -/
theorem times_kept_iff (av : Codec ν W) (json : JsonCodec ν) (cs : List (Call ν)) :
    (∀ s, Reached (InMemory.storer ν) cs s → KeepsTimes (InMemory.storer ν) s) ∧
    (∀ s, Reached (Dynamo.storer av) cs s → KeepsTimes (Dynamo.storer av) s) ∧
    ((∀ s, Reached (Redis.storer json) cs s → KeepsTimes (Redis.storer json) s) ↔
      Runs.Along (Redis.storer json).step (Redis.ReadsBeforeWrites json) (Redis.storer json).start
        ((Redis.storer json).steps (Redis.storer json).start cs)) := by
  refine ⟨?_, ?_, ?_⟩
  · rintro s ⟨as, -, hrun⟩
    exact (Runs.run_induction (fun _ _ _ => InMemory.inv_step)
      (inv_start fun _ _ => rfl) hrun).times
  · rintro s ⟨as, -, hrun⟩
    exact (Runs.run_induction (fun _ _ _ => Dynamo.inv_step)
      (inv_start fun _ _ => rfl) hrun).times
  · rw [← Runs.always_iff_along (P := Inv (Redis.storer json)) (fun _ h => h.times)
      (fun _ _ _ => Redis.inv_step) (fun _ _ _ => Redis.readsBeforeWrites_of_step)
      (fun s a hs => ?_) (inv_start fun _ _ => rfl)]
    · constructor
      · exact fun h as has s hrun => h s ⟨as, has, hrun⟩
      · rintro h s ⟨as, has, hrun⟩
        exact h as has s hrun
    · cases a with
      | set i => cases hs
      | delete tid id faults => cases hs

/-- A route, set and stamped in one second. -/
def sampleConfig (now : ℤ) : Config Unit := ⟨⟨"org", "app"⟩, "r1", (), now, now⟩

/-- Its text. -/
def sampleText (now : ℤ) : String :=
  "\x7b\"id\":\"r1\",\"tenant\":\x7b\"orgId\":\"org\",\"appId\":\"app\"\x7d,\"userId\":\"u\"," ++
    "\"inactive\":false,\"receiver\":\x7b\"plugin\":\"debug\"\x7d,\"sender\":\x7b\"plugin\":\"debug\"\x7d," ++
    "\"created\":" ++ toString now ++ ",\"modified\":" ++ toString now ++ "\x7d"

/-- `encoding/json` on that route at two times. -/
def sampleJson : JsonCodec Unit where
  encode c :=
    if c = sampleConfig 100 then .ok (sampleText 100)
    else if c = sampleConfig 200 then .ok (sampleText 200)
    else .error "json: unsupported value"
  decode w :=
    if w = sampleText 100 then .ok (sampleConfig 100)
    else if w = sampleText 200 then .ok (sampleConfig 200)
    else .error "unexpected end of JSON input"
  decode_encode := by
    intro c w h
    split at h
    · rename_i hc
      obtain rfl := Except.ok.inj h
      exact ⟨c, by rw [if_pos rfl, hc], rfl, rfl⟩
    · split at h
      · rename_i hc
        obtain rfl := Except.ok.inj h
        exact ⟨c, by rw [if_neg (by decide +kernel), if_pos rfl, hc], rfl, rfl⟩
      · cases h
  encode_ne_empty := by
    intro c w h
    split at h
    · obtain rfl := Except.ok.inj h
      decide +kernel
    · split at h
      · obtain rfl := Except.ok.inj h
        decide +kernel
      · cases h

/-- Two sets of a route, the second with a read that times out. -/
def sampleCalls : List (Call Unit) :=
  [.setRoute none ⟨sampleConfig 0, 100, {}⟩,
    .setRoute none ⟨sampleConfig 0, 200, { read := some "i/o timeout" }⟩]

/-- Redis forgets when a route was created. -/
theorem redis_loses_created : ∃ s, Reached (Redis.storer sampleJson) sampleCalls s ∧
    ¬ KeepsTimes (Redis.storer sampleJson) s := by
  refine ⟨_, reached_calls _ _, fun h => ?_⟩
  have hget : (Redis.storer sampleJson).get
      ((Redis.storer sampleJson).calls (Redis.storer sampleJson).start sampleCalls).table
      ⟨"org", "app"⟩ "r1" = some (sampleConfig 200) := by
    decide +kernel
  have htimes := (h ⟨"org", "app"⟩ "r1" _ hget).1
  exact absurd htimes (by decide +kernel)

end RouteStorer
