/-
# The quota manager (`internal/pkg/quota/manager.go`)

Each node keeps one limiter for each tenant that it has seen, and makes it with the quota that is
stored for the tenant, or 0 without a tenant.  When the quota has changed, `SyncItem` is called: by
the request that has changed it, by a message to each other node, and once a minute for all limiters
of a node.  A call reads the quota and sets the limit in two steps, so calls can overtake each
other, and a limit can stay an old one.

`limit_was_stored`: the limit of a limiter is always a quota that was stored for its tenant.
`converges`: a `SyncItem` that ends after the last change leaves the stored quota as the limit of
its node, if no call holds an older one, and it stays so.  `can_sync`: no run leads to a state from
which a node cannot get the stored quota any more.

Here any calls of `getLimiter` and `SyncItem` are made at any nodes and at any time; the limiter
type is not `none`.
-/
import Ears.Runs
import Ears.Tenant

namespace Quota

/-- A limiter: its tenant, what it first asks its backend for, and its limit. -/
structure QuotaLimiter where
  tid : Tenant.Id
  initialRqs : ℤ
  totalRqs : ℤ
  deriving DecidableEq

/-- Where a call is: before `getLimiter`; in it with the lock, to make a limiter; after it; in
`SyncItem` with the quota it has read, before and after the comparison of `SetLimit`; or at its
end, with `SetLimit` or without. -/
inductive Phase where
  | start
  | creating (tenantRqs : ℤ)
  | got (limiter : ℕ)
  | setting (limiter : ℕ) (tenantRqs : ℤ)
  | writing (limiter : ℕ) (newLimit : ℤ)
  | synced (limiter : ℕ)
  | returned
  deriving DecidableEq

namespace Phase

/-- The quota that the call has read. -/
def rqs : Phase → Option ℤ
  | .creating rqs | .setting _ rqs | .writing _ rqs => some rqs
  | .start | .got _ | .synced _ | .returned => none

/-- The limiter that the call has got. -/
def limiter : Phase → Option ℕ
  | .got o | .setting o _ | .writing o _ | .synced o => some o
  | .start | .creating _ | .returned => none

end Phase

/-- A call of `SyncItem`, or one that only gets the limiter (`Wait` and `TenantLimit`). -/
structure Call where
  node : ℕ
  tid : Tenant.Id
  sync : Bool
  phase : Phase
  deriving DecidableEq

/-- A quota manager: the limiters by the keys of tenants, and the call that has the lock. -/
structure QuotaManager where
  limiters : String → Option ℕ
  lock : Option ℕ

/-- The stored quotas, the managers of the nodes, the limiters that were made, and the calls. -/
structure World where
  quotas : Tenant.Id → Option ℤ
  managers : ℕ → QuotaManager
  limiters : List QuotaLimiter
  calls : List Call

/-- A tenant is stored or deleted, a call is made, or a call goes on; `getConfig` says whether
storage answers, and `instanceCount` what `GetInstanceCount` returns. -/
inductive Action where
  | setConfig (tid : Tenant.Id) (eventsPerSec : ℤ)
  | deleteConfig (tid : Tenant.Id)
  | call (node : ℕ) (tid : Tenant.Id) (sync : Bool)
  | step (i : ℕ) (getConfig : Bool) (instanceCount : ℤ)
  deriving DecidableEq

/-- The tenant that is stored or deleted. -/
def Action.writes : Action → Option Tenant.Id
  | .setConfig tid _ | .deleteConfig tid => some tid
  | .call _ _ _ | .step _ _ _ => none

namespace World

section Operations

variable (w : World)

/-- What `getLimiter` and `SyncItem` take for the quota of a tenant. -/
def tenantRqs (tid : Tenant.Id) : ℤ := (w.quotas tid).getD 0

/-- The limiter of a node for a tenant. -/
def entry (n : ℕ) (tid : Tenant.Id) : Option ℕ := (w.managers n).limiters tid.key

/-- `Limit()` of the limiter. -/
def limitOf (o : ℕ) : Option ℤ := (w.limiters[o]?).map QuotaLimiter.totalRqs

/-- The limit of a node for a tenant. -/
def limit (n : ℕ) (tid : Tenant.Id) : Option ℤ := (w.entry n tid).bind w.limitOf

def setCall (i : ℕ) (c : Call) (phase : Phase) : World :=
  { w with calls := w.calls.set i { c with phase := phase } }

def setLock (n : ℕ) (lock : Option ℕ) : World :=
  { w with managers := Function.update w.managers n { w.managers n with lock := lock } }

/-- A new limiter of a node. -/
def addLimiter (n : ℕ) (l : QuotaLimiter) : World :=
  { w with
    managers := Function.update w.managers n
      { w.managers n with
        limiters := Function.update (w.managers n).limiters l.tid.key (some w.limiters.length) }
    limiters := w.limiters ++ [l] }

/-- `SetLimit` of the limiter. -/
def setLimit (o : ℕ) (newLimit : ℤ) : World :=
  { w with limiters := w.limiters.modify o fun l => { l with totalRqs := newLimit } }

/-- A call goes on. -/
def advance (i : ℕ) (c : Call) (getConfig : Bool) (instanceCount : ℤ) : Option World :=
  match c.phase with
  | .start =>
      -- `getLimiter` waits for the lock, and keeps it while it makes a limiter
      if (w.managers c.node).lock ≠ none then none
      else
        match w.entry c.node c.tid with
        | some o => some (w.setCall i c (.got o))
        | none =>
            if getConfig then
              some ((w.setLock c.node (some i)).setCall i c (.creating (w.tenantRqs c.tid)))
            else some (w.setCall i c .returned)
  | .creating rqs =>
      if instanceCount = 0 then some ((w.setLock c.node none).setCall i c .returned)
      else
        -- `NewQuotaLimiter`; the deferred `Unlock` comes with it
        let limiter : QuotaLimiter := ⟨c.tid, rqs.tdiv instanceCount, rqs⟩
        some (((w.addLimiter c.node limiter).setLock c.node none).setCall i c
          (.got w.limiters.length))
  | .got o =>
      -- `SyncItem` reads the quota, and without an answer of the storage gives up
      if c.sync && getConfig then some (w.setCall i c (.setting o (w.tenantRqs c.tid)))
      else some (w.setCall i c .returned)
  | .setting o rqs =>
      -- `SetLimit` of the quota limiter, and then of the adaptive limiter
      if w.limitOf o = some rqs then some (w.setCall i c (.synced o))
      else some (w.setCall i c (.writing o rqs))
  | .writing o newLimit =>
      if newLimit < 0 then some (w.setCall i c .returned)
      else some ((w.setLimit o newLimit).setCall i c (.synced o))
  | .synced _ => none
  | .returned => none

/-- A step of the nodes. -/
def step : Action → Option World
  | .setConfig tid eventsPerSec =>
      some { w with quotas := Function.update w.quotas tid (some eventsPerSec) }
  | .deleteConfig tid => some { w with quotas := Function.update w.quotas tid none }
  | .call node tid sync => some { w with calls := w.calls ++ [⟨node, tid, sync, .start⟩] }
  | .step i getConfig instanceCount =>
      (w.calls[i]?).bind fun c => w.advance i c getConfig instanceCount

end Operations

/-- No limiters and no calls yet. -/
def start (quotas : Tenant.Id → Option ℤ) : World :=
  ⟨quotas, fun _ => ⟨fun _ => none, none⟩, [], []⟩

variable {w w' : World} {n m i j o : ℕ} {tid tid' : Tenant.Id} {c c' : Call} {phase : Phase}
  {rqs : ℤ} {a : Action} {l : QuotaLimiter} {lock : Option ℕ}

/-! ## What the operations change -/

@[simp] theorem entry_setCall : (w.setCall i c phase).entry n tid = w.entry n tid := rfl

@[simp] theorem entry_setLimit : (w.setLimit o rqs).entry n tid = w.entry n tid := rfl

@[simp] theorem entry_setLock : (w.setLock m lock).entry n tid = w.entry n tid := by
  unfold entry setLock
  dsimp only
  rw [Function.update_apply]
  split
  · rename_i h
    rw [h]
  · rfl

theorem entry_addLimiter : (w.addLimiter m l).entry n tid =
    if n = m ∧ tid = l.tid then some w.limiters.length else w.entry n tid := by
  unfold entry addLimiter
  dsimp only
  rw [Function.update_apply]
  by_cases hn : n = m
  · subst hn
    rw [if_pos rfl]
    dsimp only
    rw [Function.update_apply]
    simp only [Tenant.key_inj, true_and]
  · rw [if_neg hn, if_neg fun h => hn h.1]

theorem lock_setLock : ((w.setLock n lock).managers m).lock =
    if m = n then lock else (w.managers m).lock := by
  unfold setLock
  dsimp only
  rw [Function.update_apply]
  split <;> rfl

@[simp] theorem lock_addLimiter :
    ((w.addLimiter n l).managers m).lock = (w.managers m).lock := by
  unfold addLimiter
  dsimp only
  rw [Function.update_apply]
  split
  · rename_i h
    rw [h]
  · rfl

@[simp] theorem limit_setCall : (w.setCall i c phase).limit n tid = w.limit n tid := rfl

@[simp] theorem limit_setLock : (w.setLock m lock).limit n tid = w.limit n tid := by
  unfold limit
  rw [entry_setLock]
  rfl

/-- The limit of a tenant is that of its limiter. -/
theorem limit_of_entry (h : w.entry n tid = some o) : w.limit n tid = w.limitOf o := by
  rw [limit, h, Option.bind_some]

theorem mem_setCall (h : c' ∈ (w.setCall i c phase).calls) :
    c' ∈ w.calls ∨ c' = { c with phase := phase } :=
  List.mem_or_eq_of_mem_set h

/-- A call moves its own phase only. -/
theorem getElem?_setCall (h : (w.setCall i c phase).calls[j]? = some c') :
    i = j ∧ c' = { c with phase := phase } ∨ i ≠ j ∧ w.calls[j]? = some c' := by
  have hset : (w.calls.set i { c with phase := phase })[j]? = some c' := h
  rw [List.getElem?_set] at hset
  split at hset
  · rename_i hij
    split at hset
    · exact .inl ⟨hij, (Option.some.inj hset).symm⟩
    · cases hset
  · rename_i hij
    exact .inr ⟨hij, hset⟩

theorem getElem?_setCall_self (c : Call) (phase : Phase) (hc : w.calls[i]? = some c') :
    (w.setCall i c phase).calls[i]? = some { c with phase := phase } :=
  List.getElem?_set_self (List.getElem?_eq_some_iff.mp hc).1

theorem getElem?_setCall_ne (hij : i ≠ j) (hc : w.calls[j]? = some c') :
    (w.setCall i c phase).calls[j]? = some c' :=
  (List.getElem?_set_ne hij).trans hc

theorem setCall_setCall {phase' : Phase} :
    (w.setCall i c phase).setCall i c phase' = w.setCall i c phase' := by
  unfold setCall
  dsimp only
  rw [List.set_set]

theorem addLimiter_setLock :
    (w.setLock n lock).addLimiter n l = (w.addLimiter n l).setLock n lock := by
  unfold setLock addLimiter
  simp only [Function.update_self, Function.update_idem]

/-! ## The steps of a call -/

/-- What a step of a call does. -/
inductive Moved (w : World) (i : ℕ) (c : Call) : World → Prop where
  | take (o : ℕ) (hp : c.phase = .start) (he : w.entry c.node c.tid = some o) :
      Moved w i c (w.setCall i c (.got o))
  | acquire (hp : c.phase = .start) (hl : (w.managers c.node).lock = none)
      (he : w.entry c.node c.tid = none) :
      Moved w i c ((w.setLock c.node (some i)).setCall i c (.creating (w.tenantRqs c.tid)))
  | create (l : QuotaLimiter) (hp : c.phase = .creating l.totalRqs) (htid : l.tid = c.tid) :
      Moved w i c
        (((w.addLimiter c.node l).setLock c.node none).setCall i c (.got w.limiters.length))
  | release (rqs : ℤ) (hp : c.phase = .creating rqs) :
      Moved w i c ((w.setLock c.node none).setCall i c .returned)
  | leave (hp : ∀ rqs, c.phase ≠ .creating rqs) : Moved w i c (w.setCall i c .returned)
  | read (o : ℕ) (hp : c.phase = .got o) :
      Moved w i c (w.setCall i c (.setting o (w.tenantRqs c.tid)))
  | same (o : ℕ) (rqs : ℤ) (hp : c.phase = .setting o rqs) (hlimit : w.limitOf o = some rqs) :
      Moved w i c (w.setCall i c (.synced o))
  | differ (o : ℕ) (rqs : ℤ) (hp : c.phase = .setting o rqs) :
      Moved w i c (w.setCall i c (.writing o rqs))
  | write (o : ℕ) (rqs : ℤ) (hp : c.phase = .writing o rqs) :
      Moved w i c ((w.setLimit o rqs).setCall i c (.synced o))

/-- What a section of a call can do. -/
theorem moved_of_advance {getConfig : Bool} {instanceCount : ℤ}
    (h : w.advance i c getConfig instanceCount = some w') : Moved w i c w' := by
  unfold advance at h
  cases hp : c.phase with
  | start =>
      rw [hp] at h
      dsimp only at h
      split at h
      · cases h
      · rename_i hlock
        rw [ne_eq, not_not] at hlock
        cases he : w.entry c.node c.tid with
        | some o =>
            rw [he] at h
            obtain rfl := Option.some.inj h
            exact .take o hp he
        | none =>
            rw [he] at h
            dsimp only at h
            split at h
            · obtain rfl := Option.some.inj h
              exact .acquire hp hlock he
            · obtain rfl := Option.some.inj h
              exact .leave fun _ hp' => (nomatch hp.symm.trans hp')
  | creating rqs =>
      rw [hp] at h
      dsimp only at h
      split at h
      · obtain rfl := Option.some.inj h
        exact .release rqs hp
      · obtain rfl := Option.some.inj h
        exact .create ⟨c.tid, _, rqs⟩ hp rfl
  | got o =>
      rw [hp] at h
      dsimp only at h
      split at h
      · obtain rfl := Option.some.inj h
        exact .read o hp
      · obtain rfl := Option.some.inj h
        exact .leave fun _ hp' => (nomatch hp.symm.trans hp')
  | setting o rqs =>
      rw [hp] at h
      dsimp only at h
      split at h
      · rename_i hlimit
        obtain rfl := Option.some.inj h
        exact .same o rqs hp hlimit
      · obtain rfl := Option.some.inj h
        exact .differ o rqs hp
  | writing o newLimit =>
      rw [hp] at h
      dsimp only at h
      split at h
      · obtain rfl := Option.some.inj h
        exact .leave fun _ hp' => (nomatch hp.symm.trans hp')
      · obtain rfl := Option.some.inj h
        exact .write o newLimit hp
  | synced o =>
      rw [hp] at h
      cases h
  | returned =>
      rw [hp] at h
      cases h

/-- What a step can do for a call. -/
theorem moved_of_step {getConfig : Bool} {instanceCount : ℤ}
    (h : w.step (.step i getConfig instanceCount) = some w') :
    ∃ c, w.calls[i]? = some c ∧ Moved w i c w' := by
  obtain ⟨c, hc, h⟩ := Option.bind_eq_some_iff.mp h
  exact ⟨c, hc, moved_of_advance h⟩

/-- No call writes a quota. -/
theorem Moved.quotas_eq (h : Moved w i c w') : w'.quotas = w.quotas := by
  cases h <;> rfl

/-! ## The invariant -/

/-- No call of the node is making a limiter. -/
def Free (w : World) (n : ℕ) : Prop := ∀ c ∈ w.calls, c.node = n → ∀ rqs, c.phase ≠ .creating rqs

/-- The limiters of a node are its own and for their tenants, the calls have the limiters of their
nodes, and a call that makes a limiter has the lock and there is none yet. -/
structure Inv (w : World) : Prop where
  filed : ∀ n tid o, w.entry n tid = some o → (w.limiters[o]?).map QuotaLimiter.tid = some tid
  owned : ∀ n tid m tid' o, w.entry n tid = some o → w.entry m tid' = some o → n = m
  held : ∀ c ∈ w.calls, ∀ o, c.phase.limiter = some o → w.entry c.node c.tid = some o
  locked : ∀ i c rqs, w.calls[i]? = some c → c.phase = .creating rqs →
    (w.managers c.node).lock = some i ∧ w.entry c.node c.tid = none

/-- No instance has a limiter at the start. -/
theorem Inv.start (quotas : Tenant.Id → Option ℤ) : Inv (start quotas) where
  filed _ _ _ h := nomatch h
  owned _ _ _ _ _ h := nomatch h
  held _ h := nomatch h
  locked _ _ _ h := nomatch h

theorem Inv.lt (h : Inv w) (ho : w.entry n tid = some o) : o < w.limiters.length := by
  obtain ⟨l, hl, -⟩ := Option.map_eq_some_iff.mp (h.filed n tid o ho)
  exact (List.getElem?_eq_some_iff.mp hl).1

/-- Two limiters that are one are of one node and one tenant. -/
theorem Inv.entry_inj (h : Inv w) (ho : w.entry n tid = some o) (ho' : w.entry m tid' = some o) :
    n = m ∧ tid = tid' := by
  refine ⟨h.owned n tid m tid' o ho ho', ?_⟩
  have htid := h.filed n tid o ho
  rw [h.filed m tid' o ho'] at htid
  exact (Option.some.inj htid).symm

/-- The limiter of a call is the one of its node for its tenant. -/
theorem Inv.entry_of_phase (h : Inv w) (hc : w.calls[i]? = some c) (hp : c.phase = phase)
    (ho : phase.limiter = some o) : w.entry c.node c.tid = some o :=
  h.held c (List.mem_of_getElem? hc) o (hp ▸ ho)

/-- Where the lock is free nobody is about to enter a limiter. -/
theorem Inv.free_of_lock (h : Inv w) (hl : (w.managers n).lock = none) : w.Free n := by
  rintro c hc rfl rqs hp
  obtain ⟨i, hi⟩ := List.mem_iff_getElem?.mp hc
  rw [(h.locked i c rqs hi hp).1] at hl
  cases hl

/-- A call may go on where its limiter is the one on the table. -/
theorem Inv.setCall (h : Inv w)
    (hheld : ∀ o, phase.limiter = some o → w.entry c.node c.tid = some o)
    (hlocked : ∀ rqs, phase = .creating rqs →
      (w.managers c.node).lock = some i ∧ w.entry c.node c.tid = none) :
    Inv (w.setCall i c phase) where
  filed := h.filed
  owned := h.owned
  held c' hc' o ho := by
    rcases mem_setCall hc' with hmem | rfl
    · exact h.held c' hmem o ho
    · exact hheld o ho
  locked j c' rqs hc' hp := by
    rcases getElem?_setCall hc' with ⟨rfl, rfl⟩ | ⟨-, hold⟩
    · exact hlocked rqs hp
    · exact h.locked j c' rqs hold hp

/-- The lock may change hands where nobody is about to enter a limiter. -/
theorem Inv.setLock (h : Inv w) (hfree : w.Free n) (lock : Option ℕ) : Inv (w.setLock n lock) where
  filed m tid o ho := h.filed m tid o (entry_setLock.symm.trans ho)
  owned m tid m' tid' o ho ho' :=
    h.owned m tid m' tid' o (entry_setLock.symm.trans ho) (entry_setLock.symm.trans ho')
  held c hc o ho := entry_setLock.trans (h.held c hc o ho)
  locked i c rqs hc hp := by
    -- the lock of another node is as it was
    have hne : c.node ≠ n := fun hn => hfree c (List.mem_of_getElem? hc) hn rqs hp
    obtain ⟨hlock, he⟩ := h.locked i c rqs hc hp
    refine ⟨?_, entry_setLock.trans he⟩
    rw [lock_setLock, if_neg hne, hlock]

/-- A limiter may be entered where there is none. -/
theorem Inv.addLimiter (h : Inv w) (hfree : w.Free n) (hnew : w.entry n l.tid = none) :
    Inv (w.addLimiter n l) where
  filed m tid o ho := by
    rw [entry_addLimiter] at ho
    show ((w.limiters ++ [l])[o]?).map _ = _
    split at ho
    · rename_i heq
      obtain rfl := Option.some.inj ho
      rw [List.getElem?_concat_length, heq.2]
      rfl
    · rw [List.getElem?_append_left (h.lt ho)]
      exact h.filed m tid o ho
  owned m tid m' tid' o ho ho' := by
    rw [entry_addLimiter] at ho ho'
    split at ho <;> split at ho'
    · rename_i heq heq'
      exact heq.1.trans heq'.1.symm
    · -- the new limiter is none of the old ones
      obtain rfl := Option.some.inj ho
      exact absurd (h.lt ho') (lt_irrefl _)
    · obtain rfl := Option.some.inj ho'
      exact absurd (h.lt ho) (lt_irrefl _)
    · exact h.owned m tid m' tid' o ho ho'
  held c hc o ho := by
    have he := h.held c hc o ho
    rw [entry_addLimiter, if_neg]
    · exact he
    · rintro ⟨hn, htid⟩
      rw [hn, htid, hnew] at he
      cases he
  locked i c rqs hc hp := by
    have hne : c.node ≠ n := fun hn => hfree c (List.mem_of_getElem? hc) hn rqs hp
    obtain ⟨hlock, he⟩ := h.locked i c rqs hc hp
    rw [entry_addLimiter, if_neg fun heq => hne heq.1]
    exact ⟨lock_addLimiter.trans hlock, he⟩

/-- A limit may be set. -/
theorem Inv.setLimit (h : Inv w) (o : ℕ) (rqs : ℤ) : Inv (w.setLimit o rqs) where
  filed n tid o' ho := by
    have hfiled := h.filed n tid o' ho
    show ((w.limiters.modify o _)[o']?).map _ = _
    rw [List.getElem?_modify]
    cases hl : w.limiters[o']? with
    | none =>
        rw [hl] at hfiled
        exact hfiled
    | some l =>
        rw [hl] at hfiled
        show some (QuotaLimiter.tid (if o = o' then _ else l)) = some tid
        split
        · exact hfiled
        · exact hfiled
  owned := h.owned
  held := h.held
  locked := h.locked

/-- A call that gives up the lock. -/
theorem Inv.unlock (h : Inv w) (hc : w.calls[i]? = some c) (hp : c.phase = .creating rqs) :
    Inv ((w.setCall i c .returned).setLock c.node none) ∧
      ((w.setCall i c .returned).setLock c.node none).Free c.node := by
  have hfree : (w.setCall i c .returned).Free c.node := by
    intro c' hc' hn rqs' hp'
    obtain ⟨j, hj⟩ := List.mem_iff_getElem?.mp hc'
    rcases getElem?_setCall hj with ⟨-, rfl⟩ | ⟨hij, hold⟩
    · cases hp'
    · -- two calls would have the lock
      have hlock := (h.locked j c' rqs' hold hp').1
      rw [hn, (h.locked i c rqs hc hp).1] at hlock
      exact hij (Option.some.inj hlock)
  have hinv : Inv (w.setCall i c .returned) := by
    apply h.setCall
    · intro o ho
      cases ho
    · intro rqs hp
      cases hp
  exact ⟨hinv.setLock hfree none, hfree⟩

/-- Every section of a call keeps the invariant. -/
theorem Inv.moved (h : Inv w) (hc : w.calls[i]? = some c) (hs : Moved w i c w') : Inv w' := by
  -- a call that is not making a limiter goes on with the one that it has
  have hgo : ∀ {v : World} {p : Phase} {o : ℕ}, Inv v → v.entry c.node c.tid = some o →
      p.limiter = some o → Inv (v.setCall i c p) := by
    intro v p o hv he hlimiter
    apply hv.setCall
    · intro o' ho'
      rw [hlimiter] at ho'
      exact Option.some.inj ho' ▸ he
    · rintro rqs rfl
      cases hlimiter
  cases hs with
  | take o _ he => exact hgo h he rfl
  | acquire _ hl he =>
      apply (h.setLock (h.free_of_lock hl) (some i)).setCall
      · intro o ho
        cases ho
      · intro rqs _
        refine ⟨?_, entry_setLock.trans he⟩
        rw [lock_setLock, if_pos rfl]
  | create l hp htid =>
      obtain ⟨hinv, hfree⟩ := h.unlock hc hp
      have hnew : ((w.setCall i c .returned).setLock c.node none).entry c.node l.tid = none := by
        rw [entry_setLock, htid]
        exact (h.locked i c l.totalRqs hc hp).2
      -- the steps of `create` in another order, with the call out of the way
      have hadd := hinv.addLimiter hfree hnew
      have hcomm : ((w.setCall i c .returned).setLock c.node none).addLimiter c.node l =
          ((w.addLimiter c.node l).setLock c.node none).setCall i c .returned :=
        addLimiter_setLock
      have he : (((w.addLimiter c.node l).setLock c.node none).setCall i c .returned).entry
          c.node c.tid = some w.limiters.length := by
        rw [entry_setCall, entry_setLock, entry_addLimiter, if_pos ⟨rfl, htid.symm⟩]
      rw [hcomm] at hadd
      have hgot := hgo (p := .got w.limiters.length) hadd he rfl
      rwa [setCall_setCall] at hgot
  | release rqs hp => exact (h.unlock hc hp).1
  | leave =>
      apply h.setCall
      · intro o ho
        cases ho
      · intro rqs hp
        cases hp
  | read o hp => exact hgo h (h.entry_of_phase hc hp rfl) rfl
  | same o rqs hp _ => exact hgo h (h.entry_of_phase hc hp rfl) rfl
  | differ o rqs hp => exact hgo h (h.entry_of_phase hc hp rfl) rfl
  | write o rqs hp => exact hgo (h.setLimit o rqs) (h.entry_of_phase hc hp rfl) rfl

/-- Every step keeps the invariant. -/
theorem Inv.step (h : Inv w) (hs : w.step a = some w') : Inv w' := by
  cases a with
  | setConfig tid eventsPerSec =>
      obtain rfl := Option.some.inj hs
      exact ⟨h.filed, h.owned, h.held, h.locked⟩
  | deleteConfig tid =>
      obtain rfl := Option.some.inj hs
      exact ⟨h.filed, h.owned, h.held, h.locked⟩
  | call node tid sync =>
      obtain rfl := Option.some.inj hs
      refine ⟨h.filed, h.owned, ?_, ?_⟩
      · intro c hc o ho
        rcases List.mem_append.mp hc with hc | hc
        · exact h.held c hc o ho
        · rw [List.mem_singleton.mp hc] at ho
          cases ho
      · intro i c rqs hc hp
        have hset : (w.calls ++ [⟨node, tid, sync, .start⟩])[i]? = some c := hc
        rw [List.getElem?_append] at hset
        split at hset
        · exact h.locked i c rqs hset hp
        · rw [List.mem_singleton.mp (List.mem_of_getElem? hset)] at hp
          cases hp
  | step i getConfig instanceCount =>
      obtain ⟨c, hc, hmoved⟩ := moved_of_step hs
      exact h.moved hc hmoved

/-! ## Limits -/

/-- A limiter that is entered gives its tenant a limit on its instance, and nobody else. -/
theorem limit_addLimiter (h : Inv w) : (w.addLimiter m l).limit n tid =
    if n = m ∧ tid = l.tid then some l.totalRqs else w.limit n tid := by
  unfold limit
  rw [entry_addLimiter]
  split
  · show ((w.limiters ++ [l])[w.limiters.length]?).map _ = _
    rw [List.getElem?_concat_length]
    rfl
  · cases ho : w.entry n tid with
    | none => rfl
    | some o =>
        show ((w.limiters ++ [l])[o]?).map _ = (w.limiters[o]?).map _
        rw [List.getElem?_append_left (h.lt ho)]

/-- A limit that is set is that of its tenant on its instance. -/
theorem limit_setLimit (h : Inv w) (ho : w.entry m tid' = some o) : (w.setLimit o rqs).limit n tid =
    if n = m ∧ tid = tid' then some rqs else w.limit n tid := by
  split
  · rename_i heq
    obtain ⟨rfl, rfl⟩ := heq
    rw [limit_of_entry (w := w.setLimit o rqs) ho]
    show ((w.limiters.modify o _)[o]?).map _ = _
    obtain ⟨l, hl, -⟩ := Option.map_eq_some_iff.mp (h.filed n tid o ho)
    rw [List.getElem?_modify, hl]
    simp
  · rename_i hne
    cases ho' : w.entry n tid with
    | none =>
        unfold limit
        rw [entry_setLimit, ho']
        rfl
    | some o' =>
        have hoo : o ≠ o' := by
          rintro rfl
          exact hne (h.entry_inj ho' ho)
        rw [limit_of_entry (w := w.setLimit o rqs) ho', limit_of_entry ho']
        show ((w.limiters.modify o _)[o']?).map _ = (w.limiters[o']?).map _
        rw [List.getElem?_modify_ne _ _ hoo]

/-- A limit changes to the quota that a call of the node for the tenant has read. -/
theorem Moved.limit_eq (h : Inv w) (hc : w.calls[i]? = some c) (hs : Moved w i c w') :
    w'.limit n tid = w.limit n tid ∨
      c.node = n ∧ c.tid = tid ∧ ∃ rqs, c.phase.rqs = some rqs ∧ w'.limit n tid = some rqs := by
  cases hs with
  | take | leave | read | same | differ => exact .inl rfl
  | acquire | release => exact .inl (by rw [limit_setCall, limit_setLock])
  | create l hp htid =>
      rw [limit_setCall, limit_setLock, limit_addLimiter h]
      split
      · rename_i heq
        refine .inr ⟨heq.1.symm, (heq.2.trans htid).symm, l.totalRqs, ?_, rfl⟩
        rw [hp]
        rfl
      · exact .inl rfl
  | write o rqs hp =>
      rw [limit_setCall, limit_setLimit h (h.entry_of_phase hc hp rfl)]
      split
      · rename_i heq
        refine .inr ⟨heq.1.symm, heq.2.symm, rqs, ?_, rfl⟩
        rw [hp]
        rfl
      · exact .inl rfl

/-- A call has read the stored quota, or one that it had before, and at its end the quota that it
has read is the limit. -/
theorem Moved.calls_eq (h : Inv w) (hc : w.calls[i]? = some c) (hs : Moved w i c w') :
    ∃ phase, w'.calls = (w.setCall i c phase).calls ∧
      (∀ rqs, phase.rqs = some rqs → rqs = w.tenantRqs c.tid ∨ c.phase.rqs = some rqs) ∧
      ∀ o, phase = .synced o →
        ∃ rqs, c.phase.rqs = some rqs ∧ w'.limit c.node c.tid = some rqs := by
  cases hs with
  | take => exact ⟨_, rfl, fun _ h => (nomatch h), fun _ h => (nomatch h)⟩
  | acquire => exact ⟨_, rfl, fun _ h => .inl (Option.some.inj h).symm, fun _ h => nomatch h⟩
  | create => exact ⟨_, rfl, fun _ h => (nomatch h), fun _ h => (nomatch h)⟩
  | release => exact ⟨_, rfl, fun _ h => (nomatch h), fun _ h => (nomatch h)⟩
  | leave => exact ⟨_, rfl, fun _ h => (nomatch h), fun _ h => (nomatch h)⟩
  | read => exact ⟨_, rfl, fun _ h => .inl (Option.some.inj h).symm, fun _ h => nomatch h⟩
  | same o rqs hp hlimit =>
      refine ⟨_, rfl, fun _ h => (nomatch h), fun _ _ => ⟨rqs, by rw [hp]; rfl, ?_⟩⟩
      rw [limit_setCall, limit_of_entry (h.entry_of_phase hc hp rfl), hlimit]
  | differ o rqs hp =>
      refine ⟨_, rfl, fun _ h => .inr ?_, fun _ h => nomatch h⟩
      rw [hp]
      exact h
  | write o rqs hp =>
      refine ⟨_, rfl, fun _ h => (nomatch h), fun _ _ => ⟨rqs, by rw [hp]; rfl, ?_⟩⟩
      rw [limit_setCall, limit_setLimit h (h.entry_of_phase hc hp rfl), if_pos ⟨rfl, rfl⟩]

/-! ## Steps of the nodes -/

/-- A quota stays until it is written. -/
theorem tenantRqs_step (hs : w.step a = some w') (ha : a.writes ≠ some tid) :
    w'.tenantRqs tid = w.tenantRqs tid := by
  unfold tenantRqs
  cases a with
  | setConfig tid' eventsPerSec =>
      obtain rfl := Option.some.inj hs
      have hne : tid ≠ tid' := fun heq => ha (congrArg some heq.symm)
      dsimp only
      rw [Function.update_of_ne hne]
  | deleteConfig tid' =>
      obtain rfl := Option.some.inj hs
      have hne : tid ≠ tid' := fun heq => ha (congrArg some heq.symm)
      dsimp only
      rw [Function.update_of_ne hne]
  | call =>
      obtain rfl := Option.some.inj hs
      rfl
  | step =>
      obtain ⟨c, -, hmoved⟩ := moved_of_step hs
      rw [hmoved.quotas_eq]

/-- A limit stays, or a call about it gives it the quota it has read. -/
theorem limit_step (h : Inv w) (hs : w.step a = some w') (n : ℕ) (tid : Tenant.Id) :
    w'.limit n tid = w.limit n tid ∨ ∃ c ∈ w.calls, c.node = n ∧ c.tid = tid ∧
      ∃ rqs, c.phase.rqs = some rqs ∧ w'.limit n tid = some rqs := by
  cases a with
  | setConfig | deleteConfig | call =>
      obtain rfl := Option.some.inj hs
      exact .inl rfl
  | step =>
      obtain ⟨c, hc, hmoved⟩ := moved_of_step hs
      rcases hmoved.limit_eq h hc with heq | ⟨hn, htid, hlimit⟩
      · exact .inl heq
      · exact .inr ⟨c, List.mem_of_getElem? hc, hn, htid, hlimit⟩

/-- The quotas that calls have read. -/
theorem rqs_step (h : Inv w) (hs : w.step a = some w') (hc' : c' ∈ w'.calls)
    (hrqs : c'.phase.rqs = some rqs) : rqs = w.tenantRqs c'.tid ∨
      ∃ c ∈ w.calls, c.node = c'.node ∧ c.tid = c'.tid ∧ c.phase.rqs = some rqs := by
  cases a with
  | setConfig | deleteConfig =>
      obtain rfl := Option.some.inj hs
      exact .inr ⟨c', hc', rfl, rfl, hrqs⟩
  | call =>
      obtain rfl := Option.some.inj hs
      rcases List.mem_append.mp hc' with hc | hc
      · exact .inr ⟨c', hc, rfl, rfl, hrqs⟩
      · rw [List.mem_singleton.mp hc] at hrqs
        cases hrqs
  | step =>
      obtain ⟨c, hc, hmoved⟩ := moved_of_step hs
      obtain ⟨phase, hcalls, hread, -⟩ := hmoved.calls_eq h hc
      rw [hcalls] at hc'
      rcases mem_setCall hc' with hold | rfl
      · exact .inr ⟨c', hold, rfl, rfl, hrqs⟩
      · exact (hread rqs hrqs).imp_right fun hr => ⟨c, List.mem_of_getElem? hc, rfl, rfl, hr⟩

/-- A call that ends with `SetLimit` leaves the quota that it has read. -/
theorem synced_step (h : Inv w) (hs : w.step a = some w') (hc' : w'.calls[i]? = some c')
    (hp : c'.phase = .synced o) : w.calls[i]? = some c' ∨
      ∃ c ∈ w.calls, c.node = c'.node ∧ c.tid = c'.tid ∧
        ∃ rqs, c.phase.rqs = some rqs ∧ w'.limit c'.node c'.tid = some rqs := by
  cases a with
  | setConfig | deleteConfig =>
      obtain rfl := Option.some.inj hs
      exact .inl hc'
  | call node tid sync =>
      obtain rfl := Option.some.inj hs
      have happ : (w.calls ++ [⟨node, tid, sync, .start⟩])[i]? = some c' := hc'
      rw [List.getElem?_append] at happ
      split at happ
      · exact .inl happ
      · rw [List.mem_singleton.mp (List.mem_of_getElem? happ)] at hp
        cases hp
  | step j =>
      obtain ⟨c, hc, hmoved⟩ := moved_of_step hs
      obtain ⟨phase, hcalls, -, hsynced⟩ := hmoved.calls_eq h hc
      rw [hcalls] at hc'
      rcases getElem?_setCall hc' with ⟨-, rfl⟩ | ⟨-, hold⟩
      · exact .inr ⟨c, List.mem_of_getElem? hc, rfl, rfl, hsynced o hp⟩
      · exact .inl hold

/-- Every run keeps the invariant. -/
theorem Inv.run {as : List Action} (h : Inv w) (hrun : Runs.run World.step w as = some w') :
    Inv w' :=
  Runs.run_induction (fun _ _ _ h hs => h.step hs) h hrun

/-! ## Going on -/

/-- A lock is with a call that makes a limiter. -/
def Busy (w : World) : Prop := ∀ n i, (w.managers n).lock = some i →
  ∃ c rqs, w.calls[i]? = some c ∧ c.node = n ∧ c.phase = .creating rqs

theorem Busy.start (quotas : Tenant.Id → Option ℤ) : Busy (start quotas) := nofun

/-- A call that does not have a lock goes on. -/
theorem Busy.setCall (h : Busy w) (hi : ∀ n, (w.managers n).lock ≠ some i) :
    Busy (w.setCall i c phase) := by
  intro n j hj
  have hij : i ≠ j := by
    rintro rfl
    exact hi n hj
  obtain ⟨c', rqs, hc', hrest⟩ := h n j hj
  exact ⟨c', rqs, getElem?_setCall_ne hij hc', hrest⟩

/-- A call that is not making a limiter has no lock. -/
theorem Busy.lock_ne (h : Busy w) (hc : w.calls[i]? = some c)
    (hp : ∀ rqs, c.phase ≠ .creating rqs) : (w.managers n).lock ≠ some i := by
  intro hlock
  obtain ⟨c', rqs, hc', -, hp'⟩ := h n i hlock
  obtain rfl := Option.some.inj (hc.symm.trans hc')
  exact hp rqs hp'

/-- A call gives its lock back. -/
theorem Busy.unlock (h : Busy w) (hc : w.calls[i]? = some c)
    (hcalls : w'.calls = (w.setCall i c phase).calls)
    (hlock : ∀ m, (w'.managers m).lock = if m = c.node then none else (w.managers m).lock) :
    Busy w' := by
  intro m j hj
  rw [hlock m] at hj
  split at hj
  · cases hj
  · rename_i hne
    obtain ⟨c', rqs, hc', hn, hp⟩ := h m j hj
    have hij : i ≠ j := by
      rintro rfl
      obtain rfl := Option.some.inj (hc.symm.trans hc')
      exact hne hn.symm
    exact ⟨c', rqs, hcalls ▸ getElem?_setCall_ne hij hc', hn, hp⟩

/-- Every section of a call keeps the lock with its holder. -/
theorem Busy.moved (h : Busy w) (hc : w.calls[i]? = some c) (hs : Moved w i c w') : Busy w' := by
  have hgo : ∀ {p : Phase}, c.phase = p → (∀ rqs, p ≠ .creating rqs) →
      ∀ n, (w.managers n).lock ≠ some i := by
    rintro p rfl hp n
    exact h.lock_ne hc hp
  cases hs with
  | take o hp => exact h.setCall (hgo hp nofun)
  | acquire hp =>
      intro n j hj
      have hlock : (if n = c.node then some i else (w.managers n).lock) = some j :=
        lock_setLock.symm.trans hj
      split at hlock
      · rename_i hn
        obtain rfl := Option.some.inj hlock
        exact ⟨_, _, getElem?_setCall_self (w := w.setLock c.node (some i)) c _ hc, hn.symm, rfl⟩
      · have hij : i ≠ j := by
          rintro rfl
          exact hgo hp nofun n hlock
        obtain ⟨c', rqs, hc', hrest⟩ := h n j hlock
        exact ⟨c', rqs, getElem?_setCall_ne (w := w.setLock c.node (some i)) hij hc', hrest⟩
  | create l =>
      refine h.unlock hc rfl fun m => ?_
      show (((w.addLimiter c.node l).setLock c.node none).managers m).lock = _
      rw [lock_setLock, lock_addLimiter]
  | release => exact h.unlock hc rfl fun m => lock_setLock
  | leave hp => exact h.setCall fun n => h.lock_ne hc hp
  | read o hp => exact h.setCall (hgo hp nofun)
  | same o rqs hp => exact h.setCall (hgo hp nofun)
  | differ o rqs hp => exact h.setCall (hgo hp nofun)
  | write o rqs hp => exact Busy.setCall (w := w.setLimit o rqs) h (hgo hp nofun)

theorem Busy.step (h : Busy w) (hs : w.step a = some w') : Busy w' := by
  cases a with
  | setConfig | deleteConfig =>
      obtain rfl := Option.some.inj hs
      exact h
  | call node tid sync =>
      obtain rfl := Option.some.inj hs
      intro n i hlock
      obtain ⟨c, rqs, hc, hrest⟩ := h n i hlock
      refine ⟨c, rqs, ?_, hrest⟩
      exact (List.getElem?_append_left (List.getElem?_eq_some_iff.mp hc).1).trans hc
  | step =>
      obtain ⟨c, hc, hmoved⟩ := moved_of_step hs
      exact h.moved hc hmoved

theorem Busy.run {as : List Action} (h : Busy w) (hrun : Runs.run World.step w as = some w') :
    Busy w' :=
  Runs.run_induction (fun _ _ _ h hs => h.step hs) h hrun

/-- The calls can go on from one state to the other. -/
def Leads (w w' : World) : Prop :=
  ∃ as, Runs.run step w as = some w' ∧ ∀ a ∈ as, a.writes = none

theorem Leads.refl (w : World) : Leads w w := ⟨[], rfl, nofun⟩

theorem Leads.trans {w'' : World} (h : Leads w w') (h' : Leads w' w'') : Leads w w'' := by
  obtain ⟨as, hrun, has⟩ := h
  obtain ⟨bs, hrun', hbs⟩ := h'
  refine ⟨as ++ bs, Runs.run_append_eq_some.mpr ⟨w', hrun, hrun'⟩, fun a ha => ?_⟩
  exact (List.mem_append.mp ha).elim (has a) (hbs a)

theorem Leads.of_step (ha : a.writes = none) (hs : w.step a = some w') : Leads w w' := by
  refine ⟨[a], by rw [Runs.run_singleton, hs], fun b hb => ?_⟩
  rw [List.mem_singleton.mp hb, ha]

/-- A call goes on. -/
theorem Leads.of_advance {getConfig : Bool} {instanceCount : ℤ} (hc : w.calls[i]? = some c)
    (hs : w.advance i c getConfig instanceCount = some w') : Leads w w' :=
  .of_step (a := .step i getConfig instanceCount) rfl (Option.bind_eq_some_iff.mpr ⟨c, hc, hs⟩)

/-- A lock that is taken can be given back. -/
theorem exists_unlocked (h : Busy w) (n : ℕ) : ∃ w', Leads w w' ∧
    (w'.managers n).lock = none ∧ ∀ tid, w'.tenantRqs tid = w.tenantRqs tid := by
  cases hlock : (w.managers n).lock with
  | none => exact ⟨w, .refl w, hlock, fun _ => rfl⟩
  | some i =>
      obtain ⟨c, rqs, hc, hn, hp⟩ := h n i hlock
      have hs : w.advance i c true 0 = some ((w.setLock c.node none).setCall i c .returned) := by
        simp only [advance, hp, if_pos]
      refine ⟨_, .of_advance hc hs, ?_, fun _ => rfl⟩
      show ((w.setLock c.node none).managers n).lock = none
      rw [lock_setLock, if_pos hn.symm]

/-- The limiter is made and the lock given back. -/
theorem advance_creating (hp : c.phase = .creating rqs) : w.advance i c true 1 =
    some (((w.addLimiter c.node ⟨c.tid, rqs.tdiv 1, rqs⟩).setLock c.node none).setCall i c
      (.got w.limiters.length)) := by
  simp [advance, hp]

/-- The call reads the quota of its tenant. -/
theorem advance_got (hp : c.phase = .got o) (hsync : c.sync = true) :
    w.advance i c true 1 = some (w.setCall i c (.setting o (w.tenantRqs c.tid))) := by
  simp [advance, hp, hsync]

/-- A limit that is another one is about to be written. -/
theorem advance_setting (hp : c.phase = .setting o rqs) (hlimit : w.limitOf o ≠ some rqs) :
    w.advance i c true 1 = some (w.setCall i c (.writing o rqs)) := by
  simp [advance, hp, hlimit]

/-- The limit is written. -/
theorem advance_writing (hp : c.phase = .writing o rqs) (hrqs : 0 ≤ rqs) :
    w.advance i c true 1 = some ((w.setLimit o rqs).setCall i c (.synced o)) := by
  simp [advance, hp, not_lt.mpr hrqs]

/-- When the lock is free, a call gets its limiter. -/
theorem exists_got (hc : w.calls[i]? = some c) (hp : c.phase = .start)
    (hlock : (w.managers c.node).lock = none) : ∃ w' o, Leads w w' ∧
      w'.calls[i]? = some { c with phase := .got o } ∧
        ∀ tid, w'.tenantRqs tid = w.tenantRqs tid := by
  cases he : w.entry c.node c.tid with
  | some o =>
      have hs : w.advance i c true 1 = some (w.setCall i c (.got o)) := by
        simp [advance, hp, hlock, he]
      exact ⟨_, o, .of_advance hc hs, getElem?_setCall_self _ _ hc, fun _ => rfl⟩
  | none =>
      have hs : w.advance i c true 1 =
          some ((w.setLock c.node (some i)).setCall i c (.creating (w.tenantRqs c.tid))) := by
        simp [advance, hp, hlock, he]
      have hc' := getElem?_setCall_self (w := w.setLock c.node (some i)) c
        (.creating (w.tenantRqs c.tid)) hc
      exact ⟨_, _, (Leads.of_advance hc hs).trans (.of_advance hc' (advance_creating rfl)),
        getElem?_setCall_self _ _ hc', fun _ => rfl⟩

/-- A `SyncItem` that has its limiter can set the stored quota. -/
theorem exists_synced (h : Inv w) (hc : w.calls[i]? = some c) (hsync : c.sync = true)
    (hp : c.phase = .got o) (hquota : 0 ≤ w.tenantRqs c.tid) :
    ∃ w', Leads w w' ∧ w'.limit c.node c.tid = some (w.tenantRqs c.tid) := by
  have he := h.entry_of_phase hc hp rfl
  by_cases hlimit : w.limitOf o = some (w.tenantRqs c.tid)
  · exact ⟨w, .refl w, (limit_of_entry he).trans hlimit⟩
  · have hsetting := getElem?_setCall_self c (.setting o (w.tenantRqs c.tid)) hc
    have hwriting := getElem?_setCall_self { c with phase := .setting o (w.tenantRqs c.tid) }
      (.writing o (w.tenantRqs c.tid)) hsetting
    have hleads := ((Leads.of_advance hc (advance_got hp hsync)).trans
      (.of_advance hsetting (advance_setting rfl hlimit))).trans
        (.of_advance hwriting (advance_writing rfl hquota))
    refine ⟨_, hleads, ?_⟩
    show (w.setLimit o (w.tenantRqs c.tid)).limit c.node c.tid = _
    rw [limit_setLimit h he, if_pos ⟨rfl, rfl⟩]

end World

open World

variable {quotas : Tenant.Id → Option ℤ} {w w' : World} {as bs : List Action} {n i : ℕ}
  {tid : Tenant.Id} {rqs : ℤ}

/-- The quota was stored for the tenant at some moment of the run. -/
def WasStored (quotas : Tenant.Id → Option ℤ) (as : List Action) (tid : Tenant.Id)
    (rqs : ℤ) : Prop :=
  ∃ bs v, bs <+: as ∧ Runs.run step (start quotas) bs = some v ∧ v.tenantRqs tid = rqs

/-- What was stored was stored in longer runs too. -/
theorem WasStored.append (h : WasStored quotas as tid rqs) (bs : List Action) :
    WasStored quotas (as ++ bs) tid rqs := by
  obtain ⟨cs, v, hprefix, hrun, hrqs⟩ := h
  exact ⟨cs, v, hprefix.trans (List.prefix_append as bs), hrun, hrqs⟩

/-- The limits, and the quotas that calls have read, were stored. -/
structure AllStored (quotas : Tenant.Id → Option ℤ) (as : List Action) (w : World) : Prop where
  run : Runs.run step (start quotas) as = some w
  inv : Inv w
  limits : ∀ n tid rqs, w.limit n tid = some rqs → WasStored quotas as tid rqs
  calls : ∀ c ∈ w.calls, ∀ rqs, c.phase.rqs = some rqs → WasStored quotas as c.tid rqs

theorem AllStored.start (quotas : Tenant.Id → Option ℤ) : AllStored quotas [] (start quotas) where
  run := rfl
  inv := Inv.start quotas
  limits _ _ _ h := nomatch h
  calls _ h := nomatch h

/-- What the calls have read was stored before. -/
theorem AllStored.step {a : Action} (h : AllStored quotas as w) (hs : w.step a = some w') :
    AllStored quotas (as ++ [a]) w' where
  run := Runs.run_append_eq_some.mpr ⟨w, h.run, by rw [Runs.run_singleton, hs]⟩
  inv := h.inv.step hs
  limits n tid rqs hlimit := by
    rcases limit_step h.inv hs n tid with heq | ⟨c, hc, -, rfl, r, hr, heq⟩
    · exact (h.limits n tid rqs (heq.symm.trans hlimit)).append [a]
    · obtain rfl := Option.some.inj (heq.symm.trans hlimit)
      exact (h.calls c hc r hr).append [a]
  calls c' hc' rqs hrqs := by
    rcases rqs_step h.inv hs hc' hrqs with rfl | ⟨c, hc, -, htid, hr⟩
    · exact ⟨as, w, List.prefix_append as [a], h.run, rfl⟩
    · exact htid ▸ (h.calls c hc rqs hr).append [a]

/-- In every run, the limit of a node for a tenant is a quota that was stored for the tenant. -/
theorem limit_was_stored (hrun : Runs.run step (start quotas) as = some w)
    (hlimit : w.limit n tid = some rqs) : WasStored quotas as tid rqs := by
  have hall : AllStored quotas as w :=
    Runs.run_induction_trace (fun _ _ _ _ h hs => h.step hs) (AllStored.start quotas) hrun
  exact hall.limits n tid rqs hlimit

/-- A tenant. -/
abbrev sampleId : Tenant.Id := ⟨"acme", "tv"⟩

/-- A limiter is made with a quota of 10, which is then changed to 20. -/
abbrev sampleRun : List Action :=
  [.call 0 sampleId true, .step 0 true 2, .step 0 true 2, .setConfig sampleId 20]

/-- The limit is still the first quota. -/
theorem limit_was_stored_sample : ∃ w, Runs.run step (start fun _ => some 10) sampleRun = some w ∧
    w.limit 0 sampleId = some 10 ∧ WasStored (fun _ => some 10) sampleRun sampleId 10 := by
  have hrun : (Runs.run step (start fun _ => some 10) sampleRun).map
      (fun w => w.limit 0 sampleId) = some (some 10) := by decide +kernel
  obtain ⟨w, hw, hlimit⟩ := Option.map_eq_some_iff.mp hrun
  exact ⟨w, hw, hlimit, limit_was_stored hw hlimit⟩

/-- The quota of the tenant stays `rqs`, the calls of the node for it have read no other, and from
the end of the call `i` on it is the limit of the node. -/
structure Settling (n : ℕ) (tid : Tenant.Id) (i : ℕ) (rqs : ℤ) (w : World) : Prop where
  inv : Inv w
  quota : w.tenantRqs tid = rqs
  calls : ∀ c ∈ w.calls, c.node = n → c.tid = tid → ∀ r, c.phase.rqs = some r → r = rqs
  limit : ∀ c o, w.calls[i]? = some c → c.node = n → c.tid = tid → c.phase = .synced o →
    w.limit n tid = some rqs

/-- While no quota is written the sync still settles. -/
theorem Settling.step {a : Action} (h : Settling n tid i rqs w) (ha : a.writes ≠ some tid)
    (hs : w.step a = some w') : Settling n tid i rqs w' where
  inv := h.inv.step hs
  quota := (tenantRqs_step hs ha).trans h.quota
  calls c' hc' hn ht r hr := by
    rcases rqs_step h.inv hs hc' hr with rfl | ⟨c, hc, hn', ht', hr'⟩
    · rw [ht, h.quota]
    · exact h.calls c hc (hn'.trans hn) (ht'.trans ht) r hr'
  limit c' o hc' hn ht hp := by
    rcases synced_step h.inv hs hc' hp with hold | ⟨c, hc, hn', ht', r, hr, heq⟩
    · -- the call has ended before: the limit is as it was, or the same quota is set again
      have hlimit := h.limit c' o hold hn ht hp
      rcases limit_step h.inv hs n tid with heq | ⟨c, hc, hn', ht', r, hr, heq⟩
      · exact heq.trans hlimit
      · rw [heq, h.calls c hc hn' ht' r hr]
    · rw [hn, ht] at heq
      rw [heq, h.calls c hc (hn'.trans hn) (ht'.trans ht) r hr]

/-- After the last change of a tenant, when the calls of a node for it hold no older quota, a
`SyncItem` of the node that ends from then on leaves the stored quota as the limit, and it
stays. -/
theorem converges {c : Call} {o : ℕ} (hrun : Runs.run step (start quotas) as = some w)
    (hcalls : ∀ c ∈ w.calls, c.node = n → c.tid = tid →
      ∀ r, c.phase.rqs = some r → r = w.tenantRqs tid)
    (hbefore : ∀ c o, w.calls[i]? = some c → c.phase ≠ .synced o)
    (hrun' : Runs.run step w bs = some w') (hwrites : ∀ a ∈ bs, a.writes ≠ some tid)
    (hc : w'.calls[i]? = some c) (hnode : c.node = n) (htid : c.tid = tid)
    (hsynced : c.phase = .synced o) : w'.limit n tid = some (w'.tenantRqs tid) := by
  have hstart : Settling n tid i (w.tenantRqs tid) w :=
    ⟨(Inv.start quotas).run hrun, rfl, hcalls, fun c o hc _ _ hp => absurd hp (hbefore c o hc)⟩
  have halong : Runs.Along step (fun _ a => a.writes ≠ some tid) w bs :=
    Runs.along_of_forall hwrites
  have hsettling : Settling n tid i (w.tenantRqs tid) w' :=
    Runs.run_induction_along (fun _ _ _ h ha hs => h.step ha hs) hstart halong hrun'
  rw [hsettling.quota]
  exact hsettling.limit c o hc hnode htid hsynced

/-- The `SyncItem` reads 20 and sets it. -/
theorem converges_sample : ∃ w', Runs.run step (start fun _ => some 10)
    (sampleRun ++ [.step 0 true 2, .step 0 true 2, .step 0 true 2]) = some w' ∧
      w'.tenantRqs sampleId = 20 ∧ w'.limit 0 sampleId = some (w'.tenantRqs sampleId) := by
  have hrun : (Runs.run step (start fun _ => some 10)
      (sampleRun ++ [.step 0 true 2, .step 0 true 2, .step 0 true 2])).map
        (fun w => (w.calls, w.tenantRqs sampleId)) =
          some ([⟨0, sampleId, true, .synced 0⟩], 20) := by decide +kernel
  have hrun₀ : (Runs.run step (start fun _ => some 10) sampleRun).map World.calls =
      some [⟨0, sampleId, true, .got 0⟩] := by decide +kernel
  obtain ⟨w', hw', heq⟩ := Option.map_eq_some_iff.mp hrun
  obtain ⟨hcalls', hquota⟩ := Prod.mk.inj heq
  obtain ⟨w, hw, hrest⟩ := Runs.run_append_eq_some.mp hw'
  have hcalls : w.calls = [⟨0, sampleId, true, .got 0⟩] := by
    rw [hw] at hrun₀
    exact Option.some.inj hrun₀
  refine ⟨w', hw', hquota, ?_⟩
  refine converges (i := 0) (c := ⟨0, sampleId, true, .synced 0⟩) hw ?_ ?_ hrest ?_ ?_ rfl rfl rfl
  · intro c hc _ _ r hr
    rw [hcalls, List.mem_singleton] at hc
    rw [hc] at hr
    cases hr
  · intro c o hc hp
    rw [hcalls] at hc
    obtain rfl := Option.some.inj hc
    cases hp
  · intro a ha
    fin_cases ha <;> exact nofun
  · rw [hcalls']
    rfl

/-- A call that holds an older quota sets 20 after the other call has set 30. -/
example : (Runs.run step (start fun _ => some 10) (sampleRun ++ [.call 0 sampleId true,
    .step 1 true 2, .step 0 true 2, .setConfig sampleId 30, .step 1 true 2, .step 1 true 2,
    .step 1 true 2, .step 0 true 2, .step 0 true 2])).map
      (fun w => (w.limit 0 sampleId, w.tenantRqs sampleId)) = some (some 20, 30) := by
  decide +kernel

/-- From every reachable state the calls can go on, without a change of a tenant, so that a node
gets the stored quota of a tenant as its limit. -/
theorem can_sync (hrun : Runs.run step (start quotas) as = some w) (n : ℕ)
    (hquota : 0 ≤ w.tenantRqs tid) : ∃ bs w', Runs.run step w bs = some w' ∧
      (∀ a ∈ bs, a.writes = none) ∧ w'.limit n tid = some (w.tenantRqs tid) := by
  obtain ⟨w₁, hunlock, hlock, hquota₁⟩ := exists_unlocked ((Busy.start quotas).run hrun) n
  -- a new call of `SyncItem`
  have hcall : Leads w₁ { w₁ with calls := w₁.calls ++ [⟨n, tid, true, .start⟩] } :=
    .of_step (a := .call n tid true) rfl rfl
  obtain ⟨w₂, o, hgot, hc, hquota₂⟩ := exists_got
    (w := { w₁ with calls := w₁.calls ++ [⟨n, tid, true, .start⟩] })
    (c := ⟨n, tid, true, .start⟩) List.getElem?_concat_length rfl hlock
  have hquota' : w₂.tenantRqs tid = w.tenantRqs tid := (hquota₂ tid).trans (hquota₁ tid)
  obtain ⟨cs, hcs, hwrites⟩ := (hunlock.trans hcall).trans hgot
  have hinv : Inv w₂ := ((Inv.start quotas).run hrun).run hcs
  obtain ⟨w', ⟨ds, hds, hwrites'⟩, hlimit⟩ := exists_synced hinv hc rfl rfl (hquota' ▸ hquota)
  refine ⟨cs ++ ds, w', Runs.run_append_eq_some.mpr ⟨w₂, hcs, hds⟩, fun a ha => ?_, ?_⟩
  · exact (List.mem_append.mp ha).elim (hwrites a) (hwrites' a)
  · exact hlimit.trans (congrArg some hquota')

/-- Also while a call has the lock to make the limiter. -/
theorem can_sync_sample : ∃ w, Runs.run step (start fun _ => some 10) (sampleRun.take 2) = some w ∧
    (w.managers 0).lock = some 0 ∧ ∃ bs w', Runs.run step w bs = some w' ∧
      (∀ a ∈ bs, a.writes = none) ∧ w'.limit 0 sampleId = some (w.tenantRqs sampleId) := by
  have hrun : (Runs.run step (start fun _ => some 10) (sampleRun.take 2)).map
      (fun w => ((w.managers 0).lock, w.tenantRqs sampleId)) = some (some 0, 10) := by
    decide +kernel
  obtain ⟨w, hw, heq⟩ := Option.map_eq_some_iff.mp hrun
  obtain ⟨hlock, hquota⟩ := Prod.mk.inj heq
  exact ⟨w, hw, hlock, can_sync hw 0 (by rw [hquota]; decide)⟩

end Quota
