/-
# The batch filter (`pkg/filter/batch/filter.go`)

The filter collects events in a buffer.  A call that finds the buffer full makes one event of the
payloads in it, acknowledges the events, and empties the buffer.  Appending, reading the size,
copying the payloads, acknowledging and emptying are separate steps, and calls of other goroutines
may come between them.

The batch is right as long as a call copies a full buffer and nobody appends or copies until that
call has emptied it (`lossless_of_run`).  An event that is appended in between is lost when the
buffer is emptied, and a second copy emits the payloads twice.
-/
import Ears.Runs

namespace Batch

/-- What a call of `Filter` does next.  The payloads that it has copied are given by their events,
and `reset` is the last step of a call that returns a batch. -/
inductive Phase where
  | append
  | size
  | clone
  | copy
  | setMetadata (copied : List ℕ)
  | setPayload (copied : List ℕ)
  | ack (copied : List ℕ)
  | reset (copied : List ℕ)
  | drop
  | discard
  | returned
  | panicked
  deriving DecidableEq, Repr

/-- The payloads that a call has copied from a buffer it has not emptied yet. -/
def Phase.copied : Phase → Option (List ℕ)
  | setMetadata c => some c
  | setPayload c => some c
  | ack c => some c
  | reset c => some c
  | _ => none

/-- The filter and its calls.  The event of a call is the number of the call; `acks` are the events
that were acknowledged, and `emitted` the batches that were returned. -/
structure Filter where
  batch : List ℕ
  calls : List Phase
  acks : List ℕ
  emitted : List (List ℕ)
  deriving DecidableEq, Repr

/-- `Filter` is called, or a call goes on.  `ok` says that a step on the new event succeeds: its
`Clone`, `SetMetadata` or `SetPayload`. -/
inductive Action where
  | call
  | proceed (i : ℕ) (ok : Bool)
  deriving DecidableEq, Repr

namespace Filter

/-- `NewFilter`. -/
def new : Filter := ⟨[], [], [], []⟩

/-- The call goes on with another phase. -/
def setCall (f : Filter) (i : ℕ) (p : Phase) : Filter := { f with calls := f.calls.set i p }

/-- The next step of a call.  A failed `Clone` returns no event, and acknowledging that panics. -/
def proceed (batchSize : ℕ) (f : Filter) (i : ℕ) (ok : Bool) : Phase → Option Filter
  | .append => some ({ f with batch := f.batch ++ [i] }.setCall i .size)
  | .size => some (f.setCall i (if batchSize ≤ f.batch.length then .clone else .returned))
  | .clone => some (f.setCall i (if ok then .copy else .panicked))
  | .copy => some (f.setCall i (.setMetadata f.batch))
  | .setMetadata c => some (f.setCall i (if ok then .setPayload c else .drop))
  | .setPayload c => some (f.setCall i (if ok then .ack c else .drop))
  | .ack c => some ({ f with acks := f.batch ++ f.acks }.setCall i (.reset c))
  | .reset c => some ({ f with batch := [], emitted := c :: f.emitted }.setCall i .returned)
  | .drop => some ({ f with acks := f.batch ++ f.acks }.setCall i .discard)
  | .discard => some ({ f with batch := [] }.setCall i .returned)
  | .returned => none
  | .panicked => none

/-- A step of the filter. -/
def step (batchSize : ℕ) (f : Filter) : Action → Option Filter
  | .call => some { f with calls := f.calls ++ [.append] }
  | .proceed i ok =>
      match f.calls[i]? with
      | none => none
      | some p => f.proceed batchSize i ok p

/-- No call has copied the buffer and not emptied it yet. -/
def Uncopied (f : Filter) : Prop := ∀ p ∈ f.calls, p.copied = none

instance (f : Filter) : Decidable f.Uncopied := inferInstanceAs (Decidable (∀ p ∈ f.calls, _))

/-- The next step of a call in this phase is a good one: it appends or copies only when no other
call is between its copy and its emptying of the buffer, it copies a full buffer, and the new
event takes the metadata and the payload. -/
def Good (batchSize : ℕ) (f : Filter) (ok : Bool) : Phase → Prop
  | .append => f.Uncopied
  | .copy => f.Uncopied ∧ batchSize ≤ f.batch.length
  | .setMetadata _ => ok = true
  | .setPayload _ => ok = true
  | .drop => False
  | .discard => False
  | _ => True

instance (batchSize : ℕ) (f : Filter) (ok : Bool) (p : Phase) : Decidable (f.Good batchSize ok p) :=
  by cases p <;> unfold Good <;> infer_instance

/-- Every step of a call is a good one. -/
def Guarded (batchSize : ℕ) (f : Filter) : Action → Prop
  | .call => True
  | .proceed i ok => ∀ p ∈ f.calls[i]?, f.Good batchSize ok p

instance (batchSize : ℕ) (f : Filter) : (a : Action) → Decidable (f.Guarded batchSize a)
  | .call => isTrue trivial
  | .proceed i ok => inferInstanceAs (Decidable (∀ p ∈ f.calls[i]?, f.Good batchSize ok p))

/-- The event of the call is in the buffer, or was. -/
def Appended (f : Filter) (k : ℕ) : Prop := ∃ p, f.calls[k]? = some p ∧ p ≠ .append

/-- Nothing is lost or repeated: every event that was appended is in one batch or in the buffer,
the batches are full, their events are acknowledged once, and those in the buffer are not, unless a
call has just acknowledged them and is about to empty it. -/
structure Lossless (batchSize : ℕ) (f : Filter) : Prop where
  once : ∀ k, f.Appended k → (f.emitted.flatten ++ f.batch).count k = 1
  full : ∀ b ∈ f.emitted, batchSize ≤ b.length
  ackedOnce : ∀ b ∈ f.emitted, ∀ k ∈ b, f.acks.count k = 1
  unacked : (∀ c, Phase.reset c ∉ f.calls) → ∀ k ∈ f.batch, f.acks.count k = 0

/-- The invariant: there is at most one copy, and it is the buffer. -/
structure Inv (batchSize : ℕ) (f : Filter) : Prop where
  -- an event that was not appended is in no batch and not acknowledged
  appended : ∀ k, f.Appended k → (f.emitted.flatten ++ f.batch).count k = 1
  fresh : ∀ k, ¬ f.Appended k → (f.emitted.flatten ++ f.batch).count k = 0 ∧ f.acks.count k = 0
  copied : ∀ (i : ℕ) (p : Phase) c, f.calls[i]? = some p → p.copied = some c →
    c = f.batch ∧ batchSize ≤ f.batch.length ∧
      ∀ k ∈ f.batch, f.acks.count k = if p = .reset c then 1 else 0
  alone : ∀ (i j : ℕ) (p q : Phase), f.calls[i]? = some p → f.calls[j]? = some q → p.copied.isSome →
    q.copied.isSome → i = j
  uncopied : f.Uncopied → ∀ k ∈ f.batch, f.acks.count k = 0
  full : ∀ b ∈ f.emitted, batchSize ≤ b.length
  ackedOnce : ∀ b ∈ f.emitted, ∀ k ∈ b, f.acks.count k = 1

variable {f g : Filter} {batchSize i k : ℕ} {ok : Bool} {p q : Phase}

/-- The calls after one of them has gone on. -/
theorem getElem?_setCall {j : ℕ} (h : (f.calls.set i p)[j]? = some q) :
    (j = i ∧ q = p) ∨ j ≠ i ∧ f.calls[j]? = some q := by
  rw [List.getElem?_set] at h
  split at h <;> rename_i hij
  · split at h
    · exact .inl ⟨hij.symm, (Option.some.inj h).symm⟩
    · cases h
  · exact .inr ⟨fun heq => hij heq.symm, h⟩

/-- A call that goes on after `append` has appended its event as before. -/
theorem appended_set (hi : f.calls[i]? = some q) (hp : p ≠ .append) (hq : q ≠ .append) :
    (f.setCall i p).Appended k ↔ f.Appended k := by
  obtain ⟨hlt, -⟩ := List.getElem?_eq_some_iff.mp hi
  constructor
  · rintro ⟨r, hr, hne⟩
    rcases getElem?_setCall hr with ⟨rfl, rfl⟩ | ⟨-, hr⟩
    · exact ⟨q, hi, hq⟩
    · exact ⟨r, hr, hne⟩
  · rintro ⟨r, hr, hne⟩
    by_cases hk : k = i
    · subst hk
      exact ⟨p, by simp [setCall, hlt], hp⟩
    · exact ⟨r, by simp [setCall, Ne.symm hk, hr], hne⟩

theorem Uncopied.of_getElem? (h : f.Uncopied) (hi : f.calls[i]? = some p) : p.copied = none :=
  h p (List.mem_of_getElem? hi)

/-- A call that goes on without touching the buffer. -/
theorem Inv.goOn (h : f.Inv batchSize) (hi : f.calls[i]? = some q) (hp : p ≠ .append)
    (hq : q ≠ .append) (hcopied : p.copied = q.copied)
    (hreset : ∀ c, p ≠ .reset c) (hreset' : ∀ c, q ≠ .reset c) : (f.setCall i p).Inv batchSize := by
  have happ : ∀ k, (f.setCall i p).Appended k ↔ f.Appended k := fun k => appended_set hi hp hq
  refine ⟨fun k hk => h.appended k ((happ k).mp hk), fun k hk => h.fresh k (mt (happ k).mpr hk), ?_,
    ?_, ?_, h.full, h.ackedOnce⟩
  · intro j r c hr hc
    rcases getElem?_setCall hr with ⟨rfl, rfl⟩ | ⟨-, hr⟩
    · have hold := h.copied j q c hi (hcopied ▸ hc)
      simp only [if_neg (hreset c), if_neg (hreset' c)] at hold ⊢
      exact hold
    · exact h.copied j r c hr hc
  · intro j j' r r' hr hr' hc hc'
    rcases getElem?_setCall hr with ⟨rfl, rfl⟩ | ⟨-, hs⟩ <;>
      rcases getElem?_setCall hr' with ⟨rfl, rfl⟩ | ⟨-, hs'⟩
    · rfl
    · exact h.alone j j' q r' hi hs' (hcopied ▸ hc) hc'
    · exact h.alone j j' r q hs hi hc (hcopied ▸ hc')
    · exact h.alone j j' r r' hs hs' hc hc'
  · intro hun
    apply h.uncopied
    intro r hr
    obtain ⟨j, hj⟩ := List.getElem?_of_mem hr
    by_cases hji : j = i
    · subst hji
      obtain rfl := Option.some.inj (hi.symm.trans hj)
      obtain ⟨hlt, -⟩ := List.getElem?_eq_some_iff.mp hi
      rw [← hcopied]
      exact hun p (List.mem_of_getElem? (i := j) (by simp [Filter.setCall, hlt]))
    · exact hun r (List.mem_of_getElem? (i := j) (by simp [Filter.setCall, Ne.symm hji, hj]))

/-- The only call that holds a copy. -/
theorem Inv.uncopied_of_alone (h : f.Inv batchSize) (hi : f.calls[i]? = some q)
    (hq : q.copied.isSome) (hp : p.copied = none) : (f.setCall i p).Uncopied := by
  intro r hr
  obtain ⟨j, hj⟩ := List.getElem?_of_mem hr
  rcases getElem?_setCall hj with ⟨rfl, rfl⟩ | ⟨hne, hj⟩
  · exact hp
  · by_contra hr
    exact hne (h.alone j i r q hj hi (Option.isSome_iff_ne_none.mpr hr) hq)

/-- An event is appended when nobody holds a copy. -/
theorem Inv.append (h : f.Inv batchSize) (hi : f.calls[i]? = some .append) (hun : f.Uncopied) :
    ({ f with batch := f.batch ++ [i] }.setCall i .size).Inv batchSize := by
  obtain ⟨hlt, -⟩ := List.getElem?_eq_some_iff.mp hi
  have hnot : ¬ f.Appended i := by
    rintro ⟨r, hr, hne⟩
    exact hne (Option.some.inj (hr.symm.trans hi))
  have hself : ({ f with batch := f.batch ++ [i] }.setCall i .size).Appended i :=
    ⟨.size, by simp [setCall, hlt], by simp⟩
  have happ : ∀ k, k ≠ i →
      (({ f with batch := f.batch ++ [i] }.setCall i .size).Appended k ↔ f.Appended k) := by
    intro k hk
    unfold Appended
    simp only [setCall, List.getElem?_set, if_neg (Ne.symm hk)]
  have hcount : ∀ k, (f.emitted.flatten ++ (f.batch ++ [i])).count k =
      (f.emitted.flatten ++ f.batch).count k + if i = k then 1 else 0 := by
    intro k
    rw [← List.append_assoc, List.count_append, List.count_singleton]
    simp only [beq_iff_eq]
  have hnone : ∀ (j : ℕ) (r : Phase), ({ f with batch := f.batch ++ [i] }.setCall i .size).calls[j]? =
      some r → r.copied = none := by
    intro j r hr
    rcases getElem?_setCall hr with ⟨rfl, rfl⟩ | ⟨-, hr⟩
    · rfl
    · exact hun.of_getElem? hr
  refine ⟨fun k hk => ?_, fun k hk => ?_, ?_, ?_, ?_, h.full, h.ackedOnce⟩
  · refine (hcount k).trans ?_
    by_cases hki : k = i
    · rw [if_pos hki.symm, hki, (h.fresh i hnot).1]
    · rw [if_neg (Ne.symm hki), h.appended k ((happ k hki).mp hk)]
  · have hki : k ≠ i := by
      rintro rfl
      exact hk hself
    have hold := h.fresh k (mt (happ k hki).mpr hk)
    refine ⟨(hcount k).trans ?_, hold.2⟩
    rw [if_neg (Ne.symm hki), hold.1]
  · intro j r c hr hc
    rw [hnone j r hr] at hc
    cases hc
  · intro j j' r r' hr hr' hc hc'
    rw [hnone j r hr] at hc
    cases hc
  · intro _ k hk
    rcases List.mem_append.mp hk with hk | hk
    · exact h.uncopied hun k hk
    · rw [List.mem_singleton.mp hk]
      exact (h.fresh i hnot).2

/-- A full buffer is copied when nobody holds a copy. -/
theorem Inv.copy (h : f.Inv batchSize) (hi : f.calls[i]? = some .copy) (hun : f.Uncopied)
    (hfull : batchSize ≤ f.batch.length) :
    (f.setCall i (.setMetadata f.batch)).Inv batchSize := by
  have happ : ∀ k, (f.setCall i (.setMetadata f.batch)).Appended k ↔ f.Appended k :=
    fun k => appended_set hi (by simp) (by simp)
  have hold : ∀ (j : ℕ) (r : Phase), (f.setCall i (.setMetadata f.batch)).calls[j]? = some r →
      r.copied.isSome → j = i ∧ r = .setMetadata f.batch := by
    intro j r hr hc
    rcases getElem?_setCall hr with hji | ⟨-, hr⟩
    · exact hji
    · rw [hun.of_getElem? hr] at hc
      cases hc
  refine ⟨fun k hk => h.appended k ((happ k).mp hk), fun k hk => h.fresh k (mt (happ k).mpr hk), ?_,
    ?_, fun _ => h.uncopied hun, h.full, h.ackedOnce⟩
  · intro j r c hr hc
    obtain ⟨rfl, rfl⟩ := hold j r hr (by rw [hc]; rfl)
    obtain rfl := Option.some.inj hc
    refine ⟨rfl, hfull, fun k hk => ?_⟩
    rw [if_neg (by simp)]
    exact h.uncopied hun k hk
  · intro j j' r r' hr hr' hc hc'
    exact (hold j r hr hc).1.trans (hold j' r' hr' hc').1.symm

/-- An event in the buffer is there once, and in no batch. -/
theorem Inv.count_of_mem (h : f.Inv batchSize) (hk : k ∈ f.batch) :
    f.batch.count k = 1 ∧ f.emitted.flatten.count k = 0 := by
  have hpos := List.count_pos_iff.mpr hk
  have hsum : (f.emitted.flatten ++ f.batch).count k =
      f.emitted.flatten.count k + f.batch.count k := List.count_append
  by_cases happ : f.Appended k
  · have hone := h.appended k happ
    omega
  · have hzero := (h.fresh k happ).1
    omega

/-- The events in the buffer are acknowledged by the call that holds the copy. -/
theorem Inv.ack (h : f.Inv batchSize) {c : List ℕ} (hi : f.calls[i]? = some (.ack c)) :
    ({ f with acks := f.batch ++ f.acks }.setCall i (.reset c)).Inv batchSize := by
  obtain ⟨hlt, -⟩ := List.getElem?_eq_some_iff.mp hi
  obtain ⟨hc, hfull, hacks⟩ := h.copied i _ c hi rfl
  have hcount : ∀ k, (f.batch ++ f.acks).count k = f.batch.count k + f.acks.count k :=
    fun k => List.count_append
  have happ : ∀ k, (f.setCall i (.reset c)).Appended k ↔ f.Appended k :=
    fun k => appended_set hi (by simp) (by simp)
  -- it is still the only one
  have hold : ∀ (j : ℕ) (r : Phase), (f.setCall i (.reset c)).calls[j]? = some r →
      r.copied.isSome → j = i ∧ r = .reset c := by
    intro j r hr hrc
    rcases getElem?_setCall hr with hji | ⟨hne, hr⟩
    · exact hji
    · exact absurd (h.alone j i r _ hr hi hrc rfl) hne
  refine ⟨fun k hk => h.appended k ((happ k).mp hk), fun k hk => ?_, ?_, ?_, ?_, h.full, ?_⟩
  · obtain ⟨hzero, hacks⟩ := h.fresh k (mt (happ k).mpr hk)
    refine ⟨hzero, (hcount k).trans ?_⟩
    rw [List.count_append] at hzero
    omega
  · intro j r c' hr hc'
    obtain ⟨rfl, rfl⟩ := hold j r hr (by rw [hc']; rfl)
    obtain rfl := Option.some.inj hc'
    refine ⟨hc, hfull, fun k hk => (hcount k).trans ?_⟩
    rw [if_pos rfl, (h.count_of_mem hk).1, hacks k hk, if_neg (by simp)]
  · intro j j' r r' hr hr' hrc hrc'
    exact (hold j r hr hrc).1.trans (hold j' r' hr' hrc').1.symm
  · intro hun
    have hnone := hun (.reset c) (List.mem_of_getElem? (i := i) (by simp [Filter.setCall, hlt]))
    cases hnone
  · intro b hb k hk
    have hpos : 0 < f.emitted.flatten.count k :=
      List.count_pos_iff.mpr (List.mem_flatten_of_mem hb hk)
    have hnot : k ∉ f.batch := fun hmem => by
      have hzero := (h.count_of_mem hmem).2
      omega
    refine (hcount k).trans ?_
    rw [List.count_eq_zero.mpr hnot, h.ackedOnce b hb k hk]

/-- The copy is emitted and the buffer is emptied. -/
theorem Inv.reset (h : f.Inv batchSize) {c : List ℕ} (hi : f.calls[i]? = some (.reset c)) :
    ({ f with batch := [], emitted := c :: f.emitted }.setCall i .returned).Inv batchSize := by
  obtain ⟨rfl, hfull, hacks⟩ := h.copied i _ c hi rfl
  have happ : ∀ k, (f.setCall i .returned).Appended k ↔ f.Appended k :=
    fun k => appended_set hi (by simp) (by simp)
  have hun := h.uncopied_of_alone (p := .returned) hi rfl rfl
  have hcount : ∀ k, ((f.batch :: f.emitted).flatten ++ []).count k =
      (f.emitted.flatten ++ f.batch).count k := by
    intro k
    rw [List.append_nil, List.flatten_cons, List.count_append, List.count_append, Nat.add_comm]
  refine ⟨fun k hk => (hcount k).trans (h.appended k ((happ k).mp hk)), fun k hk => ?_, ?_, ?_, ?_,
    ?_, ?_⟩
  · have hold := h.fresh k (mt (happ k).mpr hk)
    exact ⟨(hcount k).trans hold.1, hold.2⟩
  · intro j r c' hr hc'
    rw [hun.of_getElem? hr] at hc'
    cases hc'
  · intro j j' r r' hr hr' hc hc'
    rw [hun.of_getElem? hr] at hc
    cases hc
  · intro _ k hk
    cases hk
  · intro b hb
    rcases List.mem_cons.mp hb with rfl | hb
    · exact hfull
    · exact h.full b hb
  · intro b hb k hk
    rcases List.mem_cons.mp hb with rfl | hb
    · exact (hacks k hk).trans (if_pos rfl)
    · exact h.ackedOnce b hb k hk

/-- A new call. -/
theorem Inv.call (h : f.Inv batchSize) : Inv batchSize { f with calls := f.calls ++ [.append] } := by
  have hcases : ∀ (j : ℕ) (r : Phase), (f.calls ++ [.append])[j]? = some r →
      f.calls[j]? = some r ∨ r = .append := by
    intro j r hr
    rcases List.mem_append.mp (List.mem_of_getElem? hr) with - | hmem
    · rw [List.getElem?_append] at hr
      split at hr
      · exact .inl hr
      · exact .inr (List.mem_singleton.mp (List.mem_of_getElem? hr))
    · exact .inr (List.mem_singleton.mp hmem)
  have happ : ∀ k, Appended { f with calls := f.calls ++ [.append] } k ↔ f.Appended k := by
    intro k
    constructor
    · rintro ⟨r, hr, hne⟩
      rcases hcases k r hr with hr | rfl
      · exact ⟨r, hr, hne⟩
      · exact absurd rfl hne
    · rintro ⟨r, hr, hne⟩
      obtain ⟨hlt, -⟩ := List.getElem?_eq_some_iff.mp hr
      exact ⟨r, (List.getElem?_append_left hlt).trans hr, hne⟩
  refine ⟨fun k hk => h.appended k ((happ k).mp hk), fun k hk => h.fresh k (mt (happ k).mpr hk), ?_,
    ?_, ?_, h.full, h.ackedOnce⟩
  · intro j r c hr hc
    rcases hcases j r hr with hr | rfl
    · exact h.copied j r c hr hc
    · cases hc
  · intro j j' r r' hr hr' hc hc'
    rcases hcases j r hr with hr | rfl
    · rcases hcases j' r' hr' with hr' | rfl
      · exact h.alone j j' r r' hr hr' hc hc'
      · cases hc'
    · cases hc
  · intro hun
    exact h.uncopied fun r hr => hun r (List.mem_append_left _ hr)

/-- Every good step keeps the invariant. -/
theorem Inv.step (h : f.Inv batchSize) {a : Action} (hguard : f.Guarded batchSize a)
    (hs : f.step batchSize a = some g) : g.Inv batchSize := by
  cases a with
  | call =>
      obtain rfl := Option.some.inj hs
      exact h.call
  | proceed i ok =>
      simp only [Filter.step] at hs
      split at hs
      · cases hs
      · rename_i p hi
        have hgood := hguard p hi
        cases p with
        | append =>
            obtain rfl := Option.some.inj hs
            exact h.append hi hgood
        | size =>
            obtain rfl := Option.some.inj hs
            split
            · exact h.goOn hi (by simp) (by simp) rfl (by simp) (by simp)
            · exact h.goOn hi (by simp) (by simp) rfl (by simp) (by simp)
        | clone =>
            obtain rfl := Option.some.inj hs
            split
            · exact h.goOn hi (by simp) (by simp) rfl (by simp) (by simp)
            · exact h.goOn hi (by simp) (by simp) rfl (by simp) (by simp)
        | copy =>
            obtain rfl := Option.some.inj hs
            exact h.copy hi hgood.1 hgood.2
        | setMetadata c =>
            obtain rfl := Option.some.inj hs
            rw [if_pos (show ok = true from hgood)]
            exact h.goOn hi (by simp) (by simp) rfl (by simp) (by simp)
        | setPayload c =>
            obtain rfl := Option.some.inj hs
            rw [if_pos (show ok = true from hgood)]
            exact h.goOn hi (by simp) (by simp) rfl (by simp) (by simp)
        | ack c =>
            obtain rfl := Option.some.inj hs
            exact h.ack hi
        | reset c =>
            obtain rfl := Option.some.inj hs
            exact h.reset hi
        | drop => exact hgood.elim
        | discard => exact hgood.elim
        | returned => cases hs
        | panicked => cases hs

/-- The invariant says that nothing is lost or repeated. -/
theorem Inv.lossless (h : f.Inv batchSize) : f.Lossless batchSize := by
  refine ⟨h.appended, h.full, h.ackedOnce, fun hreset k hk => ?_⟩
  by_cases hun : f.Uncopied
  · exact h.uncopied hun k hk
  · -- the call that holds a copy has not acknowledged the events yet
    obtain ⟨p, hp, hsome⟩ : ∃ p ∈ f.calls, p.copied ≠ none := by
      simpa [Uncopied] using hun
    obtain ⟨i, hi⟩ := List.getElem?_of_mem hp
    obtain ⟨c, hc⟩ := Option.ne_none_iff_exists'.mp hsome
    have hacks := (h.copied i p c hi hc).2.2 k hk
    have hne : p ≠ .reset c := by
      rintro rfl
      exact hreset c hp
    rwa [if_neg hne] at hacks

/-- **Batching.**  In every run whose steps are all good, nothing is lost or repeated in any state
that is reached. -/
theorem lossless_of_run (batchSize : ℕ) (acts : List Action) (f : Filter)
    (hguard : Runs.Along (step batchSize) (Guarded batchSize) new acts)
    (hrun : Runs.run (step batchSize) new acts = some f) : f.Lossless batchSize := by
  have h : f.Inv batchSize := by
    apply Runs.run_induction_along (fun f a g h hG hs => Inv.step h hG hs) _ hguard hrun
    refine ⟨?_, fun k hk => ⟨rfl, rfl⟩, ?_, ?_, ?_, ?_, ?_⟩ <;> simp [new, Appended]
  exact h.lossless

/-- Two calls: the second event is appended after the first call has copied the buffer. -/
def racing : List Action :=
  [.call, .call, .proceed 0 true, .proceed 0 true, .proceed 0 true, .proceed 0 true, .proceed 1 true,
    .proceed 0 true, .proceed 0 true, .proceed 0 true, .proceed 0 true, .proceed 1 true]

/-- The second event is acknowledged and in no batch. -/
theorem racing_loses : Runs.run (step 1) new racing =
      some ⟨[], [.returned, .returned], [0, 1], [[0]]⟩ ∧
    ¬ Lossless 1 ⟨[], [.returned, .returned], [0, 1], [[0]]⟩ := by
  refine ⟨by decide, fun h => ?_⟩
  have hone := h.once 1 ⟨.returned, rfl, by decide⟩
  exact absurd hone (by decide)

/-- Three calls and batches of two events; the first two both find the buffer full, and the third
event is appended before the second call copies. -/
def crowded : List Action :=
  [.call, .call, .call, .proceed 0 true, .proceed 1 true, .proceed 0 true, .proceed 1 true,
    .proceed 2 true, .proceed 1 true, .proceed 1 true, .proceed 1 true, .proceed 1 true,
    .proceed 1 true, .proceed 1 true, .proceed 2 true]

/-- The three events are in one batch. -/
theorem lossless_of_run_crowded : Runs.run (step 2) new crowded =
      some ⟨[], [.clone, .returned, .returned], [0, 1, 2], [[0, 1, 2]]⟩ ∧
    Lossless 2 ⟨[], [.clone, .returned, .returned], [0, 1, 2], [[0, 1, 2]]⟩ :=
  ⟨by decide, lossless_of_run 2 crowded _ (by decide) (by decide)⟩

end Filter

end Batch
