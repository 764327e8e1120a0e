/-
# Replicas of one stored value

Several nodes share one stored value, and each keeps a live copy of what it makes of it.
A node that puts a new value applies it to its own copy, writes the store, and announces
the change to the other nodes; a node that removes the value deletes it, announces that,
and drops its own copy.  An announcement is a message that says *put* or *removed*; the
nodes handle their messages in the order of publication, and on *put* they read the store.

The steps of different calls and of the message handlers interleave.  `Inv` is kept by all
steps that are `Orderly`, and once nothing is left to do the copies agree with the store
(`Inv.agree`).  Calls on different nodes may put values at the same time: the store keeps the
last one, and the messages make the nodes read it.  What has to be excluded happens while a
node has applied a value and not written it yet (another put there, the handling of its last
message, a deletion anywhere), while a value has been deleted and not dropped yet (a put
anywhere), and while the last message of a node is a removal (a put there).
-/
import Ears.Runs

namespace Replicas

variable {ι γ η : Type*}

/-- What a call does next. -/
inductive Phase (γ : Type*) where
  | apply (c : γ)
  | write (c : γ)
  | announce (c : γ)
  | delete
  | withdraw
  | drop

/-- The call has deleted the value and not dropped its copy yet. -/
def Phase.Removes : Phase γ → Prop
  | .withdraw | .drop => True
  | .apply _ | .write _ | .announce _ | .delete => False

/-- The stored value, the live copies, the messages that wait at each node, and the calls on
their way with the nodes they run on. -/
@[ext] structure State (ι γ η : Type*) where
  stored : Option γ
  live : ι → Option η
  inbox : ι → List Bool
  calls : ℕ → Option (ι × Phase γ)

/-- Start a call in a free slot, run the next step of a call, or handle a message. -/
inductive Event (ι γ : Type*) where
  | put (n : ℕ) (i : ι) (c : γ)
  | remove (n : ℕ) (i : ι)
  | proceed (n : ℕ)
  | deliver (i : ι)

section Steps

variable [DecidableEq ι] (goal : ι → γ → Option η)

/-- What a message does to the copy of a node: *put* reads the store, and does nothing if it
is empty. -/
def receive (i : ι) (stored : Option γ) (live : Option η) : Bool → Option η
  | true =>
      match stored with
      | none => live
      | some c => goal i c
  | false => none

/-- Send a message to all other nodes. -/
def publish (inbox : ι → List Bool) (i : ι) (put : Bool) : ι → List Bool :=
  fun j => if j = i then inbox j else inbox j ++ [put]

/-- The next step of a call. -/
def advance (s : State ι γ η) (n : ℕ) (i : ι) : Phase γ → State ι γ η
  | .apply c =>
      { s with
        live := Function.update s.live i (goal i c)
        calls := Function.update s.calls n (some (i, .write c)) }
  | .write c =>
      { s with
        stored := some c
        calls := Function.update s.calls n (some (i, .announce c)) }
  | .announce _ =>
      { s with
        inbox := publish s.inbox i true
        calls := Function.update s.calls n none }
  | .delete =>
      { s with
        stored := none
        calls := Function.update s.calls n (some (i, .withdraw)) }
  | .withdraw =>
      { s with
        inbox := publish s.inbox i false
        calls := Function.update s.calls n (some (i, .drop)) }
  | .drop =>
      { s with
        live := Function.update s.live i none
        calls := Function.update s.calls n none }

/-- One step. -/
def step (s : State ι γ η) : Event ι γ → Option (State ι γ η)
  | .put n i c =>
      match s.calls n with
      | none => some { s with calls := Function.update s.calls n (some (i, .apply c)) }
      | some _ => none
  | .remove n i =>
      match s.calls n with
      | none => some { s with calls := Function.update s.calls n (some (i, .delete)) }
      | some _ => none
  | .proceed n =>
      match s.calls n with
      | none => none
      | some (i, p) => some (advance goal s n i p)
  | .deliver i =>
      match s.inbox i with
      | [] => none
      | m :: rest =>
          some { s with
            live := Function.update s.live i (receive goal i s.stored (s.live i) m)
            inbox := Function.update s.inbox i rest }

end Steps

/-- The steps that keep the nodes together.  A value is applied when no removal is between its
deletion and its drop, no other value is to be written on the node, and the last message that
waits there is not a removal; it is deleted when no value is to be written; and the last message
of a node is not handled while a value is to be written there. -/
def Orderly (s : State ι γ η) : Event ι γ → Prop
  | .put _ _ _ | .remove _ _ => True
  | .proceed n =>
      (∀ i c, s.calls n = some (i, .apply c) →
        (∀ m j p, s.calls m = some (j, p) → ¬ p.Removes) ∧
          (∀ m d, s.calls m ≠ some (i, .write d)) ∧ (s.inbox i).getLast? ≠ some false) ∧
      (∀ i, s.calls n = some (i, .delete) → ∀ m j d, s.calls m ≠ some (j, .write d))
  | .deliver i => (s.inbox i).length = 1 → ∀ n c, s.calls n ≠ some (i, .write c)

/-! ## What the waiting messages will do -/

variable {goal : ι → γ → Option η} {i : ι} {c : γ} {stored : Option γ} {live : Option η}
  {msgs : List Bool}

/-- The copy of a node after it has handled some messages. -/
def settle (goal : ι → γ → Option η) (i : ι) (stored : Option γ) (live : Option η)
    (msgs : List Bool) : Option η :=
  msgs.foldl (receive goal i stored) live

theorem settle_cons (m : Bool) : settle goal i stored live (m :: msgs) =
    settle goal i stored (receive goal i stored live m) msgs := rfl

theorem settle_append (m : Bool) : settle goal i stored live (msgs ++ [m]) =
    receive goal i stored (settle goal i stored live msgs) m := by
  unfold settle
  rw [List.foldl_append]
  rfl

/-- A node whose last message is *put* ends with the stored value. -/
theorem settle_of_put (h : msgs.getLast? = some true) :
    settle goal i (some c) live msgs = goal i c := by
  obtain ⟨init, rfl⟩ := List.getLast?_eq_some_iff.mp h
  rw [settle_append]
  rfl

/-- A node whose copy is what it should be for a new value keeps it, unless its last message
is a removal. -/
theorem settle_of_ready (hlast : msgs.getLast? ≠ some false) (hlive : msgs = [] → live = goal i c) :
    settle goal i (some c) live msgs = goal i c := by
  cases hm : msgs.getLast? with
  | none =>
      obtain rfl := List.getLast?_eq_none_iff.mp hm
      exact hlive rfl
  | some m =>
      cases m with
      | false => exact absurd hm hlast
      | true => exact settle_of_put hm

/-- When nothing is stored, an empty copy stays empty. -/
theorem settle_none : settle goal i none none msgs = none := by
  induction msgs with
  | nil => rfl
  | cons m msgs ih =>
      rw [settle_cons]
      cases m with
      | true => exact ih
      | false => exact ih

/-! ## The invariant -/

/-- The node will agree with the store once it has handled its messages. -/
def Good (goal : ι → γ → Option η) (s : State ι γ η) (i : ι) : Prop :=
  settle goal i s.stored (s.live i) (s.inbox i) = s.stored.bind (goal i)

/-- The call will still make the copy of node `i` right: it is about to write the value that the
node has applied, it has deleted the value, or it will tell the node to read the store. -/
def Repairs (stored : Option γ) (i j : ι) : Phase γ → Prop
  | .write _ | .drop => j = i
  | .withdraw => True
  | .announce _ => j ≠ i ∧ stored ≠ none
  | .apply _ | .delete => False

/-- A call on its way will still make the copy of the node right. -/
def Promised (s : State ι γ η) (i : ι) : Prop :=
  ∃ n j p, s.calls n = some (j, p) ∧ Repairs s.stored i j p

/-- What holds in every state of an orderly run. -/
structure Inv (goal : ι → γ → Option η) (s : State ι γ η) : Prop where
  settled : ∀ i, Good goal s i ∨ Promised s i
  apart : ∀ n m i j p c, s.calls n = some (i, p) → p.Removes → s.calls m ≠ some (j, .write c)
  single : ∀ n m i c d, s.calls n = some (i, .write c) → s.calls m = some (i, .write d) → n = m
  write : ∀ n i c, s.calls n = some (i, .write c) →
    (s.inbox i).getLast? ≠ some false ∧ (s.inbox i = [] → s.live i = goal i c)
  removed : ∀ n i p, s.calls n = some (i, p) → p.Removes → s.stored = none

/-- No call is on its way and no message waits. -/
def Quiet (s : State ι γ η) : Prop := (∀ n, s.calls n = none) ∧ ∀ i, s.inbox i = []

/-- When nothing is left to do, the copies agree with the store. -/
theorem Inv.agree {s : State ι γ η} (h : Inv goal s) (hq : Quiet s) (i : ι) :
    s.live i = s.stored.bind (goal i) := by
  rcases h.settled i with hgood | ⟨n, j, p, hcall, -⟩
  · unfold Good at hgood
    rw [hq.2 i] at hgood
    exact hgood
  · rw [hq.1 n] at hcall
    simp at hcall

/-! ## Every orderly step keeps the invariant -/

section Preservation

variable {s s' : State ι γ η} {n : ℕ} {p q : Phase γ}

/-- A call in an updated slot table is the new one or an old one in another slot. -/
theorem calls_update {calls : ℕ → Option (ι × Phase γ)} {o : Option (ι × Phase γ)}
    {x : ι × Phase γ} {m : ℕ} (h : Function.update calls n o m = some x) :
    m = n ∧ o = some x ∨ m ≠ n ∧ calls m = some x := by
  rcases eq_or_ne m n with rfl | hne
  · rw [Function.update_self] at h
    exact Or.inl ⟨rfl, h⟩
  · rw [Function.update_of_ne hne] at h
    exact Or.inr ⟨hne, h⟩

/-- The calls after a slot has changed to `o`, if `o` is no call that is about to write. -/
theorem write_of_update {o : Option (ι × Phase γ)} (ho : ∀ i c, o ≠ some (i, .write c)) {m : ℕ}
    {i : ι} {c : γ} (h : Function.update s.calls n o m = some (i, .write c)) :
    s.calls m = some (i, .write c) := by
  rcases calls_update h with ⟨-, heq⟩ | ⟨-, hm⟩
  · exact absurd heq (ho i c)
  · exact hm

/-- The calls after a slot has changed to `o`, if `o` is no removal or its call was one before. -/
theorem removes_of_update {o : Option (ι × Phase γ)}
    (ho : ∀ i p, o = some (i, p) → p.Removes → ∃ q, s.calls n = some (i, q) ∧ q.Removes) {m : ℕ}
    {i : ι} {p : Phase γ} (h : Function.update s.calls n o m = some (i, p)) (hp : p.Removes) :
    ∃ q, s.calls m = some (i, q) ∧ q.Removes := by
  rcases calls_update h with ⟨rfl, heq⟩ | ⟨-, hm⟩
  · exact ho i p heq hp
  · exact ⟨p, hm, hp⟩

/-- A promise that the call at `n` has not given outlives the end of its step. -/
theorem Promised.update {stored : Option γ} {live : ι → Option η} {inbox : ι → List Bool}
    {o : Option (ι × Phase γ)} (h : Promised s i) (hstored : s.stored ≠ none → stored ≠ none)
    (hn : ∀ j p, s.calls n = some (j, p) → ¬ Repairs s.stored i j p) :
    Promised ⟨stored, live, inbox, Function.update s.calls n o⟩ i := by
  obtain ⟨m, j, p, hm, hrep⟩ := h
  have hne : m ≠ n := by
    rintro rfl
    exact hn j p hm hrep
  refine ⟨m, j, p, (Function.update_of_ne hne _ _).trans hm, ?_⟩
  cases p with
  | announce c => exact ⟨hrep.1, hstored hrep.2⟩
  | _ => exact hrep

/-- A new call in a free slot has done nothing yet. -/
theorem Inv.start (h : Inv goal s) (hslot : s.calls n = none)
    (hp : ∀ c, p ≠ .write c) (hp' : ¬ p.Removes) :
    Inv goal { s with calls := Function.update s.calls n (some (i, p)) } := by
  have hwrite : ∀ {m j c}, Function.update s.calls n (some (i, p)) m = some (j, .write c) →
      s.calls m = some (j, .write c) :=
    write_of_update fun j c heq => hp c (Prod.mk.inj (Option.some.inj heq)).2
  have hremoves : ∀ {m j q}, Function.update s.calls n (some (i, p)) m = some (j, q) →
      q.Removes → ∃ q, s.calls m = some (j, q) ∧ q.Removes :=
    removes_of_update fun j q heq hq =>
      absurd ((Prod.mk.inj (Option.some.inj heq)).2 ▸ hq) hp'
  constructor
  case settled =>
    intro j
    rcases h.settled j with hgood | hprom
    · exact Or.inl hgood
    · exact Or.inr (hprom.update id fun k q hq => by rw [hslot] at hq; simp at hq)
  case apart =>
    intro m m' j k q c hm hq hm'
    obtain ⟨q', hm, hq'⟩ := hremoves hm hq
    exact h.apart m m' j k q' c hm hq' (hwrite hm')
  case single =>
    exact fun m m' j c d hm hm' => h.single m m' j c d (hwrite hm) (hwrite hm')
  case write =>
    exact fun m j c hm => h.write m j c (hwrite hm)
  case removed =>
    intro m j q hm hq
    obtain ⟨q', hm, hq'⟩ := hremoves hm hq
    exact h.removed m j q' hm hq'

variable [DecidableEq ι]

/-- A put applies its value to the copy of its own node. -/
theorem Inv.advance_apply (h : Inv goal s) (hcall : s.calls n = some (i, .apply c))
    (hremoves : ∀ m j p, s.calls m = some (j, p) → ¬ p.Removes)
    (hfree : ∀ m d, s.calls m ≠ some (i, .write d)) (hlast : (s.inbox i).getLast? ≠ some false) :
    Inv goal (advance goal s n i (.apply c)) := by
  have hnone : ∀ m j q, Function.update s.calls n (some (i, .write c)) m = some (j, q) →
      ¬ q.Removes := by
    intro m j q hm
    rcases calls_update hm with ⟨-, heq⟩ | ⟨-, hm⟩
    · obtain ⟨-, rfl⟩ := Prod.mk.inj (Option.some.inj heq)
      exact id
    · exact hremoves m j q hm
  -- the other calls that are about to write run on other nodes
  have hwrites : ∀ m j d, Function.update s.calls n (some (i, .write c)) m = some (j, .write d) →
      m = n ∧ j = i ∧ d = c ∨ j ≠ i ∧ s.calls m = some (j, .write d) := by
    intro m j d hm
    rcases calls_update hm with ⟨rfl, heq⟩ | ⟨-, hold⟩
    · obtain ⟨rfl, hd⟩ := Prod.mk.inj (Option.some.inj heq)
      exact Or.inl ⟨rfl, rfl, (Phase.write.inj hd).symm⟩
    · refine Or.inr ⟨?_, hold⟩
      rintro rfl
      exact hfree m d hold
  constructor
  case settled =>
    intro j
    rcases eq_or_ne j i with rfl | hj
    · exact Or.inr ⟨n, j, .write c, Function.update_self _ _ _, rfl⟩
    · rcases h.settled j with hgood | hprom
      · refine Or.inl ?_
        show settle goal j s.stored (Function.update s.live i _ j) (s.inbox j) = _
        rw [Function.update_of_ne hj]
        exact hgood
      · refine Or.inr (hprom.update id fun k q hq => ?_)
        rw [hcall] at hq
        obtain ⟨-, rfl⟩ := Prod.mk.inj (Option.some.inj hq)
        exact id
  case apart =>
    exact fun m m' j k q d hm hq => absurd hq (hnone m j q hm)
  case single =>
    intro m m' j d e hm hm'
    rcases hwrites m j d hm with ⟨rfl, rfl, rfl⟩ | ⟨hj, hm⟩ <;>
      rcases hwrites m' _ e hm' with ⟨rfl, hj', rfl⟩ | ⟨hj', hm'⟩
    · rfl
    · exact absurd rfl hj'
    · exact absurd hj' hj
    · exact h.single m m' j d e hm hm'
  case write =>
    intro m j d hm
    show (s.inbox j).getLast? ≠ some false ∧ (s.inbox j = [] → Function.update s.live i _ j = _)
    rcases hwrites m j d hm with ⟨-, rfl, rfl⟩ | ⟨hj, hm⟩
    · rw [Function.update_self]
      exact ⟨hlast, fun _ => rfl⟩
    · rw [Function.update_of_ne hj]
      exact h.write m j d hm
  case removed =>
    exact fun m j q hm hq => absurd hq (hnone m j q hm)

/-- A put writes its value; the other nodes will be told. -/
theorem Inv.advance_write (h : Inv goal s) (hcall : s.calls n = some (i, .write c)) :
    Inv goal (advance goal s n i (.write c)) := by
  obtain ⟨hlast, hlive⟩ := h.write n i c hcall
  have hwrite : ∀ {m j d},
      Function.update s.calls n (some (i, .announce c)) m = some (j, .write d) →
      s.calls m = some (j, .write d) := write_of_update fun j d => by simp
  have hnone : ∀ m j q, Function.update s.calls n (some (i, .announce c)) m = some (j, q) →
      ¬ q.Removes := by
    intro m j q hm hq
    rcases calls_update hm with ⟨-, heq⟩ | ⟨-, hm⟩
    · obtain ⟨-, rfl⟩ := Prod.mk.inj (Option.some.inj heq)
      exact hq
    · exact h.apart m n j i q c hm hq hcall
  constructor
  case settled =>
    intro j
    rcases eq_or_ne j i with rfl | hj
    · exact Or.inl (settle_of_ready hlast hlive)
    · exact Or.inr ⟨n, i, .announce c, Function.update_self _ _ _, hj.symm, by simp [advance]⟩
  case apart =>
    exact fun m m' j k q d hm hq => absurd hq (hnone m j q hm)
  case single =>
    exact fun m m' j d e hm hm' => h.single m m' j d e (hwrite hm) (hwrite hm')
  case write =>
    exact fun m j d hm => h.write m j d (hwrite hm)
  case removed =>
    exact fun m j q hm hq => absurd hq (hnone m j q hm)

/-- A call that has sent a message to the other nodes and goes on with `o`: what is left to show
is that they end right, and that its own node does. -/
theorem Inv.published (h : Inv goal s) {put : Bool} {o : Option (ι × Phase γ)}
    (hcall : s.calls n = some (i, p))
    (ho : ∀ j q, o = some (j, q) → j = i ∧ q = .drop ∧ p.Removes)
    (hput : put = false → p.Removes)
    (hsettled : ∀ j, Good goal ⟨s.stored, s.live, publish s.inbox i put, Function.update s.calls n o⟩ j ∨
      Promised (⟨s.stored, s.live, publish s.inbox i put, Function.update s.calls n o⟩ :
        State ι γ η) j) :
    Inv goal ⟨s.stored, s.live, publish s.inbox i put, Function.update s.calls n o⟩ := by
  have hwrite : ∀ {m j d}, Function.update s.calls n o m = some (j, .write d) →
      s.calls m = some (j, .write d) :=
    write_of_update fun j d heq => by simpa using (ho j _ heq).2.1
  have hremoves : ∀ {m j q}, Function.update s.calls n o m = some (j, q) → q.Removes →
      ∃ q, s.calls m = some (j, q) ∧ q.Removes :=
    removes_of_update fun j q heq _ => by
      obtain ⟨rfl, -, hp⟩ := ho j q heq
      exact ⟨p, hcall, hp⟩
  constructor
  case settled => exact hsettled
  case apart =>
    intro m m' j k q c hm hq hm'
    obtain ⟨q', hm, hq'⟩ := hremoves hm hq
    exact h.apart m m' j k q' c hm hq' (hwrite hm')
  case single =>
    exact fun m m' j d e hm hm' => h.single m m' j d e (hwrite hm) (hwrite hm')
  case write =>
    intro m j d hm
    have hold := hwrite hm
    show (publish s.inbox i put j).getLast? ≠ some false ∧
      (publish s.inbox i put j = [] → s.live j = goal j d)
    unfold publish
    split
    · exact h.write m j d hold
    · -- a removal is not announced next to a value that is to be written
      cases put with
      | true => simp
      | false => exact absurd hold (h.apart n m i j p d hcall (hput rfl))
  case removed =>
    intro m j q hm hq
    obtain ⟨q', hm, hq'⟩ := hremoves hm hq
    exact h.removed m j q' hm hq'

/-- A put is announced. -/
theorem Inv.advance_announce (h : Inv goal s) (hcall : s.calls n = some (i, .announce c)) :
    Inv goal (advance goal s n i (.announce c)) := by
  refine h.published hcall (fun _ _ ho => by simp at ho) (fun hput => by simp at hput) fun j => ?_
  -- a promise that was not the announcement's own is still there
  have hprom : (j = i ∨ s.stored = none) → Promised s j → Promised
      ⟨s.stored, s.live, publish s.inbox i true, Function.update s.calls n none⟩ j := by
    intro hj hprom
    refine hprom.update id fun k q hq hrep => ?_
    rw [hcall] at hq
    obtain ⟨rfl, rfl⟩ := Prod.mk.inj (Option.some.inj hq)
    rcases hj with rfl | hnone
    · exact hrep.1 rfl
    · exact hrep.2 hnone
  unfold Good
  dsimp only [publish]
  split
  · rename_i hj
    exact (h.settled j).imp id (hprom (Or.inl hj))
  · cases hstored : s.stored with
    | some d =>
        rw [settle_append]
        exact Or.inl rfl
    | none =>
        -- the message finds nothing in the store
        rw [settle_append, ← hstored]
        refine (h.settled j).imp (fun hgood => ?_) (hprom (Or.inr hstored))
        rw [← hgood, hstored]
        rfl

/-- A removal deletes the value; all nodes will be told, or drop their copy. -/
theorem Inv.advance_delete (hfree : ∀ m j d, s.calls m ≠ some (j, .write d)) :
    Inv goal (advance goal s n i .delete) := by
  have hnone : ∀ {m j d}, Function.update s.calls n (some (i, .withdraw)) m ≠
      some (j, .write d) := by
    intro m j d hm
    exact hfree m j d (write_of_update (fun _ _ => by simp) hm)
  constructor
  case settled =>
    exact fun j => Or.inr ⟨n, i, .withdraw, Function.update_self _ _ _, trivial⟩
  case apart => exact fun _ _ _ _ _ _ _ _ => hnone
  case single => exact fun _ _ _ _ _ hm => absurd hm hnone
  case write => exact fun _ _ _ hm => absurd hm hnone
  case removed => exact fun _ _ _ _ _ => rfl

/-- A removal is announced. -/
theorem Inv.advance_withdraw (h : Inv goal s) (hcall : s.calls n = some (i, .withdraw)) :
    Inv goal (advance goal s n i .withdraw) := by
  have hstored := h.removed n i _ hcall trivial
  refine h.published hcall ?_ (fun _ => trivial) fun j => ?_
  · intro j q ho
    obtain ⟨rfl, rfl⟩ := Prod.mk.inj (Option.some.inj ho)
    exact ⟨rfl, rfl, trivial⟩
  · rcases eq_or_ne j i with rfl | hj
    · exact Or.inr ⟨n, j, .drop, Function.update_self _ _ _, rfl⟩
    · refine Or.inl ?_
      show settle goal j s.stored (s.live j) (publish s.inbox i false j) = s.stored.bind (goal j)
      unfold publish
      rw [if_neg hj, settle_append, hstored]
      rfl

/-- A removal drops the copy of its own node. -/
theorem Inv.advance_drop (h : Inv goal s) (hcall : s.calls n = some (i, .drop)) :
    Inv goal (advance goal s n i .drop) := by
  have hstored := h.removed n i _ hcall trivial
  have hnone : ∀ {m j d}, Function.update s.calls n none m ≠ some (j, .write d) := by
    intro m j d hm
    exact h.apart n m i j _ d hcall trivial (write_of_update (fun _ _ => by simp) hm)
  constructor
  case settled =>
    intro j
    rcases eq_or_ne j i with rfl | hj
    · refine Or.inl ?_
      show settle goal j s.stored (Function.update s.live j none j) (s.inbox j) = s.stored.bind (goal j)
      rw [Function.update_self, hstored]
      exact settle_none
    · rcases h.settled j with hgood | hprom
      · refine Or.inl ?_
        show settle goal j s.stored (Function.update s.live i none j) (s.inbox j) = _
        rw [Function.update_of_ne hj]
        exact hgood
      · refine Or.inr (hprom.update id fun k q hq hrep => hj ?_)
        rw [hcall] at hq
        obtain ⟨rfl, rfl⟩ := Prod.mk.inj (Option.some.inj hq)
        exact hrep.symm
  case apart => exact fun _ _ _ _ _ _ _ _ => hnone
  case single => exact fun _ _ _ _ _ hm => absurd hm hnone
  case write => exact fun _ _ _ hm => absurd hm hnone
  case removed => exact fun _ _ _ _ _ => hstored

/-- The next step of a call, in order. -/
theorem Inv.advance (h : Inv goal s) (he : Orderly s (.proceed n))
    (hcall : s.calls n = some (i, p)) : Inv goal (advance goal s n i p) := by
  cases p with
  | apply c =>
      obtain ⟨hremoves, hfree, hlast⟩ := he.1 i c hcall
      exact h.advance_apply hcall hremoves hfree hlast
  | write c => exact h.advance_write hcall
  | announce c => exact h.advance_announce hcall
  | delete => exact Inv.advance_delete (he.2 i hcall)
  | withdraw => exact h.advance_withdraw hcall
  | drop => exact h.advance_drop hcall

/-- A node handles a message. -/
theorem Inv.deliver (h : Inv goal s) {m : Bool} {rest : List Bool} (hinbox : s.inbox i = m :: rest)
    (hwrite : rest = [] → ∀ n c, s.calls n ≠ some (i, .write c)) :
    Inv goal { s with
      live := Function.update s.live i (receive goal i s.stored (s.live i) m)
      inbox := Function.update s.inbox i rest } := by
  -- handling the first message does not change what all of them lead to
  have hgood : ∀ j, Good goal s j → Good goal { s with
      live := Function.update s.live i (receive goal i s.stored (s.live i) m)
      inbox := Function.update s.inbox i rest } j := by
    intro j hj
    unfold Good at hj ⊢
    dsimp only
    rcases eq_or_ne j i with rfl | hne
    · rw [hinbox, settle_cons] at hj
      rw [Function.update_self, Function.update_self]
      exact hj
    · rw [Function.update_of_ne hne, Function.update_of_ne hne]
      exact hj
  refine ⟨fun j => (h.settled j).imp (hgood j) id, h.apart, h.single, fun n j c hn => ?_, h.removed⟩
  show (Function.update s.inbox i rest j).getLast? ≠ some false ∧
    (Function.update s.inbox i rest j = [] → Function.update s.live i _ j = goal j c)
  rcases eq_or_ne j i with rfl | hne
  · -- the last message is still there
    obtain ⟨hlast, -⟩ := h.write n j c hn
    rw [hinbox] at hlast
    rw [Function.update_self]
    cases rest with
    | nil => exact absurd hn (hwrite rfl n c)
    | cons m' rest =>
        rw [List.getLast?_cons_cons] at hlast
        exact ⟨hlast, fun hnil => by simp at hnil⟩
  · rw [Function.update_of_ne hne, Function.update_of_ne hne]
    exact h.write n j c hn

/-- Every orderly step keeps the invariant. -/
theorem Inv.step (h : Inv goal s) {e : Event ι γ} (he : Orderly s e)
    (hs : step goal s e = some s') : Inv goal s' := by
  cases e with
  | put n i c =>
      cases hcall : s.calls n with
      | some x => simp [Replicas.step, hcall] at hs
      | none =>
          simp only [Replicas.step, hcall, Option.some.injEq] at hs
          exact hs ▸ h.start hcall (fun _ => by simp) id
  | remove n i =>
      cases hcall : s.calls n with
      | some x => simp [Replicas.step, hcall] at hs
      | none =>
          simp only [Replicas.step, hcall, Option.some.injEq] at hs
          exact hs ▸ h.start hcall (fun _ => by simp) id
  | proceed n =>
      cases hcall : s.calls n with
      | none => simp [Replicas.step, hcall] at hs
      | some x =>
          simp only [Replicas.step, hcall, Option.some.injEq] at hs
          exact hs ▸ h.advance he hcall
  | deliver i =>
      cases hinbox : s.inbox i with
      | nil => simp [Replicas.step, hinbox] at hs
      | cons m rest =>
          simp only [Replicas.step, hinbox, Option.some.injEq] at hs
          refine hs ▸ h.deliver hinbox fun hrest => he ?_
          rw [hinbox, hrest]
          rfl

end Preservation

end Replicas
