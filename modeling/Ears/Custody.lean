/-
# Who has which event in hand

A filter or sender that gets an event has its node of the ack tree in hand until it acks or
nacks the node, or hands the event on.  `custody` makes this a specification: a thread calls
the ack tree only for nodes it has in hand, a clone comes into its hand, and an ack or nack
takes the node out of it.  The answers of the heap can be anything, so that what other
threads do to the data of an event does not matter.

Every library filter keeps to it (`Filterer.wp_filter`): when it returns, the nodes of the
events it returns are what it has in hand, each once.  The exception is `js` with a script
that returns an array.
-/
import Ears.ProgramSpecs
import Ears.LibraryFilters

open GoLib

variable {κ ε ρ α β : Type}

/-! ## The specification -/

/-- The calls that a thread makes for the nodes it has in hand. -/
def custody (ε : Type) : Spec (heapSig.sum (ackSig ε)) (Finset NodeId)
  | .inl _, own, P => ∀ r, P r own
  | .inr (.isAcked n), own, P => n ∈ own ∧ P false own
  | .inr (.newSubTree n), own, P =>
      n ∈ own ∧ ∀ i, i :: n ∉ own → P (.ok (i :: n)) (insert (i :: n) own)
  | .inr (.ack n), own, P => n ∈ own ∧ P () (own.erase n)
  | .inr (.nack n _), own, P => n ∈ own ∧ P () (own.erase n)

/-- What follows from a condition is met where the condition is. -/
theorem custody_monotone : (custody ε).Monotone := by
  rintro (o | o) own P P' h hP
  · exact fun r => h r own (hP r)
  · cases o with
    | isAcked n => exact ⟨hP.1, h _ _ hP.2⟩
    | newSubTree n => exact ⟨hP.1, fun i hi => h _ _ (hP.2 i hi)⟩
    | ack n => exact ⟨hP.1, h _ _ hP.2⟩
    | nack n err => exact ⟨hP.1, h _ _ hP.2⟩

section Frame

variable {own F : Finset NodeId}

/-- A call does not touch what else is in hand. -/
theorem custody_frame {o : (heapSig.sum (ackSig ε)).Op}
    {P : (heapSig.sum (ackSig ε)).Res o → Finset NodeId → Prop} (h : custody ε o own P)
    (hF : Disjoint own F) :
    custody ε o (own ∪ F) fun r g => ∃ g', Disjoint g' F ∧ g = g' ∪ F ∧ P r g' := by
  have herase : ∀ n ∈ own, ∃ g', Disjoint g' F ∧ (own ∪ F).erase n = g' ∪ F ∧ g' = own.erase n := by
    intro n hn
    have hnF : n ∉ F := Finset.disjoint_left.mp hF hn
    refine ⟨own.erase n, hF.mono_left (Finset.erase_subset n own), ?_, rfl⟩
    rw [Finset.erase_union_distrib, Finset.erase_eq_of_notMem hnF]
  rcases o with o | o
  · exact fun r => ⟨own, hF, rfl, h r⟩
  · cases o with
    | isAcked n => exact ⟨Finset.mem_union_left F h.1, own, hF, rfl, h.2⟩
    | newSubTree n =>
        refine ⟨Finset.mem_union_left F h.1, fun i hi => ?_⟩
        rw [Finset.mem_union, not_or] at hi
        refine ⟨insert (i :: n) own, ?_, (Finset.insert_union ..).symm, h.2 i hi.1⟩
        exact Finset.disjoint_insert_left.mpr ⟨hi.2, hF⟩
    | ack n =>
        obtain ⟨g', hdis, heq, rfl⟩ := herase n h.1
        exact ⟨Finset.mem_union_left F h.1, _, hdis, heq, h.2⟩
    | nack n err =>
        obtain ⟨g', hdis, heq, rfl⟩ := herase n h.1
        exact ⟨Finset.mem_union_left F h.1, _, hdis, heq, h.2⟩

/-- The frame rule: a program does not touch what else is in hand. -/
theorem wp_frame {stop : Prop} {p : EventProg ε α} {Q : α → Finset NodeId → Prop}
    (h : p.wp (custody ε) stop own Q) (hF : Disjoint own F) :
    p.wp (custody ε) stop (own ∪ F) fun a g => ∃ g', Disjoint g' F ∧ g = g' ∪ F ∧ Q a g' := by
  induction p generalizing own with
  | pure a => exact ⟨own, hF, rfl, h⟩
  | call o k ih =>
      refine custody_monotone o _ _ _ ?_ (custody_frame h hF)
      rintro r g ⟨g', hdis, rfl, hk⟩
      exact ih r hk hdis
  | panic => exact h

end Frame

/-- Goroutines with nothing in common, each of which settles all it has in hand. -/
structure Apart (ps : List (EventProg ε Unit)) (own : ℕ → Finset NodeId) : Prop where
  settles : ∀ (i : ℕ) (p : EventProg ε Unit), ps[i]? = some p →
    p.wp (custody ε) False (own i) fun _ g => g = ∅
  disjoint : ∀ i < ps.length, ∀ j < ps.length, i ≠ j → Disjoint (own i) (own j)

/-- The rest of the goroutines. -/
theorem Apart.tail {p : EventProg ε Unit} {ps : List (EventProg ε Unit)} {own : ℕ → Finset NodeId}
    (h : Apart (p :: ps) own) : Apart ps fun i => own (i + 1) where
  settles i q hq := h.settles (i + 1) q hq
  disjoint i hi j hj hij :=
    h.disjoint (i + 1) (Nat.succ_lt_succ hi) (j + 1) (Nat.succ_lt_succ hj) (by omega)

/-- Goroutines that run one after the other. -/
theorem Apart.wp_forM {ps : List (EventProg ε Unit)} {own : ℕ → Finset NodeId}
    (h : Apart ps own) :
    (ps.forM Prog.recover).wp (custody ε) False ((Finset.range ps.length).biUnion own)
      fun _ g => g = ∅ := by
  induction ps generalizing own with
  | nil => rfl
  | cons p ps ih =>
      have hsplit : (Finset.range (p :: ps).length).biUnion own =
          own 0 ∪ (Finset.range ps.length).biUnion fun i => own (i + 1) := by
        ext x
        simp only [Finset.mem_biUnion, Finset.mem_range, Finset.mem_union, List.length_cons]
        constructor
        · rintro ⟨i, hi, hx⟩
          cases i with
          | zero => exact Or.inl hx
          | succ i => exact Or.inr ⟨i, Nat.lt_of_succ_lt_succ hi, hx⟩
        · rintro (hx | ⟨i, hi, hx⟩)
          · exact ⟨0, Nat.succ_pos _, hx⟩
          · exact ⟨i + 1, Nat.succ_lt_succ hi, hx⟩
      have hF : Disjoint (own 0) ((Finset.range ps.length).biUnion fun i => own (i + 1)) := by
        rw [Finset.disjoint_biUnion_right]
        intro i hi
        exact h.disjoint 0 (Nat.succ_pos _) (i + 1)
          (Nat.succ_lt_succ (Finset.mem_range.mp hi)) (Nat.succ_ne_zero i).symm
      rw [List.forM_eq_forM, List.forM_cons, hsplit]
      have hp := wp_frame (h.settles 0 p rfl) hF
      refine Prog.wp.bind custody_monotone (Prog.wp.recover custody_monotone
        (Q := fun g => ∃ g', Disjoint g' _ ∧ g = g' ∪ _ ∧ g' = ∅) hp) ?_
      rintro _ g' ⟨_, -, rfl, rfl⟩
      rw [Finset.empty_union]
      exact ih h.tail

/-- One goroutine takes a step: what the others have in hand stays theirs. -/
theorem Apart.set {ps : List (EventProg ε Unit)} {own : ℕ → Finset NodeId} (h : Apart ps own)
    {t : ℕ} (ht : t < ps.length) {p : EventProg ε Unit} {g' : Finset NodeId}
    (hp : p.wp (custody ε) False g' fun _ g => g = ∅)
    (hdis : Disjoint g' (((Finset.range ps.length).erase t).biUnion own)) :
    Apart (ps.set t p) (Function.update own t g') := by
  have hother : ∀ i < ps.length, i ≠ t → Disjoint g' (own i) := by
    intro i hi hit
    refine hdis.mono_right (Finset.subset_biUnion_of_mem own ?_)
    exact Finset.mem_erase.mpr ⟨hit, Finset.mem_range.mpr hi⟩
  constructor
  · intro i q hi
    by_cases hit : i = t
    · subst hit
      rw [List.getElem?_set_self ht, Option.some.injEq] at hi
      subst hi
      rw [Function.update_self]
      exact hp
    · rw [List.getElem?_set_ne (Ne.symm hit)] at hi
      rw [Function.update_of_ne hit]
      exact h.settles i q hi
  · intro i hi j hj hij
    rw [List.length_set] at hi hj
    by_cases hit : i = t
    · subst hit
      rw [Function.update_self, Function.update_of_ne (Ne.symm hij)]
      exact hother j hj (Ne.symm hij)
    · by_cases hjt : j = t
      · subst hjt
        rw [Function.update_self, Function.update_of_ne hit]
        exact (hother i hi hit).symm
      · rw [Function.update_of_ne hit, Function.update_of_ne hjt]
        exact h.disjoint i hi j hj hij

/-- Goroutines that take turns. -/
theorem Apart.wp_par (turns : List ℕ) {ps : List (EventProg ε Unit)} {own : ℕ → Finset NodeId}
    (h : Apart ps own) :
    (Prog.par turns ps).wp (custody ε) False ((Finset.range ps.length).biUnion own)
      fun _ g => g = ∅ := by
  induction turns generalizing ps own with
  | nil => exact h.wp_forM
  | cons t turns ih =>
      unfold Prog.par
      split
      · rename_i o k hk
        have ht : t < ps.length := (List.getElem?_eq_some_iff.mp hk).1
        have hmem : t ∈ Finset.range ps.length := Finset.mem_range.mpr ht
        have hF : Disjoint (own t) (((Finset.range ps.length).erase t).biUnion own) := by
          rw [Finset.disjoint_biUnion_right]
          intro i hi
          rw [Finset.mem_erase, Finset.mem_range] at hi
          exact h.disjoint t ht i hi.2 (Ne.symm hi.1)
        rw [← Finset.insert_erase hmem, Finset.biUnion_insert]
        refine custody_monotone o _ _ _ ?_ (custody_frame (h.settles t _ hk) hF)
        rintro r g ⟨g', hdis, rfl, hr⟩
        have hunion : g' ∪ ((Finset.range ps.length).erase t).biUnion own =
            (Finset.range (ps.set t (k r)).length).biUnion (Function.update own t g') := by
          rw [List.length_set]
          conv_rhs => rw [← Finset.insert_erase hmem, Finset.biUnion_insert, Function.update_self]
          congr 1
          refine Finset.biUnion_congr rfl fun i hi => ?_
          rw [Function.update_of_ne (Finset.ne_of_mem_erase hi)]
        rw [hunion]
        exact ih (h.set ht hr hdis)
      · exact ih h

/-! ## The operations of an event -/

open Event.Calls

/-- Operations on the heap concern no node. -/
theorem custody_heap (o : heapSig.Op) (own : Finset NodeId)
    (P : (heapSig.sum (ackSig ε)).Res (.inl o) → Finset NodeId → Prop) (h : ∀ r, P r own) :
    custody ε (.inl o) own P := h

section Operations

variable {e : Event κ} {n : NodeId} {own : Finset NodeId} {stop : Prop}

/-- An event in hand is not settled. -/
theorem wp_isSettled {Q : Bool → Finset NodeId → Prop} (hn : e.subTree = some n) (hown : n ∈ own)
    (hQ : Q false own) : (isSettled e : EventProg ε Bool).wp (custody ε) stop own Q := by
  unfold isSettled
  rw [hn]
  exact ⟨hown, hQ⟩

/-- The payload of an event in hand can be set. -/
theorem wp_setPayload {v : Value} {Q : Event κ × Except EventError Unit → Finset NodeId → Prop}
    (hn : e.subTree = some n) (hown : n ∈ own) (hQ : Q ({ e with payload := v }, .ok ()) own) :
    (setPayload e v : EventProg ε _).wp (custody ε) stop own Q := by
  unfold setPayload
  rw [Prog.wp_bind]
  exact wp_isSettled hn hown hQ

/-- The metadata of an event in hand can be set. -/
theorem wp_setMetadata {m : Option Ref}
    {Q : Event κ × Except EventError Unit → Finset NodeId → Prop}
    (hn : e.subTree = some n) (hown : n ∈ own) (hQ : Q ({ e with metadata := m }, .ok ()) own) :
    (setMetadata e m : EventProg ε _).wp (custody ε) stop own Q := by
  unfold setMetadata
  rw [Prog.wp_bind]
  exact wp_isSettled hn hown hQ

/-- Writing below a path keeps the event in hand. -/
theorem wp_setPathFrom {path : String} {obj v : Value} {createPath : Bool}
    {Q : Event κ × Except EventError (Value × String) → Finset NodeId → Prop}
    (hn : e.subTree = some n) (hown : n ∈ own)
    (hQ : ∀ e' res, e'.subTree = some n → Q (e', res) own) :
    (setPathFrom e path obj v createPath : EventProg ε _).wp (custody ε) True own Q := by
  unfold setPathFrom
  dsimp only
  generalize (if hasPrefix path "." = true then Event.PAYLOAD ++ path else path) = p
  generalize (if p = "" then Event.PAYLOAD else p) = p
  split
  · rw [Prog.wp_bind]
    exact wp_setPayload hn hown (hQ _ _ hn)
  · split
    · split
      · rw [Prog.wp_bind]
        exact wp_setMetadata hn hown (hQ _ _ hn)
      · rw [Prog.wp_bind]
        exact wp_setMetadata hn hown (hQ _ _ hn)
      · exact hQ _ _ hn
    · split
      · exact hQ _ _ hn
      · exact Prog.wp_left_bind custody_heap _ fun _ => hQ _ _ hn

/-- A write changes the data of the event, not its node. -/
theorem wp_setPathValue {path : String} {v : Value} {createPath : Bool}
    {Q : Event κ × Except EventError (Value × String) → Finset NodeId → Prop}
    (hn : e.subTree = some n) (hown : n ∈ own)
    (hQ : ∀ e' res, e'.subTree = some n → Q (e', res) own) :
    (setPathValue e path v createPath : EventProg ε _).wp (custody ε) True own Q := by
  unfold setPathValue
  rw [Prog.wp_bind]
  refine wp_isSettled hn hown ?_
  rw [if_neg (by simp)]
  split
  · split
    · exact wp_setPathFrom hn hown hQ
    · split
      · refine Prog.wp_left_bind custody_heap _ fun m => ?_
        rw [Prog.wp_bind]
        exact wp_setMetadata hn hown (wp_setPathFrom hn hown hQ)
      · exact hQ _ _ hn
  · exact wp_setPathFrom hn hown hQ

/-- A clone is a further event in hand. -/
theorem wp_clone {ctx : κ} {Q : Except EventError (Event κ) → Finset NodeId → Prop}
    (hn : e.subTree = some n) (hown : n ∈ own)
    (hQ : ∀ i, i :: n ∉ own →
      Q (.ok { e with ctx := ctx, subTree := some (i :: n), deepcopied := false })
        (insert (i :: n) own)) :
    (clone e ctx : EventProg ε _).wp (custody ε) stop own Q := by
  unfold clone
  rw [hn]
  exact ⟨hown, hQ⟩

/-- An event that is acked is out of hand. -/
theorem wp_ack {Q : Unit → Finset NodeId → Prop} (hn : e.subTree = some n) (hown : n ∈ own)
    (hQ : Q () (own.erase n)) : (Event.Calls.ack e : EventProg ε Unit).wp (custody ε) stop own Q := by
  unfold Event.Calls.ack
  rw [hn]
  exact ⟨hown, hQ⟩

/-- An event that is nacked is out of hand. -/
theorem wp_nack {err : ε} {Q : Unit → Finset NodeId → Prop} (hn : e.subTree = some n)
    (hown : n ∈ own) (hQ : Q () (own.erase n)) :
    (nack e err : EventProg ε Unit).wp (custody ε) stop own Q := by
  unfold nack
  rw [hn]
  exact ⟨hown, hQ⟩

/-- `DeepCopy` gives the event new data. -/
theorem wp_deepCopy {lib : Libs κ} {f : Event κ → EventProg ε β} {Q : β → Finset NodeId → Prop}
    (hn : e.subTree = some n)
    (hf : ∀ e', e'.subTree = some n → (f e').wp (custody ε) True own Q) :
    ((deepCopy lib e).left >>= f).wp (custody ε) True own Q := by
  have hcopy : (deepCopy lib e).Safe (fun _ => True) (fun _ _ => True)
      fun e' => e'.subTree = some n := by
    unfold deepCopy
    split
    · exact hn
    · refine Prog.Safe.bind (Prog.safe_of_forall (fun _ => trivial) _) fun _ _ => ?_
      exact Prog.Safe.bind (Prog.safe_of_forall (fun _ => trivial) _) fun _ _ => hn
  exact Prog.wp_left_bind_of_safe custody_heap hcopy hf

end Operations

/-! ## The filters -/

/-- What is in hand are the nodes of these events, each once. -/
def InHand (evts : List (Event κ)) (own : Finset NodeId) : Prop :=
  ∃ ns : List NodeId, evts.map Event.subTree = ns.map some ∧ ns.Nodup ∧ ns.toFinset = own

theorem inHand_nil : InHand ([] : List (Event κ)) ∅ := ⟨[], rfl, List.nodup_nil, rfl⟩

/-- One event with its node. -/
theorem inHand_singleton {e : Event κ} {n : NodeId} (hn : e.subTree = some n) :
    InHand [e] {n} := ⟨[n], by simp [hn], List.nodup_singleton n, rfl⟩

section Filters

variable {evt : Event κ} {n : NodeId} (hn : evt.subTree = some n)
include hn

/-- An event that is acked and not returned. -/
theorem wp_discard :
    (discard evt : EventProg ε (List (Event κ))).wp (custody ε) True {n} InHand := by
  change (Event.Calls.ack evt >>= fun _ => pure []).wp _ _ _ _
  rw [Prog.wp_bind]
  refine wp_ack hn (Finset.mem_singleton_self n) ?_
  rw [Finset.erase_singleton]
  exact inHand_nil

/-- An event that is returned. -/
theorem wp_return :
    (pure [evt] : EventProg ε (List (Event κ))).wp (custody ε) True {n} InHand :=
  inHand_singleton hn

/-- A write, after which the event is returned, or acked if it failed. -/
theorem wp_setPathValue_return {path : String} {v : Value} {createPath : Bool} :
    ((do match ← setPathValue evt path v createPath with
          | (evt, .error _) => discard evt
          | (evt, .ok _) => pure [evt]) : EventProg ε (List (Event κ))).wp (custody ε) True {n}
      InHand := by
  rw [Prog.wp_bind]
  refine wp_setPathValue hn (Finset.mem_singleton_self n) fun e' res he' => ?_
  cases res with
  | error err => exact wp_discard he'
  | ok r => exact wp_return he'

/-- Storing the result of a filter hands the event on. -/
theorem wp_store {lib : Libs κ} {path : String} {output : Value} :
    (store lib evt path output : EventProg ε (List (Event κ))).wp (custody ε) True {n} InHand :=
  wp_deepCopy hn fun _ he' => wp_setPathValue_return he'

theorem Transform.wp_transformElement {lib : Libs κ} {c : Transform.Config} {elem : Value}
    {path : String} {Q : Event κ × Except EventError (Value × String) → Finset NodeId → Prop}
    (hQ : ∀ e' res, e'.subTree = some n → Q (e', res) {n}) :
    (Transform.transformElement lib c evt elem path : EventProg ε _).wp (custody ε) True {n} Q :=
  Prog.wp_left_bind custody_heap _ fun _ => Prog.wp_left_bind custody_heap _ fun _ =>
    wp_setPathValue hn (Finset.mem_singleton_self n) hQ

/-- The loop over the elements hands the event on, or settles it. -/
theorem Transform.wp_transformElements {lib : Libs κ} {c : Transform.Config} {arr : Ref}
    (is : List ℕ) :
    (Transform.transformElements lib c arr is evt : EventProg ε _).wp (custody ε) True {n}
      InHand := by
  induction is generalizing evt with
  | nil => exact wp_return hn
  | cons i is ih =>
      unfold Transform.transformElements
      refine Prog.wp_left_bind custody_heap _ fun elem => ?_
      rw [Prog.wp_bind]
      refine Transform.wp_transformElement hn fun e' res he' => ?_
      cases res with
      | error err => exact wp_discard he'
      | ok r => exact ih he'

/-- The transform filter hands its event on or settles it. -/
theorem Transform.wp_filter {lib : Libs κ} {c : Transform.Config} :
    (Transform.filter lib c evt : EventProg ε _).wp (custody ε) True {n} InHand := by
  unfold Transform.filter
  split
  · exact wp_return hn
  · refine wp_deepCopy hn fun e' he' => Prog.wp_left_bind custody_heap _ ?_
    rintro ⟨obj, _, _⟩
    dsimp only
    split
    · exact Prog.wp_left_bind custody_heap _ fun _ => Transform.wp_transformElements he' _
    · rw [Prog.wp_bind]
      refine Transform.wp_transformElement he' fun e'' res he'' => ?_
      cases res with
      | error err => exact wp_discard he''
      | ok r => exact wp_return he''

/-- The merge filter hands its event on or settles it. -/
theorem Merge.wp_filter {lib : Libs κ} {c : Merge.Config} :
    (Merge.filter lib c evt : EventProg ε _).wp (custody ε) True {n} InHand :=
  Prog.wp_left_bind custody_heap _ fun _ => Prog.wp_left_bind custody_heap _ fun _ =>
    Prog.wp_left_bind custody_heap _ fun _ => wp_store hn

/-- The unwrap filter hands its event on or settles it. -/
theorem Unwrap.wp_filter {lib : Libs κ} {c : Unwrap.Config} :
    (Unwrap.filter lib c evt : EventProg ε _).wp (custody ε) True {n} InHand := by
  refine Prog.wp_left_bind custody_heap _ ?_
  rintro ⟨obj, _, _⟩
  dsimp only
  split
  · exact wp_discard hn
  · refine wp_deepCopy hn fun e' he' => ?_
    rw [Prog.wp_bind]
    exact wp_setPayload he' (Finset.mem_singleton_self n) (wp_return he')

/-- The encode filter hands its event on or settles it. -/
theorem Encode.wp_filter {lib : Libs κ} {c : Encode.Config} :
    (Encode.filter lib c evt : EventProg ε _).wp (custody ε) True {n} InHand := by
  refine Prog.wp_left_bind custody_heap _ ?_
  rintro ⟨obj, _, _⟩
  dsimp only
  split
  · exact wp_discard hn
  · refine Prog.wp_left_bind custody_heap _ fun buf => ?_
    cases buf with
    | error err => exact wp_discard hn
    | ok buf => exact wp_store hn

theorem Decode.wp_decodeInput {lib : Libs κ} {c : Decode.Config} {input : List UInt8} :
    (Decode.decodeInput lib c evt input : EventProg ε _).wp (custody ε) True {n} InHand := by
  unfold Decode.decodeInput
  split
  · exact wp_discard hn
  · refine Prog.wp_left_bind custody_heap _ fun output => ?_
    cases output with
    | error err => exact wp_discard hn
    | ok output => exact wp_store hn

/-- The decode filter hands its event on or settles it. -/
theorem Decode.wp_filter {lib : Libs κ} {c : Decode.Config} :
    (Decode.filter lib c evt : EventProg ε _).wp (custody ε) True {n} InHand := by
  refine Prog.wp_left_bind custody_heap _ ?_
  rintro ⟨obj, _, _⟩
  dsimp only
  split
  · exact Decode.wp_decodeInput hn
  · exact Decode.wp_decodeInput hn
  · exact wp_discard hn

/-- The hash filter hands its event on or settles it. -/
theorem Hash.wp_filter {lib : Libs κ} {c : Hash.Config} :
    (Hash.filter lib c evt : EventProg ε _).wp (custody ε) True {n} InHand := by
  refine Prog.wp_left_bind custody_heap _ ?_
  rintro ⟨obj, _, _⟩
  dsimp only
  split
  · exact wp_discard hn
  · refine Prog.wp_left_bind custody_heap _ fun buf => ?_
    cases buf with
    | error err => exact wp_discard hn
    | ok buf =>
        dsimp only
        split
        · exact wp_discard hn
        · split
          · exact trivial
          · exact wp_store hn

/-- The regex filter hands its event on or settles it. -/
theorem Regex.wp_filter {lib : Libs κ} {c : Regex.Config} :
    (Regex.filter lib c evt : EventProg ε _).wp (custody ε) True {n} InHand := by
  refine Prog.wp_left_bind custody_heap _ ?_
  rintro ⟨obj, _, _⟩
  dsimp only
  split
  · exact Prog.wp_left_bind custody_heap _ fun _ => wp_discard hn
  · refine Prog.wp_left_bind custody_heap _ fun text => ?_
    cases text with
    | error err => exact wp_discard hn
    | ok text =>
        dsimp only
        split
        · exact wp_discard hn
        · exact wp_store hn

theorem Modify.wp_modifyPaths {lib : Libs κ} {c : Modify.Config} {Q : Event κ → Finset NodeId → Prop}
    (hQ : ∀ e', e'.subTree = some n → Q e' {n}) (paths : List String) :
    (Modify.modifyPaths lib c paths evt : EventProg ε _).wp (custody ε) True {n} Q := by
  induction paths generalizing evt with
  | nil => exact hQ evt hn
  | cons p rest ih =>
      unfold Modify.modifyPaths
      refine Prog.wp_left_bind custody_heap _ ?_
      rintro ⟨obj, _, _⟩
      dsimp only
      split
      · split
        · rw [Prog.wp_bind]
          exact wp_setPathValue hn (Finset.mem_singleton_self n) fun e' _ he' => ih he'
        · split
          · rw [Prog.wp_bind]
            exact wp_setPathValue hn (Finset.mem_singleton_self n) fun e' _ he' => ih he'
          · exact ih hn
      · exact ih hn

/-- The modify filter hands its event on or settles it. -/
theorem Modify.wp_filter {lib : Libs κ} {c : Modify.Config} :
    (Modify.filter lib c evt : EventProg ε _).wp (custody ε) True {n} InHand := by
  unfold Modify.filter
  rw [Prog.wp_bind]
  exact Modify.wp_modifyPaths hn (fun _ he' => inHand_singleton he') _

end Filters

/-! ### mapping

The event of an element has no node, the event of the filter keeps its own. -/

/-- The node of the cursor's event, and no node for the event of the element. -/
def Mapping.Cursor.On (cur : Mapping.Cursor κ) (n : NodeId) : Prop :=
  cur.evt.subTree = some n ∧ ∀ x ∈ cur.elem, x.2.subTree = none

section Mapping

variable {cur : Mapping.Cursor κ} {n : NodeId} {lib : Libs κ} {c : Mapping.Config}

/-- A write to an event without a node. -/
theorem wp_setPathValue_free {e : Event κ} {own : Finset NodeId} {path : String} {v : Value}
    {createPath : Bool} {Q : Event κ × Except EventError (Value × String) → Finset NodeId → Prop}
    (hn : e.subTree = none) (hQ : ∀ e' res, e'.subTree = none → Q (e', res) own) :
    (setPathValue e path v createPath : EventProg ε _).wp (custody ε) True own Q := by
  have hsettled : ∀ e' : Event κ, e'.subTree = none →
      (isSettled e' : EventProg ε Bool) = pure false := by
    intro e' he'
    unfold isSettled
    rw [he']
  have hfrom : ∀ (e' : Event κ) (obj : Value), e'.subTree = none →
      (setPathFrom e' path obj v createPath : EventProg ε _).wp (custody ε) True own Q := by
    intro e' obj he'
    unfold setPathFrom setPayload setMetadata
    dsimp only
    generalize (if hasPrefix path "." = true then Event.PAYLOAD ++ path else path) = p
    generalize (if p = "" then Event.PAYLOAD else p) = p
    rw [hsettled e' he']
    split
    · exact hQ _ _ he'
    · split
      · split
        · exact hQ _ _ he'
        · exact hQ _ _ he'
        · exact hQ _ _ he'
      · split
        · exact hQ _ _ he'
        · exact Prog.wp_left_bind custody_heap _ fun _ => hQ _ _ he'
  unfold setPathValue
  rw [hsettled e hn, pure_bind, if_neg (by simp)]
  split
  · split
    · exact hfrom e _ hn
    · split
      · refine Prog.wp_left_bind custody_heap _ fun m => ?_
        unfold setMetadata
        rw [hsettled e hn]
        exact hfrom _ _ hn
      · exact hQ _ _ hn
  · exact hfrom e _ hn

theorem Mapping.wp_put {v : Value} {Q : Mapping.Cursor κ → Finset NodeId → Prop} (hcur : cur.On n)
    (hQ : ∀ cur', cur'.On n → Q cur' {n}) :
    (Mapping.put lib c cur v : EventProg ε _).wp (custody ε) True {n} Q := by
  unfold Mapping.put
  refine Prog.wp_left_bind custody_heap _ fun v' => ?_
  rcases hcur with ⟨hn, helem⟩
  split
  · rename_i idx e hidx
    rw [Prog.wp_bind]
    refine wp_setPathValue_free (helem (idx, e) hidx) fun e' _ he' => ?_
    rw [Prog.wp_bind]
    refine wp_setPathValue hn (Finset.mem_singleton_self n) fun evt' _ hevt' => ?_
    exact hQ _ ⟨hevt', fun x hx => by cases hx; exact he'⟩
  · rw [Prog.wp_bind]
    refine wp_setPathValue hn (Finset.mem_singleton_self n) fun evt' _ hevt' => ?_
    exact hQ _ ⟨hevt', fun x hx => by cases hx⟩

/-- The entries of a mapping keep the event in hand. -/
theorem Mapping.wp_mapEntries {obj : Value} {Q : Mapping.Cursor κ × Bool → Finset NodeId → Prop}
    (hcur : cur.On n) (hQ : ∀ cur' mapped, cur'.On n → Q (cur', mapped) {n})
    (entries : List Mapping.FromTo) (mapped : Bool) :
    (Mapping.mapEntries lib c obj entries cur mapped : EventProg ε _).wp (custody ε) True {n}
      Q := by
  induction entries generalizing cur mapped with
  | nil => exact hQ cur mapped hcur
  | cons m rest ih =>
      unfold Mapping.mapEntries
      refine Prog.wp_left_bind custody_heap _ fun _ => Prog.wp_left_bind custody_heap _ fun _ =>
        Prog.wp_left_bind custody_heap _ fun same => ?_
      split
      · refine Prog.wp_left_bind custody_heap _ fun holds => ?_
        split
        · rw [Prog.wp_bind]
          exact Mapping.wp_put hcur fun cur' hcur' => ih hcur' true
        · exact ih hcur mapped
      · exact ih hcur mapped

theorem Mapping.wp_mapElement {Q : Mapping.Cursor κ → Finset NodeId → Prop} (hcur : cur.On n)
    (hQ : ∀ cur', cur'.On n → Q cur' {n}) :
    (Mapping.mapElement lib c cur : EventProg ε _).wp (custody ε) True {n} Q := by
  unfold Mapping.mapElement
  refine Prog.wp_left_bind custody_heap _ ?_
  rintro ⟨obj, _, _⟩
  rw [Prog.wp_bind]
  refine Mapping.wp_mapEntries hcur (fun cur' mapped hcur' => ?_) _ _
  dsimp only
  split
  · exact Prog.wp_left_bind custody_heap _ fun _ => Mapping.wp_put hcur' hQ
  · exact hQ cur' hcur'

/-- So does the loop over the elements. -/
theorem Mapping.wp_mapElements {arr : Ref} {evt : Event κ} {Q : Event κ → Finset NodeId → Prop}
    (hn : evt.subTree = some n) (hQ : ∀ e', e'.subTree = some n → Q e' {n}) (is : List ℕ) :
    (Mapping.mapElements lib c arr is evt : EventProg ε _).wp (custody ε) True {n} Q := by
  induction is generalizing evt with
  | nil => exact hQ evt hn
  | cons i is ih =>
      unfold Mapping.mapElements
      refine Prog.wp_left_bind custody_heap _ fun elem => ?_
      rw [Prog.wp_bind]
      refine Mapping.wp_mapElement ⟨hn, fun x hx => by cases hx; rfl⟩ fun cur' hcur' => ?_
      exact ih hcur'.1

/-- The mapping filter hands its event on or settles it. -/
theorem Mapping.wp_filter {evt : Event κ} (hn : evt.subTree = some n) :
    (Mapping.filter lib c evt : EventProg ε _).wp (custody ε) True {n} InHand := by
  unfold Mapping.filter
  refine wp_deepCopy hn fun e' he' => Prog.wp_left_bind custody_heap _ ?_
  rintro ⟨elem, _, _⟩
  dsimp only
  split
  · refine Prog.wp_left_bind custody_heap _ fun _ => ?_
    rw [Prog.wp_bind]
    exact Mapping.wp_mapElements he' (fun _ he'' => inHand_singleton he'') _
  · rw [Prog.wp_bind]
    exact Mapping.wp_mapElement ⟨he', fun x hx => by cases hx⟩ fun cur' hcur' =>
      inHand_singleton hcur'.1

end Mapping

/-! ### trace, split and js -/

/-- The trace filter hands its event on or settles it. -/
theorem Trace.wp_filter {lib : Libs κ} {c : Trace.Config} {evt : Event κ} {n : NodeId}
    (hn : evt.subTree = some n) :
    (Trace.filter lib c evt : EventProg ε _).wp (custody ε) True {n} InHand :=
  wp_store hn

/-- The clones made so far, beside the event itself. -/
structure Made (evts : List (Event κ)) (n : NodeId) (own : Finset NodeId) : Prop where
  self : n ∈ own
  rest : InHand evts (own.erase n)

theorem Made.nil {n : NodeId} : Made ([] : List (Event κ)) n {n} where
  self := Finset.mem_singleton_self n
  rest := by
    rw [Finset.erase_singleton]
    exact inHand_nil

/-- One more clone. -/
theorem Made.append {evts : List (Event κ)} {n m : NodeId} {own : Finset NodeId}
    (h : Made evts n own) {e : Event κ} (he : e.subTree = some m) (hm : m ∉ own) :
    Made (evts ++ [e]) n (insert m own) := by
  obtain ⟨ns, hmap, hnd, hown⟩ := h.rest
  have hmn : m ≠ n := fun heq => hm (heq ▸ h.self)
  have hmns : m ∉ ns := by
    intro hmem
    rw [← List.mem_toFinset, hown] at hmem
    exact hm (Finset.mem_of_mem_erase hmem)
  refine ⟨Finset.mem_insert_of_mem h.self, ns ++ [m], ?_, ?_, ?_⟩
  · rw [List.map_append, hmap]
    simp [he]
  · rw [List.nodup_append_comm]
    exact List.nodup_cons.mpr ⟨hmns, hnd⟩
  · rw [Finset.erase_insert_of_ne hmn, ← hown]
    ext x
    simp

/-- The loop hands on a copy for each element, and settles its event. -/
theorem Split.wp_splitElements {lib : Libs κ} {arr : Ref} {evt : Event κ} {n : NodeId}
    (hn : evt.subTree = some n) (is : List ℕ) {events : List (Event κ)} {own : Finset NodeId}
    (hmade : Made events n own) :
    (Split.splitElements lib evt arr is events : EventProg ε _).wp (custody ε) True own
      InHand := by
  induction is generalizing events own with
  | nil =>
      unfold Split.splitElements
      rw [Prog.wp_bind]
      exact wp_ack hn hmade.self hmade.rest
  | cons i is ih =>
      unfold Split.splitElements
      refine Prog.wp_left_bind custody_heap _ fun p => ?_
      rw [Prog.wp_bind]
      refine wp_clone hn hmade.self fun j hj => ?_
      dsimp only
      have hmem : j :: n ∈ insert (j :: n) own := Finset.mem_insert_self _ _
      rw [Prog.wp_bind]
      refine wp_setPayload rfl hmem ?_
      refine Prog.wp_left_bind custody_heap _ fun metadata => ?_
      rw [Prog.wp_bind]
      refine wp_setMetadata rfl hmem ?_
      exact ih (hmade.append rfl hj)

/-- The split filter hands its events on or settles them. -/
theorem Split.wp_filter {lib : Libs κ} {path : String} {evt : Event κ} {n : NodeId}
    (hn : evt.subTree = some n) :
    (Split.filter lib path evt : EventProg ε _).wp (custody ε) True {n} InHand := by
  refine Prog.wp_left_bind custody_heap _ ?_
  rintro ⟨obj, _, _⟩
  dsimp only
  split
  · exact Prog.wp_left_bind custody_heap _ fun _ => Split.wp_splitElements hn _ .nil
  · exact wp_discard hn

namespace Js

/-- The script never returns an array. -/
def ReturnsNoArray (script : Script ρ) : Prop :=
  ∀ payload metadata event, (script payload metadata event).Safe (fun _ => True)
    (fun _ _ => True) fun res => ∀ arr, res.2 ≠ .ok (.value (.slice arr))

section

variable {evt : Event κ} {n : NodeId} (hn : evt.subTree = some n)
include hn

theorem wp_setData {m : Value} {Q : Event κ × Except EventError Unit → Finset NodeId → Prop}
    (hQ : ∀ e' res, e'.subTree = some n → Q (e', res) {n}) :
    (setData evt m : EventProg ε _).wp (custody ε) True {n} Q := by
  unfold setData
  refine Prog.wp_left_bind custody_heap _ fun payload => ?_
  rw [Prog.wp_bind]
  refine wp_setPayload hn (Finset.mem_singleton_self n) ?_
  refine Prog.wp_left_bind custody_heap _ fun metadata => ?_
  cases asMap metadata with
  | none => exact trivial
  | some metadata =>
      exact wp_setMetadata (by exact hn) (Finset.mem_singleton_self n) (hQ _ _ hn)

/-- What `Exec` returns is the event itself or nothing. -/
theorem wp_execResult {Q : Event κ × Except EventError (List (Event κ)) → Finset NodeId → Prop}
    {out : Except String Exported} (hout : ∀ arr, out ≠ .ok (.value (.slice arr)))
    (hone : ∀ e', e'.subTree = some n → Q (e', .ok [e']) {n})
    (hnone : ∀ e' res, e'.subTree = some n → (res = .ok [] ∨ ∃ err, res = .error err) →
      Q (e', res) {n}) :
    (execResult evt out : EventProg ε _).wp (custody ε) True {n} Q := by
  have hobject : ∀ m, (execObject evt m : EventProg ε _).wp (custody ε) True {n} Q := by
    intro m
    unfold execObject
    rw [Prog.wp_bind]
    refine wp_setData hn fun e' res he' => ?_
    cases res with
    | error err => exact hnone _ _ he' (Or.inr ⟨err, rfl⟩)
    | ok r => exact hone _ he'
  unfold execResult
  split
  · exact hnone _ _ hn (Or.inr ⟨_, rfl⟩)
  · exact hnone _ _ hn (Or.inl rfl)
  · exact hnone _ _ hn (Or.inl rfl)
  · exact hnone _ _ hn (Or.inl rfl)
  · exact absurd rfl (hout _)
  · split
    · exact hobject _
    · exact hnone _ _ hn (Or.inr ⟨_, rfl⟩)
  · exact hnone _ _ hn (Or.inr ⟨_, rfl⟩)

theorem wp_filter {lib : Libs κ} {code : Except String (Script ρ)}
    (hcode : ∀ script, code = .ok script → ReturnsNoArray script) :
    (filter lib code evt : EventProg ε _).wp (custody ε) True {n} InHand := by
  unfold filter exec
  cases code with
  | error err => exact wp_discard hn
  | ok script =>
      dsimp only
      rw [bind_assoc]
      have hrun : (runScript lib script evt).Safe (fun _ => True) (fun _ _ => True)
          fun res => ∀ arr, res.2 ≠ .ok (.value (.slice arr)) := by
        unfold runScript
        refine Prog.Safe.bind (Prog.safe_of_forall (fun _ => trivial) _) fun payload _ => ?_
        refine Prog.Safe.bind (Prog.safe_of_forall (fun _ => trivial) _) fun metadata _ => ?_
        refine Prog.Safe.bind (Prog.safe_of_forall (fun _ => trivial) _) fun event _ => ?_
        refine Prog.Safe.bind (Prog.safe_of_forall (fun _ => trivial) _) fun _ _ => ?_
        refine Prog.Safe.bind (Prog.safe_of_forall (fun _ => trivial) _) fun _ _ => ?_
        exact hcode script rfl _ _ _
      refine Prog.wp_left_bind_of_safe custody_heap hrun ?_
      rintro ⟨_, out⟩ hout
      dsimp only
      rw [Prog.wp_bind]
      refine wp_execResult hn hout (fun e' he' => inHand_singleton he') ?_
      rintro e' res he' (rfl | ⟨err, rfl⟩)
      · exact wp_discard he'
      · exact wp_discard he'

end

end Js

/-! ## Chains -/

/-- A `js` filter with a script that never returns an array, or another filter. -/
def Filterer.Keeps : Filterer ρ → Prop
  | .js (.ok script) => Js.ReturnsNoArray script
  | _ => True

/-- **What is in hand after a filter are the events it returned.** -/
theorem Filterer.wp_filter {lib : Libs κ} {f : Filterer ρ} (hf : f.Keeps) {evt : Event κ}
    {n : NodeId} (hn : evt.subTree = some n) :
    (f.filter lib evt : EventProg ε _).wp (custody ε) True {n} InHand := by
  cases f with
  | transform c => exact Transform.wp_filter hn
  | mapping c => exact Mapping.wp_filter hn
  | merge c => exact Merge.wp_filter hn
  | unwrap c => exact Unwrap.wp_filter hn
  | encode c => exact Encode.wp_filter hn
  | decode c => exact Decode.wp_filter hn
  | hash c => exact Hash.wp_filter hn
  | modify c => exact Modify.wp_filter hn
  | regex c => exact Regex.wp_filter hn
  | trace c => exact Trace.wp_filter hn
  | split path => exact Split.wp_filter hn
  | js code =>
      refine Js.wp_filter hn fun script hcode => ?_
      subst hcode
      exact hf
