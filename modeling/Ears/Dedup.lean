/-
# The dedup filter (`pkg/filter/dedup/filter.go`)

The filter keeps the hashes of the last values that it has seen in an LRU cache (`Lru`), and passes
an event on when the hash of its value is not there.  Looking the hash up and adding it are two
calls of the cache, and other calls of the filter may come between them.

When no call looks up a value that another call has missed and not yet added, the filter does what
it is for (`spaced_of_run`): between two additions of one value, as many other values were
looked up or added as the cache has places.  Two calls that both look a value up before either adds
it pass both events on.
-/
import Ears.Lru
import Ears.Md5
import Ears.Runs

namespace Dedup

/-- What was done to the cache. -/
inductive Touch (V : Type) where
  | lookedUp (v : V)
  | added (v : V)
  deriving DecidableEq, Repr

/-- The value of an event whose hash was looked up or added. -/
def Touch.value {V : Type} : Touch V → V
  | lookedUp v => v
  | added v => v

/-- An addition. -/
def Touch.isAdded {V : Type} : Touch V → Bool
  | lookedUp _ => false
  | added _ => true

/-- What a call of `Filter` does next: look its value up, add it, or nothing.  `passed` says that it
has returned its event. -/
inductive Phase (V : Type) where
  | get (v : V)
  | add (v : V)
  | returned (passed : Bool)
  deriving DecidableEq, Repr

/-- The filter with its calls, and what was done to the cache, the last first. -/
structure Filter (C V : Type) where
  lruCache : C
  calls : List (Phase V)
  log : List (Touch V)

/-- `Filter` is called on an event with this object at the path of the filter, or a call goes on. -/
inductive Action (V : Type) where
  | call (obj : Option V)
  | proceed (i : ℕ)
  deriving DecidableEq, Repr

/-- `fmt.Sprintf("%x", md5.Sum(buf))` of the marshalled object. -/
def evtHash {V : Type} (marshal : V → Option (List UInt8)) (v : V) : Option String :=
  (marshal v).map fun buf => String.ofList (Md5.hexDigest (buf.map UInt8.toNat))

namespace Filter

variable {C V : Type} (lru : Lru String Unit C) (marshal : V → Option (List UInt8))

/-- `NewFilter` with a cache size. -/
def new (cacheSize : ℕ) : Filter C V := ⟨lru.new cacheSize, [], []⟩

/-- The next step of a call: up to the end of `Get`, or `Add` and the return. -/
def proceed (f : Filter C V) (i : ℕ) : Phase V → Option (Filter C V)
  | .get v =>
      match evtHash marshal v with
      | none => some { f with calls := f.calls.set i (.returned false) }
      | some hash =>
          let (entry, cache) := lru.get f.lruCache hash
          some { lruCache := cache
                 calls := f.calls.set i (if entry.isSome then .returned false else .add v)
                 log := .lookedUp v :: f.log }
  | .add v =>
      match evtHash marshal v with
      | none => none
      | some hash =>
          some { lruCache := lru.add f.lruCache hash ()
                 calls := f.calls.set i (.returned true)
                 log := .added v :: f.log }
  | .returned _ => none

/-- A step of the filter.  Without an object the event is acknowledged at once. -/
def step (f : Filter C V) : Action V → Option (Filter C V)
  | .call none => some { f with calls := f.calls ++ [.returned false] }
  | .call (some v) => some { f with calls := f.calls ++ [.get v] }
  | .proceed i =>
      match f.calls[i]? with
      | none => none
      | some c => f.proceed lru marshal i c

/-- No value is looked up that another call has missed and not yet added. -/
def Undisturbed (f : Filter C V) : Action V → Prop
  | .proceed i => ∀ v, f.calls[i]? = some (.get v) → Phase.add v ∉ f.calls
  | .call _ => True

instance [DecidableEq V] (f : Filter C V) : (a : Action V) → Decidable (f.Undisturbed a)
  | .call _ => isTrue trivial
  | .proceed i =>
      match h : f.calls[i]? with
      | some (.get v) => decidable_of_iff (Phase.add v ∉ f.calls) (by simp [Undisturbed, h])
      | some (.add _) => isTrue (by simp [Undisturbed, h])
      | some (.returned _) => isTrue (by simp [Undisturbed, h])
      | none => isTrue (by simp [Undisturbed, h])

end Filter

/-! ## Values between two additions -/

section Others

variable {V : Type} [DecidableEq V] {marshal : V → Option (List UInt8)} {ts us : List (Touch V)}
  {v : V} {hash : String}

/-- The other values that were looked up or added. -/
def others (ts : List (Touch V)) (v : V) : Finset V := (ts.map Touch.value).toFinset.erase v

/-- The hashes that were looked up or added. -/
def hashes (marshal : V → Option (List UInt8)) (ts : List (Touch V)) : List String :=
  ts.filterMap fun t => evtHash marshal t.value

theorem card_others_mono (hsub : ∀ t ∈ ts, t ∈ us) : (others ts v).card ≤ (others us v).card := by
  apply Finset.card_le_card
  apply Finset.erase_subset_erase
  intro w hw
  obtain ⟨t, ht, rfl⟩ := List.mem_map.mp (List.mem_toFinset.mp hw)
  exact List.mem_toFinset.mpr (List.mem_map_of_mem (hsub t ht))

/-- Different hashes are hashes of different values. -/
theorem card_hashes_le (hv : evtHash marshal v = some hash) :
    (Lru.others (hashes marshal ts) hash).card ≤ (others ts v).card := by
  have hsub : Lru.others (hashes marshal ts) hash ⊆
      (others ts v).image fun w => (evtHash marshal w).getD "" := by
    intro k hk
    obtain ⟨hne, hmem⟩ := Finset.mem_erase.mp hk
    obtain ⟨t, ht, hkey⟩ := List.mem_filterMap.mp (List.mem_toFinset.mp hmem)
    refine Finset.mem_image.mpr ⟨t.value, Finset.mem_erase.mpr ⟨?_, ?_⟩, by rw [hkey]; rfl⟩
    · -- the value itself has the hash that is left out
      intro heq
      rw [heq, hv, Option.some.injEq] at hkey
      exact hne hkey.symm
    · exact List.mem_toFinset.mpr (List.mem_map_of_mem ht)
  exact (Finset.card_le_card hsub).trans Finset.card_image_le

end Others

/-! ## The last addition of a value -/

section Latest

variable {V : Type}

/-- The part of the log since the last addition of a value. -/
def Latest (log : List (Touch V)) (v : V) (ts : List (Touch V)) : Prop :=
  ∃ rest, log = ts ++ .added v :: rest ∧ .added v ∉ ts

/-- A step that logs no addition. -/
theorem Latest.of_lookedUp {log ts : List (Touch V)} {v w : V}
    (h : Latest (.lookedUp w :: log) v ts) : ∃ ts', ts = .lookedUp w :: ts' ∧ Latest log v ts' := by
  obtain ⟨rest, heq, hnot⟩ := h
  cases ts with
  | nil => simp at heq
  | cons t ts =>
      obtain ⟨rfl, hlog⟩ := List.cons.inj heq
      exact ⟨ts, rfl, rest, hlog, fun hmem => hnot (List.mem_cons_of_mem _ hmem)⟩

/-- An addition is the last one of its value; for the other values it is one more step. -/
theorem Latest.of_added {log ts : List (Touch V)} {v w : V} (h : Latest (.added w :: log) v ts) :
    (v = w ∧ ts = []) ∨ v ≠ w ∧ ∃ ts', ts = .added w :: ts' ∧ Latest log v ts' := by
  obtain ⟨rest, heq, hnot⟩ := h
  cases ts with
  | nil =>
      rw [List.nil_append, List.cons.injEq, Touch.added.injEq] at heq
      exact .inl ⟨heq.1.symm, rfl⟩
  | cons t ts =>
      obtain ⟨rfl, hlog⟩ := List.cons.inj heq
      refine .inr ⟨?_, ts, rfl, rest, hlog, fun hmem => hnot (List.mem_cons_of_mem _ hmem)⟩
      rintro rfl
      exact hnot List.mem_cons_self

/-- The last addition before the end of a log with an addition. -/
theorem exists_latest {log between before : List (Touch V)} {v : V}
    (h : log = between ++ .added v :: before) :
    ∃ ts, Latest log v ts ∧ ∀ t ∈ ts, t ∈ between := by
  by_cases hmem : Touch.added v ∈ between
  · obtain ⟨ts, us, heq, hnot⟩ := List.eq_append_cons_of_mem hmem
    refine ⟨ts, ⟨us ++ .added v :: before, by simp [h, heq], hnot⟩, fun t ht => ?_⟩
    rw [heq]
    exact List.mem_append_left _ ht
  · exact ⟨between, ⟨before, h, hmem⟩, fun t ht => ht⟩

end Latest

/-! ## The invariant -/

namespace Filter

variable {C V : Type} [DecidableEq V] {lru : Lru String Unit C} {size : C → ℕ}
  {entries : C → List (String × Unit)} {marshal : V → Option (List UInt8)} {f g : Filter C V}

/-- What happened since the last addition of a value: its hash is still in the cache, or as many
other values were seen as the cache has places. -/
def Remembered (size : C → ℕ) (entries : C → List (String × Unit))
    (marshal : V → Option (List UInt8)) (c : C) (v : V) (ts : List (Touch V)) : Prop :=
  (∃ hash, evtHash marshal v = some hash ∧
    Lru.Since (Lru.keys (entries c)) hash (hashes marshal ts)) ∨
    size c ≤ (others ts v).card

/-- The cache after a hash was looked up or added: its keys are as they were, or the hash was
used. -/
def Used (size : C → ℕ) (entries : C → List (String × Unit)) (hash : String) (c c' : C) : Prop :=
  size c' = size c ∧ (Lru.keys (entries c') = Lru.keys (entries c) ∨
    Lru.keys (entries c') = Lru.touch (size c) (Lru.keys (entries c)) hash)

/-- Between two additions of a value enough other values were seen. -/
def Spaced (size : C → ℕ) (f : Filter C V) : Prop :=
  ∀ v after between before, f.log = after ++ .added v :: between ++ .added v :: before →
    size f.lruCache ≤ (others between v).card

/-- The invariant of the filter. -/
structure Inv (size : C → ℕ) (entries : C → List (String × Unit))
    (marshal : V → Option (List UInt8)) (f : Filter C V) : Prop where
  pos : 0 < size f.lruCache
  remembered : ∀ v ts, Latest f.log v ts → Remembered size entries marshal f.lruCache v ts
  -- a call that has missed its value is the only one, and the value was forgotten before
  alone : ∀ v, f.calls.count (.add v) ≤ 1
  missed : ∀ v ts, Phase.add v ∈ f.calls → Latest f.log v ts →
    size f.lruCache ≤ (others ts v).card
  spaced : f.Spaced size

/-- More was seen since the last addition. -/
theorem Remembered.lookedUp (hlru : lru.Lawful size entries) {c c' : C} {v w : V}
    {ts : List (Touch V)} {hash : String} (h : Remembered size entries marshal c v ts)
    (hw : evtHash marshal w = some hash) (hpos : 0 < size c) (hused : Used size entries hash c c')
    (t : Touch V) (ht : t.value = w) : Remembered size entries marshal c' v (t :: ts) := by
  have hkeys : hashes marshal (t :: ts) = hash :: hashes marshal ts := by
    rw [hashes, List.filterMap_cons_some (by rw [ht]; exact hw), hashes]
  obtain ⟨hsize, hcache⟩ := hused
  rcases h with ⟨key, hkey, hsince⟩ | hmany
  · rcases hcache with hcache | hcache
    · refine .inl ⟨key, hkey, ?_⟩
      rw [hcache, hkeys]
      exact hsince.mono fun i hi => List.mem_cons_of_mem _ hi
    · by_cases hsame : hash = key
      · subst hsame
        refine .inl ⟨hash, hkey, ?_⟩
        rw [hcache]
        exact Lru.since_touch_self hpos
      · rcases hsince.touch (n := size c) (hlru.nodup c) hsame with hsince | hmany
        · refine .inl ⟨key, hkey, ?_⟩
          rw [hcache, hkeys]
          exact hsince
        · rw [← hkeys] at hmany
          exact .inr (hsize.le.trans (hmany.trans (card_hashes_le hkey)))
  · rw [← hsize] at hmany
    exact .inr (hmany.trans (card_others_mono fun t ht => List.mem_cons_of_mem _ ht))

omit [DecidableEq V] in
/-- The cache after `Get`. -/
theorem get_cases (hlru : lru.Lawful size entries) (c : C) (hash : String) :
    Used size entries hash c (lru.get c hash).2 ∧
      ((lru.get c hash).1.isSome = true ∨
        (lru.get c hash).1.isSome = false ∧ hash ∉ Lru.keys (entries c)) := by
  by_cases hmem : hash ∈ Lru.keys (entries c)
  · refine ⟨⟨hlru.size_get c hash, .inr (hlru.keys_get hmem)⟩, .inl ?_⟩
    rw [Option.isSome_iff_ne_none]
    exact fun hnone => (hlru.get_eq_none_iff c hash).mp hnone hmem
  · have hnone := (hlru.get_eq_none_iff c hash).mpr hmem
    refine ⟨⟨hlru.size_get c hash, .inl ?_⟩, .inr ⟨by rw [hnone]; rfl, hmem⟩⟩
    rw [hlru.entries_get_none c hash hnone]

/-- The calls that have missed their value, after one call has gone on. -/
theorem count_set {calls : List (Phase V)} {i : ℕ} {c : Phase V} (c' : Phase V)
    (hi : calls[i]? = some c) (v : V) :
    (calls.set i c').count (.add v) + (if c = .add v then 1 else 0) =
      calls.count (.add v) + if c' = .add v then 1 else 0 := by
  obtain ⟨hlt, heq⟩ := List.getElem?_eq_some_iff.mp hi
  rw [List.count_set hlt, heq]
  simp only [beq_iff_eq]
  by_cases hc : c = .add v
  · have hpos : 0 < calls.count (.add v) := List.count_pos_iff.mpr (hc ▸ List.mem_of_getElem? hi)
    simp only [if_pos hc]
    omega
  · simp only [if_neg hc]
    omega

/-- The invariant when a call goes on that touches nothing and has not missed a value. -/
theorem Inv.of_calls (h : f.Inv size entries marshal) {calls : List (Phase V)}
    (hcalls : ∀ v, calls.count (.add v) ≤ f.calls.count (.add v)) :
    Inv size entries marshal { f with calls := calls } where
  pos := h.pos
  remembered := h.remembered
  alone v := (hcalls v).trans (h.alone v)
  missed v ts hmem hlatest := by
    have hpos := List.count_pos_iff.mpr hmem
    exact h.missed v ts (List.count_pos_iff.mp (hpos.trans_le (hcalls v))) hlatest
  spaced := h.spaced

/-- The invariant after a lookup: a call that is new among those that have missed their value has
missed it now. -/
theorem Inv.lookedUp (hlru : lru.Lawful size entries) (h : f.Inv size entries marshal) {v : V}
    {hash : String} (hv : evtHash marshal v = some hash) {cache : C}
    (hused : Used size entries hash f.lruCache cache)
    {calls : List (Phase V)} (halone : ∀ w, calls.count (.add w) ≤ 1)
    (hmissed : ∀ w, Phase.add w ∈ calls →
      Phase.add w ∈ f.calls ∨ (w = v ∧ hash ∉ Lru.keys (entries f.lruCache))) :
    Inv size entries marshal ⟨cache, calls, .lookedUp v :: f.log⟩ := by
  have hsize : size cache = size f.lruCache := hused.1
  refine ⟨hsize ▸ h.pos, ?_, halone, ?_, ?_⟩
  · intro w ts hlatest
    obtain ⟨ts, rfl, hrest⟩ := hlatest.of_lookedUp
    exact (h.remembered w ts hrest).lookedUp hlru hv h.pos hused _ rfl
  · intro w ts hmem hlatest
    obtain ⟨ts, rfl, hrest⟩ := hlatest.of_lookedUp
    have hmany : size f.lruCache ≤ (others ts w).card := by
      rcases hmissed w hmem with hmem | ⟨rfl, hnot⟩
      · exact h.missed w ts hmem hrest
      · rcases h.remembered w ts hrest with ⟨key, hkey, hsince⟩ | hmany
        · obtain rfl := Option.some.inj (hv.symm.trans hkey)
          exact absurd hsince.mem hnot
        · exact hmany
    rw [hsize]
    exact hmany.trans (card_others_mono fun t ht => List.mem_cons_of_mem _ ht)
  · intro w after between before heq
    cases after with
    | nil => simp at heq
    | cons t after =>
        rw [hsize]
        exact h.spaced w after between before (List.cons.inj heq).2

/-- A lookup of a value that no other call has missed. -/
theorem Inv.get (hlru : lru.Lawful size entries) (h : f.Inv size entries marshal) {i : ℕ} {v : V}
    (hi : f.calls[i]? = some (.get v)) (hguard : Phase.add v ∉ f.calls)
    (hs : f.proceed lru marshal i (.get v) = some g) : g.Inv size entries marshal := by
  have hreturned : ∀ w, (f.calls.set i (.returned false)).count (.add w) =
      f.calls.count (.add w) := by
    intro w
    simpa using count_set (Phase.returned false) hi w
  cases hv : evtHash marshal v with
  | none =>
      simp only [proceed, hv] at hs
      obtain rfl := Option.some.inj hs
      exact h.of_calls fun w => (hreturned w).le
  | some hash =>
      simp only [proceed, hv] at hs
      obtain ⟨hused, hget | ⟨hget, hmem⟩⟩ := get_cases hlru f.lruCache hash
      · -- found: the call returns
        simp only [hget, if_true, Option.some.injEq] at hs
        subst hs
        refine h.lookedUp hlru hv hused (fun w => (hreturned w).le.trans (h.alone w)) ?_
        intro w hw
        rw [← List.count_pos_iff, hreturned] at hw
        exact .inl (List.count_pos_iff.mp hw)
      · -- missed: the value was forgotten, if it was there before
        simp only [hget, Bool.false_eq_true, if_false, Option.some.injEq] at hs
        subst hs
        refine h.lookedUp hlru hv hused (fun w => ?_) fun w hw => ?_
        · have hcount := count_set (Phase.add v) hi w
          have hold := h.alone w
          have hzero : f.calls.count (.add v) = 0 := List.count_eq_zero.mpr hguard
          by_cases hvw : v = w
          · subst hvw
            rw [if_neg (by simp), if_pos rfl] at hcount
            omega
          · rw [if_neg (by simp), if_neg fun heq => hvw (Phase.add.inj heq)] at hcount
            omega
        · rcases List.mem_or_eq_of_mem_set hw with hw | hw
          · exact .inl hw
          · exact .inr ⟨Phase.add.inj hw, hmem⟩

/-- An addition by the only call that has missed the value. -/
theorem Inv.add (hlru : lru.Lawful size entries) (h : f.Inv size entries marshal) {i : ℕ} {v : V}
    (hi : f.calls[i]? = some (.add v)) (hs : f.proceed lru marshal i (.add v) = some g) :
    g.Inv size entries marshal := by
  cases hv : evtHash marshal v with
  | none => simp [proceed, hv] at hs
  | some hash =>
      simp only [proceed, hv, Option.some.injEq] at hs
      subst hs
      have hcount : ∀ w, (f.calls.set i (.returned true)).count (.add w) +
          (if v = w then 1 else 0) = f.calls.count (.add w) := by
        intro w
        simpa using count_set (Phase.returned true) hi w
      have hkeys := hlru.keys_add f.lruCache hash ()
      have hsize := hlru.size_add f.lruCache hash ()
      refine ⟨by rw [hsize]; exact h.pos, ?_, fun w => ?_, ?_, ?_⟩
      · intro w ts hlatest
        rcases hlatest.of_added with ⟨rfl, rfl⟩ | ⟨hne, ts, rfl, hrest⟩
        · refine .inl ⟨hash, hv, ?_⟩
          rw [hkeys]
          exact Lru.since_touch_self h.pos
        · exact (h.remembered w ts hrest).lookedUp hlru hv h.pos ⟨hsize, .inr hkeys⟩ _ rfl
      · exact (Nat.le_add_right _ _).trans ((hcount w).le.trans (h.alone w))
      · intro w ts hmem hlatest
        have hpos : 0 < (f.calls.set i (.returned true)).count (.add w) :=
          List.count_pos_iff.mpr hmem
        have hle := hcount w
        have hold := h.alone w
        rw [hsize]
        rcases hlatest.of_added with ⟨rfl, rfl⟩ | ⟨hne, ts, rfl, hrest⟩
        · -- there was no other call with the value
          rw [if_pos rfl] at hle
          omega
        · have hmem' : Phase.add w ∈ f.calls := List.count_pos_iff.mp (by omega)
          exact (h.missed w ts hmem' hrest).trans
            (card_others_mono fun t ht => List.mem_cons_of_mem _ ht)
      · intro w after between before heq
        rw [hsize]
        cases after with
        | nil =>
            rw [List.nil_append, List.cons_append, List.cons.injEq, Touch.added.injEq] at heq
            obtain ⟨rfl, heq⟩ := heq
            obtain ⟨ts, hlatest, hsub⟩ := exists_latest heq
            exact (h.missed v ts (List.mem_of_getElem? hi) hlatest).trans (card_others_mono hsub)
        | cons t after => exact h.spaced w after between before (List.cons.inj heq).2

/-- Every undisturbed step keeps the invariant. -/
theorem Inv.step (hlru : lru.Lawful size entries) (h : f.Inv size entries marshal)
    {a : Action V} (hguard : f.Undisturbed a) (hs : f.step lru marshal a = some g) :
    g.Inv size entries marshal := by
  cases a with
  | call obj =>
      cases obj with
      | none =>
          obtain rfl := Option.some.inj hs
          exact h.of_calls fun w => by simp
      | some v =>
          obtain rfl := Option.some.inj hs
          exact h.of_calls fun w => by simp
  | proceed i =>
      simp only [Filter.step] at hs
      split at hs
      · cases hs
      · rename_i c hi
        cases c with
        | get v => exact h.get hlru hi (hguard v hi) hs
        | add v => exact h.add hlru hi hs
        | returned passed => cases hs

omit [DecidableEq V] in
/-- The cache keeps its size. -/
theorem size_step (hlru : lru.Lawful size entries) {a : Action V}
    (hs : f.step lru marshal a = some g) : size g.lruCache = size f.lruCache := by
  cases a with
  | call obj => cases obj <;> obtain rfl := Option.some.inj hs <;> rfl
  | proceed i =>
      simp only [Filter.step] at hs
      split at hs
      · cases hs
      · rename_i c hi
        cases c with
        | get v =>
            simp only [proceed] at hs
            split at hs
            · obtain rfl := Option.some.inj hs
              rfl
            · obtain rfl := Option.some.inj hs
              exact hlru.size_get _ _
        | add v =>
            simp only [proceed] at hs
            split at hs
            · cases hs
            · obtain rfl := Option.some.inj hs
              exact hlru.size_add _ _ _
        | returned passed => cases hs

/-- **Dedup.**  In every run of a filter whose cache has `n` places, in which no call looks up a
value that another call has missed and not yet added: between two additions of a value, so between
the two events with it that were passed on, at least `n` other values were looked up or added. -/
theorem spaced_of_run {n : ℕ} (hn : 0 < n) (lru : Lru String Unit C) (size : C → ℕ)
    (entries : C → List (String × Unit)) (hlru : lru.Lawful size entries)
    (marshal : V → Option (List UInt8)) (acts : List (Action V)) (f : Filter C V)
    (hguard : Runs.Along (step lru marshal) Undisturbed (new lru n) acts)
    (hrun : Runs.run (step lru marshal) (new lru n) acts = some f) :
    ∀ v after between before, f.log = after ++ .added v :: between ++ .added v :: before →
      n ≤ (others between v).card := by
  have h : f.Inv size entries marshal ∧ size f.lruCache = n := by
    apply Runs.run_induction_along
      (P := fun f => Inv size entries marshal f ∧ size f.lruCache = n)
      (fun f a g h hG hs => ⟨h.1.step hlru hG hs, (size_step hlru hs).trans h.2⟩) _ hguard hrun
    refine ⟨⟨(hlru.size_new n).symm ▸ hn, ?_, ?_, ?_, ?_⟩, hlru.size_new n⟩
    · rintro v ts ⟨rest, heq, -⟩
      simp [new] at heq
    · simp [new]
    · simp [new]
    · intro v after between before heq
      simp [new] at heq
  intro v after between before heq
  exact h.2 ▸ h.1.spaced v after between before heq

/-- A call passes its event on when it adds the value. -/
theorem passed_of_run {n : ℕ} (marshal : V → Option (List UInt8)) (acts : List (Action V))
    (f : Filter C V) (hrun : Runs.run (step lru marshal) (new lru n) acts = some f) :
    f.calls.count (.returned true) = f.log.countP Touch.isAdded := by
  apply Runs.run_induction (P := fun f => f.calls.count (.returned true) =
    f.log.countP Touch.isAdded) _ rfl hrun
  intro f a g h hs
  cases a with
  | call obj => cases obj <;> obtain rfl := Option.some.inj hs <;> simp [h]
  | proceed i =>
      simp only [Filter.step] at hs
      split at hs
      · cases hs
      · rename_i c hi
        obtain ⟨hlt, heq⟩ := List.getElem?_eq_some_iff.mp hi
        have hset : ∀ c', (f.calls.set i c').count (.returned true) =
            f.calls.count (.returned true) - (if c == .returned true then 1 else 0) +
              if c' == .returned true then 1 else 0 := by
          intro c'
          rw [List.count_set hlt, heq]
        cases c with
        | get v =>
            simp only [proceed] at hs
            split at hs
            · obtain rfl := Option.some.inj hs
              simpa [hset] using h
            · rename_i hash hv
              obtain rfl := Option.some.inj hs
              have hnot : (if (lru.get f.lruCache hash).1.isSome = true then Phase.returned false
                  else Phase.add v) ≠ Phase.returned true := by
                split <;> simp
              rw [List.countP_cons_of_neg (by simp [Touch.isAdded]), ← h, hset]
              simp [hnot]
        | add v =>
            simp only [proceed] at hs
            split at hs
            · cases hs
            · obtain rfl := Option.some.inj hs
              have hadded : Touch.isAdded (.added v) = true := rfl
              simp only [hset, List.countP_cons_of_pos hadded, ← h]
              simp
        | returned passed => cases hs

/-- `json.Marshal` of a plain text. -/
def marshalText (s : String) : Option (List UInt8) := some ("\"" ++ s ++ "\"").toUTF8.data.toList

/-- Two events with one value: both calls look it up before the first one adds it. -/
def racing : List (Action String) :=
  [.call (some "a"), .call (some "a"), .proceed 0, .proceed 1, .proceed 0, .proceed 1]

/-- Both events are passed on, and nothing else was seen between the additions. -/
theorem racing_passes_both :
    ∃ f, Runs.run (step Lru.recent marshalText) (new Lru.recent 1000) racing = some f ∧
    f.calls = [.returned true, .returned true] ∧
    ¬ ∀ v after between before, f.log = after ++ .added v :: between ++ .added v :: before →
      1000 ≤ (others between v).card := by
  have hrun : (Runs.run (step Lru.recent marshalText) (new Lru.recent 1000) racing).map
      (fun f => (f.calls, f.log)) =
      some ([.returned true, .returned true],
        [.added "a", .added "a", .lookedUp "a", .lookedUp "a"]) := by
    decide +kernel
  obtain ⟨f, hf, heq⟩ := Option.map_eq_some_iff.mp hrun
  obtain ⟨hcalls, hlog⟩ := Prod.mk.inj heq
  refine ⟨f, hf, hcalls, fun h => ?_⟩
  have hmany := h "a" [] [] [.lookedUp "a", .lookedUp "a"] hlog
  exact absurd hmany (by decide)

/-- A value that is passed on again after another one took its place in the cache. -/
def again : List (Action String) :=
  [.call (some "a"), .proceed 0, .proceed 0, .call (some "b"), .proceed 1, .proceed 1,
    .call (some "a"), .proceed 2, .proceed 2]

/-- One other value was seen in between. -/
theorem spaced_of_run_again :
    ∃ f, Runs.run (step Lru.recent marshalText) (new Lru.recent 1) again = some f ∧
    f.calls = [.returned true, .returned true, .returned true] ∧
    1 ≤ (others [.lookedUp "a", .added "b", .lookedUp "b"] "a").card := by
  have hrun : (Runs.run (step Lru.recent marshalText) (new Lru.recent 1) again).map
      (fun f => (f.calls, f.log)) =
      some ([.returned true, .returned true, .returned true], [.added "a", .lookedUp "a",
        .added "b", .lookedUp "b", .added "a", .lookedUp "a"]) := by
    decide +kernel
  obtain ⟨f, hf, heq⟩ := Option.map_eq_some_iff.mp hrun
  obtain ⟨hcalls, hlog⟩ := Prod.mk.inj heq
  have hspaced := spaced_of_run (by decide) Lru.recent Lru.Recent.size Lru.Recent.entries
    Lru.recent_lawful marshalText again f (by decide +kernel) hf
  exact ⟨f, hf, hcalls, hspaced "a" [] _ [.lookedUp "a"] hlog⟩

end Filter

end Dedup
