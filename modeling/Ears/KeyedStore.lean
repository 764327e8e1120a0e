/-
# Stores of values under keys

A store keeps values under keys, changes one of them at a time, and answers with one of them, with
all of them or with those of a group.  `Spec` is such a store as a map: what a request makes of the
map, and which answers fit it.  The values of a map come in any order, each once (`ListsOn`), so
two answers that fit are the same up to the order (`Spec.same_of_fits`).

`Storage` is an implementation, whose requests can fail, and which goes through its table in
an order that is not its own.  `Lawful` says what one request does to its table.  Then the answers to
any requests fit the map (`Lawful.fits`), and two implementations answer alike (`Lawful.agree`).

The lists of a table whose keys encode those of the map (`listsOn_of_encoded`), of a map of
maps (`listsOn_of_nested`) and of a part of the values (`ListsOn.filter`) are lists of the map.
-/
import Ears.Runs

namespace KeyedStore

variable {κ K K₁ K₂ β ι ε π σ τ V : Type*}

/-! ## Lists of the values of a map -/

/-- The keys of a map in some order, each once. -/
structure Enumerates (ks : List κ) (m : κ → Option β) : Prop where
  nodup : ks.Nodup
  mem_iff : ∀ k, k ∈ ks ↔ ∃ v, m k = some v

/-- The values of a map at the keys with `P`, in some order of these keys. -/
def ListsOn (P : κ → Prop) (m : κ → Option β) (vs : List β) : Prop :=
  ∃ ks : List κ, ks.Nodup ∧ (∀ k, k ∈ ks ↔ P k ∧ ∃ v, m k = some v) ∧ vs = ks.filterMap m

/-- All the values. -/
abbrev Lists (m : κ → Option β) (vs : List β) : Prop := ListsOn (fun _ => True) m vs

variable {P : κ → Prop} {m : κ → Option β} {vs ws : List β}

/-- Two lists of the same values differ in the order. -/
theorem ListsOn.perm (h : ListsOn P m vs) (h' : ListsOn P m ws) : vs.Perm ws := by
  obtain ⟨ks, hnodup, hmem, rfl⟩ := h
  obtain ⟨ks', hnodup', hmem', rfl⟩ := h'
  apply List.Perm.filterMap
  rw [List.perm_ext_iff_of_nodup hnodup hnodup']
  intro k
  rw [hmem, hmem']

/-- A map with one value set has its keys and that of the value. -/
theorem Enumerates.update [DecidableEq κ] {ks : List κ} (h : Enumerates ks m) (k : κ) (v : β) :
    ∃ ks', Enumerates ks' (Function.update m k (some v)) := by
  by_cases hk : k ∈ ks
  · refine ⟨ks, h.nodup, fun k' => ?_⟩
    rw [Function.update_apply]
    split
    · rename_i heq
      exact ⟨fun _ => ⟨v, rfl⟩, fun _ => heq ▸ hk⟩
    · exact h.mem_iff k'
  · refine ⟨k :: ks, List.nodup_cons.mpr ⟨hk, h.nodup⟩, fun k' => ?_⟩
    rw [Function.update_apply, List.mem_cons]
    split
    · rename_i heq
      exact ⟨fun _ => ⟨v, rfl⟩, fun _ => .inl heq⟩
    · rename_i hne
      rw [or_iff_right hne]
      exact h.mem_iff k'

/-- A map with one key less. -/
theorem Enumerates.erase [DecidableEq κ] {ks : List κ} (h : Enumerates ks m) (k : κ) :
    Enumerates (ks.filter (· ≠ k)) (Function.update m k none) where
  nodup := h.nodup.filter _
  mem_iff := by
    intro k'
    rw [List.mem_filter, Function.update_apply, decide_eq_true_iff, h.mem_iff]
    split
    · rename_i heq
      constructor
      · rintro ⟨-, hne⟩
        exact absurd heq hne
      · rintro ⟨v, hv⟩
        cases hv
    · rename_i hne
      exact and_iff_left hne

/-- Where a value says whether its key has `P`, a list of all values can be filtered. -/
theorem ListsOn.filter {p : β → Bool} (h : Lists m vs)
    (hp : ∀ k v, m k = some v → (p v = true ↔ P k)) : ListsOn P m (vs.filter p) := by
  obtain ⟨ks, hnodup, hmem, rfl⟩ := h
  refine ⟨ks.filter fun k => (m k).any p, hnodup.filter _, fun k => ?_, ?_⟩
  · rw [List.mem_filter, hmem, true_and]
    constructor
    · rintro ⟨⟨v, hv⟩, hany⟩
      rw [hv] at hany
      exact ⟨(hp k v hv).mp hany, v, hv⟩
    · rintro ⟨hP, v, hv⟩
      refine ⟨⟨v, hv⟩, ?_⟩
      rw [hv]
      exact (hp k v hv).mpr hP
  · rw [List.filter_filterMap, List.filterMap_filter]
    apply List.filterMap_congr
    intro k _
    cases m k with
    | none => rfl
    | some v =>
        show Option.guard _ v = if p v = true then some v else none
        rw [Option.guard]

/-! ## Tables that represent a map -/

/-- A table whose keys encode those of the map. -/
theorem listsOn_of_encoded {enc : κ → K} (hinj : Function.Injective enc) {t : K → Option β}
    (hkeys : ∀ x v, t x = some v → ∃ k, x = enc k) {xs : List K} (h : Enumerates xs t) :
    Lists (fun k => t (enc k)) (xs.filterMap t) := by
  have hrange : xs ∈ Set.range (List.map enc) := by
    rw [Set.range_list_map]
    intro x hx
    obtain ⟨v, hv⟩ := (h.mem_iff x).mp hx
    obtain ⟨k, rfl⟩ := hkeys x v hv
    exact ⟨k, rfl⟩
  obtain ⟨ks, rfl⟩ := hrange
  refine ⟨ks, h.nodup.of_map enc, fun k => ?_, ?_⟩
  · rw [true_and, ← h.mem_iff, List.mem_map_of_injective hinj]
  · rw [List.filterMap_map]
    rfl

/-- A map of maps, gone through map by map. -/
theorem enumerates_nested {t : K₁ → Option (K₂ → Option β)} {xs : List K₁} {ys : K₁ → List K₂}
    (h : Enumerates xs t) (h' : ∀ x u, t x = some u → Enumerates (ys x) u) :
    Enumerates (xs.flatMap fun x => (ys x).map fun y => (x, y))
      fun k : K₁ × K₂ => (t k.1).bind fun u => u k.2 where
  nodup := by
    rw [List.nodup_flatMap]
    constructor
    · intro x hx
      obtain ⟨u, hu⟩ := (h.mem_iff x).mp hx
      exact (h' x u hu).nodup.map (Prod.mk_right_injective x)
    · refine h.nodup.imp ?_
      intro x x' hne k hk hk'
      obtain ⟨y, -, rfl⟩ := List.mem_map.mp hk
      obtain ⟨y', -, heq⟩ := List.mem_map.mp hk'
      exact hne (congrArg Prod.fst heq).symm
  mem_iff := by
    rintro ⟨x, y⟩
    rw [List.mem_flatMap]
    constructor
    · rintro ⟨x', hx', hk⟩
      obtain ⟨y', hy', heq⟩ := List.mem_map.mp hk
      obtain ⟨rfl, rfl⟩ := Prod.mk.inj heq
      obtain ⟨u, hu⟩ := (h.mem_iff x').mp hx'
      obtain ⟨v, hv⟩ := ((h' x' u hu).mem_iff y').mp hy'
      refine ⟨v, ?_⟩
      dsimp only
      rw [hu]
      exact hv
    · rintro ⟨v, hv⟩
      obtain ⟨u, hu, huv⟩ := Option.bind_eq_some_iff.mp hv
      exact ⟨x, (h.mem_iff x).mpr ⟨u, hu⟩, List.mem_map.mpr ⟨y, ((h' x u hu).mem_iff y).mpr
        ⟨v, huv⟩, rfl⟩⟩

/-- Values that can all be read. -/
theorem mapM_eq_ok {W : Type*} {read : W → Except ε β} {ws : List W}
    (h : ∀ w ∈ ws, ∃ v, read w = .ok v) :
    ws.mapM read = .ok (ws.filterMap fun w => (read w).toOption) := by
  induction ws with
  | nil => rfl
  | cons w ws ih =>
      obtain ⟨v, hv⟩ := h w List.mem_cons_self
      rw [List.mapM_cons, ih fun u hu => h u (List.mem_cons_of_mem w hu), hv,
        List.filterMap_cons_some (by rw [hv]; rfl)]
      rfl

/-- A table whose values are read when they are listed. -/
theorem Enumerates.read {W : Type*} {read : W → Except ε β} {t : K → Option W} {xs : List K}
    (h : Enumerates xs t) (hread : ∀ x w, t x = some w → ∃ v, read w = .ok v) :
    Enumerates xs (fun x => (t x).bind fun w => (read w).toOption) ∧
      (xs.filterMap t).mapM read =
        .ok (xs.filterMap fun x => (t x).bind fun w => (read w).toOption) := by
  refine ⟨⟨h.nodup, fun x => ?_⟩, ?_⟩
  · rw [h.mem_iff]
    constructor
    · rintro ⟨w, hw⟩
      obtain ⟨v, hv⟩ := hread x w hw
      refine ⟨v, ?_⟩
      rw [hw, Option.bind_some, hv]
      rfl
    · rintro ⟨v, hv⟩
      obtain ⟨w, hw, -⟩ := Option.bind_eq_some_iff.mp hv
      exact ⟨w, hw⟩
  · rw [mapM_eq_ok, List.filterMap_filterMap]
    intro w hw
    obtain ⟨x, -, hx⟩ := List.mem_filterMap.mp hw
    exact hread x w hx

/-! ## A store as a map -/

/-- What a store is asked: to set or delete one value or several, and for one value, all of them, or
those of a group of keys. -/
inductive Request (κ ι π : Type*) where
  | set (i : ι)
  | setAll (is : List ι)
  | delete (k : κ)
  | deleteAll (ks : List κ)
  | get (k : κ)
  | getAll
  | getGroup (p : π)

/-- What it answers. -/
inductive Answer (β ε : Type*) where
  | done (r : Except ε Unit)
  | value (r : Except ε β)
  | values (r : Except ε (List β))

/-- Answers that differ at most in the order of the values. -/
inductive Answer.Same : Answer β ε → Answer β ε → Prop
  | refl (a : Answer β ε) : Same a a
  | perm {vs ws : List β} : vs.Perm ws → Same (.values (.ok vs)) (.values (.ok ws))

/-- The key and the value of an item, given what is there; the error for a key without a value;
and the groups of the keys. -/
structure Spec (κ ι β ε π : Type*) where
  key : ι → κ
  value : ι → Option β → β
  notFound : κ → ε
  group : κ → π

namespace Spec

variable [DecidableEq κ] (sp : Spec κ ι β ε π)

/-- The map after an item is set. -/
def set (m : κ → Option β) (i : ι) : κ → Option β :=
  Function.update m (sp.key i) (some (sp.value i (m (sp.key i))))

/-- The map without a key. -/
def erase (m : κ → Option β) (k : κ) : κ → Option β := Function.update m k none

/-- The map after a request. -/
def next (m : κ → Option β) : Request κ ι π → κ → Option β
  | .set i => sp.set m i
  | .setAll is => is.foldl sp.set m
  | .delete k => erase m k
  | .deleteAll ks => ks.foldl erase m
  | .get _ => m
  | .getAll => m
  | .getGroup _ => m

/-- What is answered for a key. -/
def answer (m : κ → Option β) (k : κ) : Except ε β := (m k).elim (.error (sp.notFound k)) .ok

/-- The answers that fit a map. -/
def Fits (m : κ → Option β) : Request κ ι π → Answer β ε → Prop
  | .get k, a => a = .value (sp.answer m k)
  | .getAll, a => ∃ vs, a = .values (.ok vs) ∧ Lists m vs
  | .getGroup p, a => ∃ vs, a = .values (.ok vs) ∧ ListsOn (fun k => sp.group k = p) m vs
  | _, a => a = .done (.ok ())

/-- The answers to requests one after the other. -/
def FitAll : (κ → Option β) → List (Request κ ι π) → List (Answer β ε) → Prop
  | _, [], as => as = []
  | m, q :: qs, as => ∃ a as', as = a :: as' ∧ sp.Fits m q a ∧ FitAll (sp.next m q) qs as'

variable {sp} {m : κ → Option β} {q : Request κ ι π} {qs : List (Request κ ι π)}
  {a b : Answer β ε} {as bs : List (Answer β ε)}

omit [DecidableEq κ] in
/-- What fits is determined up to the order. -/
theorem same_of_fits (ha : sp.Fits m q a) (hb : sp.Fits m q b) : a.Same b := by
  have hlisted : ∀ P : κ → Prop, (∃ vs, a = .values (.ok vs) ∧ ListsOn P m vs) →
      (∃ vs, b = .values (.ok vs) ∧ ListsOn P m vs) → a.Same b := by
    rintro P ⟨vs, rfl, hvs⟩ ⟨ws, rfl, hws⟩
    exact .perm (hvs.perm hws)
  cases q with
  | getAll => exact hlisted _ ha hb
  | getGroup p => exact hlisted _ ha hb
  | set i => exact (show a = b from ha.trans hb.symm) ▸ .refl a
  | setAll is => exact (show a = b from ha.trans hb.symm) ▸ .refl a
  | delete k => exact (show a = b from ha.trans hb.symm) ▸ .refl a
  | deleteAll ks => exact (show a = b from ha.trans hb.symm) ▸ .refl a
  | get k => exact (show a = b from ha.trans hb.symm) ▸ .refl a

theorem same_of_fitAll (ha : sp.FitAll m qs as) (hb : sp.FitAll m qs bs) :
    List.Forall₂ Answer.Same as bs := by
  induction qs generalizing m as bs with
  | nil =>
      obtain rfl : as = [] := ha
      obtain rfl : bs = [] := hb
      exact .nil
  | cons q qs ih =>
      obtain ⟨a, as, rfl, hfit, hrest⟩ := ha
      obtain ⟨b, bs, rfl, hfit', hrest'⟩ := hb
      exact .cons (same_of_fits hfit hfit') (ih hrest hrest')

end Spec

/-! ## Implementations -/

/-- An implementation with tables in `σ`.  `whole s v`: going through the table gives `v`. -/
structure Storage (σ V κ ι β ε π : Type*) where
  set : σ → ι → Except ε σ
  delete : σ → κ → Except ε σ
  get : σ → κ → Except ε β
  whole : σ → V → Prop
  getAll : σ → V → Except ε (List β)
  getGroup : σ → V → π → Except ε (List β)

/-- A change that may fail. -/
def settle (s : σ) : Except ε σ → σ × Except ε Unit
  | .error err => (s, .error err)
  | .ok s' => (s', .ok ())

/-- Changes one after the other; the first that fails is the last. -/
def each {α : Type*} (change : σ → α → Except ε σ) (s : σ) : List α → σ × Except ε Unit
  | [] => (s, .ok ())
  | x :: xs =>
      match change s x with
      | .error err => (s, .error err)
      | .ok s' => each change s' xs

namespace Storage

variable (S : Storage σ V κ ι β ε π)

/-- A request is answered, and the table is as after it. -/
def Replies (s : σ) : Request κ ι π → Answer β ε → σ → Prop
  | .set i, a, s' => (settle s (S.set s i)).1 = s' ∧ a = .done (settle s (S.set s i)).2
  | .setAll is, a, s' => (each S.set s is).1 = s' ∧ a = .done (each S.set s is).2
  | .delete k, a, s' => (settle s (S.delete s k)).1 = s' ∧ a = .done (settle s (S.delete s k)).2
  | .deleteAll ks, a, s' => (each S.delete s ks).1 = s' ∧ a = .done (each S.delete s ks).2
  | .get k, a, s' => s = s' ∧ a = .value (S.get s k)
  | .getAll, a, s' => s = s' ∧ ∃ v, S.whole s v ∧ a = .values (S.getAll s v)
  | .getGroup p, a, s' => s = s' ∧ ∃ v, S.whole s v ∧ a = .values (S.getGroup s v p)

/-- Requests are answered one after the other. -/
def Serves : σ → List (Request κ ι π) → List (Answer β ε) → σ → Prop
  | s, [], as, s' => s = s' ∧ as = []
  | s, q :: qs, as, s' => ∃ a as' t, as = a :: as' ∧ S.Replies s q a t ∧ Serves t qs as' s'

/-- The table can be gone through. -/
def Listable (s : σ) : Prop := ∃ v, S.whole s v

variable {S} in
theorem Listable.settle {s : σ} (hs : S.Listable s) {r : Except ε σ}
    (hr : ∀ s', r = .ok s' → S.Listable s') : S.Listable (settle s r).1 := by
  cases r with
  | error err => exact hs
  | ok s' => exact hr s' rfl

variable {S} in
theorem Listable.each {α : Type*} {change : σ → α → Except ε σ}
    (hchange : ∀ s x s', S.Listable s → change s x = .ok s' → S.Listable s') {s : σ}
    (hs : S.Listable s) (xs : List α) : S.Listable (each change s xs).1 := by
  induction xs generalizing s with
  | nil => exact hs
  | cons x xs ih =>
      unfold KeyedStore.each
      cases h : change s x with
      | error err => exact hs
      | ok s' => exact ih (hchange s x s' hs h)

variable {S} in
/-- Every request is answered, as long as the tables can be gone through. -/
theorem exists_serves (hset : ∀ s i s', S.Listable s → S.set s i = .ok s' → S.Listable s')
    (hdelete : ∀ s k s', S.Listable s → S.delete s k = .ok s' → S.Listable s') {s : σ}
    (hs : S.Listable s) (qs : List (Request κ ι π)) : ∃ as s', S.Serves s qs as s' := by
  induction qs generalizing s with
  | nil => exact ⟨[], s, rfl, rfl⟩
  | cons q qs ih =>
      have hone : ∃ a t, S.Replies s q a t ∧ S.Listable t := by
        have ⟨v, hv⟩ := hs
        cases q with
        | set i => exact ⟨_, _, ⟨rfl, rfl⟩, hs.settle fun s' => hset s i s' hs⟩
        | setAll is => exact ⟨_, _, ⟨rfl, rfl⟩, hs.each hset is⟩
        | delete k => exact ⟨_, _, ⟨rfl, rfl⟩, hs.settle fun s' => hdelete s k s' hs⟩
        | deleteAll ks => exact ⟨_, _, ⟨rfl, rfl⟩, hs.each hdelete ks⟩
        | get k => exact ⟨_, s, ⟨rfl, rfl⟩, hs⟩
        | getAll => exact ⟨_, s, ⟨rfl, v, hv, rfl⟩, hs⟩
        | getGroup p => exact ⟨_, s, ⟨rfl, v, hv, rfl⟩, hs⟩
      obtain ⟨a, t, hreply, ht⟩ := hone
      obtain ⟨as, s', hrest⟩ := ih ht
      exact ⟨a :: as, s', a, as, t, rfl, hreply, hrest⟩

/-- What one request does to the table, where the items have `Item` and the keys to delete have
`Key`. -/
structure Lawful [DecidableEq κ] (sp : Spec κ ι β ε π) (Keeps : σ → Prop)
    (lookup : σ → κ → Option β) (Item : ι → Prop) (Key : κ → Prop) : Prop where
  set : ∀ s i, Keeps s → Item i →
    ∃ s', S.set s i = .ok s' ∧ Keeps s' ∧ lookup s' = sp.set (lookup s) i
  delete : ∀ s k, Keeps s → Key k →
    ∃ s', S.delete s k = .ok s' ∧ Keeps s' ∧ lookup s' = Spec.erase (lookup s) k
  get : ∀ s k, Keeps s → S.get s k = sp.answer (lookup s) k
  getAll : ∀ s v, Keeps s → S.whole s v → ∃ vs, S.getAll s v = .ok vs ∧ Lists (lookup s) vs
  getGroup : ∀ s v p, Keeps s → S.whole s v →
    ∃ vs, S.getGroup s v p = .ok vs ∧ ListsOn (fun k => sp.group k = p) (lookup s) vs

end Storage

/-- The items of a request have `Item`, and the keys to delete have `Key`. -/
def Request.Meets (Item : ι → Prop) (Key : κ → Prop) : Request κ ι π → Prop
  | .set i => Item i
  | .setAll is => ∀ i ∈ is, Item i
  | .delete k => Key k
  | .deleteAll ks => ∀ k ∈ ks, Key k
  | _ => True

theorem Request.Meets.imp {Item Item' : ι → Prop} {Key Key' : κ → Prop} {q : Request κ ι π}
    (h : q.Meets Item Key) (hitem : ∀ i, Item i → Item' i) (hkey : ∀ k, Key k → Key' k) :
    q.Meets Item' Key' := by
  cases q with
  | set i => exact hitem i h
  | setAll is => exact fun i hi => hitem i (h i hi)
  | delete k => exact hkey k h
  | deleteAll ks => exact fun k hk => hkey k (h k hk)
  | get k => trivial
  | getAll => trivial
  | getGroup p => trivial

/-- Changes that all go through. -/
theorem each_spec {α : Type*} {change : σ → α → Except ε σ} {next : (κ → Option β) → α → κ → Option β}
    {Keeps : σ → Prop} {lookup : σ → κ → Option β} {xs : List α}
    (h : ∀ s, ∀ x ∈ xs, Keeps s →
      ∃ s', change s x = .ok s' ∧ Keeps s' ∧ lookup s' = next (lookup s) x)
    {s : σ} (hs : Keeps s) :
    Keeps (each change s xs).1 ∧ lookup (each change s xs).1 = xs.foldl next (lookup s) ∧
      (each change s xs).2 = .ok () := by
  induction xs generalizing s with
  | nil => exact ⟨hs, rfl, rfl⟩
  | cons x xs ih =>
      obtain ⟨s', hchange, hs', hlookup⟩ := h s x List.mem_cons_self hs
      have hrest := ih (fun t y hy => h t y (List.mem_cons_of_mem x hy)) hs'
      unfold each
      rw [hchange]
      dsimp only
      rwa [List.foldl_cons, ← hlookup]

namespace Storage.Lawful

variable [DecidableEq κ] {S : Storage σ V κ ι β ε π} {sp : Spec κ ι β ε π} {Keeps : σ → Prop}
  {lookup : σ → κ → Option β} {Item : ι → Prop} {Key : κ → Prop} {s s' : σ}
  {q : Request κ ι π} {qs : List (Request κ ι π)} {a : Answer β ε} {as : List (Answer β ε)}

/-- The step lemma: the table is that of the map after the request, and the answer fits. -/
theorem replies (h : S.Lawful sp Keeps lookup Item Key) (hs : Keeps s) (hq : q.Meets Item Key)
    (hrun : S.Replies s q a s') :
    Keeps s' ∧ lookup s' = sp.next (lookup s) q ∧ sp.Fits (lookup s) q a := by
  cases q with
  | set i =>
      obtain ⟨t, hset, ht, hlookup⟩ := h.set s i hs hq
      obtain ⟨rfl, rfl⟩ := hrun
      rw [hset]
      exact ⟨ht, hlookup, rfl⟩
  | setAll is =>
      obtain ⟨ht, hlookup, hdone⟩ := each_spec (fun t i hi ht => h.set t i ht (hq i hi)) hs
      obtain ⟨rfl, rfl⟩ := hrun
      rw [hdone]
      exact ⟨ht, hlookup, rfl⟩
  | delete k =>
      obtain ⟨t, hdelete, ht, hlookup⟩ := h.delete s k hs hq
      obtain ⟨rfl, rfl⟩ := hrun
      rw [hdelete]
      exact ⟨ht, hlookup, rfl⟩
  | deleteAll ks =>
      obtain ⟨ht, hlookup, hdone⟩ := each_spec (fun t k hk ht => h.delete t k ht (hq k hk)) hs
      obtain ⟨rfl, rfl⟩ := hrun
      rw [hdone]
      exact ⟨ht, hlookup, rfl⟩
  | get k =>
      obtain ⟨rfl, rfl⟩ := hrun
      exact ⟨hs, rfl, congrArg Answer.value (h.get s k hs)⟩
  | getAll =>
      obtain ⟨rfl, v, hv, rfl⟩ := hrun
      obtain ⟨vs, hvs, hlists⟩ := h.getAll s v hs hv
      exact ⟨hs, rfl, vs, congrArg Answer.values hvs, hlists⟩
  | getGroup p =>
      obtain ⟨rfl, v, hv, rfl⟩ := hrun
      obtain ⟨vs, hvs, hlists⟩ := h.getGroup s v p hs hv
      exact ⟨hs, rfl, vs, congrArg Answer.values hvs, hlists⟩

/-- The run lemma: the answers fit the map. -/
theorem fits (h : S.Lawful sp Keeps lookup Item Key) (hs : Keeps s)
    (hqs : ∀ q ∈ qs, q.Meets Item Key) (hrun : S.Serves s qs as s') :
    Keeps s' ∧ lookup s' = qs.foldl sp.next (lookup s) ∧ sp.FitAll (lookup s) qs as := by
  induction qs generalizing s as with
  | nil =>
      obtain ⟨rfl, rfl⟩ := hrun
      exact ⟨hs, rfl, rfl⟩
  | cons q qs ih =>
      obtain ⟨a, as, t, rfl, hreply, hrest⟩ := hrun
      obtain ⟨ht, hlookup, hfits⟩ := h.replies hs (hqs q List.mem_cons_self) hreply
      obtain ⟨hs', hlookup', hall⟩ := ih ht (fun r hr => hqs r (List.mem_cons_of_mem q hr)) hrest
      rw [hlookup] at hlookup' hall
      exact ⟨hs', hlookup', a, as, rfl, hfits, hall⟩

/-- Two implementations answer alike from tables of one map. -/
theorem agree {V' : Type*} {S' : Storage τ V' κ ι β ε π} {Keeps' : τ → Prop}
    {lookup' : τ → κ → Option β} {Item' : ι → Prop} {Key' : κ → Prop} {t t' : τ}
    {bs : List (Answer β ε)} (h : S.Lawful sp Keeps lookup Item Key)
    (h' : S'.Lawful sp Keeps' lookup' Item' Key') (hs : Keeps s) (ht : Keeps' t)
    (hst : lookup s = lookup' t) (hqs : ∀ q ∈ qs, q.Meets Item Key)
    (hqs' : ∀ q ∈ qs, q.Meets Item' Key') (hrun : S.Serves s qs as s')
    (hrun' : S'.Serves t qs bs t') : List.Forall₂ Answer.Same as bs ∧ lookup s' = lookup' t' := by
  obtain ⟨-, hlookup, hfits⟩ := h.fits hs hqs hrun
  obtain ⟨-, hlookup', hfits'⟩ := h'.fits ht hqs' hrun'
  rw [← hst] at hlookup' hfits'
  exact ⟨Spec.same_of_fitAll hfits hfits', hlookup.trans hlookup'.symm⟩

end Storage.Lawful

end KeyedStore
