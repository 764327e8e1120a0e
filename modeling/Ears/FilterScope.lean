/-
# What filters reach

A filter reads the data of its event, what its library calls make and the values in its
configuration.  Most filters call `DeepCopy` before they write, and are safe on any event that
does not count as copied; an event with data of its own is safe with every filter.

`Chain.copiesFirst` reads off a chain whether its first writing filter works on a copy.  Three
filters matter there: `modify` writes without a copy, `merge` makes a map of parts of the old
data, and `unwrap` puts a part of the old data into an event that counts as copied.  An event
that goes through a chain which copies first is written to only where the route owns the data
(`Chain.scoped_filter`).
-/
import Ears.EventScope
import Ears.LibraryFilters

open GoLib

variable {κ ε ρ α β : Type} {A : Scope} {B : Ref → Prop}

/-! ## The parts that filters share -/

open Event.Calls

variable {lib : Libs κ} {evt : Event κ}

/-- A filter that gives up on its event returns nothing. -/
theorem scoped_discard {P : Event κ → Prop} :
    EventScoped A (fun evts => ∀ e ∈ evts, P e) (discard evt : EventProg ε _) :=
  EventScoped.bind scoped_ack fun _ _ => EventScoped.pure fun _ he => absurd he (by simp)

/-- The filters that write one value copy the event first. -/
theorem scoped_store (hlib : lib.Scoped) (he : evt.Fit A) (path : String) {output : Value}
    (hout : output.In A.own) :
    EventScoped A (EventsIn A.own) (store lib evt path output : EventProg ε _) := by
  unfold store
  refine EventScoped.bind (EventScoped.left (scoped_deepCopy hlib he)) fun evt he => ?_
  refine EventScoped.bind (scoped_setPathValue he path hout true) fun x hx => ?_
  split
  · exact scoped_discard
  · exact EventScoped.pure (eventsIn_singleton hx)

section Read

variable [A.Reads B]

/-- What is read from an event at the start of a filter. -/
theorem scoped_getPathValue_left (he : evt.In B) (path : String) :
    EventScoped A (Event.Found.In B)
      ((Event.getPathValue lib evt path).left : EventProg ε _) :=
  EventScoped.left (Event.scoped_getPathValue lib he path)

/-- A `range` over the keys of a map value. -/
theorem GoLib.Scoped.rangeOf {v : Value} (hv : v.In B) :
    Scoped A (fun _ => True) (HeapProg.rangeOf v) := by
  unfold HeapProg.rangeOf
  split
  · rename_i r
    have hr : B r := hv
    exact Scoped.keys hr
  · exact Scoped.pure trivial

/-- A key of a map value. -/
theorem GoLib.Scoped.lookup {v : Value} (hv : v.In B) (key : String) :
    Scoped A (Value.In B) (HeapProg.lookup v key) := by
  unfold HeapProg.lookup
  split
  · rename_i r
    have hr : B r := hv
    exact Scoped.bind (Scoped.getKey hr key) fun res hres => Scoped.pure (Value.In.getD hres)
  · exact Scoped.pure trivial

end Read

namespace Event

/-- A value is read for its place in a text. -/
theorem scoped_insertedText (hlib : lib.Scoped) {v : Value} (hv : v.In A.read) :
    Scoped A (fun _ => True) (insertedText lib v) := by
  unfold insertedText
  split
  · exact Scoped.pure trivial
  · refine Scoped.bind (hlib.marshal A _ hv) fun res _ => ?_
    split
    · exact Scoped.pure trivial
    · exact Scoped.pure trivial

/-- `Evaluate` reads the event. -/
theorem scoped_evaluateText (hlib : lib.Scoped) (he : evt.In A.read) (rounds : ℕ) :
    ∀ expr, Scoped A (Found.In A.read) (evaluateText lib evt rounds expr) := by
  induction rounds with
  | zero => exact fun _ => Scoped.panic
  | succ rounds ih =>
      intro expr
      unfold evaluateText
      split
      · exact Scoped.pure ⟨trivial, trivial⟩
      · exact Scoped.panic
      · refine Scoped.bind (scoped_getPathValue lib he _) fun found hfound => ?_
        refine Scoped.bind (hlib.deepCopy A _ hfound.1) fun v hv => ?_
        have hv := Scope.own_in_read hv
        split
        · exact Scoped.pure ⟨hv, hfound.2⟩
        · exact Scoped.bind (scoped_insertedText hlib hv) fun text _ => ih _

/-- The event of an element has the metadata of the whole. -/
theorem In.subEvent (he : evt.In B) {elem : Value} (hv : elem.In B) (tid : Tenant.Id) :
    (evt.subEvent lib elem tid).In B := ⟨hv, he.metadata⟩

end Event

/-! ## The filters -/

namespace Transform

/-- The object that a slot is in belongs to `B`. -/
def Slot.In (B : Ref → Prop) : Slot → Prop
  | .none => True
  | .key parent _ => B parent
  | .index parent _ => B parent

/-- The write into an own slot. -/
theorem scoped_set {v : Value} (hv : v.In A.own) {slot : Slot} (hslot : slot.In A.own) :
    Scoped A (fun _ => True) (slot.set v) := by
  cases slot with
  | none => exact Scoped.pure trivial
  | key parent name =>
      simp only [Slot.set]
      split
      · exact Scoped.setKey hslot _ hv
      · exact Scoped.pure trivial
  | index parent idx => exact Scoped.setIndex hslot _ hv

/-- The braces of a text are filled in, and the text is written into its slot. -/
theorem scoped_transformText (hlib : lib.Scoped) (he : evt.In A.read) {slot : Slot}
    (hslot : slot.In A.own) (rounds : ℕ) :
    ∀ tt, Scoped A (fun _ => True) (transformText lib evt slot rounds tt) := by
  induction rounds with
  | zero => exact fun _ => Scoped.panic
  | succ rounds ih =>
      intro tt
      unfold transformText
      split
      · exact Scoped.pure trivial
      · exact Scoped.panic
      · refine Scoped.bind (Event.scoped_getPathValue lib he _) fun found hfound => ?_
        refine Scoped.bind (hlib.deepCopy A _ hfound.1) fun v hv => ?_
        split
        · exact Scoped.bind (scoped_set hv hslot) fun _ _ => ih _
        · refine Scoped.bind (Event.scoped_insertedText hlib (Scope.own_in_read hv))
            fun text _ => ?_
          exact Scoped.bind (scoped_set (v := .str _) trivial hslot) fun _ _ => ih _

/-- A transformation is filled in where it is; what it is filled with is copied. -/
theorem scoped_transform (hlib : lib.Scoped) (he : evt.In A.read) (depth : ℕ) :
    ∀ t slot, Value.In A.own t → Slot.In A.own slot →
      Scoped A (fun _ => True) (transform lib evt depth t slot) := by
  induction depth with
  | zero => exact fun _ _ _ _ => Scoped.panic
  | succ depth ih =>
      intro t slot ht hslot
      cases t with
      | map r =>
          have hr : A.own r := ht
          refine Scoped.bind (Scoped.keys hr) fun keys _ => Prog.Safe.forM fun key _ => ?_
          exact Scoped.bind (Scoped.lookup ht key) fun st hst => ih st (.key r key) hst ht
      | slice r =>
          have hr : A.own r := ht
          refine Scoped.bind (Scoped.len hr) fun n _ => Prog.Safe.forM fun idx _ => ?_
          exact Scoped.bind (Scoped.index hr idx) fun st hst => ih st (.index r idx) hst ht
      | str s => exact scoped_transformText hlib he hslot _ _
      | _ => exact Scoped.pure trivial

variable {c : Config}

/-- A copy of the transformation is filled in and written into the event. -/
theorem scoped_transformElement (hlib : lib.Scoped) (hc : c.transformation.In A.read)
    (he : evt.In A.own) {elem : Value} (helem : elem.In A.own) (path : String) :
    EventScoped A (fun x => x.1.In A.own)
      (transformElement lib c evt elem path : EventProg ε _) := by
  unfold transformElement
  refine EventScoped.bind (EventScoped.left (hlib.deepCopy A _ hc)) fun t ht => ?_
  have hsub : (evt.subEvent lib elem evt.tid).In A.read :=
    (he.subEvent helem _).mono A.own_read
  refine EventScoped.bind (EventScoped.left (scoped_transform hlib hsub _ t .none ht trivial)) ?_
  exact fun _ _ => scoped_setPathValue he path ht true

/-- The same for each element of an array. -/
theorem scoped_transformElements (hlib : lib.Scoped) (hc : c.transformation.In A.read)
    {arr : Ref} (harr : A.own arr) (is : List ℕ) :
    ∀ {evt : Event κ}, evt.In A.own →
      EventScoped A (EventsIn A.own) (transformElements lib c arr is evt : EventProg ε _) := by
  induction is with
  | nil => exact fun he => EventScoped.pure (eventsIn_singleton he)
  | cons idx rest ih =>
      intro evt he
      unfold transformElements
      refine EventScoped.bind (EventScoped.left (Scoped.index harr idx)) fun elem helem => ?_
      refine EventScoped.bind (scoped_transformElement hlib hc he helem _) fun x hx => ?_
      split
      · exact scoped_discard
      · exact ih hx

/-- Without a transformation the event passes as it is. -/
theorem filter_of_nil (hnil : c.transformation = .nil) :
    (filter lib c evt : EventProg ε _) = Pure.pure [evt] := if_pos hnil

/-- With one, the filter works on a copy. -/
theorem scoped_filter (hlib : lib.Scoped) (hc : c.transformation.In A.read)
    (hnil : c.transformation ≠ .nil) (he : evt.Fit A) :
    EventScoped A (EventsIn A.own) (filter lib c evt : EventProg ε _) := by
  unfold filter
  rw [if_neg hnil]
  refine EventScoped.bind (EventScoped.left (scoped_deepCopy hlib he)) fun evt he => ?_
  refine EventScoped.bind (scoped_getPathValue_left he _) ?_
  rintro ⟨obj, parent, key⟩ ⟨hobj, -⟩
  dsimp only at hobj ⊢
  split
  · rename_i arr
    have harr : A.own arr := hobj
    refine EventScoped.bind (EventScoped.left (Scoped.len harr)) fun n _ => ?_
    exact scoped_transformElements hlib hc harr _ he
  · refine EventScoped.bind (scoped_transformElement hlib hc he hobj _) fun x hx => ?_
    split
    · exact scoped_discard
    · exact EventScoped.pure (eventsIn_singleton hx)

end Transform

namespace Mapping

/-- A value of the configuration, or one of the event. -/
theorem scoped_resolve (he : evt.In A.read) {v : Value} (hv : v.In A.read) :
    Scoped A (Value.In A.read) (resolve lib evt v) := by
  unfold resolve
  split
  · split
    · exact Scoped.bind (Event.scoped_getPathValue lib he _) fun found hfound =>
        Scoped.pure hfound.1
    · exact Scoped.pure trivial
  · exact Scoped.pure hv

/-- Values are read and compared. -/
theorem scoped_comparePairs (hlib : lib.Scoped) (he : evt.In A.read) (equal : Bool)
    (pairs : List (String × Value)) (hpairs : ∀ p ∈ pairs, p.2.In A.read) :
    Scoped A (fun _ => True) (comparePairs lib evt equal pairs) := by
  induction pairs with
  | nil => exact Scoped.pure trivial
  | cons p rest ih =>
      obtain ⟨b, a⟩ := p
      unfold comparePairs
      refine Scoped.bind (scoped_resolve he (hpairs _ List.mem_cons_self)) fun aObj ha => ?_
      refine Scoped.bind (scoped_resolve he (v := .str b) trivial) fun bObj hb => ?_
      refine Scoped.bind (hlib.deepEqual A _ _ ha hb) fun x _ => ?_
      split
      · exact ih fun p hp => hpairs p (List.mem_cons_of_mem _ hp)
      · exact Scoped.pure trivial

/-- The values of a comparison are in `B`. -/
def Comparison.In (B : Ref → Prop) (cmp : Comparison) : Prop :=
  (∀ p ∈ cmp.equal.flatten, p.2.In B) ∧ ∀ p ∈ cmp.notEqual.flatten, p.2.In B

/-- The values of an entry of the map are in `B`. -/
structure FromTo.In (B : Ref → Prop) (m : FromTo) : Prop where
  source : m.source.In B
  target : m.target.In B
  comparison : ∀ cmp ∈ m.comparison, cmp.In B

/-- The values of the configuration are in `B`. -/
structure Config.In (B : Ref → Prop) (c : Config) : Prop where
  map : ∀ m ∈ c.map, m.In B
  defaultValue : c.defaultValue.In B

/-- A larger set of addresses. -/
theorem Config.In.mono {C : Ref → Prop} {c : Config} (h : c.In B) (hBC : ∀ r, B r → C r) :
    c.In C where
  map m hm :=
    { source := (h.map m hm).source.mono hBC
      target := (h.map m hm).target.mono hBC
      comparison := fun cmp hcmp =>
        ⟨fun p hp => (((h.map m hm).comparison cmp hcmp).1 p hp).mono hBC,
          fun p hp => (((h.map m hm).comparison cmp hcmp).2 p hp).mono hBC⟩ }
  defaultValue := h.defaultValue.mono hBC

/-- `compare` reads the event and the configuration. -/
theorem scoped_compare (hlib : lib.Scoped) (he : evt.In A.read) {cmp : Option Comparison}
    (hcmp : ∀ x ∈ cmp, x.In A.read) : Scoped A (fun _ => True) (compare lib evt cmp) := by
  cases cmp with
  | none => exact Scoped.pure trivial
  | some cmp =>
      have hin := hcmp cmp rfl
      refine Scoped.bind (scoped_comparePairs hlib he true _ hin.1) fun b _ => ?_
      split
      · exact scoped_comparePairs hlib he false _ hin.2
      · exact Scoped.pure trivial

/-- The references of both events are in `B`. -/
structure Cursor.In (B : Ref → Prop) (cur : Cursor κ) : Prop where
  evt : cur.evt.In B
  elem : ∀ x ∈ cur.elem, x.2.In B

variable {c : Config} {cur : Cursor κ}

/-- The event that is looked at. -/
theorem Cursor.In.currEvent (h : cur.In B) : cur.currEvent.In B := by
  unfold Cursor.currEvent
  split
  · rename_i idx e hx
    exact h.elem (idx, e) hx
  · exact h.evt

/-- A copy of the value is written. -/
theorem scoped_put (hlib : lib.Scoped) (h : cur.In A.own) {val : Value} (hval : val.In A.read) :
    EventScoped A (Cursor.In A.own) (put lib c cur val : EventProg ε _) := by
  unfold put
  refine EventScoped.bind (EventScoped.left (hlib.deepCopy A _ hval)) fun v hv => ?_
  split
  · rename_i idx currEvent hx
    have hcurr : currEvent.In A.own := h.elem (idx, currEvent) hx
    refine EventScoped.bind (scoped_setPathValue hcurr _ hv true) fun x hx => ?_
    refine EventScoped.bind (scoped_setPathValue h.evt _ hx.payload true) fun y hy => ?_
    refine EventScoped.pure ⟨hy, fun z hz => ?_⟩
    cases hz
    exact hx
  · refine EventScoped.bind (scoped_setPathValue h.evt _ hv true) fun x hx => ?_
    exact EventScoped.pure ⟨hx, fun z hz => by cases hz⟩

/-- The entries of the map are tried in order. -/
theorem scoped_mapEntries (hlib : lib.Scoped) {obj : Value} (hobj : obj.In A.read)
    (ms : List FromTo) (hms : ∀ m ∈ ms, m.In A.read) :
    ∀ {cur : Cursor κ} (mapped : Bool), cur.In A.own →
      EventScoped A (fun x => x.1.In A.own)
        (mapEntries lib c obj ms cur mapped : EventProg ε _) := by
  induction ms with
  | nil => exact fun _ h => EventScoped.pure h
  | cons m rest ih =>
      intro cur mapped h
      have hm := hms m List.mem_cons_self
      have hrest : ∀ m ∈ rest, m.In A.read := fun m hm => hms m (List.mem_cons_of_mem _ hm)
      have hcurr : cur.currEvent.In A.read := h.currEvent.mono A.own_read
      unfold mapEntries
      refine EventScoped.bind (EventScoped.left (scoped_resolve hcurr hm.source))
        fun source hsource => ?_
      refine EventScoped.bind (EventScoped.left (scoped_resolve hcurr hm.target))
        fun target htarget => ?_
      refine EventScoped.bind (EventScoped.left (hlib.deepEqual A _ _ hobj hsource)) fun b _ => ?_
      split
      · refine EventScoped.bind (EventScoped.left (scoped_compare hlib hcurr hm.comparison))
          fun b _ => ?_
        split
        · exact EventScoped.bind (scoped_put hlib h htarget) fun cur hcur => ih hrest true hcur
        · exact ih hrest mapped h
      · exact ih hrest mapped h

/-- One value is mapped. -/
theorem scoped_mapElement (hlib : lib.Scoped) (hc : c.In A.read) (h : cur.In A.own) :
    EventScoped A (Cursor.In A.own) (mapElement lib c cur : EventProg ε _) := by
  have hcurr : cur.currEvent.In A.read := h.currEvent.mono A.own_read
  unfold mapElement
  refine EventScoped.bind (scoped_getPathValue_left hcurr _) fun found hfound => ?_
  refine EventScoped.bind (scoped_mapEntries hlib hfound.1 c.map hc.map false h) ?_
  rintro ⟨cur, mapped⟩ hx
  dsimp only at hx ⊢
  split
  · have hcurr : cur.currEvent.In A.read := hx.currEvent.mono A.own_read
    refine EventScoped.bind (EventScoped.left (scoped_resolve hcurr hc.defaultValue)) ?_
    exact fun defVal hdef => scoped_put hlib hx hdef
  · exact EventScoped.pure hx

/-- The elements of an array are mapped one after the other. -/
theorem scoped_mapElements (hlib : lib.Scoped) (hc : c.In A.read) {arr : Ref}
    (harr : A.own arr) (is : List ℕ) :
    ∀ {evt : Event κ}, evt.In A.own →
      EventScoped A (Event.In A.own) (mapElements lib c arr is evt : EventProg ε _) := by
  induction is with
  | nil => exact fun he => EventScoped.pure he
  | cons idx rest ih =>
      intro evt he
      unfold mapElements
      refine EventScoped.bind (EventScoped.left (Scoped.index harr idx)) fun elem helem => ?_
      have hcur : Cursor.In A.own ⟨evt, some (idx, evt.subEvent lib elem ⟨"", ""⟩)⟩ := by
        refine ⟨he, fun x hx => ?_⟩
        cases hx
        exact he.subEvent helem _
      exact EventScoped.bind (scoped_mapElement hlib hc hcur) fun cur hcur => ih hcur.evt

/-- The filter works on a copy. -/
theorem scoped_filter (hlib : lib.Scoped) (hc : c.In A.read) (he : evt.Fit A) :
    EventScoped A (EventsIn A.own) (filter lib c evt : EventProg ε _) := by
  unfold filter
  refine EventScoped.bind (EventScoped.left (scoped_deepCopy hlib he)) fun evt he => ?_
  refine EventScoped.bind (scoped_getPathValue_left he _) ?_
  rintro ⟨elem, parent, key⟩ ⟨helem, -⟩
  dsimp only at helem ⊢
  split
  · rename_i arr
    have harr : A.own arr := helem
    refine EventScoped.bind (EventScoped.left (Scoped.len harr)) fun n _ => ?_
    refine EventScoped.bind (scoped_mapElements hlib hc harr _ he) fun evt he => ?_
    exact EventScoped.pure (eventsIn_singleton he)
  · have hcur : Cursor.In A.own ⟨evt, none⟩ := ⟨he, fun x hx => by cases hx⟩
    refine EventScoped.bind (scoped_mapElement hlib hc hcur) fun cur hcur => ?_
    exact EventScoped.pure (eventsIn_singleton hcur.evt)

end Mapping

namespace Merge

/-- Keys are merged into an own map. -/
theorem scoped_mergeEntries {merge : Value → Value → HeapProg Value}
    (hmerge : ∀ a b, Value.In A.own a → Value.In A.own b →
      Scoped A (Value.In A.own) (merge a b))
    {a : Value} (ha : a.In A.own) {bc : Ref} (hbc : A.own bc) (ks : List String) :
    Scoped A (fun _ => True) (mergeEntries merge a bc ks) := by
  induction ks with
  | nil => exact Scoped.pure trivial
  | cons k ks ih =>
      unfold mergeEntries
      refine Scoped.bind (Scoped.lookup ha k) fun va hva => ?_
      refine Scoped.bind (Scoped.lookup (v := .map bc) hbc k) fun vb hvb => ?_
      refine Scoped.bind (hmerge va vb hva hvb) fun v hv => ?_
      exact Scoped.bind (Scoped.setKey hbc k hv) fun _ _ => ih

/-- A merge of two values is made of their parts. -/
theorem scoped_merge (depth : ℕ) :
    ∀ a b, Value.In A.own a → Value.In A.own b →
      Scoped A (Value.In A.own) (merge depth a b) := by
  induction depth with
  | zero => exact fun _ _ _ _ => Scoped.panic
  | succ depth ih =>
      intro a b ha hb
      unfold merge
      split
      · exact Scoped.pure hb
      · split
        · exact Scoped.pure ha
        · split
          · -- two maps: a copy of the second, then the keys of the first merged into it
            refine Scoped.bind Scoped.makeMap fun bc hbc => ?_
            refine Scoped.bind (Scoped.rangeOf hb) fun keys _ => ?_
            refine Scoped.bind (Q := fun _ => True) (Prog.Safe.forM fun k _ => ?_) fun _ _ => ?_
            · exact Scoped.bind (Scoped.lookup hb k) fun v hv => Scoped.setKey hbc k hv
            · refine Scoped.bind (Scoped.rangeOf ha) fun keys _ => ?_
              exact Scoped.bind (scoped_mergeEntries ih ha hbc keys) fun _ _ => Scoped.pure hbc
          · split
            · -- two slices: a new one with the elements of both
              rename_i x y _ _ _
              have hx : A.own x := ha
              have hy : A.own y := hb
              refine Scoped.bind (Scoped.len hx) fun n _ => ?_
              refine Scoped.bind (Scoped.elems hx _) fun xs hxs => ?_
              refine Scoped.bind (Scoped.len hy) fun m _ => ?_
              refine Scoped.bind (Scoped.elems hy _) fun ys hys => ?_
              refine Scoped.bind (Scoped.makeSlice fun v hv => ?_) fun r hr => Scoped.pure hr
              rcases List.mem_append.mp hv with hv | hv
              · exact hxs v hv
              · exact hys v hv
            · exact Scoped.pure hb

/-- The merged value is made of parts of the event, so the event has to have data of its
own before. -/
theorem scoped_filter {c : Config} (hlib : lib.Scoped) (he : evt.In A.own) :
    EventScoped A (EventsIn A.own) (filter lib c evt : EventProg ε _) := by
  unfold filter
  refine EventScoped.bind (scoped_getPathValue_left he _) fun fromObj hfrom => ?_
  refine EventScoped.bind (scoped_getPathValue_left he _) fun toObj hto => ?_
  refine EventScoped.bind (EventScoped.left (scoped_merge _ _ _ hfrom.1 hto.1)) fun m hm => ?_
  exact scoped_store hlib (Or.inl he) _ hm

end Merge

/-- The payload becomes a part of what it was before the copy; the event counts as copied. -/
theorem Unwrap.scoped_filter [A.Reads B] {c : Unwrap.Config} (hlib : lib.Scoped)
    (he : evt.In B) :
    EventScoped A (fun evts => ∀ e ∈ evts, e.In B ∧ e.deepcopied = true)
      (Unwrap.filter lib c evt : EventProg ε _) := by
  unfold Unwrap.filter
  refine EventScoped.bind (scoped_getPathValue_left he _) ?_
  rintro ⟨obj, parent, key⟩ ⟨hobj, -⟩
  dsimp only at hobj ⊢
  split
  · exact scoped_discard
  · have hread : evt.In A.read := he.mono fun _ => Scope.Reads.read
    refine EventScoped.bind (EventScoped.left (scoped_deepCopy_cases hlib hread)) ?_
    rintro evt' ⟨hcopied, hdata⟩
    have he' : evt'.In B := by
      rcases hdata with ⟨-, rfl⟩ | hown
      · exact he
      · exact hown.mono fun _ => Scope.Reads.of_own
    refine EventScoped.bind (scoped_setPayload he' hobj) fun x hx => ?_
    split
    · exact scoped_discard
    · refine EventScoped.pure fun e hmem => ?_
      rw [List.mem_singleton.mp hmem]
      exact ⟨hx.1, hx.2.trans hcopied⟩

/-- The filter reads a value, and writes a text into a copy. -/
theorem Encode.scoped_filter {c : Encode.Config} (hlib : lib.Scoped) (he : evt.Fit A) :
    EventScoped A (EventsIn A.own) (Encode.filter lib c evt : EventProg ε _) := by
  unfold Encode.filter
  refine EventScoped.bind (scoped_getPathValue_left he.in_read _) ?_
  rintro ⟨obj, parent, key⟩ ⟨hobj, -⟩
  dsimp only at hobj ⊢
  split
  · exact scoped_discard
  · refine EventScoped.bind (EventScoped.left (hlib.marshal A _ hobj)) fun buf _ => ?_
    split
    · exact scoped_discard
    · exact scoped_store hlib he _ trivial

/-- The parsed value is written into a copy. -/
theorem Decode.scoped_decodeInput {c : Decode.Config} (hlib : lib.Scoped) (he : evt.Fit A)
    (input : List UInt8) :
    EventScoped A (EventsIn A.own) (Decode.decodeInput lib c evt input : EventProg ε _) := by
  unfold Decode.decodeInput
  split
  · exact scoped_discard
  · refine EventScoped.bind (EventScoped.left (hlib.unmarshal A _)) fun out hout => ?_
    split
    · exact scoped_discard
    · exact scoped_store hlib he _ (hout _ rfl)

/-- The filter reads a text, and writes into a copy. -/
theorem Decode.scoped_filter {c : Decode.Config} (hlib : lib.Scoped) (he : evt.Fit A) :
    EventScoped A (EventsIn A.own) (Decode.filter lib c evt : EventProg ε _) := by
  unfold Decode.filter
  refine EventScoped.bind (scoped_getPathValue_left he.in_read _) fun found hfound => ?_
  split
  split
  · exact Decode.scoped_decodeInput hlib he _
  · exact Decode.scoped_decodeInput hlib he _
  · exact scoped_discard

namespace Hash

variable {c : Config}

/-- What is hashed is read from the event. -/
theorem scoped_hashed (hlib : lib.Scoped) (he : evt.In A.read) :
    Scoped A (Event.Found.In A.read) (hashed lib c evt) := by
  unfold hashed
  split
  · exact Event.scoped_evaluateText hlib he _ _
  · exact Event.scoped_getPathValue lib he _

/-- A value is read as bytes. -/
theorem scoped_hashBytes (hlib : lib.Scoped) {v : Value} (hv : v.In A.read) :
    Scoped A (fun _ => True) (hashBytes lib v) := by
  unfold hashBytes
  split
  · exact Scoped.pure trivial
  · exact Scoped.pure trivial
  · refine Scoped.bind (hlib.marshal A _ hv) fun res _ => ?_
    split
    · exact Scoped.pure trivial
    · exact Scoped.pure trivial

/-- A hash has no reference. -/
theorem hashOutput_in {buf : List UInt8} {output : Value}
    (h : hashOutput lib c buf = .ok output) : output.In B := by
  unfold hashOutput at h
  split_ifs at h <;> cases h <;> trivial

/-- Nor has its encoding. -/
theorem encodeOutput_in {output output' : Value} (hout : output.In B)
    (h : encodeOutput c output = some output') : output'.In B := by
  unfold encodeOutput at h
  split at h
  · split at h
    · split_ifs at h <;> cases h <;> trivial
    · cases h
  · cases h
    exact hout

/-- The filter reads a value, and writes its hash into a copy. -/
theorem scoped_filter (hlib : lib.Scoped) (he : evt.Fit A) :
    EventScoped A (EventsIn A.own) (filter lib c evt : EventProg ε _) := by
  unfold filter
  refine EventScoped.bind (EventScoped.left (scoped_hashed hlib he.in_read)) ?_
  rintro ⟨obj, parent, key⟩ ⟨hobj, -⟩
  dsimp only at hobj ⊢
  split
  · exact scoped_discard
  · refine EventScoped.bind (EventScoped.left (scoped_hashBytes hlib hobj)) fun buf _ => ?_
    split
    · exact scoped_discard
    · split
      · exact scoped_discard
      · rename_i output hout
        split
        · exact EventScoped.panic
        · rename_i output' hout'
          exact scoped_store hlib he _ (encodeOutput_in (hashOutput_in hout) hout')

end Hash

/-- The filter reads a text, and writes into a copy. -/
theorem Regex.scoped_filter {c : Regex.Config} (hlib : lib.Scoped) (he : evt.Fit A) :
    EventScoped A (EventsIn A.own) (Regex.filter lib c evt : EventProg ε _) := by
  unfold Regex.filter
  refine EventScoped.bind (scoped_getPathValue_left he.in_read _) ?_
  rintro ⟨obj, parent, key⟩ ⟨hobj, -⟩
  dsimp only at hobj ⊢
  split
  · exact EventScoped.bind (EventScoped.left (hlib.marshal A _ he.in_read.payload)) fun _ _ =>
      scoped_discard
  · have htext : Scoped A (fun _ => True) (Regex.objAsStr lib obj) := by
      unfold Regex.objAsStr
      split
      · exact Scoped.pure trivial
      · exact Scoped.pure trivial
      · exact hlib.marshal A _ hobj
    refine EventScoped.bind (EventScoped.left htext) fun text _ => ?_
    split
    · exact scoped_discard
    · split
      · exact scoped_discard
      · exact scoped_store hlib he _ trivial

/-- The texts at the paths are written where they are. -/
theorem Modify.scoped_modifyPaths {c : Modify.Config} (paths : List String) :
    ∀ {evt : Event κ}, evt.In A.own →
      EventScoped A (Event.In A.own) (Modify.modifyPaths lib c paths evt : EventProg ε _) := by
  induction paths with
  | nil => exact fun he => EventScoped.pure he
  | cons p rest ih =>
      intro evt he
      have hset : ∀ s : String, EventScoped A (fun x => x.1.In A.own)
          (setPathValue evt p (.str s) false : EventProg ε _) :=
        fun s => scoped_setPathValue he p (show (Value.str s).In A.own from trivial) false
      unfold Modify.modifyPaths
      refine EventScoped.bind (scoped_getPathValue_left he _) fun found hfound => ?_
      split
      split
      · split
        · exact EventScoped.bind (hset _) fun x hx => ih hx
        · split
          · exact EventScoped.bind (hset _) fun x hx => ih hx
          · exact ih he
      · exact ih he

/-- The filter does not copy, so the event has to have data of its own before. -/
theorem Modify.scoped_filter {c : Modify.Config} (he : evt.In A.own) :
    EventScoped A (EventsIn A.own) (Modify.filter lib c evt : EventProg ε _) :=
  EventScoped.bind (Modify.scoped_modifyPaths _ he) fun _ he =>
    EventScoped.pure (eventsIn_singleton he)

namespace Split

variable [A.Reads B]

/-- The events of the elements share what the event shares, and do not count as copied. -/
theorem scoped_splitElements (hlib : lib.Scoped) (he : evt.In B) {arr : Ref} (harr : B arr)
    (is : List ℕ) :
    ∀ events, (∀ e ∈ events, e.In B ∧ e.deepcopied = false) →
      EventScoped A (fun evts => ∀ e ∈ evts, e.In B ∧ e.deepcopied = false)
        (splitElements lib evt arr is events : EventProg ε _) := by
  induction is with
  | nil => exact fun events hev => EventScoped.bind scoped_ack fun _ _ => EventScoped.pure hev
  | cons i is ih =>
      intro events hev
      have hread : evt.In A.read := he.mono fun _ => Scope.Reads.read
      unfold splitElements
      refine EventScoped.bind (EventScoped.left (Scoped.index harr i)) fun p hp => ?_
      refine EventScoped.bind (scoped_clone he _) fun x hx => ?_
      split
      · exact scoped_discard
      · rename_i nevt
        obtain ⟨hnevt, hfalse⟩ := hx nevt rfl
        refine EventScoped.bind (scoped_setPayload hnevt hp) fun y hy => ?_
        split
        · exact scoped_discard
        · refine EventScoped.bind (EventScoped.left (scoped_copyMetadata hlib hread))
            fun m hm => ?_
          have hm' : ∀ r ∈ m, B r := fun r hr => Scope.Reads.of_own (hm r hr)
          refine EventScoped.bind (scoped_setMetadata hy.1 hm') fun z hz => ?_
          refine ih _ fun e hmem => ?_
          rcases List.mem_append.mp hmem with hmem | hmem
          · exact hev e hmem
          · rw [List.mem_singleton.mp hmem]
            exact ⟨hz.1, hz.2.trans (hy.2.trans hfalse)⟩

/-- The filter writes nothing. -/
theorem scoped_filter (hlib : lib.Scoped) (he : evt.In B) (path : String) :
    EventScoped A (fun evts => ∀ e ∈ evts, e.In B ∧ e.deepcopied = false)
      (filter lib path evt : EventProg ε _) := by
  unfold filter
  refine EventScoped.bind (scoped_getPathValue_left he _) ?_
  rintro ⟨obj, parent, key⟩ ⟨hobj, -⟩
  dsimp only at hobj ⊢
  split
  · rename_i arr
    have harr : B arr := hobj
    refine EventScoped.bind (EventScoped.left (Scoped.len harr)) fun n _ => ?_
    exact scoped_splitElements hlib he harr _ _ fun e hmem => absurd hmem (by simp)
  · exact scoped_discard

end Split

namespace Js

/-- A script reaches the data it is given, which are copies, and what it makes. -/
def Script.Scoped (script : Script ρ) : Prop :=
  ∀ (A : Scope) payload metadata event, payload.In A.own → metadata.In A.own → event.In A.own →
    GoLib.Scoped A (fun x => ∀ v, x.2 = .ok (.value v) → v.In A.own)
      (script payload metadata event)

/-- The data for a script is a copy. -/
theorem scoped_scriptData (hlib : lib.Scoped) (absent : Bool) {v : Value} (hv : v.In A.read) :
    Scoped A (Value.In A.own) (scriptData lib absent v) := by
  unfold scriptData
  split
  · exact Scoped.bind Scoped.makeMap fun r hr => Scoped.pure hr
  · exact hlib.deepCopy A _ hv

/-- What a script returns is made of copies. -/
theorem scoped_runScript (hlib : lib.Scoped) {script : Script ρ} (hscript : script.Scoped)
    (he : evt.In A.read) :
    Scoped A (fun x => ∀ v, x.2 = .ok (.value v) → v.In A.own) (runScript lib script evt) := by
  unfold runScript
  refine Scoped.bind (scoped_scriptData hlib _ he.payload) fun payload hp => ?_
  refine Scoped.bind (scoped_scriptData hlib _ he.metadataValue) fun metadata hm => ?_
  refine Scoped.bind Scoped.makeMap fun event hevent => ?_
  refine Scoped.bind (Scoped.setKey hevent _ hp) fun _ _ => ?_
  refine Scoped.bind (Scoped.setKey hevent _ hm) fun _ _ => ?_
  exact hscript A payload metadata (.map event) hp hm hevent

/-- A value that is a map. -/
theorem asMap_in {x : Option Value} (hx : ∀ v ∈ x, v.In B) {m : Option Ref}
    (h : asMap x = some m) : ∀ r ∈ m, B r := by
  unfold asMap at h
  split at h
  · cases h
    intro r hr
    cases hr
    exact hx _ rfl
  · cases h
    exact fun r hr => by cases hr
  · cases h

/-- A key is read from a value that may be a map. -/
theorem scoped_readKey {m : Value} (hm : m.In A.own) (key : String)
    {p : HeapProg (Option Value)}
    (hp : (∃ r, m = .map r ∧ p = HeapProg.getKey r key) ∨ p = Pure.pure none) :
    Scoped A (fun res => ∀ v ∈ res, v.In A.own) p := by
  rcases hp with ⟨r, rfl, rfl⟩ | rfl
  · have hr : A.own r := hm
    exact Scoped.getKey hr key
  · exact Scoped.pure fun v hv => by cases hv

/-- If nothing fails, payload and metadata are replaced by what the script returned. -/
theorem scoped_setData {m : Value} (hm : m.In A.own) :
    EventScoped A (fun x => x.2 = .ok () → x.1.In A.own) (setData evt m : EventProg ε _) := by
  unfold setData
  refine EventScoped.bind (EventScoped.left (scoped_readKey hm "payload" ?_)) fun payload hp => ?_
  · cases m with
    | map r => exact Or.inl ⟨r, rfl, rfl⟩
    | _ => exact Or.inr rfl
  refine EventScoped.bind (scoped_setPayload_cases (payload.getD .nil)) fun x hx => ?_
  rcases hx with ⟨err, rfl⟩ | rfl
  · exact EventScoped.pure fun h => by cases h
  · refine EventScoped.bind (EventScoped.left (scoped_readKey hm "metadata" ?_))
      fun metadata hmeta => ?_
    · cases m with
      | map r => exact Or.inl ⟨r, rfl, rfl⟩
      | _ => exact Or.inr rfl
    split
    · exact EventScoped.panic
    · rename_i hmap
      refine (scoped_setMetadata_cases _).mono fun y hy hok => ?_
      rcases hy with ⟨err, rfl⟩ | rfl
      · cases hok
      · exact ⟨Value.In.getD hp, asMap_in hmeta hmap⟩

/-- An event for each element of what the script returned. -/
theorem scoped_execElements {arr : Ref} (harr : A.own arr) (he : evt.In A.read)
    (is : List ℕ) :
    ∀ events, EventsIn A.own events →
      EventScoped A (fun x => ∀ evts, x = .ok evts → EventsIn A.own evts)
        (execElements evt arr is events : EventProg ε _) := by
  induction is with
  | nil =>
      intro events hev
      refine EventScoped.pure fun evts h => ?_
      cases h
      exact hev
  | cons i is ih =>
      intro events hev
      unfold execElements
      refine EventScoped.bind (EventScoped.left (Scoped.index harr i)) fun m hm => ?_
      split
      · refine EventScoped.bind (scoped_clone he _) fun x _ => ?_
        split
        · exact EventScoped.pure fun evts h => by cases h
        · refine EventScoped.bind (scoped_setData hm) fun y hy => ?_
          split
          · exact EventScoped.pure fun evts h => by cases h
          · exact ih _ (hev.append (eventsIn_singleton (hy rfl)))
      · exact EventScoped.pure fun evts h => by cases h

/-- The references of the events that are made are in `B`. -/
def ResultIn (B : Ref → Prop) (x : Event κ × Except EventError (List (Event κ))) : Prop :=
  ∀ evts, x.2 = .ok evts → EventsIn B evts

theorem resultIn_error (err : EventError) :
    ResultIn B (evt, (.error err : Except EventError (List (Event κ)))) :=
  fun _ h => by cases h

theorem resultIn_ok {evts : List (Event κ)} (h : EventsIn B evts) :
    ResultIn B (evt, .ok evts) := by
  intro evts' h'
  cases h'
  exact h

/-- An object that the script returned becomes the data of the event. -/
theorem scoped_execObject {m : Value} (hm : m.In A.own) :
    EventScoped A (ResultIn A.own) (execObject evt m : EventProg ε _) := by
  unfold execObject
  refine EventScoped.bind (scoped_setData hm) fun x hx => ?_
  split
  · exact EventScoped.pure (resultIn_error _)
  · exact EventScoped.pure (resultIn_ok (eventsIn_singleton (hx rfl)))

/-- The events for what the script returned. -/
theorem scoped_execResult (he : evt.In A.read) {out : Except String Exported}
    (hout : ∀ v, out = .ok (.value v) → v.In A.own) :
    EventScoped A (ResultIn A.own) (execResult evt out : EventProg ε _) := by
  unfold execResult
  split
  · exact EventScoped.pure (resultIn_error _)
  · exact EventScoped.pure (resultIn_ok eventsIn_nil)
  · exact EventScoped.pure (resultIn_ok eventsIn_nil)
  · exact EventScoped.pure (resultIn_ok eventsIn_nil)
  · -- a script that returns a slice makes an event of each element
    rename_i arr
    have harr : A.own arr := hout _ rfl
    refine EventScoped.bind (EventScoped.left (Scoped.len harr)) fun n _ => ?_
    refine EventScoped.bind (scoped_execElements harr he _ _ eventsIn_nil) fun res hres => ?_
    exact EventScoped.pure hres
  · split
    · exact scoped_execObject (hout _ rfl)
    · exact EventScoped.pure (resultIn_error _)
  · exact EventScoped.pure (resultIn_error _)

/-- Events that a js filter returns have the data that the script has made of copies. -/
theorem scoped_filter (hlib : lib.Scoped) {code : Except String (Script ρ)}
    (hcode : ∀ script, code = .ok script → script.Scoped) (he : evt.In A.read) :
    EventScoped A (EventsIn A.own) (filter lib code evt : EventProg ε _) := by
  have hexec : EventScoped A (ResultIn A.own) (exec lib code evt : EventProg ε _) := by
    unfold exec
    split
    · exact EventScoped.pure (resultIn_error _)
    · rename_i script
      refine EventScoped.bind (EventScoped.left (scoped_runScript hlib (hcode script rfl) he)) ?_
      exact fun x hx => scoped_execResult he hx
  unfold filter
  refine EventScoped.bind hexec fun x hx => ?_
  split
  · exact scoped_discard
  · exact scoped_discard
  · exact EventScoped.pure (hx _ rfl)

end Js

/-! ## Chains -/

/-- The references in the configuration of a filter are in `B`, and its script reaches what
it is given. -/
def Filterer.In (B : Ref → Prop) : Filterer ρ → Prop
  | .transform c => c.transformation.In B
  | .mapping c => c.In B
  | .js code => ∀ script, code = .ok script → script.Scoped
  | _ => True

/-- A larger set of addresses. -/
theorem Filterer.In.mono {C : Ref → Prop} {f : Filterer ρ} (h : f.In B)
    (hBC : ∀ r, B r → C r) : f.In C := by
  cases f with
  | transform c => exact Value.In.mono h hBC
  | mapping c => exact Mapping.Config.In.mono h hBC
  | js code => exact h
  | _ => trivial

/-- A chain that copies before it writes, for an event with data that is shared; `counts` says
whether the event counts as copied nevertheless.

Filters that write one value copy an event that does not count as copied, and from there on
everything is allowed, as it is after `js`, which replaces the data.  The events of `split`
share data and do not count as copied; after `unwrap` an event shares data and counts as
copied.  `merge` and `modify` must not come first. -/
def Chain.copiesFirst : Bool → List (Filterer ρ) → Bool
  | _, [] => true
  | _, .js _ :: _ => true
  | _, .split _ :: fs => Chain.copiesFirst false fs
  | _, .unwrap _ :: fs => Chain.copiesFirst true fs
  | counts, .transform c :: fs =>
      if c.transformation = .nil then Chain.copiesFirst counts fs else !counts
  | _, .merge _ :: _ => false
  | _, .modify _ :: _ => false
  | counts, .mapping _ :: _ => !counts
  | counts, .encode _ :: _ => !counts
  | counts, .decode _ :: _ => !counts
  | counts, .hash _ :: _ => !counts
  | counts, .regex _ :: _ => !counts
  | counts, .trace _ :: _ => !counts

example : Chain.copiesFirst (ρ := Unit) false [.unwrap {}, .split ".", .trace {}, .modify {}] =
    true := rfl

example : Chain.copiesFirst (ρ := Unit) false [.unwrap {}, .trace {}] = false := rfl

/-- An event that can go through a chain: it has data of its own, or it may be read and the
chain copies it before it writes. -/
def Event.ReadyFor (A : Scope) (fs : List (Filterer ρ)) (e : Event κ) : Prop :=
  e.In A.own ∨ (e.In A.read ∧ Chain.copiesFirst e.deepcopied fs = true)

/-- Such an event may be read. -/
theorem Event.ReadyFor.in_read {fs : List (Filterer ρ)} {e : Event κ} (h : e.ReadyFor A fs) :
    e.In A.read := by
  rcases h with h | ⟨h, -⟩
  · exact h.mono A.own_read
  · exact h

/-- Events with data of their own can go through any chain. -/
theorem EventsIn.readyFor {evts : List (Event κ)} (h : EventsIn A.own evts)
    (fs : List (Filterer ρ)) : ∀ e ∈ evts, e.ReadyFor A fs := fun e he => Or.inl (h e he)

/-- A filter that copies an event that does not count as copied. -/
theorem Event.ReadyFor.fit {fs : List (Filterer ρ)} {e : Event κ} (h : e.ReadyFor A fs)
    (hcopies : Chain.copiesFirst e.deepcopied fs = !e.deepcopied) : e.Fit A := by
  rcases h with h | ⟨h, hfirst⟩
  · exact Or.inl h
  · rw [hcopies, Bool.not_eq_true'] at hfirst
    exact Or.inr ⟨hfirst, h⟩

/-- A filter that must not come before the copy. -/
theorem Event.ReadyFor.own {fs : List (Filterer ρ)} {e : Event κ} (h : e.ReadyFor A fs)
    (hfirst : Chain.copiesFirst e.deepcopied fs = false) : e.In A.own := by
  rcases h with h | ⟨-, h⟩
  · exact h
  · rw [hfirst] at h
    cases h

/-- A filter writes where the event has data of its own, and leaves events that can go through
the rest of the chain. -/
theorem Filterer.scoped_filter (hlib : lib.Scoped) {f : Filterer ρ} {fs : List (Filterer ρ)}
    (hf : f.In A.read) (he : evt.ReadyFor A (f :: fs)) :
    EventScoped A (fun evts => ∀ e ∈ evts, e.ReadyFor A fs)
      (f.filter lib evt : EventProg ε _) := by
  have hown : ∀ {p : EventProg ε (List (Event κ))}, EventScoped A (EventsIn A.own) p →
      EventScoped A (fun evts => ∀ e ∈ evts, e.ReadyFor A fs) p :=
    fun hp => hp.mono fun evts h => h.readyFor fs
  cases f with
  | transform c =>
      by_cases hnil : c.transformation = .nil
      · -- the event passes as it is, and so does what is asked of the rest of the chain
        show EventScoped A _ (Transform.filter lib c evt)
        rw [Transform.filter_of_nil hnil]
        refine EventScoped.pure fun e hmem => ?_
        rw [List.mem_singleton.mp hmem]
        unfold Event.ReadyFor Chain.copiesFirst at he
        rwa [if_pos hnil] at he
      · refine hown (Transform.scoped_filter hlib hf hnil (he.fit ?_))
        unfold Chain.copiesFirst
        rw [if_neg hnil]
  | mapping c => exact hown (Mapping.scoped_filter hlib hf (he.fit rfl))
  | merge c => exact hown (Merge.scoped_filter hlib (he.own rfl))
  | unwrap c =>
      rcases he with he | ⟨he, hfirst⟩
      · exact hown ((Unwrap.scoped_filter hlib he).mono fun evts h e hmem => (h e hmem).1)
      · refine (Unwrap.scoped_filter hlib he).mono fun evts h e hmem => Or.inr ?_
        obtain ⟨hread, hcopied⟩ := h e hmem
        rw [hcopied]
        exact ⟨hread, hfirst⟩
  | encode c => exact hown (Encode.scoped_filter hlib (he.fit rfl))
  | decode c => exact hown (Decode.scoped_filter hlib (he.fit rfl))
  | hash c => exact hown (Hash.scoped_filter hlib (he.fit rfl))
  | modify c => exact hown (Modify.scoped_filter (he.own rfl))
  | regex c => exact hown (Regex.scoped_filter hlib (he.fit rfl))
  | trace c => exact hown (scoped_store hlib (he.fit rfl) _ trivial)
  | split path =>
      rcases he with he | ⟨he, hfirst⟩
      · exact hown ((Split.scoped_filter hlib he path).mono fun evts h e hmem => (h e hmem).1)
      · refine (Split.scoped_filter hlib he path).mono fun evts h e hmem => Or.inr ?_
        obtain ⟨hread, hcopied⟩ := h e hmem
        rw [hcopied]
        exact ⟨hread, hfirst⟩
  | js code => exact hown (Js.scoped_filter hlib hf he.in_read)

namespace Chain

/-- The events in the queue can go through the filters left for them. -/
def QueueReady (A : Scope) (queue : List (Event κ × List (Filterer ρ))) : Prop :=
  ∀ w ∈ queue, w.1.ReadyFor A w.2 ∧ ∀ f ∈ w.2, f.In A.read

/-- The loop over the queue: its invariant is that the events in it can go through the filters
left for them. -/
theorem scoped_filterQueue (hlib : lib.Scoped) (alive : ℕ) :
    ∀ (queue : List (Event κ × List (Filterer ρ))) events, QueueReady A queue →
      EventsIn A.read events →
      EventScoped A (EventsIn A.read) (filterQueue lib alive queue events : EventProg ε _) := by
  induction alive with
  | zero =>
      intro queue events _ hev
      unfold filterQueue
      cases queue with
      | nil => exact EventScoped.pure hev
      | cons w queue => exact EventScoped.pure eventsIn_nil
  | succ alive ih =>
      intro queue events hqueue hev
      cases queue with
      | nil => exact EventScoped.pure hev
      | cons w queue =>
          obtain ⟨e, fs⟩ := w
          obtain ⟨he, hfs⟩ := hqueue _ List.mem_cons_self
          have hrest : QueueReady A queue := fun w hw => hqueue w (List.mem_cons_of_mem _ hw)
          cases fs with
          | nil => exact ih queue _ hrest (hev.append (eventsIn_singleton he.in_read))
          | cons f fs =>
              have hf : f.In A.read := hfs f List.mem_cons_self
              unfold filterQueue
              refine EventScoped.bind (Filterer.scoped_filter hlib hf he) fun evts hevts => ?_
              split
              · exact ih queue _ hrest (hev.append fun e hmem => (hevts e hmem).in_read)
              · -- the events go to the end of the queue, with the filters that are left
                refine ih _ events (fun w hw => ?_) hev
                rcases List.mem_append.mp hw with hw | hw
                · exact hrest w hw
                · obtain ⟨e', he', rfl⟩ := List.mem_map.mp hw
                  exact ⟨hevts e' he', fun g hg => hfs g (List.mem_cons_of_mem _ hg)⟩

/-- **A chain that copies before it writes** writes only into what the route owns, and so does
every chain on an event with data of its own. -/
theorem scoped_filter (hlib : lib.Scoped) (alive : ℕ) {filterers : List (Filterer ρ)}
    (hf : ∀ f ∈ filterers, f.In A.read) (he : evt.ReadyFor A filterers) :
    EventScoped A (EventsIn A.read) (filter lib alive filterers evt : EventProg ε _) := by
  unfold filter
  split
  · exact EventScoped.pure (eventsIn_singleton he.in_read)
  · refine scoped_filterQueue hlib alive _ _ (fun w hw => ?_) eventsIn_nil
    rw [List.mem_singleton.mp hw]
    exact ⟨he, hf⟩

end Chain
