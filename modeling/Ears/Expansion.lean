/-
# What expressions read

The rounds of `Evaluate` and of the loops like it read a path, copy the value and insert it as a
text.  For an event whose data are JSON values, every path leads to a JSON value
(`lookup_shows`), a heap that keeps the data of the event answers alike (`lookup_of_kept`), and
with a library that copies and writes JSON values a round inserts the text of the value
(`run_copy`, `run_insertedText`).
-/
import Ears.JsonTrees
import Ears.BracketPaths
import Ears.Expressions

open GoLib

namespace GoLib.Heap

variable {h h' : Heap} {v w : Value} {j : Json} {a : Ref}

/-- The value is a JSON value; a map that was never made is written as `null`. -/
def Shows (h : Heap) (v : Value) (j : Json) : Prop := h.Represents v j ∨ v = .nilMap ∧ j = .null

/-- A value that is kept is the same JSON value. -/
theorem Keeps.shows (hkeeps : h.Keeps v h') (hv : h.Shows v j) : h'.Shows v j :=
  hv.imp_left hkeeps.represents

/-- What is below a JSON value is a JSON value, and no deeper. -/
theorem Shows.of_locate (hv : h.Shows v j) {p : List Step} (hp : h.locate v p = some w) :
    ∃ k, h.Shows w k ∧ k.depth ≤ j.depth := by
  rcases hv with hv | ⟨rfl, rfl⟩
  · obtain ⟨k, hk, hle⟩ := hv.of_locate hp
    exact ⟨k, Or.inl hk, hle⟩
  · obtain ⟨-, rfl⟩ := locate_of_not_container rfl hp
    exact ⟨.null, Or.inr ⟨rfl, rfl⟩, le_rfl⟩

end GoLib.Heap

namespace Event

variable {κ : Type} {lib : Libs κ} {order : Finset String → List String} {e : Event κ}
  {h h' : Heap} {v w : Value} {j : Json} {a : Ref} {seg : List Char} {path : String} {d : ℕ}

/-! ## Reading in a heap that keeps the data -/

theorem findIdx?_congr {vs : List Value} {f g : Value → Bool} (hfg : ∀ v ∈ vs, f v = g v) :
    vs.findIdx? f = vs.findIdx? g := by
  induction vs with
  | nil => rfl
  | cons v vs ih =>
      obtain ⟨hv, hvs⟩ := List.forall_mem_cons.mp hfg
      rw [List.findIdx?_cons, List.findIdx?_cons, hv, ih hvs]

/-- A selector picks the same element of an array that is kept. -/
theorem pick_of_keeps (hkeeps : h.Keeps (.slice a) h') (text : List Char) :
    pick h' a text = pick h a text := by
  have hslice : h'.slices a = h.slices a := (hkeeps a (Heap.reaches_self rfl)).slices
  have hselects : ∀ k u, ∀ w ∈ h.slices a, selects h' k u w = selects h k u w := by
    intro k u w hw
    obtain ⟨i, hi⟩ := List.mem_iff_getElem?.mp hw
    have hsame : h.Keeps w h' := hkeeps.of_step (s := .index i) hi
    cases w with
    | map m =>
        have hm : h'.maps m = h.maps m := (hsame m (Heap.reaches_self rfl)).maps
        dsimp only [selects, Heap.getKey]
        rw [hm]
    | _ => rfl
  unfold pick
  rw [hslice]
  split
  · split
    · rw [findIdx?_congr (hselects _ _)]
    · rfl
  · rfl

/-- The element that is picked is the same value. -/
theorem value_pick_of_keeps (hkeeps : h.Keeps (.slice a) h') (text : List Char) :
    (pick h' a text).value h' a = (pick h a text).value h a := by
  have hslice : h'.slices a = h.slices a := (hkeeps a (Heap.reaches_self rfl)).slices
  rw [pick_of_keeps hkeeps]
  cases pick h a text with
  | elem i => rw [Pick.value, Pick.value, hslice]
  | _ => rfl

/-- A key of an object that is kept has the same value. -/
theorem getKey_of_keeps {r : Ref} (hkeeps : h.Keeps (.map r) h') (k : String) :
    h'.getKey r k = h.getKey r k := by
  have hmaps : h'.maps r = h.maps r := (hkeeps r (Heap.reaches_self rfl)).maps
  rw [Heap.getKey, hmaps, Heap.getKey]

/-- A segment leads to the same value. -/
theorem child_of_keeps (hkeeps : h.Keeps v h') (seg : List Char) : child h' seg v = child h seg v := by
  unfold child
  split
  · cases v with
    | map r =>
        dsimp only [childElement]
        rw [getKey_of_keeps hkeeps]
        split
        · cases hk : h.getKey r (String.ofList (nameOf seg)) with
          | none => rfl
          | some u =>
              cases u with
              | slice a => exact value_pick_of_keeps (hkeeps.of_step (s := .key _) hk) _
              | _ => rfl
        · rfl
    | slice a => exact value_pick_of_keeps hkeeps _
    | _ => rfl
  · cases v with
    | map r =>
        dsimp only
        rw [getKey_of_keeps hkeeps]
    | _ => rfl

/-- What the walker finds is nothing, or below the value. -/
theorem located_of_child (hw : child h seg v = some w) :
    w = .nil ∨ ∃ p, h.locate v p = some w := by
  by_cases hnil : w = .nil
  · exact Or.inl hnil
  · obtain ⟨p, -, hp⟩ := steps_of_child hw hnil
    exact Or.inr ⟨p, hp⟩

/-- So do all segments of a path. -/
theorem follow_of_keeps {segments : List (List Char)} (hkeeps : h.Keeps v h') :
    follow h' segments v = follow h segments v := by
  induction segments generalizing v with
  | nil => rfl
  | cons s rest ih =>
      rw [follow, follow]
      split_ifs
      · rfl
      · exact ih hkeeps
      · rw [child_of_keeps hkeeps]
        cases hw : child h (trimSpace s) v with
        | none => rfl
        | some w =>
            rw [Option.bind_some, Option.bind_some]
            rcases located_of_child hw with rfl | ⟨p, hp⟩
            · rw [follow_nil, follow_nil]
            · exact ih (hkeeps.of_locate hp)

theorem walk_of_keeps (hkeeps : h.Keeps v h') (keys : List String) :
    h'.walk v keys = h.walk v keys := by
  rw [← Heap.locate_keys, ← Heap.locate_keys, hkeeps.locate]

/-- A path leads to the same value in a heap that keeps where it starts. -/
theorem lookupFrom_of_keeps (hkeeps : h.Keeps v h') (path : String) :
    lookupFrom h' path v = lookupFrom h path v := by
  unfold lookupFrom
  simp only [follow_of_keeps hkeeps, walk_of_keeps hkeeps]

/-- The payload and the metadata of the event are kept. -/
structure Kept (h : Heap) (e : Event κ) (h' : Heap) : Prop where
  payload : h.Keeps e.payload h'
  metadata : h.Keeps e.metadataValue h'

/-- **Every path of an event leads to the same value while its data are kept.** -/
theorem lookup_of_kept (hkept : Kept h e h') (lib : Libs κ) (path : String) :
    e.lookup lib h' path = e.lookup lib h path := by
  unfold lookup
  rw [lookupFrom_of_keeps (v := if hasPrefix path (METADATA ++ ".") || path == METADATA then
    e.metadataValue else e.payload)]
  split
  · exact hkept.metadata
  · exact hkept.payload

/-! ## What the paths lead to -/

/-- The data of the event are JSON values up to a depth. -/
structure JsonData (h : Heap) (e : Event κ) (d : ℕ) : Prop where
  payload : ∃ j, h.Shows e.payload j ∧ j.depth ≤ d
  metadata : ∃ j, h.Shows e.metadataValue j ∧ j.depth ≤ d
  allocatedPayload : h.AllocatedBelow e.payload
  allocatedMetadata : h.AllocatedBelow e.metadataValue

theorem Kept.refl (h : Heap) (e : Event κ) : Kept h e h := ⟨.refl h _, .refl h _⟩

theorem Kept.trans {h'' : Heap} (hkept : Kept h e h') (hkept' : Kept h' e h'') : Kept h e h'' :=
  ⟨hkept.payload.trans hkept'.payload, hkept.metadata.trans hkept'.metadata⟩

/-- Data that are kept are JSON values of the same depth. -/
theorem JsonData.kept (hdata : JsonData h e d) (hkept : Kept h e h') (hnext : h.next ≤ h'.next) :
    JsonData h' e d := by
  obtain ⟨j, hj, hjd⟩ := hdata.payload
  obtain ⟨k, hk, hkd⟩ := hdata.metadata
  exact ⟨⟨j, hkept.payload.shows hj, hjd⟩, ⟨k, hkept.metadata.shows hk, hkd⟩,
    hkept.payload.allocatedBelow hdata.allocatedPayload hnext,
    hkept.metadata.allocatedBelow hdata.allocatedMetadata hnext⟩

/-- The address is in the data of the event. -/
def Holds (h : Heap) (e : Event κ) (x : Ref) : Prop :=
  h.Reaches e.payload x ∨ h.Reaches e.metadataValue x

/-- Data are kept where writes do not reach them. -/
theorem JsonData.kept_of_changes {A : Ref → Prop} (hdata : JsonData h e d)
    (hch : Heap.Changes A h h') (hA : ∀ x, Holds h e x → ¬ A x) : Kept h e h' :=
  ⟨hch.keeps hdata.allocatedPayload fun x hx => hA x (Or.inl hx),
    hch.keeps hdata.allocatedMetadata fun x hx => hA x (Or.inr hx)⟩

/-- Data that are kept are at the same addresses. -/
theorem Kept.holds (hkept : Kept h e h') {x : Ref} : Holds h' e x ↔ Holds h e x := by
  unfold Holds
  rw [hkept.payload.reaches, hkept.metadata.reaches]

/-- What is found is no object and no array, or below the value that the search starts from. -/
theorem located_of_lookupFrom (hw : lookupFrom h path v = some w) :
    w.isContainer = false ∧ (∃ j, h.Shows w j ∧ j.depth = 0) ∨ ∃ p, h.locate v p = some w := by
  have hnil : (Value.nil).isContainer = false ∧ ∃ j, h.Shows .nil j ∧ j.depth = 0 :=
    ⟨rfl, .null, Or.inl rfl, rfl⟩
  have hnone : ∀ u, some Value.nil = some u →
      u.isContainer = false ∧ (∃ j, h.Shows u j ∧ j.depth = 0) ∨ ∃ p, h.locate v p = some u := by
    rintro u hu
    rw [← Option.some.inj hu]
    exact Or.inl hnil
  unfold lookupFrom at hw
  split at hw
  · exact hnone w hw
  split at hw
  · exact Or.inr ⟨[], by rw [Heap.locate_nil, hw]⟩
  dsimp only at hw
  generalize (if hasPrefix path "." then PAYLOAD ++ path else path) = full at hw
  split at hw
  · exact hnone w hw
  split at hw
  · by_cases hwnil : w = .nil
    · exact hnone w (by rw [hwnil])
    · obtain ⟨σ, -, hσ⟩ := named_of_follow hw hwnil
      exact Or.inr ⟨σ, hσ⟩
  · cases hwalk : h.walk v (splitPath full).tail with
    | none =>
        rw [hwalk] at hw
        exact hnone w hw
    | some u =>
        rw [hwalk, Option.getD_some] at hw
        exact Or.inr ⟨_, by rw [Heap.locate_keys, hwalk, hw]⟩

/-- **Every path of an event with JSON values leads to a JSON value**, or panics. -/
theorem lookup_shows (hdata : JsonData h e d) (hv : e.lookup lib h path = some v) :
    (∃ j, h.Shows v j ∧ j.depth ≤ d) ∧ h.AllocatedBelow v ∧ ∀ x, h.Reaches v x → Holds h e x := by
  have htext : ∀ s u, some (Value.str s) = some u →
      (∃ j, h.Shows u j ∧ j.depth ≤ d) ∧ h.AllocatedBelow u ∧
        ∀ x, h.Reaches u x → Holds h e x := by
    rintro s u hu
    rw [← Option.some.inj hu]
    exact ⟨⟨.str s, Or.inl rfl, Nat.zero_le d⟩, (Heap.fresh_of_not_container rfl 0).allocated,
      fun x hx => absurd hx (Heap.not_reaches rfl)⟩
  have hfrom : ∀ u, (∃ j, h.Shows u j ∧ j.depth ≤ d) → h.AllocatedBelow u →
      (∀ x, h.Reaches u x → Holds h e x) → lookupFrom h path u = some v →
      (∃ j, h.Shows v j ∧ j.depth ≤ d) ∧ h.AllocatedBelow v ∧
        ∀ x, h.Reaches v x → Holds h e x := by
    rintro u ⟨j, hj, hjd⟩ halloc hreach hlookup
    rcases located_of_lookupFrom hlookup with ⟨hcont, k, hk, hk0⟩ | ⟨p, hp⟩
    · exact ⟨⟨k, hk, by omega⟩, (Heap.fresh_of_not_container hcont 0).allocated,
        fun x hx => absurd hx (Heap.not_reaches hcont)⟩
    · obtain ⟨k, hk, hkd⟩ := hj.of_locate hp
      exact ⟨⟨k, hk, hkd.trans hjd⟩, halloc.of_locate hp, fun x hx => hreach x (hx.of_locate hp)⟩
  unfold lookup at hv
  split at hv
  · exact htext _ v hv
  split at hv
  · exact htext _ v hv
  split at hv
  · exact htext _ v hv
  split at hv
  · exact htext _ v hv
  split at hv
  · exact hfrom _ hdata.metadata hdata.allocatedMetadata (fun x hx => Or.inr hx) hv
  · exact hfrom _ hdata.payload hdata.allocatedPayload (fun x hx => Or.inl hx) hv

end Event

/-! ## A library that copies and writes JSON values -/

/-- The text of a value inside another text: strings as they are, anything else as JSON. -/
def Json.inserted : Json → List Char
  | .str s => s.toList
  | j => j.marshal

/-- The library copies JSON values up to a depth into new objects and arrays, and writes them as
`json.Marshal` does. -/
structure Libs.CopiesJson {κ : Type} (lib : Libs κ) (order : Finset String → List String)
    (d : ℕ) : Prop where
  deepCopy : ∀ h v j, h.Represents v j → j.depth ≤ d → h.AllocatedBelow v →
    ∃ v' h', (lib.deepCopy v).run (Heap.handle order) h = (some v', h') ∧ h.Grows h' ∧
      h'.Represents v' j ∧ h'.Fresh h.next v'
  deepCopy_nilMap : ∀ h, (lib.deepCopy .nilMap).run (Heap.handle order) h = (some .nilMap, h)
  marshal : ∀ h v j, h.Represents v j → j.depth ≤ d →
    (lib.marshal v).run (Heap.handle order) h = (some (.ok (String.ofList j.marshal)), h)
  marshal_nilMap : ∀ h,
    (lib.marshal .nilMap).run (Heap.handle order) h = (some (.ok "null"), h)

namespace Event

variable {κ : Type} {lib : Libs κ} {order : Finset String → List String} {e : Event κ}
  {h h' : Heap} {v w : Value} {j : Json} {path : String} {d : ℕ}

/-- A copy is the same JSON value in new objects and arrays. -/
theorem run_copy (hlib : lib.CopiesJson order d) (hv : h.Shows v j) (hd : j.depth ≤ d)
    (halloc : h.AllocatedBelow v) :
    ∃ v' h', (lib.deepCopy v).run (Heap.handle order) h = (some v', h') ∧ h.Grows h' ∧
      h'.Shows v' j ∧ h'.Fresh h.next v' := by
  rcases hv with hv | ⟨rfl, rfl⟩
  · obtain ⟨v', h', hrun, hgrows, hrep, hfresh⟩ := hlib.deepCopy h v j hv hd halloc
    exact ⟨v', h', hrun, hgrows, Or.inl hrep, hfresh⟩
  · exact ⟨.nilMap, h, hlib.deepCopy_nilMap h, .refl _ h, Or.inr ⟨rfl, rfl⟩,
      Heap.fresh_of_not_container rfl _⟩

/-- What is no string is written as JSON. -/
theorem insertedText_of_ne (hv : ∀ s, v ≠ .str s) : insertedText lib v = lib.marshal v >>= fun
    | .ok text => pure text.toList
    | .error _ => pure [] := by
  cases v with
  | str s => exact absurd rfl (hv s)
  | _ => rfl

/-- The text that is inserted is that of the JSON value. -/
theorem run_insertedText (hlib : lib.CopiesJson order d) (hv : h.Shows v j) (hd : j.depth ≤ d) :
    (insertedText lib v).run (Heap.handle order) h = (some j.inserted, h) := by
  by_cases hstr : ∃ s, v = .str s
  · obtain ⟨s, rfl⟩ := hstr
    have hj : j = .str s := by
      rcases hv with hv | ⟨hne, -⟩
      · exact (hv.eq_scalar_iff (u := .str s) rfl).mp rfl
      · exact nomatch hne
    rw [hj]
    rfl
  · have htext : j.inserted = j.marshal := by
      cases j with
      | str s =>
          rcases hv with hv | ⟨-, hne⟩
          · exact absurd ⟨s, hv⟩ hstr
          · exact nomatch hne
      | _ => rfl
    have hrun : (lib.marshal v).run (Heap.handle order) h =
        (some (.ok (String.ofList j.marshal)), h) := by
      rcases hv with hv | ⟨rfl, rfl⟩
      · exact hlib.marshal h v j hv hd
      · exact hlib.marshal_nilMap h
    rw [insertedText_of_ne fun s hs => hstr ⟨s, hs⟩, Prog.run_bind_of_some _ _ hrun, htext]
    simp

/-- `getPathValue` finds what the path leads to and writes nothing. -/
theorem run_getPathValue_of_some (order : Finset String → List String)
    (hv : e.lookup lib h path = some v) :
    ∃ pr ky, (e.getPathValue lib path).run (Heap.handle order) h = (some (v, pr, ky), h) := by
  obtain ⟨res, hrun, hres⟩ := reads_getPathValue lib order h e path
  rw [hv] at hres
  obtain ⟨⟨v', pr, ky⟩, rfl, rfl⟩ := Option.map_eq_some_iff.mp hres
  exact ⟨pr, ky, hrun⟩

/-- `getPathValue` panics where the path does. -/
theorem run_getPathValue_of_none (order : Finset String → List String)
    (hv : e.lookup lib h path = none) :
    (e.getPathValue lib path).run (Heap.handle order) h = (none, h) := by
  obtain ⟨res, hrun, hres⟩ := reads_getPathValue lib order h e path
  rw [hv, Option.map_eq_none_iff] at hres
  rw [hrun, hres]

/-! ## Loops over braces -/

/-- A loop that replaces the first braces of a text: what it does without braces, with the value
of a text that is nothing but braces, and with the text that is left. -/
structure BraceLoop (α : Type) where
  plain : List Char → HeapProg α
  whole : Found → HeapProg α
  keep : List Char → HeapProg Unit

/-- One round of the loop. -/
def BraceLoop.round {α : Type} (L : BraceLoop α) (lib : Libs κ) (e : Event κ) (expr : List Char) :
    HeapProg (α ⊕ List Char) :=
  match findBraces expr with
  | .none => do
      let a ← L.plain expr
      pure (.inl a)
  | .panic => Prog.panic
  | .found before path after => do
      let (v, pr, ky) ← getPathValue lib e (String.ofList path)
      let v ← lib.deepCopy v
      if before = [] ∧ after = [] then
        let a ← L.whole (v, pr, ky)
        pure (.inl a)
      else
        let text ← insertedText lib v
        L.keep (before ++ text ++ after)
        pure (.inr (before ++ text ++ after))

section Round

variable {α : Type} {L : BraceLoop α} {expr before between after : List Char}

/-- A text without braces ends the loop. -/
theorem run_round_plain {a : α} (hbraces : findBraces expr = .none)
    (hplain : (L.plain expr).run (Heap.handle order) h = (some a, h')) :
    (L.round lib e expr).run (Heap.handle order) h = (some (.inl a), h') := by
  unfold BraceLoop.round
  rw [hbraces]
  dsimp only
  rw [Prog.run_bind_of_some _ _ hplain, Prog.run_pure]

/-- Braces in the wrong order panic. -/
theorem run_round_panic (hbraces : findBraces expr = .panic) :
    (L.round lib e expr).run (Heap.handle order) h = (none, h) := by
  unfold BraceLoop.round
  rw [hbraces]
  rfl

/-- A path that panics is the end of the round. -/
theorem run_round_lost (hbraces : findBraces expr = .found before between after)
    (hv : e.lookup lib h (String.ofList between) = none) :
    (L.round lib e expr).run (Heap.handle order) h = (none, h) := by
  have hget : (e.getPathValue lib (String.ofList between)).run (Heap.handle order) h = (none, h) :=
    run_getPathValue_of_none order hv
  unfold BraceLoop.round
  rw [hbraces]
  dsimp only
  rw [Prog.run_bind_of_none _ _ hget]

/-- A text that is nothing but braces ends the loop with a copy of the value. -/
theorem run_round_whole (hlib : lib.CopiesJson order d)
    (hbraces : findBraces expr = .found [] between [])
    (hv : e.lookup lib h (String.ofList between) = some v) (hj : h.Shows v j) (hd : j.depth ≤ d)
    (halloc : h.AllocatedBelow v) :
    ∃ v' pr ky h₁, h.Grows h₁ ∧ h₁.Shows v' j ∧ h₁.Fresh h.next v' ∧
      ∀ a h', (L.whole (v', pr, ky)).run (Heap.handle order) h₁ = (some a, h') →
        (L.round lib e expr).run (Heap.handle order) h = (some (.inl a), h') := by
  obtain ⟨pr, ky, hget⟩ := run_getPathValue_of_some order hv
  obtain ⟨v', h₁, hcopy, hgrows, hshows, hfresh⟩ := run_copy hlib hj hd halloc
  refine ⟨v', pr, ky, h₁, hgrows, hshows, hfresh, fun a h' hwhole => ?_⟩
  unfold BraceLoop.round
  rw [hbraces]
  dsimp only
  rw [Prog.run_bind_of_some _ _ hget, Prog.run_bind_of_some _ _ hcopy, if_pos ⟨rfl, rfl⟩,
    Prog.run_bind_of_some _ _ hwhole, Prog.run_pure]

/-- In any other text the value is inserted. -/
theorem run_round_next (hlib : lib.CopiesJson order d)
    (hbraces : findBraces expr = .found before between after) (hne : ¬ (before = [] ∧ after = []))
    (hv : e.lookup lib h (String.ofList between) = some v) (hj : h.Shows v j) (hd : j.depth ≤ d)
    (halloc : h.AllocatedBelow v) :
    ∃ h₁, h.Grows h₁ ∧
      ∀ h', (L.keep (before ++ j.inserted ++ after)).run (Heap.handle order) h₁ = (some (), h') →
        (L.round lib e expr).run (Heap.handle order) h =
          (some (.inr (before ++ j.inserted ++ after)), h') := by
  obtain ⟨pr, ky, hget⟩ := run_getPathValue_of_some order hv
  obtain ⟨v', h₁, hcopy, hgrows, hshows, -⟩ := run_copy hlib hj hd halloc
  refine ⟨h₁, hgrows, fun h' hkeep => ?_⟩
  unfold BraceLoop.round
  rw [hbraces]
  dsimp only
  rw [Prog.run_bind_of_some _ _ hget, Prog.run_bind_of_some _ _ hcopy, if_neg hne,
    Prog.run_bind_of_some _ _ (run_insertedText hlib hshows hd), Prog.run_bind_of_some _ _ hkeep,
    Prog.run_pure]

end Round

end Event
