/-
# Decoding what was encoded

`encode` writes the base64 text of a value in its place, `decode` reads the text and writes the
value back.  Objects of the event may be shared: an event that was copied before is not copied again, and
what is below one path may be below others.  Both filters write the same entry of the same object,
so in the end every place holds a value equal to the one it held
(`GoLib.Heap.represents_of_putBack`, `encode_decode`).
-/
import Ears.MergeValues
import Ears.Expansion

open GoLib

/-! ## An entry that is put back -/

namespace GoLib.Heap

variable {h h' : Heap} {v w w' : Value} {j k : Json} {r m : Ref} {key : String}
  {init : List String}

/-- A value that represents one of two JSON values of a Go value represents both. -/
theorem Represents.congr (hj : h.Represents w j) (hk : h.Represents w k)
    (hw' : h'.Represents w' j) : h'.Represents w' k := by
  induction k using Json.tree_induction generalizing w w' j with
  | null =>
      obtain rfl : w = .nil := hk
      obtain rfl := (hj.eq_scalar_iff (u := .nil) rfl).mp rfl
      exact hw'
  | bool b =>
      obtain rfl : w = .bool b := hk
      obtain rfl := (hj.eq_scalar_iff (u := .bool b) rfl).mp rfl
      exact hw'
  | num text =>
      obtain rfl : w = .num text := hk
      obtain rfl := (hj.eq_scalar_iff (u := .num text) rfl).mp rfl
      exact hw'
  | str s =>
      obtain rfl : w = .str s := hk
      obtain rfl := (hj.eq_scalar_iff (u := .str s) rfl).mp rfl
      exact hw'
  | arr elems ih =>
      obtain ⟨r, rfl, hkElems⟩ := represents_arr.mp hk
      obtain ⟨js, rfl, hjElems⟩ := represents_slice.mp hj
      obtain ⟨r', rfl, hElems'⟩ := represents_arr.mp hw'
      refine represents_arr.mpr ⟨r', rfl, List.forall₂_iff_get.mpr ⟨?_, fun i hi hi' => ?_⟩⟩
      · rw [hElems'.length_eq, ← hjElems.length_eq, hkElems.length_eq]
      · have hiJ : i < js.length := by
          rw [← hElems'.length_eq]
          exact hi
        have hiR : i < (h.slices r).length := by
          rw [hjElems.length_eq]
          exact hiJ
        exact ih _ (List.get_mem _ _) ((List.forall₂_iff_get.mp hjElems).2 i hiR hiJ)
          ((List.forall₂_iff_get.mp hkElems).2 i hiR hi')
          ((List.forall₂_iff_get.mp hElems').2 i hi hiJ)
  | obj fields ih =>
      obtain ⟨r, rfl, hnodup, honly, hfields⟩ := represents_obj.mp hk
      obtain ⟨fj, rfl⟩ := hj.exists_fields
      obtain ⟨_, heq, -, honlyJ, hfieldsJ⟩ := represents_obj.mp hj
      obtain rfl := Value.map.inj heq
      obtain ⟨r', rfl, -, honly', hfields'⟩ := represents_obj.mp hw'
      refine represents_obj.mpr ⟨r', rfl, hnodup, fun key hkey => ?_, fun f hf => ?_⟩
      · obtain ⟨g, hg, rfl⟩ := List.mem_map.mp (honly' key hkey)
        obtain ⟨u, hu, -⟩ := hfieldsJ g hg
        refine honly g.1 ?_
        rw [hu]
        exact nofun
      · obtain ⟨u, hu, hrep⟩ := hfields f hf
        have hkey : h.getKey r f.1 ≠ none := by
          rw [hu]
          exact nofun
        obtain ⟨g, hg, hgf⟩ := List.mem_map.mp (honlyJ f.1 hkey)
        obtain ⟨u₁, hu₁, hrep₁⟩ := hfieldsJ g hg
        obtain ⟨u', hu', hrep'⟩ := hfields' g hg
        rw [hgf, hu] at hu₁
        obtain rfl := Option.some.inj hu₁
        exact ⟨u', hgf ▸ hu', ih f hf hrep₁ hrep hrep'⟩

/-- A value that shows one of two JSON values of a Go value shows both. -/
theorem Shows.congr (hj : h.Shows w j) (hk : h.Shows w k) (hw' : h'.Shows w' j) :
    h'.Shows w' k := by
  rcases hj with hj | ⟨rfl, rfl⟩
  · rcases hk with hk | ⟨rfl, -⟩
    · rcases hw' with hw' | ⟨rfl, rfl⟩
      · exact Or.inl (hj.congr hk hw')
      · obtain rfl : w = .nil := hj
        obtain rfl := (hk.eq_scalar_iff (u := .nil) rfl).mp rfl
        exact Or.inr ⟨rfl, rfl⟩
    · exact absurd hj not_represents_nilMap
  · rcases hk with hk | ⟨-, rfl⟩
    · exact absurd hk not_represents_nilMap
    · exact hw'

/-- A JSON value does not contain itself. -/
theorem Represents.acyclic (hv : h.Represents v j) : h.Acyclic v := by
  intro p q u hu hp hq
  obtain ⟨k, hk, -⟩ := hv.of_locate hp
  cases q with
  | nil => rfl
  | cons s q =>
      -- below itself the value would be of smaller depth again and again
      have hnone : ∀ n k, k.depth = n → ¬ h.Represents u k := by
        intro n
        induction n using Nat.strong_induction_on with
        | h n ih =>
            intro k hdepth hk
            cases hs : h.step u s with
            | none =>
                rw [locate_cons_of_none hs] at hq
                exact nomatch hq
            | some u₁ =>
                rw [locate_cons_of_some hs] at hq
                obtain ⟨k₁, hk₁, hlt⟩ := hk.of_step hs
                obtain ⟨k₂, hk₂, hle⟩ := hk₁.of_locate hq
                exact ih k₂.depth (by omega) k₂ rfl hk₂
      exact absurd hk (hnone k.depth k rfl)

/-- With an entry replaced by an equal value all JSON values are as before. -/
theorem represents_of_putBack (hold : h.getKey m key = some w) (hch : Changes (· = m) h h')
    (hslices : h'.slices m = h.slices m)
    (hother : ∀ k ≠ key, h'.getKey m k = h.getKey m k) (hnew : h'.getKey m key = some w')
    (hequal : ∀ j, h.Represents w j → h'.Represents w' j) (halloc : h.AllocatedBelow v)
    (hv : h.Represents v j) : h'.Represents v j := by
  induction j using Json.tree_induction generalizing v with
  | arr elems ih =>
      obtain ⟨a, rfl, helems⟩ := represents_arr.mp hv
      have ha : h'.slices a = h.slices a := by
        by_cases ham : a = m
        · rw [ham, hslices]
        · exact (hch.same a (halloc [] _ rfl rfl) ham).slices
      refine represents_arr.mpr ⟨a, rfl, ?_⟩
      rw [ha]
      refine List.forall₂_iff_get.mpr ⟨helems.length_eq, fun i hi hi' => ?_⟩
      refine ih _ (List.get_mem _ _) ?_ ((List.forall₂_iff_get.mp helems).2 i hi hi')
      exact halloc.of_step (s := .index i) (by rw [step_index]; exact List.getElem?_eq_getElem hi)
  | obj fields ih =>
      obtain ⟨r, rfl, hnodup, honly, hfields⟩ := represents_obj.mp hv
      -- the entries are as before but for the one that was put back
      have hget : ∀ k, h'.getKey r k = h.getKey r k ∨
          r = m ∧ k = key ∧ h.getKey r k = some w ∧ h'.getKey r k = some w' := by
        intro k
        by_cases hr : r = m
        · by_cases hk : k = key
          · rw [hr, hk]
            exact Or.inr ⟨rfl, rfl, hold, hnew⟩
          · rw [hr]
            exact Or.inl (hother k hk)
        · refine Or.inl ?_
          rw [getKey, (hch.same r (halloc [] _ rfl rfl) hr).maps, getKey]
      refine represents_obj.mpr ⟨r, rfl, hnodup, fun k hk => ?_, fun f hf => ?_⟩
      · rcases hget k with hsame | ⟨-, -, hwas, -⟩
        · exact honly k (hsame ▸ hk)
        · refine honly k ?_
          rw [hwas]
          exact Option.some_ne_none _
      · obtain ⟨u, hu, hrep⟩ := hfields f hf
        rcases hget f.1 with hsame | ⟨-, -, hwas, his⟩
        · exact ⟨u, hsame.trans hu, ih f hf (halloc.of_step ((step_key h r f.1).trans hu)) hrep⟩
        · obtain rfl := Option.some.inj (hwas.symm.trans hu)
          exact ⟨w', his, hequal f.2 hrep⟩
  | _ => exact hv

/-! ## Paths of keys -/

/-- The value at a path of keys. -/
theorem represents_walk (hv : h.Represents v j) (keys : List String) :
    h.Represents ((h.walk v keys).getD .nil) (j.atPath keys) := by
  induction keys generalizing v j with
  | nil =>
      rw [walk_nil]
      exact hv
  | cons key keys ih =>
      rw [Json.atPath_cons]
      by_cases hobj : ∃ fields, j = .obj fields
      · obtain ⟨fields, rfl⟩ := hobj
        obtain ⟨r, rfl, -⟩ := represents_obj.mp hv
        have hfield := represents_getKey hv key
        rw [Json.field_obj]
        cases hk : h.getKey r key with
        | none =>
            rw [hk] at hfield
            have hnull : Json.get fields key = .null :=
              (hfield.eq_scalar_iff (u := .nil) rfl).mp rfl
            rw [walk_cons_of_none hk, hnull, Json.atPath_null]
            rfl
        | some u =>
            rw [hk] at hfield
            rw [walk_cons_of_some hk]
            exact ih hfield
      · have hnull := Json.atPath_of_not_obj (fun fields h => hobj ⟨fields, h⟩) key keys
        rw [Json.atPath_cons] at hnull
        rw [hnull]
        cases v with
        | map r => exact absurd hv.exists_fields hobj
        | _ => rfl

/-- The object that holds the value at the end of a path. -/
theorem walk_append_key (hwalk : h.walk v (init ++ [key]) = some w) :
    ∃ m, h.walk v init = some (.map m) ∧ h.getKey m key = some w := by
  induction init generalizing v with
  | nil =>
      cases v with
      | map r =>
          refine ⟨r, walk_nil h _, ?_⟩
          rw [List.nil_append, walk_cons] at hwalk
          cases hk : h.getKey r key with
          | none =>
              rw [hk] at hwalk
              exact nomatch hwalk
          | some u =>
              rw [hk, Option.bind_some, walk_nil] at hwalk
              exact hwalk
      | _ => exact nomatch hwalk
  | cons k init ih =>
      cases v with
      | map r =>
          rw [List.cons_append, walk_cons] at hwalk
          cases hk : h.getKey r k with
          | none =>
              rw [hk] at hwalk
              exact nomatch hwalk
          | some u =>
              rw [hk, Option.bind_some] at hwalk
              rw [walk_cons_of_some hk]
              exact ih hwalk
      | _ => exact nomatch hwalk

/-- When all objects of the path are there, the write is one write into the last of them. -/
theorem write_of_walk (hwalk : h.walk (.map r) init = some (.map m)) (key : String) (val : Value) :
    Passable (init ++ [key]) h r ∧ write val (init ++ [key]) h r = h.setKey m key val := by
  induction init generalizing r with
  | nil =>
      rw [walk_nil] at hwalk
      obtain rfl := Value.map.inj (Option.some.inj hwalk)
      exact ⟨Or.inl rfl, if_pos rfl⟩
  | cons k init ih =>
      have hne : init ++ [key] ≠ [] := by simp
      cases hk : h.getKey r k with
      | none =>
          rw [walk_cons_of_none hk] at hwalk
          exact nomatch hwalk
      | some u =>
          rw [walk_cons_of_some hk] at hwalk
          obtain ⟨x, rfl⟩ : ∃ x, u = .map x := by
            cases init with
            | nil =>
                rw [walk_nil] at hwalk
                exact ⟨m, Option.some.inj hwalk⟩
            | cons k' init =>
                cases u with
                | map x => exact ⟨x, rfl⟩
                | _ => exact nomatch hwalk
          obtain ⟨hpass, hwrite⟩ := ih hwalk
          rw [List.cons_append, Passable, write, if_neg hne, enter_of_some hk]
          refine ⟨Or.inr ⟨fun u hu => ⟨x, (Option.some.inj (hk.symm.trans hu)).symm⟩, hpass⟩, hwrite⟩

theorem walk_snoc (hwalk : h.walk v init = some (.map m)) (key : String) :
    h.walk v (init ++ [key]) = h.getKey m key := by
  rw [← locate_keys] at hwalk
  rw [← locate_keys, List.map_append, locate_append_of_some hwalk]
  exact (locate_singleton h (.map m) (.key key)).trans (step_key h m key)

end GoLib.Heap

namespace Json

theorem depth_field_le (j : Json) (key : String) : (j.field key).depth ≤ j.depth := by
  cases j with
  | obj fields =>
      rw [field_obj, depth]
      exact (depth_get_le fields key).trans (Nat.le_succ _)
  | _ => exact Nat.zero_le _

theorem depth_atPath_le (j : Json) (keys : List String) : (j.atPath keys).depth ≤ j.depth := by
  induction keys generalizing j with
  | nil => exact le_rfl
  | cons key keys ih => exact (ih (j.field key)).trans (depth_field_le j key)

end Json

/-! ## Data paths -/

namespace Event

variable {κ ε : Type} {lib : Libs κ} {order : Finset String → List String} {t : AckTree ε}
  {h : Heap} {e : Event κ} {root : Root} {keys init : List String} {key path : String}
  {u v w : Value} {m : Ref}

/-- A plain path in full, or in the short form that begins with the dot after `payload`. -/
def IsPlainPath (path : String) (root : Root) (keys : List String) : Prop :=
  path = plainPath root keys ∨ root = .payload ∧ PAYLOAD ++ path = plainPath .payload keys

/-- The paths that name the payload as a whole. -/
def IsRootPath (path : String) : Prop := path = "" ∨ path = "." ∨ path = PAYLOAD

theorem toList_of_short (hkeys : PlainKeys keys)
    (hshort : PAYLOAD ++ path = plainPath .payload keys) :
    ∃ c cs, path.toList = '.' :: c :: cs := by
  obtain ⟨c, cs, hcs⟩ := hkeys.toList_eq .payload
  refine ⟨c, cs, ?_⟩
  have hlist := congrArg String.toList hshort
  rw [String.toList_append, hcs] at hlist
  exact List.append_cancel_left hlist

theorem hasPrefix_dot_of_short (hkeys : PlainKeys keys)
    (hshort : PAYLOAD ++ path = plainPath .payload keys) : hasPrefix path "." = true := by
  obtain ⟨c, cs, hcs⟩ := toList_of_short hkeys hshort
  unfold hasPrefix
  rw [hcs]
  rfl

/-- A path in the short form is none of the words that do not begin with a dot. -/
theorem ne_of_short (hkeys : PlainKeys keys)
    (hshort : PAYLOAD ++ path = plainPath .payload keys) {s : String}
    (hs : s.toList.head? ≠ some '.' ∨ s.length < 2) : path ≠ s := by
  obtain ⟨c, cs, hcs⟩ := toList_of_short hkeys hshort
  rintro rfl
  rw [← String.length_toList, hcs] at hs
  simp at hs

theorem not_metadata_of_short (hkeys : PlainKeys keys)
    (hshort : PAYLOAD ++ path = plainPath .payload keys) :
    (hasPrefix path (METADATA ++ ".") || path == METADATA) = false := by
  obtain ⟨c, cs, hcs⟩ := toList_of_short hkeys hshort
  have hsame : hasPrefix path (METADATA ++ ".") = false := by
    unfold hasPrefix
    rw [hcs]
    rfl
  rw [hsame, beq_false_of_ne (ne_of_short hkeys hshort (by decide)), Bool.or_false]

theorem IsPlainPath.fullPath (hpath : IsPlainPath path root keys) (hkeys : PlainKeys keys) :
    Event.fullPath path = plainPath root keys := by
  unfold Event.fullPath
  dsimp only
  rcases hpath with rfl | ⟨rfl, hshort⟩
  · rw [hkeys.not_hasPrefix_dot, if_neg Bool.false_ne_true,
      if_neg (hkeys.ne_of (by cases root <;> decide))]
  · rw [hasPrefix_dot_of_short hkeys hshort, if_pos rfl, hshort,
      if_neg (hkeys.ne_of (by decide))]

theorem IsPlainPath.rootOf (hpath : IsPlainPath path root keys) (hkeys : PlainKeys keys) :
    Event.rootOf path = root := by
  unfold Event.rootOf
  rcases hpath with rfl | ⟨rfl, hshort⟩
  · cases root with
    | payload =>
        rw [hkeys.not_hasPrefix_metadata, beq_false_of_ne (hkeys.ne_of (by decide))]
        rfl
    | metadata =>
        rw [show hasPrefix (plainPath .metadata keys) (METADATA ++ ".") = true from
          hkeys.hasPrefix_name .metadata]
        rfl
  · rw [not_metadata_of_short hkeys hshort]
    rfl

theorem IsPlainPath.isBelow (hpath : IsPlainPath path root keys) (hkeys : PlainKeys keys) :
    IsBelow path := by
  have hfull := hpath.fullPath hkeys
  refine ⟨?_, ?_, ?_⟩
  · unfold IsPayload
    rw [hfull]
    rintro (heq | heq)
    · exact hkeys.ne_of (by cases root <;> decide) heq
    · exact hkeys.ne_of (by cases root <;> decide) heq
  · unfold IsMetadata
    rw [hfull]
    rintro (heq | heq)
    · exact hkeys.ne_of (by cases root <;> decide) heq
    · exact hkeys.ne_of (by cases root <;> decide) heq
  · unfold IsUnknown
    rw [hfull, hkeys.known_root]
    exact Bool.false_ne_true

/-- `GetPathValue` of a plain path follows the keys. -/
theorem lookup_plainPath (hpath : IsPlainPath path root keys) (hkeys : PlainKeys keys)
    (lib : Libs κ) (h : Heap) (e : Event κ) :
    e.lookup lib h path = some ((e.find h root keys).getD .nil) := by
  have hfull : ∀ root, e.lookup lib h (plainPath root keys) =
      some ((e.find h root keys).getD .nil) := by
    intro root
    rw [← valueAt_eq lib ascending, valueAt_plainPath lib ascending h e hkeys]
  rcases hpath with rfl | ⟨rfl, hshort⟩
  · exact hfull root
  · rw [← hfull .payload]
    -- the two forms are told apart nowhere
    have hfrom : ∀ obj, lookupFrom h path obj = lookupFrom h (plainPath .payload keys) obj := by
      intro obj
      unfold lookupFrom
      rw [if_neg (c := path = "" ∨ _), if_neg (c := plainPath .payload keys = "" ∨ _),
        hasPrefix_dot_of_short hkeys hshort, if_pos rfl, hshort, hkeys.not_hasPrefix_dot,
        if_neg Bool.false_ne_true]
      · rintro (heq | heq | heq | heq)
        · exact hkeys.ne_of (by decide) heq
        · exact hkeys.ne_of (by decide) heq
        · exact hkeys.ne_of (by decide) heq
        · exact hkeys.ne_of (by decide) heq
      · rintro (heq | heq | heq | heq)
        · exact ne_of_short hkeys hshort (by decide) heq
        · exact ne_of_short hkeys hshort (by decide) heq
        · exact ne_of_short hkeys hshort (by decide) heq
        · exact ne_of_short hkeys hshort (by decide) heq
    have hmeta : (hasPrefix (plainPath .payload keys) (METADATA ++ ".") ||
        plainPath .payload keys == METADATA) = false := by
      rw [hkeys.not_hasPrefix_metadata, beq_false_of_ne (hkeys.ne_of (by decide))]
      rfl
    unfold lookup
    rw [if_neg (ne_of_short hkeys hshort (by decide)), if_neg (ne_of_short hkeys hshort (by decide)),
      if_neg (ne_of_short hkeys hshort (by decide)), if_neg (ne_of_short hkeys hshort (by decide)),
      if_neg (hkeys.ne_of (by decide)), if_neg (hkeys.ne_of (by decide)),
      if_neg (hkeys.ne_of (by decide)), if_neg (hkeys.ne_of (by decide)),
      not_metadata_of_short hkeys hshort, hmeta, hfrom]

/-- `SetPathValue` of a plain path whose objects are all there writes one entry. -/
theorem setPathValue_plainPath (hopen : e.isSettled t = false)
    (hpath : IsPlainPath path root (init ++ [key])) (hkeys : PlainKeys (init ++ [key]))
    (hroot : e.rootObject root = some u) (hwalk : h.walk u init = some (.map m)) (val : Value) :
    ∃ res, e.setPathValue t h path val true = (h.setKey m key val, e, .ok res) := by
  obtain ⟨r, rfl⟩ : ∃ r, u = .map r := by
    cases u with
    | map r => exact ⟨r, rfl⟩
    | _ =>
        cases init with
        | nil =>
            rw [Heap.walk_nil] at hwalk
            exact nomatch hwalk
        | cons k init => exact nomatch hwalk
  have hthere : (openRoot h e root) = (h, e, .map r) := by
    cases root with
    | payload => rw [openRoot, Option.some.inj hroot]
    | metadata =>
        obtain ⟨r', hmeta, heq⟩ := Option.map_eq_some_iff.mp hroot
        obtain rfl := Value.map.inj heq
        rw [openRoot, hmeta]
  obtain ⟨hpass, hwrite⟩ := Heap.write_of_walk hwalk key val
  obtain ⟨parent, k, hset⟩ : ∃ parent k, setSegments h e (plainPath root (init ++ [key])) (.map r)
      val true = (Heap.write val (init ++ [key]) h r, e, .ok (parent, k)) :=
    setSegments_plain hpass hkeys e val
  refine ⟨(parent, k), ?_⟩
  rw [setPathValue_open hopen (fun hmissing => absurd hmissing.2.2 (by decide)),
    hpath.rootOf hkeys, hthere, setPathFrom_below (hpath.isBelow hkeys), hpath.fullPath hkeys, hset,
    hwrite]

/-- The root of a payload. -/
theorem lookup_rootPath (hpath : IsRootPath path) (lib : Libs κ) (h : Heap) (e : Event κ) :
    e.lookup lib h path = some e.payload := by
  have hfrom : lookupFrom h path e.payload = some e.payload := by
    unfold lookupFrom
    split
    · rename_i hnil
      rw [hnil]
    · rw [if_pos]
      rcases hpath with heq | heq | heq
      · exact Or.inl heq
      · exact Or.inr (Or.inl heq)
      · exact Or.inr (Or.inr (Or.inl heq))
  rcases hpath with rfl | rfl | rfl
  · exact hfrom
  · exact hfrom
  · exact hfrom

theorem setPathValue_rootPath (hopen : e.isSettled t = false) (hpath : IsRootPath path) (h : Heap)
    (val : Value) (createPath : Bool) :
    e.setPathValue t h path val createPath = (h, { e with payload := val }, .ok (.nil, "")) := by
  have hpayload : IsPayload path := by
    rcases hpath with rfl | rfl | rfl
    · exact Or.inl (by decide)
    · exact Or.inr (by decide)
    · exact Or.inl (by decide)
  have hroot := rootOf_payload hpayload
  rw [setPathValue_open hopen (by rw [hroot]; exact fun hmissing => nomatch hmissing.1), hroot]
  exact setPathFrom_payload hpayload hopen h e.payload val createPath

/-! ## The data of an event -/

/-- The payload and the metadata of the event are these JSON values. -/
structure HoldsJson (h : Heap) (e : Event κ) (payload metadata : Json) : Prop where
  payload : h.Represents e.payload payload
  metadata : h.Shows e.metadataValue metadata
  allocatedPayload : h.AllocatedBelow e.payload
  allocatedMetadata : h.AllocatedBelow e.metadataValue

/-- The JSON value at the root. -/
def jsonAt (payload metadata : Json) : Root → Json
  | .payload => payload
  | .metadata => metadata

variable {jp jm j : Json} {d : ℕ}

/-- What is no null is at the root. -/
theorem HoldsJson.rootObject (hdata : HoldsJson h e jp jm) (hne : jsonAt jp jm root ≠ .null) :
    ∃ u, e.rootObject root = some u ∧ h.Represents u (jsonAt jp jm root) ∧
      h.AllocatedBelow u := by
  cases root with
  | payload => exact ⟨e.payload, rfl, hdata.payload, hdata.allocatedPayload⟩
  | metadata =>
      rcases hdata.metadata with hrep | ⟨-, hnull⟩
      · cases hmeta : e.metadata with
        | none =>
            rw [metadataValue, hmeta] at hrep
            exact absurd hrep Heap.not_represents_nilMap
        | some r =>
            have halloc := hdata.allocatedMetadata
            rw [metadataValue, hmeta] at hrep halloc
            exact ⟨.map r, by rw [Event.rootObject, hmeta]; rfl, hrep, halloc⟩
      · exact absurd hnull hne

theorem atPath_ne_null (hne : j.atPath keys ≠ .null) : j ≠ .null := by
  rintro rfl
  exact hne (Json.atPath_null keys)

/-- The value that a plain path leads to. -/
theorem HoldsJson.lookup (hdata : HoldsJson h e jp jm) (hpath : IsPlainPath path root keys)
    (hkeys : PlainKeys keys) (hv : e.lookup lib h path = some v) (hne : v ≠ .nil) :
    h.Represents v ((jsonAt jp jm root).atPath keys) := by
  rw [lookup_plainPath hpath hkeys, find] at hv
  obtain rfl := Option.some.inj hv
  cases hroot : e.rootObject root with
  | none =>
      rw [hroot] at hne
      exact absurd rfl hne
  | some u =>
      rw [Option.bind_some]
      refine Heap.represents_walk ?_ keys
      cases root with
      | payload =>
          obtain rfl := Option.some.inj hroot
          exact hdata.payload
      | metadata =>
          obtain ⟨r, hmeta, rfl⟩ := Option.map_eq_some_iff.mp hroot
          rcases hdata.metadata with hrep | ⟨hnil, -⟩
          · rw [metadataValue, hmeta] at hrep
            exact hrep
          · rw [metadataValue, hmeta] at hnil
            cases hnil

/-- The copy of the metadata is a map again, or again there is none. -/
theorem run_copyMetadata (hlib : lib.CopiesJson order d) (hmeta : h.Shows e.metadataValue jm)
    (hjm : jm.depth ≤ d) (halloc : h.AllocatedBelow e.metadataValue) :
    ∃ metadata h', (Calls.copyMetadata lib e).run (Heap.handle order) h = (some metadata, h') ∧
      h.Grows h' ∧ h'.Shows (metadataValue { e with metadata := metadata }) jm ∧
      h'.AllocatedBelow (metadataValue { e with metadata := metadata }) := by
  unfold Calls.copyMetadata
  cases hm : e.metadata with
  | none =>
      have hnil : e.metadataValue = .nilMap := by rw [metadataValue, hm]
      rw [hnil] at hmeta halloc ⊢
      refine ⟨none, h, ?_, .refl _ h, hmeta, halloc⟩
      rw [Prog.run_bind_of_some _ _ (hlib.deepCopy_nilMap h)]
      rfl
  | some r =>
      have hmap : e.metadataValue = .map r := by rw [metadataValue, hm]
      rw [hmap] at hmeta halloc ⊢
      have hrep : h.Represents (.map r) jm := by
        rcases hmeta with hrep | ⟨hnil, -⟩
        · exact hrep
        · cases hnil
      obtain ⟨fields, rfl⟩ := hrep.exists_fields
      obtain ⟨v, h', hrun, hgrows, hrep', hfresh⟩ := hlib.deepCopy h _ _ hrep hjm halloc
      obtain ⟨r', rfl, -⟩ := Heap.represents_obj.mp hrep'
      refine ⟨some r', h', ?_, hgrows, Or.inl hrep', hfresh.allocated⟩
      rw [Prog.run_bind_of_some _ _ hrun]
      rfl

/-- The event after `DeepCopy`. -/
def copied (e : Event κ) (payload : Value) (metadata : Option Ref) : Event κ :=
  { e with payload := payload, metadata := metadata, deepcopied := true }

/-- `DeepCopy` leaves an event with equal data, which will not be copied again. -/
theorem run_deepCopy (hlib : lib.CopiesJson order d) (hdata : HoldsJson h e jp jm)
    (hjp : jp.depth ≤ d) (hjm : jm.depth ≤ d) :
    ∃ payload metadata h', (Calls.deepCopy lib e).run (Heap.handle order) h =
        (some (e.copied payload metadata), h') ∧ HoldsJson h' (e.copied payload metadata) jp jm := by
  unfold Calls.deepCopy
  by_cases hcopied : e.deepcopied = true
  · refine ⟨e.payload, e.metadata, h, ?_, hdata.payload, hdata.metadata, hdata.allocatedPayload,
      hdata.allocatedMetadata⟩
    rw [if_pos hcopied, copied, ← hcopied]
    rfl
  · rw [if_neg hcopied]
    obtain ⟨payload, h₁, hpayload, hgrows₁, hrep₁, hfresh₁⟩ :=
      hlib.deepCopy h e.payload jp hdata.payload hjp hdata.allocatedPayload
    have hkeeps : h.Keeps e.metadataValue h₁ := hgrows₁.keeps hdata.allocatedMetadata
    obtain ⟨metadata, h₂, hmeta, hgrows₂, hshows₂, halloc₂⟩ :=
      run_copyMetadata (e := { e with payload := payload }) hlib (hkeeps.shows hdata.metadata) hjm
        (hkeeps.allocatedBelow hdata.allocatedMetadata hgrows₁.next)
    have hkeeps₂ : h₁.Keeps payload h₂ := hgrows₂.keeps hfresh₁.allocated
    refine ⟨payload, metadata, h₂, ?_, hkeeps₂.represents hrep₁, hshows₂,
      hkeeps₂.allocatedBelow hfresh₁.allocated hgrows₂.next, halloc₂⟩
    rw [Prog.run_bind_of_some _ _ hpayload, Prog.run_bind_of_some _ _ hmeta]
    rfl

/-- An event that was copied is not copied again. -/
theorem run_deepCopy_copied (lib : Libs κ) (order : Finset String → List String) (h : Heap)
    (e : Event κ) (payload : Value) (metadata : Option Ref) :
    (Calls.deepCopy lib (e.copied payload metadata)).run (Heap.handle order) h =
      (some (e.copied payload metadata), h) := rfl

/-! ## The two filters -/

variable {a : Acks ε} {e' e'' : Event κ} {h' h'' : Heap} {output : Value} {text : String}

theorem targetPath_eq {fromPath toPath : String} (hto : toPath = "" ∨ toPath = fromPath) :
    targetPath fromPath toPath = fromPath := by
  unfold targetPath
  split
  · rename_i hne
    exact hto.resolve_left hne
  · rfl

/-- The end of a filter: a copy and one write. -/
theorem run_store {res : Value × String}
    (hcopy : (Calls.deepCopy lib e).run (Heap.handle order) h = (some e', h'))
    (hset : e'.setPathValue a.tree h' path output true = (h'', e'', .ok res)) :
    (store lib e path output).run (EventProg.handle order) (h, a) = (some [e''], h'', a) := by
  have hwrite : (Calls.setPathValue e' path output true).run (EventProg.handle order) (h', a) =
      (some (e'', .ok res), h'', a) := by
    rw [Calls.run_setPathValue, hset]
    rfl
  unfold store
  rw [Prog.run_bind_of_some _ _ (Prog.run_left_of_some _ _ _ _ hcopy), Prog.run_bind_of_some _ _ hwrite]
  rfl

/-- `encode` stores the text of the value. -/
theorem run_encode {c : Encode.Config} (hfrom : c.fromPath = path)
    (hto : c.toPath = "" ∨ c.toPath = path) (hv : e.lookup lib h path = some v) (hne : v ≠ .nil)
    (hmarshal : (lib.marshal v).run (Heap.handle order) h = (some (.ok text), h)) :
    (Encode.filter lib c e).run (EventProg.handle order) (h, a) =
      (store lib e path (.str (Tenant.encodeToString text))).run (EventProg.handle order)
        (h, a) := by
  subst hfrom
  obtain ⟨pr, ky, hget⟩ := run_getPathValue_of_some order hv
  unfold Encode.filter
  rw [Prog.run_bind_of_some _ _ (Prog.run_left_of_some _ _ _ _ hget)]
  dsimp only
  rw [if_neg hne, Prog.run_bind_of_some _ _ (Prog.run_left_of_some _ _ _ _ hmarshal),
    targetPath_eq hto]

/-- `decode` stores the value of the text. -/
theorem run_decode {c : Decode.Config} {buf : List UInt8}
    (hfrom : c.fromPath = path) (hto : c.toPath = "" ∨ c.toPath = path)
    (hencoding : c.encoding = "base64") (hv : e.lookup lib h path = some (.str text))
    (hbase : lib.decodeBase64 text.toUTF8.data.toList = .ok buf)
    (hunmarshal : (lib.unmarshal buf).run (Heap.handle order) h = (some (.ok output), h')) :
    (Decode.filter lib c e).run (EventProg.handle order) (h, a) =
      (store lib e path output).run (EventProg.handle order) (h', a) := by
  subst hfrom
  obtain ⟨pr, ky, hget⟩ := run_getPathValue_of_some order hv
  have hbytes : Decode.decoded lib c text.toUTF8.data.toList = .ok buf := by
    rw [Decode.decoded, if_pos hencoding, hbase]
  unfold Decode.filter
  rw [Prog.run_bind_of_some _ _ (Prog.run_left_of_some _ _ _ _ hget)]
  dsimp only
  rw [Decode.decodeInput, hbytes]
  dsimp only
  rw [Prog.run_bind_of_some _ _ (Prog.run_left_of_some _ _ _ _ hunmarshal), targetPath_eq hto]

/-! ## The round trip -/

/-- On the text of the value base64 decoding inverts encoding, and `json.Unmarshal` inverts
`json.Marshal`: it makes a new value that is equal. -/
structure ReadsBack (lib : Libs κ) (order : Finset String → List String) (j : Json) : Prop where
  decodeBase64 :
    lib.decodeBase64 (Tenant.encodeToString (String.ofList j.marshal)).toUTF8.data.toList =
      .ok (String.ofList j.marshal).toUTF8.data.toList
  unmarshal : ∀ h, ∃ v h', (lib.unmarshal (String.ofList j.marshal).toUTF8.data.toList).run
      (Heap.handle order) h = (some (.ok v), h') ∧
    h.Grows h' ∧ h'.Represents v j ∧ h'.Fresh h.next v

/-- Both filters return the event, and in the end its data are equal to the data at first. -/
def RoundTrips (lib : Libs κ) (order : Finset String → List String) (a : Acks ε) (h : Heap)
    (e : Event κ) (jp jm : Json) (ec : Encode.Config) (dc : Decode.Config) : Prop :=
  ∃ e₁ h₁ e₂ h₂,
    (Encode.filter lib ec e).run (EventProg.handle order) (h, a) = (some [e₁], h₁, a) ∧
    (Decode.filter lib dc e₁).run (EventProg.handle order) (h₁, a) = (some [e₂], h₂, a) ∧
    h₂.Represents e₂.payload jp ∧ h₂.Shows e₂.metadataValue jm ∧
    e₂ = e.copied e₂.payload e₂.metadata

/-- Both filters read and write at one path. -/
structure SamePath (ec : Encode.Config) (dc : Decode.Config) (path : String) : Prop where
  encodeFrom : ec.fromPath = path
  encodeTo : ec.toPath = "" ∨ ec.toPath = path
  decodeFrom : dc.fromPath = path
  decodeTo : dc.toPath = "" ∨ dc.toPath = path
  encoding : dc.encoding = "base64"

variable {ec : Encode.Config} {dc : Decode.Config}

/-- The payload as a whole. -/
theorem roundTrips_root (hopen : e.isSettled a.tree = false) (hlib : lib.CopiesJson order d)
    (hjson : ReadsBack lib order jp) (hdata : HoldsJson h e jp jm) (hjp : jp.depth ≤ d)
    (hjm : jm.depth ≤ d) (hne : e.payload ≠ .nil) (hpath : IsRootPath path)
    (hsame : SamePath ec dc path) : RoundTrips lib order a h e jp jm ec dc := by
  obtain ⟨payload, metadata, h₀, hcopy, hdata₀⟩ := run_deepCopy hlib hdata hjp hjm
  obtain ⟨v, h₁, hunmarshal, hgrows, hrep, -⟩ := hjson.unmarshal h₀
  have hencode : (Encode.filter lib ec e).run (EventProg.handle order) (h, a) =
      (some [e.copied (.str (Tenant.encodeToString (String.ofList jp.marshal))) metadata], h₀, a) := by
    rw [run_encode hsame.encodeFrom hsame.encodeTo (lookup_rootPath hpath lib h e) hne
      (hlib.marshal h e.payload jp hdata.payload hjp)]
    have hset := setPathValue_rootPath (e := e.copied payload metadata) hopen hpath h₀
      (.str (Tenant.encodeToString (String.ofList jp.marshal))) true
    exact run_store hcopy hset
  have hdecode : (Decode.filter lib dc (e.copied
      (.str (Tenant.encodeToString (String.ofList jp.marshal))) metadata)).run
      (EventProg.handle order) (h₀, a) = (some [e.copied v metadata], h₁, a) := by
    rw [run_decode hsame.decodeFrom hsame.decodeTo hsame.encoding (lookup_rootPath hpath lib h₀ _)
      hjson.decodeBase64 hunmarshal]
    have hset := setPathValue_rootPath (e := e.copied
      (.str (Tenant.encodeToString (String.ofList jp.marshal))) metadata) hopen hpath h₁ v true
    exact run_store (run_deepCopy_copied lib order h₁ e _ metadata) hset
  exact ⟨_, _, _, _, hencode, hdecode, hrep,
    (hgrows.keeps hdata₀.allocatedMetadata).shows hdata₀.metadata, rfl⟩

/-- A write, new values and a second write of an equal value into the same entry. -/
theorem represents_rewritten {text v' : Value} {h₂ : Heap} (hold : h.getKey m key = some w)
    (hw : h.Represents w j) (hm : m < h.next) (hgrows : (h.setKey m key text).Grows h₂)
    (hrep : h₂.Represents v' j) (hfresh : h₂.Fresh h.next v') (halloc : h.AllocatedBelow v)
    {k : Json} (hv : h.Represents v k) : (h₂.setKey m key v').Represents v k := by
  have hfirst : Heap.Changes (· = m) h (h.setKey m key text) := Heap.changes_setKey m key text
  have hsecond : Heap.Changes (· = m) h₂ (h₂.setKey m key v') := Heap.changes_setKey m key v'
  have hsame : (h.setKey m key text).SameAt h₂ m := hgrows.same m hm not_false
  have hnew : (h₂.setKey m key v').Represents v' j :=
    (hsecond.keeps hfresh.allocated fun x hx hxm =>
      absurd (hfresh.made x hx) (by rw [hxm]; exact not_le_of_gt hm)).represents hrep
  refine Heap.represents_of_putBack hold ((hfirst.trans (hgrows.changes _)).trans hsecond) ?_ ?_
    (Heap.getKey_setKey_self h₂ m key v') (fun j' hj' => hw.congr hj' hnew) halloc hv
  · exact hsame.slices
  · intro k hk
    rw [Heap.getKey_setKey_of_ne hk, Heap.getKey, hsame.maps, ← Heap.getKey,
      Heap.getKey_setKey_of_ne hk]

/-- A value below the payload or the metadata. -/
theorem roundTrips_plain (hopen : e.isSettled a.tree = false) (hlib : lib.CopiesJson order d)
    (hjson : ∀ j, h.Represents v j → ReadsBack lib order j)
    (hdata : HoldsJson h e jp jm) (hjp : jp.depth ≤ d) (hjm : jm.depth ≤ d)
    (hpath : IsPlainPath path root keys) (hkeys : PlainKeys keys)
    (hv : e.lookup lib h path = some v) (hne : v ≠ .nil) (hsame : SamePath ec dc path) :
    RoundTrips lib order a h e jp jm ec dc := by
  have hvj := hdata.lookup hpath hkeys hv hne
  have hjv : (jsonAt jp jm root).atPath keys ≠ .null := fun hnull =>
    hne ((hvj.eq_scalar_iff (u := .nil) rfl).mpr hnull)
  have hdepth : ((jsonAt jp jm root).atPath keys).depth ≤ d := by
    refine (Json.depth_atPath_le _ keys).trans ?_
    cases root with
    | payload => exact hjp
    | metadata => exact hjm
  obtain ⟨payload, metadata, h₀, hcopy, hdata₀⟩ := run_deepCopy hlib hdata hjp hjm
  -- the entry of the copy that is written
  obtain ⟨u, hroot, hu, halloc⟩ := hdata₀.rootObject (atPath_ne_null hjv)
  have hfound := Heap.represents_walk hu keys
  obtain ⟨init, key, rfl⟩ : ∃ init key, keys = init ++ [key] :=
    ⟨keys.dropLast, keys.getLast hkeys.ne, (List.dropLast_append_getLast hkeys.ne).symm⟩
  obtain ⟨w, hwalk⟩ : ∃ w, h₀.walk u (init ++ [key]) = some w := by
    cases hwalk : h₀.walk u (init ++ [key]) with
    | some w => exact ⟨w, rfl⟩
    | none =>
        rw [hwalk] at hfound
        exact absurd ((hfound.eq_scalar_iff (u := .nil) rfl).mp rfl) hjv
  rw [hwalk, Option.getD_some] at hfound
  obtain ⟨m, hm, hold⟩ := Heap.walk_append_key hwalk
  have hmnext : m < h₀.next :=
    halloc (init.map .key) (.map m) (by rw [Heap.locate_keys, hm]) rfl
  -- it is found again as long as nothing else is written
  have hagain : ∀ text h', h₀.Writes (.map m) (.key key) text h' →
      h'.walk u init = some (.map m) := by
    intro text h' hwrites
    rw [← Heap.locate_keys]
    exact hwrites.locate_container halloc hu.acyclic (by rw [Heap.locate_keys, hm])
  generalize htext : String.ofList ((jsonAt jp jm root).atPath (init ++ [key])).marshal = text
  have hwrites := writes_setKey h₀ m key (.str (Tenant.encodeToString text))
  obtain ⟨res, hset⟩ := setPathValue_plainPath (e := e.copied payload metadata) hopen hpath hkeys
    hroot hm (.str (Tenant.encodeToString text))
  have hencode : (Encode.filter lib ec e).run (EventProg.handle order) (h, a) =
      (some [e.copied payload metadata], h₀.setKey m key (.str (Tenant.encodeToString text)), a) := by
    rw [run_encode hsame.encodeFrom hsame.encodeTo hv hne (htext ▸ hlib.marshal h v _ hvj hdepth)]
    exact run_store hcopy hset
  have hread : (e.copied payload metadata).lookup lib
      (h₀.setKey m key (.str (Tenant.encodeToString text))) path =
      some (.str (Tenant.encodeToString text)) := by
    rw [lookup_plainPath hpath hkeys, find, hroot, Option.bind_some,
      Heap.walk_snoc (hagain _ _ hwrites), Heap.getKey_setKey_self, Option.getD_some]
  obtain ⟨v', h₂, hunmarshal, hgrows, hrep, hfresh⟩ :=
    (hjson _ hvj).unmarshal (h₀.setKey m key (.str (Tenant.encodeToString text)))
  obtain ⟨res', hset'⟩ := setPathValue_plainPath (e := e.copied payload metadata) hopen hpath hkeys
    hroot (hagain _ _ (hwrites.grows hgrows le_rfl hmnext)) v'
  have hdecode : (Decode.filter lib dc (e.copied payload metadata)).run (EventProg.handle order)
      (h₀.setKey m key (.str (Tenant.encodeToString text)), a) =
      (some [e.copied payload metadata], h₂.setKey m key v', a) := by
    rw [run_decode hsame.decodeFrom hsame.decodeTo hsame.encoding hread
      (htext ▸ (hjson _ hvj).decodeBase64) (htext ▸ hunmarshal)]
    exact run_store (run_deepCopy_copied lib order h₂ e payload metadata) hset'
  have hback : ∀ {v : Value} {k : Json}, h₀.AllocatedBelow v → h₀.Represents v k →
      (h₂.setKey m key v').Represents v k := fun halloc hv =>
    represents_rewritten hold hfound hmnext hgrows hrep hfresh halloc hv
  exact ⟨_, _, _, _, hencode, hdecode, hback hdata₀.allocatedPayload hdata₀.payload,
    hdata₀.metadata.imp_left (hback hdata₀.allocatedMetadata), rfl⟩

/-- **`decode` undoes `encode`.**  At the root of the payload or at a plain path of an event that is
not settled, both filters return the event, and in the end its payload and its metadata are equal to
those at first. -/
theorem encode_decode (hopen : e.isSettled a.tree = false) (hlib : lib.CopiesJson order d)
    (hjson : ∀ j, h.Represents v j → ReadsBack lib order j)
    (hdata : HoldsJson h e jp jm) (hjp : jp.depth ≤ d) (hjm : jm.depth ≤ d)
    (hpath : IsRootPath path ∨ ∃ root keys, PlainKeys keys ∧ IsPlainPath path root keys)
    (hv : e.lookup lib h path = some v) (hne : v ≠ .nil) (hsame : SamePath ec dc path) :
    RoundTrips lib order a h e jp jm ec dc := by
  rcases hpath with hpath | ⟨root, keys, hkeys, hpath⟩
  · rw [lookup_rootPath hpath] at hv
    obtain rfl := Option.some.inj hv
    exact roundTrips_root hopen hlib (hjson jp hdata.payload) hdata hjp hjm hne hpath hsame
  · exact roundTrips_plain hopen hlib hjson hdata hjp hjm hpath hkeys hv hne hsame

/-- A library for scalars, which reads back the text `true`. -/
def scalarCodec : Libs Unit where
  deepCopy := pure
  marshal v := pure (.ok (String.ofList ((v.scalar.map Json.marshal).getD "null".toList)))
  unmarshal buf :=
    if buf = "true".toUTF8.data.toList then pure (.ok (.bool true))
    else pure (.error "unexpected end of JSON input")
  decodeBase64 input :=
    if input = (Tenant.encodeToString "true").toUTF8.data.toList then
      .ok "true".toUTF8.data.toList
    else .error "illegal base64 data"
  deepEqual := Libs.plain.deepEqual
  compileRegexp := Libs.plain.compileRegexp
  digest := Libs.plain.digest
  fnv32a := Libs.plain.fnv32a
  text := Libs.plain.text
  toUpper := Libs.plain.toUpper
  toLower := Libs.plain.toLower
  traceId := Libs.plain.traceId
  timestamp := Libs.plain.timestamp
  surroundings := Libs.plain.surroundings
  depth := 8

theorem copiesJson_scalarCodec (order : Finset String → List String) :
    scalarCodec.CopiesJson order 0 where
  deepCopy h v j hv hd halloc := by
    have hcont : v.isContainer = false := by
      cases j with
      | arr elems => exact absurd hd (by simp [Json.depth])
      | obj fields => exact absurd hd (by simp [Json.depth])
      | _ =>
          rw [Heap.Represents] at hv
          rw [hv]
          rfl
    exact ⟨v, h, rfl, .refl _ h, hv, Heap.fresh_of_not_container hcont _⟩
  deepCopy_nilMap h := rfl
  marshal h v j hv hd := by
    cases j with
    | arr elems => exact absurd hd (by simp [Json.depth])
    | obj fields => exact absurd hd (by simp [Json.depth])
    | _ =>
        rw [Heap.Represents] at hv
        rw [hv]
        rfl
  marshal_nilMap h := rfl

/-- An event whose payload is the truth. -/
def truthEvent : Event Unit := { sampleEvent none with payload := .bool true }

/-- The truth is encoded and decoded. -/
theorem encode_decode_truth :
    RoundTrips scalarCodec ascending (⟨AckTree.newAckTree, []⟩ : Acks Unit) Heap.empty truthEvent
      (.bool true) .null { fromPath := "payload" } { fromPath := "payload", toPath := "payload" } := by
  have hscalar : ∀ v : Value, v.isContainer = false → Heap.empty.AllocatedBelow v := fun v hv =>
    (Heap.fresh_of_not_container hv 0).allocated
  have hsame : SamePath { fromPath := "payload" }
      { fromPath := "payload", toPath := "payload" } "payload" :=
    ⟨rfl, Or.inl rfl, rfl, Or.inr rfl, rfl⟩
  refine encode_decode (d := 0) rfl (copiesJson_scalarCodec ascending) (v := .bool true)
    (fun j hj => ?_) ⟨rfl, Or.inr ⟨rfl, rfl⟩, hscalar _ rfl, hscalar _ rfl⟩ le_rfl le_rfl
    (Or.inl (Or.inr (Or.inr rfl))) rfl nofun hsame
  obtain rfl := (hj.eq_scalar_iff (u := .bool true) rfl).mp rfl
  exact ⟨by decide +kernel, fun h => ⟨.bool true, h, rfl, .refl _ h, rfl,
    Heap.fresh_of_not_container rfl _⟩⟩

end Event
