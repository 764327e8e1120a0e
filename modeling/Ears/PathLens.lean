/-
# Plain paths of events as lenses

A plain path names keys below the payload or the metadata of an event, separated by dots; a dot
in a key has a backslash before it.  `SetPathValue` with `createPath` walks the keys, makes the
objects that are missing, and writes at the last key; `GetPathValue` walks the keys and reads.

`plain_path_lens`: while no object of the event is reached by two paths, the two functions are a
lens on plain paths.  Where the metadata share an object, a write changes what another path
reads (`shared_metadata_not_lens`).
-/
import Ears.EventPrograms
import Ears.HeapTree

open GoLib

namespace GoLib

/-! ## Texts of paths -/

/-- Put a backslash before every dot. -/
def escape (cs : List Char) : List Char := cs.flatMap fun c => if c = '.' then ['\\', '.'] else [c]

/-- Two backslashes in place of every dot: what `splitPath` makes of an escaped key before it
splits the path. -/
def mark (cs : List Char) : List Char := cs.flatMap fun c => if c = '.' then ['\\', '\\'] else [c]

variable {a b x : Char} {new cs l : List Char} {segments : List (List Char)}

theorem replacePair_cons_of_ne (hx : x ≠ a) :
    replacePair a b new (x :: l) = x :: replacePair a b new l := by
  cases l with
  | nil => simp [replacePair]
  | cons y l => rw [replacePair, if_neg fun h => hx h.1]

theorem replacePair_pair : replacePair a b new (a :: b :: l) = new ++ replacePair a b new l := by
  rw [replacePair, if_pos ⟨rfl, rfl⟩]

/-- The first replacement marks the escaped dots. -/
theorem replacePair_escape (hcs : '\\' ∉ cs) :
    replacePair '\\' '.' ['\\', '\\'] (escape cs ++ l) =
      mark cs ++ replacePair '\\' '.' ['\\', '\\'] l := by
  induction cs with
  | nil => rfl
  | cons c cs ih =>
      rw [List.mem_cons, not_or] at hcs
      unfold escape mark at ih ⊢
      rw [List.flatMap_cons, List.flatMap_cons, List.append_assoc, List.append_assoc]
      split
      · rw [← ih hcs.2]
        exact replacePair_pair
      · rw [← ih hcs.2]
        exact replacePair_cons_of_ne (Ne.symm hcs.1)

/-- The second replacement turns the marks into dots. -/
theorem replacePair_mark (hcs : '\\' ∉ cs) : replacePair '\\' '\\' ['.'] (mark cs) = cs := by
  induction cs with
  | nil => rfl
  | cons c cs ih =>
      rw [List.mem_cons, not_or] at hcs
      unfold mark at ih ⊢
      rw [List.flatMap_cons]
      split
      · rename_i hdot
        rw [List.cons_append, List.cons_append, List.nil_append, replacePair_pair, ih hcs.2, hdot]
        rfl
      · rw [List.cons_append, List.nil_append, replacePair_cons_of_ne (Ne.symm hcs.1), ih hcs.2]

theorem dot_not_mem_mark : '.' ∉ mark cs := by
  unfold mark
  rw [List.mem_flatMap]
  rintro ⟨c, -, hc⟩
  split at hc
  · simp at hc
  · rename_i hne
    exact hne (List.mem_singleton.mp hc).symm

theorem replacePair_intercalate (hsegs : ∀ s ∈ segments, '\\' ∉ s) :
    replacePair '\\' '.' ['\\', '\\'] (['.'].intercalate (segments.map escape)) =
      ['.'].intercalate (segments.map mark) := by
  induction segments with
  | nil => rfl
  | cons s segments ih =>
      obtain ⟨hs, hsegs⟩ := List.forall_mem_cons.mp hsegs
      cases segments with
      | nil =>
          have h := replacePair_escape (l := []) hs
          rw [List.append_nil] at h
          rw [List.map_singleton, List.map_singleton, List.intercalate_singleton,
            List.intercalate_singleton, h]
          simp [replacePair]
      | cons s' segments =>
          have hdot : '.' ≠ '\\' := by decide
          simp only [List.map_cons, List.intercalate_cons_cons, List.append_assoc] at ih ⊢
          rw [replacePair_escape hs, List.singleton_append, replacePair_cons_of_ne hdot, ih hsegs]
          rfl

/-- Escaping brings in backslashes only. -/
theorem mem_of_mem_escape (hx : x ∈ escape cs) : x = '\\' ∨ x ∈ cs := by
  unfold escape at hx
  obtain ⟨c, hc, hx⟩ := List.mem_flatMap.mp hx
  split at hx
  · rename_i hdot
    rw [List.mem_cons, List.mem_singleton] at hx
    rcases hx with rfl | rfl
    · exact Or.inl rfl
    · exact Or.inr (hdot ▸ hc)
  · rw [List.mem_singleton.mp hx]
    exact Or.inr hc

theorem mem_of_mem_intercalate (hx : x ∈ ['.'].intercalate segments) :
    x = '.' ∨ ∃ s ∈ segments, x ∈ s := by
  induction segments with
  | nil => simp at hx
  | cons s segments ih =>
      cases segments with
      | nil =>
          rw [List.intercalate_singleton] at hx
          exact Or.inr ⟨s, List.mem_cons_self, hx⟩
      | cons s' segments =>
          rw [List.intercalate_cons_cons, List.mem_append, List.mem_append,
            List.mem_singleton] at hx
          rcases hx with (hx | hx) | hx
          · exact Or.inr ⟨s, List.mem_cons_self, hx⟩
          · exact Or.inl hx
          · rcases ih hx with hx | ⟨s'', hs, hx⟩
            · exact Or.inl hx
            · exact Or.inr ⟨s'', List.mem_cons_of_mem _ hs, hx⟩

/-- A path made of escaped segments is split into the segments. -/
theorem splitPath_intercalate (hne : segments ≠ []) (hsegs : ∀ s ∈ segments, '\\' ∉ s) :
    Event.splitPath (String.ofList (['.'].intercalate (segments.map escape))) =
      segments.map String.ofList := by
  unfold Event.splitPath split
  rw [String.toList_ofList, replacePair_intercalate hsegs, List.splitOn_intercalate, List.map_map]
  · apply List.map_congr_left
    intro s hs
    rw [Function.comp_apply, replacePair_mark (hsegs s hs)]
  · intro s hs
    obtain ⟨s', -, rfl⟩ := List.mem_map.mp hs
    exact dot_not_mem_mark
  · simpa using hne

end GoLib

/-- Where a path starts. -/
inductive Root where
  | payload
  | metadata
  deriving DecidableEq, Repr

/-- The first segment of the path. -/
def Root.name : Root → String
  | .payload => Event.PAYLOAD
  | .metadata => Event.METADATA

/-- The path that names the keys. -/
def plainPath (root : Root) (keys : List String) : String :=
  String.ofList (['.'].intercalate ((root.name :: keys).map fun k => escape k.toList))

example : plainPath .payload ["a.b", "c"] = "payload.a\\.b.c" := by decide

/-- The key is not empty and has neither brackets nor backslashes. -/
structure PlainKey (k : String) : Prop where
  ne : k ≠ ""
  bracketLeft : '[' ∉ k.toList
  bracketRight : ']' ∉ k.toList
  backslash : '\\' ∉ k.toList

/-- The keys of a plain path. -/
structure PlainKeys (keys : List String) : Prop where
  ne : keys ≠ []
  plain : ∀ k ∈ keys, PlainKey k

variable {root : Root} {keys : List String}

theorem plainKey_iff {k : String} : PlainKey k ↔
    k ≠ "" ∧ '[' ∉ k.toList ∧ ']' ∉ k.toList ∧ '\\' ∉ k.toList :=
  ⟨fun h => ⟨h.ne, h.bracketLeft, h.bracketRight, h.backslash⟩, fun ⟨a, b, c, d⟩ => ⟨a, b, c, d⟩⟩

instance (k : String) : Decidable (PlainKey k) := decidable_of_iff _ plainKey_iff.symm

theorem plainKeys_iff : PlainKeys keys ↔ keys ≠ [] ∧ ∀ k ∈ keys, PlainKey k :=
  ⟨fun h => ⟨h.ne, h.plain⟩, fun ⟨a, b⟩ => ⟨a, b⟩⟩

instance (keys : List String) : Decidable (PlainKeys keys) := decidable_of_iff _ plainKeys_iff.symm

namespace PlainKeys

theorem splitPath (h : PlainKeys keys) : Event.splitPath (plainPath root keys) = root.name :: keys := by
  have hname : '\\' ∉ root.name.toList := by cases root <;> decide
  have hsegs : ∀ s ∈ (root.name :: keys).map String.toList, '\\' ∉ s := by
    intro s hs
    obtain ⟨k, hk, rfl⟩ := List.mem_map.mp hs
    rcases List.mem_cons.mp hk with rfl | hk
    · exact hname
    · exact (h.plain k hk).backslash
  have hsplit := splitPath_intercalate (by simp) hsegs
  rw [List.map_map, List.map_map] at hsplit
  unfold plainPath
  exact hsplit.trans (by simp [Function.comp_def])

/-- The path is the first segment, a dot and more. -/
theorem toList_eq (h : PlainKeys keys) (root : Root) :
    ∃ c cs, (plainPath root keys).toList = root.name.toList ++ '.' :: c :: cs := by
  obtain ⟨k, ks, rfl⟩ := List.exists_cons_of_ne_nil h.ne
  have hname : escape root.name.toList = root.name.toList := by cases root <;> decide
  have hk : escape k.toList ≠ [] := by
    have hne : k.toList ≠ [] := by
      intro hnil
      exact (h.plain k List.mem_cons_self).ne (String.toList_inj.mp hnil)
    obtain ⟨c, cs, hc⟩ := List.exists_cons_of_ne_nil hne
    unfold escape
    rw [hc, List.flatMap_cons]
    split <;> simp
  have hrest : ['.'].intercalate ((k :: ks).map fun k => escape k.toList) ≠ [] := by
    cases ks with
    | nil => simpa [List.intercalate_singleton] using hk
    | cons k' ks => simp [List.intercalate_cons_cons, hk]
  obtain ⟨c, cs, hc⟩ := List.exists_cons_of_ne_nil hrest
  refine ⟨c, cs, ?_⟩
  unfold plainPath
  rw [String.toList_ofList, List.map_cons, hname, ← hc, List.map_cons, List.intercalate_cons_cons,
    List.append_assoc, List.singleton_append]

/-- There is no opening bracket in the path. -/
theorem not_contains (h : PlainKeys keys) :
    (GoLib.contains (plainPath root keys) '[' && GoLib.contains (plainPath root keys) ']') =
      false := by
  have hleft : '[' ∉ (plainPath root keys).toList := by
    unfold plainPath
    rw [String.toList_ofList]
    intro hmem
    rcases mem_of_mem_intercalate hmem with hdot | ⟨s, hs, hmem⟩
    · exact absurd hdot (by decide)
    · obtain ⟨k, hk, rfl⟩ := List.mem_map.mp hs
      rcases mem_of_mem_escape hmem with hback | hmem
      · exact absurd hback (by decide)
      · rcases List.mem_cons.mp hk with rfl | hk
        · exact absurd hmem (by cases root <;> decide)
        · exact (h.plain k hk).bracketLeft hmem
  have hfalse : GoLib.contains (plainPath root keys) '[' = false := by
    unfold GoLib.contains
    rw [List.contains_eq_mem, decide_eq_false_iff_not]
    exact hleft
  rw [hfalse, Bool.false_and]

end PlainKeys

namespace PlainKeys

theorem ne_of (h : PlainKeys keys) {s : String}
    (hs : ¬ (root.name.toList ++ ['.'] <+: s.toList ∧ root.name.length + 1 < s.length)) :
    plainPath root keys ≠ s := by
  rintro rfl
  obtain ⟨c, cs, hcs⟩ := h.toList_eq root
  apply hs
  rw [← String.length_toList, ← String.length_toList, hcs]
  refine ⟨⟨c :: cs, by simp⟩, ?_⟩
  simp only [List.length_append, List.length_cons]
  omega

theorem hasPrefix_name (h : PlainKeys keys) (root : Root) :
    hasPrefix (plainPath root keys) (root.name ++ ".") = true := by
  obtain ⟨c, cs, hcs⟩ := h.toList_eq root
  unfold hasPrefix
  rw [hcs, List.isPrefixOf_iff_prefix, String.toList_append]
  exact ⟨c :: cs, by simp⟩

/-- The path starts at the payload or at the metadata. -/
theorem known_root (h : PlainKeys keys) :
    (!hasPrefix (plainPath root keys) (Event.PAYLOAD ++ ".") &&
      !hasPrefix (plainPath root keys) (Event.METADATA ++ ".")) = false := by
  have hself := h.hasPrefix_name root
  cases root with
  | payload =>
      rw [show hasPrefix _ (Event.PAYLOAD ++ ".") = true from hself]
      rfl
  | metadata =>
      rw [show hasPrefix _ (Event.METADATA ++ ".") = true from hself, Bool.not_true, Bool.and_false]

theorem not_hasPrefix_dot (h : PlainKeys keys) : hasPrefix (plainPath root keys) "." = false := by
  obtain ⟨c, cs, hcs⟩ := h.toList_eq root
  unfold hasPrefix
  rw [hcs]
  cases root <;> rfl

theorem not_hasPrefix_metadata (h : PlainKeys keys) :
    hasPrefix (plainPath .payload keys) (Event.METADATA ++ ".") = false := by
  obtain ⟨c, cs, hcs⟩ := h.toList_eq .payload
  unfold hasPrefix
  rw [hcs]
  rfl

end PlainKeys

namespace Event

variable {κ ε : Type} {t : AckTree ε} {h : Heap} {e : Event κ} {r : Ref} {v w : Value}

/-! ## Reading -/

/-- The value that `GetPathValue(path)` returns. -/
def valueAt (lib : Libs κ) (order : Finset String → List String) (h : Heap) (e : Event κ)
    (path : String) : Option Value :=
  ((e.getPathValue lib path).run (Heap.handle order) h).1.map Prod.fst

/-- Payload or metadata; there may be no metadata. -/
def rootObject (e : Event κ) : Root → Option Value
  | .payload => some e.payload
  | .metadata => e.metadata.map .map

/-- The value that keys lead to. -/
def find (h : Heap) (e : Event κ) (root : Root) (keys : List String) : Option Value :=
  (e.rootObject root).bind fun u => h.walk u keys

theorem run_getSegments (order : Finset String → List String) (h : Heap) (keys : List String)
    (obj parent : Value) (key : String) :
    ((getSegments keys obj parent key).run (Heap.handle order) h).1.map Prod.fst =
      some ((h.walk obj keys).getD .nil) := by
  induction keys generalizing obj parent key with
  | nil => simp [getSegments]
  | cons s keys ih =>
      cases obj with
      | map r =>
          rw [getSegments, Prog.run_bind_of_some _ _ (HeapProg.run_getKey order h r s)]
          cases hs : h.getKey r s with
          | none =>
              rw [Heap.walk_cons_of_none hs]
              rfl
          | some child =>
              rw [Heap.walk_cons_of_some hs]
              exact ih child _ _
      | _ => rfl

/-- `GetPathValue` of a plain path follows the keys. -/
theorem valueAt_plainPath (lib : Libs κ) (order : Finset String → List String) (h : Heap)
    (e : Event κ) (hkeys : PlainKeys keys) :
    e.valueAt lib order h (plainPath root keys) = some ((e.find h root keys).getD .nil) := by
  obtain ⟨k, ks, hcons⟩ := List.exists_cons_of_ne_nil hkeys.ne
  have hroot : ∀ obj, ((getPathFrom (plainPath root keys) obj).run (Heap.handle order) h).1.map
      Prod.fst = some ((h.walk obj keys).getD .nil) := by
    intro obj
    unfold getPathFrom
    split
    · rename_i hnil
      rw [hnil, hcons]
      rfl
    · rw [if_neg]
      · dsimp only
        rw [hkeys.not_hasPrefix_dot, if_neg Bool.false_ne_true, hkeys.known_root,
          if_neg Bool.false_ne_true,
          hkeys.not_contains, if_neg Bool.false_ne_true, hkeys.splitPath]
        exact run_getSegments order h keys obj .nil ""
      · rintro (heq | heq | heq | heq)
        · exact hkeys.ne_of (by cases root <;> decide) heq
        · exact hkeys.ne_of (by cases root <;> decide) heq
        · exact hkeys.ne_of (by cases root <;> decide) heq
        · exact hkeys.ne_of (by cases root <;> decide) heq
  -- the path is none of the words with a meaning of their own
  unfold valueAt getPathValue
  rw [if_neg (hkeys.ne_of (by cases root <;> decide)), if_neg (hkeys.ne_of (by cases root <;> decide)),
    if_neg (hkeys.ne_of (by cases root <;> decide)), if_neg (hkeys.ne_of (by cases root <;> decide)),
    hroot]
  congr 2
  cases root with
  | payload =>
      have hmeta : (plainPath .payload keys == METADATA) = false :=
        beq_false_of_ne (hkeys.ne_of (by decide))
      rw [hkeys.not_hasPrefix_metadata, hmeta]
      rfl
  | metadata =>
      rw [show hasPrefix (plainPath .metadata keys) (METADATA ++ ".") = true from
        hkeys.hasPrefix_name .metadata, Bool.true_or, if_pos rfl]
      unfold find rootObject metadataValue
      cases e.metadata with
      | none =>
          rw [hcons]
          rfl
      | some r => rfl

/-! ## Writing -/

/-- The loop of `SetPathValue` ends at the map and the key that `Heap.write` writes to. -/
theorem descend_plain (path : String) (hpass : Heap.Passable keys h r) (hkeys : PlainKeys keys)
    (parent : Value) (key : String) :
    ∃ h' m k, descend path true h keys (.map r) parent key = (h', .ok (.map m, .map m, k)) ∧
      k ∈ keys ∧ ∀ v, h'.setKey m k v = Heap.write v keys h r := by
  induction keys generalizing h r parent key with
  | nil => exact absurd rfl hkeys.ne
  | cons k ks ih =>
      have hk : k ≠ "" := (hkeys.plain k List.mem_cons_self).ne
      by_cases hks : ks = []
      · subst hks
        refine ⟨h, r, k, ?_, List.mem_cons_self, fun v => rfl⟩
        rw [descend, if_neg hk, if_pos rfl]
      · -- one map down, made if there is none, as `Heap.enter` does
        obtain ⟨hmap, hrest⟩ := hpass.resolve_left hks
        have hstep : descend path true h (k :: ks) (.map r) parent key =
            descend path true (h.enter r k).1 ks (.map (h.enter r k).2) (.map r) k := by
          rw [descend, if_neg hk, if_neg hks]
          cases hget : h.getKey r k with
          | none =>
              dsimp only
              rw [if_pos rfl]
              unfold Heap.enter
              rw [hget]
          | some child =>
              obtain ⟨m, rfl⟩ := hmap child hget
              rw [Heap.enter_of_some hget]
        obtain ⟨h', m, k', hdesc, hmem, hwrite⟩ := ih hrest
          ⟨hks, fun k' hk' => hkeys.plain k' (List.mem_cons_of_mem _ hk')⟩ (.map r) k
        refine ⟨h', m, k', hstep.trans hdesc, List.mem_cons_of_mem _ hmem, fun v => ?_⟩
        rw [hwrite v, Heap.write, if_neg hks]

/-- `SetPathValue` from the split of the path on writes at the end of the keys. -/
theorem setSegments_plain (hpass : Heap.Passable keys h r) (hkeys : PlainKeys keys)
    (e : Event κ) (v : Value) :
    ∃ parent key, setSegments h e (plainPath root keys) (.map r) v true =
      (Heap.write v keys h r, e, .ok (parent, key)) := by
  obtain ⟨h', m, k, hdesc, hmem, hwrite⟩ :=
    descend_plain (plainPath root keys) hpass hkeys .nil ""
  have hleft : GoLib.contains k '[' = false := by
    unfold GoLib.contains
    rw [List.contains_eq_mem, decide_eq_false_iff_not]
    exact (hkeys.plain k hmem).bracketLeft
  refine ⟨.map m, k, ?_⟩
  unfold setSegments
  rw [hkeys.splitPath, List.tail_cons, hdesc]
  dsimp only [assign]
  rw [hleft, Bool.false_and, if_neg Bool.false_ne_true, hwrite]

theorem setPathFrom_plain (t : AckTree ε) (h : Heap) (e : Event κ) (hkeys : PlainKeys keys)
    (obj v : Value) :
    e.setPathFrom t h (plainPath root keys) obj v true =
      setSegments h e (plainPath root keys) obj v true := by
  unfold setPathFrom
  dsimp only
  rw [hkeys.not_hasPrefix_dot, if_neg Bool.false_ne_true,
    if_neg (hkeys.ne_of (by cases root <;> decide)), if_neg, if_neg, hkeys.known_root,
    if_neg Bool.false_ne_true]
  · rintro (heq | heq)
    · exact hkeys.ne_of (by cases root <;> decide) heq
    · exact hkeys.ne_of (by cases root <;> decide) heq
  · rintro (heq | heq)
    · exact hkeys.ne_of (by cases root <;> decide) heq
    · exact hkeys.ne_of (by cases root <;> decide) heq

/-- The event with an object at the root, and the object: metadata are made if there are none. -/
def openRoot (h : Heap) (e : Event κ) : Root → Heap × Event κ × Value
  | .payload => (h, e, e.payload)
  | .metadata =>
      match e.metadata with
      | some r => (h, e, .map r)
      | none => (h.makeMap.1, { e with metadata := some h.makeMap.2 }, .map h.makeMap.2)

/-- `SetPathValue` of a plain path opens the root and follows the keys. -/
theorem setPathValue_plain (hopen : e.isSettled t = false) (hkeys : PlainKeys keys)
    (h : Heap) (v : Value) :
    e.setPathValue t h (plainPath root keys) v true =
      setSegments (openRoot h e root).1 (openRoot h e root).2.1 (plainPath root keys)
        (openRoot h e root).2.2 v true := by
  unfold setPathValue
  rw [hopen, if_neg Bool.false_ne_true]
  cases root with
  | payload =>
      have hmeta : (plainPath .payload keys == METADATA) = false :=
        beq_false_of_ne (hkeys.ne_of (by decide))
      rw [hkeys.not_hasPrefix_metadata, hmeta, Bool.or_false, if_neg Bool.false_ne_true,
        setPathFrom_plain t h e hkeys]
      rfl
  | metadata =>
      rw [show hasPrefix (plainPath .metadata keys) (METADATA ++ ".") = true from
        hkeys.hasPrefix_name .metadata, Bool.true_or, if_pos rfl]
      unfold openRoot
      cases hmeta : e.metadata with
      | none =>
          dsimp only
          rw [if_pos rfl, setPathFrom_plain _ _ _ hkeys]
          unfold setMetadata
          rw [hopen, if_neg Bool.false_ne_true]
      | some r =>
          dsimp only
          rw [setPathFrom_plain _ _ _ hkeys]

/-! ## Events without shared objects -/

/-- The payload is an object, and below the given roots no object is reached by two paths and
all are allocated. -/
structure TreeShaped (h : Heap) (e : Event κ) (roots : Root → Prop) : Prop where
  object : ∃ r, e.payload = .map r
  unshared : ∀ a b p q x, roots a → roots b → e.find h a p = some (.map x) →
    e.find h b q = some (.map x) → a = b ∧ p = q
  allocated : ∀ a p x, roots a → e.find h a p = some (.map x) → x < h.next

/-- Each proper beginning of the path is an object or absent. -/
def FitsAt (h : Heap) (e : Event κ) (root : Root) (keys : List String) : Prop :=
  ∀ p, p <+: keys → p ≠ keys → ∀ u, e.find h root p = some u → ∃ x, u = .map x

/-- What is known of the event and the object at the root once the root is open. -/
structure Opened (t : AckTree ε) (h : Heap) (e : Event κ) (root : Root) (keys : List String)
    (h' : Heap) (e' : Event κ) (r : Ref) : Prop where
  start : openRoot h e root = (h', e', .map r)
  settled : e'.isSettled t = e.isSettled t
  here : e'.rootObject root = some (.map r)
  tree : h'.TreeAt r
  fits : h'.Fits r keys
  read : ∀ q, q ≠ [] → (e.find h root q).getD .nil = (h'.walk (.map r) q).getD .nil
  beside : ∀ a, a ≠ root → e'.rootObject a = e.rootObject a
  other : ∀ a u, a ≠ root → e.rootObject a = some u → (∀ q, h'.walk u q = h.walk u q) ∧
    ∀ p x, h'.walk u p = some (.map x) → x < h'.next ∧ ∀ p', h'.walk (.map r) p' ≠ some (.map x)

theorem find_of_some {u : Value} (hu : e.rootObject root = some u) (q : List String) :
    e.find h root q = h.walk u q := by
  unfold find
  rw [hu, Option.bind_some]

/-- There is an object at the root already. -/
theorem TreeShaped.opened_of_some (ht : e.TreeShaped h fun _ => True)
    (hf : e.FitsAt h root keys) (hr : e.rootObject root = some (.map r))
    (hstart : openRoot h e root = (h, e, .map r)) : Opened t h e root keys h e r where
  start := hstart
  settled := rfl
  here := hr
  tree := by
    constructor
    · intro p q x hp hq
      rw [← find_of_some hr] at hp hq
      exact (ht.unshared root root p q x trivial trivial hp hq).2
    · intro p x hp
      rw [← find_of_some hr] at hp
      exact ht.allocated root p x trivial hp
  fits := by
    intro p hp hne u hu
    rw [← find_of_some hr] at hu
    exact hf p hp hne u hu
  read := fun q _ => by rw [find_of_some hr]
  beside := fun _ _ => rfl
  other := by
    intro a u hne hu
    refine ⟨fun _ => rfl, fun p x hp => ?_⟩
    rw [← find_of_some hu] at hp
    refine ⟨ht.allocated a p x trivial hp, fun p' hp' => ?_⟩
    rw [← find_of_some hr] at hp'
    exact hne (ht.unshared a root p p' x trivial trivial hp hp').1

/-- The metadata are made. -/
theorem TreeShaped.opened_of_none (ht : e.TreeShaped h fun _ => True) (hmeta : e.metadata = none) :
    Opened t h e .metadata keys h.makeMap.1 { e with metadata := some h.makeMap.2 } h.next := by
  have hempty : ∀ key, h.makeMap.1.getKey h.next key = none := by
    intro key
    simp [Heap.getKey, Heap.makeMap]
  have hnone : e.rootObject .metadata = none := by
    unfold rootObject
    rw [hmeta]
    rfl
  exact {
    start := by
      unfold openRoot
      rw [hmeta]
      rfl
    settled := rfl
    here := rfl
    tree := Heap.treeAt_of_empty (Nat.lt_succ_self _) hempty
    fits := Heap.fits_of_empty hempty keys
    read := by
      intro q hq
      obtain ⟨k, q, rfl⟩ := List.exists_cons_of_ne_nil hq
      unfold find
      rw [hnone, Heap.walk_cons_of_none (hempty k)]
      rfl
    beside := by
      intro a hne
      cases a with
      | payload => rfl
      | metadata => exact absurd rfl hne
    other := by
      intro a u _ hu
      have halloc : ∀ p x, h.walk u p = some (.map x) → x < h.next := by
        intro p x hp
        rw [← find_of_some hu] at hp
        exact ht.allocated a p x trivial hp
      have hwalk : ∀ q, h.makeMap.1.walk u q = h.walk u q := fun q =>
        Heap.walk_congr (fun p x hp => Heap.makeMap_maps_of_ne (halloc p x hp).ne) q
      refine ⟨hwalk, fun p x hp => ?_⟩
      rw [hwalk] at hp
      refine ⟨(halloc p x hp).trans (Nat.lt_succ_self _), fun p' hp' => ?_⟩
      exact (halloc p x hp).ne (Value.map.inj (Heap.walk_of_empty hempty hp').2) }

/-- The root of a plain path that fits can be opened. -/
theorem TreeShaped.opened (ht : e.TreeShaped h fun _ => True) (hf : e.FitsAt h root keys)
    (t : AckTree ε) : ∃ h' e' r, Opened t h e root keys h' e' r := by
  cases root with
  | payload =>
      obtain ⟨r, hr⟩ := ht.object
      refine ⟨h, e, r, ht.opened_of_some hf ?_ ?_⟩
      · rw [rootObject, hr]
      · rw [openRoot, hr]
  | metadata =>
      cases hmeta : e.metadata with
      | none => exact ⟨_, _, _, ht.opened_of_none hmeta⟩
      | some r =>
          refine ⟨h, e, r, ht.opened_of_some hf ?_ ?_⟩
          · rw [rootObject, hmeta]
            rfl
          · rw [openRoot, hmeta]

/-- `SetPathValue` writes below the opened root. -/
theorem Opened.setPathValue {h' : Heap} {e' : Event κ} (ho : Opened t h e root keys h' e' r)
    (hopen : e.isSettled t = false) (hkeys : PlainKeys keys) (v : Value) :
    ∃ parent key, e.setPathValue t h (plainPath root keys) v true =
      (Heap.write v keys h' r, e', .ok (parent, key)) := by
  rw [setPathValue_plain hopen hkeys, ho.start]
  exact setSegments_plain (ho.tree.passable ho.fits) hkeys e' v

/-- An opened root stays open. -/
theorem Opened.openRoot_again {h' : Heap} {e' : Event κ} (ho : Opened t h e root keys h' e' r)
    (h'' : Heap) : openRoot h'' e' root = (h'', e', .map r) := by
  have hhere := ho.here
  cases root with
  | payload =>
      rw [rootObject, Option.some.injEq] at hhere
      rw [openRoot, hhere]
  | metadata =>
      rw [rootObject, Option.map_eq_some_iff] at hhere
      obtain ⟨m, hm, hmr⟩ := hhere
      rw [openRoot, hm]
      dsimp only
      rw [hmr]

/-- After a write, `SetPathValue` writes to the same place. -/
theorem Opened.setPathValue_again {h' : Heap} {e' : Event κ}
    (ho : Opened t h e root keys h' e' r) (hopen : e.isSettled t = false)
    (hkeys : PlainKeys keys) (v w : Value) :
    ∃ parent key, e'.setPathValue t (Heap.write v keys h' r) (plainPath root keys) w true =
      (Heap.write w keys h' r, e', .ok (parent, key)) := by
  rw [setPathValue_plain (ho.settled.trans hopen) hkeys, ho.openRoot_again,
    ← Heap.write_write ho.tree ho.fits v w]
  exact setSegments_plain (ho.tree.passable_write ho.fits v) hkeys e' w

/-! ## The laws -/

/-- The laws of a lens, for one plain path of an event: a write succeeds and is read afterwards,
the second of two writes decides, and a plain path that neither continues the written one nor is
continued by it reads as before. -/
structure PlainLens (lib : Libs κ) (order : Finset String → List String) (t : AckTree ε) (h : Heap)
    (e : Event κ) (root : Root) (keys : List String) : Prop where
  succeeds : ∀ v, ∃ parent key,
    (e.setPathValue t h (plainPath root keys) v true).2.2 = .ok (parent, key)
  get_set : ∀ v h' e' res, e.setPathValue t h (plainPath root keys) v true = (h', e', res) →
    e'.valueAt lib order h' (plainPath root keys) = some v
  set_set : ∀ v w h' e' res, e.setPathValue t h (plainPath root keys) v true = (h', e', res) →
    (e'.setPathValue t h' (plainPath root keys) w true).1 =
        (e.setPathValue t h (plainPath root keys) w true).1 ∧
      (e'.setPathValue t h' (plainPath root keys) w true).2.1 =
        (e.setPathValue t h (plainPath root keys) w true).2.1
  get_other : ∀ v h' e' res root' keys',
    e.setPathValue t h (plainPath root keys) v true = (h', e', res) → PlainKeys keys' →
    (root' = root → ¬ keys <+: keys' ∧ ¬ keys' <+: keys) →
    e'.valueAt lib order h' (plainPath root' keys') =
      e.valueAt lib order h (plainPath root' keys')

/-- Another plain path reads as before. -/
theorem Opened.find_other {h' : Heap} {e' : Event κ} (ho : Opened t h e root keys h' e' r)
    {root' : Root} {keys' : List String} (hkeys' : keys' ≠ [])
    (hother : root' = root → ¬ keys <+: keys' ∧ ¬ keys' <+: keys) (v : Value) :
    (e'.find (Heap.write v keys h' r) root' keys').getD .nil =
      (e.find h root' keys').getD .nil := by
  by_cases hroot : root' = root
  · subst hroot
    obtain ⟨hpq, hqp⟩ := hother rfl
    rw [find_of_some ho.here, ho.read keys' hkeys']
    exact Heap.getD_walk_write ho.tree ho.fits hpq hqp v
  · -- the other root shares no map with the written one
    unfold find
    rw [ho.beside root' hroot]
    cases hu : e.rootObject root' with
    | none => rfl
    | some u =>
        obtain ⟨hwalk, happart⟩ := ho.other root' u hroot hu
        rw [Option.bind_some, Option.bind_some,
          Heap.walk_write_apart ho.tree ho.fits happart, hwalk]

/-- **Plain paths are lenses.**  For every event that is not settled, whose payload is an object
and whose payload and metadata reach no object by two paths, and every plain path whose proper
beginnings are objects or absent. -/
theorem plain_path_lens (lib : Libs κ) (order : Finset String → List String)
    (hopen : e.isSettled t = false) (ht : e.TreeShaped h fun _ => True) (hkeys : PlainKeys keys)
    (hf : e.FitsAt h root keys) : e.PlainLens lib order t h root keys := by
  obtain ⟨h', e', r, ho⟩ := ht.opened hf t
  have hset := ho.setPathValue hopen hkeys
  constructor
  case succeeds =>
    intro v
    obtain ⟨parent, key, heq⟩ := hset v
    exact ⟨parent, key, by rw [heq]⟩
  case get_set =>
    intro v h₁ e₁ res hres
    obtain ⟨parent, key, heq⟩ := hset v
    rw [heq] at hres
    obtain ⟨rfl, rfl, -⟩ : _ = h₁ ∧ e' = e₁ ∧ _ = res := by simpa using hres
    rw [valueAt_plainPath _ _ _ _ hkeys, find_of_some ho.here,
      Heap.walk_write ho.tree ho.fits hkeys.ne]
    rfl
  case set_set =>
    intro v w h₁ e₁ res hres
    obtain ⟨parent, key, heq⟩ := hset v
    rw [heq] at hres
    obtain ⟨rfl, rfl, -⟩ : _ = h₁ ∧ e' = e₁ ∧ _ = res := by simpa using hres
    obtain ⟨_, _, heq'⟩ := hset w
    obtain ⟨_, _, hagain⟩ := ho.setPathValue_again hopen hkeys v w
    rw [heq', hagain]
    exact ⟨rfl, rfl⟩
  case get_other =>
    intro v h₁ e₁ res root' keys' hres hkeys' hother
    obtain ⟨parent, key, heq⟩ := hset v
    rw [heq] at hres
    obtain ⟨rfl, rfl, -⟩ : _ = h₁ ∧ e' = e₁ ∧ _ = res := by simpa using hres
    rw [valueAt_plainPath _ _ _ _ hkeys', valueAt_plainPath _ _ _ _ hkeys',
      ho.find_other hkeys'.ne hother]

/-- An event with an empty payload. -/
def sampleEvent (metadata : Option Ref) : Event Unit where
  metadata := metadata
  payload := .map 0
  ctx := ()
  subTree := none
  tid := ⟨"acme", "tv"⟩
  eid := "e1"
  userTraceId := ""
  created := 0
  response := 0
  responseStatus := 0

/-- Below an empty payload there is nothing. -/
theorem find_sampleEvent {metadata : Option Ref} (hempty : ∀ key, h.getKey 0 key = none)
    {p : List String} {u : Value} (hp : (sampleEvent metadata).find h .payload p = some u) :
    p = [] ∧ u = .map 0 :=
  Heap.walk_of_empty hempty hp

/-- Keys in alphabetical order. -/
def ascending (s : Finset String) : List String := s.sort (· ≤ ·)

/-- A path that makes an object on its way. -/
theorem plain_path_lens_sample :
    (sampleEvent none).PlainLens Libs.plain ascending (AckTree.newAckTree : AckTree Unit)
      Heap.empty.makeMap.1 .payload ["a.b", "c"] := by
  have hempty : ∀ key, Heap.empty.makeMap.1.getKey 0 key = none := fun key => rfl
  have hfind : ∀ a p x, (sampleEvent none).find Heap.empty.makeMap.1 a p = some (.map x) →
      a = .payload ∧ p = [] ∧ x = 0 := by
    intro a p x hp
    cases a with
    | payload =>
        obtain ⟨rfl, heq⟩ := find_sampleEvent hempty hp
        exact ⟨rfl, rfl, Value.map.inj heq⟩
    | metadata => simp [find, rootObject, sampleEvent] at hp
  refine plain_path_lens _ _ rfl ⟨⟨0, rfl⟩, ?_, ?_⟩ (by decide) ?_
  · intro a b p q x _ _ hp hq
    obtain ⟨rfl, rfl, -⟩ := hfind a p x hp
    obtain ⟨rfl, rfl, -⟩ := hfind b q x hq
    exact ⟨rfl, rfl⟩
  · intro a p x _ hp
    obtain ⟨-, -, rfl⟩ := hfind a p x hp
    exact Nat.zero_lt_one
  · intro p _ _ u hu
    exact ⟨0, (find_sampleEvent hempty hu).2⟩

/-- Metadata with one object under two keys. -/
def sharedHeap : Heap :=
  ((Heap.empty.makeMap.1.makeMap.1.makeMap.1).setKey 1 "a" (.map 2)).setKey 1 "b" (.map 2)

/-- `SetPathValue("metadata.a.x", true, true)` there. -/
def sharedWrite : Heap × Event Unit × Except (Stop EventError) (Value × String) :=
  (sampleEvent (some 1)).setPathValue (AckTree.newAckTree : AckTree Unit) sharedHeap
    (plainPath .metadata ["a", "x"]) (.bool true) true

/-- With a tree as payload, but a shared object in the metadata, a write changes what another
path reads. -/
theorem shared_metadata_not_lens :
    (sampleEvent (some 1)).isSettled (AckTree.newAckTree : AckTree Unit) = false ∧
      (sampleEvent (some 1)).TreeShaped sharedHeap (fun a => a = .payload) ∧
      PlainKeys ["a", "x"] ∧ (sampleEvent (some 1)).FitsAt sharedHeap .metadata ["a", "x"] ∧
      PlainKeys ["b", "x"] ∧ ¬ ["a", "x"] <+: ["b", "x"] ∧ ¬ ["b", "x"] <+: ["a", "x"] ∧
      (sampleEvent (some 1)).valueAt Libs.plain ascending sharedHeap
        (plainPath .metadata ["b", "x"]) = some .nil ∧
      sharedWrite.2.1.valueAt Libs.plain ascending sharedWrite.1
        (plainPath .metadata ["b", "x"]) = some (.bool true) := by
  have hempty : ∀ key, sharedHeap.getKey 0 key = none := fun _ => rfl
  have hchild : (sampleEvent (some 1)).find sharedHeap .metadata ["a"] = some (.map 2) := by
    decide +kernel
  have hbefore : ((sampleEvent (some 1)).find sharedHeap .metadata ["b", "x"]).getD .nil = .nil := by
    decide +kernel
  have hafter : (sharedWrite.2.1.find sharedWrite.1 .metadata ["b", "x"]).getD .nil =
      .bool true := by
    decide +kernel
  refine ⟨rfl, ⟨⟨0, rfl⟩, ?_, ?_⟩, by decide, ?_, by decide, by decide, by decide, ?_, ?_⟩
  · rintro a b p q x rfl rfl hp hq
    exact ⟨rfl, by rw [(find_sampleEvent hempty hp).1, (find_sampleEvent hempty hq).1]⟩
  · rintro a p x rfl hp
    rw [Value.map.inj (find_sampleEvent hempty hp).2]
    decide
  · intro p hp hne u hu
    have hmem : p = [] ∨ ∃ q, p = "a" :: q ∧ (q = [] ∨ q = ["x"]) := by
      simpa [List.prefix_cons_iff] using hp
    rcases hmem with rfl | ⟨_, rfl, rfl | rfl⟩
    · exact ⟨1, (Option.some.inj hu).symm⟩
    · rw [hchild] at hu
      exact ⟨2, (Option.some.inj hu).symm⟩
    · exact absurd rfl hne
  · rw [valueAt_plainPath _ _ _ _ (by decide), hbefore]
  · rw [valueAt_plainPath _ _ _ _ (by decide), hafter]

end Event
