/-
# Array access and plain access

`GetPathValue` reads a plain path key by key.  With an index behind the last key another walker
reads the path: it splits the text at every dot, also at an escaped one, and trims the pieces.
What is left of them are its own keys (`walkerKeys`).

`array_access_iff`: the two agree when the payload has, where the keys of the walker lead, the
element that it has where the keys of the path lead.  With keys that have no dots and no white
space that is trimmed away that is so as long as the index does not fall into an array one key
too early, where the walker ignores the key.  For any other keys there is a payload that makes a
difference.
-/
import Ears.JsonHeap
import Ears.PathReading

open GoLib

namespace Event

variable {κ ε : Type} {h : Heap} {e : Event κ} {root : Root} {keys ks : List String} {k : String}
  {cs ds seg last : List Char} {init : List (List Char)} {curr : Value} {i : ℕ}

/-! ## Cutting a path with an index -/

/-- Between brackets nothing is cut. -/
theorem arraySegments_inside (hds : ']' ∉ ds) (seg : List Char) :
    arraySegments (ds ++ [']']) true seg = [seg ++ ds ++ [']']] := by
  induction ds generalizing seg with
  | nil =>
      have hsize : ']'.utf8Size = 1 := by decide
      rw [List.nil_append, arraySegments]
      simp [hsize]
  | cons c ds ih =>
      rw [List.mem_cons, not_or] at hds
      have hin : (if c = '[' then true else if c = ']' then false else true) = true := by
        rw [if_neg (Ne.symm hds.1)]
        split <;> rfl
      rw [List.cons_append, arraySegments, hin, if_neg (by simp), if_neg (by simp), ih hds.2]
      simp

/-- The pieces between the dots, with the index behind the last one. -/
theorem arraySegments_index (hds : ']' ∉ ds) (hleft : '[' ∉ cs) (hright : ']' ∉ cs)
    (hseg : '.' ∉ seg) (hsplit : (seg ++ cs).splitOn '.' = init ++ [last]) :
    arraySegments (cs ++ '[' :: (ds ++ [']'])) false seg =
      init ++ [last ++ '[' :: (ds ++ [']'])] := by
  induction cs generalizing seg init with
  | nil =>
      rw [List.append_nil, List.splitOn_eq_singleton hseg] at hsplit
      obtain ⟨rfl, hlast⟩ := List.append_eq_singleton_iff.mp hsplit.symm |>.resolve_right
        (by simp)
      obtain rfl := List.singleton_inj.mp hlast
      rw [List.nil_append, arraySegments]
      simp [arraySegments_inside hds]
  | cons c cs ih =>
      rw [List.mem_cons, not_or] at hleft hright
      have hin : (if c = '[' then true else if c = ']' then false else false) = false := by
        rw [if_neg (Ne.symm hleft.1), if_neg (Ne.symm hright.1)]
      rw [List.cons_append, arraySegments, hin]
      by_cases hdot : c = '.'
      · subst hdot
        rw [List.splitOn_append_cons_self_of_not_mem hseg] at hsplit
        rw [if_pos (by simp)]
        cases init with
        | nil =>
            have hnil := (List.cons.inj hsplit).2
            exact absurd hnil (List.splitOn_ne_nil _ _)
        | cons s init =>
            obtain ⟨rfl, hrest⟩ := List.cons.inj hsplit
            rw [ih hleft.2 hright.2 List.not_mem_nil hrest]
            rfl
      · rw [if_neg (by simp [hdot]), if_neg (by simp)]
        refine ih hleft.2 hright.2 ?_ (by rwa [List.append_assoc, List.singleton_append])
        rw [List.mem_append, not_or, List.mem_singleton]
        exact ⟨hseg, Ne.symm hdot⟩

/-! ## Walking over keys -/

/-- The walker goes on where it came to. -/
theorem follow_append (pre post : List (List Char)) (curr : Value) :
    follow h (pre ++ post) curr = (follow h pre curr).bind (follow h post) := by
  induction pre generalizing curr with
  | nil => rfl
  | cons s pre ih =>
      rw [List.cons_append, follow, follow]
      by_cases hnil : curr = .nil
      · subst hnil
        rw [if_pos rfl, if_pos rfl, Option.bind_some]
        cases post with
        | nil => rfl
        | cons s' post => rw [follow, if_pos rfl]
      · rw [if_neg hnil, if_neg hnil]
        by_cases hblank : trimSpace s = []
        · rw [if_pos hblank, if_pos hblank, ih]
        · rw [if_neg hblank, if_neg hblank, Option.bind_assoc]
          congr 1
          funext v
          exact ih v

/-- From nothing the walker comes to nothing. -/
theorem follow_nil (segments : List (List Char)) : follow h segments .nil = some .nil := by
  cases segments with
  | nil => rfl
  | cons s rest => rw [follow, if_pos rfl]

theorem getLast?_ne_of_not_mem {c : Char} (hc : c ∉ cs) : cs.getLast? ≠ some c :=
  fun hlast => hc (List.mem_of_getLast? hlast)

/-- A segment without brackets is a key. -/
theorem child_key (hright : ']' ∉ cs) (curr : Value) :
    child h cs curr = some ((h.walk curr [String.ofList cs]).getD .nil) := by
  unfold child
  rw [if_neg (getLast?_ne_of_not_mem hright)]
  cases curr with
  | map r =>
      rw [Heap.walk_cons]
      cases hk : h.getKey r (String.ofList cs) <;> simp [hk]
  | _ => rfl

theorem walk_append (p q : List String) (curr : Value) :
    h.walk curr (p ++ q) = (h.walk curr p).bind fun v => h.walk v q := by
  induction p generalizing curr with
  | nil => simp
  | cons k p ih =>
      cases curr with
      | map r =>
          rw [List.cons_append, Heap.walk_cons, Heap.walk_cons, Option.bind_assoc]
          congr 1
          funext v
          exact ih v
      | _ => rfl

/-- Without an object there is nothing to walk to. -/
theorem getD_walk_nil (ks : List String) : (h.walk .nil ks).getD .nil = .nil := by
  cases ks <;> simp [Heap.walk]

/-- What the walker reads as keys: the pieces trimmed, without the blank ones. -/
def trimmedKeys (segments : List (List Char)) : List String :=
  ((segments.map trimSpace).filter (· ≠ [])).map String.ofList

theorem mem_of_mem_trimSpace {c : Char} (hc : c ∈ trimSpace cs) : c ∈ cs := by
  rw [trimSpace, List.mem_reverse] at hc
  have hrev := (List.dropWhile_sublist _).subset hc
  exact (List.dropWhile_sublist _).subset (List.mem_reverse.mp hrev)

/-- Along pieces without brackets the walker follows its keys. -/
theorem follow_pieces {segments : List (List Char)} (hright : ∀ s ∈ segments, ']' ∉ s)
    (curr : Value) :
    follow h segments curr = some ((h.walk curr (trimmedKeys segments)).getD .nil) := by
  induction segments generalizing curr with
  | nil => simp [follow, trimmedKeys]
  | cons s segments ih =>
      obtain ⟨hs, hright⟩ := List.forall_mem_cons.mp hright
      by_cases hnil : curr = .nil
      · rw [hnil, follow_nil, getD_walk_nil]
      · rw [follow, if_neg hnil]
        by_cases hblank : trimSpace s = []
        · rw [if_pos hblank, ih hright]
          simp [trimmedKeys, hblank]
        · have hkeys : trimmedKeys (s :: segments) =
              [String.ofList (trimSpace s)] ++ trimmedKeys segments := by
            simp [trimmedKeys, hblank]
          rw [if_neg hblank, child_key fun hmem => hs (mem_of_mem_trimSpace hmem),
            Option.bind_some, ih hright, hkeys, walk_append]
          cases h.walk curr [String.ofList (trimSpace s)] with
          | none => rw [Option.getD_none, getD_walk_nil, Option.bind_none, Option.getD_none]
          | some v => rfl

/-- Where a path starts to be read. -/
def rootValue (e : Event κ) : Root → Value
  | .payload => e.payload
  | .metadata => e.metadataValue

/-- A path with brackets is read by the walker. -/
theorem lookup_brackets (lib : Libs κ) (h : Heap) (e : Event κ) (root : Root)
    (hleft : '[' ∈ cs) (hright : ']' ∈ cs) :
    e.lookup lib h (String.ofList (root.name.toList ++ '.' :: cs)) =
      follow h (arraySegments cs false []) (e.rootValue root) := by
  have hmem : ∀ c ∈ cs, GoLib.contains (String.ofList (root.name.toList ++ '.' :: cs)) c = true := by
    intro c hc
    simp [GoLib.contains, hc]
  have hne : ∀ s : String, '[' ∉ s.toList → String.ofList (root.name.toList ++ '.' :: cs) ≠ s := by
    rintro s hs rfl
    exact hs (by simp [hleft])
  have hdrop : (String.ofList (root.name.toList ++ '.' :: cs)).toList.drop
      ((String.ofList (root.name.toList ++ '.' :: cs)).toList.idxOf '.') = '.' :: cs := by
    cases root <;> simp [Root.name, PAYLOAD, METADATA]
  have hfrom : ∀ obj, lookupFrom h (String.ofList (root.name.toList ++ '.' :: cs)) obj =
      follow h (arraySegments cs false []) obj := by
    intro obj
    unfold lookupFrom
    by_cases hnil : obj = .nil
    · rw [if_pos hnil, hnil, follow_nil]
    · rw [if_neg hnil, if_neg]
      · have hdot : hasPrefix (String.ofList (root.name.toList ++ '.' :: cs)) "." = false := by
          cases root <;> simp [Root.name, PAYLOAD, METADATA, hasPrefix] <;> rfl
        have hroot : (!hasPrefix (String.ofList (root.name.toList ++ '.' :: cs)) (PAYLOAD ++ ".") &&
            !hasPrefix (String.ofList (root.name.toList ++ '.' :: cs)) (METADATA ++ ".")) = false := by
          cases root <;> simp [Root.name, PAYLOAD, METADATA, hasPrefix]
        dsimp only
        rw [hdot, if_neg Bool.false_ne_true, hroot, if_neg Bool.false_ne_true,
          hmem _ hleft, hmem _ hright, Bool.and_self, if_pos rfl, hdrop, List.tail_cons]
      · rintro (heq | heq | heq | heq)
        · exact hne _ (by decide) heq
        · exact hne _ (by decide) heq
        · exact hne _ (by decide) heq
        · exact hne _ (by decide) heq
  unfold lookup
  rw [if_neg (hne _ (by decide)), if_neg (hne _ (by decide)), if_neg (hne _ (by decide)),
    if_neg (hne _ (by decide)), hfrom]
  congr 1
  have hmeta : (String.ofList (root.name.toList ++ '.' :: cs) == METADATA) = false :=
    beq_false_of_ne (hne _ (by decide))
  cases root with
  | payload =>
      rw [if_neg]
      · rfl
      · rw [hmeta]
        simp [Root.name, PAYLOAD, METADATA, hasPrefix]
  | metadata =>
      rw [if_pos]
      · rfl
      · simp [Root.name, METADATA, hasPrefix]

/-! ## The last step -/

/-- An element of an array; nothing for other values and for indexes out of range. -/
def elementOf (h : Heap) (i : ℕ) : Value → Value
  | .slice a => (h.slices a).getD i .nil
  | _ => .nil

/-- The text of an index picks the element with that index. -/
theorem value_pick_digits (hmax : h.Allocable) (a : Ref) (i : ℕ) :
    (pick h a (digits i)).value h a = some (elementOf h i (.slice a)) := by
  have heq : ¬ (digits i).contains '=' = true := by
    rw [List.contains_iff_mem]
    exact not_mem_digits (by decide)
  have hlen := hmax a
  have hmaxlt : Heap.maxSliceLen < 2 ^ 63 := by decide
  rw [pick, if_neg heq, atoi_digits, elementOf]
  by_cases hi : i < 2 ^ 63
  · rw [if_pos hi]
    dsimp only
    rw [if_neg (by omega)]
    by_cases hlt : i < (h.slices a).length
    · rw [if_pos (by simpa using hlt)]
      simp [Pick.value]
    · rw [if_neg (by simpa using hlt), List.getD_eq_default _ _ (by omega)]
      rfl
  · rw [if_neg hi, List.getD_eq_default _ _ (by omega)]
    rfl

theorem mem_dropWhile {c : Char} {p : Char → Bool} (hp : p c = false) (hc : c ∈ cs) :
    c ∈ cs.dropWhile p := by
  rw [← List.takeWhile_append_dropWhile (p := p) (l := cs), List.mem_append] at hc
  refine hc.resolve_left fun htake => ?_
  rw [List.mem_takeWhile_imp htake] at hp
  exact Bool.noConfusion hp

theorem mem_trimSpace {c : Char} (hspace : isSpace c = false) (hc : c ∈ cs) :
    c ∈ trimSpace cs := by
  rw [trimSpace, List.mem_reverse]
  exact mem_dropWhile hspace (List.mem_reverse.mpr (mem_dropWhile hspace hc))

/-- White space at the start is all that is trimmed from a segment with an index. -/
theorem trimSpace_index (cs ds : List Char) :
    trimSpace (cs ++ '[' :: (ds ++ [']'])) = cs.dropWhile isSpace ++ '[' :: (ds ++ [']']) := by
  have hleft : isSpace '[' = false := by decide
  have hright : isSpace ']' = false := by decide
  have hstart : (cs ++ '[' :: (ds ++ [']'])).dropWhile isSpace =
      cs.dropWhile isSpace ++ '[' :: (ds ++ [']']) := by
    rw [List.dropWhile_append]
    split
    · rename_i hnil
      rw [List.isEmpty_iff.mp hnil, List.dropWhile_cons_of_neg (by simp [hleft])]
      rfl
    · rfl
  rw [trimSpace, hstart]
  simp [hright]

/-- The parts of a segment with an index. -/
theorem segment_parts (hleft : '[' ∉ cs) (ds : List Char) :
    nameOf (cs ++ '[' :: (ds ++ [']'])) = cs ∧ indexOf (cs ++ '[' :: (ds ++ [']'])) = ds ∧
      '[' ∈ cs ++ '[' :: (ds ++ [']']) ∧ (cs ++ '[' :: (ds ++ [']'])).getLast? = some ']' := by
  have hidx : (cs ++ '[' :: (ds ++ [']'])).idxOf '[' = cs.length := by
    rw [List.idxOf_append_of_notMem hleft]
    simp
  have hdrop : (cs ++ '[' :: (ds ++ [']'])).dropLast = cs ++ '[' :: ds := by
    rw [show cs ++ '[' :: (ds ++ [']']) = (cs ++ '[' :: ds) ++ [']'] by simp,
      List.dropLast_concat]
  refine ⟨?_, ?_, by simp, ?_⟩
  · rw [nameOf, hidx, List.take_left]
  · rw [indexOf, hidx, hdrop]
    simp
  · rw [show cs ++ '[' :: (ds ++ [']']) = (cs ++ '[' :: ds) ++ [']'] by simp]
    exact List.getLast?_concat

/-- What the last step finds from a value: the array under the key of an object, and from an
array an element of its own, whatever the key. -/
def lastElement (h : Heap) (name : String) (i : ℕ) : Value → Value
  | .map r => elementOf h i ((h.getKey r name).getD .nil)
  | v => elementOf h i v

theorem follow_index (hmax : h.Allocable) (hleft : '[' ∉ cs) (i : ℕ) (curr : Value) :
    follow h [cs ++ '[' :: (digits i ++ [']'])] curr =
      some (lastElement h (String.ofList (cs.dropWhile isSpace)) i curr) := by
  have hdrop : '[' ∉ cs.dropWhile isSpace := fun hmem =>
    hleft ((List.dropWhile_sublist _).subset hmem)
  obtain ⟨hname, hindex, hmem, hlast⟩ := segment_parts hdrop (digits i)
  by_cases hnil : curr = .nil
  · rw [hnil, follow_nil]
    rfl
  have hend : ∀ found : Option Value, found.bind (follow h []) = found := by
    intro found
    cases found <;> rfl
  rw [follow, if_neg hnil, trimSpace_index, if_neg (by simp)]
  unfold child
  rw [if_pos hlast, hend]
  cases curr with
  | map r =>
      dsimp only [childElement, lastElement]
      rw [if_pos hmem, hname, hindex]
      cases h.getKey r (String.ofList (cs.dropWhile isSpace)) with
      | none => rfl
      | some u =>
          cases u with
          | slice a => exact value_pick_digits hmax a i
          | _ => rfl
  | slice a =>
      dsimp only [childElement, lastElement]
      rw [if_pos hmem, hindex, value_pick_digits hmax]
  | nilMap =>
      dsimp only [childElement, lastElement]
      rw [if_pos hmem]
      rfl
  | _ => rfl

/-! ## Plain paths with an index -/

/-- A path with an index behind it. -/
def indexedPath (path : String) (i : ℕ) : String := path ++ "[" ++ itoa i ++ "]"

/-- The text below the first dot of a plain path. -/
def plainText (keys : List String) : List Char :=
  ['.'].intercalate (keys.map fun k => escape k.toList)

theorem indexedPath_plainPath (root : Root) (hkeys : keys ≠ []) (i : ℕ) :
    indexedPath (plainPath root keys) i =
      String.ofList (root.name.toList ++ '.' :: (plainText keys ++ '[' :: (digits i ++ [']']))) := by
  obtain ⟨k, ks, rfl⟩ := List.exists_cons_of_ne_nil hkeys
  have hname : escape root.name.toList = root.name.toList := by cases root <;> decide
  apply String.toList_inj.mp
  unfold indexedPath plainPath plainText digits
  rw [List.map_cons, List.map_cons, List.intercalate_cons_cons, hname]
  simp

/-- The text of a plain path has dots, backslashes and characters of its keys. -/
theorem not_mem_plainText {c : Char} (hdot : c ≠ '.') (hback : c ≠ '\\')
    (hc : ∀ k ∈ keys, c ∉ k.toList) : c ∉ plainText keys := by
  intro hmem
  rcases mem_of_mem_intercalate hmem with rfl | ⟨s, hs, hmem⟩
  · exact hdot rfl
  · obtain ⟨k, hk, rfl⟩ := List.mem_map.mp hs
    rcases mem_of_mem_escape hmem with rfl | hmem
    · exact hback rfl
    · exact hc k hk hmem

theorem plainText_brackets (hkeys : PlainKeys keys) :
    '[' ∉ plainText keys ∧ ']' ∉ plainText keys :=
  ⟨not_mem_plainText (by decide) (by decide) fun k hk => (hkeys.plain k hk).bracketLeft,
    not_mem_plainText (by decide) (by decide) fun k hk => (hkeys.plain k hk).bracketRight⟩

/-- What the walker makes of a plain path with an index. -/
theorem lookup_indexedPath (lib : Libs κ) (h : Heap) (e : Event κ) (root : Root)
    (hkeys : PlainKeys keys) (i : ℕ)
    (hsplit : (plainText keys).splitOn '.' = init ++ [last]) :
    e.lookup lib h (indexedPath (plainPath root keys) i) =
      follow h (init ++ [last ++ '[' :: (digits i ++ [']'])]) (e.rootValue root) := by
  obtain ⟨hleft, hright⟩ := plainText_brackets hkeys
  rw [indexedPath_plainPath root hkeys.ne, lookup_brackets lib h e root (by simp) (by simp),
    arraySegments_index (not_mem_digits (by decide)) hleft hright List.not_mem_nil hsplit]

/-- Keys that the walker reads as `splitPath` does: no dots, and no white space where it trims. -/
structure CleanKeys (keys : List String) : Prop where
  noDot : ∀ k ∈ keys, '.' ∉ k.toList
  tight : ∀ k ∈ keys.dropLast, trimSpace k.toList = k.toList
  start : ∀ k ∈ keys.getLast?, k.toList.dropWhile isSpace = k.toList

/-- Access to an element agrees with plain access: it gives the element of the array that is found
at the path, and nothing when there is no such array or no such element. -/
def ArrayAccess (lib : Libs κ) (order : Finset String → List String) (h : Heap) (e : Event κ)
    (keys : List String) (i : ℕ) : Prop :=
  ∃ u, e.valueAt lib order h (plainPath .payload keys) = some u ∧
    e.valueAt lib order h (indexedPath (plainPath .payload keys) i) = some (elementOf h i u)

theorem plainText_split (hkeys : PlainKeys keys) (hdot : ∀ k ∈ keys, '.' ∉ k.toList) :
    (plainText keys).splitOn '.' = keys.map String.toList := by
  have hesc : (keys.map fun k => escape k.toList) = keys.map String.toList := by
    refine List.map_congr_left fun k hk => ?_
    have hno : ∀ c ∈ k.toList, c ≠ '.' := fun c hc hdot' => hdot k hk (hdot' ▸ hc)
    unfold escape
    rw [List.flatMap_congr fun c hc => if_neg (hno c hc)]
    simp
  rw [plainText, hesc]
  refine List.splitOn_intercalate _ ?_ (by simpa using hkeys.ne)
  intro s hs
  obtain ⟨k, hk, rfl⟩ := List.mem_map.mp hs
  exact hdot k hk

/-- The keys of the walker for a plain path: those that it follows, and the one in front of the
index. -/
def walkerKeys (keys : List String) : List String × String :=
  let pieces := (plainText keys).splitOn '.'
  (trimmedKeys pieces.dropLast, String.ofList ((pieces.getLastD []).dropWhile isSpace))

/-- The element of the array that the keys lead to; nothing without such an array or element. -/
def elementUnder (h : Heap) (v : Value) (keys : List String) (i : ℕ) : Value :=
  elementOf h i ((h.walk v keys).getD .nil)

/-- Where the keys of the walker lead, the payload has the element that it has where the keys of
the path lead.  In an array the key in front of the index does not count. -/
def SameElement (h : Heap) (v : Value) (keys : List String) (i : ℕ) : Prop :=
  match h.walk v (walkerKeys keys).1 with
  | some (.slice a) => (h.slices a).getD i .nil = elementUnder h v keys i
  | _ => (walkerKeys keys).1 ++ [(walkerKeys keys).2] = keys ∨
      elementUnder h v ((walkerKeys keys).1 ++ [(walkerKeys keys).2]) i = elementUnder h v keys i

/-- A piece is a part of the joined text. -/
theorem exists_eq_intercalate {s : List Char} {segments : List (List Char)} (hs : s ∈ segments) :
    ∃ A B, ['.'].intercalate segments = A ++ s ++ B := by
  induction segments with
  | nil => exact absurd hs List.not_mem_nil
  | cons s' segments ih =>
      cases segments with
      | nil =>
          obtain rfl := List.mem_singleton.mp hs
          exact ⟨[], [], by simp⟩
      | cons s'' segments =>
          rw [List.intercalate_cons_cons]
          rcases List.mem_cons.mp hs with rfl | hs
          · exact ⟨[], _, by rw [List.nil_append, List.append_assoc]⟩
          · obtain ⟨A, B, heq⟩ := ih hs
            exact ⟨s' ++ ['.'] ++ A, B, by rw [heq]; simp⟩

/-- A piece of the text of a plain path has no brackets. -/
theorem piece_brackets (hkeys : PlainKeys keys) {s : List Char}
    (hs : s ∈ (plainText keys).splitOn '.') : '[' ∉ s ∧ ']' ∉ s := by
  obtain ⟨A, B, htext⟩ := exists_eq_intercalate hs
  rw [List.intercalate_splitOn] at htext
  obtain ⟨hleft, hright⟩ := plainText_brackets hkeys
  rw [htext] at hleft hright
  constructor
  · exact fun hmem => hleft (List.mem_append_left _ (List.mem_append_right _ hmem))
  · exact fun hmem => hright (List.mem_append_left _ (List.mem_append_right _ hmem))

/-- The walker comes to a value along its keys and reads the element there. -/
theorem lookup_walker (lib : Libs κ) (hmax : h.Allocable) (e : Event κ) (hkeys : PlainKeys keys)
    (i : ℕ) : e.lookup lib h (indexedPath (plainPath .payload keys) i) =
      some (lastElement h (walkerKeys keys).2 i
        ((h.walk e.payload (walkerKeys keys).1).getD .nil)) := by
  obtain ⟨init, last, hsplit⟩ :=
    (List.eq_nil_or_concat' ((plainText keys).splitOn '.')).resolve_left (List.splitOn_ne_nil _ _)
  have hpieces : ∀ s ∈ init ++ [last], '[' ∉ s ∧ ']' ∉ s := fun s hs =>
    piece_brackets hkeys (hsplit ▸ hs)
  have hwalker : walkerKeys keys = (trimmedKeys init, String.ofList (last.dropWhile isSpace)) := by
    unfold walkerKeys
    rw [hsplit]
    simp
  rw [lookup_indexedPath lib h e .payload hkeys i hsplit, follow_append,
    follow_pieces fun s hs => (hpieces s (List.mem_append_left _ hs)).2, Option.bind_some,
    follow_index hmax (hpieces last (by simp)).1, hwalker]
  rfl

/-- What the last step finds: the element under the key, or in an array. -/
theorem lastElement_walk (h : Heap) (v : Value) (init : List String) (name : String) (i : ℕ) :
    lastElement h name i ((h.walk v init).getD .nil) =
      match h.walk v init with
      | some (.slice a) => (h.slices a).getD i .nil
      | _ => elementUnder h v (init ++ [name]) i := by
  unfold elementUnder
  rw [walk_append]
  cases hw : h.walk v init with
  | none => rfl
  | some u =>
      cases u with
      | map r =>
          rw [Option.getD_some, Option.bind_some, Heap.walk_cons]
          cases hk : h.getKey r name <;> simp [lastElement, hk]
      | _ => rfl

/-- Access to an element agrees with plain access exactly where the payload has the same element
for the keys of the walker. -/
theorem arrayAccess_iff_sameElement (lib : Libs κ) (order : Finset String → List String)
    (hmax : h.Allocable) (e : Event κ) (hkeys : PlainKeys keys) (i : ℕ) :
    ArrayAccess lib order h e keys i ↔ SameElement h e.payload keys i := by
  have hfind : e.find h .payload keys = h.walk e.payload keys := rfl
  unfold ArrayAccess SameElement
  simp only [valueAt_plainPath lib order h e hkeys, valueAt_eq, lookup_walker lib hmax e hkeys,
    Option.some.injEq, exists_eq_left', hfind]
  rw [lastElement_walk]
  split
  · exact Iff.rfl
  · refine ⟨Or.inr, fun h => h.elim (fun heq => ?_) id⟩
    rw [heq]
    rfl

/-- With clean keys the walker reads the keys of the path. -/
theorem walkerKeys_of_clean (hkeys : PlainKeys (ks ++ [k])) (hclean : CleanKeys (ks ++ [k])) :
    walkerKeys (ks ++ [k]) = (ks, k) := by
  have hsplit := plainText_split hkeys hclean.noDot
  rw [List.map_append, List.map_singleton] at hsplit
  have hstart : k.toList.dropWhile isSpace = k.toList := hclean.start k (by simp)
  have hks : trimmedKeys (ks.map String.toList) = ks := by
    have htight : ∀ k' ∈ ks, trimSpace k'.toList = k'.toList ∧ k'.toList ≠ [] := fun k' hk' =>
      ⟨hclean.tight k' (by simpa using hk'),
        fun hnil => (hkeys.plain k' (by simp [hk'])).ne (String.toList_inj.mp hnil)⟩
    have htrim : ks.map (trimSpace ∘ String.toList) = ks.map String.toList :=
      List.map_congr_left fun k' hk' => (htight k' hk').1
    unfold trimmedKeys
    rw [List.map_map, htrim, List.filter_eq_self.mpr]
    · simp
    · intro s hs
      obtain ⟨k', hk', rfl⟩ := List.mem_map.mp hs
      simpa using (htight k' hk').2
  unfold walkerKeys
  rw [hsplit]
  simp [hks, hstart]

/-- With clean keys only an array in front of the last key makes a difference. -/
theorem sameElement_iff_of_clean (hkeys : PlainKeys keys) (hclean : CleanKeys keys) (h : Heap)
    (v : Value) (i : ℕ) : SameElement h v keys i ↔
      ∀ a, h.walk v keys.dropLast = some (.slice a) → (h.slices a).getD i .nil = .nil := by
  obtain ⟨ks, k, rfl⟩ := (List.eq_nil_or_concat' keys).resolve_left hkeys.ne
  unfold SameElement elementUnder
  rw [walkerKeys_of_clean hkeys hclean, List.dropLast_concat, walk_append]
  dsimp only
  split
  · rename_i a hw
    rw [hw]
    simp [Heap.walk, elementOf]
  · rename_i hw
    simpa using fun a ha => absurd ha (hw a)

/-! ## Other keys -/

/-- Objects inside each other along the keys, and an array of one element under the last key. -/
def chainHeap (keys : List String) : Heap where
  maps j :=
    match keys[j]? with
    | some k =>
        Finmap.singleton k (if j + 1 = keys.length then .slice keys.length else .map (j + 1))
    | none => ∅
  slices r := if r = keys.length then [.bool true] else []
  next := keys.length + 1

theorem chainHeap_getKey_of_eq {j : ℕ} (hk : keys[j]? = some k) :
    (chainHeap keys).getKey j k =
      some (if j + 1 = keys.length then .slice keys.length else .map (j + 1)) := by
  unfold Heap.getKey chainHeap
  dsimp only
  rw [hk]
  exact Finmap.lookup_singleton_eq

theorem chainHeap_getKey_of_ne {j : ℕ} (hk : keys[j]? ≠ some k) :
    (chainHeap keys).getKey j k = none := by
  unfold Heap.getKey chainHeap
  dsimp only
  split
  · rename_i k' hk'
    have hne : k ≠ k' := by
      rintro rfl
      exact hk hk'
    rw [Finmap.lookup_eq_none, Finmap.mem_singleton]
    exact hne
  · exact Finmap.lookup_empty k

theorem chainHeap_slices : (chainHeap keys).slices keys.length = [.bool true] := by
  simp [chainHeap]

theorem chainHeap_allocable (keys : List String) : (chainHeap keys).Allocable := by
  intro a
  have hmax : 1 ≤ Heap.maxSliceLen := by decide
  unfold chainHeap
  dsimp only
  split
  · exact hmax
  · exact Nat.zero_le _

/-- The keys lead to the array. -/
theorem chainHeap_walk {j : ℕ} (hj : j < keys.length) :
    (chainHeap keys).walk (.map j) (keys.drop j) = some (.slice keys.length) := by
  induction hn : keys.length - j generalizing j with
  | zero => omega
  | succ n ih =>
      have hget : keys[j]? = some keys[j] := List.getElem?_eq_getElem hj
      rw [List.drop_eq_getElem_cons hj, Heap.walk_cons, chainHeap_getKey_of_eq hget,
        Option.bind_some]
      by_cases hlast : j + 1 = keys.length
      · rw [if_pos hlast, hlast, List.drop_length, Heap.walk_nil]
      · rw [if_neg hlast]
        exact ih (by omega) (by omega)

/-- The walker finds the element of the chain only if it takes the keys as they are. -/
theorem clean_of_follow_chain {j m : ℕ} (hdrop : keys.drop m = ks ++ [k]) (hjm : j ≤ m)
    (hplain : ∀ k' ∈ ks ++ [k], PlainKey k')
    (hfollow : follow (chainHeap keys)
      (ks.map String.toList ++ [k.toList ++ '[' :: (digits 0 ++ [']'])]) (.map j) =
        some (.bool true)) :
    j = m ∧ (∀ k' ∈ ks, trimSpace k'.toList = k'.toList) ∧
      k.toList.dropWhile isSpace = k.toList := by
  induction ks generalizing j m with
  | nil =>
      have hlen : m + 1 = keys.length := by
        have hcount := congrArg List.length hdrop
        simp at hcount
        omega
      have hget : keys[m]? = some k := by
        rw [← List.head?_drop, hdrop]
        rfl
      rw [List.map_nil, List.nil_append, follow_index (chainHeap_allocable keys)
        (hplain k (by simp)).bracketLeft, Option.some.injEq] at hfollow
      by_cases hname : keys[j]? = some (String.ofList (k.toList.dropWhile isSpace))
      · rw [lastElement, chainHeap_getKey_of_eq hname] at hfollow
        by_cases hlast : j + 1 = keys.length
        · obtain rfl : j = m := by omega
          rw [hget, Option.some.injEq] at hname
          refine ⟨rfl, by simp, ?_⟩
          conv_rhs => rw [hname]
          rw [String.toList_ofList]
        · simp [hlast, elementOf] at hfollow
      · rw [lastElement, chainHeap_getKey_of_ne hname] at hfollow
        simp [elementOf] at hfollow
  | cons k₀ ks ih =>
      have hlen : m + 1 < keys.length := by
        have hcount := congrArg List.length hdrop
        simp at hcount
        omega
      have hget : keys[m]? = some k₀ := by
        rw [← List.head?_drop, hdrop]
        rfl
      have hrest : keys.drop (m + 1) = ks ++ [k] := by
        rw [← List.tail_drop, hdrop]
        rfl
      rw [List.cons_append] at hplain
      obtain ⟨hplain₀, hplain⟩ := List.forall_mem_cons.mp hplain
      have hright : ']' ∉ trimSpace k₀.toList := fun hmem =>
        hplain₀.bracketRight (mem_of_mem_trimSpace hmem)
      rw [List.map_cons, List.cons_append, follow, if_neg (by simp)] at hfollow
      by_cases hblank : trimSpace k₀.toList = []
      · -- a blank key is skipped, and the walker stays behind
        rw [if_pos hblank] at hfollow
        have hbehind := (ih hrest (by omega) hplain hfollow).1
        omega
      · rw [if_neg hblank, child_key hright, Option.bind_some, Heap.walk_cons] at hfollow
        by_cases hname : keys[j]? = some (String.ofList (trimSpace k₀.toList))
        · rw [chainHeap_getKey_of_eq hname, if_neg (by omega)] at hfollow
          simp only [Option.bind_some, Heap.walk_nil, Option.getD_some] at hfollow
          obtain ⟨hj, htight, hstart⟩ := ih hrest (by omega) hplain hfollow
          obtain rfl : j = m := by omega
          rw [hget, Option.some.injEq] at hname
          refine ⟨rfl, List.forall_mem_cons.mpr ⟨?_, htight⟩, hstart⟩
          conv_rhs => rw [hname]
          rw [String.toList_ofList]
        · rw [chainHeap_getKey_of_ne hname] at hfollow
          simp [follow_nil] at hfollow

/-- In a text that ends with another character the last piece ends with it. -/
theorem splitOn_concat (sep : Char) {c : Char} (hc : c ≠ sep) (cs : List Char) :
    ∃ pre t, (cs ++ [c]).splitOn sep = pre ++ [t ++ [c]] := by
  induction cs with
  | nil => exact ⟨[], [], List.splitOn_eq_singleton (by simpa using Ne.symm hc)⟩
  | cons x cs ih =>
      obtain ⟨pre, t, heq⟩ := ih
      rw [List.cons_append, List.splitOn_cons_eq_if_modifyHead, heq]
      split
      · exact ⟨[] :: pre, t, rfl⟩
      · cases pre with
        | nil => exact ⟨[], x :: t, rfl⟩
        | cons s pre => exact ⟨(x :: s) :: pre, t, rfl⟩

/-- An escaped dot leaves a piece with a backslash before the last piece. -/
theorem exists_backslash_piece (hk : k ∈ keys) (hdot : '.' ∈ k.toList) :
    ∃ pre t post last, (plainText keys).splitOn '.' = pre ++ (t ++ ['\\']) :: (post ++ [last]) := by
  obtain ⟨u, w, hkey⟩ := List.append_of_mem hdot
  have hescape : ∃ A B, escape k.toList = A ++ '\\' :: '.' :: B := by
    rw [hkey]
    refine ⟨escape u, escape w, ?_⟩
    unfold escape
    rw [List.flatMap_append, List.flatMap_cons, if_pos rfl]
    rfl
  obtain ⟨A, B, hAB⟩ := hescape
  have htext : ∃ A B, plainText keys = A ++ '\\' :: '.' :: B := by
    obtain ⟨C, D, hCD⟩ := exists_eq_intercalate
      (List.mem_map_of_mem (f := fun k => escape k.toList) hk)
    refine ⟨C ++ A, B ++ D, ?_⟩
    rw [plainText, hCD, hAB]
    simp
  obtain ⟨A, B, htext⟩ := htext
  obtain ⟨pre, t, hpre⟩ := splitOn_concat '.' (c := '\\') (by decide) A
  obtain ⟨post, last, hpost⟩ :=
    (List.eq_nil_or_concat' (B.splitOn '.')).resolve_left (List.splitOn_ne_nil _ _)
  refine ⟨pre, t, post, last, ?_⟩
  rw [htext, show A ++ '\\' :: '.' :: B = (A ++ ['\\']) ++ '.' :: B by simp,
    List.splitOn_append_cons_self, hpre, hpost]
  simp

/-- A piece with a backslash is no key of the chain. -/
theorem follow_chain_backslash (hplain : ∀ k ∈ keys, PlainKey k) {t : List Char}
    (pre post : List (List Char)) (ht : '\\' ∈ t) (hright : ']' ∉ t)
    (curr : Value) :
    follow (chainHeap keys) (pre ++ t :: post) curr ≠ some (.bool true) := by
  have hkeep : '\\' ∈ trimSpace t := mem_trimSpace (by decide) ht
  have hne : trimSpace t ≠ [] := List.ne_nil_of_mem hkeep
  have hchild : ∀ v, child (chainHeap keys) (trimSpace t) v = some .nil := by
    intro v
    rw [child_key fun hmem => hright (mem_of_mem_trimSpace hmem)]
    cases v with
    | map r =>
        rw [Heap.walk_cons, chainHeap_getKey_of_ne]
        · rfl
        · intro hget
          have hback := (hplain _ (List.mem_of_getElem? hget)).backslash
          rw [String.toList_ofList] at hback
          exact hback hkeep
    | _ => rfl
  rw [follow_append]
  cases follow (chainHeap keys) pre curr with
  | none => simp
  | some v =>
      rw [Option.bind_some, follow, if_neg hne, hchild, Option.bind_some, follow_nil]
      split <;> simp

/-- With keys that are not clean there is a payload where access to an element goes wrong. -/
theorem not_arrayAccess_chain (lib : Libs κ) (order : Finset String → List String)
    (hkeys : PlainKeys keys) (hclean : ¬ CleanKeys keys) {e : Event κ} (he : e.payload = .map 0) :
    ¬ ArrayAccess lib order (chainHeap keys) e keys 0 := by
  rintro ⟨u, hu, hfound⟩
  have hpos : 0 < keys.length := List.length_pos_iff.mpr hkeys.ne
  have hfind : e.find (chainHeap keys) .payload keys = some (.slice keys.length) := by
    have hwalk := chainHeap_walk hpos
    rw [List.drop_zero] at hwalk
    rw [find, rootObject, he]
    exact hwalk
  rw [valueAt_plainPath lib order _ e hkeys, hfind, Option.getD_some, Option.some.injEq] at hu
  rw [← hu, elementOf, chainHeap_slices, valueAt_eq] at hfound
  by_cases hdot : ∃ k ∈ keys, '.' ∈ k.toList
  · obtain ⟨k, hk, hdot⟩ := hdot
    obtain ⟨pre, t, post, last, hsplit⟩ := exists_backslash_piece hk hdot
    rw [← List.cons_append, ← List.append_assoc] at hsplit
    rw [lookup_indexedPath lib _ e .payload hkeys 0 hsplit, List.append_assoc,
      List.cons_append] at hfound
    refine follow_chain_backslash hkeys.plain pre _ (by simp) ?_ _ hfound
    exact (piece_brackets hkeys (by rw [hsplit]; simp)).2
  · replace hdot : ∀ k ∈ keys, '.' ∉ k.toList := fun k hk hmem => hdot ⟨k, hk, hmem⟩
    obtain ⟨ks, k, rfl⟩ := (List.eq_nil_or_concat' keys).resolve_left hkeys.ne
    have hsplit := plainText_split hkeys hdot
    rw [List.map_append, List.map_singleton] at hsplit
    rw [lookup_indexedPath lib _ e .payload hkeys 0 hsplit] at hfound
    unfold rootValue at hfound
    rw [he] at hfound
    obtain ⟨-, htight, hstart⟩ := clean_of_follow_chain (j := 0) (m := 0) List.drop_zero le_rfl
      hkeys.plain hfound
    refine hclean ⟨hdot, ?_, ?_⟩
    · simpa using htight
    · simpa using hstart

/-- The chain as JSON. -/
def chainJson (keys : List String) : Json :=
  keys.foldr (fun k j => .obj [(k, j)]) (.arr [.bool true])

theorem chainHeap_represents {j : ℕ} (hj : j < keys.length) :
    (chainHeap keys).Represents (.map j) (chainJson (keys.drop j)) := by
  induction hn : keys.length - j generalizing j with
  | zero => omega
  | succ n ih =>
      have hget : keys[j]? = some keys[j] := List.getElem?_eq_getElem hj
      rw [List.drop_eq_getElem_cons hj]
      refine Heap.represents_obj.mpr ⟨j, rfl, by simp, fun key hkey => ?_, ?_⟩
      · by_contra hne
        refine hkey (chainHeap_getKey_of_ne ?_)
        rw [hget, ne_eq, Option.some.injEq]
        rintro rfl
        exact hne (by simp)
      · refine List.forall_mem_singleton.mpr ⟨_, chainHeap_getKey_of_eq hget, ?_⟩
        by_cases hlast : j + 1 = keys.length
        · rw [if_pos hlast, hlast, List.drop_length]
          refine Heap.represents_arr.mpr ⟨_, rfl, ?_⟩
          rw [chainHeap_slices]
          simp [Heap.Represents]
        · rw [if_neg hlast]
          exact ih (by omega) (by omega)

/-- **Array access agrees with plain access** exactly where the payload has, for the keys that
the walker reads, the element that it has for the keys of the path.  For clean keys that is where
the index does not fall into an array one key too early; for any other keys there is JSON for
which it is not so. -/
theorem array_access_iff (lib : Libs κ) (order : Finset String → List String)
    (hkeys : PlainKeys keys) :
    (∀ (h : Heap) (e : Event κ) (i : ℕ), h.Allocable →
      (ArrayAccess lib order h e keys i ↔ SameElement h e.payload keys i)) ∧
    (CleanKeys keys → ∀ (h : Heap) (v : Value) (i : ℕ),
      (SameElement h v keys i ↔
        ∀ a, h.walk v keys.dropLast = some (.slice a) → (h.slices a).getD i .nil = .nil)) ∧
    (¬ CleanKeys keys → ∃ h j, h.Allocable ∧ h.Represents (.map 0) j ∧
      ¬ SameElement h (.map 0) keys 0) := by
  have hpos : 0 < keys.length := List.length_pos_iff.mpr hkeys.ne
  refine ⟨fun h e i hmax => arrayAccess_iff_sameElement lib order hmax e hkeys i,
    fun hclean h v i => sameElement_iff_of_clean hkeys hclean h v i, fun hclean => ?_⟩
  refine ⟨chainHeap keys, chainJson keys, chainHeap_allocable keys, chainHeap_represents hpos, ?_⟩
  intro hsame
  have hevent := arrayAccess_iff_sameElement Libs.plain ascending (chainHeap_allocable keys)
    { sampleEvent none with payload := .map 0 } hkeys 0
  exact not_arrayAccess_chain Libs.plain ascending hkeys hclean rfl (hevent.mpr hsame)

instance (keys : List String) : Decidable (CleanKeys keys) :=
  decidable_of_iff
    ((∀ k ∈ keys, '.' ∉ k.toList) ∧ (∀ k ∈ keys.dropLast, trimSpace k.toList = k.toList) ∧
      ∀ k ∈ keys.getLast?, k.toList.dropWhile isSpace = k.toList)
    ⟨fun ⟨a, b, c⟩ => ⟨a, b, c⟩, fun h => ⟨h.noDot, h.tight, h.start⟩⟩

/-- In the payload `{"y": [true]}` there is nothing for the keys of the path, and nothing for
those of the walker, which are `x`, `a` and `b`. -/
theorem array_access_iff_sample :
    ArrayAccess Libs.plain ascending (chainHeap ["y"]) (sampleEvent none) ["x", " a", "b"] 0 := by
  have hkeys : PlainKeys ["x", " a", "b"] := by decide
  refine ((array_access_iff Libs.plain ascending hkeys).1 _ _ 0 (chainHeap_allocable _)).mpr ?_
  have hwalker : walkerKeys ["x", " a", "b"] = (["x", "a"], "b") := by decide +kernel
  have hnone : (chainHeap ["y"]).getKey 0 "x" = none := chainHeap_getKey_of_ne (by decide)
  simp [SameElement, elementUnder, hwalker, sampleEvent, Heap.walk, hnone]

/-- In the payload `{"a": [true]}` there is nothing at `payload.a.b`, but `payload.a.b[0]` is read
as `payload.a[0]`. -/
theorem array_access_wrong_key :
    PlainKeys ["a", "b"] ∧ (chainHeap ["a"]).Allocable ∧
      (chainHeap ["a"]).Represents (.map 0) (.obj [("a", .arr [.bool true])]) ∧
      ¬ ArrayAccess Libs.plain ascending (chainHeap ["a"]) (sampleEvent none) ["a", "b"] 0 := by
  refine ⟨by decide, chainHeap_allocable _, chainHeap_represents (by decide), ?_⟩
  have hplain : (sampleEvent none).valueAt Libs.plain ascending (chainHeap ["a"])
      (plainPath .payload ["a", "b"]) = some .nil := by decide +kernel
  have hindexed : (sampleEvent none).valueAt Libs.plain ascending (chainHeap ["a"])
      (indexedPath (plainPath .payload ["a", "b"]) 0) = some (.bool true) := by decide +kernel
  rintro ⟨u, hu, hfound⟩
  rw [hplain, Option.some.injEq] at hu
  rw [← hu, hindexed] at hfound
  simp [elementOf] at hfound

end Event
