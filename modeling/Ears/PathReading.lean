/-
# What paths read

`GetPathValue` only reads the heap.  `lookup` is the value it finds, as a function of the heap;
it has no value where the code panics (`reads_getPathValue`).

A path with brackets is read by a walker of its own, which cuts the text into segments, trims
them, and takes one step for each (`child`).  `Malformed` says at which segments it panics:
an object and a closing bracket without an opening one, or an array and a negative index.
-/
import Ears.PathLens

open GoLib

namespace GoLib

/-! ## Indexes as texts -/

/-- The text of an index, as `strconv.Itoa` writes it. -/
def digits (n : ℕ) : List Char := (itoa n).toList

variable {c : Char} {cs : List Char} {n : ℕ}

theorem digits_eq (n : ℕ) : digits n = Nat.toDigits 10 n := by
  have hrepr : itoa n = Nat.repr n := rfl
  rw [digits, hrepr, Nat.toList_repr]

theorem isDigit_of_mem_digits (hc : c ∈ digits n) : c.isDigit = true := by
  rw [digits_eq] at hc
  exact Nat.isDigit_of_mem_toDigits (by decide) (by decide) hc

theorem digits_ne_nil (n : ℕ) : digits n ≠ [] := by
  rw [digits_eq]
  exact Nat.toDigits_ne_nil

/-- A character that is no digit is not in the text of an index. -/
theorem not_mem_digits (hc : c.isDigit = false) : c ∉ digits n := by
  intro hmem
  rw [isDigit_of_mem_digits hmem] at hc
  exact Bool.noConfusion hc

theorem digitVal_of_isDigit (hc : c.isDigit = true) : digitVal c = some (c.toNat - '0'.toNat) := by
  have hrange : '0' ≤ c ∧ c ≤ '9' := by
    simpa [Char.isDigit, Char.le_def, UInt32.le_iff_toNat_le] using hc
  rw [digitVal, if_pos hrange]

/-- Digits are read up to the first overflow. -/
theorem parseUint_digits (hcs : ∀ c ∈ cs, c.isDigit = true) (n : ℕ) :
    parseUint cs n = .ok (Nat.ofDigitChars 10 cs n) ∨
      parseUint cs n = .error .errRange ∧ 2 ^ 64 ≤ Nat.ofDigitChars 10 cs n := by
  induction cs generalizing n with
  | nil => exact Or.inl (by rw [parseUint, Nat.ofDigitChars_nil])
  | cons c cs ih =>
      obtain ⟨hc, hcs⟩ := List.forall_mem_cons.mp hcs
      rw [parseUint, digitVal_of_isDigit hc, Nat.ofDigitChars_cons]
      dsimp only
      rw [Nat.mul_comm 10 n]
      by_cases hbig : 2 ^ 64 ≤ n * 10 + (c.toNat - '0'.toNat)
      · rw [if_pos hbig]
        refine Or.inr ⟨rfl, hbig.trans ?_⟩
        rw [Nat.ofDigitChars_eq_ofDigitChars_zero]
        exact (Nat.le_mul_of_pos_left _ (by positivity)).trans (Nat.le_add_right _ _)
      · rw [if_neg hbig]
        exact ih hcs _

/-- Reading back the text of an index: indexes from `2 ^ 63` on are refused. -/
theorem atoi_digits (n : ℕ) :
    atoi (digits n) = if n < 2 ^ 63 then (↑n, none) else (2 ^ 63 - 1, some .errRange) := by
  obtain ⟨c, cs, hcs⟩ := List.exists_cons_of_ne_nil (digits_ne_nil n)
  have hdigit : ∀ x ∈ c :: cs, x.isDigit = true := by
    rw [← hcs]
    exact fun x hx => isDigit_of_mem_digits hx
  have hval : Nat.ofDigitChars 10 (c :: cs) 0 = n := by
    rw [← hcs, digits_eq]
    exact Nat.ofDigitChars_ten_toDigits
  rw [hcs, atoi, splitSign_of_isDigit (hdigit c List.mem_cons_self)]
  dsimp only
  rw [if_neg (List.cons_ne_nil _ _)]
  rcases parseUint_digits hdigit 0 with hparse | ⟨hparse, hbig⟩
  · rw [hparse, hval]
    dsimp only
    rw [if_neg Bool.false_ne_true]
    by_cases hn : n < 2 ^ 63
    · rw [if_neg (by omega), if_pos hn]
    · rw [if_pos (by omega), if_neg hn]
  · have hn : ¬ n < 2 ^ 63 := by
      rw [hval] at hbig
      omega
    rw [hparse, if_neg hn]
    rfl

/-- No slice is longer than the runtime can make it. -/
def Heap.Allocable (h : Heap) : Prop := ∀ a, (h.slices a).length ≤ Heap.maxSliceLen

end GoLib

namespace Event

variable {κ : Type} {order : Finset String → List String} {h : Heap} {e : Event κ}

/-! ## One step with brackets -/

/-- The value is an object whose entry `k` is the text `v`. -/
def selects (h : Heap) (k v : String) : Value → Bool
  | .map m => h.getKey m k == some (.str v)
  | _ => false

/-- What the text between two brackets picks from an array. -/
inductive Pick where
  | nothing
  | panic
  | elem (i : ℕ)
  deriving DecidableEq, Repr

/-- The first element with an entry, or the element at an index. -/
def pick (h : Heap) (a : Ref) (idxStr : List Char) : Pick :=
  if idxStr.contains '=' then
    match split idxStr '=' with
    | [k, v] =>
        match (h.slices a).findIdx?
            (selects h (String.ofList (trimSpace k)) (String.ofList (trimSpace v))) with
        | some i => .elem i
        | none => .nothing
    | _ => .nothing
  else
    match atoi idxStr with
    | (_, some _) => .nothing
    | (idx, none) =>
        if idx < 0 then .panic
        else if idx.toNat < (h.slices a).length then .elem idx.toNat
        else .nothing

/-- The value that was picked; none for a panic. -/
def Pick.value (h : Heap) (a : Ref) : Pick → Option Value
  | .nothing => some .nil
  | .panic => none
  | .elem i => some ((h.slices a).getD i .nil)

/-- The text before the first opening bracket. -/
def nameOf (segment : List Char) : List Char := segment.take (segment.idxOf '[')

/-- The text after it, without the last character. -/
def indexOf (segment : List Char) : List Char := segment.dropLast.drop (segment.idxOf '[' + 1)

/-- One step of the walker for a segment that ends with a closing bracket. -/
def childElement (h : Heap) (segment : List Char) : Value → Option Value
  | .map r =>
      if '[' ∈ segment then
        match h.getKey r (String.ofList (nameOf segment)) with
        | some (.slice a) => (pick h a (indexOf segment)).value h a
        | _ => some .nil
      else none
  | .nilMap => if '[' ∈ segment then some .nil else none
  | .slice a =>
      (pick h a (if '[' ∈ segment then indexOf segment else segment.dropLast)).value h a
  | _ => some .nil

/-- One step of the walker. -/
def child (h : Heap) (segment : List Char) (curr : Value) : Option Value :=
  if segment.getLast? = some ']' then childElement h segment curr
  else
    match curr with
    | .map r => some ((h.getKey r (String.ofList segment)).getD .nil)
    | _ => some .nil

/-- The walk over the segments. -/
def follow (h : Heap) : List (List Char) → Value → Option Value
  | [], curr => some curr
  | s :: rest, curr =>
      if curr = .nil then some .nil
      else if trimSpace s = [] then follow h rest curr
      else (child h (trimSpace s) curr).bind (follow h rest)

/-- The value that `GetPathValue` finds once the object to start from is known. -/
def lookupFrom (h : Heap) (path : String) (obj : Value) : Option Value :=
  if obj = .nil then some .nil
  else if path = "" ∨ path = "." ∨ path = PAYLOAD ∨ path = METADATA then some obj
  else
    let path := if hasPrefix path "." then PAYLOAD ++ path else path
    if !hasPrefix path (PAYLOAD ++ ".") && !hasPrefix path (METADATA ++ ".") then some .nil
    else if contains path '[' && contains path ']' then
      follow h (arraySegments (path.toList.drop (path.toList.idxOf '.')).tail false []) obj
    else some ((h.walk obj (splitPath path).tail).getD .nil)

/-- The value that `GetPathValue` finds. -/
def lookup (lib : Libs κ) (h : Heap) (e : Event κ) (path : String) : Option Value :=
  if path = TRACE ++ ".id" then
    some (.str (if e.userTraceId ≠ "" then e.userTraceId else lib.traceId e.ctx))
  else if path = TENANT ++ ".appId" then some (.str e.tid.appId)
  else if path = TENANT ++ ".orgId" then some (.str e.tid.orgId)
  else if path = TIMESTAMP then some (.str lib.timestamp)
  else
    lookupFrom h path
      (if hasPrefix path (METADATA ++ ".") || path == METADATA then e.metadataValue else e.payload)

/-! ## The walker reads -/

/-- The program leaves the heap alone and finds this value. -/
def Reads (order : Finset String → List String) (h : Heap) (p : HeapProg Found)
    (found : Option Value) : Prop :=
  ∃ res, p.run (Heap.handle order) h = (res, h) ∧ res.map Prod.fst = found

theorem Reads.pure (found : Found) : Reads order h (pure found) (some found.1) :=
  ⟨some found, rfl, rfl⟩

theorem Reads.panic : Reads order h Prog.panic none := ⟨none, rfl, rfl⟩

/-- A read after a read. -/
theorem Reads.bind {p : HeapProg Found} {f : Found → HeapProg Found} {found : Option Value}
    {g : Value → Option Value} (hp : Reads order h p found)
    (hf : ∀ x, Reads order h (f x) (g x.1)) : Reads order h (p >>= f) (found.bind g) := by
  obtain ⟨res, hrun, rfl⟩ := hp
  cases res with
  | none =>
      refine ⟨none, ?_, rfl⟩
      rw [Prog.run_bind, hrun]
  | some x =>
      obtain ⟨res, hrun', hres⟩ := hf x
      refine ⟨res, ?_, hres⟩
      rw [Prog.run_bind_of_some _ _ hrun, hrun']

/-- Going on after an operation that reads. -/
theorem Reads.step {α : Type} {p : HeapProg α} {a : α} {f : α → HeapProg Found}
    {found : Option Value} (hp : p.run (Heap.handle order) h = (some a, h))
    (hf : Reads order h (f a) found) : Reads order h (p >>= f) found := by
  obtain ⟨res, hrun, hres⟩ := hf
  refine ⟨res, ?_, hres⟩
  rw [Prog.run_bind_of_some _ _ hp, hrun]

/-- The loop over the elements finds the first one with the entry. -/
theorem reads_selectElement (curr : Value) (key : String) (a : Ref) (k v : String) (is : List ℕ) :
    Reads order h (selectElement curr key a k v is)
      (some (((is.map fun i => (h.slices a).getD i .nil).find? (selects h k v)).getD .nil)) := by
  induction is with
  | nil => exact .pure notFound
  | cons i is ih =>
      rw [selectElement]
      refine .step (HeapProg.run_index order h a i) ?_
      generalize hu : (h.slices a).getD i .nil = u
      rw [List.map_cons, hu]
      cases u with
      | map m =>
          refine .step (HeapProg.run_getKey order h m k) ?_
          by_cases hkey : h.getKey m k = some (.str v)
          · rw [if_pos hkey, List.find?_cons_of_pos (by simp [selects, hkey])]
            exact .pure _
          · rw [if_neg hkey, List.find?_cons_of_neg (by simp [selects, hkey])]
            exact ih
      | _ =>
          rw [List.find?_cons_of_neg (by simp [selects])]
          exact ih

theorem map_getD_range {α : Type} (xs : List α) (d : α) :
    (List.range xs.length).map (fun i => xs.getD i d) = xs := by
  apply List.ext_getElem
  · simp
  · intro i hi hi'
    simp [List.getElem?_eq_getElem hi']

/-- Finding an element is finding where it is. -/
theorem find?_getD (xs : List Value) (p : Value → Bool) :
    (xs.find? p).getD .nil = ((xs.findIdx? p).map fun i => xs.getD i .nil).getD .nil := by
  induction xs with
  | nil => rfl
  | cons x xs ih =>
      by_cases hx : p x = true
      · rw [List.find?_cons_of_pos hx, List.findIdx?_cons, if_pos hx]
        rfl
      · rw [List.find?_cons_of_neg hx, List.findIdx?_cons, if_neg hx, ih]
        cases xs.findIdx? p <;> rfl

/-- The element that the text between the brackets picks. -/
theorem reads_elementAt (curr : Value) (key : String) (a : Ref) (idxStr : List Char) :
    Reads order h (elementAt curr key a idxStr) ((pick h a idxStr).value h a) := by
  unfold elementAt pick
  by_cases heq : idxStr.contains '='
  · rw [if_pos heq, if_pos heq]
    rcases split idxStr '=' with _ | ⟨k, _ | ⟨v, _ | ⟨w, rest⟩⟩⟩
    · exact .pure _
    · exact .pure _
    · refine .step (HeapProg.run_len order h a) ?_
      have hsel := @reads_selectElement order h curr key a
        (String.ofList (trimSpace k)) (String.ofList (trimSpace v))
        (List.range (h.slices a).length)
      rw [map_getD_range, find?_getD] at hsel
      dsimp only
      cases hfind : (h.slices a).findIdx?
          (selects h (String.ofList (trimSpace k)) (String.ofList (trimSpace v))) with
      | none =>
          rw [hfind] at hsel
          exact hsel
      | some i =>
          rw [hfind] at hsel
          exact hsel
    · exact .pure _
  · rw [if_neg heq, if_neg heq]
    rcases atoi idxStr with ⟨idx, _ | err⟩
    · refine .step (HeapProg.run_len order h a) ?_
      dsimp only
      by_cases hlen : ((h.slices a).length : ℤ) ≤ idx
      · rw [if_pos hlen, if_neg (by omega), if_neg (by omega)]
        exact .pure _
      · rw [if_neg hlen]
        by_cases hneg : idx < 0
        · rw [if_pos hneg, if_pos hneg]
          exact .panic
        · rw [if_neg hneg, if_neg hneg, if_pos (by omega)]
          exact .step (HeapProg.run_index order h a idx.toNat) (.pure _)
    · exact .pure _

/-- `getChildElement` takes one step. -/
theorem reads_getChildElement (curr : Value) (segment : List Char) :
    Reads order h (getChildElement curr segment) (child h segment curr) := by
  unfold getChildElement child
  by_cases hlast : segment.getLast? = some ']'
  · rw [if_neg (not_not.mpr hlast), if_pos hlast]
    cases curr with
    | map r =>
        dsimp only [childElement]
        by_cases hmem : '[' ∈ segment
        · rw [if_pos hmem, if_pos hmem]
          refine .step (HeapProg.run_getKey order h r _) ?_
          unfold nameOf
          cases h.getKey r (String.ofList (segment.take (segment.idxOf '['))) with
          | none => exact .pure _
          | some u =>
              cases u with
              | slice a => exact reads_elementAt _ _ a _
              | _ => exact .pure _
        · rw [if_neg hmem, if_neg hmem]
          exact .panic
    | nilMap =>
        dsimp only [childElement]
        by_cases hmem : '[' ∈ segment
        · rw [if_pos hmem, if_pos hmem]
          exact .pure _
        · rw [if_neg hmem, if_neg hmem]
          exact .panic
    | slice a => exact reads_elementAt _ _ a _
    | _ => exact .pure _
  · rw [if_pos hlast, if_neg hlast]
    cases curr with
    | map r => exact .step (HeapProg.run_getKey order h r _) (.pure _)
    | _ => exact .pure _

/-- `evalArrayPath` walks over the segments. -/
theorem reads_evalSegments (segments : List (List Char)) (found : Found) :
    Reads order h (evalSegments segments found) (follow h segments found.1) := by
  induction segments generalizing found with
  | nil => exact .pure found
  | cons s rest ih =>
      rw [evalSegments, follow]
      by_cases hnil : found.1 = .nil
      · rw [if_pos hnil, if_pos hnil]
        exact .pure _
      · rw [if_neg hnil, if_neg hnil]
        by_cases hblank : trimSpace s = []
        · rw [if_pos hblank, if_pos hblank]
          exact ih found
        · rw [if_neg hblank, if_neg hblank]
          exact (reads_getChildElement _ _).bind ih

theorem reads_getSegments (keys : List String) (obj parent : Value) (key : String) :
    Reads order h (getSegments keys obj parent key) (some ((h.walk obj keys).getD .nil)) := by
  induction keys generalizing obj parent key with
  | nil =>
      rw [Heap.walk_nil]
      exact .pure _
  | cons s keys ih =>
      cases obj with
      | map r =>
          rw [getSegments]
          refine .step (HeapProg.run_getKey order h r s) ?_
          cases hs : h.getKey r s with
          | none =>
              rw [Heap.walk_cons_of_none hs]
              exact .pure _
          | some u =>
              rw [Heap.walk_cons_of_some hs]
              exact ih u _ _
      | _ => exact .pure _

/-- `GetPathValue` reads: its value is a function of the heap. -/
theorem reads_getPathValue (lib : Libs κ) (order : Finset String → List String) (h : Heap)
    (e : Event κ) (path : String) :
    Reads order h (e.getPathValue lib path) (e.lookup lib h path) := by
  have hfrom : ∀ obj, Reads order h (getPathFrom path obj) (lookupFrom h path obj) := by
    intro obj
    unfold getPathFrom lookupFrom
    by_cases hnil : obj = .nil
    · rw [if_pos hnil, if_pos hnil]
      exact .pure _
    rw [if_neg hnil, if_neg hnil]
    by_cases hroot : path = "" ∨ path = "." ∨ path = PAYLOAD ∨ path = METADATA
    · rw [if_pos hroot, if_pos hroot]
      exact .pure _
    · rw [if_neg hroot, if_neg hroot]
      dsimp only
      generalize (if hasPrefix path "." = true then PAYLOAD ++ path else path) = path'
      split_ifs
      · exact .pure _
      · exact reads_evalSegments _ _
      · exact reads_getSegments _ _ _ _
  unfold getPathValue lookup
  by_cases hid : path = TRACE ++ ".id"
  · rw [if_pos hid, if_pos hid]
    exact .pure _
  rw [if_neg hid, if_neg hid]
  split_ifs
  · exact .pure _
  · exact .pure _
  · exact .pure _
  · exact hfrom _
  · exact hfrom _

theorem valueAt_eq (lib : Libs κ) (order : Finset String → List String) (h : Heap) (e : Event κ)
    (path : String) : e.valueAt lib order h path = e.lookup lib h path := by
  obtain ⟨res, hrun, hres⟩ := reads_getPathValue lib order h e path
  rw [valueAt, hrun, hres]

end Event
