/-
# Functions over shared maps and slices

A Go function that works on maps and slices is a program over the operations of the heap:
it reads and writes one key or one element at a time, so that other goroutines can run in
between.  `Heap.handle` runs such programs by themselves.

A program is `Scoped` when it reads only addresses it may read, and writes only its own, as
long as it finds no others: Go code cannot make up a reference.

The order in which `range` visits the keys of a map is not specified by the language; it is
the parameter `order`.
-/
import Ears.GoLib
import Ears.Programs

namespace GoLib

/-- The operations on maps and slices. -/
inductive HeapOp where
  | getKey (r : Ref) (key : String)
  | setKey (r : Ref) (key : String) (val : Value)
  | keys (r : Ref)
  | len (r : Ref)
  | index (r : Ref) (i : ℕ)
  | setIndex (r : Ref) (i : ℕ) (val : Value)
  | makeMap
  | makeSlice (vs : List Value)
  deriving DecidableEq, Repr

/-- The heap operations with what they return. -/
def heapSig : Signature where
  Op := HeapOp
  Res
    | .getKey _ _ => Option Value
    | .setKey _ _ _ => Unit
    | .keys _ => List String
    | .len _ => ℕ
    | .index _ _ => Value
    | .setIndex _ _ _ => Unit
    | .makeMap => Ref
    | .makeSlice _ => Ref

/-- A function over the heap. -/
abbrev HeapProg := Prog heapSig

namespace HeapProg

/-- `m[key]` with its flag. -/
def getKey (r : Ref) (key : String) : HeapProg (Option Value) :=
  Prog.perform (S := heapSig) (.getKey r key)

/-- `m[key] = val`. -/
def setKey (r : Ref) (key : String) (val : Value) : HeapProg Unit :=
  Prog.perform (S := heapSig) (.setKey r key val)

/-- The keys of a map, in the order of a `range` over it. -/
def keys (r : Ref) : HeapProg (List String) := Prog.perform (S := heapSig) (.keys r)

/-- `len(s)`. -/
def len (r : Ref) : HeapProg ℕ := Prog.perform (S := heapSig) (.len r)

/-- `s[i]`, for an index in range. -/
def index (r : Ref) (i : ℕ) : HeapProg Value := Prog.perform (S := heapSig) (.index r i)

/-- `s[i] = val`, for an index in range. -/
def setIndex (r : Ref) (i : ℕ) (val : Value) : HeapProg Unit :=
  Prog.perform (S := heapSig) (.setIndex r i val)

/-- `make(map[string]interface{})`. -/
def makeMap : HeapProg Ref := Prog.perform (S := heapSig) .makeMap

/-- A new slice with the given elements. -/
def makeSlice (vs : List Value) : HeapProg Ref := Prog.perform (S := heapSig) (.makeSlice vs)

/-- The elements of a slice, read one after the other. -/
def elems (r : Ref) : List ℕ → HeapProg (List Value)
  | [] => pure []
  | i :: is => do
      let v ← index r i
      let vs ← elems r is
      pure (v :: vs)

end HeapProg

/-- The operations on one heap, where new objects get the next free address. -/
def Heap.handle (order : Finset String → List String) : Handler heapSig Heap
  | .getKey r key, h => (h.getKey r key, h)
  | .setKey r key val, h => ((), h.setKey r key val)
  | .keys r, h => (order (h.maps r).keys, h)
  | .len r, h => ((h.slices r).length, h)
  | .index r i, h => ((h.slices r).getD i .nil, h)
  | .setIndex r i val, h => ((), h.setIndex r i val)
  | .makeMap, h => (h.makeMap.2, h.makeMap.1)
  | .makeSlice vs, h => ((h.makeSlice vs).2, (h.makeSlice vs).1)

namespace HeapProg

variable (order : Finset String → List String) (h : Heap) (r : Ref)

/-- Reading a key leaves the heap as it is. -/
@[simp] theorem run_getKey (key : String) :
    (getKey r key).run (Heap.handle order) h = (some (h.getKey r key), h) := rfl

/-- Writing a key. -/
@[simp] theorem run_setKey (key : String) (val : Value) :
    (setKey r key val).run (Heap.handle order) h = (some (), h.setKey r key val) := rfl

/-- Reading a length leaves the heap as it is. -/
@[simp] theorem run_len :
    (len r).run (Heap.handle order) h = (some (h.slices r).length, h) := rfl

/-- Reading an element leaves the heap as it is. -/
@[simp] theorem run_index (i : ℕ) :
    (index r i).run (Heap.handle order) h = (some ((h.slices r).getD i .nil), h) := rfl

/-- Writing an element. -/
@[simp] theorem run_setIndex (i : ℕ) (val : Value) :
    (setIndex r i val).run (Heap.handle order) h = (some (), h.setIndex r i val) := rfl

/-- A new map. -/
@[simp] theorem run_makeMap :
    makeMap.run (Heap.handle order) h = (some h.makeMap.2, h.makeMap.1) := rfl

/-- A new slice. -/
@[simp] theorem run_makeSlice (vs : List Value) :
    (makeSlice vs).run (Heap.handle order) h =
      (some (h.makeSlice vs).2, (h.makeSlice vs).1) := rfl

/-- The elements at a list of indices. -/
@[simp] theorem run_elems (is : List ℕ) :
    (elems r is).run (Heap.handle order) h =
      (some (is.map fun i => (h.slices r).getD i .nil), h) := by
  induction is with
  | nil => rfl
  | cons i is ih =>
      unfold elems
      rw [Prog.run_bind_of_some _ _ (run_index order h r i), Prog.run_bind_of_some _ _ ih]
      rfl

end HeapProg

/-! ## Scope -/

/-- The reference in a value is one of `A`. -/
def Value.In (A : Ref → Prop) : Value → Prop
  | .map r => A r
  | .slice r => A r
  | _ => True

/-- A larger set of addresses. -/
theorem Value.In.mono {A B : Ref → Prop} {v : Value} (h : v.In A) (hAB : ∀ r, A r → B r) :
    v.In B := by
  cases v with
  | map r => exact hAB r h
  | slice r => exact hAB r h
  | _ => trivial

/-- The zero value has no reference. -/
theorem Value.In.getD {A : Ref → Prop} {res : Option Value} (h : ∀ v ∈ res, v.In A) :
    (res.getD .nil).In A := by
  cases res with
  | none => trivial
  | some v => exact h v rfl

/-- The object at an address holds references of `A` only. -/
def Heap.HoldsIn (A : Ref → Prop) (h : Heap) (r : Ref) : Prop :=
  (∀ key, ∀ v ∈ h.getKey r key, v.In A) ∧ ∀ v ∈ h.slices r, v.In A

namespace Heap.HoldsIn

variable {A B : Ref → Prop} {h h' : Heap} {r : Ref}

/-- A larger set of addresses. -/
theorem mono (hh : h.HoldsIn A r) (hAB : ∀ r, A r → B r) : h.HoldsIn B r :=
  ⟨fun key v hv => (hh.1 key v hv).mono hAB, fun v hv => (hh.2 v hv).mono hAB⟩

/-- It depends on the object at the address only. -/
theorem congr (hh : h.HoldsIn A r) (hmaps : h'.maps r = h.maps r)
    (hslices : h'.slices r = h.slices r) : h'.HoldsIn A r := by
  unfold HoldsIn Heap.getKey
  rw [hmaps, hslices]
  exact hh

/-- A write of a value of `A` to any map. -/
theorem setKey (hh : h.HoldsIn A r) (q : Ref) (key : String) {val : Value} (hval : val.In A) :
    (h.setKey q key val).HoldsIn A r := by
  refine ⟨fun k v hv => ?_, hh.2⟩
  unfold Heap.getKey Heap.setKey at hv
  by_cases hr : r = q
  · -- the map that is written: the value is the new one or an old one
    subst hr
    simp only [Function.update_self] at hv
    by_cases hk : k = key
    · subst hk
      rw [Finmap.lookup_insert, Option.mem_some_iff] at hv
      rw [← hv]
      exact hval
    · rw [Finmap.lookup_insert_of_ne _ hk] at hv
      exact hh.1 k v hv
  · simp only [Function.update_of_ne hr] at hv
    exact hh.1 k v hv

/-- A write of a value of `A` to any slice. -/
theorem setIndex (hh : h.HoldsIn A r) (q : Ref) (i : ℕ) {val : Value} (hval : val.In A) :
    (h.setIndex q i val).HoldsIn A r := by
  refine ⟨hh.1, fun v hv => ?_⟩
  unfold Heap.setIndex at hv
  by_cases hr : r = q
  · subst hr
    simp only [Function.update_self] at hv
    rcases List.mem_or_eq_of_mem_set hv with hv | rfl
    · exact hh.2 v hv
    · exact hval
  · simp only [Function.update_of_ne hr] at hv
    exact hh.2 v hv

end Heap.HoldsIn

/-- The addresses that a program may read, and those of them that are its own: there it
writes, and what it stores there is its own as well. -/
structure Scope where
  read : Ref → Prop
  own : Ref → Prop
  own_read : ∀ r, own r → read r

/-- The scope of a program that may write wherever it reads. -/
def Scope.all (A : Ref → Prop) : Scope where
  read := A
  own := A
  own_read _ h := h

/-- One of the two sets of a scope.  What is found in an object of the set is in it again. -/
class Scope.Reads (A : Scope) (B : Ref → Prop) : Prop where
  cases : B = A.read ∨ B = A.own

namespace Scope

variable {A : Scope} {B : Ref → Prop} {r : Ref} {v : Value}

instance (A : Scope) : A.Reads A.read := ⟨Or.inl rfl⟩

instance (A : Scope) : A.Reads A.own := ⟨Or.inr rfl⟩

/-- What a program owns it may read. -/
theorem own_in_read (h : v.In A.own) : v.In A.read := h.mono A.own_read

variable [A.Reads B]

theorem Reads.read (h : B r) : A.read r := by
  rcases Reads.cases (A := A) (B := B) with rfl | rfl
  · exact h
  · exact A.own_read r h

theorem Reads.of_own (h : A.own r) : B r := by
  rcases Reads.cases (A := A) (B := B) with rfl | rfl
  · exact A.own_read r h
  · exact h

/-- What is found in an object of the set. -/
theorem Reads.found (hr : B r) (hv : v.In A.read ∧ (A.own r → v.In A.own)) : v.In B := by
  rcases Reads.cases (A := A) (B := B) with rfl | rfl
  · exact hv.1
  · exact hv.2 hr

end Scope

/-- The operation reads what it may read, and writes what is its own into its own. -/
def HeapOp.Uses (A : Scope) : HeapOp → Prop
  | .getKey r _ => A.read r
  | .setKey r _ val => A.own r ∧ val.In A.own
  | .keys r => A.read r
  | .len r => A.read r
  | .index r _ => A.read r
  | .setIndex r _ val => A.own r ∧ val.In A.own
  | .makeMap => True
  | .makeSlice vs => ∀ v ∈ vs, v.In A.own

/-- The answer holds references that may be read, and own ones when it comes from an own
object; a new object is an own one. -/
def Answers (A : Scope) : (o : HeapOp) → heapSig.Res o → Prop
  | .getKey r _, res =>
      ∀ v ∈ (show Option Value from res), v.In A.read ∧ (A.own r → v.In A.own)
  | .setKey _ _ _, _ => True
  | .keys _, _ => True
  | .len _, _ => True
  | .index r _, v => Value.In A.read v ∧ (A.own r → Value.In A.own v)
  | .setIndex _ _ _, _ => True
  | .makeMap, r => A.own r
  | .makeSlice _, r => A.own r

/-- A program that stays in its scope, as long as what it finds is in there. -/
def Scoped {α : Type} (A : Scope) (Q : α → Prop) (p : HeapProg α) : Prop :=
  p.Safe (HeapOp.Uses A) (Answers A) Q

namespace Scoped

open HeapProg

variable {α β : Type} {A : Scope} {B : Ref → Prop} {Q : α → Prop} {R : β → Prop} {r : Ref}
  {v : Value}

theorem pure {a : α} (h : Q a) : Scoped A Q (Pure.pure a : HeapProg α) := h

theorem panic : Scoped A Q (Prog.panic : HeapProg α) := trivial

/-- The rule of consequence. -/
theorem mono {Q' : α → Prop} {p : HeapProg α} (h : Scoped A Q p) (hQ : ∀ a, Q a → Q' a) :
    Scoped A Q' p := Prog.Safe.mono h hQ

/-- The rule for sequences. -/
theorem bind {p : HeapProg α} {f : α → HeapProg β} (h : Scoped A Q p)
    (hf : ∀ a, Q a → Scoped A R (f a)) : Scoped A R (p >>= f) := Prog.Safe.bind h hf

section Read

variable [A.Reads B]

/-- A key is read. -/
theorem getKey (h : B r) (key : String) :
    Scoped A (fun res => ∀ v ∈ res, v.In B) (HeapProg.getKey r key) :=
  ⟨Scope.Reads.read h, fun _ hres v hv => Scope.Reads.found h (hres v hv)⟩

theorem keys (h : B r) : Scoped A (fun _ => True) (HeapProg.keys r) :=
  ⟨Scope.Reads.read h, fun _ _ => trivial⟩

theorem len (h : B r) : Scoped A (fun _ => True) (HeapProg.len r) :=
  ⟨Scope.Reads.read h, fun _ _ => trivial⟩

/-- An element is read. -/
theorem index (h : B r) (i : ℕ) : Scoped A (Value.In B) (HeapProg.index r i) :=
  ⟨Scope.Reads.read h, fun _ hres => Scope.Reads.found h hres⟩

/-- Elements are read one after the other. -/
theorem elems (h : B r) (is : List ℕ) :
    Scoped A (fun vs => ∀ v ∈ vs, v.In B) (HeapProg.elems r is) := by
  induction is with
  | nil => exact pure (by simp)
  | cons i is ih =>
      refine bind (index h i) fun v hv => bind ih fun vs hvs => pure ?_
      intro w hw
      rcases List.mem_cons.mp hw with rfl | hw
      · exact hv
      · exact hvs w hw

end Read

/-- An own value is written under a key of an own map. -/
theorem setKey (h : A.own r) (key : String) (hv : v.In A.own) :
    Scoped A (fun _ => True) (HeapProg.setKey r key v) := ⟨⟨h, hv⟩, fun _ _ => trivial⟩

/-- An own value is written into an own slice. -/
theorem setIndex (h : A.own r) (i : ℕ) (hv : v.In A.own) :
    Scoped A (fun _ => True) (HeapProg.setIndex r i v) := ⟨⟨h, hv⟩, fun _ _ => trivial⟩

theorem makeMap : Scoped A A.own HeapProg.makeMap := ⟨trivial, fun _ hres => hres⟩

/-- A slice made of own values. -/
theorem makeSlice {vs : List Value} (h : ∀ v ∈ vs, v.In A.own) :
    Scoped A A.own (HeapProg.makeSlice vs) := ⟨h, fun _ hres => hres⟩

end Scoped

end GoLib
