/-
# The comparison matcher (`pkg/filter/match/comparison/`)

A comparison is a list of entries that have to be equal and one of entries that must not be, joined
by `and` or by `or`; a comparison tree joins comparisons and further trees.  `Match` evaluates the
formula that a tree stands for (`ComparisonTree.value`), but not all of it: it stops at an entry or
a child that decides.  A path in an operand can panic, and then it matters which entries `Match` comes
to: `ComparisonTree.Safe` says that none of these panics, in any order of the entries of a map.
-/
import Ears.LibraryFilters
import Ears.PathReading

open GoLib

namespace ComparisonMatch

variable {κ : Type}

/-- An entry of a map: the key and the value are the operands. -/
abbrev Entry := String × Value

/-- `Comparison`, with the entries of its maps in the order of a `range` over them. -/
structure Comparison where
  equal : List (List Entry) := []
  notEqual : List (List Entry) := []
  deriving DecidableEq, Repr

/-- A pointer to a `ComparisonTreeNode`. -/
inductive ComparisonTree where
  | nil
  | node (logic : String) (comparison : Option Comparison) (childNodes : List ComparisonTree)

/-- `Matcher`. -/
structure Matcher where
  comparisonTree : ComparisonTree
  comparison : Option Comparison
  patternsLogic : String

/-- `strings.ToLower(logic) == "or"`; no other letters have `o` and `r` as lower case. -/
def isOr (logic : String) : Bool := logic.toList.map Char.toLower = ['o', 'r']

example : isOr "Or" = true ∧ isOr "and" = false ∧ isOr "" = false := by decide

/-- The comparison of the operands of an entry. -/
def entryEqual (lib : Libs κ) (evt : Event κ) (entry : Entry) : HeapProg Bool := do
  let aObj ← Mapping.resolve lib evt entry.2
  let bObj ← Mapping.resolve lib evt (.str entry.1)
  lib.deepEqual aObj bObj

/-- The loops over the entries of one list: they end with an answer, or with `foundOneEqual`. -/
def compareEntries (lib : Libs κ) (evt : Event κ) (equal andLogic : Bool) :
    List Entry → Bool → HeapProg (Bool ⊕ Bool)
  | [], foundOneEqual => pure (.inr foundOneEqual)
  | entry :: rest, foundOneEqual => do
      if (← entryEqual lib evt entry) = equal then
        if andLogic then compareEntries lib evt equal andLogic rest true
        else pure (.inl true)
      else if andLogic then pure (.inl false)
      else compareEntries lib evt equal andLogic rest foundOneEqual

/-- `compare(evt, cmp, logic)` with an event. -/
def compare (lib : Libs κ) (evt : Event κ) (cmp : Option Comparison) (logic : String) :
    HeapProg Bool :=
  match cmp with
  | none => pure true
  | some cmp => do
      match ← compareEntries lib evt true (!isOr logic) cmp.equal.flatten false with
      | .inl answer => pure answer
      | .inr foundOneEqual => do
          match ← compareEntries lib evt false (!isOr logic) cmp.notEqual.flatten
              foundOneEqual with
          | .inl answer => pure answer
          | .inr foundOneEqual =>
              pure (foundOneEqual || (cmp.equal.isEmpty && cmp.notEqual.isEmpty))

/-- `compResult` of a node: the comparison, when there is one. -/
def nodeComparison (lib : Libs κ) (evt : Event κ) (cmp : Option Comparison) (logic : String) :
    HeapProg Bool :=
  if cmp.isSome then compare lib evt cmp logic else pure (!isOr logic)

/-- The end of `traverseTree`. -/
def nodeResult (or : Bool) (comparison : Option Comparison) (childNodes : List ComparisonTree)
    (treeResult compResult : Bool) : Bool :=
  if childNodes.isEmpty then compResult
  else if comparison.isNone then treeResult
  else if or then treeResult || compResult
  else treeResult && compResult

mutual

/-- `traverseTree(evt, tree)`. -/
def traverseTree (lib : Libs κ) (evt : Event κ) : ComparisonTree → HeapProg Bool
  | .nil => pure true
  | .node logic comparison childNodes => do
      let treeResult ← traverseChildren lib evt (isOr logic) childNodes (!isOr logic)
      let compResult ← nodeComparison lib evt comparison logic
      pure (nodeResult (isOr logic) comparison childNodes treeResult compResult)

/-- The loop over the child nodes, with `treeResult`. -/
def traverseChildren (lib : Libs κ) (evt : Event κ) (or : Bool) :
    List ComparisonTree → Bool → HeapProg Bool
  | [], treeResult => pure treeResult
  | childNode :: rest, treeResult => do
      let treeResult ←
        if or then (if treeResult then pure true else traverseTree lib evt childNode)
        else (if treeResult then traverseTree lib evt childNode else pure false)
      traverseChildren lib evt or rest treeResult

end

/-- `Match(event)`; the matcher and the event may be nil. -/
def matchEvent (lib : Libs κ) (m : Option Matcher) (event : Option (Event κ)) : HeapProg Bool :=
  match m, event with
  | some m, some event =>
      if m.comparison.isSome then compare lib event m.comparison m.patternsLogic
      else traverseTree lib event m.comparisonTree
  | _, _ => pure false

/-- Induction over trees, with what is known of all child nodes. -/
@[elab_as_elim]
theorem ComparisonTree.tree_induction {P : ComparisonTree → Prop} (nil : P .nil)
    (node : ∀ logic comparison childNodes, (∀ t ∈ childNodes, P t) →
      P (.node logic comparison childNodes)) (t : ComparisonTree) : P t :=
  @ComparisonTree.rec P (fun ts => ∀ t ∈ ts, P t) nil (fun l c ts ih => node l c ts ih)
    (by simp) (fun _ _ ht hts => List.forall_mem_cons.mpr ⟨ht, hts⟩) t

/-! ## The formula of a tree -/

/-- The disjunction or the conjunction of truth values. -/
def combine (or : Bool) (bs : List Bool) : Bool := if or then bs.any id else bs.all id

/-- The truth value of a comparison: one of its entries holds, or all of them. -/
def Comparison.value (v : Entry → Bool) (or : Bool) (c : Comparison) : Bool :=
  combine or (c.equal.flatten.map (fun e => v e == true) ++
    c.notEqual.flatten.map fun e => v e == false)

mutual

/-- The truth value of the formula of a tree, given which entries have equal operands. -/
def ComparisonTree.value (v : Entry → Bool) : ComparisonTree → Bool
  | .nil => true
  | .node logic comparison childNodes =>
      combine (isOr logic) (ComparisonTree.values v childNodes ++
        comparison.toList.map (Comparison.value v (isOr logic)))

/-- The truth values of a list of trees. -/
def ComparisonTree.values (v : Entry → Bool) : List ComparisonTree → List Bool
  | [] => []
  | t :: ts => t.value v :: ComparisonTree.values v ts

end

/-- `equal` and `notEqual` exchanged. -/
def Comparison.swap (c : Comparison) : Comparison := ⟨c.notEqual, c.equal⟩

mutual

/-- The tree with `and` and `or` exchanged, and `equal` and `notEqual`. -/
def ComparisonTree.swap : ComparisonTree → ComparisonTree
  | .nil => .nil
  | .node logic comparison childNodes =>
      .node (if isOr logic then "and" else "or") (comparison.map Comparison.swap)
        (ComparisonTree.swapAll childNodes)

/-- All trees of a list exchanged. -/
def ComparisonTree.swapAll : List ComparisonTree → List ComparisonTree
  | [] => []
  | t :: ts => t.swap :: ComparisonTree.swapAll ts

end

/-- There is an entry, and no map is empty. -/
def Comparison.WellFormed (c : Comparison) : Prop :=
  (c.equal ≠ [] ∨ c.notEqual ≠ []) ∧ (∀ m ∈ c.equal, m ≠ []) ∧ ∀ m ∈ c.notEqual, m ≠ []

mutual

/-- There are no nil nodes, and all comparisons are well formed. -/
def ComparisonTree.WellFormed : ComparisonTree → Prop
  | .nil => False
  | .node _ comparison childNodes =>
      (∀ c ∈ comparison, c.WellFormed) ∧ ComparisonTree.AllWellFormed childNodes

/-- All trees of a list are well formed. -/
def ComparisonTree.AllWellFormed : List ComparisonTree → Prop
  | [] => True
  | t :: ts => t.WellFormed ∧ ComparisonTree.AllWellFormed ts

end

/-- The same maps with their entries in another order. -/
def Comparison.Reordered (c c' : Comparison) : Prop :=
  List.Forall₂ List.Perm c.equal c'.equal ∧ List.Forall₂ List.Perm c.notEqual c'.notEqual

mutual

/-- The same tree with the entries of its maps in another order. -/
def ComparisonTree.Reordered : ComparisonTree → ComparisonTree → Prop
  | .nil, t => t = .nil
  | .node logic comparison childNodes, t => ∃ comparison' childNodes',
      t = .node logic comparison' childNodes' ∧
      Option.Rel Comparison.Reordered comparison comparison' ∧
      ComparisonTree.AllReordered childNodes childNodes'

/-- The same trees with the entries of their maps in another order. -/
def ComparisonTree.AllReordered : List ComparisonTree → List ComparisonTree → Prop
  | [], ts => ts = []
  | t :: ts, us => ∃ t' ts', us = t' :: ts' ∧ t.Reordered t' ∧ ComparisonTree.AllReordered ts ts'

end

/-! ## What `Match` comes to -/

/-- An entry of the map ends the loop: under `or` one that holds, under `and` one that does not. -/
def settles (v : Entry → Bool) (equal or : Bool) (m : List Entry) : Bool :=
  m.any fun e => (v e == equal) == or

/-- All operands of an entry that is come to are found, in any order of the entries of a map. -/
def SafeEntries (val : Entry → Option Bool) (equal or : Bool) : List (List Entry) → Prop
  | [] => True
  | m :: ms => (∀ e ∈ m, val e ≠ none) ∧
      (settles (fun e => (val e).getD false) equal or m = false → SafeEntries val equal or ms)

/-- The unequal entries are come to when the equal ones do not decide. -/
def Comparison.Safe (val : Entry → Option Bool) (or : Bool) (c : Comparison) : Prop :=
  SafeEntries val true or c.equal ∧
    (settles (fun e => (val e).getD false) true or c.equal.flatten = false →
      SafeEntries val false or c.notEqual)

mutual

/-- No entry that `traverseTree` comes to panics.  It comes to every comparison of a node, but to a
child node only when none before it decides. -/
def ComparisonTree.Safe (val : Entry → Option Bool) : ComparisonTree → Prop
  | .nil => True
  | .node logic comparison childNodes =>
      ComparisonTree.SafeChildren val (isOr logic) childNodes ∧
        ∀ c ∈ comparison, c.Safe val (isOr logic)

/-- No entry that the loop over child nodes comes to panics. -/
def ComparisonTree.SafeChildren (val : Entry → Option Bool) (or : Bool) :
    List ComparisonTree → Prop
  | [] => True
  | t :: ts => t.Safe val ∧
      (t.value (fun e => (val e).getD false) ≠ or → ComparisonTree.SafeChildren val or ts)

end

/-! ## The formula does not depend on the order -/

variable {v : Entry → Bool} {val : Entry → Option Bool} {equal or : Bool} {c c' : Comparison}
  {t t' : ComparisonTree} {ts ts' : List ComparisonTree} {bs bs' : List Bool}

/-- A truth value that decides is the result, else its opposite. -/
theorem combine_eq (or : Bool) (bs : List Bool) :
    combine or bs = if or ∈ bs then or else !or := by
  cases or with
  | true =>
      by_cases hmem : true ∈ bs
      · simp [combine, hmem]
      · simp [combine, hmem]
  | false =>
      by_cases hmem : false ∈ bs
      · simp [combine, hmem]
      · simp only [combine, hmem, Bool.false_eq_true, if_false]
        simpa using hmem

theorem combine_congr (hmem : ∀ b, b ∈ bs ↔ b ∈ bs') : combine or bs = combine or bs' := by
  rw [combine_eq, combine_eq]
  simp only [hmem]

/-- De Morgan's laws. -/
theorem combine_not (or : Bool) (bs : List Bool) :
    combine (!or) (bs.map (!·)) = !combine or bs := by
  have hmem : (!or) ∈ bs.map (!·) ↔ or ∈ bs := by simp
  rw [combine_eq, combine_eq]
  simp only [hmem]
  split <;> rfl

theorem combine_cons (or b : Bool) (bs : List Bool) :
    combine or (b :: bs) = if b = or then or else combine or bs := by
  cases or <;> cases b <;> simp [combine]

theorem combine_append (or : Bool) (bs bs' : List Bool) :
    combine or (bs ++ bs') = combine or [combine or bs, combine or bs'] := by
  cases or <;> simp [combine]

/-- Some truth value of the map decides. -/
theorem settles_iff (v : Entry → Bool) (equal or : Bool) (m : List Entry) :
    settles v equal or m = true ↔ or ∈ m.map fun e => v e == equal := by
  unfold settles
  simp [List.any_eq_true]

theorem perm_flatten {l l' : List (List Entry)} (hperm : List.Forall₂ List.Perm l l') :
    l.flatten.Perm l'.flatten := by
  induction hperm with
  | nil => exact .nil
  | cons hm _ ih =>
      rw [List.flatten_cons, List.flatten_cons]
      exact hm.append ih

theorem settles_perm {m m' : List Entry} (hperm : m.Perm m') :
    settles v equal or m = settles v equal or m' := by
  rw [Bool.eq_iff_iff, settles_iff, settles_iff]
  exact (hperm.map _).mem_iff

theorem Comparison.Reordered.value (hc : c.Reordered c') : c.value v or = c'.value v or := by
  refine combine_congr fun b => ?_
  exact (((perm_flatten hc.1).map _).append ((perm_flatten hc.2).map _)).mem_iff

theorem perm_ne_nil {l l' : List (List Entry)} (hperm : List.Forall₂ List.Perm l l')
    (hl : ∀ m ∈ l, m ≠ []) : ∀ m ∈ l', m ≠ [] := by
  induction hperm with
  | nil => exact hl
  | cons hm _ ih =>
      rw [List.forall_mem_cons] at hl ⊢
      exact ⟨fun hnil => hl.1 (hnil ▸ hm).eq_nil, ih hl.2⟩

theorem forall₂_ne_nil {l l' : List (List Entry)} (hperm : List.Forall₂ List.Perm l l')
    (hl : l ≠ []) : l' ≠ [] := by
  cases hperm with
  | nil => exact absurd rfl hl
  | cons => exact List.cons_ne_nil _ _

theorem Comparison.Reordered.wellFormed (hc : c.Reordered c') (hwf : c.WellFormed) :
    c'.WellFormed :=
  ⟨hwf.1.imp (forall₂_ne_nil hc.1) (forall₂_ne_nil hc.2), perm_ne_nil hc.1 hwf.2.1,
    perm_ne_nil hc.2 hwf.2.2⟩

theorem safeEntries_perm {l l' : List (List Entry)} (hperm : List.Forall₂ List.Perm l l')
    (hl : SafeEntries val equal or l) : SafeEntries val equal or l' := by
  induction hperm with
  | nil => trivial
  | cons hm _ ih =>
      refine ⟨fun e he => hl.1 e (hm.mem_iff.mpr he), fun hsettles => ih (hl.2 ?_)⟩
      rwa [settles_perm hm]

theorem Comparison.Reordered.safe (hc : c.Reordered c') (hsafe : c.Safe val or) :
    c'.Safe val or := by
  refine ⟨safeEntries_perm hc.1 hsafe.1, fun hsettles => safeEntries_perm hc.2 (hsafe.2 ?_)⟩
  rwa [settles_perm (perm_flatten hc.1)]

theorem Comparison.Reordered.refl (c : Comparison) : c.Reordered c :=
  ⟨List.forall₂_same.mpr fun m _ => .refl m, List.forall₂_same.mpr fun m _ => .refl m⟩

namespace ComparisonTree

theorem allReordered_iff :
    AllReordered ts ts' ↔ List.Forall₂ ComparisonTree.Reordered ts ts' := by
  induction ts generalizing ts' with
  | nil => simp [AllReordered]
  | cons t ts ih =>
      simp only [AllReordered, ih, List.forall₂_cons_left_iff]
      constructor
      · rintro ⟨t', rest, rfl, ht, hts⟩
        exact ⟨t', rest, ht, hts, rfl⟩
      · rintro ⟨t', rest, ht, hts, rfl⟩
        exact ⟨t', rest, rfl, ht, hts⟩

theorem values_eq_map (v : Entry → Bool) (ts : List ComparisonTree) :
    values v ts = ts.map (ComparisonTree.value v) := by
  induction ts with
  | nil => rfl
  | cons t ts ih => rw [values, ih, List.map_cons]

theorem allWellFormed_iff : AllWellFormed ts ↔ ∀ t ∈ ts, t.WellFormed := by
  induction ts with
  | nil => simp [AllWellFormed]
  | cons t ts ih => simp [AllWellFormed, ih]

theorem swapAll_eq_map (ts : List ComparisonTree) : swapAll ts = ts.map swap := by
  induction ts with
  | nil => rfl
  | cons t ts ih => rw [swapAll, ih, List.map_cons]

theorem Reordered.refl (t : ComparisonTree) : t.Reordered t := by
  induction t using tree_induction with
  | nil => rfl
  | node logic comparison childNodes ih =>
      refine ⟨comparison, childNodes, rfl, ?_, allReordered_iff.mpr (List.forall₂_same.mpr ih)⟩
      cases comparison with
      | none => exact .none
      | some c => exact .some (.refl c)

/-- The value of the formula does not depend on the order of the entries. -/
theorem Reordered.value (ht : t.Reordered t') (v : Entry → Bool) : t.value v = t'.value v := by
  induction t using tree_induction generalizing t' with
  | nil =>
      rw [Reordered] at ht
      rw [ht]
  | node logic comparison childNodes ih =>
      obtain ⟨comparison', childNodes', rfl, hcomp, hchildren⟩ := ht
      have hvalues : values v childNodes = values v childNodes' := by
        have hall := allReordered_iff.mp hchildren
        clear hchildren
        induction hall with
        | nil => rfl
        | cons hhead _ ihtail =>
            rw [List.forall_mem_cons] at ih
            rw [ComparisonTree.values, ComparisonTree.values, ih.1 hhead, ihtail ih.2]
      have hcomparison : comparison.toList.map (Comparison.value v (isOr logic)) =
          comparison'.toList.map (Comparison.value v (isOr logic)) := by
        cases hcomp with
        | none => rfl
        | some hc => simp [hc.value]
      rw [ComparisonTree.value, ComparisonTree.value, hvalues, hcomparison]

theorem Reordered.wellFormed (ht : t.Reordered t') (hwf : t.WellFormed) : t'.WellFormed := by
  induction t using tree_induction generalizing t' with
  | nil => exact absurd hwf id
  | node logic comparison childNodes ih =>
      obtain ⟨comparison', childNodes', rfl, hcomp, hchildren⟩ := ht
      refine ⟨fun c' hc' => ?_, ?_⟩
      · cases hcomp with
        | none => exact nomatch hc'
        | some hc =>
            obtain rfl := Option.some.inj hc'
            exact hc.wellFormed (hwf.1 _ rfl)
      · have hchild := hwf.2
        have hall := allReordered_iff.mp hchildren
        clear hchildren hwf
        induction hall with
        | nil => trivial
        | cons hhead _ ihtail =>
            rw [List.forall_mem_cons] at ih
            exact ⟨ih.1 hhead hchild.1, ihtail ih.2 hchild.2⟩

theorem Reordered.safe (ht : t.Reordered t') (hsafe : t.Safe val) : t'.Safe val := by
  induction t using tree_induction generalizing t' with
  | nil =>
      rw [Reordered] at ht
      rw [ht]
      trivial
  | node logic comparison childNodes ih =>
      obtain ⟨comparison', childNodes', rfl, hcomp, hchildren⟩ := ht
      refine ⟨?_, fun c' hc' => ?_⟩
      · have hchild := hsafe.1
        have hall := allReordered_iff.mp hchildren
        clear hchildren hsafe
        induction hall with
        | nil => trivial
        | cons hhead _ ihtail =>
            rw [List.forall_mem_cons] at ih
            refine ⟨ih.1 hhead hchild.1, fun hne => ihtail ih.2 (hchild.2 ?_)⟩
            rwa [hhead.value]
      · cases hcomp with
        | none => exact nomatch hc'
        | some hc =>
            obtain rfl := Option.some.inj hc'
            exact hc.safe (hsafe.2 _ rfl)

end ComparisonTree

/-! ## What the program returns -/

section Run

variable {lib : Libs κ} {order : Finset String → List String} {h : Heap} {evt : Event κ}
  {m : List Entry} {ms : List (List Entry)}

/-- The program returns this and leaves the heap alone; without a value it panics. -/
def Returns {α : Type} (order : Finset String → List String) (h : Heap) (p : HeapProg α)
    (res : Option α) : Prop := p.run (Heap.handle order) h = (res, h)

/-- `val` says what comes of the comparison of the operands of each entry. -/
def Evaluates (lib : Libs κ) (order : Finset String → List String) (h : Heap) (evt : Event κ)
    (val : Entry → Option Bool) : Prop :=
  ∀ entry, Returns order h (entryEqual lib evt entry) (val entry)

/-- An entry whose comparison panics ends the loop. -/
theorem run_compareEntries_lost (hval : Evaluates lib order h evt val) {entry : Entry}
    (hlost : val entry = none) (andLogic : Bool) (rest : List Entry) (foundOneEqual : Bool) :
    Returns order h (compareEntries lib evt equal andLogic (entry :: rest) foundOneEqual) none := by
  have hentry := hval entry
  rw [hlost] at hentry
  unfold Returns compareEntries
  rw [Prog.run_bind_of_none _ _ hentry]

/-- One entry: it decides, or the loop goes on. -/
theorem run_compareEntries_cons (hval : Evaluates lib order h evt val) {entry : Entry} {b : Bool}
    (hb : val entry = some b) (rest : List Entry) (foundOneEqual : Bool) :
    (compareEntries lib evt equal (!or) (entry :: rest) foundOneEqual).run (Heap.handle order) h =
      if (b == equal) = or then (some (.inl or), h)
      else (compareEntries lib evt equal (!or) rest (foundOneEqual || !or)).run
        (Heap.handle order) h := by
  have hentry : (entryEqual lib evt entry).run (Heap.handle order) h = (some b, h) :=
    hb ▸ hval entry
  rw [compareEntries, Prog.run_bind_of_some _ _ hentry]
  by_cases heq : b = equal
  · rw [if_pos heq, beq_iff_eq.mpr heq]
    cases or with
    | true => rfl
    | false => simp
  · rw [if_neg heq, beq_false_of_ne heq]
    cases or with
    | true => simp
    | false => rfl

theorem settles_cons (entry : Entry) (m : List Entry) :
    settles v equal or (entry :: m) = (((v entry == equal) == or) || settles v equal or m) := by
  rw [settles, List.any_cons, settles]

/-- A map with an entry that decides ends the loop. -/
theorem run_compareEntries_settled (hval : Evaluates lib order h evt val)
    (hm : ∀ e ∈ m, val e ≠ none)
    (hsettles : settles (fun e => (val e).getD false) equal or m = true)
    (rest : List Entry) (foundOneEqual : Bool) :
    Returns order h (compareEntries lib evt equal (!or) (m ++ rest) foundOneEqual)
      (some (.inl or)) := by
  induction m generalizing foundOneEqual with
  | nil => exact nomatch hsettles
  | cons e m ih =>
      rw [List.forall_mem_cons] at hm
      obtain ⟨b, hb⟩ := Option.ne_none_iff_exists'.mp hm.1
      unfold Returns
      rw [List.cons_append, run_compareEntries_cons hval hb]
      split
      · rfl
      · rename_i hne
        rw [settles_cons, hb, Option.getD_some, beq_false_of_ne hne, Bool.false_or] at hsettles
        exact ih hm.2 hsettles _

/-- After a map without such an entry the loop goes on. -/
theorem run_compareEntries_open (hval : Evaluates lib order h evt val)
    (hm : ∀ e ∈ m, val e ≠ none)
    (hsettles : settles (fun e => (val e).getD false) equal or m = false) (rest : List Entry)
    (foundOneEqual : Bool) :
    (compareEntries lib evt equal (!or) (m ++ rest) foundOneEqual).run (Heap.handle order) h =
      (compareEntries lib evt equal (!or) rest (foundOneEqual || (!or && !m.isEmpty))).run
        (Heap.handle order) h := by
  induction m generalizing foundOneEqual with
  | nil => simp
  | cons e m ih =>
      rw [List.forall_mem_cons] at hm
      obtain ⟨b, hb⟩ := Option.ne_none_iff_exists'.mp hm.1
      rw [settles_cons, hb, Option.getD_some, Bool.or_eq_false_iff] at hsettles
      rw [List.cons_append, run_compareEntries_cons hval hb,
        if_neg (beq_eq_false_iff_ne.mp hsettles.1), ih hm.2 hsettles.2]
      congr 2
      cases or <;> simp

/-- The loops over maps whose entries can be compared as far as they are come to. -/
theorem run_compareEntries (hval : Evaluates lib order h evt val)
    (hsafe : SafeEntries val equal or ms) (foundOneEqual : Bool) :
    Returns order h (compareEntries lib evt equal (!or) ms.flatten foundOneEqual)
      (some (if settles (fun e => (val e).getD false) equal or ms.flatten then .inl or
        else .inr (foundOneEqual || (!or && !ms.flatten.isEmpty)))) := by
  induction ms generalizing foundOneEqual with
  | nil => simp [Returns, compareEntries, settles]
  | cons m ms ih =>
      have hflatten : settles (fun e => (val e).getD false) equal or (m :: ms).flatten =
          (settles (fun e => (val e).getD false) equal or m ||
            settles (fun e => (val e).getD false) equal or ms.flatten) := by
        rw [List.flatten_cons, settles, List.any_append, settles, settles]
      rw [hflatten, List.flatten_cons]
      cases hm : settles (fun e => (val e).getD false) equal or m with
      | true => exact run_compareEntries_settled hval hsafe.1 hm ms.flatten foundOneEqual
      | false =>
          have hempty : (m ++ ms.flatten).isEmpty = (m.isEmpty && ms.flatten.isEmpty) := by
            cases m <;> rfl
          unfold Returns
          rw [run_compareEntries_open hval hsafe.1 hm, ih (hsafe.2 hm), Bool.false_or,
            Bool.or_assoc, ← Bool.and_or_distrib_left, ← Bool.not_and, hempty]

/-- In some order of the entries the loops panic, when they can come to an entry that panics. -/
theorem compareEntries_panics (hval : Evaluates lib order h evt val)
    (hsafe : ¬ SafeEntries val equal or ms) (foundOneEqual : Bool) :
    ∃ ms', List.Forall₂ List.Perm ms ms' ∧
      Returns order h (compareEntries lib evt equal (!or) ms'.flatten foundOneEqual) none := by
  induction ms generalizing foundOneEqual with
  | nil => exact absurd trivial hsafe
  | cons m ms ih =>
      by_cases hm : ∀ e ∈ m, val e ≠ none
      · -- nothing decides before the maps that are left
        have hrest : ¬ (settles (fun e => (val e).getD false) equal or m = false →
            SafeEntries val equal or ms) := fun hrest => hsafe ⟨hm, hrest⟩
        rw [Classical.not_imp] at hrest
        obtain ⟨ms', hperm, hrun⟩ := ih hrest.2 (foundOneEqual || (!or && !m.isEmpty))
        refine ⟨m :: ms', .cons (.refl m) hperm, ?_⟩
        unfold Returns
        rw [List.flatten_cons, run_compareEntries_open hval hm hrest.1, hrun]
      · -- the entry that panics comes first
        push Not at hm
        obtain ⟨e, he, hlost⟩ := hm
        refine ⟨(e :: m.erase e) :: ms, .cons (List.perm_cons_erase he)
          (List.forall₂_same.mpr fun m _ => .refl m), ?_⟩
        exact run_compareEntries_lost hval hlost _ _ _

/-- The value of a comparison: an entry decides, or none does. -/
theorem Comparison.value_eq (c : Comparison) (v : Entry → Bool) (or : Bool) :
    c.value v or = if settles v true or c.equal.flatten || settles v false or c.notEqual.flatten
      then or else !or := by
  rw [Comparison.value, combine_eq]
  congr 1
  rw [List.mem_append, Bool.or_eq_true, settles_iff, settles_iff]

theorem flatten_ne_nil (hm : ∀ m ∈ ms, m ≠ []) (hms : ms ≠ []) : ms.flatten ≠ [] := by
  obtain ⟨m, rest, rfl⟩ := List.exists_cons_of_ne_nil hms
  rw [List.flatten_cons]
  exact List.append_ne_nil_of_left_ne_nil (hm m List.mem_cons_self) _

/-- A comparison returns its value. -/
theorem run_compare {logic : String} (hval : Evaluates lib order h evt val) (hwf : c.WellFormed)
    (hsafe : c.Safe val (isOr logic)) :
    Returns order h (compare lib evt (some c) logic)
      (some (c.value (fun e => (val e).getD false) (isOr logic))) := by
  have hequal := run_compareEntries hval hsafe.1 false
  unfold Returns at hequal ⊢
  unfold compare
  dsimp only
  rw [Prog.run_bind_of_some _ _ hequal, Comparison.value_eq]
  cases hs : settles (fun e => (val e).getD false) true (isOr logic) c.equal.flatten with
  | true => rfl
  | false =>
      have hnotEqual := run_compareEntries hval (hsafe.2 hs)
        (false || (!isOr logic && !c.equal.flatten.isEmpty))
      unfold Returns at hnotEqual
      simp only [Bool.false_eq_true, if_false, Bool.false_or] at hnotEqual ⊢
      rw [Prog.run_bind_of_some _ _ hnotEqual]
      cases settles (fun e => (val e).getD false) false (isOr logic) c.notEqual.flatten with
      | true => rfl
      | false =>
          -- one of the two lists has an entry
          have hentry : (!c.equal.flatten.isEmpty || !c.notEqual.flatten.isEmpty) = true := by
            simp only [Bool.or_eq_true, Bool.not_eq_true', List.isEmpty_eq_false_iff]
            exact hwf.1.imp (flatten_ne_nil hwf.2.1) (flatten_ne_nil hwf.2.2)
          have hlists : (c.equal.isEmpty && c.notEqual.isEmpty) = false := by
            rw [Bool.and_eq_false_iff, List.isEmpty_eq_false_iff, List.isEmpty_eq_false_iff]
            exact hwf.1
          simp only [Bool.false_eq_true, if_false]
          rw [← Bool.and_or_distrib_left, hentry, hlists, Bool.and_true, Bool.or_false]
          rfl

/-- In some order a comparison panics, when it can come to an entry that panics. -/
theorem compare_panics {logic : String} (hval : Evaluates lib order h evt val)
    (hsafe : ¬ c.Safe val (isOr logic)) :
    ∃ c', c.Reordered c' ∧ Returns order h (compare lib evt (some c') logic) none := by
  by_cases hequal : SafeEntries val true (isOr logic) c.equal
  · have hrest : ¬ (settles (fun e => (val e).getD false) true (isOr logic) c.equal.flatten =
        false → SafeEntries val false (isOr logic) c.notEqual) := fun hrest => hsafe ⟨hequal, hrest⟩
    rw [Classical.not_imp] at hrest
    have hrun := run_compareEntries hval hequal false
    obtain ⟨ms', hperm, hlost⟩ := compareEntries_panics hval hrest.2
      (false || (!isOr logic && !c.equal.flatten.isEmpty))
    refine ⟨⟨c.equal, ms'⟩, ⟨List.forall₂_same.mpr fun m _ => .refl m, hperm⟩, ?_⟩
    unfold Returns at hrun hlost ⊢
    rw [hrest.1] at hrun
    simp only [Bool.false_eq_true, if_false] at hrun
    unfold compare
    dsimp only
    rw [Prog.run_bind_of_some _ _ hrun]
    dsimp only
    rw [Prog.run_bind_of_none _ _ hlost]
  · obtain ⟨ms', hperm, hlost⟩ := compareEntries_panics hval hequal false
    refine ⟨⟨ms', c.notEqual⟩, ⟨hperm, List.forall₂_same.mpr fun m _ => .refl m⟩, ?_⟩
    unfold Returns at hlost ⊢
    unfold compare
    dsimp only
    rw [Prog.run_bind_of_none _ _ hlost]

/-- Once a child has decided no other one is evaluated. -/
theorem run_traverseChildren_decided (ts : List ComparisonTree) :
    Returns order h (traverseChildren lib evt or ts or) (some or) := by
  induction ts with
  | nil => rfl
  | cons t ts ih =>
      cases or with
      | true => exact ih
      | false => exact ih

/-- As long as no child has decided the next one is evaluated. -/
theorem run_traverseChildren_open (t : ComparisonTree) (ts : List ComparisonTree) :
    traverseChildren lib evt or (t :: ts) (!or) =
      traverseTree lib evt t >>= traverseChildren lib evt or ts := by
  cases or with
  | true => rfl
  | false => rfl

/-- The loop over child nodes returns the value of the children. -/
theorem run_traverseChildren
    (hrun : ∀ t ∈ ts, t.WellFormed → t.Safe val →
      Returns order h (traverseTree lib evt t) (some (t.value fun e => (val e).getD false)))
    (hwf : ComparisonTree.AllWellFormed ts) (hsafe : ComparisonTree.SafeChildren val or ts) :
    Returns order h (traverseChildren lib evt or ts (!or))
      (some (combine or (ComparisonTree.values (fun e => (val e).getD false) ts))) := by
  induction ts with
  | nil => cases or <;> rfl
  | cons t ts ih =>
      rw [List.forall_mem_cons] at hrun
      have hhead := hrun.1 hwf.1 hsafe.1
      unfold Returns at hhead ⊢
      rw [run_traverseChildren_open, Prog.run_bind_of_some _ _ hhead, ComparisonTree.values,
        combine_cons]
      by_cases hdecides : t.value (fun e => (val e).getD false) = or
      · rw [if_pos hdecides, hdecides]
        exact run_traverseChildren_decided ts
      · rw [if_neg hdecides, Bool.eq_not_of_ne hdecides]
        exact ih hrun.2 hwf.2 (hsafe.2 hdecides)

/-- **A tree returns the value of its formula.** -/
theorem run_traverseTree (hval : Evaluates lib order h evt val) (hwf : t.WellFormed)
    (hsafe : t.Safe val) :
    Returns order h (traverseTree lib evt t) (some (t.value fun e => (val e).getD false)) := by
  induction t using ComparisonTree.tree_induction with
  | nil => exact absurd hwf id
  | node logic comparison childNodes ih =>
      have hchildren := run_traverseChildren ih hwf.2 hsafe.1
      unfold Returns at hchildren ⊢
      rw [traverseTree, Prog.run_bind_of_some _ _ hchildren, ComparisonTree.value]
      cases comparison with
      | none =>
          have hnone : (nodeComparison lib evt none logic).run (Heap.handle order) h =
              (some (!isOr logic), h) := rfl
          rw [Prog.run_bind_of_some _ _ hnone, Prog.run_pure]
          cases childNodes with
          | nil => cases isOr logic <;> rfl
          | cons t ts => simp [nodeResult]
      | some c =>
          have hcompare : (nodeComparison lib evt (some c) logic).run (Heap.handle order) h =
              (some (c.value (fun e => (val e).getD false) (isOr logic)), h) :=
            run_compare hval (hwf.1 c rfl) (hsafe.2 c rfl)
          rw [Prog.run_bind_of_some _ _ hcompare, Prog.run_pure, combine_append]
          cases childNodes with
          | nil => cases isOr logic <;> simp [nodeResult, ComparisonTree.values, combine]
          | cons t ts => cases isOr logic <;> simp [nodeResult, combine]

/-- In some order the loop over child nodes panics, when it can come to an entry that panics. -/
theorem traverseChildren_panics (hval : Evaluates lib order h evt val)
    (hpanics : ∀ t ∈ ts, t.WellFormed → ¬ t.Safe val →
      ∃ t', t.Reordered t' ∧ Returns order h (traverseTree lib evt t') none)
    (hwf : ComparisonTree.AllWellFormed ts) (hsafe : ¬ ComparisonTree.SafeChildren val or ts) :
    ∃ ts', ComparisonTree.AllReordered ts ts' ∧
      Returns order h (traverseChildren lib evt or ts' (!or)) none := by
  induction ts with
  | nil => exact absurd trivial hsafe
  | cons t ts ih =>
      rw [List.forall_mem_cons] at hpanics
      by_cases hhead : t.Safe val
      · -- the first child does not decide, and the loop panics later
        have hrest : ¬ (t.value (fun e => (val e).getD false) ≠ or →
            ComparisonTree.SafeChildren val or ts) := fun hrest => hsafe ⟨hhead, hrest⟩
        rw [Classical.not_imp] at hrest
        obtain ⟨ts', hall, hlost⟩ := ih hpanics.2 hwf.2 hrest.2
        have hrun := run_traverseTree hval hwf.1 hhead
        refine ⟨t :: ts', ⟨t, ts', rfl, .refl t, hall⟩, ?_⟩
        unfold Returns at hrun hlost ⊢
        rw [run_traverseChildren_open, Prog.run_bind_of_some _ _ hrun,
          Bool.eq_not_of_ne hrest.1, hlost]
      · obtain ⟨t', ht, hlost⟩ := hpanics.1 hwf.1 hhead
        refine ⟨t' :: ts, ⟨t', ts, rfl, ht, ?_⟩, ?_⟩
        · exact ComparisonTree.allReordered_iff.mpr
            (List.forall₂_same.mpr fun u _ => .refl u)
        · unfold Returns at hlost ⊢
          rw [run_traverseChildren_open, Prog.run_bind_of_none _ _ hlost]

/-- **In some order a tree panics, when it can come to an entry that panics.** -/
theorem traverseTree_panics (hval : Evaluates lib order h evt val) (hwf : t.WellFormed)
    (hsafe : ¬ t.Safe val) :
    ∃ t', t.Reordered t' ∧ Returns order h (traverseTree lib evt t') none := by
  induction t using ComparisonTree.tree_induction with
  | nil => exact absurd hwf id
  | node logic comparison childNodes ih =>
      by_cases hchildren : ComparisonTree.SafeChildren val (isOr logic) childNodes
      · have hcomparison : ¬ ∀ c ∈ comparison, c.Safe val (isOr logic) :=
          fun hcomparison => hsafe ⟨hchildren, hcomparison⟩
        push Not at hcomparison
        obtain ⟨c, rfl, hc⟩ := hcomparison
        obtain ⟨c', hreordered, hlost⟩ := compare_panics hval hc
        have hrun := run_traverseChildren
          (fun t _ hwf hsafe => run_traverseTree hval hwf hsafe) hwf.2 hchildren
        refine ⟨.node logic (some c') childNodes, ⟨some c', childNodes, rfl, .some hreordered,
          ComparisonTree.allReordered_iff.mpr (List.forall₂_same.mpr fun u _ => .refl u)⟩, ?_⟩
        have hcompare : (nodeComparison lib evt (some c') logic).run (Heap.handle order) h =
            (none, h) := hlost
        unfold Returns at hrun ⊢
        rw [traverseTree, Prog.run_bind_of_some _ _ hrun, Prog.run_bind_of_none _ _ hcompare]
      · obtain ⟨ts', hall, hlost⟩ := traverseChildren_panics hval ih hwf.2 hchildren
        refine ⟨.node logic comparison ts', ⟨comparison, ts', rfl, ?_, hall⟩, ?_⟩
        · cases comparison with
          | none => exact .none
          | some c => exact .some (.refl c)
        · unfold Returns at hlost ⊢
          rw [traverseTree, Prog.run_bind_of_none _ _ hlost]

/-- A tree returns the value of its formula in every order of the entries of its maps, if and only
if it never comes to an entry that panics. -/
theorem traverseTree_iff (hval : Evaluates lib order h evt val) (hwf : t.WellFormed) :
    (∀ t', t.Reordered t' → Returns order h (traverseTree lib evt t')
      (some (t.value fun e => (val e).getD false))) ↔ t.Safe val := by
  constructor
  · intro hall
    by_contra hsafe
    obtain ⟨t', ht, hlost⟩ := traverseTree_panics hval hwf hsafe
    have hrun := hall t' ht
    unfold Returns at hrun hlost
    rw [hlost] at hrun
    exact nomatch hrun
  · intro hsafe t' ht
    rw [ht.value]
    exact run_traverseTree hval (ht.wellFormed hwf) (ht.safe hsafe)

end Run

/-! ## The dual tree -/

theorem isOr_swap (logic : String) :
    isOr (if isOr logic then "and" else "or") = !isOr logic := by
  cases isOr logic with
  | true => decide
  | false => decide

theorem Comparison.value_swap (c : Comparison) (v : Entry → Bool) (or : Bool) :
    c.swap.value v (!or) = !c.value v or := by
  rw [Comparison.value, Comparison.value, ← combine_not]
  refine combine_congr fun b => ?_
  have hequal : ∀ l : List Entry, (l.map fun e => v e == true).map (!·) =
      l.map fun e => v e == false := by
    intro l
    rw [List.map_map]
    refine List.map_congr_left fun e _ => ?_
    cases hv : v e <;> simp [hv]
  have hnotEqual : ∀ l : List Entry, (l.map fun e => v e == false).map (!·) =
      l.map fun e => v e == true := by
    intro l
    rw [List.map_map]
    refine List.map_congr_left fun e _ => ?_
    cases hv : v e <;> simp [hv]
  rw [List.map_append, hequal, hnotEqual, List.mem_append, List.mem_append, or_comm]
  rfl

theorem Comparison.WellFormed.swap (hc : c.WellFormed) : c.swap.WellFormed :=
  ⟨hc.1.symm, hc.2.2, hc.2.1⟩

namespace ComparisonTree

theorem WellFormed.swap (ht : t.WellFormed) : t.swap.WellFormed := by
  induction t using tree_induction with
  | nil => exact absurd ht id
  | node logic comparison childNodes ih =>
      refine ⟨fun c hc => ?_, ?_⟩
      · cases comparison with
        | none => exact nomatch hc
        | some c' =>
            obtain rfl := Option.some.inj hc
            exact (ht.1 c' rfl).swap
      · rw [swapAll_eq_map, allWellFormed_iff]
        refine List.forall_mem_map.mpr fun u hu => ih u hu (allWellFormed_iff.mp ht.2 u hu)

/-- **The dual tree has the opposite value.** -/
theorem value_swap (ht : t.WellFormed) (v : Entry → Bool) : t.swap.value v = !t.value v := by
  induction t using tree_induction with
  | nil => exact absurd ht id
  | node logic comparison childNodes ih =>
      have hvalues : values v (swapAll childNodes) = (values v childNodes).map (!·) := by
        rw [swapAll_eq_map, values_eq_map, values_eq_map, List.map_map, List.map_map]
        exact List.map_congr_left fun u hu => ih u hu (allWellFormed_iff.mp ht.2 u hu)
      have hcomparison : (comparison.map Comparison.swap).toList.map
          (Comparison.value v (!isOr logic)) =
          (comparison.toList.map (Comparison.value v (isOr logic))).map (!·) := by
        cases comparison with
        | none => rfl
        | some c => simp [c.value_swap]
      rw [ComparisonTree.swap, ComparisonTree.value, ComparisonTree.value, isOr_swap, hvalues,
        hcomparison, ← List.map_append, combine_not]

end ComparisonTree

/-! ## The operands of an entry -/

section Operands

variable {lib : Libs κ} {order : Finset String → List String} {evt : Event κ}
  {eq : Heap → Value → Value → Bool}

/-- `reflect.DeepEqual` decides and changes nothing. -/
def DecidesEqual (lib : Libs κ) (order : Finset String → List String)
    (eq : Heap → Value → Value → Bool) : Prop :=
  ∀ h v w, Returns order h (lib.deepEqual v w) (some (eq h v w))

/-- An operand: a text in braces is looked up in the event; there is none when that panics. -/
def operand (lib : Libs κ) (h : Heap) (evt : Event κ) : Value → Option Value
  | .str s =>
      if hasSuffix s "\x7d" && hasPrefix s "\x7b" then
        evt.lookup lib h (String.ofList s.toList.tail.dropLast)
      else some (.str s)
  | v => some v

/-- Whether the operands of an entry are equal. -/
def operandsEqual (lib : Libs κ) (eq : Heap → Value → Value → Bool) (h : Heap) (evt : Event κ)
    (entry : Entry) : Option Bool :=
  (operand lib h evt entry.2).bind fun aObj =>
    (operand lib h evt (.str entry.1)).map fun bObj => eq h aObj bObj

theorem run_resolve (lib : Libs κ) (order : Finset String → List String) (h : Heap)
    (evt : Event κ) (v : Value) :
    Returns order h (Mapping.resolve lib evt v) (operand lib h evt v) := by
  cases v with
  | str s =>
      unfold Returns Mapping.resolve operand
      dsimp only
      split
      · obtain ⟨res, hrun, hres⟩ :=
          Event.reads_getPathValue lib order h evt (String.ofList s.toList.tail.dropLast)
        rw [← hres]
        cases res with
        | none => rw [Prog.run_bind_of_none _ _ hrun, Option.map_none]
        | some found => rw [Prog.run_bind_of_some _ _ hrun, Prog.run_pure, Option.map_some]
      · rfl
  | _ => rfl

theorem evaluates_operandsEqual (hlib : DecidesEqual lib order eq) (h : Heap) (evt : Event κ) :
    Evaluates lib order h evt (operandsEqual lib eq h evt) := by
  intro entry
  have ha := run_resolve lib order h evt entry.2
  have hb := run_resolve lib order h evt (.str entry.1)
  unfold Returns at ha hb ⊢
  unfold entryEqual operandsEqual
  cases hopA : operand lib h evt entry.2 with
  | none =>
      rw [hopA] at ha
      rw [Prog.run_bind_of_none _ _ ha, Option.bind_none]
  | some aObj =>
      rw [hopA] at ha
      rw [Prog.run_bind_of_some _ _ ha, Option.bind_some]
      cases hopB : operand lib h evt (.str entry.1) with
      | none =>
          rw [hopB] at hb
          rw [Prog.run_bind_of_none _ _ hb, Option.map_none]
      | some bObj =>
          rw [hopB] at hb
          rw [Prog.run_bind_of_some _ _ hb, Option.map_some]
          exact hlib h aObj bObj

/-- A matcher for the tree. -/
def treeMatcher (t : ComparisonTree) (patternsLogic : String) : Matcher := ⟨t, none, patternsLogic⟩

/-- **When `Match` computes the formula of a tree.**  In every order of the entries of its maps the
tree gives the value of its formula and the dual tree the opposite, if and only if neither of them
comes to an entry with a path that panics. -/
theorem match_formula_iff (hlib : DecidesEqual lib order eq) (h : Heap) (evt : Event κ)
    (t : ComparisonTree) (hwf : t.WellFormed) (patternsLogic : String) :
    ((∀ t', t.Reordered t' →
        (matchEvent lib (some (treeMatcher t' patternsLogic)) (some evt)).run
          (Heap.handle order) h =
          (some (t.value fun e => (operandsEqual lib eq h evt e).getD false), h)) ∧
      ∀ t', t.swap.Reordered t' →
        (matchEvent lib (some (treeMatcher t' patternsLogic)) (some evt)).run
          (Heap.handle order) h =
          (some (!t.value fun e => (operandsEqual lib eq h evt e).getD false), h)) ↔
      t.Safe (operandsEqual lib eq h evt) ∧ t.swap.Safe (operandsEqual lib eq h evt) := by
  have hval := evaluates_operandsEqual hlib h evt
  rw [← ComparisonTree.value_swap hwf]
  exact and_congr (traverseTree_iff hval hwf) (traverseTree_iff hval hwf.swap)

end Operands

/-- A payload with a text and an array. -/
def textAndArray : Heap :=
  ((Heap.empty.makeMap.1.setKey 0 "a" (.str "x")).makeSlice [.bool true]).1.setKey 0 "b" (.slice 1)

/-- A library that compares scalars. -/
def scalarLibs : Libs Unit := { Libs.plain with deepEqual := fun v w => pure (v == w) }

theorem decidesEqual_scalarLibs :
    DecidesEqual scalarLibs Event.ascending fun _ v w => v == w := fun _ _ _ => rfl

/-- The text is another one, or the array holds the truth. -/
def sampleTree : ComparisonTree :=
  .node "OR" (some ⟨[], [[("\x7bpayload.a\x7d", .str "y")]]⟩)
    [.node "and" (some ⟨[[("\x7bpayload.b[0]\x7d", .bool false)]], []⟩) []]

/-- A tree without paths that panic: it matches, and its dual does not. -/
theorem match_formula_iff_sample :
    ((matchEvent scalarLibs (some (treeMatcher sampleTree "")) (some (Event.sampleEvent none))).run
        (Heap.handle Event.ascending) textAndArray).1 = some true ∧
      ((matchEvent scalarLibs (some (treeMatcher sampleTree.swap "")) (some
        (Event.sampleEvent none))).run (Heap.handle Event.ascending) textAndArray).1 =
        some false := by
  have hfirst : operandsEqual scalarLibs (fun _ v w => v == w) textAndArray
      (Event.sampleEvent none) ("\x7bpayload.a\x7d", .str "y") = some false := by decide +kernel
  have hsecond : operandsEqual scalarLibs (fun _ v w => v == w) textAndArray
      (Event.sampleEvent none) ("\x7bpayload.b[0]\x7d", .bool false) = some false := by
    decide +kernel
  have hwf : sampleTree.WellFormed := by
    simp [sampleTree, ComparisonTree.WellFormed, ComparisonTree.AllWellFormed,
      Comparison.WellFormed]
  have hsafe : sampleTree.Safe (operandsEqual scalarLibs (fun _ v w => v == w) textAndArray
      (Event.sampleEvent none)) := by
    simp [sampleTree, ComparisonTree.Safe, ComparisonTree.SafeChildren, Comparison.Safe,
      SafeEntries, hfirst, hsecond]
  have hdual : sampleTree.swap.Safe (operandsEqual scalarLibs (fun _ v w => v == w) textAndArray
      (Event.sampleEvent none)) := by
    simp [sampleTree, ComparisonTree.swap, ComparisonTree.swapAll, Comparison.swap,
      ComparisonTree.Safe, ComparisonTree.SafeChildren, Comparison.Safe, SafeEntries, hfirst,
      hsecond]
  obtain ⟨hmatch, hnot⟩ := (match_formula_iff decidesEqual_scalarLibs textAndArray
    (Event.sampleEvent none) sampleTree hwf "").mpr ⟨hsafe, hdual⟩
  have hvalue : sampleTree.value (fun e => (operandsEqual scalarLibs (fun _ v w => v == w)
      textAndArray (Event.sampleEvent none) e).getD false) = true := by decide +kernel
  rw [hvalue] at hmatch hnot
  exact ⟨congrArg Prod.fst (hmatch _ (.refl _)), congrArg Prod.fst (hnot _ (.refl _))⟩

/-- An operand with a negative index. -/
def negativeIndex : ComparisonTree :=
  .node "and" (some ⟨[[("\x7bpayload.b[-1]\x7d", .bool true)]], []⟩) []

/-- `Match` panics for it. -/
theorem match_panics : negativeIndex.WellFormed ∧
    ((matchEvent scalarLibs (some (treeMatcher negativeIndex "")) (some
      (Event.sampleEvent none))).run (Heap.handle Event.ascending) textAndArray).1 = none := by
  constructor
  · simp [negativeIndex, ComparisonTree.WellFormed, ComparisonTree.AllWellFormed,
      Comparison.WellFormed]
  · decide +kernel

end ComparisonMatch
