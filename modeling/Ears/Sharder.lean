/-
# The shard distributor (`pkg/sharder/distributor.go`)

The shards of a stream are dealt out to the nodes of the cluster: a node takes the shards
whose number is its own position in the list of active nodes, modulo the length of the list.
Each node has a distributor of its own, which watches the list and works out its shards when
the list or the number of shards changes.

A node that is not in the list it works with takes position 0, the zero value of the variable
that the search leaves alone, and so the shards of the first node of the list.
`ownedOnce_iff` says that nothing else goes wrong: distributors with one list own every shard
once exactly when all of them are in the list, or there are no shards.
-/
import Ears.GoLib
import Ears.Runs

open GoLib

namespace Sharder

/-- `ShardConfig`. -/
structure ShardConfig where
  identity : String
  numShards : ℤ
  ownedShards : List String
  deriving DecidableEq, Repr

/-- `SimpleHashDistributor`. -/
structure SimpleHashDistributor where
  shardConfig : ShardConfig
  nodes : List String
  deriving DecidableEq, Repr

/-- The comparison of two lists of strings in `nodeMonitor` and `hashShards`: first the
lengths, then the elements. -/
def changed (new old : List String) : Bool :=
  new.length != old.length || (new.zip old).any fun p => p.1 != p.2

namespace SimpleHashDistributor

/-- `newSimpleHashDistributor`. -/
def new (identity : String) (numShards : ℤ) : SimpleHashDistributor :=
  ⟨⟨identity, numShards, []⟩, []⟩

variable (c : SimpleHashDistributor)

/-- `myPeerIndex` after the search. -/
def myPeerIndex : ℕ := (c.nodes.findIdx? fun peer => peer == c.shardConfig.identity).getD 0

/-- `myShards` after the loop over the shards.  There is at least one node. -/
def myShards : List String :=
  ((List.range c.shardConfig.numShards.toNat).filter fun j =>
    j % c.nodes.length == c.myPeerIndex).map fun j : ℕ => itoa j

/-- `hashShards`: the flag says that the owned shards have changed. -/
def hashShards : SimpleHashDistributor × Bool :=
  if changed c.myShards c.shardConfig.ownedShards then
    ({ c with shardConfig := { c.shardConfig with ownedShards := c.myShards } }, true)
  else (c, false)

/-- `publishChanges`: the configuration that is sent to the receiver, if any. -/
def publishChanges : SimpleHashDistributor × Option ShardConfig :=
  if c.nodes = [] then
    let sc := { c.shardConfig with ownedShards := [] }
    ({ c with shardConfig := sc }, some sc)
  else
    let r := c.hashShards
    (r.1, if r.2 then some r.1.shardConfig else none)

/-- `UpdateNumberShards`. -/
def updateNumberShards (numShards : ℤ) : SimpleHashDistributor × Option ShardConfig :=
  publishChanges { c with shardConfig := { c.shardConfig with numShards := numShards } }

/-- One round of `nodeMonitor`.  Without an answer of `GetActiveNodes` nothing happens. -/
def nodeMonitor : Option (List String) → SimpleHashDistributor × Option ShardConfig
  | none => (c, none)
  | some aliveNodes =>
      if changed aliveNodes c.nodes then publishChanges { c with nodes := aliveNodes } else (c, none)

end SimpleHashDistributor

/-! ## What one distributor owns -/

theorem changed_eq_false {new old : List String} : changed new old = false ↔ new = old := by
  induction new generalizing old with
  | nil => cases old <;> simp [changed]
  | cons a new ih =>
      cases old with
      | nil => simp [changed]
      | cons b old =>
          have hstep : changed (a :: new) (b :: old) = (a != b || changed new old) := by
            simp [changed, Bool.or_left_comm]
          rw [hstep, Bool.or_eq_false_iff, ih, List.cons.injEq]
          simp

theorem itoa_injective : Function.Injective fun j : ℕ => itoa j := by
  intro i j h
  exact Int.ofNat.inj (Int.repr_injective h)

namespace SimpleHashDistributor

variable {c : SimpleHashDistributor}

/-- Whatever it owned before, `hashShards` leaves the distributor with its shards. -/
theorem ownedShards_hashShards : c.hashShards.1.shardConfig.ownedShards = c.myShards := by
  unfold hashShards
  cases h : changed c.myShards c.shardConfig.ownedShards with
  | false => simp [changed_eq_false.mp h]
  | true => rfl

theorem mem_myShards (j : ℕ) : itoa j ∈ c.myShards ↔
    j < c.shardConfig.numShards.toNat ∧ j % c.nodes.length = c.myPeerIndex := by
  unfold myShards
  rw [List.mem_map]
  simp only [List.mem_filter, List.mem_range, beq_iff_eq]
  constructor
  · rintro ⟨i, hi, heq⟩
    rwa [← itoa_injective heq]
  · intro hj
    exact ⟨j, hj, rfl⟩

theorem myPeerIndex_of_mem (h : c.shardConfig.identity ∈ c.nodes) :
    c.myPeerIndex < c.nodes.length ∧ c.nodes[c.myPeerIndex]? = some c.shardConfig.identity := by
  obtain ⟨i, hi⟩ : ∃ i, c.nodes.findIdx? (fun peer => peer == c.shardConfig.identity) = some i := by
    rw [← Option.isSome_iff_exists, List.findIdx?_isSome, List.any_eq_true]
    exact ⟨_, h, beq_self_eq_true _⟩
  have hindex : c.myPeerIndex = i := by
    unfold myPeerIndex
    rw [hi]
    rfl
  obtain ⟨hlt, hpeer, -⟩ := List.findIdx?_eq_some_iff_getElem.mp hi
  rw [hindex]
  exact ⟨hlt, by rw [List.getElem?_eq_getElem hlt, beq_iff_eq.mp hpeer]⟩

theorem myPeerIndex_of_not_mem (h : c.shardConfig.identity ∉ c.nodes) : c.myPeerIndex = 0 := by
  unfold myPeerIndex
  rw [List.findIdx?_eq_none_iff.mpr]
  · rfl
  · intro peer hpeer
    rw [beq_eq_false_iff_ne]
    rintro rfl
    exact h hpeer

/-! ## Runs of one distributor -/

/-- What happens to a distributor: a round of `nodeMonitor`, or a new number of shards. -/
inductive Change where
  | nodeMonitor (aliveNodes : Option (List String))
  | updateNumberShards (numShards : ℤ)

/-- A change, with the last configuration that was sent. -/
def step (s : SimpleHashDistributor × Option ShardConfig) :
    Change → Option (SimpleHashDistributor × Option ShardConfig)
  | .nodeMonitor aliveNodes =>
      let r := s.1.nodeMonitor aliveNodes
      some (r.1, r.2.or s.2)
  | .updateNumberShards numShards =>
      let r := s.1.updateNumberShards numShards
      some (r.1, r.2.or s.2)

/-- The distributor owns its shards, and none without nodes; what it has sent last lists
them. -/
structure Settled (s : SimpleHashDistributor × Option ShardConfig) : Prop where
  owned : s.1.shardConfig.ownedShards = if s.1.nodes = [] then [] else s.1.myShards
  sent : (s.2.map ShardConfig.ownedShards).getD [] = s.1.shardConfig.ownedShards

/-- The owned shards before a change are those that were sent last. -/
theorem settled_publishChanges {last : Option ShardConfig}
    (h : (last.map ShardConfig.ownedShards).getD [] = c.shardConfig.ownedShards) :
    Settled (c.publishChanges.1, c.publishChanges.2.or last) := by
  unfold publishChanges
  split
  · rename_i hnodes
    exact ⟨by simp [hnodes], rfl⟩
  · rename_i hnodes
    unfold hashShards
    cases hchanged : changed c.myShards c.shardConfig.ownedShards with
    | false =>
        refine ⟨?_, h⟩
        simp [hnodes, changed_eq_false.mp hchanged]
    | true =>
        refine ⟨?_, rfl⟩
        simp [hnodes, myShards, myPeerIndex]

theorem settled_step {s s' : SimpleHashDistributor × Option ShardConfig} {a : Change}
    (h : Settled s) (hs : step s a = some s') : Settled s' := by
  cases a with
  | nodeMonitor aliveNodes =>
      obtain rfl := Option.some.inj hs
      cases aliveNodes with
      | none => exact h
      | some aliveNodes =>
          show Settled ((s.1.nodeMonitor (some aliveNodes)).1,
            (s.1.nodeMonitor (some aliveNodes)).2.or s.2)
          rw [nodeMonitor]
          split
          · exact settled_publishChanges h.sent
          · exact h
  | updateNumberShards numShards =>
      obtain rfl := Option.some.inj hs
      exact settled_publishChanges h.sent

/-- After every run the receiver has been sent the shards of its node. -/
theorem settled_of_run {identity : String} {numShards : ℤ} {changes : List Change}
    {s : SimpleHashDistributor × Option ShardConfig}
    (hrun : Runs.run step (new identity numShards, none) changes = some s) : Settled s :=
  Runs.run_induction (P := Settled) (fun _ _ _ h hs => settled_step h hs) ⟨rfl, rfl⟩ hrun

end SimpleHashDistributor

/-! ## All distributors together -/

/-- Every shard is owned by exactly one of the distributors once all have run `hashShards`. -/
def OwnedOnce (ds : Set SimpleHashDistributor) (numShards : ℕ) : Prop :=
  ∀ j : ℕ, j < numShards → ∃! d, d ∈ ds ∧ itoa j ∈ d.hashShards.1.shardConfig.ownedShards

section Partition

variable {nodes : List String} {numShards : ℕ} {ds : Set SimpleHashDistributor}

/-- The position of a node in a list without duplicates. -/
theorem myPeerIndex_eq {c : SimpleHashDistributor} (hnodup : c.nodes.Nodup) {k : ℕ}
    (hk : c.nodes[k]? = some c.shardConfig.identity) : c.myPeerIndex = k := by
  obtain ⟨hlt, hget⟩ := SimpleHashDistributor.myPeerIndex_of_mem (List.mem_of_getElem? hk)
  exact (List.getElem?_inj hlt hnodup).mp (by rw [hget, hk])

/-- Two distributors that are in the list and at one position have one identity. -/
theorem identity_eq_of_myPeerIndex {c d : SimpleHashDistributor} (hc : c.nodes = nodes)
    (hd : d.nodes = nodes) (hcmem : c.shardConfig.identity ∈ nodes)
    (hdmem : d.shardConfig.identity ∈ nodes) (h : c.myPeerIndex = d.myPeerIndex) :
    c.shardConfig.identity = d.shardConfig.identity := by
  subst hc
  have hcget := (SimpleHashDistributor.myPeerIndex_of_mem hcmem).2
  have hdget := (SimpleHashDistributor.myPeerIndex_of_mem (hd.symm ▸ hdmem)).2
  rw [hd, ← h, hcget] at hdget
  exact Option.some.inj hdget

/-- **Each shard has one owner.**  For distributors with different identities, among them all
nodes of the list that they share: every shard is owned once if and only if there are no shards
or all distributors are in the list. -/
theorem ownedOnce_iff (hne : nodes ≠ []) (hnodup : nodes.Nodup)
    (hds : ∀ d ∈ ds, d.nodes = nodes ∧ d.shardConfig.numShards = numShards)
    (hids : Set.InjOn (fun d => d.shardConfig.identity) ds)
    (hall : ∀ node ∈ nodes, ∃ d ∈ ds, d.shardConfig.identity = node) :
    OwnedOnce ds numShards ↔
      numShards = 0 ∨ ∀ d ∈ ds, d.shardConfig.identity ∈ nodes := by
  have hmem : ∀ d ∈ ds, ∀ j : ℕ, itoa j ∈ d.hashShards.1.shardConfig.ownedShards ↔
      j < numShards ∧ j % nodes.length = d.myPeerIndex := by
    intro d hd j
    rw [SimpleHashDistributor.ownedShards_hashShards, SimpleHashDistributor.mem_myShards,
      (hds d hd).1, (hds d hd).2, Int.toNat_natCast]
  have hpos : 0 < nodes.length := List.length_pos_iff.mpr hne
  -- the distributor of the node at a position takes the shards of that position
  have hat : ∀ k < nodes.length, ∃ d ∈ ds, d.shardConfig.identity ∈ nodes ∧ d.myPeerIndex = k := by
    intro k hk
    obtain ⟨d, hd, hident⟩ := hall nodes[k] (List.getElem_mem hk)
    refine ⟨d, hd, hident ▸ List.getElem_mem hk, myPeerIndex_eq ((hds d hd).1 ▸ hnodup) ?_⟩
    rw [(hds d hd).1, hident, List.getElem?_eq_getElem hk]
  constructor
  · intro honce
    rcases Nat.eq_zero_or_pos numShards with hzero | hshards
    · exact Or.inl hzero
    right
    intro d hd
    by_contra hout
    have hzero : d.myPeerIndex = 0 :=
      SimpleHashDistributor.myPeerIndex_of_not_mem ((hds d hd).1 ▸ hout)
    obtain ⟨e, he, hlisted, hfirst⟩ := hat 0 hpos
    obtain ⟨o, -, hunique⟩ := honce 0 hshards
    have hdo := hunique d ⟨hd, (hmem d hd 0).mpr ⟨hshards, by rw [hzero, Nat.zero_mod]⟩⟩
    have heo := hunique e ⟨he, (hmem e he 0).mpr ⟨hshards, by rw [hfirst, Nat.zero_mod]⟩⟩
    apply hout
    rwa [hdo, ← heo]
  · rintro (rfl | hlisted) j hj
    · omega
    · obtain ⟨d, hd, -, hindex⟩ := hat (j % nodes.length) (Nat.mod_lt j hpos)
      refine ⟨d, ⟨hd, (hmem d hd j).mpr ⟨hj, hindex.symm⟩⟩, ?_⟩
      rintro e ⟨he, hown⟩
      have heindex := ((hmem e he j).mp hown).2
      refine hids he hd (identity_eq_of_myPeerIndex (hds e he).1 (hds d hd).1 (hlisted e he)
        (hlisted d hd) ?_)
      rw [hindex, heindex]

end Partition

/-- A distributor of a node that sees the given list and deals out three shards. -/
def sampleDistributor (identity : String) (nodes : List String) : SimpleHashDistributor :=
  ⟨⟨identity, 3, []⟩, nodes⟩

theorem ownedOnce_sample : OwnedOnce
    {sampleDistributor "a" ["a", "b"], sampleDistributor "b" ["a", "b"]} 3 := by
  refine (@ownedOnce_iff ["a", "b"] 3 _ (by decide) (by decide) ?_ ?_ ?_).mpr (Or.inr ?_)
  · rintro d (rfl | rfl) <;> exact ⟨rfl, rfl⟩
  · rintro d (rfl | rfl) e (rfl | rfl) h
    · rfl
    · exact absurd h (by decide)
    · exact absurd h (by decide)
    · rfl
  · intro node hnode
    rcases List.mem_pair.mp hnode with rfl | rfl
    · exact ⟨_, Or.inl rfl, rfl⟩
    · exact ⟨_, Or.inr rfl, rfl⟩
  · rintro d (rfl | rfl) <;> decide

/-- The node `b` has lost its place in the list, and takes the shards of `a`. -/
theorem not_ownedOnce : ¬ OwnedOnce
    {sampleDistributor "a" ["a"], sampleDistributor "b" ["a"]} 3 := by
  intro h
  obtain ⟨o, -, hunique⟩ := h 0 (by decide)
  have ha := hunique (sampleDistributor "a" ["a"]) ⟨Or.inl rfl, by decide +kernel⟩
  have hb := hunique (sampleDistributor "b" ["a"]) ⟨Or.inr rfl, by decide +kernel⟩
  rw [← hb] at ha
  exact absurd ha (by decide)

end Sharder
