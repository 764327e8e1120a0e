/-
# Which plugin a wrapper runs

Instances are shared by their key: organisation, application and name of the plugin with
slashes between them, and the hash of the configuration.  `NewPlugin` installs a hasher that
hashes the configuration alone, so the type of the plugin is not part of the key.  A wrapper
runs the plugin that was asked for exactly when no two requests of one kind have the same
key but differ in type or tenant (`backed_iff`).
-/
import Ears.PluginCalls
import Ears.Route

namespace Plugin

/-- The arguments of a `Register` call. -/
structure Request where
  kind : Kind
  plugin : String
  name : String
  config : String
  tid : Tenant.Id

/-- `hasher.Hash(config)` for a text, the default hasher of `NewPlugin`. -/
def defaultHasher (config : String) : Except String String := .ok (Hasher.string config)

/-- What a key says about the tenant and the name. -/
def Request.path (r : Request) : String :=
  r.tid.orgId ++ "/" ++ r.tid.appId ++ "/" ++ r.name

/-- The key of the instance. -/
def Request.key (r : Request) : String := mapkey r.tid r.name (Hasher.string r.config)

/-- The call, with answers in which the hash is that of the default hasher. -/
def Request.call (r : Request) (a : Answers) : Call :=
  .register r.kind r.plugin r.name r.config r.tid { a with hash := defaultHasher r.config }

/-- The instance was constructed for a request like this one: by the same plugin type, with the
same configuration and for the same tenant. -/
def Instance.BuiltFor (inst : Instance) (r : Request) : Prop :=
  inst.plugin = r.plugin ∧ inst.config = r.config ∧ inst.tid = r.tid

/-- The call registers one of the requests, or unregisters something. -/
def Call.From (R : Set Request) : Call → Prop
  | .register k plugin name config tid a =>
      ∃ r ∈ R, ∃ a', Call.register k plugin name config tid a = r.call a'
  | .unregister _ _ => True

/-! ## Keys -/

theorem Request.key_eq_iff {r r' : Request} :
    r.key = r'.key ↔ r.path = r'.path ∧ Hasher.string r.config = Hasher.string r'.config := by
  have hkey : ∀ r : Request,
      r.key.toList = r.path.toList ++ '/' :: (Hasher.string r.config).toList := by
    intro r
    simp [Request.key, Request.path, mapkey, String.toList_append]
  rw [← String.toList_inj, hkey, hkey]
  constructor
  · intro h
    have hlen : ('/' :: (Hasher.string r.config).toList).length =
        ('/' :: (Hasher.string r'.config).toList).length := by
      rw [List.length_cons, List.length_cons, Hasher.length_string, Hasher.length_string]
    obtain ⟨hpath, hhash⟩ := List.append_inj' h hlen
    exact ⟨String.toList_inj.mp hpath, String.toList_inj.mp (List.cons.inj hhash).2⟩
  · rintro ⟨hpath, hhash⟩
    rw [hpath, hhash]

/-! ## The instances of a run -/

/-- Every instance was constructed for one of the requests with its key. -/
def Registry.Backed (reg : Registry) (k : Kind) (R : Set Request) : Prop :=
  ∀ key inst, reg.instances.lookup key = some inst →
    ∃ r ∈ R, r.kind = k ∧ r.key = key ∧ inst.BuiltFor r

namespace Registry

variable {reg : Registry} {k : Kind} {R : Set Request}

theorem Backed.addInstance (h : reg.Backed k R) {r : Request} (hr : r ∈ R) (hk : r.kind = k)
    {inst : Instance} (hinst : inst.BuiltFor r) : (reg.addInstance r.key inst).Backed k R := by
  intro key i hi
  have hi' : (reg.instances.insert r.key inst).lookup key = some i := hi
  rw [Finmap.lookup_insert_eq] at hi'
  split at hi'
  · rename_i hkey
    rw [← Option.some.inj hi']
    exact ⟨r, hr, hk, hkey.symm, hinst⟩
  · exact h key i hi'

theorem addWrapper_objects_next (reg : Registry) (w : Wrapper) :
    (reg.addWrapper w).objects reg.next = w := Function.update_self ..

/-- What a request does to the tables: nothing, a new instance for it, or a wrapper of the
instance under its key, which may be new. -/
theorem register_request (texts : Texts) (reg : Registry) (r : Request) (a : Answers) :
    let c := reg.register texts r.plugin r.name r.config r.tid { a with hash := defaultHasher r.config }
    let inst : Instance := ⟨reg.next, r.plugin, r.name, r.config, r.tid⟩
    (c.1 = reg ∧ ∃ err, c.2 = .error err) ∨
    (c.1 = reg.addInstance r.key inst ∧ ∃ err, c.2 = .error err) ∨
    (∃ i, reg.instances.lookup r.key = some i ∧ c = (reg.addWrapper
      ⟨r.tid, r.name, r.plugin, Hasher.string r.config, i, true⟩, .ok reg.next)) ∨
    (reg.instances.lookup r.key = none ∧ c = ((reg.addInstance r.key inst).addWrapper
      ⟨r.tid, r.name, r.plugin, Hasher.string r.config, inst, true⟩, .ok (reg.next + 1))) := by
  intro c inst
  simp only [c, register, defaultHasher]
  cases a.lookup with
  | some err => exact Or.inl ⟨rfl, _, rfl⟩
  | none =>
  dsimp only
  rw [show mapkey r.tid r.name (Hasher.string r.config) = r.key from rfl]
  cases reg.instances.lookup r.key with
  | some i =>
      cases a.uuid with
      | some err => exact Or.inl ⟨rfl, _, rfl⟩
      | none => exact Or.inr (Or.inr (Or.inl ⟨i, rfl, rfl⟩))
  | none =>
      cases a.build with
      | some err => exact Or.inl ⟨rfl, _, rfl⟩
      | none =>
          cases a.uuid with
          | some err => exact Or.inr (Or.inl ⟨rfl, _, rfl⟩)
          | none => exact Or.inr (Or.inr (Or.inr ⟨rfl, rfl⟩))

theorem Backed.call (h : reg.Backed k R) {c : Call} (hc : c.From R) (hk : c.kind = k) :
    (reg.call c).1.Backed k R := by
  cases c with
  | register k' plugin name config tid a =>
      obtain ⟨r, hr, a', heq⟩ := hc
      rw [heq] at hk ⊢
      have hbuilt : (⟨reg.next, r.plugin, r.name, r.config, r.tid⟩ : Instance).BuiltFor r :=
        ⟨rfl, rfl, rfl⟩
      show (reg.register r.kind.texts r.plugin r.name r.config r.tid
        { a' with hash := defaultHasher r.config }).1.Backed k R
      rcases register_request r.kind.texts reg r a' with ⟨hreg, -⟩ | ⟨hreg, -⟩ | ⟨i, -, hreg⟩ |
        ⟨-, hreg⟩
      · rwa [hreg]
      · rw [hreg]
        exact h.addInstance hr hk hbuilt
      · rw [hreg]
        exact h
      · rw [hreg]
        exact h.addInstance hr hk hbuilt
  | unregister k' wrapper =>
      cases wrapper with
      | none => exact h
      | some id =>
          show (reg.unregister k'.texts id).1.Backed k R
          rw [unregister_eq_release]
          split
          · intro key inst hinst
            refine h key inst ?_
            by_cases hkey : key = (reg.objects id).key
            · subst hkey
              rcases Int.lt_or_le 1 ((reg.count.lookup (reg.objects id).key).getD 0) with hmore | hlast
              · rwa [(reg.release_lookup_more id hmore).1] at hinst
              · rw [(reg.release_lookup_last id hlast).1] at hinst
                simp at hinst
            · rwa [(reg.release_lookup_of_ne id hkey).1] at hinst
          · exact h

end Registry

/-! ## Runs -/

namespace PluginTables

variable {ν : Type} {R : Set Request}

/-- One call after the other. -/
def step (s : PluginTables ν) (c : Call) : Option (PluginTables ν) := some (s.call c).1

theorem backed_of_run {calls : List Call} {s : PluginTables ν} (hcalls : ∀ c ∈ calls, c.From R)
    (hrun : Runs.run step new calls = some s) (k : Kind) : (s.registry k).Backed k R := by
  refine Runs.run_induction_along (P := fun s : PluginTables ν => ∀ k, (s.registry k).Backed k R)
    (G := fun _ c => c.From R) ?_ ?_ (Runs.along_of_forall hcalls) hrun k
  · intro s c s' h hc hs k
    obtain rfl := Option.some.inj hs
    rw [registry_call]
    split
    · rename_i hk
      exact (h k).call hc hk
    · exact h k
  · intro k key inst hinst
    cases k <;> simp [registry, new, Receivers.empty, Registry.empty] at hinst

/-- After calls with requests from `R`, the wrapper returned for a request from `R` holds an
instance that was constructed for it. -/
def RunsWhatIsAsked (ν : Type) (R : Set Request) : Prop :=
  ∀ (calls : List Call) (s : PluginTables ν) (r : Request) (a : Answers) (id : ℕ),
    (∀ c ∈ calls, c.From R) → Runs.run step new calls = some s → r ∈ R →
    (s.call (r.call a)).2 = .ok (some id) →
    (((s.call (r.call a)).1.registry r.kind).objects id).inst.BuiltFor r

/-- The wrapper returned for a request holds the instance under its key, or a new one. -/
theorem call_request (s : PluginTables ν) (r : Request) (a : Answers) {id : ℕ}
    (hok : (s.call (r.call a)).2 = .ok (some id)) :
    (∃ i, (s.registry r.kind).instances.lookup r.key = some i ∧
      (((s.call (r.call a)).1.registry r.kind).objects id).inst = i) ∨
    ((s.registry r.kind).instances.lookup r.key = none ∧
      (((s.call (r.call a)).1.registry r.kind).objects id).inst.BuiltFor r) := by
  rw [result_call] at hok
  rw [registry_call, if_pos (show (r.call a).kind = r.kind from rfl)]
  have hok' : ((s.registry r.kind).register r.kind.texts r.plugin r.name r.config r.tid
    { a with hash := defaultHasher r.config }).2.map some = .ok (some id) := hok
  show (∃ i, _ ∧ (((s.registry r.kind).register r.kind.texts r.plugin r.name r.config r.tid
    { a with hash := defaultHasher r.config }).1.objects id).inst = i) ∨
      (_ ∧ (((s.registry r.kind).register r.kind.texts r.plugin r.name r.config r.tid
    { a with hash := defaultHasher r.config }).1.objects id).inst.BuiltFor r)
  rcases Registry.register_request r.kind.texts (s.registry r.kind) r a with ⟨-, err, herr⟩ |
    ⟨-, err, herr⟩ | ⟨i, hi, heq⟩ | ⟨hnone, heq⟩
  · rw [herr] at hok'
    simp [Except.map] at hok'
  · rw [herr] at hok'
    simp [Except.map] at hok'
  · rw [heq] at hok' ⊢
    have hid : (s.registry r.kind).next = id := by simpa [Except.map] using hok'
    refine Or.inl ⟨i, hi, ?_⟩
    rw [← hid, Registry.addWrapper_objects_next]
  · rw [heq] at hok' ⊢
    have hid : (s.registry r.kind).next + 1 = id := by simpa [Except.map] using hok'
    refine Or.inr ⟨hnone, ?_⟩
    rw [← hid]
    rw [show (s.registry r.kind).next + 1 = ((s.registry r.kind).addInstance r.key
      ⟨(s.registry r.kind).next, r.plugin, r.name, r.config, r.tid⟩).next from rfl,
      Registry.addWrapper_objects_next]
    exact ⟨rfl, rfl, rfl⟩

/-- The first request of all constructs its instance. -/
theorem lookup_new_call (r : Request) :
    (((new : PluginTables ν).call (r.call (sampleAnswers ""))).1.registry r.kind).instances.lookup
      r.key = some ⟨0, r.plugin, r.name, r.config, r.tid⟩ := by
  have hempty : (new : PluginTables ν).registry r.kind = .empty := by
    cases r.kind <;> rfl
  rw [registry_call, if_pos (show (r.call _).kind = r.kind from rfl), hempty]
  show (Registry.register _ _ _ _ _ _ _).1.instances.lookup r.key = _
  rcases Registry.register_request r.kind.texts .empty r (sampleAnswers "") with ⟨-, err, herr⟩ |
    ⟨-, err, herr⟩ | ⟨i, hi, -⟩ | ⟨-, heq⟩
  · simp [Registry.register, sampleAnswers, defaultHasher, Registry.empty] at herr
  · simp [Registry.register, sampleAnswers, defaultHasher, Registry.empty] at herr
  · simp [Registry.empty] at hi
  · rw [heq]
    exact Finmap.lookup_insert _

/-- A request for whose key there is an instance gets a wrapper. -/
theorem call_ok (s : PluginTables ν) (r : Request) {i : Instance}
    (hi : (s.registry r.kind).instances.lookup r.key = some i) :
    (s.call (r.call (sampleAnswers ""))).2 = .ok (some (s.registry r.kind).next) := by
  rw [result_call]
  show ((s.registry r.kind).register _ _ _ _ _ _).2.map some = _
  simp only [Registry.register, sampleAnswers, defaultHasher]
  rw [show mapkey r.tid r.name (Hasher.string r.config) = r.key from rfl, hi]
  rfl

/-- **A wrapper runs the plugin that was asked for** exactly when no two requests of one kind
with the same organisation, application and name, run together with slashes, and the same
configuration differ in the type of the plugin or in the tenant. -/
theorem backed_iff (hmd5 : Set.InjOn Hasher.string (Set.image Request.config R)) :
    RunsWhatIsAsked ν R ↔ ∀ r ∈ R, ∀ r' ∈ R, r.kind = r'.kind → r.path = r'.path →
      r.config = r'.config → r.plugin = r'.plugin ∧ r.tid = r'.tid := by
  constructor
  · intro hruns r hr r' hr' hkind hpath hconfig
    -- register the one, then the other
    have hinst := lookup_new_call (ν := ν) r
    rw [hkind, Request.key_eq_iff.mpr ⟨hpath, by rw [hconfig]⟩] at hinst
    have hok := call_ok _ r' hinst
    have hbuilt := hruns [r.call (sampleAnswers "")] _ r' _ _
      (fun c hc => by rw [List.mem_singleton.mp hc]; exact ⟨r, hr, _, rfl⟩) rfl hr' hok
    rcases call_request _ r' _ hok with ⟨i, hi, hobj⟩ | ⟨hnone, -⟩
    · rw [hobj, ← Option.some.inj (hinst.symm.trans hi)] at hbuilt
      exact ⟨hbuilt.1, hbuilt.2.2⟩
    · rw [hnone] at hinst
      simp at hinst
  · intro hsep calls s r a id hcalls hrun hr hok
    rcases call_request s r a hok with ⟨i, hi, hobj⟩ | ⟨-, hbuilt⟩
    · obtain ⟨r', hr', hkind, hkey, hplugin, hconfig, htid⟩ := backed_of_run hcalls hrun r.kind _ i hi
      obtain ⟨hpath, hhash⟩ := Request.key_eq_iff.mp hkey
      have hconfigs : r'.config = r.config := hmd5 ⟨r', hr', rfl⟩ ⟨r, hr, rfl⟩ hhash
      obtain ⟨hplugins, htids⟩ := hsep r' hr' r hr hkind hpath hconfigs
      rw [hobj]
      exact ⟨hplugin.trans hplugins, hconfig.trans hconfigs, htid.trans htids⟩
    · exact hbuilt

/-- A request for a filter without a name and without a configuration. -/
def plainFilter (plugin : String) : Request := ⟨.filter, plugin, "", "", ⟨"acme", "tv"⟩⟩

/-- A request for a filter with a name and a configuration. -/
def namedFilter (plugin name config : String) : Request :=
  ⟨.filter, plugin, name, config, ⟨"acme", "tv"⟩⟩

/-- Two types of filters under two names and with two configurations: the wrappers run what was
asked for. -/
theorem backed_pair :
    RunsWhatIsAsked Unit {namedFilter "block" "all" "null", namedFilter "log" "some" ""} := by
  have hmd5 : Set.InjOn Hasher.string (Set.image Request.config
      {namedFilter "block" "all" "null", namedFilter "log" "some" ""}) := by
    have hne : Hasher.string "null" ≠ Hasher.string "" := by decide +kernel
    rw [Set.image_pair]
    rintro s (rfl | rfl) t (rfl | rfl) h
    · rfl
    · exact absurd h hne
    · exact absurd h.symm hne
    · rfl
  refine (backed_iff hmd5).mpr ?_
  rintro r (rfl | rfl) r' (rfl | rfl) - hpath -
  · exact ⟨rfl, rfl⟩
  · exact absurd hpath (by decide)
  · exact absurd hpath (by decide)
  · exact ⟨rfl, rfl⟩

/-- A `pass` filter that is asked for after a `block` filter is the `block` filter. -/
theorem pass_runs_block :
    Set.InjOn Hasher.string (Set.image Request.config {plainFilter "block", plainFilter "pass"}) ∧
    ¬ RunsWhatIsAsked Unit {plainFilter "block", plainFilter "pass"} ∧
    ∃ s : PluginTables Unit,
      Runs.run step new [(plainFilter "block").call (sampleAnswers ""),
        (plainFilter "pass").call (sampleAnswers "")] = some s ∧
      ((s.registry .filter).objects 2).plugin = "pass" ∧
      ((s.registry .filter).objects 2).inst.plugin = "block" := by
  have hmd5 : Set.InjOn Hasher.string
      (Set.image Request.config {plainFilter "block", plainFilter "pass"}) := by
    rw [Set.image_pair]
    rintro s (rfl | rfl) t (rfl | rfl) - <;> rfl
  refine ⟨hmd5, ?_, _, rfl, by decide +kernel, by decide +kernel⟩
  intro hruns
  have hbuilt := hruns [(plainFilter "block").call (sampleAnswers "")] _ (plainFilter "pass")
    (sampleAnswers "") 2
    (fun c hc => by rw [List.mem_singleton.mp hc]; exact ⟨plainFilter "block", by simp, _, rfl⟩)
    rfl (by simp) (by decide +kernel)
  exact absurd hbuilt.1 (by decide +kernel)

end PluginTables

end Plugin
