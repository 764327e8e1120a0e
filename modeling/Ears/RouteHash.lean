/-
# What the hash of a route tells

`Config.Hash` and `PluginConfig.Hash` join their texts with nothing between them.  So the
hash does not tell where one text ends and the next begins, nor how many plugins there are:
the texts of a configuration may end with what are digests of plugins in another one.
`Separable` says that two configurations are not mixed up in this way.  It is the exact
condition under which equal hashes mean equal routes, as long as MD5 and the JSON texts do
not collide themselves (`hash_eq_imp_same_iff`).

The routing table shares live routes by their hash.  `neverMixes_iff` says when no run of
the table attaches a route to a live route that is not the same.
-/
import Ears.Blocks
import Ears.TableRefinement

open Plugin

namespace Route

/-! ## The texts that are joined -/

/-- The texts that `PluginConfig.Hash` joins. -/
def PluginConfig.parts (pc : PluginConfig) : List (List Char) :=
  [pc.name, pc.plugin, stringify pc.config].map String.toList

/-- The texts that `Config.Hash` joins in front of the digests. -/
def Config.parts (rc : Config) : List (List Char) :=
  [rc.tenantId.orgId, rc.tenantId.appId, rc.name, rc.deliveryMode, rc.userId, rc.region,
    if rc.inactive then "off" else ""].map String.toList

/-- The plugins of a route in the order in which they are hashed. -/
def Config.plugins (rc : Config) : List PluginConfig := rc.receiver :: rc.sender :: rc.filterChain

/-- The digests that `Config.Hash` joins. -/
def Config.digests (rc : Config) : List (List Char) := rc.plugins.map fun pc => pc.hash.toList

/-- How long each of the texts is. -/
def lengths (parts : List (List Char)) : List ℕ := parts.map List.length

theorem PluginConfig.toList_hashText (pc : PluginConfig) :
    pc.hashText.toList = pc.parts.flatten := by
  simp [PluginConfig.hashText, PluginConfig.parts, String.toList_append]

theorem toList_foldl_hash (fs : List PluginConfig) (s : String) :
    (fs.foldl (fun str f => str ++ f.hash) s).toList =
      s.toList ++ (fs.map fun pc => pc.hash.toList).flatten := by
  induction fs generalizing s with
  | nil => simp
  | cons f fs ih =>
      rw [List.foldl_cons, ih, String.toList_append, List.map_cons, List.flatten_cons,
        List.append_assoc]

theorem Config.toList_hashText (rc : Config) :
    rc.hashText.toList = rc.parts.flatten ++ rc.digests.flatten := by
  simp [Config.hashText, Config.parts, Config.digests, Config.plugins, String.toList_append,
    toList_foldl_hash]

theorem Config.uniform_digests (rc : Config) : Blocks.Uniform 32 rc.digests := by
  intro b hb
  obtain ⟨pc, -, rfl⟩ := List.mem_map.mp hb
  exact Hasher.length_string _

/-! ## Collisions of MD5 and of JSON texts -/

/-- The texts that are hashed for a set of configurations. -/
def hashedTexts (S : Set Config) : Set String :=
  { s | ∃ c ∈ S, s = c.hashText ∨ ∃ pc ∈ c.plugins, s = pc.hashText }

/-- The plugins' own configurations in a set of configurations. -/
def pluginConfigs (S : Set Config) : Set Json := { v | ∃ c ∈ S, ∃ pc ∈ c.plugins, v = pc.config }

/-- MD5 has no collision among the texts that are hashed for `S`, and equal JSON texts are
texts of one configuration. -/
structure Faithful (S : Set Config) : Prop where
  md5 : Set.InjOn Hasher.string (hashedTexts S)
  json : Set.InjOn stringify (pluginConfigs S)

variable {S : Set Config} {c d : Config}

theorem Faithful.hash_eq_iff (h : Faithful S) (hc : c ∈ S) (hd : d ∈ S) :
    c.hash = d.hash ↔ c.hashText = d.hashText :=
  h.md5.eq_iff ⟨c, hc, Or.inl rfl⟩ ⟨d, hd, Or.inl rfl⟩

theorem Faithful.plugin_hash_eq_iff (h : Faithful S) (hc : c ∈ S) (hd : d ∈ S)
    {p q : PluginConfig} (hp : p ∈ c.plugins) (hq : q ∈ d.plugins) :
    p.hash.toList = q.hash.toList ↔ p.hashText = q.hashText := by
  rw [String.toList_inj]
  exact h.md5.eq_iff ⟨c, hc, Or.inr ⟨p, hp, rfl⟩⟩ ⟨d, hd, Or.inr ⟨q, hq, rfl⟩⟩

/-- Equal texts are texts of one plugin configuration. -/
theorem Faithful.plugin_same_iff (h : Faithful S) (hc : c ∈ S) (hd : d ∈ S) {p q : PluginConfig}
    (hp : p ∈ c.plugins) (hq : q ∈ d.plugins) : p.Same q ↔ p.parts = q.parts := by
  have hjson : stringify p.config = stringify q.config ↔ p.config = q.config :=
    h.json.eq_iff ⟨c, hc, p, hp, rfl⟩ ⟨d, hd, q, hq, rfl⟩
  unfold PluginConfig.Same PluginConfig.parts
  simp only [List.map_cons, List.map_nil, List.cons.injEq, String.toList_inj, hjson, and_true]

theorem Faithful.plugins_same_iff (h : Faithful S) (hc : c ∈ S) (hd : d ∈ S) :
    List.Forall₂ PluginConfig.Same c.plugins d.plugins ↔
      c.plugins.map PluginConfig.parts = d.plugins.map PluginConfig.parts := by
  rw [Blocks.map_eq_map_iff]
  exact Blocks.forall₂_congr fun p hp q hq => h.plugin_same_iff hc hd hp hq

theorem off_inj {a b : Bool} :
    (if a then "off" else "") = (if b then "off" else "") ↔ a = b := by
  cases a <;> cases b <;> decide

/-- Configurations agree on everything that is hashed when their texts agree one by one. -/
theorem Faithful.same_iff (h : Faithful S) (hc : c ∈ S) (hd : d ∈ S) :
    c.Same d ↔ c.parts = d.parts ∧
      c.plugins.map PluginConfig.parts = d.plugins.map PluginConfig.parts := by
  rw [← h.plugins_same_iff hc hd]
  unfold Config.parts Config.plugins
  rw [List.forall₂_cons, List.forall₂_cons]
  simp only [List.map_cons, List.map_nil, List.cons.injEq, String.toList_inj, and_true, off_inj]
  constructor
  · intro hs
    exact ⟨⟨congrArg _ hs.tenantId, congrArg _ hs.tenantId, hs.name, hs.deliveryMode, hs.userId,
      hs.region, hs.inactive⟩, hs.receiver, hs.sender, hs.filterChain⟩
  · rintro ⟨⟨horg, happ, hname, hmode, huser, hregion, hinactive⟩, hreceiver, hsender, hfilters⟩
    refine ⟨?_, hname, hmode, huser, hregion, hinactive, hreceiver, hsender, hfilters⟩
    cases hct : c.tenantId
    cases hdt : d.tenantId
    rw [hct, hdt] at horg happ
    rw [Tenant.Id.mk.injEq]
    exact ⟨horg, happ⟩

/-! ## Configurations that are mixed up -/

/-- The texts of `d` run on over the digests of the first `k` plugins of `c`, and the other
plugins have the same joined texts. -/
structure Config.RunsOver (c d : Config) (k : ℕ) : Prop where
  head : d.parts.flatten = c.parts.flatten ++ (c.digests.take k).flatten
  plugins : d.plugins.map PluginConfig.hashText = (c.plugins.drop k).map PluginConfig.hashText

/-- Texts that read the same when they are joined are divided in the same way, and the texts
of neither configuration run on over digests of the other. -/
structure Config.Separable (c d : Config) : Prop where
  divided : c.RunsOver d 0 → lengths c.parts = lengths d.parts ∧
    c.plugins.map (fun pc => lengths pc.parts) = d.plugins.map fun pc => lengths pc.parts
  counted : ∀ k, 0 < k → ¬ c.RunsOver d k ∧ ¬ d.RunsOver c k

theorem Config.runsOver_zero : c.RunsOver d 0 ↔ d.parts.flatten = c.parts.flatten ∧
    d.plugins.map PluginConfig.hashText = c.plugins.map PluginConfig.hashText := by
  constructor
  · intro h
    refine ⟨?_, h.plugins⟩
    rw [h.head, List.take_zero, List.flatten_nil, List.append_nil]
  · rintro ⟨hhead, hplugins⟩
    refine ⟨?_, hplugins⟩
    rw [hhead, List.take_zero, List.flatten_nil, List.append_nil]

theorem Config.RunsOver.count {k : ℕ} (h : c.RunsOver d k) :
    d.plugins.length = c.plugins.length - k := by
  have hcount := congrArg List.length h.plugins
  rwa [List.length_map, List.length_map, List.length_drop] at hcount

theorem Faithful.runsOver_iff (h : Faithful S) (hc : c ∈ S) (hd : d ∈ S) (k : ℕ) :
    c.RunsOver d k ↔ d.parts.flatten = c.parts.flatten ++ (c.digests.take k).flatten ∧
      d.digests = c.digests.drop k := by
  have hdigests : d.digests = c.digests.drop k ↔
      d.plugins.map PluginConfig.hashText = (c.plugins.drop k).map PluginConfig.hashText := by
    unfold Config.digests
    rw [← List.map_drop, Blocks.map_eq_map_iff, Blocks.map_eq_map_iff]
    exact Blocks.forall₂_congr fun p hp q hq =>
      h.plugin_hash_eq_iff hd hc hp (List.mem_of_mem_drop hq)
  rw [hdigests]
  exact ⟨fun hr => ⟨hr.head, hr.plugins⟩, fun hr => ⟨hr.1, hr.2⟩⟩

/-- Hashes are equal exactly when the texts of one configuration run on over some of the
digests of the other. -/
theorem Faithful.hash_eq_iff_runsOver (h : Faithful S) (hc : c ∈ S) (hd : d ∈ S) :
    c.hash = d.hash ↔ (∃ k, c.RunsOver d k) ∨ ∃ k, d.RunsOver c k := by
  rw [h.hash_eq_iff hc hd, ← String.toList_inj, Config.toList_hashText, Config.toList_hashText,
    Blocks.append_flatten_eq_iff c.uniform_digests d.uniform_digests]
  simp only [h.runsOver_iff hc hd, h.runsOver_iff hd hc]

/-- Texts that are divided in the same way can be read back. -/
theorem parts_eq_of_lengths {p q : PluginConfig} (htext : p.hashText = q.hashText)
    (hlengths : lengths p.parts = lengths q.parts) : p.parts = q.parts := by
  rw [← String.toList_inj, PluginConfig.toList_hashText, PluginConfig.toList_hashText] at htext
  exact List.eq_iff_flatten_eq.mpr ⟨htext, hlengths⟩

theorem plugins_parts_eq_of_lengths {ps qs : List PluginConfig}
    (htexts : ps.map PluginConfig.hashText = qs.map PluginConfig.hashText)
    (hlengths : ps.map (fun pc => lengths pc.parts) = qs.map fun pc => lengths pc.parts) :
    ps.map PluginConfig.parts = qs.map PluginConfig.parts := by
  rw [Blocks.map_eq_map_iff] at htexts hlengths ⊢
  exact htexts.mp (fun p q => parts_eq_of_lengths) hlengths

theorem Config.plugins_length_pos (c : Config) : 0 < c.plugins.length := by
  simp [Config.plugins]

/-- **When the hash tells routes apart.**  Equal hashes mean equal routes exactly for
configurations that are not mixed up. -/
theorem Faithful.hash_eq_imp_same_iff (h : Faithful S) (hc : c ∈ S) (hd : d ∈ S) :
    (c.hash = d.hash → c.Same d) ↔ c.Separable d := by
  rw [h.hash_eq_iff_runsOver hc hd, h.same_iff hc hd]
  constructor
  · intro himp
    constructor
    · intro hzero
      obtain ⟨hparts, hplugins⟩ := himp (Or.inl ⟨0, hzero⟩)
      refine ⟨congrArg lengths hparts, ?_⟩
      have hlengths := congrArg (List.map lengths) hplugins
      rwa [List.map_map, List.map_map] at hlengths
    · -- with `k` digests in its texts a configuration has `k` plugins less
      intro k hk
      have hpos := c.plugins_length_pos
      have hpos' := d.plugins_length_pos
      constructor
      · intro hover
        have hcount := congrArg List.length (himp (Or.inl ⟨k, hover⟩)).2
        rw [List.length_map, List.length_map, hover.count] at hcount
        omega
      · intro hover
        have hcount := congrArg List.length (himp (Or.inr ⟨k, hover⟩)).2
        rw [List.length_map, List.length_map, hover.count] at hcount
        omega
  · intro hsep hover
    have hzero : c.RunsOver d 0 := by
      rcases hover with ⟨k, hk⟩ | ⟨k, hk⟩
      · rcases Nat.eq_zero_or_pos k with rfl | hpos
        · exact hk
        · exact absurd hk (hsep.counted k hpos).1
      · rcases Nat.eq_zero_or_pos k with rfl | hpos
        · obtain ⟨hhead, hplugins⟩ := Config.runsOver_zero.mp hk
          exact Config.runsOver_zero.mpr ⟨hhead.symm, hplugins.symm⟩
        · exact absurd hk (hsep.counted k hpos).2
    obtain ⟨hlengths, hplugins⟩ := hsep.divided hzero
    obtain ⟨hhead, htexts⟩ := Config.runsOver_zero.mp hzero
    exact ⟨List.eq_iff_flatten_eq.mpr ⟨hhead.symm, hlengths⟩,
      plugins_parts_eq_of_lengths htexts.symm hplugins⟩

end Route

namespace RoutingTable

variable {S : Set Route.Config} {region : String} {t : RoutingTable} {c d : Route.Config}
  {ops : List Op}

/-! ## Routes that share a live route -/

/-- Whatever routes from `S` the table has registered in calls that spare the live routes: a
registration of a route from `S` never leaves its key with a live route that is not the same
route. -/
def NeverMixes (region : String) (S : Set Route.Config) : Prop :=
  ∀ ops t c answers d, (∀ op ∈ ops, ∀ c, op.Registers c → c ∈ S) → Sparing region ops →
    Runs.run (step region) empty ops = some t → c ∈ S →
    (t.registerAndRunRoute region c answers).1.entry c.key = some d → c.Same d

/-- A live route from `S` that runs here and has the hash of a route from `S` with the key. -/
def Attached (region : String) (S : Set Route.Config) (key : String) (d : Route.Config) : Prop :=
  (d ∈ S ∧ RunsHere region d) ∧ ∃ c ∈ S, c.key = key ∧ RunsHere region c ∧ d.hash = c.hash

theorem attached_of_run (hS : ∀ op ∈ ops, ∀ c, op.Registers c → c ∈ S)
    (hspare : Sparing region ops) (hrun : Runs.run (step region) empty ops = some t) :
    ∀ key d, t.entry key = some d → Attached region S key d := by
  refine entries_of_run hspare ?_ ?_ hrun
  · intro op hop c hc hruns
    have hcS := hS op hop c hc
    exact ⟨⟨hcS, hruns⟩, c, hcS, rfl, hruns, rfl⟩
  · intro op hop c hc hruns key d hd hhash
    exact ⟨hd.1, c, hS op hop c hc, rfl, hruns, hhash⟩

/-- A registration after the run, like the handling of an event that adds the route. -/
theorem attached_of_register (hS : ∀ op ∈ ops, ∀ c, op.Registers c → c ∈ S)
    (hspare : Sparing region ops) (hrun : Runs.run (step region) empty ops = some t) (hc : c ∈ S)
    {answers : ℕ → Answers} {key : String}
    (hd : (t.registerAndRunRoute region c answers).1.entry key = some d) :
    Attached region S key d := by
  have hsync : Runs.run (step region) empty
      (ops ++ [.syncItem c.tenantId c.id true (.ok c) answers]) =
        some (t.registerAndRunRoute region c answers).1 := by
    rw [Runs.run_append, hrun]
    rfl
  have hspare' : Sparing region (ops ++ [.syncItem c.tenantId c.id true (.ok c) answers]) :=
    hspare.append hrun (show Runs.Along _ _ _ [_] from ⟨trivial, fun _ _ => trivial⟩)
  refine attached_of_run ?_ hspare' hsync key d hd
  intro op hop e he
  rcases List.mem_append.mp hop with hmem | hmem
  · exact hS op hmem e he
  · rw [List.mem_singleton.mp hmem] at he
    exact Except.ok.inj he.2 ▸ hc

/-- What a registration leaves under the key of the route has the hash of the route. -/
theorem Sound.register_hash (h : t.Sound) {answers : ℕ → Answers}
    (hd : (t.registerAndRunRoute region c answers).1.entry c.key = some d) : d.hash = c.hash := by
  obtain ⟨-, -, hcases⟩ := h.registerAndRunRoute region c answers
  rcases hcases with ⟨heq, hun⟩ | ⟨-, -, -, hentry⟩ | ⟨-, -, -, d', hd', hhash, -⟩ |
    ⟨-, -, -, hentry⟩
  · rw [hun] at hd
    obtain ⟨d', hd', hhash⟩ := hashAt_eq_some.mp heq
    rwa [Option.some.inj (hd.symm.trans hd')]
  · rw [hentry] at hd
    simp at hd
  · rwa [Option.some.inj (hd.symm.trans hd')]
  · rw [hentry] at hd
    simp at hd

/-- The table after one registration in which nothing fails. -/
theorem register_empty (hruns : RunsHere region d) {answers : ℕ → Answers}
    (hok : ∀ i, (answers i).Succeeds) :
    (empty.registerAndRunRoute region d answers).1.entry d.key = some d := by
  have hempty : ∀ key, empty.entry key = none := fun key => rfl
  have hnone := registerAndRunRoute_succeeds region empty d hok
  obtain ⟨-, -, hcases⟩ := sound_empty.registerAndRunRoute region d answers
  rcases hcases with ⟨heq, -⟩ | ⟨-, hnot, -, -⟩ | ⟨-, -, -, d', hd', -, rfl | ⟨k, -, hk⟩⟩ |
    ⟨-, -, hsome, -⟩
  · simp [hashAt, hempty] at heq
  · exact absurd hruns hnot
  · exact hd'
  · rw [hempty] at hk
    simp at hk
  · rw [hnone] at hsome
    simp at hsome

/-- A route with the hash of a live one is attached to it. -/
theorem Sound.register_shared (h : t.Sound) (hd : t.entry d.key = some d)
    (hruns : RunsHere region c ∨ c.key = d.key) (hhash : c.hash = d.hash) {answers : ℕ → Answers}
    (hok : ∀ i, (answers i).Succeeds) :
    (t.registerAndRunRoute region c answers).1.entry c.key = some d := by
  rcases eq_or_ne c.key d.key with hkey | hkey
  · have hsame : t.hashAt c.key = some c.hash := by
      rw [hkey, hashAt, hd, Option.map_some, hhash]
    rw [registerAndRunRoute_eq, if_pos hsame, hkey, hd]
  · have hnone := registerAndRunRoute_succeeds region t c hok
    obtain ⟨hsound, hother, hcases⟩ := h.registerAndRunRoute region c answers
    have hlive : (t.registerAndRunRoute region c answers).1.entry d.key = some d := by
      rw [hother d.key (Ne.symm hkey), hd]
    have hc : ∃ d', (t.registerAndRunRoute region c answers).1.entry c.key = some d' ∧
        d'.hash = c.hash := by
      rcases hcases with ⟨heq, hun⟩ | ⟨-, hnot, -, -⟩ | ⟨-, -, -, d', hd', hhash', -⟩ |
        ⟨-, -, hsome, -⟩
      · rw [hun]
        exact hashAt_eq_some.mp heq
      · exact absurd (hruns.resolve_right hkey) hnot
      · exact ⟨d', hd', hhash'⟩
      · rw [hnone] at hsome
        simp at hsome
    -- one live route for each hash
    obtain ⟨d', hd', hhash'⟩ := hc
    obtain ⟨w, hw, rfl⟩ := entry_eq_some.mp hd'
    obtain ⟨v, hv, hvd⟩ := entry_eq_some.mp hlive
    have hwv : w = v := hsound.eq_of_hash ⟨_, hw⟩ ⟨_, hv⟩ (by rw [hhash', hvd, hhash])
    rw [hd', hwv, hvd]

/-- **When routes are not mixed up.**  Equal hashes mean equal routes exactly for separable
configurations; and no run of the table attaches a route to a live route that is not the
same exactly when all routes that can meet there are separable. -/
theorem neverMixes_iff (h : Route.Faithful S) :
    (∀ c ∈ S, ∀ d ∈ S, ((c.hash = d.hash → c.Same d) ↔ c.Separable d)) ∧
      ∀ region, NeverMixes region S ↔ ∀ c ∈ S, ∀ d ∈ S, RunsHere region d →
        (RunsHere region c ∨ c.key = d.key) → c.Separable d := by
  refine ⟨fun c hc d hd => h.hash_eq_imp_same_iff hc hd, ?_⟩
  intro region
  constructor
  · intro hnever c hc d hd hruns hmeet
    rw [← h.hash_eq_imp_same_iff hc hd]
    intro hhash
    have hok : ∀ i, (sampleEnv.plugins i).Succeeds := fun _ => ⟨rfl, ⟨"h", rfl⟩, rfl, rfl⟩
    have hlive := register_empty hruns hok
    have hsound := (sound_empty.registerAndRunRoute region d sampleEnv.plugins).1
    refine hnever [.syncItem d.tenantId d.id true (.ok d) sampleEnv.plugins] _ c sampleEnv.plugins d
      ?_ ⟨trivial, fun _ _ => trivial⟩ rfl hc (hsound.register_shared hlive hmeet hhash hok)
    intro op hop e he
    rw [List.mem_singleton.mp hop] at he
    exact Except.ok.inj he.2 ▸ hd
  · intro hsep ops t c answers d hS hspare hrun hc hd
    have hhash := (sound_of_run hspare hrun).register_hash hd
    obtain ⟨⟨hdS, hruns⟩, c', hc', hkey, hruns', hhash'⟩ :=
      attached_of_register hS hspare hrun hc hd
    -- the route that had the key before and `c` are the same, so `c` runs here as well
    have hsame : c.Same c' := (h.hash_eq_imp_same_iff hc hc').mpr
      (hsep c hc c' hc' hruns' (Or.inr hkey.symm)) (hhash.symm.trans hhash')
    have hrunsc : RunsHere region c := by
      unfold RunsHere at hruns' ⊢
      rwa [hsame.region, hsame.inactive]
    exact (h.hash_eq_imp_same_iff hc hdS).mpr (hsep c hc d hdS hruns (Or.inl hrunsc)) hhash.symm

/-- A route of a tenant, from a debug receiver to a debug sender. -/
def tenantRoute (org app : String) : Route.Config :=
  { sampleRoute "r1" "" with tenantId := ⟨org, app⟩ }

/-- Two such routes are faithful if their texts, and the one of their plugins, do not collide. -/
theorem faithful_tenantRoutes {org app org' app' : String}
    (h : (tenantRoute org app).hash ≠ Hasher.string "debug")
    (h' : (tenantRoute org' app').hash ≠ Hasher.string "debug")
    (hboth : (tenantRoute org app).hash = (tenantRoute org' app').hash →
      (tenantRoute org app).hashText = (tenantRoute org' app').hashText) :
    Route.Faithful {tenantRoute org app, tenantRoute org' app'} := by
  have hplugins : ∀ c ∈ ({tenantRoute org app, tenantRoute org' app'} : Set Route.Config),
      ∀ pc ∈ c.plugins, pc = ⟨"debug", "", .null, ""⟩ := by
    rintro c (rfl | rfl) pc hpc <;>
      simpa [Route.Config.plugins, tenantRoute, sampleRoute] using hpc
  have htext : ∀ s ∈ Route.hashedTexts {tenantRoute org app, tenantRoute org' app'},
      s = (tenantRoute org app).hashText ∨ s = (tenantRoute org' app').hashText ∨ s = "debug" := by
    rintro s ⟨c, hc, hs | ⟨pc, hpc, hs⟩⟩
    · rcases hc with rfl | rfl
      · exact Or.inl hs
      · exact Or.inr (Or.inl hs)
    · rw [hplugins c hc pc hpc] at hs
      exact Or.inr (Or.inr hs)
  constructor
  · intro s hs s' hs' heq
    rcases htext s hs with rfl | rfl | rfl <;> rcases htext s' hs' with rfl | rfl | rfl
    · rfl
    · exact hboth heq
    · exact absurd heq h
    · exact (hboth heq.symm).symm
    · rfl
    · exact absurd heq h'
    · exact absurd heq.symm h
    · exact absurd heq.symm h'
    · rfl
  · rintro v ⟨c, hc, pc, hpc, rfl⟩ v' ⟨c', hc', pc', hpc', rfl⟩ -
    rw [hplugins c hc pc hpc, hplugins c' hc' pc' hpc']

/-- The routes of two applications of one organisation are told apart and never mixed up. -/
theorem neverMixes_applications :
    Route.Faithful {tenantRoute "acme" "tv", tenantRoute "acme" "web"} ∧
      NeverMixes "us-west" {tenantRoute "acme" "tv", tenantRoute "acme" "web"} := by
  have hne : (tenantRoute "acme" "tv").hash ≠ (tenantRoute "acme" "web").hash := by decide +kernel
  have hfaithful : Route.Faithful {tenantRoute "acme" "tv", tenantRoute "acme" "web"} :=
    faithful_tenantRoutes (by decide +kernel) (by decide +kernel) fun heq => absurd heq hne
  obtain ⟨hpairs, hnever⟩ := neverMixes_iff hfaithful
  refine ⟨hfaithful, (hnever "us-west").mpr ?_⟩
  intro c hc d hd _ _
  rw [← hpairs c hc d hd]
  intro hhash
  rcases hc with rfl | rfl <;> rcases hd with rfl | rfl
  · exact Route.Config.Same.refl _
  · exact absurd hhash hne
  · exact absurd hhash.symm hne
  · exact Route.Config.Same.refl _

/-- Organisation `a` with application `bc`, and organisation `ab` with application `c`: the
second route is attached to the live route of the other tenant. -/
theorem tenants_share_live_route :
    Route.Faithful {tenantRoute "a" "bc", tenantRoute "ab" "c"} ∧
    (tenantRoute "a" "bc").validate = .ok () ∧ (tenantRoute "ab" "c").validate = .ok () ∧
    (tenantRoute "a" "bc").hash = (tenantRoute "ab" "c").hash ∧
    ¬ (tenantRoute "a" "bc").Same (tenantRoute "ab" "c") ∧
    ∃ t, Runs.run (step "us-west") empty
        [.addRoute (some (tenantRoute "a" "bc")) sampleEnv,
          .addRoute (some (tenantRoute "ab" "c")) sampleEnv] = some t ∧
      (t.entry (tenantRoute "ab" "c").key).map Route.Config.tenantId = some ⟨"a", "bc"⟩ := by
  have htext : (tenantRoute "a" "bc").hashText = (tenantRoute "ab" "c").hashText := by
    decide +kernel
  refine ⟨faithful_tenantRoutes (by decide +kernel) (by decide +kernel) fun _ => htext,
    by decide, by decide, congrArg Hasher.string htext, ?_, ?_⟩
  · intro hsame
    have htenant : (⟨"a", "bc"⟩ : Tenant.Id) = ⟨"ab", "c"⟩ := hsame.tenantId
    exact absurd htenant (by decide)
  · refine ⟨_, rfl, ?_⟩
    decide +kernel

end RoutingTable
