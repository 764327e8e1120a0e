/-
# Keys of tables and stores (`pkg/tenant/types.go`, `internal/pkg/app/handlers_v1.go`, `manager.go`)

What belongs to a tenant is kept under strings: `Key`, `KeyWithRoute` and `KeyWithFragment` of the
tenant, and `mapkey` of the plugin manager.  The last two join texts as they are.  They can be read
back because `getTenant` lets only tenants through whose parts have no dots and no slashes, and
`Validate` only names of plugins that have no slashes.

`storage_keys_inj` says that different arguments have different keys.
-/
import Ears.PluginManager
import Ears.Route

/-- A text of a first character, a middle part and a last character. -/
theorem forall_mem_of_ends {P : Char → Prop} {first last : Char} {rest : List Char}
    (hlast : rest.getLast? = some last) (hfirst : P first) (hend : P last)
    (hmiddle : ∀ c ∈ rest.dropLast, P c) : ∀ c ∈ first :: rest, P c := by
  intro c hc
  rcases List.mem_cons.mp hc with rfl | hc
  · exact hfirst
  · rw [← List.dropLast_append_getLast? last hlast] at hc
    rcases List.mem_append.mp hc with hc | hc
    · exact hmiddle c hc
    · rw [List.mem_singleton.mp hc]
      exact hend

/-! ## Tenants -/

namespace Tenant

open Route (alphanumeric)

/-- The class `[a-zA-Z0-9_\-]`. -/
def idCharacter (c : Char) : Bool := alphanumeric c || c == '_' || c == '-'

/-- `^[a-zA-Z0-9][a-zA-Z0-9_\-]*[a-zA-Z0-9]$|^[a-zA-Z0-9]+$`. -/
def matchesId (s : String) : Bool :=
  (match s.toList with
    | [] => false
    | first :: rest =>
        match rest.getLast? with
        | none => false
        | some last => alphanumeric first && alphanumeric last && rest.dropLast.all idCharacter) ||
  (s != "" && s.toList.all alphanumeric)

/-- `APP_ID_REGEX`. -/
def matchesAppId (s : String) : Bool := matchesId s

/-- `ORG_ID_REGEX`. -/
def matchesOrgId (s : String) : Bool := matchesId s

example : matchesOrgId "a" = true ∧ matchesOrgId "a_b-c" = true ∧ matchesOrgId "a-" = false ∧
    matchesOrgId "a.b" = false := by decide

theorem idCharacter_of_matchesId {s : String} (h : matchesId s = true) :
    ∀ c ∈ s.toList, idCharacter c = true := by
  have hclass : ∀ c, alphanumeric c = true → idCharacter c = true := by
    intro c hc
    rw [idCharacter, hc, Bool.true_or, Bool.true_or]
  rcases Bool.or_eq_true_iff.mp h with h | h
  · split at h
    · cases h
    · rename_i first rest hs
      split at h
      · cases h
      · rename_i last hlast
        simp only [Bool.and_eq_true, List.all_eq_true] at h
        rw [hs]
        exact forall_mem_of_ends hlast (hclass _ h.1.1) (hclass _ h.1.2) h.2
  · intro c hc
    exact hclass c (List.all_eq_true.mp (Bool.and_eq_true_iff.mp h).2 c hc)

/-- The parts of the tenant match `ORG_ID_REGEX` and `APP_ID_REGEX`. -/
structure Id.Accepted (tid : Id) : Prop where
  orgId : matchesOrgId tid.orgId = true
  appId : matchesAppId tid.appId = true

/-- A character outside the class is in no part of the tenant. -/
theorem Id.Accepted.free {tid : Id} (h : tid.Accepted) {d : Char} (hd : idCharacter d = false) :
    Delimiters.Free d [tid.orgId.toList, tid.appId.toList] := by
  have hnot : ∀ s, matchesId s = true → d ∉ s.toList := by
    intro s hs hmem
    have hclass := idCharacter_of_matchesId hs d hmem
    rw [hd] at hclass
    cases hclass
  exact Delimiters.free_cons.mpr ⟨hnot _ h.orgId, Delimiters.free_cons.mpr
    ⟨hnot _ h.appId, Delimiters.free_nil d⟩⟩

/-- `getTenant`, with the message of its `BadRequestError`. -/
def getTenant (vars : String → String) : Except String Id :=
  let orgId := vars "orgId"
  let appId := vars "appId"
  if orgId = "" ∨ appId = "" then
    if orgId = "" then .error "orgId empty" else .error "appId empty"
  else if matchesAppId appId = false then .error ("invalid app ID " ++ appId)
  else if matchesOrgId orgId = false then .error ("invalid org ID " ++ orgId)
  else .ok ⟨orgId, appId⟩

/-- The handlers work with accepted tenants only. -/
theorem getTenant_eq_ok_iff {vars : String → String} {tid : Id} :
    getTenant vars = .ok tid ↔ tid = ⟨vars "orgId", vars "appId"⟩ ∧ tid.Accepted := by
  have hne : ∀ s, matchesId s = true → s ≠ "" := by
    rintro s hs rfl
    exact absurd hs (by decide)
  unfold getTenant
  dsimp only
  constructor
  · intro h
    split_ifs at h with hempty horg happ horg'
    cases h
    exact ⟨rfl, Bool.not_eq_false _ ▸ horg', Bool.not_eq_false _ ▸ happ⟩
  · rintro ⟨rfl, horg, happ⟩
    rw [if_neg (not_or.mpr ⟨hne _ horg, hne _ happ⟩), if_neg (by rw [happ]; simp),
      if_neg (by rw [horg]; simp)]

end Tenant

/-! ## Plugins -/

namespace Route

theorem idCharacter_of_matchesRouteId {s : String} (h : matchesRouteId s = true) :
    ∀ c ∈ s.toList, idCharacter c = true := by
  have hclass : ∀ c, alphanumeric c = true → idCharacter c = true := by
    intro c hc
    rw [idCharacter, hc, Bool.true_or, Bool.true_or, Bool.true_or]
  unfold matchesRouteId at h
  split at h
  · cases h
  · rename_i first rest hs
    split at h
    · cases h
    · rename_i last hlast
      simp only [Bool.and_eq_true, List.all_eq_true] at h
      rw [hs]
      exact forall_mem_of_ends hlast (hclass _ h.1.1) (hclass _ h.1.2) h.2

/-- The name of a plugin is empty or matches `ROUTE_ID_REGEX`. -/
def Named (name : String) : Prop := name = "" ∨ matchesRouteId name = true

theorem named_of_validate {pc : PluginConfig} (h : pc.validate = .ok ()) : Named pc.name := by
  unfold PluginConfig.validate at h
  split_ifs at h with hplugin hname
  rcases not_and_or.mp hname with hempty | hmatch
  · exact Or.inl (not_not.mp hempty)
  · exact Or.inr (Bool.not_eq_false _ ▸ hmatch)

theorem Named.slash_not_mem {name : String} (h : Named name) : '/' ∉ name.toList := by
  rcases h with rfl | h
  · exact List.not_mem_nil
  · intro hmem
    exact absurd (idCharacter_of_matchesRouteId h '/' hmem) (by decide)

end Route

namespace Plugin

open Tenant (Id)

theorem mapkey_toList (tid : Id) (name hash : String) : (mapkey tid name hash).toList =
    ['/'].intercalate ([tid.orgId.toList, tid.appId.toList, name.toList] ++ [hash.toList]) := by
  simp [mapkey, String.toList_append]

/-- Where no other part has slashes, the key of a plugin determines its parts. -/
theorem mapkey_inj {tid tid' : Id} {name name' hash hash' : String} (h : tid.Accepted)
    (h' : tid'.Accepted) (hname : Route.Named name) (hname' : Route.Named name') :
    mapkey tid name hash = mapkey tid' name' hash' ↔
      tid = tid' ∧ name = name' ∧ hash = hash' := by
  have hfree : ∀ {tid : Id} {name : String}, tid.Accepted → Route.Named name →
      Delimiters.Free '/' [tid.orgId.toList, tid.appId.toList, name.toList] := by
    intro tid name h hname
    obtain ⟨horg, hrest⟩ := Delimiters.free_cons.mp (h.free (d := '/') (by decide))
    obtain ⟨happ, -⟩ := Delimiters.free_cons.mp hrest
    exact Delimiters.free_cons.mpr ⟨horg, Delimiters.free_cons.mpr ⟨happ,
      Delimiters.free_cons.mpr ⟨hname.slash_not_mem, Delimiters.free_nil '/'⟩⟩⟩
  rw [← String.toList_inj, mapkey_toList, mapkey_toList,
    Delimiters.intercalate_concat_inj (hfree h hname) (hfree h' hname') rfl, Tenant.Id.eq_iff]
  simp [String.toList_inj, and_assoc]

/-- **Different arguments have different keys.**  The tenants are those that `getTenant` lets
through, and the names of plugins those that `Validate` accepts; ids of routes and fragments and
hashes may be any texts. -/
theorem storage_keys_inj {tid tid' : Id} (h : tid.Accepted) (h' : tid'.Accepted)
    {name name' : String} (hname : Route.Named name) (hname' : Route.Named name')
    (routeId routeId' fragmentId fragmentId' hash hash' : String) :
    (tid.key = tid'.key ↔ tid = tid') ∧
    (tid.keyWithRoute routeId = tid'.keyWithRoute routeId' ↔ tid = tid' ∧ routeId = routeId') ∧
    (tid.keyWithFragment fragmentId = tid'.keyWithFragment fragmentId' ↔
      tid = tid' ∧ fragmentId = fragmentId') ∧
    (mapkey tid name hash = mapkey tid' name' hash' ↔
      tid = tid' ∧ name = name' ∧ hash = hash') ∧
    tid.key ≠ tid'.keyWithRoute routeId :=
  ⟨Tenant.key_inj, Tenant.keyWithRoute_inj,
    Tenant.keyWithFragment_inj (h.free (by decide)) (h'.free (by decide)),
    mapkey_inj h h' hname hname', Tenant.key_ne_keyWithRoute tid tid' routeId⟩

/-- Two tenants, and ids with dots in them. -/
theorem storage_keys_inj_sample :
    Id.key ⟨"acme", "tv"⟩ ≠ Id.key ⟨"acme", "tv-2"⟩ ∧
    Id.keyWithRoute ⟨"acme", "tv"⟩ "r.1" ≠ Id.keyWithRoute ⟨"acme", "tv-2"⟩ "r.1" ∧
    Id.keyWithFragment ⟨"acme", "tv"⟩ "f.1" ≠ Id.keyWithFragment ⟨"acme", "tv-2"⟩ "1" ∧
    mapkey ⟨"acme", "tv"⟩ "" "e8" ≠ mapkey ⟨"acme", "tv-2"⟩ "p.1" "e8" ∧
    Id.key ⟨"acme", "tv"⟩ ≠ Id.keyWithRoute ⟨"acme", "tv-2"⟩ "r.1" := by
  have h : (⟨"acme", "tv"⟩ : Id).Accepted := ⟨by decide, by decide⟩
  have h' : (⟨"acme", "tv-2"⟩ : Id).Accepted := ⟨by decide, by decide⟩
  have hname : Route.Named "" := Or.inl rfl
  have hname' : Route.Named "p.1" := Or.inr (by decide)
  obtain ⟨hkey, hroute, hfragment, hmapkey, hne⟩ :=
    storage_keys_inj h h' hname hname' "r.1" "r.1" "f.1" "1" "e8" "e8"
  have htid : (⟨"acme", "tv"⟩ : Id) ≠ ⟨"acme", "tv-2"⟩ := by decide
  exact ⟨fun h => htid (hkey.mp h), fun h => htid (hroute.mp h).1, fun h => htid (hfragment.mp h).1,
    fun h => htid (hmapkey.mp h).1, hne⟩

end Plugin
