/-
# Tenants (`pkg/tenant/types.go`)

A tenant is an organisation and an application.  The tables of the program are Go maps
over strings, and `Key` and `KeyWithRoute` make the strings: the base64 texts of the
parts, separated by dots.  No dot occurs in a base64 text, so a key determines the
tenant and the route it was made from (`keyWithRoute_inj`).  `KeyWithFragment` takes the
parts as they are.
-/
import Ears.Base64
import Ears.Delimiters

namespace Tenant

/-- `tenant.Id`. -/
structure Id where
  orgId : String
  appId : String
  deriving DecidableEq, Repr

/-- `base64.StdEncoding.EncodeToString([]byte(s))`. -/
def encodeToString (s : String) : String := String.ofList (Base64.encode s.toUTF8.data.toList)

/-- The separator of the parts of a key. -/
def delimiter : String := "."

namespace Id

/-- `Key()`. -/
def key (id : Id) : String := encodeToString id.orgId ++ delimiter ++ encodeToString id.appId

/-- `KeyWithRoute(routeId)`. -/
def keyWithRoute (id : Id) (routeId : String) : String :=
  id.key ++ delimiter ++ encodeToString routeId

/-- `KeyWithFragment(fragmentId)`. -/
def keyWithFragment (id : Id) (fragmentId : String) : String :=
  id.orgId ++ delimiter ++ id.appId ++ delimiter ++ fragmentId

example : keyWithRoute ⟨"acme", "tv"⟩ "r1" = "YWNtZQ==.dHY=.cjE=" := by decide +kernel

end Id

/-! ## Keys determine what they are made from -/

theorem encodeToString_injective : Function.Injective encodeToString := by
  intro s t h
  have hchars := congrArg String.toList h
  rw [encodeToString, encodeToString, String.toList_ofList, String.toList_ofList] at hchars
  apply String.toByteArray_inj.mp
  apply ByteArray.ext
  exact Array.toList_inj.mp (Base64.encode_injective hchars)

theorem dot_not_mem_encodeToString (s : String) : '.' ∉ (encodeToString s).toList := by
  rw [encodeToString, String.toList_ofList]
  exact Base64.not_mem_encode (by decide) (by decide) _

/-- The base64 texts of some strings, joined by dots. -/
def encoded (ss : List String) : List Char :=
  ['.'].intercalate (ss.map fun s => (encodeToString s).toList)

/-- Base64 texts that are joined by dots determine the strings. -/
theorem encoded_inj {ss ts : List String} (hss : ss ≠ []) (hts : ts ≠ []) :
    encoded ss = encoded ts ↔ ss = ts := by
  have hfree : ∀ ss : List String,
      Delimiters.Free '.' (ss.map fun s => (encodeToString s).toList) := by
    intro ss p hp
    obtain ⟨s, -, rfl⟩ := List.mem_map.mp hp
    exact dot_not_mem_encodeToString s
  have hinj : Function.Injective fun s => (encodeToString s).toList :=
    fun _ _ h => encodeToString_injective (String.toList_inj.mp h)
  unfold encoded
  rw [Delimiters.intercalate_inj (hfree ss) (hfree ts) (by simpa using hss) (by simpa using hts),
    (List.map_injective_iff.mpr hinj).eq_iff]

theorem Id.key_toList (id : Id) : id.key.toList = encoded [id.orgId, id.appId] := by
  simp [Id.key, delimiter, encoded, String.toList_append]

theorem Id.keyWithRoute_toList (id : Id) (routeId : String) :
    (id.keyWithRoute routeId).toList = encoded [id.orgId, id.appId, routeId] := by
  simp [Id.keyWithRoute, Id.key, delimiter, encoded, String.toList_append]

theorem Id.keyWithFragment_toList (id : Id) (fragmentId : String) :
    (id.keyWithFragment fragmentId).toList =
      ['.'].intercalate ([id.orgId.toList, id.appId.toList] ++ [fragmentId.toList]) := by
  simp [Id.keyWithFragment, delimiter, String.toList_append]

theorem Id.eq_iff {tid tid' : Id} :
    tid = tid' ↔ tid.orgId = tid'.orgId ∧ tid.appId = tid'.appId := by
  cases tid
  cases tid'
  rw [Id.mk.injEq]

/-- A key determines the tenant. -/
theorem key_inj {tid tid' : Id} : tid.key = tid'.key ↔ tid = tid' := by
  rw [← String.toList_inj, Id.key_toList, Id.key_toList,
    encoded_inj (List.cons_ne_nil _ _) (List.cons_ne_nil _ _), Id.eq_iff]
  simp

/-- A route key determines the tenant and the route id. -/
theorem keyWithRoute_inj {tid tid' : Id} {rid rid' : String} :
    tid.keyWithRoute rid = tid'.keyWithRoute rid' ↔ tid = tid' ∧ rid = rid' := by
  rw [← String.toList_inj, Id.keyWithRoute_toList, Id.keyWithRoute_toList,
    encoded_inj (List.cons_ne_nil _ _) (List.cons_ne_nil _ _), Id.eq_iff]
  simp [and_assoc]

/-- The key of a tenant is no route key. -/
theorem key_ne_keyWithRoute (tid tid' : Id) (rid : String) :
    tid.key ≠ tid'.keyWithRoute rid := by
  rw [ne_eq, ← String.toList_inj, Id.key_toList, Id.keyWithRoute_toList,
    encoded_inj (List.cons_ne_nil _ _) (List.cons_ne_nil _ _)]
  simp

/-- Where the parts of a tenant have no dots, the key of a fragment determines the tenant and the
fragment. -/
theorem keyWithFragment_inj {tid tid' : Id} {fid fid' : String}
    (hfree : Delimiters.Free '.' [tid.orgId.toList, tid.appId.toList])
    (hfree' : Delimiters.Free '.' [tid'.orgId.toList, tid'.appId.toList]) :
    tid.keyWithFragment fid = tid'.keyWithFragment fid' ↔ tid = tid' ∧ fid = fid' := by
  rw [← String.toList_inj, Id.keyWithFragment_toList, Id.keyWithFragment_toList,
    Delimiters.intercalate_concat_inj hfree hfree' rfl, Id.eq_iff]
  simp [String.toList_inj]

end Tenant
