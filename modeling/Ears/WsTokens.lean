/-
# Tokens of the web service filter (`pkg/filter/ws/webservice.go`)

A filter with SAT authorization sends a bearer token, which `getSatBearerToken` keeps for each
client id until it expires.  The tokens are in a map of pointers, and the code reads a field of
the entry without asking whether there is one: for a client id without an entry that is a nil
pointer, and the call panics, the first time with the lock of the filter in its hands.

`lawful_iff`: a new filter has no entries, and so its first call panics, and all calls after it
wait for the lock (`outcomes_newFilter`).  `panicked_iff` says for any cache which calls panic.
-/
import Ears.CredentialVault

namespace Ws

open AppSecret (SatToken)

/-- What `getSatBearerToken` uses of a filter: its lock and the tokens.  `issued` lists the tokens
that the endpoint has issued so far, with the client ids they were issued for. -/
structure Filter where
  locked : Bool
  satTokens : String → Option SatToken
  issued : List (String × SatToken)

/-- `NewFilter`. -/
def newFilter : Filter where
  locked := false
  satTokens := fun _ => none
  issued := []

/-- A call: the readings of the clock when it looks at the cache, when an answer has come and when
it returns, the error of `http.NewRequest`, and the answer of the token endpoint. -/
structure Call where
  clientId : String
  clientSecret : String
  checked : Int64
  answered : Int64
  returned : Int64
  request : Option String := none
  answer : Except String (Option Json)

/-- How a call ends: with a token or an error, by a nil pointer, or not at all. -/
inductive Outcome where
  | token (t : String)
  | error (err : String)
  | panicked
  | blocked
  deriving DecidableEq, Repr

/-- The text of a token in the `Authorization` header. -/
def bearer (satToken : SatToken) : String := satToken.tokenType ++ " " ++ satToken.accessToken

/-- The second half of `getSatBearerToken`: the request for a new token. -/
def requestToken (f : Filter) (c : Call) : Filter × Outcome :=
  match c.request with
  | some err => (f, .error err)
  | none =>
  match c.answer with
  | .error err => (f, .error err)
  | .ok body =>
      let r := AppSecret.decode body
      if r.2 then
        let satToken := r.1.apply {}
        let satToken := { satToken with expiresAt := c.answered + satToken.expiresIn }
        ({ f with
            satTokens := Function.update f.satTokens c.clientId (some satToken)
            issued := f.issued ++ [(c.clientId, satToken)] }, .token (bearer satToken))
      else (f, .error "cannot unmarshal")

/-- `getSatBearerToken`. -/
def getSatBearerToken (f : Filter) (c : Call) : Filter × Outcome :=
  if f.locked then (f, .blocked)
  else
    match f.satTokens c.clientId with
    | none => ({ f with locked := true }, .panicked)
    | some satToken =>
        let f :=
          if c.checked ≥ satToken.expiresAt then
            { f with satTokens := Function.update f.satTokens c.clientId none }
          else f
        -- the lock is free again
        match f.satTokens c.clientId with
        | none => (f, .panicked)
        | some satToken =>
            if satToken.accessToken ≠ "" then (f, .token (bearer satToken)) else requestToken f c

/-- The calls in order, each with the filter after it and its outcome. -/
def calls (f : Filter) : List Call → List (Call × Filter × Outcome)
  | [] => []
  | c :: cs => (c, getSatBearerToken f c) :: calls (getSatBearerToken f c).1 cs

/-- A call that comes to no missing entry, leaves the lock free, and returns a token only if it was
issued for the client id and has not expired. -/
def LawfulCall (c : Call) (r : Filter × Outcome) : Prop :=
  r.2 ≠ .panicked ∧ r.1.locked = false ∧
    ∀ t, r.2 = .token t → ∃ satToken, (c.clientId, satToken) ∈ r.1.issued ∧ t = bearer satToken ∧
      c.returned < satToken.expiresAt

/-- All calls are lawful. -/
def Lawful (f : Filter) (cs : List Call) : Prop := ∀ r ∈ calls f cs, LawfulCall r.1 r.2

variable {f : Filter} {c : Call}

/-- Without an entry for the client id. -/
theorem getSatBearerToken_of_none (hlocked : f.locked = false)
    (h : f.satTokens c.clientId = none) :
    getSatBearerToken f c = ({ f with locked := true }, .panicked) := by
  unfold getSatBearerToken
  rw [hlocked, h]
  rfl

theorem getSatBearerToken_of_locked (hlocked : f.locked = true) :
    getSatBearerToken f c = (f, .blocked) := by
  unfold getSatBearerToken
  rw [if_pos hlocked]

theorem requestToken_ne_panicked : (requestToken f c).2 ≠ .panicked := by
  unfold requestToken
  split
  · simp
  · split
    · simp
    · dsimp only
      split <;> simp

/-- A call panics exactly when there is no entry for its client id, or one that has expired. -/
theorem panicked_iff (hlocked : f.locked = false) :
    (getSatBearerToken f c).2 = .panicked ↔
      ∀ satToken, f.satTokens c.clientId = some satToken → c.checked ≥ satToken.expiresAt := by
  cases h : f.satTokens c.clientId with
  | none =>
      rw [getSatBearerToken_of_none hlocked h]
      simp
  | some satToken =>
      unfold getSatBearerToken
      rw [if_neg (by rw [hlocked]; decide), h]
      dsimp only
      by_cases hexpired : c.checked ≥ satToken.expiresAt
      · -- the entry is deleted, and then read
        rw [if_pos hexpired]
        simp [hexpired]
      · rw [if_neg hexpired, h]
        dsimp only
        refine iff_of_false ?_ fun hall => hexpired (hall satToken rfl)
        split
        · simp
        · exact requestToken_ne_panicked

/-- Nobody gets past a lock that is not given back. -/
theorem outcomes_of_locked (hlocked : f.locked = true) (cs : List Call) :
    (calls f cs).map (fun r => r.2.2) = List.replicate cs.length .blocked := by
  induction cs with
  | nil => rfl
  | cons c cs ih =>
      rw [calls, getSatBearerToken_of_locked hlocked, List.map_cons, ih]
      rfl

/-- The first call to a new filter panics, and the others wait for good. -/
theorem outcomes_newFilter (c : Call) (cs : List Call) :
    (calls newFilter (c :: cs)).map (fun r => r.2.2) =
      .panicked :: List.replicate cs.length .blocked := by
  rw [calls, getSatBearerToken_of_none rfl rfl, List.map_cons, outcomes_of_locked rfl]

/-- **The calls to a new filter are lawful** only when there are none. -/
theorem lawful_iff (cs : List Call) : Lawful newFilter cs ↔ cs = [] := by
  constructor
  · intro h
    cases cs with
    | nil => rfl
    | cons c cs =>
        have hfirst := (h (c, getSatBearerToken newFilter c) List.mem_cons_self).1
        exact absurd ((panicked_iff rfl).mpr fun satToken hsome => by cases hsome) hfirst
  · rintro rfl r hr
    cases hr

/-- A request to an endpoint that answers with a token for an hour. -/
def sampleCall : Call where
  clientId := "client"
  clientSecret := "secret"
  checked := 1600000000
  answered := 1600000001
  returned := 1600000001
  answer := .ok (some (.obj [("access_token", .str "a"), ("expires_in", .num "3600"),
    ("token_type", .str "Bearer")]))

/-- The first use of a filter. -/
theorem not_lawful_first : ¬ Lawful newFilter [sampleCall] ∧
    getSatBearerToken newFilter sampleCall = ({ newFilter with locked := true }, .panicked) := by
  refine ⟨fun h => ?_, rfl⟩
  exact (h _ List.mem_cons_self).1 rfl

end Ws
