/-
The authentication cache over whole runs: a check with the cache answers like the
check without it.

A hit compares nothing but the hash of the header, so the invariant ties every key of
the cache to a header that was presented and whose password verified (`Sound`). One
request adds a key only for such a header, and neither a renewal nor the cleanup pass
adds one. With a hash that tells the presented headers apart, a hit then belongs to
the header at hand.

What the cache can spoil is the sum of the clock and the lifetime it is given: when
it is past the last instant the addition panics, and the request has no answer.
-/
import Rshs.Auth
import Rshs.Lts
import Mathlib.Data.Set.Function

set_option autoImplicit false

namespace Rshs.AuthCache

open FinMap Rshs.Webdav Rshs.Auth

/-! ## Runs -/

/-- The cache, the last clock reading, and the credentials presented so far. -/
structure CacheState where
  auth_cache : AuthCache
  clock : ℕ
  /-- The credential strings of the requests so far. -/
  presented : List (List Char)

/-- A request with its two clock readings, time passing, or a cleanup. -/
inductive CacheEvent
  | request (authorization : Option HeaderValue) (now later : ℕ)
  | advance (now : ℕ)
  | cleanup (now : ℕ)

section Runs

variable (hash_auth_header : List Char → UInt64)
  (base64_decode : List Char → Option (List UInt8))
  (verify_password : List Char → List Char → Bool)
  (users : Users) (auth_cache_ttl : ℕ)

/-- The configuration with the cache of a state. -/
def CacheState.auth (s : CacheState) : AuthState := ⟨users, s.auth_cache, auth_cache_ttl⟩

inductive Step : CacheState → CacheEvent → CacheState → Prop
  | request (s : CacheState) (authorization : Option HeaderValue) (now later : ℕ)
      (hnow : s.clock ≤ now) (hlater : now ≤ later) :
      Step s (.request authorization now later)
        { auth_cache := (auth_middleware hash_auth_header base64_decode verify_password
            (s.auth users auth_cache_ttl) authorization now later).2
          clock := later
          presented := (basic_credentials authorization).toList ++ s.presented }
  | advance (s : CacheState) (now : ℕ) (hnow : s.clock ≤ now) :
      Step s (.advance now) { s with clock := now }
  | cleanup (s : CacheState) (now : ℕ) (hnow : s.clock ≤ now) :
      Step s (.cleanup now) { s with auth_cache := prune_cache now s.auth_cache, clock := now }

/-- An empty cache, and nothing presented. -/
def Initial (s : CacheState) : Prop := s.auth_cache = ∅ ∧ s.presented = []

/-- The credential string names a user whose hash its password verifies against. -/
def Verified (credentials : List Char) : Prop :=
  ∃ username password hash,
    decode_credentials base64_decode credentials = some (username, password) ∧
    users.lookup username = some (.Sha512Crypt hash) ∧ verify_password password hash = true

/-- Every key is the hash of a presented header that verified. -/
def Sound (s : CacheState) : Prop :=
  ∀ k e, s.auth_cache.lookup k = some e → ∃ credentials ∈ s.presented,
    hash_auth_header credentials = k ∧ Verified base64_decode verify_password users credentials

end Runs

section Results

variable {hash_auth_header : List Char → UInt64}
  {base64_decode : List Char → Option (List UInt8)}
  {verify_password : List Char → List Char → Bool}
  {users : Users} {auth_cache_ttl : ℕ} {s t : CacheState}

/-! ## The invariant -/

/-- A cleanup removes entries only. -/
theorem lookup_prune {now : ℕ} {cache : AuthCache} {k : UInt64} {e : ℕ}
    (h : (prune_cache now cache).lookup k = some e) : cache.lookup k = some e := by
  unfold prune_cache at h
  rw [lookup_retain, Option.bind_eq_some_iff] at h
  obtain ⟨e', he', hkeep⟩ := h
  by_cases hlive : e' > now
  · rw [if_pos hlive] at hkeep
    rw [he', hkeep]
  · rw [if_neg hlive] at hkeep
    cases hkeep

/-- What a parsed header consists of. -/
theorem parse_basic_auth_some {authorization : Option HeaderValue} {username password : List Char}
    {h : UInt64} (hparse : parse_basic_auth hash_auth_header base64_decode authorization
      = some (username, password, h)) :
    ∃ credentials, basic_credentials authorization = some credentials ∧
      decode_credentials base64_decode credentials = some (username, password) ∧
      hash_auth_header credentials = h := by
  unfold parse_basic_auth at hparse
  obtain ⟨credentials, hcred, hmap⟩ := Option.bind_eq_some_iff.mp hparse
  obtain ⟨pair, hdec, heq⟩ := Option.map_eq_some_iff.mp hmap
  obtain ⟨u, p⟩ := pair
  cases heq
  exact ⟨credentials, hcred, hdec, rfl⟩

/-- A hit on the hash of a presented header is a hit of that header. -/
theorem cached_verified (hsound : Sound hash_auth_header base64_decode verify_password users s)
    {presented : List (List Char)} (hsub : ∀ x ∈ s.presented, x ∈ presented)
    (hinj : Set.InjOn hash_auth_header {x | x ∈ presented}) {credentials : List Char}
    (hmem : credentials ∈ presented) {now : ℕ}
    (hcached : (s.auth users auth_cache_ttl).cached (hash_auth_header credentials) now = true) :
    Verified base64_decode verify_password users credentials := by
  unfold AuthState.cached at hcached
  rw [Option.any_eq_true] at hcached
  obtain ⟨e, he, -⟩ := hcached
  obtain ⟨other, hother, hhash, hver⟩ := hsound _ e he
  have heq : other = credentials := hinj (hsub other hother) hmem hhash
  rw [← heq]
  exact hver

/-- One step keeps the invariant. A key that a request adds is the hash of its own
header, and it is added because the password verified or because it was there. -/
theorem step_sound {e : CacheEvent}
    (hs : Step hash_auth_header base64_decode verify_password users auth_cache_ttl s e t)
    (hsound : Sound hash_auth_header base64_decode verify_password users s) :
    Sound hash_auth_header base64_decode verify_password users t := by
  cases hs with
  | request authorization now later hnow hlater =>
    intro k expiry hk
    dsimp only at hk ⊢
    -- whatever was a key before still has its header among the presented ones
    have hold : ∀ e', s.auth_cache.lookup k = some e' → ∃ credentials ∈
        (basic_credentials authorization).toList ++ s.presented,
        hash_auth_header credentials = k ∧
          Verified base64_decode verify_password users credentials := by
      intro e' he'
      obtain ⟨credentials, hmem, hhash, hver⟩ := hsound k e' he'
      exact ⟨credentials, List.mem_append_right _ hmem, hhash, hver⟩
    unfold auth_middleware at hk
    split at hk
    · exact hold _ hk
    · split at hk
      · exact hold _ hk
      · rename_i username password h hparse
        have hcache : ((s.auth users auth_cache_ttl).validate_cached verify_password username
            password h now later).2.lookup k = some expiry := by
          split at hk
          all_goals
            rename_i hres
            rw [hres]
            exact hk
        by_cases hren : (s.auth users auth_cache_ttl).Renews verify_password username password h now
        · obtain ⟨-, hother⟩ := validate_cached_renews later hren
          by_cases hkh : k = h
          · obtain ⟨credentials, hcred, hdec, hhash⟩ := parse_basic_auth_some hparse
            obtain ⟨hash, hl, -, hway⟩ := hren
            rcases hway with hcached | hver
            · unfold AuthState.cached at hcached
              rw [Option.any_eq_true] at hcached
              obtain ⟨e', he', -⟩ := hcached
              rw [← hkh] at he'
              exact hold e' he'
            · refine ⟨credentials, List.mem_append_left _ ?_, by rw [hhash, hkh],
                username, password, hash, hdec, hl, hver⟩
              rw [hcred]
              exact List.mem_singleton.mpr rfl
          · rw [hother k hkh] at hcache
            exact hold _ hcache
        · rw [validate_cached_plain hren] at hcache
          exact hold _ hcache
  | advance now hnow => exact hsound
  | cleanup now hnow =>
    intro k expiry hk
    exact hsound k expiry (lookup_prune hk)

/-- In every state reached, the cache has verified credentials only. -/
theorem reachable_sound (hreach : Lts.Reachable
      (Step hash_auth_header base64_decode verify_password users auth_cache_ttl) Initial s) :
    Sound hash_auth_header base64_decode verify_password users s := by
  apply hreach.invariant
  · intro s₀ hinit k e hk
    rw [hinit.1] at hk
    cases hk
  · intro u a v hu hstep
    exact step_sound hstep hu

/-! ## Transparency -/

/-- The user's hash verifies and there is a cache to write to: the check renews an
expiry. -/
def Renewing (base64_decode : List Char → Option (List UInt8))
    (verify_password : List Char → List Char → Bool) (users : Users) (auth_cache_ttl : ℕ)
    (credentials : List Char) : Prop :=
  Verified base64_decode verify_password users credentials ∧ as_secs auth_cache_ttl > 0

/-- **When the cache is transparent.** In every reachable state and for every header
that carries a user and a password: the cached check gives the answer of the check
without a cache, with only verified keys in the cache afterwards, if and only if it
does not have to renew an expiry past the last instant. -/
theorem cache_transparent_iff
    (hreach : Lts.Reachable
      (Step hash_auth_header base64_decode verify_password users auth_cache_ttl) Initial s)
    {authorization : Option HeaderValue} {now later : ℕ}
    (hs : Step hash_auth_header base64_decode verify_password users auth_cache_ttl s
      (.request authorization now later) t)
    (hinj : Set.InjOn hash_auth_header {x | x ∈ t.presented})
    {username password credentials : List Char}
    (hcred : basic_credentials authorization = some credentials)
    (hdec : decode_credentials base64_decode credentials = some (username, password)) :
    (((s.auth users auth_cache_ttl).validate_cached verify_password username password
          (hash_auth_header credentials) now later).1
        = some ((s.auth users auth_cache_ttl).validate verify_password username password) ∧
      Sound hash_auth_header base64_decode verify_password users t) ↔
    (Renewing base64_decode verify_password users auth_cache_ttl credentials →
      later + auth_cache_ttl ≤ instant_max) := by
  have hsound := reachable_sound hreach
  have hpresented : t.presented = [credentials] ++ s.presented := by
    cases hs with
    | request _ _ _ hnow hlater => rw [hcred, Option.toList_some]
  have hmem : credentials ∈ t.presented := by
    rw [hpresented]
    exact List.mem_append_left _ (List.mem_singleton.mpr rfl)
  have hsub : ∀ x ∈ s.presented, x ∈ t.presented := by
    intro x hx
    rw [hpresented]
    exact List.mem_append_right _ hx
  by_cases hren : (s.auth users auth_cache_ttl).Renews verify_password username password
      (hash_auth_header credentials) now
  · -- a hit verifies too, so the check without a cache says yes
    have hver : Verified base64_decode verify_password users credentials := by
      obtain ⟨hash, hl, -, hway⟩ := hren
      rcases hway with hcached | hver
      · exact cached_verified hsound hsub hinj hmem hcached
      · exact ⟨username, password, hash, hdec, hl, hver⟩
    have hyes : (s.auth users auth_cache_ttl).validate verify_password username password = true := by
      obtain ⟨u, p, hash, hdec', hl, hv⟩ := hver
      rw [hdec] at hdec'
      cases hdec'
      unfold AuthState.validate
      rw [show (s.auth users auth_cache_ttl).users.lookup username = _ from hl]
      exact hv
    have hen : as_secs auth_cache_ttl > 0 := by
      obtain ⟨hash, -, hen, -⟩ := hren
      exact hen
    obtain ⟨hanswer, -⟩ := validate_cached_renews later hren
    have hanswer' : ((s.auth users auth_cache_ttl).validate_cached verify_password username password
        (hash_auth_header credentials) now later).1
          = (instant_add later auth_cache_ttl).map (fun _ => true) := hanswer
    rw [hanswer', hyes]
    unfold instant_add
    constructor
    · intro h _
      by_contra hover
      rw [if_neg hover] at h
      cases h.1
    · intro h
      rw [if_pos (h ⟨hver, hen⟩)]
      exact ⟨rfl, step_sound hs hsound⟩
  · rw [validate_cached_plain hren]
    constructor
    · intro _ hrenewing
      -- a password that verifies would have renewed the expiry
      obtain ⟨⟨u, p, hash, hdec', hl, hv⟩, hen⟩ := hrenewing
      rw [hdec] at hdec'
      cases hdec'
      exact absurd ⟨hash, hl, hen, Or.inr hv⟩ hren
    · intro _
      exact ⟨rfl, step_sound hs hsound⟩

end Results

/-! ## A lifetime that is too long -/

/-- The credential string of user `a` with password `b`. -/
def a_b : List Char := "YTpi".toList

/-- A decoder that knows the text of `a:b`. -/
def decode_a_b (credentials : List Char) : Option (List UInt8) :=
  if credentials = a_b then some [97, 58, 98] else none

/-- A verifier that knows the password of `a`. -/
def verify_b (password hash : List Char) : Bool := password = ['b'] && hash = "$6$s$h".toList

def only_a : Users := (∅ : Users).insert ['a'] (.Sha512Crypt "$6$s$h".toList)

def basic_a_b : Option HeaderValue := some (Text.utf8_encode "Basic YTpi".toList)

def fresh : CacheState := ⟨∅, 0, []⟩

/-- One header is told apart from all others presented. -/
theorem only_presented : Set.InjOn (fun _ => (0 : UInt64))
    {x | x ∈ (basic_credentials basic_a_b).toList ++ fresh.presented} := by
  have hone : (basic_credentials basic_a_b).toList ++ fresh.presented = [a_b] := by decide
  rw [hone]
  intro x hx y hy _
  have hx' : x ∈ [a_b] := hx
  have hy' : y ∈ [a_b] := hy
  rw [List.mem_singleton] at hx' hy'
  rw [hx', hy']

theorem cache_transparent_a :
    (((fresh.auth only_a (Duration.from_secs 60)).validate_cached verify_b ['a'] ['b'] 0 0 0).1
        = some ((fresh.auth only_a (Duration.from_secs 60)).validate verify_b ['a'] ['b']) ∧
      Sound (fun _ => 0) decode_a_b verify_b only_a
        { auth_cache := (auth_middleware (fun _ => 0) decode_a_b verify_b
            (fresh.auth only_a (Duration.from_secs 60)) basic_a_b 0 0).2
          clock := 0
          presented := (basic_credentials basic_a_b).toList ++ [] }) ↔
    (Renewing decode_a_b verify_b only_a (Duration.from_secs 60) a_b →
      0 + Duration.from_secs 60 ≤ instant_max) :=
  cache_transparent_iff ⟨fresh, [], ⟨rfl, rfl⟩, Lts.Run.nil _⟩
    (Step.request fresh basic_a_b 0 0 (Nat.le_refl 0) (Nat.le_refl 0))
    only_presented (show basic_credentials basic_a_b = some a_b by decide)
    (show decode_credentials decode_a_b a_b = some (['a'], ['b']) by decide)

/-- With the longest lifetime a command line can give, a password that verifies gets
no answer. -/
theorem longest_lifetime_panics :
    ¬ ((fresh.auth only_a (Duration.from_secs (2 ^ 64 - 1))).validate_cached verify_b ['a'] ['b']
        0 0 0).1
      = some ((fresh.auth only_a (Duration.from_secs (2 ^ 64 - 1))).validate verify_b ['a'] ['b']) := by
  decide

end Rshs.AuthCache
