/-
`auth.rs` and `middleware/auth.rs`: credentials, the check of a user and a password,
the same check with a cache, and the middleware in front of the handlers.

What is outside the repository is a parameter: `verify_password` is the SHA-512 crypt
verifier, `hash_auth_header` the default hasher over a credential string and
`base64_decode` the standard base64 decoder. Instants and durations are nanoseconds.
An addition to an instant panics when the sum is no instant any more, and a panic is
an outcome here (`none`): the request has no answer then.
-/
import Rshs.Str
import Rshs.Webdav

set_option autoImplicit false

namespace Rshs.Auth

open FinMap Rshs.Webdav

/-! ## Credentials -/

inductive Credential
  | Plaintext (password : List Char)
  | Sha512Crypt (hash : List Char)
deriving DecidableEq

/-- `HashMap<String, Credential>`. -/
abbrev Users := Map (List Char) Credential

/-- Hashed `Authorization` values, with the instants at which they are dropped. -/
abbrev AuthCache := Map UInt64 ℕ

structure AuthState where
  users : Users
  auth_cache : AuthCache
  auth_cache_ttl : ℕ

def AuthState.new : AuthState where
  users := ∅
  auth_cache := ∅
  auth_cache_ttl := Duration.from_secs 60

def AuthState.add_user (s : AuthState) (username password : List Char) : AuthState :=
  { s with users := s.users.insert username (.Plaintext password) }

def AuthState.is_empty (s : AuthState) : Bool := s.users.entries.isEmpty

/-- The value of `--shadow-file`. -/
structure ShadowFileArg where
  path : List Char
  writable : Bool
deriving DecidableEq

def ShadowFileArg.from_arg (s : List Char) : ShadowFileArg :=
  match Str.strip_suffix ":rw".toList s with
  | some path => ⟨path, true⟩
  | none =>
    match Str.strip_suffix ":ro".toList s with
    | some path => ⟨path, false⟩
    | none => ⟨s, true⟩

/-- The last instant: seconds are a signed 64-bit number. -/
def instant_max : ℕ := 2 ^ 63 * 1000000000 - 1

/-- `Instant + Duration`. -/
def instant_add (now ttl : ℕ) : Option ℕ := if now + ttl ≤ instant_max then some (now + ttl) else none

/-- `Duration::as_secs`. -/
def as_secs (d : ℕ) : ℕ := d / 1000000000

section Validate

variable (verify_password : List Char → List Char → Bool)

def AuthState.validate (s : AuthState) (username password : List Char) : Bool :=
  match s.users.lookup username with
  | some (.Plaintext expected) => expected = password
  | some (.Sha512Crypt hash) => verify_password password hash
  | none => false

/-- Whether the cache answers for a key at the reading `now`. -/
def AuthState.cached (s : AuthState) (header_hash : UInt64) (now : ℕ) : Bool :=
  (s.auth_cache.lookup header_hash).any fun e => e > now

/-- `validate_cached`, with the clock readings of its cache test and of its renewal:
the answer, none for a panic, and the cache. -/
def AuthState.validate_cached (s : AuthState) (username password : List Char)
    (header_hash : UInt64) (now later : ℕ) : Option Bool × AuthCache :=
  match s.users.lookup username with
  | some (.Plaintext expected) => (some (expected = password), s.auth_cache)
  | some (.Sha512Crypt hash) =>
    let cache_enabled := as_secs s.auth_cache_ttl > 0
    if cache_enabled && s.cached header_hash now then
      match instant_add later s.auth_cache_ttl with
      | none => (none, s.auth_cache)
      | some expiry => (some true, and_modify header_hash (fun _ => expiry) s.auth_cache)
    else
      let ok := verify_password password hash
      if ok && cache_enabled then
        match instant_add later s.auth_cache_ttl with
        | none => (none, s.auth_cache)
        | some expiry => (some ok, s.auth_cache.insert header_hash expiry)
      else (some ok, s.auth_cache)
  | none => (some false, s.auth_cache)

end Validate

/-! ## The middleware -/

section Middleware

variable (hash_auth_header : List Char → UInt64)
  (base64_decode : List Char → Option (List UInt8))
  (verify_password : List Char → List Char → Bool)

/-- The user and the password that a credential string stands for. -/
def decode_credentials (credentials : List Char) : Option (List Char × List Char) :=
  (base64_decode credentials).bind fun bytes =>
    (Str.from_utf8 bytes).bind (Str.split_once ':')

/-- The credential string of an `Authorization` header. -/
def basic_credentials (authorization : Option HeaderValue) : Option (List Char) :=
  authorization.bind fun v => v.to_str.bind (Str.strip_prefix "Basic ".toList)

def parse_basic_auth (authorization : Option HeaderValue) :
    Option (List Char × List Char × UInt64) :=
  (basic_credentials authorization).bind fun stripped =>
    (decode_credentials base64_decode stripped).map fun (user, pass) =>
      (user, pass, hash_auth_header stripped)

/-- What the middleware does with a request. -/
inductive Gate
  | run
  | unauthorized
  | panic
deriving DecidableEq

/-- Whether the request goes on to its handler, and the cache afterwards. -/
def auth_middleware (s : AuthState) (authorization : Option HeaderValue) (now later : ℕ) :
    Gate × AuthCache :=
  if s.is_empty then (.run, s.auth_cache)
  else
    match parse_basic_auth hash_auth_header base64_decode authorization with
    | none => (.unauthorized, s.auth_cache)
    | some (username, passwd, hash) =>
      match s.validate_cached verify_password username passwd hash now later with
      | (some true, cache) => (.run, cache)
      | (some false, cache) => (.unauthorized, cache)
      | (none, cache) => (.panic, cache)

/-- What the cleanup pass does to the cache. -/
def prune_cache (now : ℕ) (cache : AuthCache) : AuthCache :=
  retain (fun _ expiry => if expiry > now then some expiry else none) cache

end Middleware

/-! ## The two ways of a cached check -/

section Cases

variable {verify_password : List Char → List Char → Bool} {s : AuthState}
  {username password : List Char} {header_hash : UInt64} {now : ℕ}

/-- The check ends with a new expiry: it hits the cache, or the password verifies. -/
def AuthState.Renews (verify_password : List Char → List Char → Bool) (s : AuthState)
    (username password : List Char) (header_hash : UInt64) (now : ℕ) : Prop :=
  ∃ hash, s.users.lookup username = some (.Sha512Crypt hash) ∧ as_secs s.auth_cache_ttl > 0 ∧
    (s.cached header_hash now = true ∨ verify_password password hash = true)

/-- Then the answer is yes, unless the addition panics, and no other entry changes. -/
theorem validate_cached_renews (later : ℕ)
    (h : s.Renews verify_password username password header_hash now) :
    (s.validate_cached verify_password username password header_hash now later).1
        = (instant_add later s.auth_cache_ttl).map (fun _ => true) ∧
      ∀ k, k ≠ header_hash →
        (s.validate_cached verify_password username password header_hash now later).2.lookup k
          = s.auth_cache.lookup k := by
  obtain ⟨hash, hl, hen, hway⟩ := h
  unfold AuthState.validate_cached
  rw [hl]
  dsimp only
  by_cases hc : s.cached header_hash now = true
  · rw [if_pos (by simp [hen, hc])]
    cases instant_add later s.auth_cache_ttl with
    | none => exact ⟨rfl, fun k _ => rfl⟩
    | some expiry => exact ⟨rfl, fun k hk => lookup_and_modify_ne hk _ _⟩
  · have hv : verify_password password hash = true := hway.resolve_left hc
    rw [if_neg (by simp [hc]), if_pos (by simp [hen, hv]), hv]
    cases instant_add later s.auth_cache_ttl with
    | none => exact ⟨rfl, fun k _ => rfl⟩
    | some expiry => exact ⟨rfl, fun k hk => AList.lookup_insert_ne hk⟩

/-- Otherwise it is the check without a cache. -/
theorem validate_cached_plain {later : ℕ}
    (h : ¬ s.Renews verify_password username password header_hash now) :
    s.validate_cached verify_password username password header_hash now later
      = (some (s.validate verify_password username password), s.auth_cache) := by
  unfold AuthState.validate_cached AuthState.validate
  cases hl : s.users.lookup username with
  | none => rfl
  | some credential =>
    cases credential with
    | Plaintext expected => rfl
    | Sha512Crypt hash =>
      dsimp only
      have hno : as_secs s.auth_cache_ttl > 0 →
          s.cached header_hash now = false ∧ verify_password password hash = false := by
        intro hen
        by_contra hway
        apply h
        refine ⟨hash, hl, hen, ?_⟩
        by_contra hneither
        rw [not_or, Bool.not_eq_true, Bool.not_eq_true] at hneither
        exact hway hneither
      by_cases hen : as_secs s.auth_cache_ttl > 0
      · rw [if_neg (by simp [(hno hen).1]), if_neg (by simp [(hno hen).2])]
      · rw [if_neg (by simp [hen]), if_neg (by simp [hen])]

end Cases

end Rshs.Auth
