/-
`server/mod.rs` with its middleware: a message from the wire to its answer.

`make_router` stacks the layers as the server does: the health check is the outermost, then
come the two gates, of the identity header and of the credentials, then the lock check, and
the dispatch by method is inside. So nothing of what the server keeps or serves changes
unless the gates admit the message, in any run (`served_authorized`), and a run of the
router is a run of the server with the requests that were admitted (`router_refines`).

The state of a host is that of the server between two requests, and that of the credential
cache. The method of a message is the token it was sent with; a request the server looks at
has the method that token names.
-/
import Rshs.Layers
import Rshs.StoreLaws
import Rshs.AuthCache
import Rshs.Tailscale

set_option autoImplicit false

namespace Rshs.Router

open FinMap Layers StdPath Posix Rshs.Webdav Rshs.Auth Rshs.App Rshs.Tailscale Rshs.AuthCache Rshs.Server
open Rshs.Lifetime (Call Site enforced found served)
open Rshs.CachedParents (StepIn request_for)
open Rshs.StoreLaws (home home_ground home_serving)
open Rshs.Grounds (Shows)
open Rshs.ServedRoot (Serving)
open Rshs.StoreRuns (reply reply_eq next labels run_refines)

/-! ## Methods -/

/-- `Method::from_http_method`. -/
def from_http_method (method : String) : Option Method :=
  match method with
  | "GET" => some .GET
  | "HEAD" => some .HEAD
  | "PUT" => some .PUT
  | "PATCH" => some .PATCH
  | "DELETE" => some .DELETE
  | "OPTIONS" => some .OPTIONS
  | "PROPFIND" => some .PROPFIND
  | "PROPPATCH" => some .PROPPATCH
  | "MKCOL" => some .MKCOL
  | "COPY" => some .COPY
  | "MOVE" => some .MOVE
  | "LOCK" => some .LOCK
  | "UNLOCK" => some .UNLOCK
  | "REPORT" => some .REPORT
  | _ => none

def as_str : Method → String
  | .HEAD => "HEAD"
  | .GET => "GET"
  | .PUT => "PUT"
  | .PATCH => "PATCH"
  | .DELETE => "DELETE"
  | .OPTIONS => "OPTIONS"
  | .PROPFIND => "PROPFIND"
  | .PROPPATCH => "PROPPATCH"
  | .MKCOL => "MKCOL"
  | .COPY => "COPY"
  | .MOVE => "MOVE"
  | .LOCK => "LOCK"
  | .UNLOCK => "UNLOCK"
  | .REPORT => "REPORT"

/-- A method is known by its name, and by nothing else. -/
theorem from_http_method_iff {token : String} {m : Method} :
    from_http_method token = some m ↔ token = as_str m := by
  constructor
  · intro h
    unfold from_http_method at h
    split at h
    all_goals
      cases h
      try rfl
  · rintro rfl
    cases m
    all_goals rfl

/-! ## Messages -/

/-- A request as the router receives it, with the headers that its layers read. -/
structure Message where
  method : String
  health_check : Option HeaderValue
  tailscale_user_login : Option HeaderValue
  authorization : Option HeaderValue
  /-- The rest of the request, and what serving it meets. -/
  call : Call
  /-- The clock readings of the credential check. -/
  now : ℕ
  later : ℕ

/-- The message as a request of a method that is known. -/
def Message.call_for (msg : Message) (m : Method) : Call :=
  { msg.call with req := { msg.call.req with method := m } }

/-- The server and the cache of credentials. -/
structure Host where
  site : Site
  auth : CacheState

/-- A response that a layer makes itself, the reply of the lock check or of a handler, or
nothing, where a layer panics. -/
inductive Answer
  | made (code : ℕ) (headers : List (String × String)) (body : String)
  | replied (reply : Option AppResult)
  | panicked

/-! ## Layers -/

section Layers

variable (hash_auth_header : List Char → UInt64)
  (base64_decode : List Char → Option (List UInt8))
  (verify_password : List Char → List Char → Bool)
  (users : Users) (auth_cache_ttl : ℕ) (tailscale : TailscaleAuthState)

def is_health_check (x_health_check : Option HeaderValue) : Bool :=
  x_health_check = some (Text.utf8_encode "true".toList)

/-- `health_check_middleware`: the answer to a health check, or the request goes on. -/
def health_check : Check Message Answer Host := fun msg h =>
  if is_health_check msg.health_check then
    (.error (.made 200 [("content-type", "text/plain; charset=utf-8")] "OK"), h)
  else (.ok (), h)

/-- `tailscale_auth_middleware` as a check. -/
def tailscale_auth : Check Message Answer Host := fun msg h =>
  match tailscale_auth_middleware tailscale msg.tailscale_user_login with
  | .error (_, body) =>
    (.error (.made 403 [("content-type", "text/plain; charset=utf-8")] body), h)
  | .ok () => (.ok (), h)

/-- What the credential check leaves: the cache, and the credentials that were presented. -/
def Host.checked (h : Host) (msg : Message) (cache : AuthCache) : Host :=
  { h with
    auth :=
      { auth_cache := cache
        clock := msg.later
        presented := (basic_credentials msg.authorization).toList ++ h.auth.presented } }

/-- `auth_middleware` as a check. -/
def auth : Check Message Answer Host := fun msg h =>
  match Auth.auth_middleware hash_auth_header base64_decode verify_password
      (h.auth.auth users auth_cache_ttl) msg.authorization msg.now msg.later with
  | (.run, cache) => (.ok (), h.checked msg cache)
  | (.unauthorized, cache) =>
    (.error (.made 401 [("www-authenticate", "Basic realm=\"rshs\"")] ""), h.checked msg cache)
  | (.panic, cache) => (.error .panicked, h.checked msg cache)

/-- `lock_enforce`; a method that is not known is not looked at. -/
def lock_mw : Check Message Answer Host := fun msg h =>
  match from_http_method msg.method with
  | none => (.ok (), h)
  | some m =>
    let c := msg.call_for m
    let w := found c h.site
    match (enforced c h.site).1.reply with
    | .error status =>
      (.error (.replied (some (.error status))),
        { h with site := { app := w.app, fs := w.machine.fs, clock := c.clock.second } })
    | .ok () => (.ok (), { h with site := { h.site with app := w.app } })

/-- The fallback handler: the method is dispatched, an unknown one is not implemented. -/
def dispatch : Service Message Answer Host := fun msg h =>
  match from_http_method msg.method with
  | none => (.replied (some (.error .NOT_IMPLEMENTED)), h)
  | some m =>
    let c := msg.call_for m
    match Server.dispatch c.os c.cwd c.clock c.default_hasher c.fuel c.req
        (World.start h.site.app h.site.fs) with
    | (r, w) =>
      (.replied r, { h with site := { app := w.app, fs := w.machine.fs, clock := c.clock.second } })

/-- The layers in front of the lock check. -/
def gates : List (Check Message Answer Host) :=
  [health_check, tailscale_auth tailscale,
    auth hash_auth_header base64_decode verify_password users auth_cache_ttl]

/-- `make_router`: the layers around the handler. -/
def make_router : Service Message Answer Host :=
  stack (gates hash_auth_header base64_decode verify_password users auth_cache_ttl tailscale ++
    [lock_mw]) dispatch

end Layers

/-! ## What is behind the gates -/

section Serves

variable {msg : Message} {h : Host} {m : Method}

/-- Behind the gates a known method is served as the server serves it. -/
theorem lock_serves (hm : from_http_method msg.method = some m) :
    layer lock_mw dispatch msg h = (.replied (reply (msg.call_for m) h.site),
      { h with site := next h.site (.request (msg.call_for m)) }) := by
  unfold layer lock_mw dispatch
  rw [hm]
  unfold next
  dsimp only
  rcases reply_eq (msg.call_for m) h.site with
    ⟨hok, hreply, hserved⟩ | ⟨⟨status, hrefused, hreply⟩, hserved⟩
  · rw [hok, hreply, hserved]
    rfl
  · rw [hrefused, hreply, hserved]

/-- The lock check lets an unknown method through to the handler. -/
theorem lock_unknown (hm : from_http_method msg.method = none) :
    layer lock_mw dispatch msg h = (.replied (some (.error .NOT_IMPLEMENTED)), h) := by
  unfold layer lock_mw dispatch
  rw [hm]

end Serves

/-! ## Who gets through the gates -/

section Gates

variable {hash_auth_header : List Char → UInt64}
  {base64_decode : List Char → Option (List UInt8)}
  {verify_password : List Char → List Char → Bool}
  {users : Users} {auth_cache_ttl : ℕ} {tailscale : TailscaleAuthState}
  {msg : Message} {h t : Host}

/-- The lock check and the handler are one service behind the gates. -/
theorem make_router_eq :
    make_router hash_auth_header base64_decode verify_password users auth_cache_ttl tailscale =
      stack (gates hash_auth_header base64_decode verify_password users auth_cache_ttl tailscale)
        (layer lock_mw dispatch) := by
  unfold make_router stack
  rw [List.foldr_append]
  rfl

/-- The gates look at credentials only. -/
theorem gates_blind :
    Blind Host.site (gates hash_auth_header base64_decode verify_password users auth_cache_ttl
      tailscale) := by
  intro check hcheck msg h
  unfold gates at hcheck
  simp only [List.mem_cons, List.not_mem_nil, or_false] at hcheck
  rcases hcheck with rfl | rfl | rfl
  · unfold health_check
    split
    all_goals rfl
  · unfold tailscale_auth
    split
    all_goals rfl
  · unfold auth
    split
    all_goals rfl

/-- What a gate answers it makes itself. -/
theorem gates_make {r : Option AppResult} :
    ¬ Refuses msg (gates hash_auth_header base64_decode verify_password users auth_cache_ttl
      tailscale) h (.replied r) t := by
  apply not_refused
  intro check hcheck h hr
  unfold gates at hcheck
  simp only [List.mem_cons, List.not_mem_nil, or_false] at hcheck
  rcases hcheck with rfl | rfl | rfl
  · unfold health_check at hr
    split at hr
    all_goals cases hr
  · unfold tailscale_auth at hr
    split at hr
    all_goals cases hr
  · unfold auth at hr
    split at hr
    all_goals cases hr

/-- The credential string names a user, and the password is the user's. -/
def Valid (base64_decode : List Char → Option (List UInt8))
    (verify_password : List Char → List Char → Bool) (users : Users) (credentials : List Char) : Prop :=
  ∃ username password, decode_credentials base64_decode credentials = some (username, password) ∧
    (AuthState.mk users ∅ 0).validate verify_password username password = true

/-- Who a message must come from: none of the gates is open for everyone, or it is known to
the gate. Credentials that were presented before count where their hash is the same. -/
structure Authorized (hash_auth_header : List Char → UInt64)
    (base64_decode : List Char → Option (List UInt8))
    (verify_password : List Char → List Char → Bool) (users : Users)
    (tailscale : TailscaleAuthState) (presented : List (List Char)) (msg : Message) : Prop where
  not_health : is_health_check msg.health_check = false
  identity : tailscale.is_empty = true ∨ ∃ login,
    msg.tailscale_user_login.bind HeaderValue.to_str = some login ∧ tailscale.validate login = true
  credentials : (AuthState.mk users ∅ 0).is_empty = true ∨ ∃ own,
    basic_credentials msg.authorization = some own ∧ ∃ shown ∈ own :: presented,
      hash_auth_header shown = hash_auth_header own ∧ Valid base64_decode verify_password users shown

theorem verified_valid {credentials : List Char}
    (hv : Verified base64_decode verify_password users credentials) :
    Valid base64_decode verify_password users credentials := by
  obtain ⟨username, password, hash, hdec, hl, hver⟩ := hv
  refine ⟨username, password, hdec, ?_⟩
  unfold AuthState.validate
  dsimp only
  rw [hl]
  exact hver

/-- The credential check runs what it knows. -/
theorem auth_authorized {s : CacheState} {cache : Auth.AuthCache}
    (hsound : Sound hash_auth_header base64_decode verify_password users s)
    (hrun : Auth.auth_middleware hash_auth_header base64_decode verify_password
      (s.auth users auth_cache_ttl) msg.authorization msg.now msg.later = (.run, cache)) :
    (AuthState.mk users ∅ 0).is_empty = true ∨ ∃ own,
      basic_credentials msg.authorization = some own ∧ ∃ shown ∈ own :: s.presented,
        hash_auth_header shown = hash_auth_header own ∧
          Valid base64_decode verify_password users shown := by
  unfold Auth.auth_middleware at hrun
  split at hrun
  · rename_i hempty
    exact Or.inl hempty
  · split at hrun
    · cases hrun
    · rename_i username password hash hparse
      obtain ⟨own, hown, hdec, rfl⟩ := parse_basic_auth_some hparse
      refine Or.inr ⟨own, hown, ?_⟩
      have hvalid : ((s.auth users auth_cache_ttl).validate verify_password username password) = true →
          ∃ shown ∈ own :: s.presented, hash_auth_header shown = hash_auth_header own ∧
            Valid base64_decode verify_password users shown := fun hv =>
        ⟨own, List.mem_cons_self, rfl, username, password, hdec, hv⟩
      by_cases hren : (s.auth users auth_cache_ttl).Renews verify_password username password
          (hash_auth_header own) msg.now
      · obtain ⟨hash, hl, -, hcached | hver⟩ := hren
        · -- the cache knows the hash, from credentials that were verified
          unfold AuthState.cached at hcached
          rw [Option.any_eq_true] at hcached
          obtain ⟨e, he, -⟩ := hcached
          obtain ⟨shown, hshown, hhash, hver⟩ := hsound _ e he
          exact ⟨shown, List.mem_cons_of_mem _ hshown, hhash, verified_valid hver⟩
        · apply hvalid
          unfold AuthState.validate
          rw [hl]
          exact hver
      · rw [validate_cached_plain hren] at hrun
        cases hv : (s.auth users auth_cache_ttl).validate verify_password username password with
        | true => exact hvalid hv
        | false =>
          rw [hv] at hrun
          cases hrun

/-- What the three gates let through. -/
theorem admits_run (hhealth : is_health_check msg.health_check = false)
    (hidentity : tailscale_auth_middleware tailscale msg.tailscale_user_login = .ok ())
    (hrun : (Auth.auth_middleware hash_auth_header base64_decode verify_password
      (h.auth.auth users auth_cache_ttl) msg.authorization msg.now msg.later).1 = .run) :
    Admits msg (gates hash_auth_header base64_decode verify_password users auth_cache_ttl tailscale)
      h (h.checked msg (Auth.auth_middleware hash_auth_header base64_decode verify_password
        (h.auth.auth users auth_cache_ttl) msg.authorization msg.now msg.later).2) := by
  have hfirst : health_check msg h = (.ok (), h) := by
    unfold health_check
    rw [hhealth]
    rfl
  have hsecond : tailscale_auth tailscale msg h = (.ok (), h) := by
    unfold tailscale_auth
    rw [hidentity]
  refine Admits.cons hfirst (Admits.cons hsecond (Admits.cons ?_ (Admits.nil _)))
  unfold auth
  generalize Auth.auth_middleware hash_auth_header base64_decode verify_password
    (h.auth.auth users auth_cache_ttl) msg.authorization msg.now msg.later = answer at hrun
  obtain ⟨gate, cache⟩ := answer
  obtain rfl : gate = .run := hrun
  rfl

/-- What the gates admit is authorized. -/
theorem admits_authorized
    (hsound : Sound hash_auth_header base64_decode verify_password users h.auth)
    (ha : Admits msg (gates hash_auth_header base64_decode verify_password users auth_cache_ttl
      tailscale) h t) :
    Authorized hash_auth_header base64_decode verify_password users tailscale h.auth.presented msg := by
  unfold gates at ha
  -- the three gates in order: no health check, a user that is listed, valid credentials
  cases ha with
  | cons hhealth ha =>
    unfold health_check at hhealth
    split at hhealth
    · cases hhealth
    rename_i hnot
    cases hhealth
    cases ha with
    | cons hscale ha =>
      unfold tailscale_auth at hscale
      split at hscale
      · cases hscale
      rename_i hpass
      cases hscale
      cases ha with
      | cons hauth ha =>
        refine ⟨by simpa using hnot, ?_, ?_⟩
        · unfold tailscale_auth_middleware at hpass
          split at hpass
          · rename_i hempty
            exact Or.inl hempty
          · split at hpass
            · cases hpass
            · rename_i login hlogin
              split at hpass
              · rename_i hval
                exact Or.inr ⟨login, hlogin, hval⟩
              · cases hpass
        · unfold auth at hauth
          split at hauth
          · rename_i cache hrun
            exact auth_authorized hsound hrun
          · cases hauth
          · cases hauth

/-- More credentials shown authorize no less. -/
theorem Authorized.mono {presented shown : List (List Char)} (hsub : presented ⊆ shown)
    (h : Authorized hash_auth_header base64_decode verify_password users tailscale presented msg) :
    Authorized hash_auth_header base64_decode verify_password users tailscale shown msg := by
  refine ⟨h.not_health, h.identity, ?_⟩
  rcases h.credentials with hopen | ⟨own, hown, other, hother, hsame⟩
  · exact Or.inl hopen
  · exact Or.inr ⟨own, hown, other, List.cons_subset_cons own hsub hother, hsame⟩

/-- What the cache knows was verified, and it was presented in one of these. -/
def Sure (hash_auth_header : List Char → UInt64)
    (base64_decode : List Char → Option (List UInt8))
    (verify_password : List Char → List Char → Bool) (users : Users)
    (shown : List (List Char)) (h : Host) : Prop :=
  Sound hash_auth_header base64_decode verify_password users h.auth ∧ h.auth.presented ⊆ shown

theorem auth_sure {shown : List (List Char)} (hlater : msg.now ≤ msg.later)
    (hmsg : (basic_credentials msg.authorization).toList ⊆ shown)
    (hs : Sure hash_auth_header base64_decode verify_password users shown h) :
    Sure hash_auth_header base64_decode verify_password users shown
      (auth hash_auth_header base64_decode verify_password users auth_cache_ttl msg h).2 := by
  obtain ⟨hsound, hsub⟩ := hs
  -- the cache does not know the time of a reading, so the check may as well be the first one
  have hstep := step_sound
    (AuthCache.Step.request { h.auth with clock := 0 } msg.authorization msg.now msg.later
      (Nat.zero_le _) hlater :
      AuthCache.Step hash_auth_header base64_decode verify_password users auth_cache_ttl _ _ _) hsound
  have hcache : (auth hash_auth_header base64_decode verify_password users auth_cache_ttl msg h).2 =
      h.checked msg (Auth.auth_middleware hash_auth_header base64_decode verify_password
        (h.auth.auth users auth_cache_ttl) msg.authorization msg.now msg.later).2 := by
    unfold auth
    split
    all_goals
      rename_i hres
      rw [hres]
  rw [hcache]
  exact ⟨hstep, List.append_subset.mpr ⟨hmsg, hsub⟩⟩

theorem lock_serves_auth : (layer lock_mw dispatch msg h).2.auth = h.auth := by
  cases hm : from_http_method msg.method with
  | none => rw [lock_unknown hm]
  | some m => rw [lock_serves hm]

/-- A message keeps the cache to credentials that were shown. -/
theorem make_router_sure {shown : List (List Char)} (hlater : msg.now ≤ msg.later)
    (hmsg : (basic_credentials msg.authorization).toList ⊆ shown)
    (hs : Sure hash_auth_header base64_decode verify_password users shown h) :
    Sure hash_auth_header base64_decode verify_password users shown
      (make_router hash_auth_header base64_decode verify_password users auth_cache_ttl tailscale
        msg h).2 := by
  rw [make_router_eq]
  apply stack_keeps _ _ hs
  · intro check hcheck h hs
    unfold gates at hcheck
    simp only [List.mem_cons, List.not_mem_nil, or_false] at hcheck
    rcases hcheck with rfl | rfl | rfl
    · unfold health_check
      split
      all_goals exact hs
    · unfold tailscale_auth
      split
      all_goals exact hs
    · exact auth_sure hlater hmsg hs
  · intro h hs
    unfold Sure
    rw [lock_serves_auth]
    exact hs

end Gates

/-! ## Runs -/

inductive Event
  | message (msg : Message)
  | cleanup (now later : ℕ)

/-- What the server is asked to do behind the gates. -/
def forwarded : Event → Option Lifetime.Event
  | .message msg => (from_http_method msg.method).map fun m => .request (msg.call_for m)
  | .cleanup now _ => some (.cleanup now)

/-- The credentials that the messages of a run present. -/
def shown_in (tr : List Event) : List (List Char) :=
  tr.flatMap fun
    | .message msg => (basic_credentials msg.authorization).toList
    | .cleanup _ _ => []

section Runs

variable (hash_auth_header : List Char → UInt64)
  (base64_decode : List Char → Option (List UInt8))
  (verify_password : List Char → List Char → Bool)
  (users : Users) (auth_cache_ttl : ℕ) (tailscale : TailscaleAuthState)

/-- One message, or one pass of the cleanup, which reads the clock for the locks and for the
credentials. -/
inductive Step : Host → Event → Host → Prop
  | message (h : Host) (msg : Message) (hnow : h.auth.clock ≤ msg.now)
      (hlater : msg.now ≤ msg.later) (henforce : h.site.clock ≤ msg.call.clock.enforce)
      (hfirst : msg.call.clock.enforce ≤ msg.call.clock.first)
      (hsecond : msg.call.clock.first ≤ msg.call.clock.second) :
      Step h (.message msg)
        (make_router hash_auth_header base64_decode verify_password users auth_cache_ttl tailscale
          msg h).2
  | cleanup (h : Host) (now later : ℕ) (hnow : h.site.clock ≤ now) (hlater : h.auth.clock ≤ later) :
      Step h (.cleanup now later)
        { site := next h.site (.cleanup now)
          auth :=
            { h.auth with auth_cache := prune_cache later h.auth.auth_cache, clock := later } }

end Runs

section Results

variable {hash_auth_header : List Char → UInt64}
  {base64_decode : List Char → Option (List UInt8)}
  {verify_password : List Char → List Char → Bool}
  {users : Users} {auth_cache_ttl : ℕ} {tailscale : TailscaleAuthState}
  {msg : Message} {h t : Host} {e : Event} {tr : List Event}

/-- A request that reaches the server is that of a message. -/
theorem forwarded_request {c : Call} (hf : forwarded e = some (.request c)) :
    ∃ msg m, e = .message msg ∧ c = msg.call_for m := by
  cases e with
  | message msg =>
    obtain ⟨m, -, heq⟩ := Option.map_eq_some_iff.mp hf
    cases heq
    exact ⟨msg, m, rfl, rfl⟩
  | cleanup now later => cases hf

theorem run_in {cwd : Path} {s s' : Site} {events : List Lifetime.Event}
    (hrun : Lts.Run Lifetime.Step s events s')
    (hcwd : ∀ c, .request c ∈ events → c.cwd = cwd) : Lts.Run (StepIn cwd) s events s' := by
  induction hrun with
  | nil s => exact Lts.Run.nil s
  | @cons s u s' event events hone _ ih =>
    refine Lts.Run.cons ⟨hone, fun c hc => ?_⟩ (ih fun c hc => hcwd c (List.mem_cons_of_mem _ hc))
    rw [hc] at hcwd
    exact hcwd c List.mem_cons_self

theorem shown_cons : shown_in (e :: tr) = shown_in [e] ++ shown_in tr := by
  unfold shown_in
  rw [List.flatMap_cons, List.flatMap_cons, List.flatMap_nil, List.append_nil]

theorem step_sure {shown : List (List Char)} (hmsg : shown_in [e] ⊆ shown)
    (hstep : Step hash_auth_header base64_decode verify_password users auth_cache_ttl tailscale h e t)
    (hs : Sure hash_auth_header base64_decode verify_password users shown h) :
    Sure hash_auth_header base64_decode verify_password users shown t := by
  cases hstep with
  | message msg hnow hlater henforce hfirst hsecond =>
    apply make_router_sure hlater _ hs
    unfold shown_in at hmsg
    rw [List.flatMap_cons, List.flatMap_nil, List.append_nil] at hmsg
    exact hmsg
  | cleanup now later hnow hlater =>
    exact ⟨step_sound (AuthCache.Step.cleanup h.auth later hlater :
      AuthCache.Step hash_auth_header base64_decode verify_password users auth_cache_ttl _ _ _) hs.1,
      hs.2⟩

/-- A run keeps the cache to credentials that were shown. -/
theorem run_sure {shown : List (List Char)} (hmsg : shown_in tr ⊆ shown)
    (hrun : Lts.Run (Step hash_auth_header base64_decode verify_password users auth_cache_ttl
      tailscale) h tr t)
    (hs : Sure hash_auth_header base64_decode verify_password users shown h) :
    Sure hash_auth_header base64_decode verify_password users shown t := by
  induction hrun with
  | nil h => exact hs
  | cons hstep _ ih =>
    rw [shown_cons, List.append_subset] at hmsg
    exact ih hmsg.2 (step_sure hmsg.1 hstep hs)

/-- A cache that starts empty keeps to them. -/
theorem initial_sure (shown : List (List Char)) (hinit : AuthCache.Initial h.auth) :
    Sure hash_auth_header base64_decode verify_password users shown h := by
  obtain ⟨hcache, hpresented⟩ := hinit
  refine ⟨fun k e hk => ?_, ?_⟩
  · rw [hcache] at hk
    cases hk
  · rw [hpresented]
    exact List.nil_subset _

/-- A message gets to the server, and then it is authorized, or it changes nothing there. -/
theorem message_cases {shown : List (List Char)}
    (hs : Sure hash_auth_header base64_decode verify_password users shown h) :
    (∃ t, Authorized hash_auth_header base64_decode verify_password users tailscale shown msg ∧
        t.site = h.site ∧
        make_router hash_auth_header base64_decode verify_password users auth_cache_ttl tailscale
          msg h = layer lock_mw dispatch msg t) ∨
      (∀ r, (make_router hash_auth_header base64_decode verify_password users auth_cache_ttl
          tailscale msg h).1 ≠ .replied r) ∧
        (make_router hash_auth_header base64_decode verify_password users auth_cache_ttl
          tailscale msg h).2.site = h.site := by
  rw [make_router_eq]
  rcases stack_cases msg (gates hash_auth_header base64_decode verify_password users
    auth_cache_ttl tailscale) (layer lock_mw dispatch) h with ⟨t, ha, heq⟩ | ⟨r, t, hr, heq⟩
  · refine Or.inl ⟨t, (admits_authorized hs.1 ha).mono hs.2, admits_view gates_blind ha, heq⟩
  · rw [heq]
    refine Or.inr ⟨fun r' hr' => ?_, refuses_view gates_blind hr⟩
    obtain rfl : r = .replied r' := hr'
    exact gates_make hr

/-- A step of the server behind the gates, by an authorized message, or none at all. -/
theorem step_site {shown : List (List Char)}
    (hs : Sure hash_auth_header base64_decode verify_password users shown h)
    (hstep : Step hash_auth_header base64_decode verify_password users auth_cache_ttl tailscale h e t) :
    t.site = h.site ∨ ∃ event, forwarded e = some event ∧ Lifetime.Step h.site event t.site ∧
      ∀ msg, e = .message msg →
        Authorized hash_auth_header base64_decode verify_password users tailscale shown msg := by
  cases hstep with
  | message msg hnow hlater henforce hfirst hsecond =>
    rcases message_cases hs with ⟨u, hauth, hsite, heq⟩ | ⟨-, hsame⟩
    · rw [heq]
      cases hm : from_http_method msg.method with
      | none =>
        rw [lock_unknown hm]
        exact Or.inl hsite
      | some m =>
        refine Or.inr ⟨.request (msg.call_for m), ?_, ?_, fun msg' hmsg' => ?_⟩
        · unfold forwarded
          dsimp only
          rw [hm]
          rfl
        · rw [lock_serves hm, hsite]
          exact Lifetime.Step.request h.site (msg.call_for m) henforce hfirst hsecond
        · cases hmsg'
          exact hauth
    · exact Or.inl hsame
  | cleanup now later hnow hlater =>
    refine Or.inr ⟨.cleanup now, rfl, Lifetime.Step.cleanup h.site now hnow, fun msg' hmsg' => ?_⟩
    cases hmsg'

/-- A message that is answered by the server, or changes it, is authorized. -/
theorem message_served {shown : List (List Char)}
    (hs : Sure hash_auth_header base64_decode verify_password users shown h)
    (hstep : Step hash_auth_header base64_decode verify_password users auth_cache_ttl tailscale h
      (.message msg) t)
    (hserved : (∃ r, (make_router hash_auth_header base64_decode verify_password users
      auth_cache_ttl tailscale msg h).1 = .replied r) ∨ t.site ≠ h.site) :
    Authorized hash_auth_header base64_decode verify_password users tailscale shown msg := by
  rcases message_cases hs with ⟨_, hauth, -⟩ | ⟨hmade, hsame⟩
  · exact hauth
  · exfalso
    rcases hserved with ⟨r, hr⟩ | hne
    · exact hmade r hr
    · cases hstep with
      | message _ hnow hlater henforce hfirst hsecond => exact hne hsame

/-- **Who is served.** Whatever the run before: a message that is answered by the server, and
not by a gate, and one that changes anything the server keeps, its clock included, is
authorized, by its own credentials or by some of the run with the same hash. -/
theorem served_authorized {h₀ : Host} (hinit : AuthCache.Initial h₀.auth)
    (hrun : Lts.Run (Step hash_auth_header base64_decode verify_password users auth_cache_ttl
      tailscale) h₀ tr h)
    (hstep : Step hash_auth_header base64_decode verify_password users auth_cache_ttl tailscale h
      (.message msg) t)
    (hserved : (∃ r, (make_router hash_auth_header base64_decode verify_password users
      auth_cache_ttl tailscale msg h).1 = .replied r) ∨ t.site ≠ h.site) :
    Authorized hash_auth_header base64_decode verify_password users tailscale (shown_in tr) msg := by
  apply message_served _ hstep hserved
  exact run_sure (List.Subset.refl _) hrun (initial_sure (shown_in tr) hinit)

/-- The run of the server in a run of the router: some of the messages, all of them
authorized, and passes of the cleanup. -/
theorem run_site {shown : List (List Char)} (hmsg : shown_in tr ⊆ shown)
    (hs : Sure hash_auth_header base64_decode verify_password users shown h)
    (hrun : Lts.Run (Step hash_auth_header base64_decode verify_password users auth_cache_ttl
      tailscale) h tr t) :
    ∃ kept : List Event, kept.Sublist tr ∧ (∀ msg, .message msg ∈ kept →
        Authorized hash_auth_header base64_decode verify_password users tailscale shown msg) ∧
      Lts.Run Lifetime.Step h.site (kept.filterMap forwarded) t.site := by
  induction hrun with
  | nil h => exact ⟨[], List.Sublist.refl _, fun msg hmem => absurd hmem List.not_mem_nil, Lts.Run.nil _⟩
  | @cons h u t e tr hstep _ ih =>
    rw [shown_cons, List.append_subset] at hmsg
    obtain ⟨kept, hsub, hauth, hrun⟩ := ih hmsg.2 (step_sure hmsg.1 hstep hs)
    rcases step_site hs hstep with hsame | ⟨event, hforwarded, hone, hown⟩
    · rw [hsame] at hrun
      exact ⟨kept, hsub.cons e, hauth, hrun⟩
    · refine ⟨e :: kept, hsub.cons_cons e, fun msg hmem => ?_, ?_⟩
      · rcases List.mem_cons.mp hmem with heq | hmem
        · exact hown msg heq.symm
        · exact hauth msg hmem
      · rw [List.filterMap_cons_some hforwarded]
        exact Lts.Run.cons hone hrun

/-- **A run of the router is a run of the server**, and so of the hierarchy, by some of its
messages, which are all authorized, and the cleanups. -/
theorem router_refines {cwd R : Path} {tree : Grounds.Files}
    (hinit : AuthCache.Initial h.auth)
    (hserving : Serving cwd R h.site.app h.site.fs) (hshows : Shows R h.site.fs tree)
    (hcwd : ∀ msg, .message msg ∈ tr → msg.call.cwd = cwd)
    (hrun : Lts.Run (Step hash_auth_header base64_decode verify_password users auth_cache_ttl
      tailscale) h tr t) :
    ∃ kept : List Event, kept.Sublist tr ∧
      (∀ msg, .message msg ∈ kept → Authorized hash_auth_header base64_decode verify_password users
        tailscale (shown_in tr) msg) ∧
      Lts.Run (StepIn cwd) h.site (kept.filterMap forwarded) t.site ∧
      (∀ q, ¬ R <+: q → t.site.fs.node q = h.site.fs.node q) ∧
      ∃ tree', Lts.Run Hierarchy.Step tree
          (labels cwd R h.site (kept.filterMap forwarded)) tree' ∧
        Shows R t.site.fs tree' := by
  have hs : Sure hash_auth_header base64_decode verify_password users (shown_in tr) h :=
    initial_sure (shown_in tr) hinit
  obtain ⟨kept, hsub, hauth, hsite⟩ := run_site (List.Subset.refl _) hs hrun
  have hin : Lts.Run (StepIn cwd) h.site (kept.filterMap forwarded) t.site := by
    apply run_in hsite
    intro c hc
    obtain ⟨e, he, hforwarded⟩ := List.mem_filterMap.mp hc
    obtain ⟨msg, m, rfl, rfl⟩ := forwarded_request hforwarded
    exact hcwd msg (hsub.subset he)
  obtain ⟨-, hout, tree', htree, hshown⟩ := run_refines hserving hshows hin
  exact ⟨kept, hsub, hauth, hin, hout, tree', htree, hshown⟩

end Results

/-! ## A message with credentials -/

/-- A server of `/d`, with nobody known to the cache. -/
def host : Host := ⟨home, fresh⟩

/-- A PUT of `/f` by user `a`. -/
def put_a : Message where
  method := "PUT"
  health_check := none
  tailscale_user_login := none
  authorization := basic_a_b
  call := request_for .PUT "/f"
  now := 0
  later := 0

def host_f : Host :=
  (make_router (fun _ => 0) decode_a_b verify_b only_a (Duration.from_secs 60) .Disabled put_a host).2

theorem step_a : Step (fun _ => 0) decode_a_b verify_b only_a (Duration.from_secs 60) .Disabled
    host (.message put_a) host_f :=
  Step.message host put_a (Nat.le_refl 0) (Nat.le_refl 0) (Nat.le_refl 0) (Nat.le_refl 0)
    (Nat.le_refl 0)

theorem replied_a : ∃ r, (make_router (fun _ => 0) decode_a_b verify_b only_a
    (Duration.from_secs 60) .Disabled put_a host).1 = .replied r := by
  have hrun : (Auth.auth_middleware (fun _ => 0) decode_a_b verify_b
      (fresh.auth only_a (Duration.from_secs 60)) basic_a_b 0 0).1 = .run := by decide
  rw [make_router_eq, stack_admits (admits_run rfl rfl hrun), lock_serves (m := .PUT) rfl]
  exact ⟨_, rfl⟩

theorem served_authorized_a : Authorized (fun _ => 0) decode_a_b verify_b only_a .Disabled [] put_a :=
  served_authorized ⟨rfl, rfl⟩ (Lts.Run.nil host) step_a (Or.inl replied_a)

theorem router_refines_a : ∃ kept : List Event, kept.Sublist [.message put_a] ∧
    (∀ msg, .message msg ∈ kept → Authorized (fun _ => 0) decode_a_b verify_b only_a .Disabled
      (shown_in [.message put_a]) msg) ∧
    Lts.Run (StepIn []) home (kept.filterMap forwarded) host_f.site ∧
    (∀ q, ¬ [d_name] <+: q → host_f.site.fs.node q = disk_d.node q) ∧
    ∃ tree', Lts.Run Hierarchy.Step home_ground.tree
        (labels [] [d_name] home (kept.filterMap forwarded)) tree' ∧
      Shows [d_name] host_f.site.fs tree' :=
  router_refines ⟨rfl, rfl⟩ home_serving home_ground.shows
    (by
      intro msg hmsg
      cases List.mem_singleton.mp hmsg
      rfl)
    (Lts.Run.single step_a)

end Rshs.Router
