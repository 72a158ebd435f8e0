/-
What a method can be answered with.

OPTIONS announces the methods of the server. A message that the gates let through is
answered 501 exactly when its method is not among them, and otherwise with one of the codes
of its method, or by the lock check, which looks at writes only (`answers_listed`). There
is one lemma for each handler, over all its error paths.
-/
import Rshs.Router

set_option autoImplicit false

namespace Rshs.Answers

open StdPath Posix FinMap Layers Rshs.Webdav Rshs.Resolve Rshs.Locks Rshs.LockMw Rshs.App Rshs.Http
open Rshs.IfHeader Rshs.CopyMove Rshs.Server Rshs.Router Rshs.Auth Rshs.Tailscale Rshs.AuthCache
open Rshs.Lifetime (Call Site enforced found)
open Rshs.StoreRuns (reply reply_eq)

/-! ## The tables -/

/-- The `allow` header of `handle_options`. -/
def allow : List Char :=
  ("GET, HEAD, OPTIONS, PUT, DELETE, PROPFIND, MKCOL, COPY, MOVE, PROPPATCH, LOCK, UNLOCK").toList

/-- The tokens it lists. -/
def allowed : List (List Char) := (allow.splitOnP (· == ',')).map Str.trim

/-- The status of a reply. -/
def status : AppResult → StatusCode
  | .ok code => code
  | .error code => code

/-- The codes of the handler of a method. -/
def codes : Method → List StatusCode
  | .GET | .HEAD => [.OK, .NOT_FOUND, .INTERNAL_SERVER_ERROR]
  | .PUT => [.OK, .CREATED, .BAD_REQUEST, .FORBIDDEN, .CONFLICT, .INTERNAL_SERVER_ERROR]
  | .DELETE => [.NO_CONTENT, .BAD_REQUEST, .NOT_FOUND, .INTERNAL_SERVER_ERROR]
  | .OPTIONS => [.OK]
  | .PROPFIND | .PROPPATCH => [.MULTI_STATUS, .BAD_REQUEST, .NOT_FOUND]
  | .MKCOL =>
    [.CREATED, .FORBIDDEN, .METHOD_NOT_ALLOWED, .CONFLICT, .UNSUPPORTED_MEDIA_TYPE,
      .INTERNAL_SERVER_ERROR]
  | .COPY | .MOVE =>
    [.CREATED, .NO_CONTENT, .BAD_REQUEST, .FORBIDDEN, .NOT_FOUND, .CONFLICT, .PRECONDITION_FAILED,
      .INTERNAL_SERVER_ERROR]
  | .LOCK => [.OK, .CREATED, .BAD_REQUEST, .FORBIDDEN, .CONFLICT, .LOCKED, .INTERNAL_SERVER_ERROR]
  | .UNLOCK => [.NO_CONTENT, .BAD_REQUEST, .FORBIDDEN, .NOT_FOUND]
  | .PATCH | .REPORT => [.NOT_IMPLEMENTED]

/-- The methods without a handler are the ones that are not announced. -/
theorem as_str_allowed (m : Method) : (as_str m).toList ∈ allowed ↔ m ≠ .PATCH ∧ m ≠ .REPORT := by
  cases m
  all_goals decide

/-- No code of a method that is announced is 501. -/
theorem codes_served {m : Method} (h : m ≠ .PATCH ∧ m ≠ .REPORT) : .NOT_IMPLEMENTED ∉ codes m := by
  obtain ⟨hpatch, hreport⟩ := h
  cases m with
  | PATCH => exact absurd rfl hpatch
  | REPORT => exact absurd rfl hreport
  | _ => decide

/-- Every method of the Allow header is known to the dispatcher. -/
theorem allowed_known {token : String} (h : token.toList ∈ allowed) :
    ∃ m, from_http_method token = some m := by
  have hall : allowed.all (fun t => [Method.GET, .HEAD, .OPTIONS, .PUT, .DELETE, .PROPFIND, .MKCOL,
      .COPY, .MOVE, .PROPPATCH, .LOCK, .UNLOCK].any fun m => (as_str m).toList = t) = true := by
    decide
  obtain ⟨m, -, hm⟩ := List.any_eq_true.mp (List.all_eq_true.mp hall _ h)
  refine ⟨m, from_http_method_iff.mpr ?_⟩
  exact (String.toList_inj.mp (of_decide_eq_true hm)).symm

/-! ## The handlers -/

section Handlers

variable {os : Os} {cwd : Path} {fuel : ℕ} {req : Request} {w : World} {clock : Clock}
  {default_hasher : ℕ → UInt64}

theorem mem_codes {m : Method} {r : AppResult} (h : (codes m).elem (status r) = true) :
    status r ∈ codes m :=
  List.mem_of_elem_eq_true h

/-- A target that is not found is answered by one of three codes. -/
theorem target_codes {m : Method} {on_invalid : StatusCode} (e : ResolveTargetError)
    (hinvalid : on_invalid ∈ codes m) (hconflict : .CONFLICT ∈ codes m)
    (hforbidden : .FORBIDDEN ∈ codes m) : e.status on_invalid ∈ codes m := by
  cases e with
  | InvalidPath => exact hinvalid
  | ParentCanonicalizeFailed e => exact hconflict
  | TraversalBlocked => exact hforbidden

/-- The codes of GET and HEAD. -/
theorem get_head_codes (m : Method) (hm : m = .GET ∨ m = .HEAD) :
    status (handle_get_head os cwd req w).1 ∈ codes m := by
  have hcodes : codes m = codes .GET := by
    rcases hm with rfl | rfl
    all_goals rfl
  rw [hcodes]
  unfold handle_get_head
  split
  · exact mem_codes rfl
  · split
    · exact mem_codes rfl
    · split
      · exact mem_codes rfl
      · split
        all_goals exact mem_codes rfl

/-- The codes of PUT. -/
theorem put_codes : status (handle_put os cwd req w).1 ∈ codes .PUT := by
  unfold handle_put
  split
  · rename_i e w' _
    exact target_codes e (by decide) (by decide) (by decide)
  · dsimp only
    split
    · exact mem_codes rfl
    · split
      · exact mem_codes rfl
      · dsimp only
        split
        all_goals exact mem_codes rfl

/-- The codes of DELETE. -/
theorem delete_codes : status (handle_delete os cwd req w).1 ∈ codes .DELETE := by
  unfold handle_delete
  split
  · exact mem_codes rfl
  · split
    · exact mem_codes rfl
    · split
      · split
        · exact mem_codes rfl
        · dsimp only
          split
          all_goals exact mem_codes rfl
      · dsimp only
        split
        all_goals exact mem_codes rfl

/-- The codes of MKCOL. -/
theorem mkcol_codes : status (handle_mkcol os cwd req w).1 ∈ codes .MKCOL := by
  unfold handle_mkcol
  split
  · exact mem_codes rfl
  · dsimp only
    split
    · rename_i e w' _
      exact target_codes e (by decide) (by decide) (by decide)
    · split
      · exact mem_codes rfl
      · split
        all_goals exact mem_codes rfl

theorem propfind_codes : status (Server.handle_propfind cwd req w).1 ∈ codes .PROPFIND := by
  unfold Server.handle_propfind
  split
  · exact mem_codes rfl
  · split
    all_goals exact mem_codes rfl

theorem proppatch_codes : status (handle_proppatch cwd req w).1 ∈ codes .PROPPATCH := by
  unfold handle_proppatch
  split
  · exact mem_codes rfl
  · split
    all_goals exact mem_codes rfl

/-- The codes of MOVE and COPY. -/
theorem transfer_codes {is_move : Bool} {r : AppResult}
    (h : (do_move_or_copy os cwd fuel req is_move w).1 = some r) : status r ∈ codes .COPY := by
  unfold do_move_or_copy at h
  split at h
  · cases h
    exact mem_codes rfl
  · split at h
    · cases h
      exact mem_codes rfl
    · split at h
      · cases h
        exact mem_codes rfl
      · split at h
        · cases h
          exact mem_codes rfl
        · split at h
          · rename_i e w' _
            cases h
            exact target_codes e (by decide) (by decide) (by decide)
          · rename_i dest w' _
            have hreply := transfer_reply (Prod.ext h rfl :
              transfer os fuel req is_move _ dest w' = (some r, _))
            rcases hreply with rfl | rfl | rfl | rfl | rfl
            all_goals exact mem_codes rfl

/-- A LOCK that is refused is refused with 423. -/
theorem decision_locked {now : ℕ} {lreq : LockRequest} {entry : List LockInfo} {code : StatusCode}
    (h : decision default_hasher now lreq entry = .error code) : code = .LOCKED := by
  have hcases := decision_cases default_hasher now lreq entry
  rw [h] at hcases
  cases hcases
  all_goals rfl

/-- The first section refreshes, refuses or grants. -/
theorem first_codes {now : ℕ} {lreq : LockRequest} {locks locks' : LockStore} {r : LockReply}
    (h : first_section default_hasher now lreq locks = (some r, locks')) :
    status (r.map Prod.fst) ∈ codes .LOCK := by
  unfold first_section at h
  split at h
  · cases h
    exact mem_codes rfl
  · dsimp only at h
    split at h
    · rename_i hdecision
      cases h
      rw [decision_locked hdecision]
      exact mem_codes rfl
    · cases h
      exact mem_codes rfl
    · cases h

/-- The codes of the second section of LOCK. -/
theorem second_codes {now : ℕ} {lreq : LockRequest} {created : Bool} {locks : LockStore} :
    status ((second_section default_hasher now lreq created locks).1.map Prod.fst) ∈ codes .LOCK := by
  unfold second_section
  dsimp only
  split
  · exact mem_codes rfl
  · cases created
    all_goals exact mem_codes rfl

/-- The codes of LOCK. -/
theorem lock_codes : status (Server.handle_lock os cwd clock default_hasher req w).1 ∈ codes .LOCK := by
  unfold Server.handle_lock
  dsimp only
  split
  · rename_i e w' _
    exact target_codes e (by decide) (by decide) (by decide)
  · split
    · exact mem_codes rfl
    · split
      · rename_i hfirst
        exact first_codes hfirst
      · split
        · rename_i hensure
          unfold ensure_lock_null_resource at hensure
          split at hensure
          · cases hensure
          · cases hensure
          · cases hensure
            exact mem_codes rfl
        · exact second_codes

theorem unlock_codes : status (Server.handle_unlock cwd req w).1 ∈ codes .UNLOCK := by
  unfold Server.handle_unlock Locks.handle_unlock
  split
  rename_i hunlock
  split at hunlock
  · cases hunlock
    exact mem_codes rfl
  · split at hunlock
    · cases hunlock
      exact mem_codes rfl
    · unfold unlock_section at hunlock
      split at hunlock
      · cases hunlock
        split
        all_goals exact mem_codes rfl
      · cases hunlock
        exact mem_codes rfl

/-- **The reply of a handler is one of those of its method.** -/
theorem dispatch_codes {r : AppResult}
    (h : (Server.dispatch os cwd clock default_hasher fuel req w).1 = some r) :
    status r ∈ codes req.method := by
  unfold Server.dispatch replies at h
  cases hm : req.method with
  | GET =>
    rw [hm] at h
    cases h
    exact get_head_codes .GET (Or.inl rfl)
  | HEAD =>
    rw [hm] at h
    cases h
    exact get_head_codes .HEAD (Or.inr rfl)
  | PUT =>
    rw [hm] at h
    cases h
    exact put_codes
  | DELETE =>
    rw [hm] at h
    cases h
    exact delete_codes
  | PROPFIND =>
    rw [hm] at h
    cases h
    exact propfind_codes
  | MKCOL =>
    rw [hm] at h
    cases h
    exact mkcol_codes
  | COPY =>
    rw [hm] at h
    exact transfer_codes h
  | MOVE =>
    rw [hm] at h
    exact transfer_codes h
  | PROPPATCH =>
    rw [hm] at h
    cases h
    exact proppatch_codes
  | LOCK =>
    rw [hm] at h
    cases h
    exact lock_codes
  | UNLOCK =>
    rw [hm] at h
    cases h
    exact unlock_codes
  | OPTIONS | PATCH | REPORT =>
    rw [hm] at h
    cases h
    exact mem_codes rfl

end Handlers

/-! ## The router -/

section Enforce

variable {γ : Type} {resolve : List Char → γ → Option Path × γ} {now : ℕ} {locks : LockStore}
  {root : PathBuf} {lists : List IfList} {request_path : List Char} {cache cache' : γ}
  {e : Enforced} {code : StatusCode}

/-- The lock check refuses a path with 423. -/
theorem check_codes (h : check_path resolve now locks root lists request_path cache = (e, cache'))
    (he : e.reply = .error code) : code = .LOCKED := by
  unfold check_path at h
  split at h
  · cases h
    dsimp only at he
    split at he
    · cases he
      rfl
    · cases he
  · cases h
    cases he

/-- The lock check refuses writes only, and it has two answers. -/
theorem enforce_codes {method : Method} {uri_path : List Char} {headers : HeaderMap}
    (h : lock_enforce resolve now locks root method uri_path headers cache = (e, cache'))
    (he : e.reply = .error code) :
    is_write method = true ∧ (code = .LOCKED ∨ code = .PRECONDITION_FAILED) := by
  unfold lock_enforce at h
  split at h
  · cases h
    cases he
  · rename_i hw
    refine ⟨by simpa using hw, ?_⟩
    dsimp only at h
    split at h
    · cases h
      cases he
      exact Or.inr rfl
    · generalize hsrc : (if method = .COPY then (({ reply := .ok (), checked := [] } : Enforced),
        cache) else check_path resolve now locks root (parse_if_header headers)
          (trim_end_matches '/' uri_path) cache) = src at h
      obtain ⟨src, cache₁⟩ := src
      have hsource : src.reply = .error code → code = .LOCKED := by
        intro hreply
        split at hsrc
        · cases hsrc
          cases hreply
        · exact check_codes hsrc hreply
      dsimp only at h
      split at h
      · cases h
        exact Or.inl (hsource he)
      · split at h
        · split at h
          · cases h
            exact Or.inl (check_codes rfl he)
          · cases h
            exact Or.inl (hsource he)
        · cases h
          exact Or.inl (hsource he)

end Enforce

section Router

variable {hash_auth_header : List Char → UInt64}
  {base64_decode : List Char → Option (List UInt8)}
  {verify_password : List Char → List Char → Bool}
  {users : Users} {auth_cache_ttl : ℕ} {tailscale : TailscaleAuthState}
  {msg : Message} {h : Host} {r : AppResult}

/-- A reply has a code of its handler, or one of the lock check. -/
theorem reply_codes {c : Call} {s : Site} (hr : reply c s = some r) :
    status r ∈ codes c.req.method ∨ is_write c.req.method = true ∧
      (r = .error .LOCKED ∨ r = .error .PRECONDITION_FAILED) := by
  rcases reply_eq c s with ⟨-, hreply, -⟩ | ⟨⟨code, herror, hreply⟩, -⟩
  · rw [hreply] at hr
    exact Or.inl (dispatch_codes hr)
  · rw [hreply] at hr
    cases hr
    obtain ⟨hw, hcode⟩ := enforce_codes rfl herror
    refine Or.inr ⟨hw, hcode.imp ?_ ?_⟩
    all_goals
      rintro rfl
      rfl

/-- What has no handler is not looked at by the lock check either. -/
theorem unserved_reply {c : Call} {s : Site}
    (hm : ¬ (c.req.method ≠ .PATCH ∧ c.req.method ≠ .REPORT)) (hr : reply c s = some r) :
    r = .error .NOT_IMPLEMENTED := by
  have hread : is_write c.req.method = false := by
    cases hc : c.req.method with
    | PATCH | REPORT => rfl
    | _ =>
      rw [hc] at hm
      exact absurd ⟨by decide, by decide⟩ hm
  rcases reply_eq c s with ⟨-, hreply, -⟩ | ⟨⟨code, herror, -⟩, -⟩
  · rw [hreply] at hr
    unfold Server.dispatch at hr
    cases hc : c.req.method with
    | PATCH | REPORT =>
      rw [hc] at hr
      cases hr
      rfl
    | _ =>
      rw [hc] at hm
      exact absurd ⟨by decide, by decide⟩ hm
  · obtain ⟨hw, -⟩ := enforce_codes rfl herror
    rw [hread] at hw
    cases hw

/-- **What the server answers.** Whatever it keeps and serves and whatever fails: a message
that the gates let through is answered 501 where its method is not announced, and else with
a code of its method or by the lock check. -/
theorem answers_listed
    (hr : (make_router hash_auth_header base64_decode verify_password users auth_cache_ttl tailscale
      msg h).1 = .replied (some r)) :
    (msg.method.toList ∉ allowed ∧ r = .error .NOT_IMPLEMENTED) ∨
      ∃ m, from_http_method msg.method = some m ∧ msg.method.toList ∈ allowed ∧
        status r ≠ .NOT_IMPLEMENTED ∧ (status r ∈ codes m ∨ is_write m = true ∧
          (r = .error .LOCKED ∨ r = .error .PRECONDITION_FAILED)) := by
  rw [make_router_eq] at hr
  -- what a gate refuses is answered by the gate, and not by the server
  rcases stack_cases msg (gates hash_auth_header base64_decode verify_password users
    auth_cache_ttl tailscale) (layer lock_mw dispatch) h with ⟨t, ha, heq⟩ | ⟨a, t, hrefused, heq⟩
  · rw [heq] at hr
    cases hm : from_http_method msg.method with
    | none =>
      rw [lock_unknown hm] at hr
      cases hr
      refine Or.inl ⟨fun hmem => ?_, rfl⟩
      obtain ⟨m, hknown⟩ := allowed_known hmem
      rw [hm] at hknown
      cases hknown
    | some m =>
      rw [lock_serves hm] at hr
      have hreply : reply (msg.call_for m) t.site = some r := by
        injection hr
      have hcodes := reply_codes hreply
      have hname := from_http_method_iff.mp hm
      -- PATCH and REPORT are known by name but not served
      by_cases hserved : m ≠ .PATCH ∧ m ≠ .REPORT
      · refine Or.inr ⟨m, rfl, ?_, ?_, hcodes⟩
        · rw [hname]
          exact (as_str_allowed m).mpr hserved
        · intro hcode
          rcases hcodes with hmem | ⟨-, rfl | rfl⟩
          · rw [hcode] at hmem
            exact codes_served hserved hmem
          · cases hcode
          · cases hcode
      · refine Or.inl ⟨fun hmem => ?_, ?_⟩
        · rw [hname] at hmem
          exact hserved ((as_str_allowed m).mp hmem)
        · exact unserved_reply hserved hreply
  · rw [heq] at hr
    obtain rfl : a = .replied (some r) := hr
    exact absurd hrefused gates_make

end Router

/-- The PUT by user `a` is answered 201. -/
theorem put_a_created : (make_router (fun _ => 0) decode_a_b verify_b only_a (Duration.from_secs 60)
    .Disabled put_a host).1 = .replied (some (.ok .CREATED)) := by
  have hreply : reply (put_a.call_for .PUT) StoreLaws.home = some (.ok .CREATED) := by decide
  have hrun : (auth_middleware (fun _ => 0) decode_a_b verify_b
      (fresh.auth only_a (Duration.from_secs 60)) basic_a_b 0 0).1 = .run := by decide
  rw [make_router_eq, stack_admits (admits_run rfl rfl hrun), lock_serves (m := .PUT) rfl]
  exact congrArg Answer.replied hreply

theorem answers_listed_a : (put_a.method.toList ∉ allowed ∧
      (.ok .CREATED : AppResult) = .error .NOT_IMPLEMENTED) ∨
    ∃ m, from_http_method put_a.method = some m ∧ put_a.method.toList ∈ allowed ∧
      status (.ok .CREATED) ≠ .NOT_IMPLEMENTED ∧ (status (.ok .CREATED) ∈ codes m ∨
        is_write m = true ∧ ((.ok .CREATED : AppResult) = .error .LOCKED ∨
          (.ok .CREATED : AppResult) = .error .PRECONDITION_FAILED)) :=
  answers_listed put_a_created

end Rshs.Answers
