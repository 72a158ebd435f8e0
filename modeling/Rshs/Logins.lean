/-
Who may log in, from the command line to a served message.

`build_auth_state` reads the users of the shadow file and puts those of the command line on
top. Both are loops that insert, so the last entry with a name counts (`lookup_foldl_last`):
the last `--user` with the name, and the last line of the file for a name that no `--user`
has. `login_iff` is that for the state the server starts with, and `startup_served` for a
message that such a server serves in any run.

The text of the file is the one that is there once the missing directories and the file
have been made.
-/
import Rshs.Router
import Rshs.ShadowLines

set_option autoImplicit false

namespace Rshs.Logins

open FinMap StdPath Posix Rshs.Webdav Rshs.Auth Rshs.ShadowFile Rshs.ShadowLines Rshs.AuthCache
open Layers Rshs.Router

/-! ## A loop that inserts -/

section Loop

variable {α β γ : Type*} [DecidableEq α] {f : γ → Option (α × β)} {k : α}

/-- What an entry gives for a key. -/
def value_for (f : γ → Option (α × β)) (k : α) (x : γ) : Option β :=
  (f x).bind fun e => if e.1 = k then some e.2 else none

/-- What the last of the entries with a key gives for it. -/
def last_for (f : γ → Option (α × β)) (k : α) (l : List γ) : Option β :=
  (l.filterMap (value_for f k)).getLast?

theorem last_for_cons (x : γ) (l : List γ) :
    last_for f k (x :: l) = (last_for f k l).or (value_for f k x) := by
  unfold last_for
  cases hx : value_for f k x with
  | none => rw [List.filterMap_cons_none hx, Option.or_none]
  | some v =>
    rw [List.filterMap_cons_some hx, List.getLast?_cons]
    cases (l.filterMap (value_for f k)).getLast?
    all_goals rfl

/-- **The last entry with a key counts.** -/
theorem lookup_foldl_last {step : Map α β → γ → Map α β}
    (hstep : ∀ m x, step m x = (f x).elim m fun e => m.insert e.1 e.2) (l : List γ) (m : Map α β) :
    (l.foldl step m).lookup k = (last_for f k l).or (m.lookup k) := by
  induction l generalizing m with
  | nil => rfl
  | cons x l ih =>
    rw [List.foldl_cons, ih, last_for_cons, Option.or_assoc, hstep]
    congr 1
    unfold value_for
    rcases f x with _ | ⟨a, b⟩
    · rfl
    · by_cases ha : a = k
      · subst ha
        simp
      · simp [ha, AList.lookup_insert_ne (Ne.symm ha)]

theorem last_for_some {l : List γ} {v : β} (h : last_for f k l = some v) :
    ∃ x ∈ l, f x = some (k, v) := by
  obtain ⟨x, hx, hv⟩ := List.mem_filterMap.mp (List.mem_of_getLast? h)
  obtain ⟨⟨a, b⟩, hf, hkey⟩ := Option.bind_eq_some_iff.mp hv
  split at hkey
  · rename_i ha
    cases hkey
    obtain rfl : a = k := ha
    exact ⟨x, hx, hf⟩
  · cases hkey

/-- No key has a last entry when there are no entries. -/
theorem last_for_none_iff {l : List γ} :
    (∀ k, last_for f k l = none) ↔ ∀ x ∈ l, f x = none := by
  constructor
  · intro h x hx
    by_contra hne
    obtain ⟨⟨a, b⟩, hf⟩ := Option.ne_none_iff_exists'.mp hne
    have hlast := h a
    unfold last_for at hlast
    rw [List.getLast?_eq_none_iff, List.filterMap_eq_nil_iff] at hlast
    have hnone := hlast x hx
    unfold value_for at hnone
    rw [hf] at hnone
    simp at hnone
  · intro h k
    cases hl : last_for f k l with
    | none => rfl
    | some v =>
      obtain ⟨x, hx, hf⟩ := last_for_some hl
      rw [h x hx] at hf
      cases hf

end Loop

/-! ## The two sources of users -/

/-- The user of one `--user`, if it has a name. -/
def user_entry (entry : List Char) : Option (List Char × Credential) :=
  ((Str.split_once ':' entry).filter fun e => e.1 ≠ []).map fun e => (e.1, .Plaintext e.2)

/-- The hash of a line, which ends at a colon or with the line. -/
def hash_field (rest : List Char) : List Char :=
  match Str.split_once ':' rest with
  | some (h, _) => h
  | none => rest

/-- The user of one line of a shadow file, if it has a name and a hash. -/
def line_entry (line : List Char) : Option (List Char × Credential) :=
  (Str.split_once ':' (Str.trim line)).bind fun e =>
    if e.1 = [] ∨ (hash_field e.2).head? ≠ some '$' then none
    else some (e.1, .Sha512Crypt (hash_field e.2))

theorem add_entry_eq (s : AuthState) (entry : List Char) :
    (Cli.add_entry s entry).users =
      (user_entry entry).elim s.users fun e => s.users.insert e.1 e.2 := by
  unfold Cli.add_entry user_entry
  rcases Str.split_once ':' entry with _ | ⟨username, password⟩
  · rfl
  · by_cases hname : username = []
    · simp [hname, Option.filter]
    · simp [hname, Option.filter, AuthState.add_user]

theorem load_line_eq (users : Users) (line : List Char) :
    load_line users line = (line_entry line).elim users fun e => users.insert e.1 e.2 := by
  unfold load_line line_entry
  dsimp only
  by_cases hempty : Str.trim line = []
  · rw [if_pos hempty, hempty]
    rfl
  · rw [if_neg hempty]
    rcases Str.split_once ':' (Str.trim line) with _ | ⟨username, rest⟩
    · rfl
    · by_cases hname : username = []
      · simp [hname]
      · -- an empty hash does not begin with a dollar
        show (if username = [] then users else if hash_field rest = [] ∨
          (hash_field rest).head? ≠ some '$' then users
            else users.insert username (.Sha512Crypt (hash_field rest))) = _
        by_cases hdollar : (hash_field rest).head? = some '$'
        · have hne : hash_field rest ≠ [] := by
            intro hnil
            rw [hnil] at hdollar
            cases hdollar
          simp [hname, hdollar, hne]
        · simp [hname, hdollar]

/-- A `--user` is a password, and a line is a hash. -/
theorem user_entry_some {entry username : List Char} {credential : Credential}
    (h : user_entry entry = some (username, credential)) :
    ∃ password, credential = .Plaintext password := by
  obtain ⟨e, -, heq⟩ := Option.map_eq_some_iff.mp h
  cases heq
  exact ⟨e.2, rfl⟩

theorem line_entry_some {line username : List Char} {credential : Credential}
    (h : line_entry line = some (username, credential)) :
    ∃ hash, credential = .Sha512Crypt hash := by
  obtain ⟨e, -, heq⟩ := Option.bind_eq_some_iff.mp h
  split at heq
  · cases heq
  · cases heq
    exact ⟨hash_field e.2, rfl⟩

/-! ## The state the server starts with -/

section Build

variable (iterate : Users → List (List Char × Credential))
  (hash_password : List Char → List Char → Option (List Char))
  (verify_password : List Char → List Char → Bool) (cwd : Path) (cli : Cli) (d : Disk)

/-- The text of the shadow file that is read, if there is one. -/
def shadow_text : Option (List Char) :=
  cli.to_shadow_file_arg.bind fun shadow =>
    let p := PathBuf.of_text shadow.path
    read_to_string cwd p (made cwd p (make_parents cwd p d))

/-- The lines of the shadow file. -/
def shadow_lines : List (List Char) := (shadow_text cwd cli d).elim [] Str.lines

/-- The user may log in with the password: it is that of the last `--user` with the name, or
there is none and it belongs to the hash of the last line with the name. -/
def Accepts (username password : List Char) : Prop :=
  last_for user_entry username cli.users = some (.Plaintext password) ∨
    last_for user_entry username cli.users = none ∧ ∃ hash,
      last_for line_entry username (shadow_lines cwd cli d) = some (.Sha512Crypt hash) ∧
        verify_password password hash = true

/-- Nobody is named. -/
def Nobody : Prop :=
  (∀ entry ∈ cli.users, user_entry entry = none) ∧
    ∀ line ∈ shadow_lines cwd cli d, line_entry line = none

end Build

section Results

variable {iterate : Users → List (List Char × Credential)}
  {hash_password : List Char → List Char → Option (List Char)}
  {verify_password : List Char → List Char → Bool} {cwd : Path} {cli : Cli} {d : Disk}

theorem lookup_cli (username : List Char) :
    cli.to_auth_state.users.lookup username = last_for user_entry username cli.users := by
  let step : Users → List Char → Users := fun users entry =>
    (user_entry entry).elim users fun e => users.insert e.1 e.2
  have hhom : cli.users.foldl step AuthState.new.users =
      (cli.users.foldl Cli.add_entry AuthState.new).users :=
    List.foldl_hom AuthState.users fun s entry => (add_entry_eq s entry).symm
  show (cli.users.foldl Cli.add_entry AuthState.new).users.lookup username = _
  rw [← hhom, lookup_foldl_last (fun _ _ => rfl)]
  exact Option.or_none

theorem is_empty_iff (s : AuthState) :
    s.is_empty = true ↔ ∀ username, s.users.lookup username = none := by
  unfold AuthState.is_empty
  rw [List.isEmpty_iff]
  constructor
  · intro h username
    refine AList.lookup_eq_none.mpr fun hmem => ?_
    rw [AList.mem_keys, AList.keys, h] at hmem
    cases hmem
  · intro h
    by_contra hne
    obtain ⟨e, rest, heq⟩ := List.exists_cons_of_ne_nil hne
    have hmem : e ∈ s.users.entries := by
      rw [heq]
      exact List.mem_cons_self
    have hlookup : s.users.lookup e.1 = some e.2 := AList.mem_lookup_iff.mpr hmem
    rw [h] at hlookup
    cases hlookup

theorem lookup_load (content username : List Char) :
    (load_from_shadow_file content).users.lookup username =
      last_for line_entry username (Str.lines content) := by
  unfold load_from_shadow_file
  dsimp only
  rw [lookup_foldl_last load_line_eq]
  exact Option.or_none

/-- **The users of a server**: those of the command line, over those of the file. -/
theorem lookup_build (username : List Char) :
    (build_auth_state iterate hash_password cwd cli d).1.users.lookup username =
      (last_for user_entry username cli.users).or
        (last_for line_entry username (shadow_lines cwd cli d)) := by
  unfold build_auth_state shadow_lines shadow_text
  cases cli.to_shadow_file_arg with
  | none =>
    rw [lookup_cli]
    exact Option.or_none.symm
  | some shadow =>
    show (merged_users cwd cli (PathBuf.of_text shadow.path) (made cwd (PathBuf.of_text shadow.path)
      (make_parents cwd (PathBuf.of_text shadow.path) d))).users.lookup username = _
    dsimp only [Option.bind_some]
    generalize made cwd (PathBuf.of_text shadow.path)
      (make_parents cwd (PathBuf.of_text shadow.path) d) = found
    have hfile : ∀ auth_state, auth_state = (read_to_string cwd (PathBuf.of_text shadow.path)
          found).elim AuthState.new load_from_shadow_file →
        auth_state.users.lookup username = last_for line_entry username
          ((read_to_string cwd (PathBuf.of_text shadow.path) found).elim [] Str.lines) := by
      rintro _ rfl
      cases read_to_string cwd (PathBuf.of_text shadow.path) found with
      | none => rfl
      | some content => exact lookup_load content username
    unfold ShadowFile.merged_users
    dsimp only
    by_cases hempty : cli.to_auth_state.is_empty = true
    · -- the command line adds nobody
      rw [if_pos hempty, ← lookup_cli, (is_empty_iff _).mp hempty username, Option.none_or]
      apply hfile
      cases read_to_string cwd (PathBuf.of_text shadow.path) found
      all_goals rfl
    · rw [if_neg hempty, lookup_merge, lookup_cli]
      congr 1
      apply hfile
      cases read_to_string cwd (PathBuf.of_text shadow.path) found
      all_goals rfl

theorem build_empty_iff :
    (build_auth_state iterate hash_password cwd cli d).1.is_empty = true ↔ Nobody cwd cli d := by
  unfold Nobody
  rw [is_empty_iff, ← last_for_none_iff, ← last_for_none_iff, ← forall_and]
  apply forall_congr'
  intro username
  rw [lookup_build, Option.or_eq_none_iff]

theorem build_validate_iff (username password : List Char) :
    (build_auth_state iterate hash_password cwd cli d).1.validate verify_password username password
        = true ↔ Accepts verify_password cwd cli d username password := by
  unfold AuthState.validate Accepts
  rw [lookup_build]
  cases hgiven : last_for user_entry username cli.users with
  | some credential =>
    obtain ⟨entry, -, hentry⟩ := last_for_some hgiven
    obtain ⟨expected, rfl⟩ := user_entry_some hentry
    simp
  | none =>
    rw [Option.none_or]
    cases hline : last_for line_entry username (shadow_lines cwd cli d) with
    | none => simp
    | some credential =>
      obtain ⟨line, -, hentry⟩ := last_for_some hline
      obtain ⟨hash, rfl⟩ := line_entry_some hentry
      simp

/-- **Who may log in.** For every command line and every file system the server starts on:
the gate is open for everyone exactly when no `--user` and no line of the shadow file names
anybody, and otherwise the last `--user` with a name decides, and without one the last line
with it. -/
theorem login_iff (iterate : Users → List (List Char × Credential))
    (hash_password : List Char → List Char → Option (List Char))
    (verify_password : List Char → List Char → Bool) (cwd : Path) (cli : Cli) (d : Disk) :
    ((build_auth_state iterate hash_password cwd cli d).1.is_empty = true ↔ Nobody cwd cli d) ∧
      ∀ username password, (build_auth_state iterate hash_password cwd cli d).1.validate
        verify_password username password = true ↔
          Accepts verify_password cwd cli d username password :=
  ⟨build_empty_iff, build_validate_iff⟩

end Results

/-! ## A server from its command line -/

section Server

variable {iterate : Users → List (List Char × Credential)}
  {hash_password : List Char → List Char → Option (List Char)}
  {verify_password : List Char → List Char → Bool} {cwd : Path} {cli : Cli} {d : Disk}
  {hash_auth_header : List Char → UInt64} {base64_decode : List Char → Option (List UInt8)}
  {read : List Char → Option (List UInt8)} {h₀ h t : Host} {tr : List Event} {msg : Message}

/-- **Who is served.** In any run of a server that was started with a command line: a message
that it answers, or that changes anything, is known to the identity gate where there is one;
and it carries credentials of a user who may log in, where anybody is named, or such ones
were presented before whose hash is that of its own. -/
theorem startup_served (hinit : AuthCache.Initial h₀.auth)
    (hrun : Lts.Run (Step hash_auth_header base64_decode verify_password
      (build_auth_state iterate hash_password cwd cli d).1.users
      (build_auth_state iterate hash_password cwd cli d).1.auth_cache_ttl
      (cli.to_tailscale_auth_state read)) h₀ tr h)
    (hstep : Step hash_auth_header base64_decode verify_password
      (build_auth_state iterate hash_password cwd cli d).1.users
      (build_auth_state iterate hash_password cwd cli d).1.auth_cache_ttl
      (cli.to_tailscale_auth_state read) h (.message msg) t)
    (hserved : (∃ r, (make_router hash_auth_header base64_decode verify_password
        (build_auth_state iterate hash_password cwd cli d).1.users
        (build_auth_state iterate hash_password cwd cli d).1.auth_cache_ttl
        (cli.to_tailscale_auth_state read) msg h).1 = .replied r) ∨ t.site ≠ h.site) :
    is_health_check msg.health_check = false ∧
      ((cli.to_tailscale_auth_state read).is_empty = true ∨ ∃ login,
        msg.tailscale_user_login.bind HeaderValue.to_str = some login ∧
          (cli.to_tailscale_auth_state read).validate login = true) ∧
      (Nobody cwd cli d ∨ ∃ own, basic_credentials msg.authorization = some own ∧
        ∃ shown ∈ own :: shown_in tr, hash_auth_header shown = hash_auth_header own ∧
          ∃ username password,
            decode_credentials base64_decode shown = some (username, password) ∧
              Accepts verify_password cwd cli d username password) := by
  have hs := run_sure (List.Subset.refl _) hrun (initial_sure (shown_in tr) hinit)
  have hauth := message_served hs hstep hserved
  refine ⟨hauth.not_health, hauth.identity, ?_⟩
  rcases hauth.credentials with hopen | ⟨own, hown, shown, hshown, hsame, hvalid⟩
  · exact Or.inl (build_empty_iff.mp hopen)
  · obtain ⟨username, password, hdecode, hvalidate⟩ := hvalid
    exact Or.inr ⟨own, hown, shown, hshown, hsame, username, password, hdecode,
      (build_validate_iff username password).mp hvalidate⟩

/-- `--user a:b`. -/
def cli_a : Cli := user_cli "a:b"

theorem startup_served_a :
    is_health_check put_a.health_check = false ∧
      ((cli_a.to_tailscale_auth_state fun _ => none).is_empty = true ∨ ∃ login,
        put_a.tailscale_user_login.bind HeaderValue.to_str = some login ∧
          (cli_a.to_tailscale_auth_state fun _ => none).validate login = true) ∧
      (Nobody [] cli_a with_shadow ∨ ∃ own, basic_credentials put_a.authorization = some own ∧
        ∃ shown ∈ own :: shown_in [], (0 : UInt64) = 0 ∧ ∃ username password,
          decode_credentials decode_a_b shown = some (username, password) ∧
            Accepts verify_b [] cli_a with_shadow username password) := by
  have hrun : (auth_middleware (fun _ => 0) decode_a_b verify_b
      (fresh.auth (build_auth_state in_order some_hash [] cli_a with_shadow).1.users
        (build_auth_state in_order some_hash [] cli_a with_shadow).1.auth_cache_ttl)
      basic_a_b 0 0).1 = .run := by decide
  have hstep : Step (fun _ => 0) decode_a_b verify_b
      (build_auth_state in_order some_hash [] cli_a with_shadow).1.users
      (build_auth_state in_order some_hash [] cli_a with_shadow).1.auth_cache_ttl
      (cli_a.to_tailscale_auth_state fun _ => none) host (.message put_a) _ :=
    Step.message host put_a (Nat.le_refl 0) (Nat.le_refl 0) (Nat.le_refl 0) (Nat.le_refl 0)
      (Nat.le_refl 0)
  refine startup_served ⟨rfl, rfl⟩ (Lts.Run.nil host) hstep (Or.inl ?_)
  rw [make_router_eq, stack_admits (admits_run rfl rfl hrun), lock_serves (m := .PUT) rfl]
  exact ⟨_, rfl⟩

end Server

end Rshs.Logins
