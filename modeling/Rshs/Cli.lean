/-
`cli.rs`: the command line and the configurations built from it, and when the
identity gate it asks for is closed.

The documentation of `--accept-tailscale-serve-auth` promises a 403 without the
identity header whenever that option or `--tailscale-users-file` is set. An option
that names nobody (a blank argument, a file that is missing, unreadable or only
comments) builds the `Disabled` state instead, which lets every request through.
`gate_closed_iff` says exactly when the promise is kept.
-/
import Rshs.Auth
import Rshs.Tailscale

set_option autoImplicit false

namespace Rshs

open FinMap Rshs.Webdav Rshs.Auth Rshs.Tailscale

/-- The options of the command line that a configuration is built from. -/
structure Cli where
  users : List (List Char)
  shadow_file : Option (List Char)
  shadow_write : Bool
  auth_cache_ttl : ℕ
  accept_tailscale_serve_auth : Option (List Char)
  tailscale_users_file : Option (List Char)

namespace Cli

def to_shadow_file_arg (cli : Cli) : Option ShadowFileArg :=
  cli.shadow_file.map ShadowFileArg.from_arg

/-- One `--user` entry. -/
def add_entry (config : AuthState) (entry : List Char) : AuthState :=
  match Str.split_once ':' entry with
  | some (username, password) =>
    if username ≠ [] then config.add_user username password else config
  | none => config

def to_auth_state (cli : Cli) : AuthState := cli.users.foldl add_entry AuthState.new

section Tailscale

variable (read : List Char → Option (List UInt8))

/-- The state of the identity gate; `read` is what reading a file yields. -/
def to_tailscale_auth_state (cli : Cli) : TailscaleAuthState :=
  let from_flag := match cli.accept_tailscale_serve_auth with
    | some raw => from_arg raw
    | none => .Disabled
  let from_file := match cli.tailscale_users_file with
    | some path => (from_file (read path)).getD .Disabled
    | none => .Disabled
  from_flag.merge from_file

/-- Some source names somebody. -/
def Names (cli : Cli) : Prop :=
  (∃ raw, cli.accept_tailscale_serve_auth = some raw ∧ ArgNames raw) ∨
    ∃ path, cli.tailscale_users_file = some path ∧ FileNames (read path)

/-- **When the gate is closed.** For every command line and every state of the file
system: a request without the identity header is refused if and only if the argument
or the users file names somebody. -/
theorem gate_closed_iff (cli : Cli) :
    tailscale_auth_middleware (cli.to_tailscale_auth_state read) none
        = .error (forbidden "no Tailscale identity header on this request") ↔
      Names read cli := by
  rw [middleware_without_header, ← Bool.not_eq_true]
  unfold to_tailscale_auth_state Names
  dsimp only
  rw [merge_is_empty, not_and_or]
  apply or_congr
  · cases cli.accept_tailscale_serve_auth with
    | none => simp [TailscaleAuthState.is_empty]
    | some raw =>
      dsimp only
      rw [from_arg_is_empty, not_not]
      constructor
      · intro h
        exact ⟨raw, rfl, h⟩
      · intro h
        obtain ⟨raw', heq, hnames⟩ := h
        cases heq
        exact hnames
  · cases cli.tailscale_users_file with
    | none => simp [TailscaleAuthState.is_empty]
    | some path =>
      dsimp only
      rw [from_file_is_empty, not_not]
      constructor
      · intro h
        exact ⟨path, rfl, h⟩
      · intro h
        obtain ⟨path', heq, hnames⟩ := h
        cases heq
        exact hnames

end Tailscale

/-- The command line with `--tailscale-users-file /users`. -/
def users_file : Cli where
  users := []
  shadow_file := none
  shadow_write := false
  auth_cache_ttl := 60
  accept_tailscale_serve_auth := none
  tailscale_users_file := some "/users".toList

/-- The option is given, its file cannot be read, and a request without the header goes on. -/
theorem unread_file_opens :
    ¬ (users_file.tailscale_users_file.isSome = true →
      tailscale_auth_middleware (users_file.to_tailscale_auth_state (fun _ => none)) none
        = .error (forbidden "no Tailscale identity header on this request")) := by
  intro h
  have hrefused := h rfl
  have hpassed : tailscale_auth_middleware
      (users_file.to_tailscale_auth_state (fun _ => none)) none = .ok () := rfl
  rw [hpassed] at hrefused
  cases hrefused

end Cli

end Rshs
