/-
`webdav/mod.rs`: the protocol types the lock system and the handlers share
(`Depth`, `LockScope`, `LockInfo`, `LockStore`), the clock test `is_expired`, and
the header parsers.

Instants are nanoseconds since the epoch and durations are nanoseconds, both
natural numbers: `created.elapsed().unwrap_or_default()` is then the truncated
subtraction `now - created`. A clock reading is a parameter of every function that
reads the clock.

A header value is its bytes; `to_str` accepts visible ASCII, space and tab, as the
header type does. `HeaderMap` has one field for each header some handler reads.
-/
import Rshs.StdPath
import Rshs.Lease
import Rshs.FinMap
import Mathlib.Data.List.DropRight

set_option autoImplicit false

namespace Rshs.Webdav

open StdPath FinMap

/-! ## Types -/

/-- The status codes the handlers answer with. -/
inductive StatusCode
  | OK
  | CREATED
  | NO_CONTENT
  | MULTI_STATUS
  | BAD_REQUEST
  | FORBIDDEN
  | NOT_FOUND
  | METHOD_NOT_ALLOWED
  | CONFLICT
  | PRECONDITION_FAILED
  | UNSUPPORTED_MEDIA_TYPE
  | LOCKED
  | INTERNAL_SERVER_ERROR
  | NOT_IMPLEMENTED
deriving DecidableEq

/-- The methods the server knows. -/
inductive Method
  | HEAD
  | GET
  | PUT
  | PATCH
  | DELETE
  | OPTIONS
  | PROPFIND
  | PROPPATCH
  | MKCOL
  | COPY
  | MOVE
  | LOCK
  | UNLOCK
  | REPORT
deriving DecidableEq

/-- `Duration::from_secs`, in nanoseconds. -/
def Duration.from_secs (n : ℕ) : ℕ := n * 1000000000

inductive Depth
  | Zero
  | One
  | Infinity
deriving DecidableEq

inductive LockScope
  | Exclusive
  | Shared
deriving DecidableEq

/-- A WebDAV lock. -/
structure LockInfo where
  scope : LockScope
  token : String
  owner : Option String
  created : ℕ
  timeout : Option ℕ
  depth : Depth
deriving DecidableEq

/-- Whether the lock has expired at the clock reading `now`. -/
def LockInfo.is_expired (l : LockInfo) (now : ℕ) : Bool :=
  match l.timeout with
  | none => false
  | some timeout => timeout ≤ now - l.created

def LockInfo.is_exclusive (l : LockInfo) : Bool := l.scope = .Exclusive

/-- One action of a PROPPATCH body: a property name with its new value, or none to
remove it. -/
structure PropPatchAction where
  name : String
  value : Option String

structure PropPatchOp where
  actions : List PropPatchAction

/-- Resource path to the locks stored there. -/
abbrev LockStore := Map Path (List LockInfo)

/-- Resource path to its dead properties. -/
abbrev DeadPropertyStore := Map Path (Map String String)

/-- The locks stored at a path, none when the path is no key. -/
def LockStore.at (locks : LockStore) (p : Path) : List LockInfo := get_or [] p locks

theorem at_or_default (locks : LockStore) (p q : Path) :
    LockStore.at (or_default [] p locks) q = locks.at q :=
  get_or_or_default _ _ _ _

theorem at_insert (locks : LockStore) (p q : Path) (infos : List LockInfo) :
    LockStore.at (locks.insert p infos) q = if q = p then infos else locks.at q := by
  split
  · rename_i heq
    rw [heq]
    exact get_or_insert _ _ _ _
  · rename_i hne
    exact get_or_insert_ne _ hne _ _

theorem at_of_lookup {locks : LockStore} {p : Path} {infos : List LockInfo}
    (h : locks.lookup p = some infos) : locks.at p = infos := by
  simp [LockStore.at, get_or, h]

/-! ## The clock -/

/-- `is_expired` in the shape the lease lemmas take. -/
def expired (now : ℕ) (l : LockInfo) : Bool := l.is_expired now

/-- **An expired lock stays expired**, as long as nobody writes its `created`. -/
theorem expired_perishable : Lease.Perishable expired := by
  intro s t l hst hdead
  rw [expired, LockInfo.is_expired] at hdead ⊢
  split at hdead
  · exact hdead
  · rw [decide_eq_true_eq] at hdead ⊢
    omega

/-- `created` is the only field a refresh writes, and a refresh never kills. -/
theorem is_expired_refresh (l : LockInfo) (now : ℕ) (h : l.is_expired now = false) :
    ({ l with created := now } : LockInfo).is_expired now = false := by
  rw [LockInfo.is_expired] at h ⊢
  cases ht : l.timeout with
  | none => rfl
  | some timeout =>
    simp only [ht, decide_eq_false_iff_not] at h ⊢
    omega

/-! ## Tokens -/

/-- The sixteen hexadecimal digits of a 64-bit word. -/
def hex16 (w : UInt64) : List Char :=
  (List.range 16).map (fun i => Nat.digitChar (w.toNat / 16 ^ (15 - i) % 16))

/-- `generate_lock_token`: the clock reading, hashed by the standard library's
default hasher. -/
def generate_lock_token (default_hasher : ℕ → UInt64) (now : ℕ) : String :=
  "opaquelocktoken:" ++ String.ofList (hex16 (default_hasher now))

/-! ## Headers -/

/-- The bytes of a header value. -/
abbrev HeaderValue := List UInt8

/-- `HeaderValue::to_str`. -/
def HeaderValue.to_str (v : HeaderValue) : Option (List Char) :=
  if v.all (fun b => (32 ≤ b && b < 127) || b == 9) then
    some (v.map (fun b => Char.ofNat b.toNat))
  else none

/-- The headers the handlers read. -/
structure HeaderMap where
  if_header : Option HeaderValue := none
  lock_token : Option HeaderValue := none
  destination : Option HeaderValue := none
  overwrite : Option HeaderValue := none
  depth : Option HeaderValue := none
  timeout : Option HeaderValue := none
  content_length : Option HeaderValue := none
deriving DecidableEq

/-- `str::trim_end_matches`. -/
def trim_end_matches (c : Char) (s : List Char) : List Char := s.rdropWhile (· = c)

/-- `str::trim_matches`. -/
def trim_matches (c : Char) (s : List Char) : List Char :=
  trim_end_matches c (s.dropWhile (· = c))

/-- `str::trim`. -/
def trim (s : List Char) : List Char :=
  (s.dropWhile Char.isWhitespace).rdropWhile Char.isWhitespace

/-- The bare token of the `Lock-Token` header. -/
def parse_lock_token_header (headers : HeaderMap) : Option String :=
  headers.lock_token.bind fun v =>
    v.to_str.map fun s => String.ofList (trim (trim_matches '>' (trim_matches '<' s)))

/-- `str::parse::<u64>`: an optional `+`, at least one digit, no overflow. -/
def parse_u64 (s : List Char) : Option ℕ :=
  let digits := match s with
    | '+' :: rest => rest
    | _ => s
  if digits ≠ [] ∧ digits.all Char.isDigit = true then
    let n := digits.foldl (fun acc c => acc * 10 + (c.toNat - 48)) 0
    if n < 2 ^ 64 then some n else none
  else none

/-- The `Timeout` header, `Second-<N>`. -/
def parse_timeout (headers : HeaderMap) : Option ℕ :=
  headers.timeout.bind fun v =>
    v.to_str.bind fun s =>
      if "Second-".toList.isPrefixOf s then
        (parse_u64 (s.drop 7)).map Duration.from_secs
      else none

/-- The `Depth` header. -/
def parse_depth (headers : HeaderMap) : Depth :=
  match (headers.depth.bind HeaderValue.to_str).getD "infinity".toList with
  | ['0'] => .Zero
  | ['1'] => .One
  | _ => .Infinity

/-- The text after the first occurrence of `pat`. -/
def after_first (pat : List Char) : List Char → Option (List Char)
  | [] => if pat = [] then some [] else none
  | c :: cs => if pat.isPrefixOf (c :: cs) then some ((c :: cs).drop pat.length)
    else after_first pat cs

/-- The path of the `Destination` header: a full URL from its first `/` after
`://`, or an absolute path; decoded, trailing slashes stripped. -/
def parse_destination (headers : HeaderMap) : Option (List Char) :=
  headers.destination.bind fun v =>
    v.to_str.bind fun value =>
      let path := match after_first "://".toList value with
        | some after_scheme =>
          (after_first ['/'] after_scheme).map fun rest => Text.decode ('/' :: rest)
        | none => if value.head? = some '/' then some (Text.decode value) else none
      path.map (trim_end_matches '/')

/-- The `Overwrite` header: everything but `F` is true. -/
def parse_overwrite (headers : HeaderMap) : Bool :=
  ((headers.overwrite.bind HeaderValue.to_str).map (List.map Char.toUpper)).getD ['T'] ≠ ['F']

end Rshs.Webdav
