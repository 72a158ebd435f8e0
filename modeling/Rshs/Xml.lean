/-
`webdav/xml.rs`, with the property names, requests and entries of `webdav/mod.rs`:
the body of a PROPFIND answer.

The writer's events are kept in the groups they are written in: a `Response` is an
href and its propstats, a `PropStat` is the elements of some properties and their
status, and `events` is the order in which the source writes them. `reported` reads
an answer as its reader does, one property at a time. Text is unescaped: the writer
escapes what it is given.

Two live properties are dates, and writing a date can panic. So nothing comes of an
element, a propstat or an answer in which that happens (`write_response_isSome`).
-/
import Rshs.Dates
import Rshs.Str
import Rshs.Webdav

set_option autoImplicit false

namespace Rshs.Xml

open StdPath FinMap Rshs.Webdav Rshs.Time
open Rshs.Dates (format_rfc1123 format_rfc3339 format_rfc1123_isSome format_rfc3339_isSome
  format_before day_count Counted)

/-! ## Property names -/

/-- `{namespace}local`, or the local name alone when there is no namespace. -/
def clark_key (ns localname : String) : String :=
  if ns = "" then localname else String.ofList ('{' :: (ns.toList ++ '}' :: localname.toList))

/-- A Clark key as namespace and local name. -/
def parse_clark (key : String) : Option (String × String) :=
  match key.toList with
  | '{' :: rest =>
    (Str.split_once '}' rest).map fun p => (String.ofList p.1, String.ofList p.2)
  | _ => some ("", key)

/-- The local name a key is looked up with among the live properties. -/
def local_name (key : String) : String := ((parse_clark key).map Prod.snd).getD key

/-- What a PROPFIND asks for: all live properties, the names of these, or some names. -/
inductive PropRequest
  | AllProp
  | PropName
  | Named (names : List String)

/-- The live properties. -/
def SUPPORTED_PROPS : List String :=
  ["creationdate", "getcontentlength", "getcontenttype", "getetag", "getlastmodified",
    "lockdiscovery", "resourcetype", "supportedlock"]

/-- A collection has no length, content type or entity tag. -/
def is_applicable (prop : String) (is_dir : Bool) : Bool :=
  if prop = "getcontentlength" ∨ prop = "getcontenttype" ∨ prop = "getetag" then !is_dir else true

/-- A request by name: the live properties it names, each once, and the names that are
none. -/
def sort_name (acc : List String × List String) (n : String) : List String × List String :=
  if SUPPORTED_PROPS.contains (local_name n) then
    if acc.1.contains (local_name n) then acc else (acc.1 ++ [local_name n], acc.2)
  else (acc.1, acc.2 ++ [n])

/-- The names of a request, sorted one after the other. -/
def sort_names (names : List String) : List String × List String := names.foldl sort_name ([], [])

/-! ## Events -/

/-- What the writer is given, text unescaped. -/
inductive Event
  | Start (name : String) (attributes : List (String × String))
  | End (name : String)
  | Empty (name : String) (attributes : List (String × String))
  | Text (content : String)
deriving DecidableEq

namespace El

def ACTIVE_LOCK : String := "D:activelock"
def COLLECTION : String := "D:collection"
def DEPTH : String := "D:depth"
def EXCLUSIVE : String := "D:exclusive"
def HREF : String := "D:href"
def LOCK_DISCOVERY : String := "D:lockdiscovery"
def LOCK_ENTRY : String := "D:lockentry"
def LOCK_SCOPE : String := "D:lockscope"
def LOCK_TOKEN : String := "D:locktoken"
def LOCK_TYPE : String := "D:locktype"
def OWNER : String := "D:owner"
def PROP : String := "D:prop"
def PROP_STAT : String := "D:propstat"
def RESOURCE_TYPE : String := "D:resourcetype"
def RESPONSE : String := "D:response"
def SHARED : String := "D:shared"
def STATUS : String := "D:status"
def SUPPORTED_LOCK : String := "D:supportedlock"
def TIMEOUT : String := "D:timeout"
def WRITE : String := "D:write"
def CREATION_DATE : String := "D:creationdate"
def GET_CONTENT_LENGTH : String := "D:getcontentlength"
def GET_CONTENT_TYPE : String := "D:getcontenttype"
def GET_ETAG : String := "D:getetag"
def GET_LAST_MODIFIED : String := "D:getlastmodified"

end El

/-- An element around some events. -/
def element (name : String) (content : List Event) : List Event :=
  .Start name [] :: (content ++ [.End name])

/-- A property whose value is a text. -/
def write_prop_text (qname value : String) : List Event := element qname [.Text value]

/-- One of the two kinds of lock that `supportedlock` offers. -/
def write_lockentry (scope : LockScope) : List Event :=
  element El.LOCK_ENTRY
    (element El.LOCK_SCOPE [.Empty (if scope = .Exclusive then El.EXCLUSIVE else El.SHARED) []]
      ++ element El.LOCK_TYPE [.Empty El.WRITE []])

/-- A depth as the `Depth` header spells it. -/
def depth_str : Depth → String
  | .Zero => "0"
  | .One => "1"
  | .Infinity => "infinity"

/-- What `lockdiscovery` says of a lock: no owner or timeout where it has none. -/
def write_activelock (lock : LockInfo) : List Event :=
  element El.ACTIVE_LOCK
    (element El.LOCK_SCOPE [.Empty (match lock.scope with
        | .Exclusive => El.EXCLUSIVE
        | .Shared => El.SHARED) []]
      ++ element El.LOCK_TYPE [.Empty El.WRITE []]
      ++ element El.DEPTH [.Text (depth_str lock.depth)]
      ++ (match lock.owner with
        | some owner => element El.OWNER [.Text owner]
        | none => [])
      ++ (match lock.timeout with
        | some d => element El.TIMEOUT [.Text ("Second-" ++ toString (d / NANOS))]
        | none => [])
      ++ element El.LOCK_TOKEN (element El.HREF [.Text lock.token]))

/-! ## Entries and their answers -/

/-- What a PROPFIND collects about a resource. -/
structure PropEntry where
  href : List Char
  modified : SystemTime
  created : Option SystemTime
  size : ℕ
  is_dir : Bool
  content_type : Option String := none
  dead_props : Option (Map String String) := none
  active_locks : Option (List LockInfo) := none
  canonical_path : Option Path := none

/-- The elements of some properties, and their status. -/
structure PropStat where
  props : List (List Event)
  status : String

/-- The answer about one resource. -/
structure Response where
  href : List Char
  propstats : List PropStat

/-- The status of what is reported. -/
def OK_LINE : String := "HTTP/1.1 200 OK"

/-- The status of what is asked for and not there. -/
def NOT_FOUND_LINE : String := "HTTP/1.1 404 Not Found"

/-- The entity tag: the seconds of the modification and the size, in hexadecimal. -/
def etag (entry : PropEntry) : String :=
  String.ofList (Nat.toDigits 16 ((secs_since_epoch entry.modified).getD 0) ++ ['-'] ++
    Nat.toDigits 16 entry.size)

/-- The element of a live property, if the date it may have can be written. -/
def live_prop (entry : PropEntry) (prop_name : String) : Option (List Event) :=
  if prop_name = "creationdate" then
    ((entry.created.map format_rfc3339).getD (some [])).map fun date =>
      write_prop_text El.CREATION_DATE (String.ofList date)
  else if prop_name = "getcontentlength" then
    some (write_prop_text El.GET_CONTENT_LENGTH (toString entry.size))
  else if prop_name = "getcontenttype" then
    some (write_prop_text El.GET_CONTENT_TYPE (entry.content_type.getD ""))
  else if prop_name = "getetag" then
    some (write_prop_text El.GET_ETAG (etag entry))
  else if prop_name = "getlastmodified" then
    (format_rfc1123 entry.modified).map fun date =>
      write_prop_text El.GET_LAST_MODIFIED (String.ofList date)
  else if prop_name = "lockdiscovery" then
    some (element El.LOCK_DISCOVERY ((entry.active_locks.getD []).flatMap write_activelock))
  else if prop_name = "resourcetype" then
    some (element El.RESOURCE_TYPE (if entry.is_dir then [.Empty El.COLLECTION []] else []))
  else if prop_name = "supportedlock" then
    some (element El.SUPPORTED_LOCK (write_lockentry .Exclusive ++ write_lockentry .Shared))
  else some []

/-- The attribute that declares the namespace of a key, none for the empty one. -/
def ns_attributes (ns : String) : List (String × String) :=
  if ns = "" then [] else [("xmlns", ns)]

/-- A key's namespace and local name, the whole key as local name when it is broken. -/
def key_parts (key : String) : String × String := (parse_clark key).getD ("", key)

/-- Some live properties with their values. -/
def write_propstat_200 (entry : PropEntry) (props : List String) : Option PropStat :=
  (props.mapM (live_prop entry)).map fun elements => { props := elements, status := OK_LINE }

/-- Names without a value: each an empty element in its namespace. -/
def write_propstat_404 (props : List String) : PropStat where
  props := props.map fun key => [.Empty (key_parts key).2 (ns_attributes (key_parts key).1)]
  status := NOT_FOUND_LINE

/-- The names of live properties. -/
def write_propname (props : List String) : PropStat where
  props := props.map fun name => [.Empty ("D:" ++ name) []]
  status := OK_LINE

/-- The element of a dead property. -/
def dead_prop (e : Entry String String) : List Event :=
  [.Start (key_parts e.1).2 (ns_attributes (key_parts e.1).1), .Text e.2, .End (key_parts e.1).2]

/-- The dead properties of a resource, all of them. -/
def write_dead_propstat (props : Map String String) : PropStat where
  props := props.entries.map dead_prop
  status := OK_LINE

/-- The names a request asks for: live properties, and others. -/
def asked : PropRequest → List String × List String
  | .AllProp => (SUPPORTED_PROPS, [])
  | .Named names => sort_names names
  | .PropName => ([], [])

/-- The names answered with 404: those that do not apply or are no live property, and
are no dead property either. -/
def not_found (entry : PropEntry) (prop_request : PropRequest) : List String :=
  let all := (asked prop_request).1.filter (fun p => !is_applicable p entry.is_dir)
    ++ (asked prop_request).2
  match entry.dead_props with
  | some dead => all.filter fun n => (dead.lookup n).isNone
  | none => all

/-- The propstats of an answer, those that would be empty left out. -/
def propstats (entry : PropEntry) (prop_request : PropRequest) : Option (List PropStat) :=
  match prop_request with
  | .PropName => some [write_propname SUPPORTED_PROPS]
  | .AllProp | .Named _ => do
    let applicable := (asked prop_request).1.filter fun p => is_applicable p entry.is_dir
    let missing := not_found entry prop_request
    let live ← (if applicable = [] then some []
      else (write_propstat_200 entry applicable).map fun ps => [ps])
    return live ++ (if missing = [] then [] else [write_propstat_404 missing])
      ++ (match entry.dead_props with
        | some dead => if dead.entries = [] then [] else [write_dead_propstat dead]
        | none => [])

/-- The answer about an entry. -/
def write_response (prop_request : PropRequest) (entry : PropEntry) : Option Response :=
  (propstats entry prop_request).map fun propstats => { href := entry.href, propstats }

/-- A propstat as it is written: its elements inside `prop`, then the status. -/
def PropStat.events (ps : PropStat) : List Event :=
  element El.PROP_STAT (element El.PROP ps.props.flatten ++ element El.STATUS [.Text ps.status])

/-- An answer as it is written: its href, then its propstats. -/
def Response.events (r : Response) : List Event :=
  element El.RESPONSE (element El.HREF [.Text (String.ofList r.href)]
    ++ r.propstats.flatMap PropStat.events)

/-- `build_multistatus`, after the XML declaration. -/
def build_multistatus (entries : List PropEntry) (prop_request : PropRequest) :
    Option (List Event) :=
  (entries.mapM (write_response prop_request)).map fun responses =>
    .Start "D:multistatus" [("xmlns:D", "DAV:")]
      :: (responses.flatMap Response.events ++ [.End "D:multistatus"])

/-! ## Reading an answer -/

/-- The properties of an answer, each with its status. -/
def Response.reported (r : Response) : List (List Event × String) :=
  r.propstats.flatMap fun ps => ps.props.map fun p => (p, ps.status)

/-- A request asks for a property by its local name; an `allprop` asks for every live
one. -/
def Asks (prop_request : PropRequest) (prop : String) : Prop :=
  match prop_request with
  | .AllProp => True
  | .PropName => False
  | .Named names => ∃ n ∈ names, local_name n = prop

/-! ## What an answer depends on -/

/-- The last name of a request is sorted last. -/
theorem sort_names_append (names : List String) (n : String) :
    sort_names (names ++ [n]) = sort_name (sort_names names) n := by
  unfold sort_names
  rw [List.foldl_append, List.foldl_cons, List.foldl_nil]

/-- The live properties of a request are those that a name of it has as local name. -/
theorem mem_sort_names {names : List String} {p : String} :
    p ∈ (sort_names names).1 ↔ p ∈ SUPPORTED_PROPS ∧ ∃ n ∈ names, local_name n = p := by
  -- a name is taken as live the first time it is named
  induction names using List.reverseRecOn with
  | nil => simp [sort_names]
  | append_singleton names n ih =>
    have hstep : p ∈ (sort_names (names ++ [n])).1 ↔
        p ∈ (sort_names names).1 ∨ (p ∈ SUPPORTED_PROPS ∧ local_name n = p) := by
      rw [sort_names_append]
      unfold sort_name
      by_cases hlive : SUPPORTED_PROPS.contains (local_name n) = true
      · rw [if_pos hlive]
        rw [List.contains_iff_mem] at hlive
        by_cases hseen : (sort_names names).1.contains (local_name n) = true
        · -- named before: nothing is added
          rw [if_pos hseen]
          rw [List.contains_iff_mem] at hseen
          constructor
          · intro h
            exact Or.inl h
          · intro h
            apply h.elim id
            intro hn
            rw [← hn.2]
            exact hseen
        · rw [if_neg hseen, List.mem_append, List.mem_singleton]
          constructor
          · intro h
            apply h.imp_right
            intro hp
            rw [hp]
            exact ⟨hlive, rfl⟩
          · intro h
            exact h.imp_right fun hn => hn.2.symm
      -- a name that is not live goes to the dead ones
      · rw [if_neg hlive]
        rw [List.contains_iff_mem] at hlive
        constructor
        · intro h
          exact Or.inl h
        · intro h
          apply h.elim id
          intro hn
          rw [← hn.2] at hn
          exact absurd hn.1 hlive
    rw [hstep, ih]
    simp only [List.mem_append, List.mem_singleton]
    constructor
    · rintro (⟨hp, m, hm, hl⟩ | ⟨hp, hn⟩)
      · exact ⟨hp, m, Or.inl hm, hl⟩
      · exact ⟨hp, n, Or.inr rfl, hn⟩
    · rintro ⟨hp, m, hm | hm, hl⟩
      · exact Or.inl ⟨hp, m, hm, hl⟩
      · rw [hm] at hl
        exact Or.inr ⟨hp, hl⟩

/-- The live properties that a request asks for. -/
theorem mem_asked {prop_request : PropRequest} {p : String} :
    p ∈ (asked prop_request).1 ↔ p ∈ SUPPORTED_PROPS ∧ Asks prop_request p := by
  cases prop_request with
  | AllProp => simp [asked, Asks]
  | PropName => simp [asked, Asks]
  | Named names => exact mem_sort_names

/-- The element of a live property, where it can be written. -/
def live_element (entry : PropEntry) (prop_name : String) : List Event :=
  (live_prop entry prop_name).getD []

/-- The element of a live property has its name. -/
theorem live_prop_head {entry : PropEntry} {p : String} {content : List Event}
    (h : p ∈ SUPPORTED_PROPS) (hlive : live_prop entry p = some content) :
    content.head? = some (.Start ("D:" ++ p) []) := by
  have hdate : ∀ (date : Option (List Char)) (qname : String),
      (date.map fun d => write_prop_text qname (String.ofList d)) = some content →
        content.head? = some (.Start qname []) := by
    intro date qname hsome
    obtain ⟨d, -, rfl⟩ := Option.map_eq_some_iff.mp hsome
    rfl
  unfold SUPPORTED_PROPS at h
  simp only [List.mem_cons, List.not_mem_nil, or_false] at h
  rcases h with h | h | h | h | h | h | h | h <;> rw [h] at hlive ⊢
  · exact hdate _ _ hlive
  · cases hlive; rfl
  · cases hlive; rfl
  · cases hlive; rfl
  · exact hdate _ _ hlive
  · cases hlive; rfl
  · cases hlive; rfl
  · cases hlive; rfl

/-- Elements of live properties that are equal are of one property. -/
theorem live_prop_name {a b : PropEntry} {p q : String} {content : List Event}
    (hp : p ∈ SUPPORTED_PROPS) (hq : q ∈ SUPPORTED_PROPS) (ha : live_prop a p = some content)
    (hb : live_prop b q = some content) : p = q := by
  have hhead := live_prop_head hp ha
  rw [live_prop_head hq hb] at hhead
  simp only [Option.some.injEq, Event.Start.injEq, and_true] at hhead
  have hlist := congrArg String.toList hhead
  simp only [String.toList_append, List.append_cancel_left_eq] at hlist
  exact (String.toList_inj.mp hlist).symm

/-- The live properties an answer about a file or a collection gives values of. -/
def applicable (prop_request : PropRequest) (is_dir : Bool) : List String :=
  (asked prop_request).1.filter fun p => is_applicable p is_dir

/-- The elements of the dead properties of an entry. -/
def dead_elements (entry : PropEntry) : List (List Event) :=
  match entry.dead_props with
  | some dead => dead.entries.map dead_prop
  | none => []

/-- An entry with no dead property, whether its store has an entry for it or not. -/
def PropEntry.NoDead (entry : PropEntry) : Prop :=
  ∀ dead, entry.dead_props = some dead → dead.entries = []

/-- No element is written for dead properties exactly if there is none. -/
theorem dead_elements_nil {entry : PropEntry} : dead_elements entry = [] ↔ entry.NoDead := by
  unfold dead_elements PropEntry.NoDead
  cases entry.dead_props with
  | none => simp
  | some dead => simp

/-- The propstat of some live properties, each of which can be written. -/
def live_propstat (entry : PropEntry) (props : List String) : PropStat where
  props := props.map (live_element entry)
  status := OK_LINE

/-- A live property that can be written is written as its element. -/
theorem live_element_eq {entry : PropEntry} {p : String} (h : (live_prop entry p).isSome = true) :
    live_prop entry p = some (live_element entry p) := by
  obtain ⟨content, hcontent⟩ := Option.isSome_iff_exists.mp h
  unfold live_element
  rw [hcontent, Option.getD_some]

/-- A propstat of live properties is written when each of its elements is. -/
theorem write_propstat_200_cases (entry : PropEntry) (props : List String) :
    ((∀ p ∈ props, (live_prop entry p).isSome = true) ∧
        write_propstat_200 entry props = some (live_propstat entry props)) ∨
      (¬ (∀ p ∈ props, (live_prop entry p).isSome = true) ∧
        write_propstat_200 entry props = none) := by
  unfold write_propstat_200
  rw [← Str.mapM_isSome_iff]
  cases hm : props.mapM (live_prop entry) with
  | none => exact Or.inr ⟨by simp, rfl⟩
  | some elements =>
    refine Or.inl ⟨rfl, ?_⟩
    have heq : elements = props.map (live_element entry) :=
      Str.mapM_eq_map hm fun p _ content hp => by
        unfold live_element
        rw [hp, Option.getD_some]
    rw [heq]
    rfl

/-- The propstats of an answer that is not of names only: they are written when the
live properties that apply are. -/
theorem propstats_cases (entry : PropEntry) {prop_request : PropRequest}
    (h : prop_request ≠ .PropName) :
    ((∀ p ∈ applicable prop_request entry.is_dir, (live_prop entry p).isSome = true) ∧
      propstats entry prop_request = some
        ((if applicable prop_request entry.is_dir = [] then []
            else [live_propstat entry (applicable prop_request entry.is_dir)])
          ++ (if not_found entry prop_request = [] then []
            else [write_propstat_404 (not_found entry prop_request)])
          ++ (match entry.dead_props with
            | some dead => if dead.entries = [] then [] else [write_dead_propstat dead]
            | none => []))) ∨
    (¬ (∀ p ∈ applicable prop_request entry.is_dir, (live_prop entry p).isSome = true) ∧
      propstats entry prop_request = none) := by
  have heq : propstats entry prop_request =
      (if applicable prop_request entry.is_dir = [] then some []
        else (write_propstat_200 entry (applicable prop_request entry.is_dir)).map fun ps => [ps]).bind
      fun live => some (live
        ++ (if not_found entry prop_request = [] then []
          else [write_propstat_404 (not_found entry prop_request)])
        ++ (match entry.dead_props with
          | some dead => if dead.entries = [] then [] else [write_dead_propstat dead]
          | none => [])) := by
    cases prop_request with
    | PropName => exact absurd rfl h
    | AllProp => rfl
    | Named names => rfl
  rw [heq]
  by_cases hnil : applicable prop_request entry.is_dir = []
  · rw [if_pos hnil, if_pos hnil, hnil]
    exact Or.inl ⟨List.forall_mem_nil _, rfl⟩
  · rw [if_neg hnil, if_neg hnil]
    rcases write_propstat_200_cases entry (applicable prop_request entry.is_dir) with
      ⟨hall, hwritten⟩ | ⟨hnot, hwritten⟩
    · rw [hwritten]
      exact Or.inl ⟨hall, rfl⟩
    · rw [hwritten]
      exact Or.inr ⟨hnot, rfl⟩

section Written

variable {prop_request : PropRequest} {entry : PropEntry} {response : Response}
variable (h : write_response prop_request entry = some response)

include h

/-- An answer has the href of its entry. -/
theorem write_response_href : response.href = entry.href := by
  obtain ⟨l, -, rfl⟩ := Option.map_eq_some_iff.mp h
  rfl

/-- An answer has the propstats of its entry. -/
theorem write_response_propstats : propstats entry prop_request = some response.propstats := by
  obtain ⟨l, hl, rfl⟩ := Option.map_eq_some_iff.mp h
  exact hl

/-- The live properties of an answer could be written. -/
theorem live_written (hname : prop_request ≠ .PropName) {p : String}
    (hp : p ∈ applicable prop_request entry.is_dir) :
    live_prop entry p = some (live_element entry p) := by
  rcases propstats_cases entry hname with ⟨hall, -⟩ | ⟨-, hnone⟩
  · exact live_element_eq (hall p hp)
  · rw [write_response_propstats h] at hnone
    cases hnone

/-- The propstats of an answer that is not of names only. -/
theorem propstats_eq (hname : prop_request ≠ .PropName) : response.propstats
      = (if applicable prop_request entry.is_dir = [] then []
          else [live_propstat entry (applicable prop_request entry.is_dir)])
        ++ (if not_found entry prop_request = [] then []
          else [write_propstat_404 (not_found entry prop_request)])
        ++ (match entry.dead_props with
          | some dead => if dead.entries = [] then [] else [write_dead_propstat dead]
          | none => []) := by
  rcases propstats_cases entry hname with ⟨-, hsome⟩ | ⟨-, hnone⟩
  · rw [write_response_propstats h] at hsome
    exact Option.some.inj hsome
  · rw [write_response_propstats h] at hnone
    cases hnone

/-- **An answer, part by part**: the live properties that apply, the names that are
not found, and the dead properties. -/
theorem reported_eq (hname : prop_request ≠ .PropName) : response.reported
      = (applicable prop_request entry.is_dir).map (fun p => (live_element entry p, OK_LINE))
        ++ (write_propstat_404 (not_found entry prop_request)).props.map (fun p => (p, NOT_FOUND_LINE))
        ++ (dead_elements entry).map (fun p => (p, OK_LINE)) := by
  unfold Response.reported
  rw [propstats_eq h hname, List.flatMap_append, List.flatMap_append]
  congr 1
  · congr 1
    · split
      · rename_i hnil
        rw [hnil]
        rfl
      · simp [live_propstat]
    · split
      · rename_i hnil
        rw [hnil]
        rfl
      · simp [write_propstat_404]
  · unfold dead_elements
    cases entry.dead_props with
    | none => rfl
    | some dead =>
      dsimp only
      split
      · rename_i hnil
        rw [hnil]
        rfl
      · simp [write_dead_propstat]

/-- As many values are reported as live properties apply and dead ones are recorded. -/
theorem count_reported (hname : prop_request ≠ .PropName) :
    response.reported.countP (fun e => e.2 = OK_LINE)
      = (applicable prop_request entry.is_dir).length + (dead_elements entry).length := by
  have hok : ∀ l : List (List Event),
      (l.map (fun p => (p, OK_LINE))).countP (fun e => e.2 = OK_LINE) = l.length := by
    intro l
    rw [List.countP_map, List.countP_eq_length.mpr]
    intro p _
    simp
  have hlost : ∀ l : List (List Event),
      (l.map (fun p => (p, NOT_FOUND_LINE))).countP (fun e => e.2 = OK_LINE) = 0 := by
    intro l
    rw [List.countP_map, List.countP_eq_zero]
    intro p _
    simp [OK_LINE, NOT_FOUND_LINE]
  have hlive : (applicable prop_request entry.is_dir).map (fun p => (live_element entry p, OK_LINE))
      = ((applicable prop_request entry.is_dir).map (live_element entry)).map
        (fun p => (p, OK_LINE)) := by
    rw [List.map_map]
    rfl
  rw [reported_eq h hname, List.countP_append, List.countP_append, hlive, hok, hlost, hok,
    List.length_map, Nat.add_zero]

end Written

/-- Without dead properties every name that is not found is answered so. -/
theorem not_found_eq {entry : PropEntry} (h : entry.NoDead) (prop_request : PropRequest) :
    not_found entry prop_request
      = (asked prop_request).1.filter (fun p => !is_applicable p entry.is_dir)
        ++ (asked prop_request).2 := by
  unfold not_found
  cases hdead : entry.dead_props with
  | none => rfl
  | some dead =>
    have hnil := h dead hdead
    have hlookup : ∀ n, dead.lookup n = none := by
      intro n
      unfold AList.lookup
      rw [hnil]
      rfl
    simp [hlookup]

/-- Two entries whose live properties read the same, but for the two properties that
the code paths may tell apart. -/
structure Twins (a b : PropEntry) : Prop where
  is_dir : a.is_dir = b.is_dir
  live : ∀ p, p ≠ "creationdate" → p ≠ "lockdiscovery" → live_prop a p = live_prop b p

/-- Entries are twins when they agree in what their common live properties are written from. -/
theorem Twins.of_fields {a b : PropEntry} (hdir : a.is_dir = b.is_dir) (hsize : a.size = b.size)
    (htype : a.content_type = b.content_type)
    (hsecs : secs_since_epoch a.modified = secs_since_epoch b.modified)
    (hdate : format_rfc1123 a.modified = format_rfc1123 b.modified) : Twins a b where
  is_dir := hdir
  live := by
    intro p hcreated hlocks
    have htag : etag a = etag b := by
      unfold etag
      rw [hsecs, hsize]
    unfold live_prop
    rw [if_neg hcreated, if_neg hcreated, if_neg hlocks, if_neg hlocks, hsize, htype, htag, hdate,
      hdir]

/-- The answers read the same. -/
def SameReport (a b : Response) : Prop := List.Perm a.reported b.reported

section Same

variable {a b : PropEntry} {prop_request : PropRequest} {ra rb : Response}
variable (hra : write_response prop_request a = some ra)
variable (hrb : write_response prop_request b = some rb)

include hra hrb

/-- A live property that is asked for is read off the answer. -/
theorem live_of_same {p : String} (hname : prop_request ≠ .PropName) (hdead : a.NoDead)
    (h : SameReport ra rb) (hp : p ∈ applicable prop_request b.is_dir) :
    live_prop a p = live_prop b p := by
  have hlive : ∀ q ∈ applicable prop_request a.is_dir, q ∈ SUPPORTED_PROPS := by
    intro q hq
    exact (mem_asked.mp (List.mem_of_mem_filter hq)).1
  have hpl : p ∈ SUPPORTED_PROPS := (mem_asked.mp (List.mem_of_mem_filter hp)).1
  have hwritten := live_written hrb hname hp
  have hmem : (live_element b p, OK_LINE) ∈ rb.reported := by
    rw [reported_eq hrb hname, List.append_assoc]
    apply List.mem_append_left
    exact List.mem_map.mpr ⟨p, hp, rfl⟩
  have hmem' := h.mem_iff.mpr hmem
  rw [reported_eq hra hname, dead_elements_nil.mpr hdead, List.map_nil, List.append_nil,
    List.mem_append] at hmem'
  rcases hmem' with hfound | hlost
  · obtain ⟨q, hq, heq⟩ := List.mem_map.mp hfound
    rw [Prod.mk.injEq] at heq
    have hwritten' := live_written hra hname hq
    rw [heq.1] at hwritten'
    have hqp := live_prop_name (hlive q hq) hpl hwritten' hwritten
    rw [hqp] at hwritten'
    rw [hwritten, hwritten']
  · obtain ⟨x, -, heq⟩ := List.mem_map.mp hlost
    rw [Prod.mk.injEq] at heq
    exact absurd heq.2 (by decide)

/-- **When two answers read the same.** The first entry has no dead property; then the
second has none either, and the two properties that may differ do not where they are
asked for. -/
theorem same_report_iff (htwins : Twins a b) (hdead : a.NoDead) :
    SameReport ra rb ↔
      prop_request = .PropName ∨
        (b.NoDead ∧ ∀ p ∈ ["creationdate", "lockdiscovery"], Asks prop_request p →
          live_prop a p = live_prop b p) := by
  by_cases hname : prop_request = .PropName
  · subst hname
    constructor
    · intro _
      exact Or.inl rfl
    · intro _
      have hsame : ra.propstats = rb.propstats := by
        have ha := write_response_propstats hra
        rw [show propstats a .PropName = propstats b .PropName from rfl,
          write_response_propstats hrb] at ha
        exact (Option.some.inj ha).symm
      unfold SameReport Response.reported
      rw [hsame]
  · constructor
    · intro h
      apply Or.inr
      constructor
      · -- the same number of properties with a value
        have hcount := h.countP_eq (fun e => e.2 = OK_LINE)
        rw [count_reported hra hname, count_reported hrb hname, dead_elements_nil.mpr hdead,
          htwins.is_dir, List.length_nil] at hcount
        rw [← dead_elements_nil]
        apply List.eq_nil_of_length_eq_zero
        omega
      · intro p hp hasks
        apply live_of_same hra hrb hname hdead h
        simp only [List.mem_cons, List.not_mem_nil, or_false] at hp
        apply List.mem_filter.mpr
        rcases hp with hp | hp <;> subst hp
        · exact ⟨mem_asked.mpr ⟨by decide, hasks⟩, by simp [is_applicable]⟩
        · exact ⟨mem_asked.mpr ⟨by decide, hasks⟩, by simp [is_applicable]⟩
    · rintro (heq | ⟨hdead', hsame⟩)
      · exact absurd heq hname
      · have hlive : ∀ p ∈ applicable prop_request b.is_dir,
            (live_element a p, OK_LINE) = (live_element b p, OK_LINE) := by
          intro p hp
          have hasks : Asks prop_request p := (mem_asked.mp (List.mem_of_mem_filter hp)).2
          unfold live_element
          by_cases hspecial : p ∈ ["creationdate", "lockdiscovery"]
          · rw [hsame p hspecial hasks]
          · simp only [List.mem_cons, List.not_mem_nil, or_false, not_or] at hspecial
            rw [htwins.live p hspecial.1 hspecial.2]
        unfold SameReport
        rw [reported_eq hra hname, reported_eq hrb hname, dead_elements_nil.mpr hdead,
          dead_elements_nil.mpr hdead', not_found_eq hdead, not_found_eq hdead', htwins.is_dir,
          List.map_congr_left hlive]

end Same

/-! ## When an answer is written -/

/-- Both dates of an entry can be written. -/
structure PropEntry.Dated (entry : PropEntry) : Prop where
  modified : (format_rfc1123 entry.modified).isSome = true
  created : ∀ st, entry.created = some st → (format_rfc3339 st).isSome = true

/-- The dates of an entry that are asked for can be written. -/
structure Formats (prop_request : PropRequest) (entry : PropEntry) : Prop where
  modified : Asks prop_request "getlastmodified" → (format_rfc1123 entry.modified).isSome = true
  created : Asks prop_request "creationdate" →
    ∀ st, entry.created = some st → (format_rfc3339 st).isSome = true

/-- Dates within the range of the format can be written whatever is asked. -/
theorem PropEntry.Dated.formats {entry : PropEntry} (h : entry.Dated) (prop_request : PropRequest) :
    Formats prop_request entry := ⟨fun _ => h.modified, fun _ => h.created⟩

/-- The last modification is written when its date can be. -/
theorem live_modified (entry : PropEntry) :
    (live_prop entry "getlastmodified").isSome = (format_rfc1123 entry.modified).isSome :=
  Option.isSome_map

/-- So is the creation, where it is known. -/
theorem live_created (entry : PropEntry) : (live_prop entry "creationdate").isSome = true ↔
    ∀ st, entry.created = some st → (format_rfc3339 st).isSome = true := by
  have hlive : (live_prop entry "creationdate").isSome
      = ((entry.created.map format_rfc3339).getD (some [])).isSome := Option.isSome_map
  rw [hlive]
  cases entry.created with
  | none => simp
  | some st => simp

/-- Every other live property is always written. -/
theorem live_other (entry : PropEntry) {p : String} (hmodified : p ≠ "getlastmodified")
    (hcreated : p ≠ "creationdate") : (live_prop entry p).isSome = true := by
  unfold live_prop
  rw [if_neg hcreated, if_neg hmodified]
  split_ifs <;> rfl

/-- **When an answer is written**: when the dates that are asked for can be. -/
theorem write_response_isSome (prop_request : PropRequest) (entry : PropEntry) :
    (write_response prop_request entry).isSome = true ↔ Formats prop_request entry := by
  have hmap : (write_response prop_request entry).isSome = (propstats entry prop_request).isSome :=
    Option.isSome_map
  rw [hmap]
  by_cases hname : prop_request = .PropName
  · subst hname
    exact iff_of_true rfl ⟨False.elim, False.elim⟩
  · have hdates : (∀ p ∈ applicable prop_request entry.is_dir, (live_prop entry p).isSome = true) ↔
        Formats prop_request entry := by
      have happlies : ∀ p, p = "getlastmodified" ∨ p = "creationdate" → Asks prop_request p →
          p ∈ applicable prop_request entry.is_dir := by
        rintro p (rfl | rfl) hasks
        · exact List.mem_filter.mpr ⟨mem_asked.mpr ⟨by decide, hasks⟩, by simp [is_applicable]⟩
        · exact List.mem_filter.mpr ⟨mem_asked.mpr ⟨by decide, hasks⟩, by simp [is_applicable]⟩
      constructor
      · intro hall
        constructor
        · intro hasks
          rw [← live_modified]
          exact hall _ (happlies _ (Or.inl rfl) hasks)
        · intro hasks
          exact (live_created entry).mp (hall _ (happlies _ (Or.inr rfl) hasks))
      · intro hformats p hp
        have hasks : Asks prop_request p := (mem_asked.mp (List.mem_of_mem_filter hp)).2
        by_cases hmodified : p = "getlastmodified"
        · subst hmodified
          rw [live_modified]
          exact hformats.modified hasks
        · by_cases hcreated : p = "creationdate"
          · subst hcreated
            exact (live_created entry).mpr (hformats.created hasks)
          · exact live_other entry hmodified hcreated
    rw [← hdates]
    rcases propstats_cases entry hname with ⟨hall, hsome⟩ | ⟨hnot, hnone⟩
    · rw [hsome]
      exact iff_of_true rfl hall
    · rw [hnone]
      exact iff_of_false Bool.false_ne_true hnot

/-- The times of an entry are within what a `SystemTime` holds, whose seconds are an
`i64`. -/
structure PropEntry.Held (entry : PropEntry) : Prop where
  modified : entry.modified < 2 ^ 63 * NANOS
  created : ∀ st, entry.created = some st → st < 2 ^ 63 * NANOS

/-- A time that a `SystemTime` holds has seconds that an `i64` does. -/
theorem secs_held {st : ℤ} {as_secs : ℕ} (h : st < 2 ^ 63 * NANOS)
    (hst : secs_since_epoch st = some as_secs) : as_secs < 2 ^ 63 := by
  unfold secs_since_epoch NANOS at *
  split at hst
  · have hsecs := Option.some.inj hst
    omega
  · cases hst

/-- The dates a request asks for are on days that the formats count: for the date with
the weekday as `Counted` says, for the other one from the first day on. -/
structure Datable (prop_request : PropRequest) (entry : PropEntry) : Prop where
  modified : Asks prop_request "getlastmodified" →
    ∀ as_secs, secs_since_epoch entry.modified = some as_secs → Counted as_secs
  created : Asks prop_request "creationdate" → ∀ st, entry.created = some st →
    ∀ as_secs, secs_since_epoch st = some as_secs → -719468 ≤ day_count as_secs

/-- The formats return on the days they count. -/
theorem formats_iff {prop_request : PropRequest} {entry : PropEntry} (hheld : entry.Held) :
    Formats prop_request entry ↔ Datable prop_request entry := by
  have hmodified : (format_rfc1123 entry.modified).isSome = true ↔
      ∀ as_secs, secs_since_epoch entry.modified = some as_secs → Counted as_secs := by
    cases hst : secs_since_epoch entry.modified with
    | none => simp [(format_before hst).2.1]
    | some as_secs => simp [format_rfc1123_isSome hst (secs_held hheld.modified hst)]
  have hcreated : ∀ st, entry.created = some st → ((format_rfc3339 st).isSome = true ↔
      ∀ as_secs, secs_since_epoch st = some as_secs → -719468 ≤ day_count as_secs) := by
    intro st hcreated
    cases hst : secs_since_epoch st with
    | none => simp [(format_before hst).2.2]
    | some as_secs => simp [format_rfc3339_isSome hst (secs_held (hheld.created st hcreated) hst)]
  constructor
  · intro h
    exact ⟨fun hasks => hmodified.mp (h.modified hasks),
      fun hasks st hst => (hcreated st hst).mp (h.created hasks st hst)⟩
  · intro h
    exact ⟨fun hasks => hmodified.mpr (h.modified hasks),
      fun hasks st hst => (hcreated st hst).mpr (h.created hasks st hst)⟩

end Rshs.Xml
