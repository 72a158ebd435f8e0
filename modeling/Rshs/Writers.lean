/-
The writers of `webdav/xml.rs`, event by event.

Each function is given the events written so far and appends its own, as the source does.
There are two ways to panic: `write_response` has an `unreachable!`, and a date may be one
that its format cannot write. The functions of `Xml`, which keep the events in groups, are
what each writer appends (`build_multistatus_eq`), and the document as a whole is read back
as one tree of the shape a multistatus has.
-/
import Rshs.Xml
import Rshs.PropBody
import Rshs.Nested

set_option autoImplicit false

namespace Rshs.Writers

open FinMap Rshs.Webdav Rshs.Time
open Rshs.Dates (format_rfc1123 format_rfc3339)
open Rshs.Xml hiding write_prop_text write_lockentry write_activelock write_propstat_200
  write_propstat_404 write_propname write_dead_propstat write_response build_multistatus

/-! ## The writers -/

/-- What the writer is given: the XML declaration, or an event of the document. -/
inductive Item
  | Decl (version encoding : String)
  | Ev (event : Event)

/-- The events written so far. -/
abbrev XmlWriter := List Item

/-- Why a writer does not come to its end. -/
inductive Panic
  | Unreachable
  | Date
deriving DecidableEq

/-- The writer is given an event. -/
def ev (writer : XmlWriter) (event : Event) : XmlWriter := writer ++ [.Ev event]

/-- A property whose value is a text. -/
def write_prop_text (writer : XmlWriter) (qname value : String) : XmlWriter :=
  let writer := ev writer (.Start qname [])
  let writer := ev writer (.Text value)
  ev writer (.End qname)

/-- A kind of lock, by the name of its scope. -/
def write_lockentry (writer : XmlWriter) (scope : String) : XmlWriter :=
  let writer := ev writer (.Start El.LOCK_ENTRY [])
  let writer := ev writer (.Start El.LOCK_SCOPE [])
  let writer :=
    if scope = "exclusive" then ev writer (.Empty El.EXCLUSIVE [])
    else ev writer (.Empty El.SHARED [])
  let writer := ev writer (.End El.LOCK_SCOPE)
  let writer := ev writer (.Start El.LOCK_TYPE [])
  let writer := ev writer (.Empty El.WRITE [])
  let writer := ev writer (.End El.LOCK_TYPE)
  ev writer (.End El.LOCK_ENTRY)

/-- A lock of `lockdiscovery`. -/
def write_activelock (writer : XmlWriter) (lock : LockInfo) : XmlWriter :=
  let writer := ev writer (.Start El.ACTIVE_LOCK [])
  let writer := ev writer (.Start El.LOCK_SCOPE [])
  let writer := match lock.scope with
    | .Exclusive => ev writer (.Empty El.EXCLUSIVE [])
    | .Shared => ev writer (.Empty El.SHARED [])
  let writer := ev writer (.End El.LOCK_SCOPE)
  let writer := ev writer (.Start El.LOCK_TYPE [])
  let writer := ev writer (.Empty El.WRITE [])
  let writer := ev writer (.End El.LOCK_TYPE)
  let writer := ev writer (.Start El.DEPTH [])
  let writer := ev writer (.Text (depth_str lock.depth))
  let writer := ev writer (.End El.DEPTH)
  let writer := match lock.owner with
    | some owner => ev (ev (ev writer (.Start El.OWNER [])) (.Text owner)) (.End El.OWNER)
    | none => writer
  let writer := match lock.timeout with
    | some d =>
      ev (ev (ev writer (.Start El.TIMEOUT [])) (.Text ("Second-" ++ toString (d / NANOS))))
        (.End El.TIMEOUT)
    | none => writer
  let writer := ev writer (.Start El.LOCK_TOKEN [])
  let writer := ev writer (.Start El.HREF [])
  let writer := ev writer (.Text lock.token)
  let writer := ev writer (.End El.HREF)
  let writer := ev writer (.End El.LOCK_TOKEN)
  ev writer (.End El.ACTIVE_LOCK)

/-- A property whose text is a date. -/
def write_date (writer : XmlWriter) (qname : String) (date : Option (List Char)) :
    Except Panic XmlWriter :=
  match date with
  | none => .error .Date
  | some date => .ok (write_prop_text writer qname (String.ofList date))

/-- One round of the loop over the live properties. -/
def write_live (entry : PropEntry) (writer : XmlWriter) (prop_name : String) :
    Except Panic XmlWriter :=
  if prop_name = "creationdate" then
    write_date writer El.CREATION_DATE ((entry.created.map format_rfc3339).getD (some []))
  else if prop_name = "getcontentlength" then
    .ok (write_prop_text writer El.GET_CONTENT_LENGTH (toString entry.size))
  else if prop_name = "getcontenttype" then
    .ok (write_prop_text writer El.GET_CONTENT_TYPE (entry.content_type.getD ""))
  else if prop_name = "getetag" then
    .ok (write_prop_text writer El.GET_ETAG (etag entry))
  else if prop_name = "getlastmodified" then
    write_date writer El.GET_LAST_MODIFIED (format_rfc1123 entry.modified)
  else if prop_name = "lockdiscovery" then
    let writer := ev writer (.Start El.LOCK_DISCOVERY [])
    let writer := match entry.active_locks with
      | some locks => locks.foldl write_activelock writer
      | none => writer
    .ok (ev writer (.End El.LOCK_DISCOVERY))
  else if prop_name = "resourcetype" then
    let writer := ev writer (.Start El.RESOURCE_TYPE [])
    let writer := if entry.is_dir then ev writer (.Empty El.COLLECTION []) else writer
    .ok (ev writer (.End El.RESOURCE_TYPE))
  else if prop_name = "supportedlock" then
    let writer := ev writer (.Start El.SUPPORTED_LOCK [])
    let writer := write_lockentry writer "exclusive"
    let writer := write_lockentry writer "shared"
    .ok (ev writer (.End El.SUPPORTED_LOCK))
  else .ok writer

/-- The start of a propstat. -/
def open_propstat (writer : XmlWriter) : XmlWriter :=
  ev (ev writer (.Start El.PROP_STAT [])) (.Start El.PROP [])

/-- The end of a propstat, with its status. -/
def close_propstat (writer : XmlWriter) (status : String) : XmlWriter :=
  let writer := ev writer (.End El.PROP)
  let writer := ev writer (.Start El.STATUS [])
  let writer := ev writer (.Text status)
  let writer := ev writer (.End El.STATUS)
  ev writer (.End El.PROP_STAT)

/-- Live properties with their values; one of them may panic. -/
def write_propstat_200 (writer : XmlWriter) (entry : PropEntry) (props : List String) :
    Except Panic XmlWriter := do
  let writer ← props.foldlM (write_live entry) (open_propstat writer)
  return close_propstat writer "HTTP/1.1 200 OK"

/-- Names without a value. -/
def write_propstat_404 (writer : XmlWriter) (props : List String) : XmlWriter :=
  let round writer prop_name :=
    let (ns, localname) := (parse_clark prop_name).getD ("", prop_name)
    ev writer (.Empty localname (if ns = "" then [] else [("xmlns", ns)]))
  close_propstat (props.foldl round (open_propstat writer)) "HTTP/1.1 404 Not Found"

/-- The names of live properties. -/
def write_propname (writer : XmlWriter) (props : List String) : XmlWriter :=
  let round writer prop_name := ev writer (.Empty ("D:" ++ prop_name) [])
  close_propstat (props.foldl round (open_propstat writer)) "HTTP/1.1 200 OK"

/-- The dead properties of an entry. -/
def write_dead_propstat (writer : XmlWriter) (props : Map String String) : XmlWriter :=
  let round writer (e : Entry String String) :=
    let (ns, localname) := (parse_clark e.1).getD ("", e.1)
    let writer := ev writer (.Start localname (if ns = "" then [] else [("xmlns", ns)]))
    let writer := ev writer (.Text e.2)
    ev writer (.End localname)
  close_propstat (props.entries.foldl round (open_propstat writer)) "HTTP/1.1 200 OK"

/-- The end of a response: what is not found, and the dead properties. -/
def write_others (writer : XmlWriter) (entry : PropEntry) (found missing : List String) :
    XmlWriter :=
  let not_found := found.filter (fun p => !is_applicable p entry.is_dir) ++ missing
  let not_found := match entry.dead_props with
    | some dead => not_found.filter fun n => (dead.lookup n).isNone
    | none => not_found
  let writer := if not_found = [] then writer else write_propstat_404 writer not_found
  let writer := match entry.dead_props with
    | some dead => if dead.entries = [] then writer else write_dead_propstat writer dead
    | none => writer
  ev writer (.End El.RESPONSE)

/-- The part of a response behind its early return. -/
def write_found (writer : XmlWriter) (entry : PropEntry) (found missing : List String) :
    Except Panic XmlWriter :=
  let applicable := found.filter fun p => is_applicable p entry.is_dir
  let live := if applicable = [] then .ok writer else write_propstat_200 writer entry applicable
  live.map fun writer => write_others writer entry found missing

/-- The names a request asks for. -/
def requested : PropRequest → Except Panic (List String × List String)
  | .AllProp => .ok (SUPPORTED_PROPS, [])
  | .Named names => .ok (sort_names names)
  | .PropName => .error .Unreachable

/-- A response: for a `propname` request it returns early, before the `unreachable!` of
`requested`. -/
def write_response (prop_request : PropRequest) (writer : XmlWriter) (entry : PropEntry) :
    Except Panic XmlWriter := do
  let writer := ev writer (.Start El.RESPONSE [])
  let writer := ev writer (.Start El.HREF [])
  let writer := ev writer (.Text (String.ofList entry.href))
  let writer := ev writer (.End El.HREF)
  if prop_request matches .PropName then
    .ok (ev (write_propname writer SUPPORTED_PROPS) (.End El.RESPONSE))
  else
    (requested prop_request).bind fun names => write_found writer entry names.1 names.2

/-- The declaration, and a response for each entry inside one `multistatus`. -/
def build_multistatus (entries : List PropEntry) (prop_request : PropRequest) :
    Except Panic XmlWriter := do
  let writer : XmlWriter := [.Decl "1.0" "utf-8"]
  let writer := ev writer (.Start "D:multistatus" [("xmlns:D", "DAV:")])
  let writer ← entries.foldlM (write_response prop_request) writer
  return ev writer (.End "D:multistatus")

/-! ## What each writer appends -/

/-- Some events, as the writer is given them. -/
def given (events : List Event) : List Item := events.map .Ev

/-- A writer is given one part after the other. -/
theorem given_append (xs ys : List Event) : given (xs ++ ys) = given xs ++ given ys :=
  List.map_append

/-- What a writer comes to that appends some events, if they can all be written. -/
def appended (writer : XmlWriter) : Option (List Event) → Except Panic XmlWriter
  | some events => .ok (writer ++ given events)
  | none => .error .Date

/-- Nothing is appended by a writer with no event to write. -/
theorem appended_nil (writer : XmlWriter) : appended writer (some []) = .ok writer :=
  congrArg Except.ok (List.append_nil writer)

/-- A loop whose rounds append appends what they append, up to the first that panics. -/
theorem foldlM_appended {α : Type} {round : XmlWriter → α → Except Panic XmlWriter}
    {events : α → Option (List Event)} (h : ∀ writer a, round writer a = appended writer (events a))
    (writer : XmlWriter) (l : List α) :
    l.foldlM round writer = appended writer ((l.mapM events).map List.flatten) := by
  induction l generalizing writer with
  | nil => exact (appended_nil writer).symm
  | cons a l ih =>
    rw [List.foldlM_cons, List.mapM_cons, h]
    cases events a with
    | none => rfl
    | some es =>
      have hrest := ih (writer ++ given es)
      change l.foldlM round (writer ++ given es) = _
      rw [hrest]
      cases l.mapM events with
      | none => rfl
      | some rest =>
        change Except.ok (writer ++ given es ++ given rest.flatten) = Except.ok _
        rw [List.append_assoc, ← given_append]
        rfl

/-- One event is appended. -/
theorem ev_eq (writer : XmlWriter) (event : Event) : ev writer event = writer ++ given [event] := rfl

/-- A loop whose rounds append appends what they append. -/
theorem foldl_given {α : Type} {round : XmlWriter → α → XmlWriter} {events : α → List Event}
    (h : ∀ writer a, round writer a = writer ++ given (events a)) (writer : XmlWriter) (l : List α) :
    l.foldl round writer = writer ++ given (l.flatMap events) := by
  induction l generalizing writer with
  | nil => exact (List.append_nil writer).symm
  | cons a l ih =>
    rw [List.foldl_cons, ih, h, List.flatMap_cons, given_append, List.append_assoc]

/-- The writer of a text appends the element of `Xml`. -/
theorem write_prop_text_eq (writer : XmlWriter) (qname value : String) :
    write_prop_text writer qname value = writer ++ given (Xml.write_prop_text qname value) := by
  unfold write_prop_text Xml.write_prop_text
  simp only [ev_eq, List.append_assoc]
  rfl

/-- So does the writer of a kind of lock, for the two scopes it is called with. -/
theorem write_lockentry_eq (writer : XmlWriter) :
    write_lockentry writer "exclusive" = writer ++ given (Xml.write_lockentry .Exclusive) ∧
    write_lockentry writer "shared" = writer ++ given (Xml.write_lockentry .Shared) := by
  unfold write_lockentry
  dsimp only
  rw [if_pos rfl, if_neg (by decide)]
  simp only [ev_eq, List.append_assoc]
  exact ⟨rfl, rfl⟩

/-- So does the writer of a lock, with and without owner and timeout. -/
theorem write_activelock_eq (writer : XmlWriter) (lock : LockInfo) :
    write_activelock writer lock = writer ++ given (Xml.write_activelock lock) := by
  obtain ⟨scope, token, owner, created, timeout, depth⟩ := lock
  cases scope <;> cases owner <;> cases timeout <;>
    (unfold write_activelock; simp only [ev_eq, List.append_assoc]; rfl)

/-- An element is ended behind its content. -/
theorem element_eq {writer inside : XmlWriter} {name : String} {content : List Event}
    (h : inside = ev writer (.Start name []) ++ given content) :
    ev inside (.End name) = writer ++ given (element name content) := by
  unfold element
  rw [h, ev_eq, ev_eq, List.append_assoc, List.append_assoc, ← given_append, ← given_append]
  rfl

/-- A date that cannot be written ends the writer. -/
theorem write_date_eq (writer : XmlWriter) (qname : String) (date : Option (List Char)) :
    write_date writer qname date
      = appended writer (date.map fun d => Xml.write_prop_text qname (String.ofList d)) := by
  cases date with
  | none => rfl
  | some d => exact congrArg Except.ok (write_prop_text_eq _ _ _)

/-- A round of the loop appends the element of the live property, if there is one to write. -/
theorem write_live_eq (entry : PropEntry) (writer : XmlWriter) (prop_name : String) :
    write_live entry writer prop_name = appended writer (live_prop entry prop_name) := by
  unfold write_live live_prop
  dsimp only
  split
  · exact write_date_eq _ _ _
  split
  · exact congrArg Except.ok (write_prop_text_eq _ _ _)
  split
  · exact congrArg Except.ok (write_prop_text_eq _ _ _)
  split
  · exact congrArg Except.ok (write_prop_text_eq _ _ _)
  split
  · exact write_date_eq _ _ _
  split
  · apply congrArg Except.ok
    apply element_eq
    cases entry.active_locks with
    | none => exact (List.append_nil _).symm
    | some locks => exact foldl_given write_activelock_eq _ _
  split
  · apply congrArg Except.ok
    apply element_eq
    cases entry.is_dir with
    | false => exact (List.append_nil _).symm
    | true => rfl
  split
  · apply congrArg Except.ok
    apply element_eq
    rw [(write_lockentry_eq _).2, (write_lockentry_eq _).1, given_append, List.append_assoc]
  · exact (appended_nil _).symm

/-- A propstat around the elements of its properties. -/
theorem propstat_eq (writer : XmlWriter) (ps : PropStat) :
    close_propstat (open_propstat writer ++ given ps.props.flatten) ps.status
      = writer ++ given ps.events := by
  unfold close_propstat open_propstat PropStat.events element
  simp only [ev_eq, List.append_assoc, ← given_append]
  simp only [List.cons_append, List.nil_append, List.append_assoc]

/-- A propstat written by a loop over its properties. -/
theorem loop_propstat {α : Type} {round : XmlWriter → α → XmlWriter} {prop : α → List Event}
    (h : ∀ writer a, round writer a = writer ++ given (prop a)) (writer : XmlWriter) (l : List α)
    (status : String) :
    close_propstat (l.foldl round (open_propstat writer)) status
      = writer ++ given (PropStat.events ⟨l.map prop, status⟩) := by
  rw [foldl_given h, ← propstat_eq, List.flatMap_def]

/-- The propstat of live properties is appended, unless a date of it panics. -/
theorem write_propstat_200_eq (writer : XmlWriter) (entry : PropEntry) (props : List String) :
    write_propstat_200 writer entry props
      = appended writer ((Xml.write_propstat_200 entry props).map PropStat.events) := by
  unfold write_propstat_200 Xml.write_propstat_200
  rw [foldlM_appended (write_live_eq entry)]
  cases props.mapM (live_prop entry) with
  | none => rfl
  | some elements => exact congrArg Except.ok (propstat_eq writer ⟨elements, OK_LINE⟩)

/-- The propstat of the names that are not found is appended. -/
theorem write_propstat_404_eq (writer : XmlWriter) (props : List String) :
    write_propstat_404 writer props = writer ++ given (Xml.write_propstat_404 props).events := by
  apply loop_propstat
  intro writer name
  rfl

/-- The propstat of names is appended. -/
theorem write_propname_eq (writer : XmlWriter) (props : List String) :
    write_propname writer props = writer ++ given (Xml.write_propname props).events := by
  apply loop_propstat
  intro writer name
  rfl

/-- The propstat of dead properties is appended. -/
theorem write_dead_propstat_eq (writer : XmlWriter) (props : Map String String) :
    write_dead_propstat writer props
      = writer ++ given (Xml.write_dead_propstat props).events := by
  apply loop_propstat
  intro writer e
  simp only [ev_eq, List.append_assoc]
  rfl

/-- An optional propstat. -/
theorem optional_eq {p : Prop} [Decidable p] {writer writer' : XmlWriter} {ps : PropStat}
    (h : writer' = writer ++ given ps.events) :
    (if p then writer else writer')
      = writer ++ given ((if p then [] else [ps]).flatMap PropStat.events) := by
  split
  · exact (List.append_nil writer).symm
  · rw [h, List.flatMap_singleton]

/-- The end of a response is that of its propstats, after the live ones. -/
theorem write_others_eq (writer : XmlWriter) (entry : PropEntry) (prop_request : PropRequest) :
    write_others writer entry (asked prop_request).1 (asked prop_request).2
      = writer ++ given (((if not_found entry prop_request = [] then []
          else [Xml.write_propstat_404 (not_found entry prop_request)])
        ++ (match entry.dead_props with
          | some dead => if dead.entries = [] then [] else [Xml.write_dead_propstat dead]
          | none => [])).flatMap PropStat.events ++ [.End El.RESPONSE]) := by
  rw [List.flatMap_append, given_append, given_append, ← List.append_assoc, ← List.append_assoc,
    ← optional_eq (write_propstat_404_eq _ _)]
  unfold write_others not_found
  cases entry.dead_props with
  | none =>
    rw [List.flatMap_nil, ← ev_eq]
    exact congrArg (fun w => ev w _) (List.append_nil _).symm
  | some dead =>
    dsimp only
    rw [← optional_eq (write_dead_propstat_eq _ _), ← ev_eq]

/-- The part behind the early return is written when its live properties are. -/
theorem write_found_eq (writer : XmlWriter) (entry : PropEntry) {prop_request : PropRequest}
    (h : prop_request ≠ .PropName) :
    write_found writer entry (asked prop_request).1 (asked prop_request).2
      = appended writer ((propstats entry prop_request).map fun l =>
        l.flatMap PropStat.events ++ [.End El.RESPONSE]) := by
  have hparts : write_found writer entry (asked prop_request).1 (asked prop_request).2
      = (if applicable prop_request entry.is_dir = [] then Except.ok writer
        else write_propstat_200 writer entry (applicable prop_request entry.is_dir)).map
        fun writer => write_others writer entry (asked prop_request).1 (asked prop_request).2 := rfl
  rw [hparts]
  rcases propstats_cases entry h with ⟨hall, hsome⟩ | ⟨hnot, hnone⟩
  · rw [hsome, Option.map_some]
    by_cases hnil : applicable prop_request entry.is_dir = []
    · rw [if_pos hnil, if_pos hnil, List.nil_append]
      exact congrArg Except.ok (write_others_eq _ _ _)
    · have hcases := write_propstat_200_cases entry (applicable prop_request entry.is_dir)
      have hwritten := hcases.resolve_right fun hno => hno.1 hall
      rw [if_neg hnil, if_neg hnil, write_propstat_200_eq, hwritten.2, List.append_assoc,
        List.flatMap_append, List.flatMap_singleton, List.append_assoc]
      change Except.ok (write_others _ _ _ _) = Except.ok (writer ++ given _)
      rw [write_others_eq, given_append (live_propstat _ _).events]
      exact congrArg Except.ok (List.append_assoc _ _ _)
  · have hnil : ¬ applicable prop_request entry.is_dir = [] := by
      intro hnil
      rw [hnil] at hnot
      exact hnot (List.forall_mem_nil _)
    have hpanic := (write_propstat_200_cases entry (applicable prop_request entry.is_dir)).resolve_left
      fun hyes => hnot hyes.1
    rw [hnone, if_neg hnil, write_propstat_200_eq, hpanic.2]
    rfl

/-- **A response is written as a whole**, or a date in it panics; its `unreachable!` is
not reached. -/
theorem write_response_eq (prop_request : PropRequest) (writer : XmlWriter) (entry : PropEntry) :
    write_response prop_request writer entry
      = appended writer ((Xml.write_response prop_request entry).map Response.events) := by
  have hhead : ∀ inside : List Event,
      ev (ev (ev (ev writer (.Start El.RESPONSE [])) (.Start El.HREF []))
          (.Text (String.ofList entry.href))) (.End El.HREF) ++ given (inside ++ [.End El.RESPONSE])
        = writer ++ given (element El.RESPONSE
          (element El.HREF [.Text (String.ofList entry.href)] ++ inside)) := by
    intro inside
    unfold element
    simp only [ev_eq, List.append_assoc, ← given_append]
    rfl
  have hfound : prop_request ≠ .PropName →
      write_found (ev (ev (ev (ev writer (.Start El.RESPONSE [])) (.Start El.HREF []))
          (.Text (String.ofList entry.href))) (.End El.HREF)) entry
          (asked prop_request).1 (asked prop_request).2
        = appended writer ((Xml.write_response prop_request entry).map Response.events) := by
    intro hname
    rw [write_found_eq _ entry hname]
    unfold Xml.write_response
    cases propstats entry prop_request with
    | none => rfl
    | some l => exact congrArg Except.ok (hhead _)
  cases prop_request with
  | PropName =>
    change Except.ok (ev (write_propname _ SUPPORTED_PROPS) _) = Except.ok (writer ++ given _)
    rw [write_propname_eq, ev_eq, List.append_assoc, ← given_append, hhead]
    unfold Response.events
    rw [List.flatMap_singleton]
  | AllProp => exact hfound nofun
  | Named names => exact hfound nofun

/-- **The document the writers write** is the grouped one, behind its declaration. -/
theorem build_multistatus_eq (entries : List PropEntry) (prop_request : PropRequest) :
    build_multistatus entries prop_request
      = appended [.Decl "1.0" "utf-8"] (Xml.build_multistatus entries prop_request) := by
  have hmap : (entries.mapM fun e => (Xml.write_response prop_request e).map Response.events)
      = (entries.mapM (Xml.write_response prop_request)).map (List.map Response.events) := by
    induction entries with
    | nil => rfl
    | cons e entries ih =>
      rw [List.mapM_cons, List.mapM_cons, ih]
      cases Xml.write_response prop_request e with
      | none => rfl
      | some r =>
        cases entries.mapM (Xml.write_response prop_request) <;> rfl
  unfold build_multistatus Xml.build_multistatus
  dsimp only
  rw [foldlM_appended (write_response_eq prop_request), hmap]
  cases entries.mapM (Xml.write_response prop_request) with
  | none => rfl
  | some responses =>
    change Except.ok (ev _ _) = Except.ok _
    rw [ev_eq, ev_eq, List.append_assoc, List.append_assoc, ← given_append, ← given_append,
      ← List.flatMap_def]
    rfl

/-! ## The document as a tree -/

/-- A document as a tree of elements, with what is neither start nor end as leaves. -/
abbrev Tree := Nested.Tree String (List (String × String)) Item

/-- What an event does to the nesting. An element without content is a leaf. -/
def Item.mark : Item → Nested.Mark String (List (String × String)) Item
  | .Ev (.Start name attributes) => .start name attributes
  | .Ev (.End name) => .stop name
  | item => .leaf item

/-- Some events read as some trees. -/
def Reads (events : List Event) (trees : List Tree) : Prop :=
  (given events).map Item.mark = Nested.marks trees

/-- No events are no trees. -/
theorem Reads.nil : Reads [] [] := rfl

/-- Events that follow each other read as trees that do. -/
theorem Reads.append {xs ys : List Event} {ss ts : List Tree} (hs : Reads xs ss) (ht : Reads ys ts) :
    Reads (xs ++ ys) (ss ++ ts) := by
  unfold Reads at *
  rw [given_append, List.map_append, hs, ht, Nested.marks_append]

/-- An element is a node around what its content reads as. -/
theorem Reads.around {xs : List Event} {ts : List Tree} (name : String)
    (attributes : List (String × String)) (h : Reads xs ts) :
    Reads (.Start name attributes :: (xs ++ [.End name])) [.node name attributes ts] := by
  unfold Reads at *
  rw [Nested.marks_singleton, Nested.Tree.marks, ← h, ← List.singleton_append, given_append,
    given_append, List.map_append, List.map_append]
  rfl

/-- A text is a leaf. -/
theorem Reads.text (content : String) : Reads [.Text content] [.leaf (.Ev (.Text content))] := rfl

/-- An element without content is a leaf. -/
theorem Reads.empty (name : String) (attributes : List (String × String)) :
    Reads [.Empty name attributes] [.leaf (.Ev (.Empty name attributes))] := rfl

/-- Events that read as something. -/
def Nests (events : List Event) : Prop := ∃ trees, Reads events trees

/-- Balanced parts make a balanced whole. -/
theorem Nests.append {xs ys : List Event} (hs : Nests xs) (ht : Nests ys) : Nests (xs ++ ys) := by
  obtain ⟨ss, hss⟩ := hs
  obtain ⟨ts, hts⟩ := ht
  exact ⟨ss ++ ts, hss.append hts⟩

/-- An element around balanced events is balanced. -/
theorem Nests.element {xs : List Event} (name : String) (h : Nests xs) : Nests (element name xs) := by
  obtain ⟨ts, hts⟩ := h
  exact ⟨_, hts.around name []⟩

/-- So are the parts of a loop whose rounds are. -/
theorem Nests.flatMap {α : Type} {events : α → List Event} {l : List α}
    (h : ∀ a ∈ l, Nests (events a)) : Nests (l.flatMap events) := by
  induction l with
  | nil => exact ⟨[], Reads.nil⟩
  | cons a l ih =>
    rw [List.flatMap_cons]
    apply Nests.append
    · exact h a List.mem_cons_self
    · exact ih fun b hb => h b (List.mem_cons_of_mem a hb)

/-- A text is balanced. -/
theorem Nests.text (content : String) : Nests [.Text content] := ⟨_, Reads.text content⟩

/-- An element without content is balanced. -/
theorem Nests.empty (name : String) (attributes : List (String × String)) :
    Nests [.Empty name attributes] := ⟨_, Reads.empty name attributes⟩

/-- The element of a lock is balanced. -/
theorem write_activelock_nests (lock : LockInfo) : Nests (Xml.write_activelock lock) := by
  unfold Xml.write_activelock
  apply Nests.element
  apply Nests.append
  apply Nests.append
  apply Nests.append
  apply Nests.append
  apply Nests.append
  · exact (Nests.empty _ _).element _
  · exact (Nests.empty _ _).element _
  · exact (Nests.text _).element _
  · cases lock.owner with
    | none => exact ⟨[], Reads.nil⟩
    | some owner => exact (Nests.text owner).element _
  · cases lock.timeout with
    | none => exact ⟨[], Reads.nil⟩
    | some d => exact (Nests.text _).element _
  · exact ((Nests.text _).element _).element _

/-- The element of a kind of lock is balanced. -/
theorem write_lockentry_nests (scope : LockScope) : Nests (Xml.write_lockentry scope) := by
  unfold Xml.write_lockentry
  apply Nests.element
  apply Nests.append
  · exact (Nests.empty _ _).element _
  · exact (Nests.empty _ _).element _

/-- The element of a live property is balanced. -/
theorem live_prop_nests {entry : PropEntry} {prop_name : String} {content : List Event}
    (h : live_prop entry prop_name = some content) : Nests content := by
  have htext : ∀ qname value : String, Nests (Xml.write_prop_text qname value) := by
    intro qname value
    exact (Nests.text value).element qname
  have hdate : ∀ (qname : String) (date : Option (List Char)),
      (date.map fun d => Xml.write_prop_text qname (String.ofList d)) = some content →
        Nests content := by
    intro qname date hsome
    obtain ⟨d, -, rfl⟩ := Option.map_eq_some_iff.mp hsome
    exact htext _ _
  unfold live_prop at h
  split at h
  · exact hdate _ _ h
  split at h
  · cases h
    exact htext _ _
  split at h
  · cases h
    exact htext _ _
  split at h
  · cases h
    exact htext _ _
  split at h
  · exact hdate _ _ h
  split at h
  · cases h
    apply Nests.element
    exact Nests.flatMap fun lock _ => write_activelock_nests lock
  split at h
  · cases h
    apply Nests.element
    cases entry.is_dir with
    | false => exact ⟨[], Reads.nil⟩
    | true => exact Nests.empty _ _
  split at h
  · cases h
    apply Nests.element
    exact (write_lockentry_nests _).append (write_lockentry_nests _)
  · cases h
    exact ⟨[], Reads.nil⟩

/-- The elements of a propstat each read as something. -/
theorem propstats_nest {entry : PropEntry} {prop_request : PropRequest} {r : Response}
    (hr : Xml.write_response prop_request entry = some r) {ps : PropStat} (h : ps ∈ r.propstats) :
    ∀ p ∈ ps.props, Nests p := by
  have hlive : prop_request ≠ .PropName →
      ∀ p ∈ (live_propstat entry (applicable prop_request entry.is_dir)).props, Nests p := by
    intro hname p hp
    obtain ⟨name, hin, rfl⟩ := List.mem_map.mp hp
    exact live_prop_nests (live_written hr hname hin)
  have hlost : ∀ props, ∀ p ∈ (Xml.write_propstat_404 props).props, Nests p := by
    intro props p hp
    obtain ⟨name, -, rfl⟩ := List.mem_map.mp hp
    exact Nests.empty _ _
  have hdead : ∀ dead, ∀ p ∈ (Xml.write_dead_propstat dead).props, Nests p := by
    intro dead p hp
    obtain ⟨e, -, rfl⟩ := List.mem_map.mp hp
    exact ⟨_, (Reads.text e.2).around _ _⟩
  -- `propname` writes one propstat; any other request up to three
  by_cases hname : prop_request = .PropName
  · subst hname
    cases hr
    intro p hp
    rw [List.mem_singleton.mp h] at hp
    obtain ⟨name, -, rfl⟩ := List.mem_map.mp hp
    exact Nests.empty _ _
  · rw [propstats_eq hr hname, List.mem_append, List.mem_append] at h
    rcases h with (hfound | hmissing) | hrest
    · split at hfound
      · exact absurd hfound List.not_mem_nil
      · rw [List.mem_singleton.mp hfound]
        exact hlive hname
    · split at hmissing
      · exact absurd hmissing List.not_mem_nil
      · rw [List.mem_singleton.mp hmissing]
        exact hlost _
    · cases hdead_props : entry.dead_props with
      | none =>
        rw [hdead_props] at hrest
        exact absurd hrest List.not_mem_nil
      | some dead =>
        rw [hdead_props] at hrest
        dsimp only at hrest
        split at hrest
        · exact absurd hrest List.not_mem_nil
        · rw [List.mem_singleton.mp hrest]
          exact hdead dead

/-- A propstat: one prop, then one status. -/
def IsPropStat (tree : Tree) : Prop :=
  ∃ (props : List Tree) (status : String),
    tree = .node El.PROP_STAT []
      [.node El.PROP [] props, .node El.STATUS [] [.leaf (.Ev (.Text status))]]

/-- The response of an entry: its href, then at least one propstat. -/
def IsResponse (entry : PropEntry) (tree : Tree) : Prop :=
  ∃ ps : List Tree, ps ≠ [] ∧ (∀ p ∈ ps, IsPropStat p) ∧
    tree = .node El.RESPONSE []
      (.node El.HREF [] [.leaf (.Ev (.Text (String.ofList entry.href)))] :: ps)

/-- A propstat of balanced properties reads as one tree of its shape. -/
theorem propstat_reads {ps : PropStat} (h : ∀ p ∈ ps.props, Nests p) :
    ∃ tree, IsPropStat tree ∧ Reads ps.events [tree] := by
  have hprops : Nests ps.props.flatten := by
    rw [← List.flatMap_id]
    exact Nests.flatMap h
  obtain ⟨trees, htrees⟩ := hprops
  refine ⟨_, ⟨trees, ps.status, rfl⟩, ?_⟩
  have hprop := htrees.around El.PROP []
  have hstatus := (Reads.text ps.status).around El.STATUS []
  exact (hprop.append hstatus).around El.PROP_STAT []

/-- Propstats read as trees of that shape, one each. -/
theorem propstats_read {l : List PropStat} (h : ∀ ps ∈ l, ∀ p ∈ ps.props, Nests p) :
    ∃ trees : List Tree, trees.length = l.length ∧ (∀ t ∈ trees, IsPropStat t) ∧
      Reads (l.flatMap PropStat.events) trees := by
  induction l with
  | nil => exact ⟨[], rfl, fun t ht => absurd ht List.not_mem_nil, Reads.nil⟩
  | cons ps l ih =>
    obtain ⟨tree, htree, hreads⟩ := propstat_reads (h ps List.mem_cons_self)
    obtain ⟨trees, hlen, htrees, hrest⟩ := ih fun q hq => h q (List.mem_cons_of_mem ps hq)
    refine ⟨tree :: trees, congrArg Nat.succ hlen, ?_, hreads.append hrest⟩
    intro t ht
    rcases List.mem_cons.mp ht with heq | hmem
    · rw [heq]
      exact htree
    · exact htrees t hmem

/-! ## At least one propstat -/

/-- A request that names no property is not one the parser returns. -/
def Answerable (prop_request : PropRequest) : Prop := prop_request ≠ .Named []

/-- The parser refuses a body that names nothing. -/
theorem parse_answerable {reader : List Char → List (PropBody.ReadEvent PropBody.Tag)}
    {xml : List Char} {prop_request : PropRequest}
    (h : PropBody.parse_propfind_request reader xml = .ok prop_request) :
    Answerable prop_request := by
  unfold PropBody.parse_propfind_request at h
  unfold Answerable
  intro heq
  rw [heq] at h
  split at h
  · exact absurd h (by simp)
  · split at h
    · exact absurd h (by simp)
    · split at h
      · exact absurd h (by simp)
      · rename_i hprops
        split at h
        · exact absurd h (by simp)
        · rw [Except.ok.injEq, PropRequest.Named.injEq] at h
          exact hprops h

/-- A name that is sorted is in one of the two lists. -/
theorem sort_name_ne (acc : List String × List String) (n : String) : sort_name acc n ≠ ([], []) := by
  unfold sort_name
  intro h
  split at h
  · split at h
    · rename_i hseen
      rw [h, List.contains_iff_mem] at hseen
      exact List.not_mem_nil hseen
    · exact absurd (congrArg Prod.fst h) (by simp)
  · exact absurd (congrArg Prod.snd h) (by simp)

/-- A request that the parser returns asks for something, unless it asks for names only. -/
theorem asked_ne {prop_request : PropRequest} (h : Answerable prop_request)
    (hname : prop_request ≠ .PropName) : asked prop_request ≠ ([], []) := by
  cases prop_request with
  | PropName => exact absurd rfl hname
  | AllProp => exact fun h => absurd (congrArg Prod.fst h) (List.cons_ne_nil _ _)
  | Named names =>
    rcases List.eq_nil_or_concat names with hnil | ⟨before, n, rfl⟩
    · rw [hnil] at h
      exact absurd rfl h
    · change sort_names (before.concat n) ≠ _
      rw [List.concat_eq_append, sort_names_append]
      exact sort_name_ne _ n

/-- **What is asked for is found, is not found, or hides behind a dead property.** -/
theorem propstats_ne_nil {entry : PropEntry} {prop_request : PropRequest} {r : Response}
    (hr : Xml.write_response prop_request entry = some r) (h : Answerable prop_request) :
    r.propstats ≠ [] := by
  by_cases hname : prop_request = .PropName
  · subst hname
    cases hr
    exact List.cons_ne_nil _ _
  · intro hnil
    rw [propstats_eq hr hname, List.append_eq_nil_iff, List.append_eq_nil_iff] at hnil
    obtain ⟨⟨hfound, hmissing⟩, hrest⟩ := hnil
    have hnodead : entry.NoDead := by
      intro dead hdead
      rw [hdead] at hrest
      dsimp only at hrest
      by_contra hne
      rw [if_neg hne] at hrest
      exact List.cons_ne_nil _ _ hrest
    have happlicable : applicable prop_request entry.is_dir = [] := by
      by_contra hne
      rw [if_neg hne] at hfound
      exact List.cons_ne_nil _ _ hfound
    have hnot_found : not_found entry prop_request = [] := by
      by_contra hne
      rw [if_neg hne] at hmissing
      exact List.cons_ne_nil _ _ hmissing
    rw [not_found_eq hnodead, List.append_eq_nil_iff] at hnot_found
    obtain ⟨hinapplicable, hothers⟩ := hnot_found
    -- a live property that is asked for applies or does not
    have hlive : (asked prop_request).1 = [] := by
      rw [List.eq_nil_iff_forall_not_mem]
      intro p hp
      cases happ : is_applicable p entry.is_dir with
      | true =>
        have hmem : p ∈ applicable prop_request entry.is_dir := List.mem_filter.mpr ⟨hp, happ⟩
        rw [happlicable] at hmem
        exact List.not_mem_nil hmem
      | false =>
        have hmem : p ∈ (asked prop_request).1.filter fun p => !is_applicable p entry.is_dir :=
          List.mem_filter.mpr ⟨hp, congrArg not happ⟩
        rw [hinapplicable] at hmem
        exact List.not_mem_nil hmem
    exact asked_ne h hname (Prod.ext hlive hothers)

/-- An answer reads as one response, with the href of its entry and a propstat at least. -/
theorem response_reads {entry : PropEntry} {prop_request : PropRequest} {r : Response}
    (hr : Xml.write_response prop_request entry = some r) (h : Answerable prop_request) :
    ∃ tree, IsResponse entry tree ∧ Reads r.events [tree] := by
  obtain ⟨ps, hlen, hps, hreads⟩ := propstats_read fun _ hps => propstats_nest hr hps
  have hne : ps ≠ [] := by
    rw [← List.length_pos_iff, hlen, List.length_pos_iff]
    exact propstats_ne_nil hr h
  have hhref := (Reads.text (String.ofList r.href)).around El.HREF []
  refine ⟨_, ⟨ps, hne, hps, rfl⟩, ?_⟩
  rw [← write_response_href hr]
  exact (hhref.append hreads).around El.RESPONSE []

/-- The answers read as responses, in the order of the entries. -/
theorem responses_read {entries : List PropEntry} {prop_request : PropRequest}
    {responses : List Response}
    (hr : List.Forall₂ (fun e r => Xml.write_response prop_request e = some r) entries responses)
    (h : Answerable prop_request) :
    ∃ trees, List.Forall₂ IsResponse entries trees ∧
      Reads (responses.flatMap Response.events) trees := by
  induction hr with
  | nil => exact ⟨[], .nil, Reads.nil⟩
  | cons hwritten _ ih =>
    obtain ⟨tree, htree, hreads⟩ := response_reads hwritten h
    obtain ⟨trees, htrees, hrest⟩ := ih
    exact ⟨tree :: trees, .cons htree htrees, hreads.append hrest⟩

/-- A document is written when every entry's answer is. -/
theorem build_multistatus_isSome (entries : List PropEntry) (prop_request : PropRequest) :
    (Xml.build_multistatus entries prop_request).isSome = true ↔
      ∀ e ∈ entries, Formats prop_request e := by
  have hmap : (Xml.build_multistatus entries prop_request).isSome
      = (entries.mapM (Xml.write_response prop_request)).isSome := Option.isSome_map
  rw [hmap, Str.mapM_isSome_iff]
  exact forall₂_congr fun e _ => write_response_isSome prop_request e

/-- The events of a document are balanced: they are read as the declaration and one
multistatus, with one response for each entry, in order. -/
def Valid (entries : List PropEntry) (document : XmlWriter) : Prop :=
  ∃ responses : List Tree, List.Forall₂ IsResponse entries responses ∧
    Nested.read (document.map Item.mark) =
      some [.leaf (.Decl "1.0" "utf-8"), .node "D:multistatus" [("xmlns:D", "DAV:")] responses]

/-- A document that is written is valid. -/
theorem written_valid {entries : List PropEntry} {prop_request : PropRequest}
    {events : List Event} (h : Answerable prop_request)
    (hevents : Xml.build_multistatus entries prop_request = some events) :
    Valid entries (.Decl "1.0" "utf-8" :: given events) := by
  obtain ⟨responses, hr, rfl⟩ := Option.map_eq_some_iff.mp hevents
  obtain ⟨trees, htrees, hreads⟩ := responses_read (Str.mapM_some_iff.mp hr) h
  refine ⟨trees, htrees, ?_⟩
  rw [Nested.read_iff]
  have hdocument := hreads.around "D:multistatus" [("xmlns:D", "DAV:")]
  rw [Nested.marks, ← hdocument]
  rfl

/-- **When a multistatus document is valid.** For a request the parser returns the
`unreachable!` is never reached; and every writer comes to its end, with a valid document,
exactly if the dates that are asked for can be written for every entry. -/
theorem multistatus_valid_iff {reader : List Char → List (PropBody.ReadEvent PropBody.Tag)}
    {xml : List Char} {prop_request : PropRequest}
    (h : PropBody.parse_propfind_request reader xml = .ok prop_request)
    {entries : List PropEntry} (hheld : ∀ e ∈ entries, e.Held) :
    build_multistatus entries prop_request ≠ .error .Unreachable ∧
      ((∃ document, build_multistatus entries prop_request = .ok document ∧
          Valid entries document) ↔ ∀ e ∈ entries, Datable prop_request e) := by
  have hdates : (∀ e ∈ entries, Datable prop_request e) ↔
      (Xml.build_multistatus entries prop_request).isSome = true := by
    rw [build_multistatus_isSome]
    exact forall₂_congr fun e he => (formats_iff (hheld e he)).symm
  rw [build_multistatus_eq, hdates]
  cases hevents : Xml.build_multistatus entries prop_request with
  | none =>
    refine ⟨nofun, iff_of_false ?_ Bool.false_ne_true⟩
    rintro ⟨document, hdocument, -⟩
    cases hdocument
  | some events =>
    exact ⟨nofun, iff_of_true ⟨_, rfl, written_valid (parse_answerable h) hevents⟩ rfl⟩

/-! ## A locked file with a dead property, and a file of the far future -/

/-- The body of a request for three properties. -/
def three_text : List Char :=
  ("<D:propfind xmlns:D=\"DAV:\"><D:prop><D:getlastmodified/><D:lockdiscovery/>" ++
    "<X:p xmlns:X=\"urn:x\"/></D:prop></D:propfind>").toList

/-- Its events. -/
def three_body : List (PropBody.ReadEvent PropBody.Tag) :=
  [.Start ⟨"D:propfind", [("xmlns:D", "DAV:")]⟩, .Start ⟨"D:prop", []⟩,
    .Empty ⟨"D:getlastmodified", []⟩, .Empty ⟨"D:lockdiscovery", []⟩,
    .Empty ⟨"X:p", [("xmlns:X", "urn:x")]⟩, .End "D:prop", .End "D:propfind"]

/-- What the parser makes of it. -/
def three_names : PropRequest := .Named ["getlastmodified", "lockdiscovery", "{urn:x}p"]

/-- The request is read off the events of its text. -/
theorem three_parsed :
    PropBody.parse_propfind_request (PropBody.reads_as three_text three_body) three_text
      = .ok three_names := by
  unfold PropBody.parse_propfind_request
  rw [PropBody.reads_as_text]
  rfl

/-- A locked file with a dead property, last modified at some time. -/
def file_entry (modified : SystemTime) : PropEntry where
  href := "/d/f".toList
  modified := modified
  created := none
  size := 3
  is_dir := false
  dead_props := some (AList.insert "{urn:x}p" "v" ∅)
  active_locks := some [⟨.Exclusive, "urn:uuid:t", some "me", 0, some (60 * NANOS), .Zero⟩]

/-- A collection. -/
def dir_entry : PropEntry where
  href := "/d/".toList
  modified := 951825600 * NANOS
  created := some 0
  size := 4096
  is_dir := true

/-- Its dates are ones a `SystemTime` holds, if the modification is. -/
theorem file_held {modified : SystemTime} (h : modified < 2 ^ 63 * NANOS) :
    (file_entry modified).Held := ⟨h, nofun⟩

/-- So are those of the collection. -/
theorem dir_held : dir_entry.Held := by
  refine ⟨by decide, fun st hst => ?_⟩
  cases hst
  decide

/-- A collection and a locked file with a dead property. -/
theorem multistatus_valid_iff_three :
    build_multistatus [dir_entry, file_entry (951825600 * NANOS)] three_names
        ≠ .error .Unreachable ∧
      ((∃ document, build_multistatus [dir_entry, file_entry (951825600 * NANOS)] three_names
            = .ok document ∧
          Valid [dir_entry, file_entry (951825600 * NANOS)] document) ↔
        ∀ e ∈ [dir_entry, file_entry (951825600 * NANOS)], Datable three_names e) := by
  refine multistatus_valid_iff three_parsed fun e he => ?_
  rcases List.mem_cons.mp he with rfl | he
  · exact dir_held
  · rw [List.mem_singleton.mp he]
    exact file_held (by decide)

/-- A file modified on the day after the last that an `i32` counts: writing its date
panics, and there is no document. -/
theorem far_date_panics :
    ¬ ∀ (reader : List Char → List (PropBody.ReadEvent PropBody.Tag)) (xml : List Char)
      (prop_request : PropRequest) (entries : List PropEntry),
      PropBody.parse_propfind_request reader xml = .ok prop_request →
        (∀ e ∈ entries, e.Held) →
          ∃ document, build_multistatus entries prop_request = .ok document ∧
            Valid entries document := by
  intro hall
  have hheld : (file_entry (86400 * 2 ^ 31 * NANOS)).Held := file_held (by decide)
  have hsecs : secs_since_epoch (86400 * 2 ^ 31 * NANOS) = some (86400 * 2 ^ 31) := by decide
  have hday : Dates.day_count (86400 * 2 ^ 31) = -2 ^ 31 := by decide
  have hnone : Xml.build_multistatus [file_entry (86400 * 2 ^ 31 * NANOS)] three_names = none := by
    rw [← Option.not_isSome_iff_eq_none, build_multistatus_isSome, List.forall_mem_singleton,
      formats_iff hheld]
    intro hdatable
    have hasks : Asks three_names "getlastmodified" := ⟨_, List.mem_cons_self, by decide⟩
    have hcounted := hdatable.modified hasks _ hsecs
    unfold Dates.Counted at hcounted
    omega
  obtain ⟨document, hdocument, -⟩ := hall _ _ _ [file_entry (86400 * 2 ^ 31 * NANOS)] three_parsed
    (List.forall_mem_singleton.mpr hheld)
  rw [build_multistatus_eq, hnone] at hdocument
  cases hdocument

end Rshs.Writers
