/-
A PROPPATCH that sets a property, and a PROPFIND that asks for it.

The body of the PROPPATCH is written the way the pieces of `CharData` say: a value in
character data, and a namespace in the attribute that declares it on the property
element. The reader is a parameter; what is asked of it is that it delivers the events
of a document that is left well-formed by the decoding of character references, and
that no text event has markup in it (`Reads`).

The value comes back exactly when the body is one that is taken as it is meant
(`Body.Taken`, `round_trip_iff`).
-/
import Rshs.CharData
import Rshs.Propfind
import Rshs.Scope
import Rshs.Http

set_option autoImplicit false

namespace Rshs.RoundTrip

open StdPath Posix FinMap Rshs.Webdav Rshs.Xml Rshs.PropBody Rshs.CharData Rshs.Scope Rshs.App
  Rshs.Propfind

/-! ## Names -/

/-- A character of a name, apart from the colon. -/
def name_char (c : Char) : Bool :=
  128 ≤ c.toNat || c.isAlphanum || c = '-' || c = '.' || c = '_'

/-- A name without a prefix. -/
def NCName (s : String) : Prop := s ≠ "" ∧ ∀ c ∈ s.toList, name_char c = true

/-- A character of a URI. -/
def uri_char (c : Char) : Bool :=
  0x20 < c.toNat && !("\"<>\\^`|\x7b\x7d".toList.contains c)

/-- The name of a property: a prefix or none, a local name, and the namespace as it is
written in the declaration. -/
structure PropName where
  pre : Option String
  localname : String
  ns : List Piece
  pre_legal : ∀ p, pre = some p → NCName p
  local_legal : NCName localname
  no_keyword : localname ∉ ["set", "remove", "prop"]
  not_live : localname ∉ SUPPORTED_PROPS
  ns_legal : ∀ p ∈ ns, p.Legal
  ns_attribute : ∀ content, .CData content ∉ ns
  ns_declared : value ns ≠ []
  ns_uri : ∀ c ∈ value ns, uri_char c = true

namespace PropName

variable (n : PropName)

/-- The namespace. -/
def uri : String := String.ofList (value n.ns)

/-- The key of the expanded name. -/
def key : String := clark_key n.uri n.localname

def qname : String :=
  match n.pre with
  | some p => p ++ ":" ++ n.localname
  | none => n.localname

/-- The start tag, with some raw text for the namespace. -/
def tag (raw : List Char) : Tag where
  name := n.qname
  attributes := [(declaration n.pre, String.ofList raw)]

end PropName

/-! ## Bodies -/

/-- A PROPPATCH that sets one property. -/
structure Body where
  name : PropName
  content : List Piece
  legal : CharData.Legal content

namespace Body

variable (b : Body)

/-- What stands before the property in the body. -/
def OPEN : List Char :=
  ("<?xml version=\"1.0\" encoding=\"utf-8\"?>" ++
    "<D:propertyupdate xmlns:D=\"DAV:\"><D:set><D:prop>").toList

def CLOSE : List Char := "</D:prop></D:set></D:propertyupdate>".toList

/-- What precedes the namespace in the body. -/
def head : List Char :=
  OPEN ++ '<' :: (b.name.qname.toList ++ ' ' :: ((declaration b.name.pre).toList ++ ['=', '"']))

/-- What stands behind its content. -/
def tail : List Char := '<' :: '/' :: (b.name.qname.toList ++ '>' :: CLOSE)

/-- The body, for the texts of the namespace and of the content. -/
def around (ns content : List Char) : List Char :=
  b.head ++ (ns ++ (['"', '>'] ++ (content ++ b.tail)))

def text : List Char := b.around (CharData.text b.name.ns) (CharData.text b.content)

/-- The body with its character references decoded. -/
def decoded : List Char := b.around (CharData.decoded b.name.ns) (CharData.decoded b.content)

def update_tag : Tag where
  name := "D:propertyupdate"
  attributes := [("xmlns:D", "DAV:")]

def set_tag : Tag where
  name := "D:set"
  attributes := []

def prop_tag : Tag where
  name := "D:prop"
  attributes := []

/-- The reader's events of the decoded body. -/
def events : List (ReadEvent Tag) :=
  .Other :: .Start update_tag :: .Start set_tag :: .Start prop_tag
    :: .Start (b.name.tag (CharData.decoded b.name.ns))
    :: (content_events [] b.content
      ++ [.End b.name.qname, .End "D:prop", .End "D:set", .End "D:propertyupdate"])

end Body

/-! ## The two requests -/

section Requests

variable (reader : List Char → List (ReadEvent Tag))

/-- The actions of a body, none when it is too long or does not parse. -/
def proppatch_body (body : List UInt8) : Option PropPatchOp :=
  if body.length ≤ 65536 then (parse_proppatch_request reader (Text.utf8_lossy body)).toOption
  else none

def proppatch (uri_path : List Char) (body : List UInt8) : Request where
  method := .PROPPATCH
  uri_path := uri_path
  headers := {}
  body := []
  lock_body := none
  proppatch_body := proppatch_body reader body
  propfind_body := none

/-- An element of an answer is about a property. -/
def about (n : PropName) (element : List Event) : Bool :=
  element.head? = some (.Start n.localname [("xmlns", n.uri)]) ||
    element.head? = some (.Empty n.localname [("xmlns", n.uri)])

/-- An answer reports the property once, with a text that denotes the value. -/
def Reports (r : Response) (n : PropName) (v : List Char) : Prop :=
  ∃ t : String, r.reported.filter (fun p => about n p.1)
      = [([.Start n.localname [("xmlns", n.uri)], .Text t, .End n.localname], OK_LINE)] ∧
    value (escape t.toList) = v

/-- The PROPPATCH succeeds, and the PROPFIND by names that follows reports the value. -/
def ComesBack (s : Server) (path : List Char) (b : Body) (fuel : ℕ) (names : List String) : Prop :=
  ∃ w r, Http.handle_proppatch s.cwd (proppatch reader path (Text.utf8_encode b.text))
      (World.start s.app s.disk.fs) = (.ok .MULTI_STATUS, w) ∧
    ({ s with app := w.app } : Server).handle_propfind fuel .Zero path (some (.Named names))
      = some (.ok [r]) ∧
    Reports r b.name (value b.content)

/-- What is asked of the reader: it delivers the events of the decoded body when the
value has no markup that the decoding could bring out, and texts without markup from
every body. -/
structure Reads (b : Body) : Prop where
  delivers : '<' ∉ value b.content → '&' ∉ value b.content → reader b.decoded = b.events
  plain : ∀ content, .Text content ∈ reader (decode_xml_char_refs b.text) →
    '<' ∉ content ∧ '&' ∉ content

end Requests

/-- A body that is taken as it is meant. -/
structure Body.Taken (b : Body) : Prop where
  fits : (Text.utf8_encode b.text).length ≤ 65536
  namespace_text : ∀ p ∈ b.name.ns, p.IsText
  no_markup : '<' ∉ value b.content ∧ '&' ∉ value b.content
  kept : Kept b.content

/-! ## The decoded body -/

theorem name_char_ne {c : Char} (h : name_char c = true) : c ≠ ':' ∧ c ≠ '&' := by
  constructor
  · rintro rfl
    revert h
    decide
  · rintro rfl
    revert h
    decide

/-- A name without a prefix has no colon. -/
theorem NCName.no_colon {s : String} (h : NCName s) : ':' ∉ s.toList := by
  intro hmem
  exact (name_char_ne (h.2 _ hmem)).1 rfl

theorem NCName.no_amp {s : String} (h : NCName s) : '&' ∉ s.toList := by
  intro hmem
  exact (name_char_ne (h.2 _ hmem)).2 rfl

theorem PropName.qname_no_amp (n : PropName) : '&' ∉ n.qname.toList := by
  unfold PropName.qname
  cases hpre : n.pre with
  | none => exact n.local_legal.no_amp
  | some p =>
    dsimp only
    rw [String.toList_append, String.toList_append]
    simp only [List.mem_append, not_or]
    exact ⟨⟨(n.pre_legal p hpre).no_amp, by decide⟩, n.local_legal.no_amp⟩

theorem PropName.declaration_no_amp (n : PropName) : '&' ∉ (declaration n.pre).toList := by
  unfold declaration
  cases hpre : n.pre with
  | none => decide
  | some p =>
    dsimp only
    rw [String.toList_append, List.mem_append, not_or]
    exact ⟨by decide, (n.pre_legal p hpre).no_amp⟩

/-- A qualified name is split at its colon. -/
theorem PropName.split_qname (n : PropName) : split_name n.qname = (n.pre, n.localname) := by
  unfold split_name PropName.qname
  cases hpre : n.pre with
  | none =>
    dsimp only
    rw [Str.split_once_none n.local_legal.no_colon]
  | some p =>
    have htext : (p ++ ":" ++ n.localname).toList = p.toList ++ ':' :: n.localname.toList := by
      simp
    dsimp only
    rw [htext, Str.split_once_append (n.pre_legal p hpre).no_colon]
    simp

/-- **The decoding of a body**, when the content has no markup to bring out. -/
theorem decode_body {b : Body} (h : '&' ∉ value b.content) :
    decode_xml_char_refs b.text = b.decoded := by
  have hhead : '&' ∉ b.head := by
    unfold Body.head
    simp only [List.mem_append, List.mem_cons, not_or]
    exact ⟨by decide, by decide, b.name.qname_no_amp, by decide, b.name.declaration_no_amp,
      by decide, by decide, by decide⟩
  have htail : '&' ∉ b.tail := by
    unfold Body.tail
    simp only [List.mem_append, List.mem_cons, not_or]
    exact ⟨by decide, by decide, b.name.qname_no_amp, by decide, by decide⟩
  have hcdata : ∀ content, .CData content ∈ b.content → '&' ∉ content := by
    intro content hmem hamp
    apply h
    apply mem_value hmem
    intro next
    exact mem_eol_of hamp (by decide)
  have hns : ∀ content, .CData content ∈ b.name.ns → '&' ∉ content := by
    intro content hmem
    exact absurd hmem (b.name.ns_attribute content)
  unfold Body.text Body.decoded Body.around
  rw [decode_append hhead, decode_pieces b.name.ns_legal hns, decode_append (by decide),
    decode_pieces b.legal.pieces hcdata, decode_plain htail]

/-! ## The namespace -/

/-- A property has a namespace. -/
theorem PropName.uri_ne_empty (n : PropName) : n.uri ≠ "" := by
  intro h
  apply n.ns_declared
  have hlist := congrArg String.toList h
  rw [PropName.uri, String.toList_ofList] at hlist
  exact hlist

/-- No namespace has a closing brace. -/
theorem PropName.uri_no_close (n : PropName) : '\x7d' ∉ n.uri.toList := by
  intro hmem
  rw [PropName.uri, String.toList_ofList] at hmem
  have huri := n.ns_uri _ hmem
  revert huri
  decide

/-- The raw text of the declaration, decoded, is the namespace when no entity stands in
it, and only then. -/
theorem PropName.decoded_uri (n : PropName) :
    CharData.decoded n.ns = value n.ns ↔ ∀ p ∈ n.ns, p.IsText := by
  constructor
  · intro h
    exact (decoded_length n.ns_attribute).2 (congrArg List.length h).symm
  · intro htext
    apply decoded_eq_value htext
    intro hcr
    have huri := n.ns_uri _ (lf_of_cr hcr)
    revert huri
    decide

/-! ## Keys and their elements -/

/-- A key in Clark notation is taken apart again. -/
theorem key_parts_clark {ns localname : String} (hns : ns ≠ "") (hclose : '\x7d' ∉ ns.toList) :
    key_parts (clark_key ns localname) = (ns, localname) := by
  unfold key_parts parse_clark
  rw [clark_key_toList hns]
  change ((Str.split_once '\x7d' (ns.toList ++ '\x7d' :: localname.toList)).map
    fun p => (String.ofList p.1, String.ofList p.2)).getD _ = _
  rw [Str.split_once_append hclose]
  simp

/-- And put together from its parts. -/
theorem key_of_parts {k ns localname : String} (hns : ns ≠ "")
    (h : key_parts k = (ns, localname)) : k = clark_key ns localname := by
  unfold key_parts at h
  cases hparse : parse_clark k with
  | none =>
    rw [hparse] at h
    simp only [Option.getD_none, Prod.mk.injEq] at h
    exact absurd h.1.symm hns
  | some p =>
    rw [hparse] at h
    simp only [Option.getD_some] at h
    rw [h] at hparse
    unfold parse_clark at hparse
    split at hparse
    · rename_i rest hk
      obtain ⟨⟨a, b⟩, hsplit, hpair⟩ := Option.map_eq_some_iff.mp hparse
      simp only [Prod.mk.injEq] at hpair
      rw [← String.toList_inj, clark_key_toList hns, hk, (Str.split_once_some hsplit).2, ← hpair.1,
        ← hpair.2]
      simp
    · simp only [Option.some.injEq, Prod.mk.injEq] at hparse
      exact absurd hparse.1.symm hns

section Answer

variable {n : PropName}

theorem ns_attributes_uri {ns : String} (h : ns_attributes ns = [("xmlns", n.uri)]) :
    ns = n.uri := by
  unfold ns_attributes at h
  split at h
  · cases h
  · simpa using h

/-- A key is written as the property's element exactly when it is the property's key. -/
theorem parts_iff {k : String} :
    ((key_parts k).2 = n.localname ∧ ns_attributes (key_parts k).1 = [("xmlns", n.uri)]) ↔
      k = n.key := by
  constructor
  · rintro ⟨hlocal, hns⟩
    exact key_of_parts n.uri_ne_empty (Prod.ext (ns_attributes_uri hns) hlocal)
  · intro hk
    rw [hk, PropName.key, key_parts_clark n.uri_ne_empty n.uri_no_close]
    refine ⟨rfl, ?_⟩
    unfold ns_attributes
    rw [if_neg n.uri_ne_empty]

/-- The element of a dead property is about the name of its key. -/
theorem about_dead {e : Entry String String} : about n (dead_prop e) = true ↔ e.1 = n.key := by
  unfold about dead_prop
  rw [List.head?_cons, Bool.or_eq_true, decide_eq_true_eq, decide_eq_true_eq, Option.some.injEq,
    Option.some.injEq, Event.Start.injEq, parts_iff]
  simp

theorem about_missing {k : String} :
    about n [.Empty (key_parts k).2 (ns_attributes (key_parts k).1)] = true ↔ k = n.key := by
  unfold about
  rw [List.head?_cons, Bool.or_eq_true, decide_eq_true_eq, decide_eq_true_eq, Option.some.injEq,
    Option.some.injEq, Event.Empty.injEq, parts_iff]
  simp

/-- The live properties carry no namespace of their own. -/
theorem about_live {entry : PropEntry} {p : String} {content : List Event}
    (h : p ∈ SUPPORTED_PROPS) (hlive : live_prop entry p = some content) :
    about n content = false := by
  unfold about
  rw [live_prop_head h hlive]
  simp

/-- The entries of a map under one key. -/
theorem filter_lookup {entries : List (Entry String String)} {k t : String}
    (hnodup : entries.NodupKeys) (h : entries.dlookup k = some t) :
    entries.filter (fun e => e.1 = k) = [⟨k, t⟩] := by
  induction entries with
  | nil => cases h
  | cons e entries ih =>
    obtain ⟨hnew, hrest⟩ := List.nodupKeys_cons.mp hnodup
    by_cases he : e.1 = k
    · obtain ⟨k', t'⟩ := e
      dsimp only at he
      subst he
      rw [List.dlookup_cons_eq, Option.some.injEq] at h
      have hnil : entries.filter (fun e => e.1 = k') = [] := by
        rw [List.filter_eq_nil_iff]
        intro e hmem heq
        rw [decide_eq_true_eq] at heq
        have hkey := List.mem_keys_of_mem hmem
        rw [heq] at hkey
        exact hnew hkey
      rw [List.filter_cons_of_pos (by simp), hnil, h]
    · rw [List.dlookup_cons_ne _ _ (Ne.symm he)] at h
      rw [List.filter_cons_of_neg (by simpa using he)]
      exact ih hrest h

/-- **What an answer reports of the property** is what the store holds under its key. -/
theorem reports_iff {entry : PropEntry} {dead : Map String String} {names : List String}
    {r : Response} {v : List Char} (hr : write_response (.Named names) entry = some r)
    (hdead : entry.dead_props = some dead) :
    Reports r n v ↔
      ∃ t, dead.lookup n.key = some t ∧ value (escape t.toList) = v := by
  have helements : dead_elements entry = dead.entries.map dead_prop := by
    unfold dead_elements
    rw [hdead]
  have hkey : ∀ t, dead_prop ⟨n.key, t⟩
      = [.Start n.localname [("xmlns", n.uri)], .Text t, .End n.localname] := by
    intro t
    have hparts := (@parts_iff n n.key).mpr rfl
    unfold dead_prop
    dsimp only
    rw [hparts.1, hparts.2]
  have habout : ∀ p ∈ applicable (.Named names) entry.is_dir,
      about n (live_element entry p) = false := by
    intro p hp
    exact about_live (mem_asked.mp (List.mem_of_mem_filter hp)).1 (live_written hr nofun hp)
  unfold Reports
  rw [reported_eq hr nofun, helements]
  constructor
  · rintro ⟨t, hfilter, hvalue⟩
    refine ⟨t, ?_, hvalue⟩
    have hmem : ([Event.Start n.localname [("xmlns", n.uri)], .Text t, .End n.localname], OK_LINE)
        ∈ [([Event.Start n.localname [("xmlns", n.uri)], .Text t, .End n.localname], OK_LINE)] :=
      List.mem_singleton_self _
    rw [← hfilter, List.mem_filter, List.mem_append, List.mem_append] at hmem
    obtain ⟨hmem, hthis⟩ := hmem
    rcases hmem with (hlive | hmissing) | hfound
    · obtain ⟨p, hp, heq⟩ := List.mem_map.mp hlive
      rw [Prod.mk.injEq] at heq
      have hlive' := habout p hp
      rw [heq.1, hthis] at hlive'
      cases hlive'
    · obtain ⟨p, -, heq⟩ := List.mem_map.mp hmissing
      rw [Prod.mk.injEq] at heq
      exact absurd heq.2 (by decide)
    · obtain ⟨el, hel, heq⟩ := List.mem_map.mp hfound
      obtain ⟨e, he, rfl⟩ := List.mem_map.mp hel
      rw [Prod.mk.injEq] at heq
      rw [← heq.1] at hthis
      have hk := about_dead.mp hthis
      obtain ⟨k, t'⟩ := e
      dsimp only at hk
      subst hk
      rw [hkey] at heq
      simp only [List.cons.injEq, Event.Text.injEq, and_true, true_and] at heq
      rw [← heq]
      exact AList.mem_lookup_iff.mpr he
  · rintro ⟨t, hlookup, hvalue⟩
    refine ⟨t, ?_, hvalue⟩
    rw [List.filter_append, List.filter_append]
    have hlive : ((applicable (.Named names) entry.is_dir).map
        fun p => (live_element entry p, OK_LINE)).filter (fun p => about n p.1) = [] := by
      rw [List.filter_eq_nil_iff]
      intro x hx
      obtain ⟨p, hp, rfl⟩ := List.mem_map.mp hx
      rw [habout p hp]
      exact Bool.false_ne_true
    have hmissing : ((write_propstat_404 (not_found entry (.Named names))).props.map
        fun p => (p, NOT_FOUND_LINE)).filter (fun p => about n p.1) = [] := by
      rw [List.filter_eq_nil_iff]
      intro x hx hthis
      obtain ⟨el, hel, rfl⟩ := List.mem_map.mp hx
      unfold write_propstat_404 at hel
      obtain ⟨k, hk, rfl⟩ := List.mem_map.mp hel
      -- a name that is in the store is not missing
      have hkeyed := about_missing.mp hthis
      unfold not_found at hk
      rw [hdead] at hk
      have hnone := (List.mem_filter.mp hk).2
      rw [hkeyed, hlookup] at hnone
      cases hnone
    rw [hlive, hmissing, List.nil_append, List.nil_append, List.map_map, List.filter_map]
    have hpred : ((fun p : List Event × String => about n p.1) ∘
        ((fun p => (p, OK_LINE)) ∘ dead_prop)) = fun e : Entry String String => decide (e.1 = n.key) := by
      funext e
      rw [Bool.eq_iff_iff, decide_eq_true_eq]
      exact about_dead
    rw [hpred, filter_lookup dead.nodupKeys hlookup, List.map_singleton]
    dsimp only [Function.comp]
    rw [hkey]

end Answer

/-! ## The handlers -/

/-- The properties a resource has after some actions. -/
def patched (s : Server) (fs_path : Path) (op : PropPatchOp) : Map String String :=
  op.actions.foldl Http.PropPatchAction.apply (get_or ∅ fs_path s.app.dead_props)

section Handlers

variable {reader : List Char → List (ReadEvent Tag)} {s : Server} {path : List Char}
  {fs_path : Path}

/-- The server with some dead properties for a resource. -/
def with_dead (s : Server) (fs_path : Path) (dead : Map String String) : Server :=
  { s with app := { s.app with dead_props := s.app.dead_props.insert fs_path dead } }

/-- A PROPFIND of a resource with some dead properties. -/
theorem propfind_patched (hres : s.resolve_existing path = some fs_path) (fuel : ℕ)
    (names : List String) (dead : Map String String) :
    ∃ (entry : PropEntry) (r : Response), entry.dead_props = some dead ∧
      write_response (.Named names) entry = some r ∧
      (with_dead s fs_path dead).handle_propfind fuel .Zero path (some (.Named names))
        = some (.ok [r]) := by
  obtain ⟨x, hx, hlink⟩ := Resolve.resolve_existing_real hres
  have hres' : (with_dead s fs_path dead).resolve_existing path = some fs_path := hres
  obtain ⟨r, hanswer, hwritten⟩ := propfind_zero fuel (.Named names) hres' hx hlink
  refine ⟨_, r, ?_, hwritten, hanswer⟩
  unfold Server.own_entry Server.join_stores base_entry with_dead
  dsimp only
  rw [AList.lookup_insert]

/-- The reply to a PROPPATCH and the server it leaves. -/
theorem proppatch_reply (hres : s.resolve_existing path = some fs_path) (body : List UInt8) :
    ∃ w, Http.handle_proppatch s.cwd (proppatch reader path body) (World.start s.app s.disk.fs)
        = (match proppatch_body reader body with
          | some _ => .ok .MULTI_STATUS
          | none => .error .BAD_REQUEST, w) ∧
      ∀ op, proppatch_body reader body = some op →
        ({ s with app := w.app } : Server) = with_dead s fs_path (patched s fs_path op) := by
  have hresolve : (World.start s.app s.disk.fs).resolve_existing s.cwd path = some fs_path := hres
  have hpath : (proppatch reader path body).uri_path = path := rfl
  have hbody : (proppatch reader path body).proppatch_body = proppatch_body reader body := rfl
  unfold Http.handle_proppatch
  rw [hpath, hresolve, hbody]
  cases proppatch_body reader body with
  | none =>
    refine ⟨_, rfl, ?_⟩
    intro op hop
    cases hop
  | some op =>
    refine ⟨_, rfl, ?_⟩
    intro op' hop
    rw [Option.some.injEq] at hop
    rw [← hop]
    rfl

/-- The text comes back if the patch leaves a text that escapes to its value. -/
theorem comes_back_iff (hres : s.resolve_existing path = some fs_path) (b : Body) (fuel : ℕ)
    (names : List String) :
    ComesBack reader s path b fuel names ↔
      ∃ op, proppatch_body reader (Text.utf8_encode b.text) = some op ∧
        ∃ t, (patched s fs_path op).lookup b.name.key = some t ∧
          value (escape t.toList) = value b.content := by
  unfold ComesBack
  generalize Text.utf8_encode b.text = body
  obtain ⟨w, hreply, hafter⟩ := @proppatch_reply reader s path fs_path hres body
  rw [hreply]
  constructor
  · rintro ⟨w', r, hpatch, hfind, hreports⟩
    cases hop : proppatch_body reader body with
    | none =>
      rw [hop] at hpatch
      cases hpatch
    | some op =>
      rw [Prod.mk.injEq] at hpatch
      rw [← hpatch.2, hafter op hop] at hfind
      obtain ⟨entry, r', hdead, hwritten, hanswer⟩ :=
        propfind_patched hres fuel names (patched s fs_path op)
      rw [hfind] at hanswer
      simp only [Option.some.injEq, Except.ok.injEq, List.cons.injEq, and_true] at hanswer
      rw [hanswer] at hreports
      exact ⟨op, rfl, (reports_iff hwritten hdead).mp hreports⟩
  · rintro ⟨op, hop, hstored⟩
    obtain ⟨entry, r, hdead, hwritten, hanswer⟩ :=
      propfind_patched hres fuel names (patched s fs_path op)
    refine ⟨w, r, ?_, ?_, (reports_iff hwritten hdead).mpr hstored⟩
    · rw [hop]
    · rw [hafter op hop]
      exact hanswer

end Handlers

/-- What the last of some actions leaves under a key. -/
theorem lookup_patched {actions : List PropPatchAction} {old : Map String String} {k t : String}
    (h : (actions.foldl Http.PropPatchAction.apply old).lookup k = some t) :
    (∃ a ∈ actions, a.name = k ∧ a.value = some t) ∨ old.lookup k = some t := by
  induction actions using List.reverseRecOn with
  | nil => exact Or.inr h
  | append_singleton actions a ih =>
    rw [List.foldl_append, List.foldl_cons, List.foldl_nil] at h
    generalize actions.foldl Http.PropPatchAction.apply old = entry at h ih
    have hearlier : entry.lookup k = some t →
        (∃ b ∈ actions ++ [a], b.name = k ∧ b.value = some t) ∨ old.lookup k = some t := by
      intro hentry
      apply (ih hentry).imp_left
      rintro ⟨b, hb, hname⟩
      exact ⟨b, List.mem_append_left _ hb, hname⟩
    unfold Http.PropPatchAction.apply at h
    by_cases hk : a.name = k
    · cases hvalue : a.value with
      | none =>
        rw [hvalue, hk] at h
        simp at h
      | some value =>
        rw [hvalue, hk] at h
        simp only [AList.lookup_insert, Option.some.injEq] at h
        rw [h] at hvalue
        exact Or.inl ⟨a, by simp, hk, hvalue⟩
    · apply hearlier
      cases hvalue : a.value with
      | none =>
        rw [hvalue] at h
        dsimp only at h
        rw [AList.lookup_erase_ne (Ne.symm hk)] at h
        exact h
      | some value =>
        rw [hvalue] at h
        dsimp only at h
        rw [AList.lookup_insert_ne (Ne.symm hk)] at h
        exact h

/-! ## The parsed body -/

section Parse

variable {K : Type} {key : Tag → Except ParseError (String × K)}

/-- A start tag whose key can be read. -/
theorem loop_start {e : Tag} {localname : String} {k : K} (h : key e = .ok (localname, k))
    (s : PatchState K) (rest : List (ReadEvent Tag)) :
    proppatch_loop key s (.Start e :: rest)
      = proppatch_loop key (s.on_start localname k) rest := by
  conv_lhs => unfold proppatch_loop
  rw [h]

/-- A text between tags. -/
theorem loop_text (s : PatchState K) (content : List Char) (rest : List (ReadEvent Tag)) :
    proppatch_loop key s (.Text content :: rest)
      = proppatch_loop key (s.close (String.ofList (decode_xml_char_refs content))) rest := rfl

theorem loop_end (s : PatchState K) (name : String) (rest : List (ReadEvent Tag)) :
    proppatch_loop key s (.End name :: rest) = proppatch_loop key (s.on_end name) rest := rfl

theorem loop_other (s : PatchState K) (rest : List (ReadEvent Tag)) :
    proppatch_loop key s (.Other :: rest) = proppatch_loop key s rest := rfl

/-- An event of the content of an element without children. -/
def IsContent : ReadEvent Tag → Prop
  | .Text _ | .CData _ | .GeneralRef _ => True
  | _ => False

/-- The content of the property has no tags. -/
theorem content_events_content (read : List Char) (ps : List Piece) :
    ∀ event ∈ content_events read ps, IsContent event := by
  have htext : ∀ s, ∀ event ∈ text_event s, IsContent event := by
    intro s event hevent
    unfold text_event at hevent
    split at hevent
    · cases hevent
    · rw [List.mem_singleton] at hevent
      rw [hevent]
      trivial
  induction ps generalizing read with
  | nil => exact htext read
  | cons p ps ih =>
    cases p with
    | Lit c => exact ih _
    | CharRef hex digits => exact ih _
    | EntityRef e =>
      intro event hevent
      rcases List.mem_append.mp hevent with hevent | hevent
      · exact htext read event hevent
      · rcases List.mem_cons.mp hevent with rfl | hevent
        · trivial
        · exact ih [] event hevent
    | CData content =>
      intro event hevent
      rcases List.mem_append.mp hevent with hevent | hevent
      · exact htext read event hevent
      · rcases List.mem_cons.mp hevent with rfl | hevent
        · trivial
        · exact ih [] event hevent

/-- With no property open, content is passed over. -/
theorem content_passed {events : List (ReadEvent Tag)} (hcontent : ∀ e ∈ events, IsContent e)
    {s : PatchState K} (hclosed : s.current_name = none) (rest : List (ReadEvent Tag)) :
    proppatch_loop key s (events ++ rest) = proppatch_loop key s rest := by
  induction events with
  | nil => rfl
  | cons event events ih =>
    have hih := ih (fun e he => hcontent e (List.mem_cons_of_mem event he))
    have hevent := hcontent event List.mem_cons_self
    rw [List.cons_append]
    cases event with
    | Text content =>
      have hclose : ∀ value, s.close value = s := by
        intro value
        unfold PatchState.close
        rw [hclosed]
      rw [loop_text, hclose]
      exact hih
    | CData content => exact hih
    | GeneralRef name => exact hih
    | Start e => exact absurd hevent id
    | Empty e => exact absurd hevent id
    | End name => exact absurd hevent id
    | Other => exact absurd hevent id
    | Err => exact absurd hevent id

/-- With a property open, the first text of the content is its value. -/
theorem content_closed {events : List (ReadEvent Tag)} (hcontent : ∀ e ∈ events, IsContent e)
    (hplain : ∀ content, .Text content ∈ events → '&' ∉ content) (k : K)
    (actions : List (K × Option String)) (in_remove : Bool) (rest : List (ReadEvent Tag)) :
    ∃ s : PatchState K,
      proppatch_loop key ⟨actions, true, in_remove, some k⟩ (events ++ rest)
        = proppatch_loop key s rest ∧
      s.close "" = ⟨actions ++ [(k, some (String.ofList ((events.findSome? text_of).getD [])))],
        true, in_remove, none⟩ := by
  induction events with
  | nil => exact ⟨_, rfl, rfl⟩
  | cons event events ih =>
    have hcontent' : ∀ e ∈ events, IsContent e :=
      fun e he => hcontent e (List.mem_cons_of_mem event he)
    have hih := ih hcontent' (fun content hmem => hplain content (List.mem_cons_of_mem event hmem))
    have hevent := hcontent event List.mem_cons_self
    rw [List.cons_append]
    cases event with
    | Text content =>
      have hdecode := decode_plain (hplain content List.mem_cons_self)
      refine ⟨⟨actions ++ [(k, some (String.ofList content))], true, in_remove, none⟩, ?_, rfl⟩
      rw [loop_text, hdecode]
      exact content_passed hcontent' rfl rest
    | CData content => exact hih
    | GeneralRef name => exact hih
    | Start e => exact absurd hevent id
    | Empty e => exact absurd hevent id
    | End name => exact absurd hevent id
    | Other => exact absurd hevent id
    | Err => exact absurd hevent id

end Parse

theorem element_key_tag {n : PropName} {raw : List Char} (hraw : raw ≠ []) :
    element_key (n.tag raw) = .ok (n.localname, clark_key (String.ofList raw) n.localname) := by
  have hname : (n.tag raw).name = n.qname := rfl
  have hattribute : (n.tag raw).attribute (declaration n.pre) = some (String.ofList raw) := by
    unfold Tag.attribute PropName.tag
    simp
  have hextract : extract_element_ns (n.tag raw) = .ok (String.ofList raw, n.localname) := by
    unfold extract_element_ns
    rw [hname, n.split_qname]
    cases hpre : n.pre with
    | none =>
      rw [hpre] at hattribute
      unfold declaration at hattribute
      dsimp only at hattribute ⊢
      rw [hattribute]
      rfl
    | some p =>
      rw [hpre] at hattribute
      unfold declaration at hattribute
      dsimp only at hattribute ⊢
      rw [hattribute]
      dsimp only
      have hne : String.ofList raw ≠ "" := by
        intro h
        apply hraw
        have hlist := congrArg String.toList h
        rw [String.toList_ofList] at hlist
        exact hlist
      rw [if_neg hne]
  unfold element_key
  rw [hextract]
  rfl

theorem PropName.decoded_ne_nil (n : PropName) : CharData.decoded n.ns ≠ [] := by
  intro hnil
  have hle := (decoded_length n.ns_attribute).1
  rw [hnil, List.length_nil, Nat.le_zero, List.length_eq_zero_iff] at hle
  exact n.ns_declared hle

/-- **The actions of a body** whose events are delivered. -/
theorem parse_body {b : Body} {reader : List Char → List (ReadEvent Tag)} {xml : List Char}
    (hread : reader (decode_xml_char_refs xml) = b.events)
    (hplain : ∀ content, .Text content ∈ b.events → '&' ∉ content) :
    parse_proppatch_request reader xml = .ok
      { actions := [⟨clark_key (String.ofList (CharData.decoded b.name.ns)) b.name.localname,
          some (String.ofList (kept_text b.content))⟩] } := by
  have hkeyword := b.name.no_keyword
  simp only [List.mem_cons, List.not_mem_nil, or_false, not_or] at hkeyword
  have hkey := @element_key_tag b.name _ b.name.decoded_ne_nil
  generalize hk : clark_key (String.ofList (CharData.decoded b.name.ns)) b.name.localname = k
    at hkey ⊢
  -- the first text of the content closes the property, and nothing after it counts
  obtain ⟨s, hcontent, hclose⟩ := @content_closed _ element_key _
    (content_events_content [] b.content)
    (fun content hmem => hplain content (by
      unfold Body.events
      simp [hmem])) k [] false
    [.End b.name.qname, .End "D:prop", .End "D:set", .End "D:propertyupdate"]
  have hupdate : element_key Body.update_tag = .ok ("propertyupdate", "\x7bDAV:\x7dpropertyupdate") := by
    rfl
  have hset : element_key Body.set_tag = .ok ("set", "set") := by rfl
  have hprop : element_key Body.prop_tag = .ok ("prop", "prop") := by rfl
  have hstart : (⟨[], true, false, none⟩ : PatchState String).on_start b.name.localname k
      = ⟨[], true, false, some k⟩ := by
    unfold PatchState.on_start
    rw [if_neg hkeyword.1, if_neg hkeyword.2.1, if_neg hkeyword.2.2, if_pos rfl]
  have hend : s.on_end b.name.qname = s.close "" := by
    unfold PatchState.on_end
    rw [b.name.split_qname, if_neg hkeyword.1, if_neg hkeyword.2.1]
  -- the tags in front set the flag and open the property
  have hopen : proppatch_loop element_key {} b.events
      = proppatch_loop element_key ⟨[], true, false, some k⟩ (content_events [] b.content
        ++ [.End b.name.qname, .End "D:prop", .End "D:set", .End "D:propertyupdate"]) := by
    rw [← hstart, ← loop_start hkey]
    unfold Body.events
    rw [loop_other, loop_start hupdate, loop_start hset, loop_start hprop]
    rfl
  have hrun : proppatch_loop element_key {} b.events
      = .ok ⟨[(k, some (String.ofList (kept_text b.content)))], false, false, none⟩ := by
    rw [hopen, hcontent, loop_end, hend, hclose]
    rfl
  unfold parse_proppatch_request
  rw [hread, hrun]
  rfl

/-! ### The values that are set -/

section Values

variable {K : Type} {key : Tag → Except ParseError (String × K)} (P : String → Prop)

/-- Every value that is set has the property. -/
def AllSet (s : PatchState K) : Prop := ∀ a ∈ s.actions, ∀ v, a.2 = some v → P v

variable {P}

theorem AllSet.append {s : PatchState K} (h : AllSet P s) {a : K × Option String}
    (ha : ∀ v, a.2 = some v → P v) {in_set in_remove : Bool} {current_name : Option K} :
    AllSet P ⟨s.actions ++ [a], in_set, in_remove, current_name⟩ := by
  intro b hb
  rcases List.mem_append.mp hb with hb | hb
  · exact h b hb
  · rw [List.mem_singleton] at hb
    rw [hb]
    exact ha

/-- Closing a property keeps to texts with the predicate. -/
theorem AllSet.close {s : PatchState K} (h : AllSet P s) {value : String} (hvalue : P value) :
    AllSet P (s.close value) := by
  unfold PatchState.close
  split
  · split
    · apply h.append
      intro v hv
      rw [Option.some.injEq] at hv
      rw [← hv]
      exact hvalue
    · exact h
  · exact h

/-- So does a start tag, -/
theorem AllSet.on_start {s : PatchState K} (h : AllSet P s) (localname : String) (k : K) :
    AllSet P (s.on_start localname k) := by
  unfold PatchState.on_start
  split_ifs
  · exact h
  · exact h
  · exact h
  · exact h
  · apply h.append
    intro v hv
    cases hv
  · exact h

/-- an empty element, -/
theorem AllSet.on_empty {s : PatchState K} (h : AllSet P s) (hempty : P "") (localname : String)
    (k : K) : AllSet P (s.on_empty localname k) := by
  unfold PatchState.on_empty
  split_ifs
  · apply h.append
    intro v hv
    cases hv
  · apply h.append
    intro v hv
    rw [Option.some.injEq] at hv
    rw [← hv]
    exact hempty
  · exact h

/-- and an end tag. -/
theorem AllSet.on_end {s : PatchState K} (h : AllSet P s) (hempty : P "") (name : String) :
    AllSet P (s.on_end name) := by
  unfold PatchState.on_end
  split_ifs
  · exact h
  · exact h
  · exact h.close hempty

/-- The values are the empty one and the decoded texts of the reader. -/
theorem AllSet.loop (hempty : P "") {events : List (ReadEvent Tag)} {s t : PatchState K}
    (htext : ∀ content, .Text content ∈ events → P (String.ofList (decode_xml_char_refs content)))
    (h : AllSet P s) (hrun : proppatch_loop key s events = .ok t) : AllSet P t := by
  induction events generalizing s with
  | nil =>
    unfold proppatch_loop at hrun
    rw [Except.ok.injEq] at hrun
    rw [← hrun]
    exact h
  | cons event events ih =>
    have htext' : ∀ content, .Text content ∈ events →
        P (String.ofList (decode_xml_char_refs content)) :=
      fun content hmem => htext content (List.mem_cons_of_mem event hmem)
    cases event with
    | Start e =>
      simp only [proppatch_loop] at hrun
      split at hrun
      · cases hrun
      · exact ih htext' (h.on_start _ _) hrun
    | Empty e =>
      simp only [proppatch_loop] at hrun
      split at hrun
      · cases hrun
      · exact ih htext' (h.on_empty hempty _ _) hrun
    | End name => exact ih htext' (h.on_end hempty name) hrun
    | Text content => exact ih htext' (h.close (htext content List.mem_cons_self)) hrun
    | CData content => exact ih htext' h hrun
    | GeneralRef name => exact ih htext' h hrun
    | Other => exact ih htext' h hrun
    | Err => cases hrun

end Values

/-- No value that is set has markup. -/
theorem set_values {reader : List Char → List (ReadEvent Tag)} {xml : List Char}
    {op : PropPatchOp} (hplain : ∀ content, .Text content ∈ reader (decode_xml_char_refs xml) →
      '<' ∉ content ∧ '&' ∉ content)
    (h : parse_proppatch_request reader xml = .ok op) :
    ∀ a ∈ op.actions, ∀ t, a.value = some t → '<' ∉ t.toList ∧ '&' ∉ t.toList := by
  unfold parse_proppatch_request at h
  split at h
  · cases h
  · rename_i s hrun
    split at h
    · cases h
    · rw [Except.ok.injEq] at h
      have hset := @AllSet.loop _ _ (fun t => '<' ∉ t.toList ∧ '&' ∉ t.toList) (by decide) _ {} s
        (fun content hmem => by
          rw [decode_plain (hplain content hmem).2, String.toList_ofList]
          exact hplain content hmem)
        (by
          intro a ha
          cases ha) hrun
      intro a ha t ht
      rw [← h] at ha
      obtain ⟨b, hb, rfl⟩ := List.mem_map.mp ha
      exact hset b hb t ht

/-- A body is taken if it is no longer than allowed and its document is. -/
theorem body_iff {reader : List Char → List (ReadEvent Tag)} {xml : List Char}
    {op : PropPatchOp} :
    proppatch_body reader (Text.utf8_encode xml) = some op ↔
      (Text.utf8_encode xml).length ≤ 65536 ∧ parse_proppatch_request reader xml = .ok op := by
  unfold proppatch_body
  rw [Text.utf8_lossy_encode]
  split
  · rename_i hfits
    cases parse_proppatch_request reader xml with
    | error err => simp [Except.toOption]
    | ok op' => simp [Except.toOption, hfits]
  · rename_i hlong
    simp [hlong]

/-! ## The round trip -/

/-- The property did not have the value before. -/
def Unset (s : Server) (fs_path : Path) (b : Body) : Prop :=
  ∀ old, (get_or ∅ fs_path s.app.dead_props).lookup b.name.key = some old →
    value (escape old.toList) ≠ value b.content

/-- **A value comes back exactly when the body is taken as it is meant.** -/
theorem round_trip_iff {reader : List Char → List (ReadEvent Tag)} {s : Server} {path : List Char}
    {fs_path : Path} (hres : s.resolve_existing path = some fs_path) {b : Body}
    (hreads : Reads reader b) (fuel : ℕ) (names : List String) :
    (b.Taken → ComesBack reader s path b fuel names) ∧
      (Unset s fs_path b → ComesBack reader s path b fuel names → b.Taken) := by
  rw [comes_back_iff hres]
  -- the events of a value without markup
  have hactions : '<' ∉ value b.content → '&' ∉ value b.content →
      parse_proppatch_request reader b.text = .ok
        { actions := [⟨clark_key (String.ofList (CharData.decoded b.name.ns)) b.name.localname,
            some (String.ofList (kept_text b.content))⟩] } := by
    intro hlt hamp
    have hevents : reader (decode_xml_char_refs b.text) = b.events := by
      rw [decode_body hamp]
      exact hreads.delivers hlt hamp
    apply parse_body hevents
    intro content hmem
    rw [← hevents] at hmem
    exact (hreads.plain content hmem).2
  have hkept : ∀ t : String, t = String.ofList (kept_text b.content) →
      (value (escape t.toList) = value b.content ↔ Kept b.content) := by
    intro t ht
    rw [ht, String.toList_ofList, value_escape]
    exact kept_text_iff b.legal.pieces
  constructor
  · intro h
    have hkey : clark_key (String.ofList (CharData.decoded b.name.ns)) b.name.localname
        = b.name.key := by
      rw [b.name.decoded_uri.mpr h.namespace_text]
      rfl
    refine ⟨_, body_iff.mpr ⟨h.fits, hactions h.no_markup.1 h.no_markup.2⟩,
      String.ofList (kept_text b.content), ?_, (hkept _ rfl).mpr h.kept⟩
    unfold patched Http.PropPatchAction.apply
    rw [hkey]
    simp
  · rintro hunset ⟨op, hop, t, hlookup, hvalue⟩
    obtain ⟨hfits, hparse⟩ := body_iff.mp hop
    -- the value is one that was set now
    rcases lookup_patched hlookup with ⟨a, ha, hname, hset⟩ | hold
    · obtain ⟨hlt, hamp⟩ := set_values hreads.plain hparse a ha t hset
      rw [value_escape] at hvalue
      have hmarkup : ∀ c ∈ ['<', '&'], c ∉ t.toList → c ∉ value b.content := by
        intro c hc hno hmem
        rw [← hvalue] at hmem
        rcases (mem_eol hmem).2 with hmem | hlf
        · exact hno hmem
        · rw [hlf] at hc
          revert hc
          decide
      have hvlt := hmarkup '<' (by simp) hlt
      have hvamp := hmarkup '&' (by simp) hamp
      rw [hactions hvlt hvamp, Except.ok.injEq] at hparse
      rw [← hparse, List.mem_singleton] at ha
      rw [ha] at hname hset
      dsimp only at hname hset
      have huri := clark_key_namespace hname
      have hdecoded : CharData.decoded b.name.ns = value b.name.ns := by
        have hlist := congrArg String.toList huri
        rw [PropName.uri, String.toList_ofList, String.toList_ofList] at hlist
        exact hlist
      have ht : t = String.ofList (kept_text b.content) := (Option.some.inj hset).symm
      have hvalue' : value (escape t.toList) = value b.content := by
        rw [value_escape]
        exact hvalue
      exact
        { fits := hfits
          namespace_text := b.name.decoded_uri.mp hdecoded
          no_markup := ⟨hvlt, hvamp⟩
          kept := (hkept t ht).mp hvalue' }
    · exact absurd hvalue (hunset t hold)

/-! ## A value that comes back, and one that does not -/

/-- The property `X:p` with `X` declared as `urn:x`. -/
def p_name : PropName where
  pre := some "X"
  localname := "p"
  ns := "urn:x".toList.map .Lit
  pre_legal := by
    rintro p hp
    rw [Option.some.injEq] at hp
    rw [← hp]
    exact ⟨by decide, List.all_eq_true.mp (by decide)⟩
  local_legal := ⟨by decide, List.all_eq_true.mp (by decide)⟩
  no_keyword := by decide
  not_live := by decide
  ns_legal := by
    have hchars : "urn:x".toList.all (fun c => xml_char c && c ≠ '<' && c ≠ '&') = true := by
      decide
    intro p hp
    obtain ⟨c, hc, rfl⟩ := List.mem_map.mp hp
    have hlegal := List.all_eq_true.mp hchars c hc
    simp only [Bool.and_eq_true, decide_eq_true_eq] at hlegal
    exact ⟨hlegal.1.1, hlegal.1.2, hlegal.2⟩
  ns_attribute := by
    intro content hmem
    obtain ⟨c, -, hc⟩ := List.mem_map.mp hmem
    cases hc
  ns_declared := by decide
  ns_uri := List.all_eq_true.mp (by decide)

theorem lit_legal {c : Char} (h : xml_char c = true ∧ c ≠ '<' ∧ c ≠ '&') :
    (Piece.Lit c).Legal := h

/-- The value `a1`, with its figure written as a reference. -/
def plain_body : Body where
  name := p_name
  content := [.Lit 'a', .CharRef false ['4', '9']]
  legal :=
    { pieces := by
        intro p hp
        rw [List.mem_pair] at hp
        rcases hp with rfl | rfl
        · exact lit_legal (by decide)
        · exact ⟨by decide, '1', by decide, by decide⟩
      no_close := by decide }

/-- The value `a>b`, written `a&gt;b`. -/
def entity_body : Body where
  name := p_name
  content := [.Lit 'a', .EntityRef .gt, .Lit 'b']
  legal :=
    { pieces := by
        intro p hp
        simp only [List.mem_cons, List.not_mem_nil, or_false] at hp
        rcases hp with rfl | rfl | rfl
        · exact lit_legal (by decide)
        · trivial
        · exact lit_legal (by decide)
      no_close := by decide }

/-- A reader that delivers the body's events reads it when the texts have no markup. -/
theorem reads_events {b : Body}
    (h : ∀ content ∈ b.events.filterMap text_of, '<' ∉ content ∧ '&' ∉ content) :
    Reads (fun _ => b.events) b where
  delivers := fun _ _ => rfl
  plain := by
    intro content hmem
    exact h content (List.mem_filterMap.mpr ⟨_, hmem, rfl⟩)

theorem reads_plain : Reads (fun _ => plain_body.events) plain_body :=
  reads_events (by decide +kernel)

theorem reads_entity : Reads (fun _ => entity_body.events) entity_body :=
  reads_events (by decide +kernel)

theorem plain_taken : plain_body.Taken where
  fits := by decide +kernel
  namespace_text := by
    intro p hp
    obtain ⟨c, -, rfl⟩ := List.mem_map.mp hp
    trivial
  no_markup := by decide
  kept :=
    { one_run := by
        refine ⟨plain_body.content, ?_, 0, 0, by simp⟩
        intro p hp
        rcases List.mem_pair.mp hp with rfl | rfl
        · trivial
        · trivial
      no_cr := by decide
      tight := by
        have hvalue : value plain_body.content = ['a', '1'] := by decide
        rw [hvalue]
        constructor
        · intro c hc
          cases hc
          decide
        · intro c hc
          cases hc
          decide
      apart := by
        rintro (⟨-, hex, digits, hnext, href⟩ | ⟨hlit, -⟩ | hnil)
        · cases hnext
          revert href
          decide
        · cases hlit
        · exact hnil }

theorem round_trip_iff_plain :
    ComesBack (fun _ => plain_body.events) server_d "/d".toList plain_body 0 [p_name.key] :=
  (round_trip_iff resolves_d reads_plain 0 [p_name.key]).1 plain_taken

/-- A value with a reference to an entity does not come back. -/
theorem entity_lost :
    ¬ ∀ (reader : List Char → List (ReadEvent Tag)) (s : Server) path fs_path b fuel,
      s.resolve_existing path = some fs_path → Reads reader b →
      ComesBack reader s path b fuel [b.name.key] := by
  intro hall
  have hback := hall (fun _ => entity_body.events) server_d _ _ _ 0 resolves_d reads_entity
  obtain ⟨op, hop, t, hlookup, hvalue⟩ := (comes_back_iff resolves_d _ _ _).mp hback
  have hparse := (body_iff.mp hop).2
  rw [parse_body rfl (fun content hmem => (reads_entity.plain content hmem).2),
    Except.ok.injEq] at hparse
  rcases lookup_patched hlookup with ⟨a, ha, -, hset⟩ | hold
  · -- the text before the reference
    rw [← hparse, List.mem_singleton] at ha
    rw [ha] at hset
    rw [← Option.some.inj hset] at hvalue
    revert hvalue
    decide
  · cases hold

end Rshs.RoundTrip
