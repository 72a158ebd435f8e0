/-
The keys of property elements and the expanded names of XML namespaces.

A namespace declaration is in scope for the element that carries it and for
everything inside, so the namespace of an element depends on all the tags that are
open around it. `extract_element_ns` sees one tag. A `Site` is an element with the
tags around it, `in_scope` is the namespace it has, and `propfind_sites` and
`proppatch_sites` are the elements a parser made its keys from, in the order of its
result. The keys are the expanded names exactly when each of these elements declares
its namespace itself (`keys_expanded_iff`).

The elements of a body carry the attribute values as they are written. In a PROPPATCH
the reader finds them with their character references decoded.
-/
import Rshs.PropBody

set_option autoImplicit false

namespace Rshs.Scope

open Rshs.Webdav Rshs.Xml Rshs.PropBody

/-! ## Namespaces in scope -/

/-- What a reference stands for. -/
def ref_char (name : List Char) : Option Char :=
  if name = "amp".toList then some '&'
  else if name = "lt".toList then some '<'
  else if name = "gt".toList then some '>'
  else if name = "quot".toList then some '"'
  else if name = "apos".toList then some (Char.ofNat 39)
  else
    match name with
    | '#' :: 'x' :: digits => char_of_digits 16 digits
    | '#' :: digits => char_of_digits 10 digits
    | _ => none

/-- The value of an attribute, from its raw text: references replaced, and one space for
each written white-space character or line end. -/
def attribute_value : ℕ → List Char → List Char
  | 0, _ => []
  | _, [] => []
  | fuel + 1, '\r' :: '\n' :: rest => ' ' :: attribute_value fuel rest
  | fuel + 1, c :: rest =>
    if c = '&' then
      match Str.split_once ';' rest with
      | some (name, rest) => (ref_char name).toList ++ attribute_value fuel rest
      | none => attribute_value fuel rest
    else if c = '\t' ∨ c = '\n' ∨ c = '\r' then ' ' :: attribute_value fuel rest
    else c :: attribute_value fuel rest

/-- The namespace a raw attribute value denotes. -/
def uri (raw : String) : String := String.ofList (attribute_value raw.toList.length raw.toList)

example : uri "http://e/?a&amp;b=&#x41;" = "http://e/?a&b=A" := by decide +kernel

/-- An element and the tags open around it, the nearest first. -/
structure Site where
  tag : Tag
  around : List Tag
deriving DecidableEq

/-- The attribute that declares a prefix, or the default namespace. -/
def declaration : Option String → String
  | some p => "xmlns:" ++ p
  | none => "xmlns"

/-- The namespace a prefix has in no element, as the recommendation has it. -/
def initial_scope : Option String → Option String
  | some p => if p = "xml" then some "http://www.w3.org/XML/1998/namespace" else none
  | none => some ""

/-- The namespace a prefix has inside some tags, nearest first: none when it is
undeclared. -/
def in_scope (p : Option String) : List Tag → Option String
  | [] => initial_scope p
  | tag :: around =>
    match tag.attribute (declaration p) with
    | some raw => some (uri raw)
    | none => in_scope p around

def Site.namespace (s : Site) : Option String :=
  in_scope (split_name s.tag.name).1 (s.tag :: s.around)

def Site.localname (s : Site) : String := (split_name s.tag.name).2

/-- The expanded name of an element. -/
def Site.expanded (s : Site) : String × String := (s.namespace.getD "", s.localname)

def Site.expanded_key (s : Site) : String := clark_key s.expanded.1 s.expanded.2

/-- What the namespace rules ask of an element: its prefix is declared, no prefix is
declared to be nothing, and its local name has no brace. -/
structure Site.Legal (s : Site) : Prop where
  declared : s.namespace ≠ none
  prefixes : ∀ tag ∈ s.tag :: s.around, ∀ p raw,
    tag.attribute ("xmlns:" ++ p) = some raw → uri raw ≠ ""
  no_open : '\x7b' ∉ s.localname.toList
  no_close : '\x7d' ∉ s.localname.toList

/-! ## The elements keys are made from -/

/-- Each element of a body with the tags around it. -/
def in_context : List Tag → List (ReadEvent Tag) → List (ReadEvent Site)
  | _, [] => []
  | around, .Start e :: events => .Start ⟨e, around⟩ :: in_context (e :: around) events
  | around, .Empty e :: events => .Empty ⟨e, around⟩ :: in_context around events
  | around, .End name :: events => .End name :: in_context around.tail events
  | around, .Text content :: events => .Text content :: in_context around events
  | around, .CData content :: events => .CData content :: in_context around events
  | around, .GeneralRef name :: events => .GeneralRef name :: in_context around events
  | around, .Other :: events => .Other :: in_context around events
  | around, .Err :: events => .Err :: in_context around events

theorem in_context_map (f : Tag → Tag) (around : List Tag) (events : List (ReadEvent Tag)) :
    (in_context around events).map (ReadEvent.map fun s => f s.tag)
      = events.map (ReadEvent.map f) := by
  induction events generalizing around with
  | nil => rfl
  | cons event events ih =>
    cases event with
    | Start e => exact congrArg _ (ih _)
    | Empty e => exact congrArg _ (ih _)
    | End name => exact congrArg _ (ih _)
    | Text content => exact congrArg _ (ih _)
    | CData content => exact congrArg _ (ih _)
    | GeneralRef name => exact congrArg _ (ih _)
    | Other => exact congrArg _ (ih _)
    | Err => exact congrArg _ (ih _)

/-- A tag with its attribute values as the reader finds them. -/
def Tag.seen (f : String → String) (e : Tag) : Tag where
  name := e.name
  attributes := e.attributes.map fun a => (a.1, f a.2)

/-- A raw value after the decoding of character references. -/
def decoded (raw : String) : String := String.ofList (decode_xml_char_refs raw.toList)

/-- The local name of an element, and the element for its key. -/
def site_key (f : String → String) (s : Site) : Except ParseError (String × Site) :=
  (extract_element_ns (Tag.seen f s.tag)).map fun p => (p.2, s)

/-- The key the parsers make of an element. -/
def own_key (f : String → String) (s : Site) : String :=
  match extract_element_ns (Tag.seen f s.tag) with
  | .ok p => clark_key p.1 p.2
  | .error _ => ""

theorem element_key_seen (f : String → String) (s : Site) :
    element_key (Tag.seen f s.tag) = (site_key f s).map fun p => (p.1, own_key f p.2) := by
  unfold element_key site_key own_key
  cases h : extract_element_ns (Tag.seen f s.tag) with
  | error err => rfl
  | ok p => simp [Except.map, h]

/-- The elements of a PROPFIND body that keys were made from. -/
def propfind_sites (body : List (ReadEvent Tag)) : List Site :=
  match propfind_loop (site_key id) {} (in_context [] body) with
  | .ok s => s.props
  | .error _ => []

/-- The elements of a PROPPATCH body that the keys of its actions were made from. -/
def proppatch_sites (body : List (ReadEvent Tag)) : List Site :=
  match proppatch_loop (site_key decoded) {} (in_context [] body) with
  | .ok s => s.actions.map Prod.fst
  | .error _ => []

/-- The events of a PROPPATCH body whose references have been decoded. -/
def decoded_events (body : List (ReadEvent Tag)) : List (ReadEvent Tag) :=
  body.map (ReadEvent.map (Tag.seen decoded))

theorem seen_id (e : Tag) : Tag.seen id e = e := by
  obtain ⟨name, attributes⟩ := e
  unfold Tag.seen
  simp

theorem propfind_keys {reader : List Char → List (ReadEvent Tag)} {xml : List Char}
    {body : List (ReadEvent Tag)} {keys : List String} (hread : reader xml = body)
    (h : parse_propfind_request reader xml = .ok (.Named keys)) :
    keys = (propfind_sites body).map (own_key id) := by
  have hbody : body = (in_context [] body).map (ReadEvent.map fun s => Tag.seen id s.tag) := by
    rw [in_context_map (Tag.seen id)]
    have hid : ReadEvent.map (Tag.seen id) = id := by
      funext event
      cases event <;> simp [ReadEvent.map, seen_id]
    rw [hid, List.map_id]
  have hloop : propfind_loop element_key {} body
      = (propfind_loop (site_key id) {} (in_context [] body)).map (FindState.map (own_key id)) := by
    conv_lhs => rw [hbody]
    rw [propfind_loop_rename]
    exact propfind_loop_map (own_key id) (element_key_seen id) {} _
  unfold parse_propfind_request at h
  rw [hread, hloop] at h
  unfold propfind_sites
  cases hrun : propfind_loop (site_key id) {} (in_context [] body) with
  | error err =>
    rw [hrun] at h
    cases h
  | ok s =>
    rw [hrun] at h
    simp only [Except.map] at h
    split at h
    · cases h
    · split at h
      · cases h
      · split at h
        · cases h
        · cases h
          rfl

/-- The loop on a decoded body makes its keys of the elements it makes of the body. -/
theorem proppatch_loop_sites (body : List (ReadEvent Tag)) :
    proppatch_loop element_key {} (decoded_events body)
      = (proppatch_loop (site_key decoded) {} (in_context [] body)).map
          (PatchState.map (own_key decoded)) := by
  unfold decoded_events
  rw [← in_context_map (Tag.seen decoded) [], proppatch_loop_rename]
  exact proppatch_loop_map (own_key decoded) (element_key_seen decoded) {} _

theorem proppatch_keys {reader : List Char → List (ReadEvent Tag)} {xml : List Char}
    {body : List (ReadEvent Tag)} {op : PropPatchOp}
    (hread : reader (decode_xml_char_refs xml) = decoded_events body)
    (h : parse_proppatch_request reader xml = .ok op) :
    op.actions.map PropPatchAction.name = (proppatch_sites body).map (own_key decoded) := by
  unfold parse_proppatch_request at h
  rw [hread, proppatch_loop_sites] at h
  unfold proppatch_sites
  cases hrun : proppatch_loop (site_key decoded) {} (in_context [] body) with
  | error err =>
    rw [hrun] at h
    cases h
  | ok s =>
    rw [hrun] at h
    simp only [Except.map] at h
    split at h
    · cases h
    · cases h
      dsimp only
      rw [PatchState.map, List.map_map, List.map_map, List.map_map]
      rfl

/-! ## A key and the expanded name -/

theorem clark_key_toList {ns localname : String} (h : ns ≠ "") :
    (clark_key ns localname).toList = '{' :: (ns.toList ++ '}' :: localname.toList) := by
  unfold clark_key
  rw [if_neg h]
  simp

/-- Keys of one local name tell the namespaces apart. -/
theorem clark_key_namespace {ns ns' localname : String}
    (h : clark_key ns localname = clark_key ns' localname) : ns = ns' := by
  have hlist := congrArg String.toList h
  have hlen := congrArg List.length hlist
  by_cases hns : ns = ""
  · by_cases hns' : ns' = ""
    · rw [hns, hns']
    · rw [clark_key_toList hns', clark_key, if_pos hns] at hlen
      simp only [List.length_cons, List.length_append] at hlen
      omega
  · by_cases hns' : ns' = ""
    · rw [clark_key_toList hns, clark_key, if_pos hns'] at hlen
      simp only [List.length_cons, List.length_append] at hlen
      omega
    · rw [clark_key_toList hns, clark_key_toList hns', List.cons.injEq] at hlist
      exact String.toList_inj.mp (List.append_cancel_right hlist.2)

/-- A list cut at its last closing brace. -/
theorem cut_last {as bs cs ds : List Char} {c : Char} (hb : c ∉ bs) (hd : c ∉ ds)
    (h : as ++ c :: bs = cs ++ c :: ds) : as = cs ∧ bs = ds := by
  have hrev := congrArg List.reverse h
  simp only [List.reverse_append, List.reverse_cons, List.append_assoc, List.singleton_append]
    at hrev
  have hsplit : ∀ xs ys : List Char, c ∉ xs → xs = (xs ++ c :: ys).takeWhile (· ≠ c) := by
    intro xs ys hxs
    rw [List.takeWhile_append_of_pos]
    · simp
    · intro a ha
      have : a ≠ c := fun heq => hxs (by rw [← heq]; exact ha)
      simpa using this
  have hbs : bs.reverse = ds.reverse := by
    rw [hsplit bs.reverse as.reverse (by simpa using hb), hrev,
      ← hsplit ds.reverse cs.reverse (by simpa using hd)]
  have hbd : bs = ds := List.reverse_injective hbs
  rw [hbd] at h
  exact ⟨List.append_cancel_right h, hbd⟩

/-- **A Clark key is an expanded name**, for local names without braces. -/
theorem clark_key_injective {ns ns' l l' : String} (ho : '{' ∉ l.toList) (hc : '}' ∉ l.toList)
    (ho' : '{' ∉ l'.toList) (hc' : '}' ∉ l'.toList) (h : clark_key ns l = clark_key ns' l') :
    ns = ns' ∧ l = l' := by
  have hlist := congrArg String.toList h
  by_cases hns : ns = ""
  · by_cases hns' : ns' = ""
    · rw [clark_key, clark_key, if_pos hns, if_pos hns'] at h
      exact ⟨by rw [hns, hns'], h⟩
    · rw [clark_key_toList hns', clark_key, if_pos hns] at hlist
      rw [hlist] at ho
      exact absurd List.mem_cons_self ho
  · by_cases hns' : ns' = ""
    · rw [clark_key_toList hns, clark_key, if_pos hns'] at hlist
      rw [← hlist] at ho'
      exact absurd List.mem_cons_self ho'
    · rw [clark_key_toList hns, clark_key_toList hns', List.cons.injEq] at hlist
      obtain ⟨hn, hl⟩ := cut_last hc hc' hlist.2
      exact ⟨String.toList_inj.mp hn, String.toList_inj.mp hl⟩

/-! ## When a key is the expanded name -/

/-- The element itself declares its namespace, and the value is found as it is meant;
or the element has no prefix, declares no default namespace, and none is in scope. -/
def Site.DeclaresItself (f : String → String) (s : Site) : Prop :=
  match s.tag.attribute (declaration (split_name s.tag.name).1) with
  | some raw => f raw = uri raw
  | none => (split_name s.tag.name).1 = none ∧ in_scope none s.around = some ""

theorem attribute_seen (f : String → String) (e : Tag) (key : String) :
    (Tag.seen f e).attribute key = (e.attribute key).map f := by
  unfold Tag.attribute Tag.seen
  dsimp only
  induction e.attributes with
  | nil => rfl
  | cons a attributes ih =>
    rw [List.map_cons]
    by_cases ha : a.1 = key
    · rw [List.find?_cons_of_pos (by simpa using ha), List.find?_cons_of_pos (by simpa using ha)]
      rfl
    · rw [List.find?_cons_of_neg (by simpa using ha), List.find?_cons_of_neg (by simpa using ha)]
      exact ih

/-- No prefix has an empty namespace. -/
theorem in_scope_ne_empty {p u : String} {tags : List Tag}
    (hlegal : ∀ tag ∈ tags, ∀ p raw, tag.attribute ("xmlns:" ++ p) = some raw → uri raw ≠ "")
    (h : in_scope (some p) tags = some u) : u ≠ "" := by
  induction tags with
  | nil =>
    unfold in_scope initial_scope at h
    dsimp only at h
    split at h
    · rw [Option.some.injEq] at h
      rw [← h]
      decide
    · cases h
  | cons tag tags ih =>
    unfold in_scope at h
    split at h
    · rename_i raw hraw
      rw [Option.some.injEq] at h
      rw [← h]
      exact hlegal tag List.mem_cons_self p raw hraw
    · exact ih (fun t ht => hlegal t (List.mem_cons_of_mem _ ht)) h

/-- What `extract_element_ns` makes of a tag whose values it finds changed by `f`. -/
theorem extract_seen {f : String → String} {e : Tag} {ns localname : String}
    (h : extract_element_ns (Tag.seen f e) = .ok (ns, localname)) :
    localname = (split_name e.name).2 ∧
      ns = ((e.attribute (declaration (split_name e.name).1)).map f).getD "" := by
  have hname : (Tag.seen f e).name = e.name := rfl
  unfold extract_element_ns at h
  rw [hname] at h
  cases hsplit : split_name e.name with
  | mk p l =>
    rw [hsplit] at h
    cases p with
    | none =>
      dsimp only at h
      rw [attribute_seen] at h
      cases h
      exact ⟨rfl, rfl⟩
    | some p =>
      dsimp only at h
      rw [attribute_seen] at h
      unfold declaration
      dsimp only
      cases hattr : e.attribute ("xmlns:" ++ p) with
      | none =>
        rw [hattr] at h
        cases h
        exact ⟨rfl, rfl⟩
      | some raw =>
        rw [hattr] at h
        dsimp only [Option.map_some] at h
        split at h
        · cases h
        · cases h
          exact ⟨rfl, rfl⟩

/-- **One key**: it is the expanded name exactly when the element declares it. -/
theorem own_key_iff {f : String → String} {s : Site} {p : String × String} (hlegal : s.Legal)
    (hok : extract_element_ns (Tag.seen f s.tag) = .ok p) :
    own_key f s = s.expanded_key ↔ s.DeclaresItself f := by
  obtain ⟨ns, localname⟩ := p
  obtain ⟨hlocal, hns⟩ := extract_seen hok
  obtain ⟨u, hu⟩ := Option.ne_none_iff_exists'.mp hlegal.declared
  have hkey : own_key f s = s.expanded_key ↔ ns = u := by
    have hown : own_key f s = clark_key ns s.localname := by
      unfold own_key
      rw [hok]
      dsimp only
      rw [hlocal]
      rfl
    have hexpanded : s.expanded_key = clark_key u s.localname := by
      unfold Site.expanded_key Site.expanded
      rw [hu]
      rfl
    rw [hown, hexpanded]
    constructor
    · intro h
      exact clark_key_namespace h
    · intro h
      rw [h]
  rw [hkey]
  unfold Site.DeclaresItself
  unfold Site.namespace at hu
  cases hattr : s.tag.attribute (declaration (split_name s.tag.name).1) with
  | some raw =>
    rw [hattr, Option.map_some, Option.getD_some] at hns
    rw [in_scope, hattr] at hu
    cases hu
    rw [hns]
  | none =>
    rw [hattr, Option.map_none, Option.getD_none] at hns
    rw [in_scope, hattr] at hu
    dsimp only at hu ⊢
    rw [hns]
    cases hp : (split_name s.tag.name).1 with
    | none =>
      rw [hp] at hu
      rw [hu]
      simp [eq_comm]
    | some prefix_name =>
      -- the prefix is declared further out, and its namespace is not empty
      rw [hp] at hu
      have hne := in_scope_ne_empty (fun t ht => hlegal.prefixes t (List.mem_cons_of_mem _ ht)) hu
      constructor
      · intro h
        exact absurd h.symm hne
      · intro h
        cases h.1

/-- An element the parsers can make a key from. -/
def Extracted (f : String → String) (s : Site) : Prop :=
  ∃ p, extract_element_ns (Tag.seen f s.tag) = .ok p

/-- `site_key`, with the element known to have a key. -/
def extracted_key (f : String → String) (s : Site) :
    Except ParseError (String × { s : Site // Extracted f s }) :=
  match h : extract_element_ns (Tag.seen f s.tag) with
  | .ok p => .ok (p.2, ⟨s, p, h⟩)
  | .error err => .error err

theorem site_key_extracted (f : String → String) (s : Site) :
    site_key f s = (extracted_key f s).map fun p => (p.1, p.2.val) := by
  unfold site_key extracted_key
  split
  · rename_i p h
    exact congrArg (Except.map fun p => (p.2, s)) h
  · rename_i err h
    exact congrArg (Except.map fun p => (p.2, s)) h

theorem propfind_sites_extracted (body : List (ReadEvent Tag)) :
    ∀ s ∈ propfind_sites body, Extracted id s := by
  intro s hs
  have hloop := propfind_loop_map Subtype.val (site_key_extracted id) {} (in_context [] body)
  change propfind_loop (site_key id) {} _ = _ at hloop
  unfold propfind_sites at hs
  rw [hloop] at hs
  cases hrun : propfind_loop (extracted_key id) {} (in_context [] body) with
  | error err =>
    rw [hrun] at hs
    simp [Except.map] at hs
  | ok t =>
    rw [hrun] at hs
    simp only [Except.map, FindState.map] at hs
    obtain ⟨e, -, rfl⟩ := List.mem_map.mp hs
    exact e.property

theorem proppatch_sites_extracted (body : List (ReadEvent Tag)) :
    ∀ s ∈ proppatch_sites body, Extracted decoded s := by
  intro s hs
  have hloop := proppatch_loop_map Subtype.val (site_key_extracted decoded) {} (in_context [] body)
  change proppatch_loop (site_key decoded) {} _ = _ at hloop
  unfold proppatch_sites at hs
  rw [hloop] at hs
  cases hrun : proppatch_loop (extracted_key decoded) {} (in_context [] body) with
  | error err =>
    rw [hrun] at hs
    simp [Except.map] at hs
  | ok t =>
    rw [hrun] at hs
    simp only [Except.map, PatchState.map, List.map_map] at hs
    obtain ⟨a, -, rfl⟩ := List.mem_map.mp hs
    exact a.1.property

theorem keys_iff {f : String → String} {sites : List Site} (hlegal : ∀ s ∈ sites, s.Legal)
    (hextracted : ∀ s ∈ sites, Extracted f s) :
    sites.map (own_key f) = sites.map Site.expanded_key ↔ ∀ s ∈ sites, s.DeclaresItself f := by
  rw [List.map_inj_left]
  constructor
  · intro h s hs
    obtain ⟨p, hp⟩ := hextracted s hs
    exact (own_key_iff (hlegal s hs) hp).mp (h s hs)
  · intro h s hs
    obtain ⟨p, hp⟩ := hextracted s hs
    exact (own_key_iff (hlegal s hs) hp).mpr (h s hs)

/-- **Keys are expanded names exactly when the elements declare their namespaces
themselves**, in both bodies; and keys that are expanded names tell elements apart as
the expanded names do. -/
theorem keys_expanded_iff (reader : List Char → List (ReadEvent Tag)) (xml : List Char)
    (body : List (ReadEvent Tag)) :
    (∀ keys, reader xml = body → (∀ s ∈ propfind_sites body, s.Legal) →
        parse_propfind_request reader xml = .ok (.Named keys) →
        keys = (propfind_sites body).map (own_key id) ∧
          (keys = (propfind_sites body).map Site.expanded_key ↔
            ∀ s ∈ propfind_sites body, s.DeclaresItself id)) ∧
      (∀ op, reader (decode_xml_char_refs xml) = decoded_events body →
        (∀ s ∈ proppatch_sites body, s.Legal) →
        parse_proppatch_request reader xml = .ok op →
        op.actions.map PropPatchAction.name = (proppatch_sites body).map (own_key decoded) ∧
          (op.actions.map PropPatchAction.name = (proppatch_sites body).map Site.expanded_key ↔
            ∀ s ∈ proppatch_sites body, s.DeclaresItself decoded)) ∧
      ∀ s t : Site, s.Legal → t.Legal →
        (s.expanded_key = t.expanded_key ↔ s.expanded = t.expanded) := by
  refine ⟨?_, ?_, ?_⟩
  · intro keys hread hlegal h
    have hkeys := propfind_keys hread h
    refine ⟨hkeys, ?_⟩
    rw [hkeys]
    exact keys_iff hlegal (propfind_sites_extracted body)
  · intro op hread hlegal h
    have hkeys := proppatch_keys hread h
    refine ⟨hkeys, ?_⟩
    rw [hkeys]
    exact keys_iff hlegal (proppatch_sites_extracted body)
  · intro s t hs ht
    constructor
    · intro h
      obtain ⟨hns, hlocal⟩ := clark_key_injective hs.no_open hs.no_close ht.no_open ht.no_close h
      exact Prod.ext hns hlocal
    · intro h
      unfold Site.expanded_key
      rw [h]

/-! ## Two properties with one key -/

/-- A site is legal when no attribute around it is empty. -/
theorem legal_of_values {s : Site} (hdeclared : s.namespace ≠ none)
    (hvalues : ∀ tag ∈ s.tag :: s.around, ∀ a ∈ tag.attributes, uri a.2 ≠ "")
    (hopen : '\x7b' ∉ s.localname.toList) (hclose : '\x7d' ∉ s.localname.toList) : s.Legal where
  declared := hdeclared
  prefixes := by
    intro tag htag p raw hraw
    obtain ⟨a, ha, rfl⟩ := Option.map_eq_some_iff.mp hraw
    exact hvalues tag htag a (List.mem_of_find?_eq_some ha)
  no_open := hopen
  no_close := hclose

def root_tag : Tag where
  name := "D:propfind"
  attributes := [("xmlns:D", "DAV:"), ("xmlns:X", "urn:a"), ("xmlns:Y", "urn:b")]

def prop_tag : Tag where
  name := "D:prop"
  attributes := []

/-- A PROPFIND for two properties in different namespaces, whose prefixes are declared on the
root. -/
def two_names_text : List Char :=
  ("<D:propfind xmlns:D=\"DAV:\" xmlns:X=\"urn:a\" xmlns:Y=\"urn:b\">" ++
    "<D:prop><X:p/><Y:p/></D:prop></D:propfind>").toList

/-- Its events. -/
def two_names : List (ReadEvent Tag) :=
  [.Start root_tag, .Start prop_tag, .Empty { name := "X:p", attributes := [] },
    .Empty { name := "Y:p", attributes := [] }, .End "D:prop", .End "D:propfind"]

/-- A PROPPATCH that sets a property with a namespace of its own. -/
def one_set_text : List Char :=
  ("<D:propfind xmlns:D=\"DAV:\" xmlns:X=\"urn:a\" xmlns:Y=\"urn:b\">" ++
    "<D:set><D:prop><Z:p xmlns:Z=\"urn:&#x63;\">v</Z:p></D:prop></D:set></D:propfind>").toList

/-- Its events, before the reference is decoded. -/
def one_set : List (ReadEvent Tag) :=
  [.Start root_tag, .Start { name := "D:set", attributes := [] }, .Start prop_tag,
    .Start { name := "Z:p", attributes := [("xmlns:Z", "urn:&#x63;")] }, .Text "v".toList,
    .End "Z:p", .End "D:prop", .End "D:set", .End "D:propfind"]

theorem two_names_legal : ∀ s ∈ propfind_sites two_names, s.Legal := by
  have hsites : propfind_sites two_names
      = [⟨{ name := "X:p", attributes := [] }, [prop_tag, root_tag]⟩,
        ⟨{ name := "Y:p", attributes := [] }, [prop_tag, root_tag]⟩] := by
    decide +kernel
  intro s hs
  rw [hsites, List.mem_pair] at hs
  rcases hs with rfl | rfl
  · apply legal_of_values <;> decide +kernel
  · apply legal_of_values <;> decide +kernel

theorem one_set_legal : ∀ s ∈ proppatch_sites one_set, s.Legal := by
  have hsites : proppatch_sites one_set
      = [⟨{ name := "Z:p", attributes := [("xmlns:Z", "urn:&#x63;")] },
        [prop_tag, { name := "D:set", attributes := [] }, root_tag]⟩] := by
    decide +kernel
  intro s hs
  rw [hsites, List.mem_singleton] at hs
  rw [hs]
  apply legal_of_values <;> decide +kernel

theorem two_names_parsed :
    parse_propfind_request (reads_as two_names_text two_names) two_names_text
      = .ok (.Named ["p", "p"]) := by
  unfold parse_propfind_request
  rw [reads_as_text]
  rfl

/-- The reader is given the decoded text. -/
theorem one_set_parsed :
    parse_proppatch_request (reads_as (decode_xml_char_refs one_set_text) (decoded_events one_set))
        one_set_text
      = .ok { actions := [⟨"\x7burn:c\x7dp", some "v"⟩] } := by
  unfold parse_proppatch_request
  rw [reads_as_text]
  rfl

theorem keys_expanded_iff_two_names :
    (["p", "p"] = (propfind_sites two_names).map Site.expanded_key ↔
        ∀ s ∈ propfind_sites two_names, s.DeclaresItself id) ∧
      (["\x7burn:c\x7dp"] = (proppatch_sites one_set).map Site.expanded_key ↔
        ∀ s ∈ proppatch_sites one_set, s.DeclaresItself decoded) :=
  ⟨((keys_expanded_iff _ two_names_text two_names).1 _ (reads_as_text _ _) two_names_legal
      two_names_parsed).2,
    ((keys_expanded_iff _ one_set_text one_set).2.1 { actions := [⟨"\x7burn:c\x7dp", some "v"⟩] }
      (reads_as_text _ _) one_set_legal one_set_parsed).2⟩

/-- Two properties in different namespaces get one key when the prefixes are declared on
the root. -/
theorem key_of_undeclared_prefix :
    ¬ ∀ (reader : List Char → List (ReadEvent Tag)) xml body keys, reader xml = body →
      (∀ s ∈ propfind_sites body, s.Legal) →
      parse_propfind_request reader xml = .ok (.Named keys) →
      keys = (propfind_sites body).map Site.expanded_key := by
  intro hall
  have hkeys := hall _ two_names_text two_names _ (reads_as_text _ _) two_names_legal
    two_names_parsed
  revert hkeys
  decide +kernel

end Rshs.Scope
