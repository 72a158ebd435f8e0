/-
What becomes of the name of a property on its way through a key.

A namespace is an attribute value, written with references. The parsers take it as it
is written: PROPPATCH after a decoding of character references, PROPFIND without. The
key puts it between braces, and three writers cut the key at the first closing brace
and give what is before it to the XML writer, which escapes it once more. So a
reference comes back as its own text, and a brace moves a part of the namespace to the
local name.

`read_back` is the name an XML parser finds on a written element. `Survives` says that
it is the name of the property, in the answer to the PROPPATCH, among the dead
properties of a PROPFIND and among the properties that are not found.
-/
import Rshs.RoundTrip
import Rshs.Named

set_option autoImplicit false

namespace Rshs.PropNames

open FinMap Rshs.Webdav Rshs.Xml Rshs.PropBody Rshs.Scope Rshs.Named

/-! ## The answer to a PROPPATCH -/

/-- `write_proppatch_result`. -/
def write_proppatch_result (href : List Char) (prop_name status : String) : Response where
  href := href
  propstats := [{
    props := [[.Empty (key_parts prop_name).2 (ns_attributes (key_parts prop_name).1)]]
    status := "HTTP/1.1 " ++ status }]

/-- `build_proppatch_response`, one response for each action. -/
def build_proppatch_response (request_path : List Char) (op : PropPatchOp) : List Response :=
  op.actions.map fun action => write_proppatch_result request_path action.name "200 OK"

/-! ## Attribute values -/

/-- An attribute value as it may be written: every ampersand begins a reference. -/
inductive AttValue : List Char → Prop
  | nil : AttValue []
  | char {c : Char} {rest : List Char} (hc : c ≠ '&') (h : AttValue rest) : AttValue (c :: rest)
  | ref {name rest : List Char} {c : Char} (hname : ref_char name = some c) (hend : ';' ∉ name)
      (h : AttValue rest) : AttValue ('&' :: (name ++ ';' :: rest))

/-- White space as an attribute value keeps it. -/
def spaced : List Char → List Char
  | [] => []
  | '\r' :: '\n' :: rest => ' ' :: spaced rest
  | c :: rest => (if c = '\t' ∨ c = '\n' ∨ c = '\r' then ' ' else c) :: spaced rest

/-- What the XML writer puts between the quotes. -/
def escaped (s : List Char) : List Char := CharData.text (CharData.escape s)

/-- The name an XML parser finds on a written element. -/
def read_back (element : List Event) : Option (String × String) :=
  (expanded element).map fun p => (uri (String.ofList (escaped p.1.toList)), p.2)

/-! ## The name of a property and what is read back -/

section Survival

variable (s : Site)

/-- The name of a property whose element declares its namespace with some raw text. -/
def name_of (raw : String) : String × String := (uri raw, s.localname)

/-- The answer has an element with the property's name. -/
def Names (raw : String) (props : List (List Event)) : Prop :=
  ∃ element ∈ props, read_back element = some (name_of s raw)

/-- The name is read back, wherever the property is written. For a PROPPATCH whose
`i`-th property element it is: in the `i`-th response, and in a PROPFIND of an entry
that has it. For a PROPFIND that asks for it: among what is not found, if the entry does
not have it. -/
structure Survives (raw : String) : Prop where
  written : ∀ (reader : List Char → List (ReadEvent Tag)) (xml : List Char)
    (body : List (ReadEvent Tag)) (op : PropPatchOp) (request_path : List Char) (i : ℕ),
    reader (decode_xml_char_refs xml) = decoded_events body →
    parse_proppatch_request reader xml = .ok op → (proppatch_sites body)[i]? = some s →
    ∃ action r ps, op.actions[i]? = some action ∧
      (build_proppatch_response request_path op)[i]? = some r ∧ r.propstats = [ps] ∧
      Names s raw ps.props ∧
      ∀ entry, HasDead entry action.name → Names s raw (dead_elements entry)
  missing : ∀ entry names, own_key id s ∈ names → ¬ HasDead entry (own_key id s) →
    Names s raw (write_propstat_404 (not_found entry (.Named names))).props

end Survival

/-! ## Escaping and reading -/

/-- Without references a value is read as it is written, but for its white space. -/
theorem attribute_value_plain {fuel : ℕ} {raw : List Char} (h : '&' ∉ raw)
    (hfuel : raw.length ≤ fuel) : attribute_value fuel raw = spaced raw := by
  induction raw using spaced.induct generalizing fuel with
  | case1 =>
    cases fuel with
    | zero => rfl
    | succ fuel => rfl
  | case2 rest ih =>
    simp only [List.length_cons] at hfuel
    obtain ⟨fuel, rfl⟩ : ∃ k, fuel = k + 1 := ⟨fuel - 1, by omega⟩
    rw [attribute_value, spaced, ih (by simp_all) (by omega)]
  | case3 c rest hcr ih =>
    simp only [List.length_cons] at hfuel
    obtain ⟨fuel, rfl⟩ : ∃ k, fuel = k + 1 := ⟨fuel - 1, by omega⟩
    simp only [List.mem_cons, not_or] at h
    rw [attribute_value, spaced, if_neg (Ne.symm h.1), ih h.2 (by omega)]
    · split
      · rfl
      · rfl
    · exact hcr
    · exact hcr

theorem escaped_cons (c : Char) (s : List Char) :
    escaped (c :: s) = (CharData.escape_char c).text ++ escaped s := rfl

theorem attribute_value_ref {name rest : List Char} {c : Char} (fuel : ℕ)
    (hname : ref_char name = some c) (hend : ';' ∉ name) :
    attribute_value (fuel + 1) ('&' :: (name ++ ';' :: rest)) = c :: attribute_value fuel rest := by
  rw [attribute_value]
  · rw [if_pos rfl, Str.split_once_append hend]
    dsimp only
    rw [hname]
    rfl
  · intro tail hc
    exact absurd hc (by decide)

theorem entity_name (e : CharData.Entity) :
    ref_char e.name.toList = some e.char ∧ ';' ∉ e.name.toList ∧
      e.char ≠ '\t' ∧ e.char ≠ '\n' ∧ e.char ≠ '\r' := by
  cases e with
  | amp => decide
  | lt => decide
  | gt => decide
  | quot => decide
  | apos => decide

/-- A character is escaped as a reference to it, or stands for itself. -/
theorem escape_char_cases (c : Char) :
    (∃ e : CharData.Entity, e.char = c ∧ CharData.escape_char c = .EntityRef e) ∨
      (c ≠ '&' ∧ CharData.escape_char c = .Lit c) := by
  unfold CharData.escape_char
  split_ifs with hlt hgt hamp hapos hquot
  · exact Or.inl ⟨.lt, hlt.symm, rfl⟩
  · exact Or.inl ⟨.gt, hgt.symm, rfl⟩
  · exact Or.inl ⟨.amp, hamp.symm, rfl⟩
  · exact Or.inl ⟨.apos, hapos.symm, rfl⟩
  · exact Or.inl ⟨.quot, hquot.symm, rfl⟩
  · exact Or.inr ⟨hamp, rfl⟩

/-- **An escaped text is read as itself**, but for its white space. -/
theorem attribute_value_escaped {fuel : ℕ} {s : List Char} (hfuel : (escaped s).length ≤ fuel) :
    attribute_value fuel (escaped s) = spaced s := by
  induction s using spaced.induct generalizing fuel with
  | case1 =>
    cases fuel with
    | zero => rfl
    | succ fuel => rfl
  | case2 rest ih =>
    have htext : escaped ('\r' :: '\n' :: rest) = '\r' :: '\n' :: escaped rest := rfl
    rw [htext] at hfuel ⊢
    simp only [List.length_cons] at hfuel
    obtain ⟨fuel, rfl⟩ : ∃ k, fuel = k + 1 := ⟨fuel - 1, by omega⟩
    rw [attribute_value, spaced, ih (by omega)]
  | case3 c rest hcr ih =>
    rw [escaped_cons] at hfuel ⊢
    rcases escape_char_cases c with ⟨e, rfl, hescape⟩ | ⟨hamp, hescape⟩
    · -- a reference to the character
      obtain ⟨hname, hend, htab, hlf, hret⟩ := entity_name e
      have htext : (CharData.escape_char e.char).text ++ escaped rest =
          '&' :: (e.name.toList ++ ';' :: escaped rest) := by
        rw [hescape]
        simp [CharData.Piece.text]
      rw [htext] at hfuel ⊢
      simp only [List.length_cons, List.length_append] at hfuel
      obtain ⟨fuel, rfl⟩ : ∃ k, fuel = k + 1 := ⟨fuel - 1, by omega⟩
      rw [attribute_value_ref fuel hname hend, ih (by omega), spaced, if_neg (by tauto)]
      exact hcr
    · -- the character itself; a line feed after it is one of the text
      have htext : (CharData.escape_char c).text ++ escaped rest = c :: escaped rest := by
        rw [hescape]
        rfl
      rw [htext] at hfuel ⊢
      simp only [List.length_cons] at hfuel
      obtain ⟨fuel, rfl⟩ : ∃ k, fuel = k + 1 := ⟨fuel - 1, by omega⟩
      rw [attribute_value, spaced, if_neg hamp, ih (by omega)]
      · split
        · rfl
        · rfl
      · exact hcr
      · intro tail hc hrest
        obtain ⟨d, more, hd⟩ : ∃ d more, rest = d :: more := by
          cases rest with
          | nil => simp [escaped, CharData.escape, CharData.text] at hrest
          | cons d more => exact ⟨d, more, rfl⟩
        refine hcr more hc ?_
        rw [hd, escaped_cons] at hrest
        rw [hd]
        congr 1
        rcases escape_char_cases d with ⟨e, -, he⟩ | ⟨-, he⟩
        · rw [he] at hrest
          simp [CharData.Piece.text] at hrest
        · rw [he] at hrest
          simp only [CharData.Piece.text, List.singleton_append, List.cons.injEq] at hrest
          exact hrest.1

/-- A text in front of a semicolon takes up room of its own. -/
theorem spaced_semicolon (name rest : List Char) :
    (spaced rest).length < (spaced (name ++ ';' :: rest)).length := by
  induction name using spaced.induct with
  | case1 =>
    rw [List.nil_append, spaced]
    · simp
    · simp
  | case2 name ih =>
    rw [List.cons_append, List.cons_append, spaced, List.length_cons]
    omega
  | case3 c name hcr ih =>
    rw [List.cons_append, spaced]
    · rw [List.length_cons]
      omega
    · intro tail hc hrest
      cases name with
      | nil => simp at hrest
      | cons d name =>
        rw [List.cons_append, List.cons.injEq] at hrest
        exact hcr name hc (by rw [hrest.1])

/-- **A reference is read as less than its own text.** -/
theorem attribute_value_shorter {fuel : ℕ} {raw : List Char} (h : AttValue raw) :
    (attribute_value fuel raw).length ≤ (spaced raw).length ∧
      ('&' ∈ raw → (attribute_value fuel raw).length < (spaced raw).length) := by
  -- on the fuel, and the value from the left
  induction fuel generalizing raw with
  | zero =>
    refine ⟨by simp [attribute_value], fun hamp => ?_⟩
    cases raw with
    | nil => cases hamp
    | cons c rest =>
      unfold spaced attribute_value
      split
      · simp_all
      · simp
      · simp
  | succ fuel ih =>
    cases h with
    | nil => exact ⟨le_refl _, fun hamp => absurd hamp List.not_mem_nil⟩
    | @char c rest hc hrest =>
      by_cases hcrlf : c = '\r' ∧ ∃ tail, rest = '\n' :: tail
      · -- one space for the two
        obtain ⟨rfl, tail, rfl⟩ := hcrlf
        cases hrest with
        | char _ htail =>
          obtain ⟨hle, hlt⟩ := ih htail
          rw [attribute_value, spaced]
          simp only [List.length_cons, List.mem_cons]
          refine ⟨by omega, fun hamp => ?_⟩
          have hmem : '&' ∈ tail := by simpa using hamp
          have := hlt hmem
          omega
      -- any other character stands for one, or for one space
      · obtain ⟨hle, hlt⟩ := ih hrest
        rw [attribute_value, spaced, if_neg hc]
        · have hlen : ∀ x : List Char, (if c = '\t' ∨ c = '\n' ∨ c = '\r' then ' ' :: x
              else c :: x).length = x.length + 1 := by
            intro x
            split
            · rfl
            · rfl
          rw [hlen, List.length_cons]
          refine ⟨by omega, fun hamp => ?_⟩
          have hmem : '&' ∈ rest := by
            rcases List.mem_cons.mp hamp with h | h
            · exact absurd h.symm hc
            · exact h
          have := hlt hmem
          omega
        · exact fun tail h1 h2 => hcrlf ⟨h1, tail, h2⟩
        · exact fun tail h1 h2 => hcrlf ⟨h1, tail, h2⟩
    | @ref name rest c hname hend hrest =>
      -- a reference gives one character, and has three at least
      have hroom := spaced_semicolon name rest
      have hle := (ih hrest).1
      have hspaced : spaced ('&' :: (name ++ ';' :: rest)) = '&' :: spaced (name ++ ';' :: rest) := by
        rw [spaced]
        · rfl
        · intro tail hc
          exact absurd hc (by decide)
      rw [attribute_value_ref fuel hname hend, hspaced]
      simp only [List.length_cons]
      omega

theorem uri_escaped (ns : String) :
    uri (String.ofList (escaped ns.toList)) = String.ofList (spaced ns.toList) := by
  unfold uri
  rw [String.toList_ofList, attribute_value_escaped (le_refl _)]

/-- **A namespace is read back exactly when it is written without references.** -/
theorem uri_escaped_iff {raw : String} (h : AttValue raw.toList) :
    uri (String.ofList (escaped raw.toList)) = uri raw ↔ '&' ∉ raw.toList := by
  rw [uri_escaped]
  constructor
  · intro heq hamp
    have hlt := (@attribute_value_shorter raw.toList.length raw.toList h).2 hamp
    have hlist := congrArg String.toList heq
    unfold uri at hlist
    rw [String.toList_ofList, String.toList_ofList] at hlist
    rw [hlist] at hlt
    exact absurd hlt (lt_irrefl _)
  · intro hamp
    unfold uri
    rw [attribute_value_plain hamp (le_refl _)]

/-! ## Keys -/

section Keys

variable {s : Site} {raw : String}

/-- The key of an element that declares its namespace. -/
theorem own_key_declared {f : String → String}
    (hdecl : s.tag.attribute (declaration (split_name s.tag.name).1) = some raw)
    (hne : f raw ≠ "") : own_key f s = clark_key (f raw) s.localname := by
  have hattr : (Tag.seen f s.tag).attribute (declaration (split_name s.tag.name).1) =
      some (f raw) := by rw [attribute_seen, hdecl, Option.map_some]
  have hname : (Tag.seen f s.tag).name = s.tag.name := rfl
  unfold own_key extract_element_ns Site.localname
  rw [hname]
  cases hsplit : split_name s.tag.name with
  | mk p l =>
    rw [hsplit] at hattr
    cases p with
    | none =>
      dsimp only [declaration] at hattr ⊢
      rw [hattr]
      rfl
    | some p =>
      dsimp only [declaration] at hattr ⊢
      rw [hattr]
      dsimp only
      rw [if_neg hne]

theorem raw_ne_empty (h : uri raw ≠ "") : raw ≠ "" := by
  intro heq
  rw [heq] at h
  exact h rfl

theorem clark_declared (hcolon : ':' ∉ s.localname.toList) (hne : raw ≠ "")
    (hclose : '\x7d' ∉ raw.toList) : Clark (clark_key raw s.localname) := by
  have hparts := @RoundTrip.key_parts_clark raw s.localname hne hclose
  constructor
  · rw [hparts]
  · rw [hparts]
    exact hcolon

/-- The element of a key, in each of the three places. -/
theorem read_back_empty {k : String} (hk : Clark k) :
    read_back [.Empty (key_parts k).2 (ns_attributes (key_parts k).1)] =
      some (uri (String.ofList (escaped (key_parts k).1.toList)), (key_parts k).2) := by
  rw [read_back, expanded_missing hk, Option.map_some]

theorem read_back_dead {k value : String} (hk : Clark k) :
    read_back (dead_prop ⟨k, value⟩) =
      some (uri (String.ofList (escaped (key_parts k).1.toList)), (key_parts k).2) := by
  rw [read_back, expanded_dead hk, Option.map_some]

/-- A brace in a local name stays there. -/
theorem element_name_close {name : String} {attributes : List (String × String)}
    (h : '\x7d' ∈ name.toList) : '\x7d' ∈ (element_name name attributes).2.toList := by
  unfold element_name
  split
  · rename_i rest hlist
    rw [hlist] at h
    simpa using h
  · exact h

theorem key_parts_close {ns localname : String} (hne : ns ≠ "") (h : '\x7d' ∈ ns.toList) :
    '\x7d' ∈ (key_parts (clark_key ns localname)).2.toList := by
  obtain ⟨a, b, hab, hnot⟩ := List.eq_append_cons_of_mem h
  have hsplit : Str.split_once '\x7d' (ns.toList ++ '\x7d' :: localname.toList) =
      some (a, b ++ '\x7d' :: localname.toList) := by
    rw [hab, List.append_assoc, List.cons_append]
    exact Str.split_once_append hnot
  have hparse : parse_clark (clark_key ns localname) =
      some (String.ofList a, String.ofList (b ++ '\x7d' :: localname.toList)) := by
    unfold parse_clark
    rw [clark_key_toList hne]
    exact congrArg (Option.map fun p => (String.ofList p.1, String.ofList p.2)) hsplit
  rw [key_parts, hparse, Option.getD_some, String.toList_ofList]
  simp

end Keys

/-! ## Survival -/

/-- A file without dead properties. -/
def plain_entry : PropEntry where
  href := "/f".toList
  modified := 0
  created := none
  size := 0
  is_dir := false

theorem plain_no_dead (k : String) : ¬ HasDead plain_entry k := by
  rintro ⟨dead, hdead, -⟩
  cases hdead

/-- What is not found of one name, for a plain file. -/
theorem mem_plain {k m : String} :
    m ∈ not_found plain_entry (.Named [k]) ↔ m = k ∧ (key_parts k).2 ∉ SUPPORTED_PROPS := by
  have happ : ∀ p ∈ SUPPORTED_PROPS, Applicable plain_entry p := by
    intro p hp
    refine ⟨hp, ?_⟩
    unfold is_applicable
    split
    · rfl
    · rfl
  rw [mem_not_found]
  constructor
  · rintro ⟨-, ⟨hlive, hno, -⟩ | ⟨hm, hother⟩⟩
    · exact absurd (happ m hlive) hno
    · obtain rfl := List.mem_singleton.mp hm
      exact ⟨rfl, hother⟩
  · rintro ⟨rfl, hother⟩
    exact ⟨plain_no_dead m, Or.inr ⟨List.mem_singleton_self m, hother⟩⟩

/-- **When the name of a property survives.** Its namespace is written without
references and braces, and its local name is not that of a live property. -/
theorem names_survive_iff {s : Site} {raw : String}
    (hdecl : s.tag.attribute (declaration (split_name s.tag.name).1) = some raw)
    (hraw : AttValue raw.toList) (huri : uri raw ≠ "") (hcolon : ':' ∉ s.localname.toList)
    (hclose : '\x7d' ∉ s.localname.toList) :
    Survives s raw ↔
      '&' ∉ raw.toList ∧ '\x7d' ∉ raw.toList ∧ s.localname ∉ SUPPORTED_PROPS := by
  have hne := raw_ne_empty huri
  have hkey : own_key id s = clark_key raw s.localname := own_key_declared hdecl hne
  constructor
  · intro h
    -- ask for the name alone, of a file that has no dead property
    obtain ⟨element, helement, hread⟩ := h.missing plain_entry [own_key id s]
      List.mem_cons_self (plain_no_dead _)
    obtain ⟨k, hk, rfl⟩ := List.mem_map.mp helement
    obtain ⟨rfl, hother⟩ := mem_plain.mp hk
    rw [hkey] at hread hother
    by_cases hbrace : '\x7d' ∈ raw.toList
    · have hlocal := @element_name_close _
        (ns_attributes (key_parts (clark_key raw s.localname)).1)
        (@key_parts_close raw s.localname hne hbrace)
      rw [read_back, expanded, Option.map_some, Option.some_inj, name_of, Prod.mk.injEq] at hread
      rw [hread.2] at hlocal
      exact absurd hlocal hclose
    · have hparts := @RoundTrip.key_parts_clark raw s.localname hne hbrace
      rw [read_back_empty (clark_declared hcolon hne hbrace), hparts, name_of, Option.some_inj,
        Prod.mk.injEq] at hread
      rw [hparts] at hother
      exact ⟨(uri_escaped_iff hraw).mp hread.1, hbrace, hother⟩
  · rintro ⟨hamp, hbrace, hother⟩
    have hclark : Clark (clark_key raw s.localname) := clark_declared hcolon hne hbrace
    have hparts := @RoundTrip.key_parts_clark raw s.localname hne hbrace
    have hback := (uri_escaped_iff hraw).mpr hamp
    constructor
    · intro reader xml body op request_path i hread hop hi
      have hkeys := proppatch_keys hread hop
      have hdecoded : decoded raw = raw := by
        unfold decoded
        rw [CharData.decode_plain hamp, String.ofList_toList]
      have hpatch : own_key decoded s = clark_key raw s.localname := by
        rw [own_key_declared hdecl (by rw [hdecoded]; exact hne), hdecoded]
      have hname : (op.actions.map PropPatchAction.name)[i]? = some (own_key decoded s) := by
        rw [hkeys, List.getElem?_map, hi, Option.map_some]
      rw [List.getElem?_map, Option.map_eq_some_iff] at hname
      obtain ⟨action, haction, hname⟩ := hname
      rw [hpatch] at hname
      refine ⟨action, write_proppatch_result request_path action.name "200 OK", _, haction, ?_, rfl,
        ⟨_, List.mem_cons_self, ?_⟩, fun entry hdead => ?_⟩
      · rw [build_proppatch_response, List.getElem?_map, haction, Option.map_some]
      · rw [hname, read_back_empty hclark, hparts, name_of, hback]
      · obtain ⟨value, hmem, -⟩ := has_dead_iff.mp hdead
        refine ⟨_, hmem, ?_⟩
        rw [hname, read_back_dead hclark, hparts, name_of, hback]
    · intro entry names hmem hdead
      rw [hkey] at hmem hdead
      refine ⟨_, List.mem_map_of_mem (mem_not_found.mpr ⟨hdead, Or.inr ⟨hmem, ?_⟩⟩), ?_⟩
      · rw [hparts]
        exact hother
      · rw [read_back_empty hclark, hparts, name_of, hback]

/-! ## A namespace with an ampersand -/

/-- A property element with a prefix of its own, and the raw text that declares it. -/
def declared_site (raw : String) : Site where
  tag := { name := "X:p", attributes := [("xmlns:X", raw)] }
  around := []

theorem att_value_plain {raw : List Char} (h : '&' ∉ raw) : AttValue raw := by
  induction raw with
  | nil => exact .nil
  | cons c raw ih =>
    simp only [List.mem_cons, not_or] at h
    exact .char (Ne.symm h.1) (ih h.2)

theorem names_survive_iff_x :
    Survives (declared_site "urn:x") "urn:x" ↔
      '&' ∉ "urn:x".toList ∧ '\x7d' ∉ "urn:x".toList ∧
        (declared_site "urn:x").localname ∉ SUPPORTED_PROPS :=
  names_survive_iff (by decide) (att_value_plain (by decide)) (by decide +kernel) (by decide)
    (by decide)

theorem amp_value : AttValue "urn:a&amp;b".toList := by
  have hend : AttValue ('&' :: ("amp".toList ++ ';' :: ['b'])) :=
    .ref (c := '&') (by decide) (by decide) (att_value_plain (by decide))
  exact .char (by decide) (.char (by decide) (.char (by decide) (.char (by decide)
    (.char (by decide) hend))))

/-- The namespace `urn:a&b` comes back as `urn:a&amp;b`. -/
theorem ampersand_lost :
    AttValue "urn:a&amp;b".toList ∧ uri "urn:a&amp;b" = "urn:a&b" ∧
      ¬ Survives (declared_site "urn:a&amp;b") "urn:a&amp;b" := by
  refine ⟨amp_value, by decide +kernel, fun h => ?_⟩
  have hkey : own_key id (declared_site "urn:a&amp;b") = "\x7burn:a&amp;b\x7dp" := by
    decide +kernel
  obtain ⟨element, helement, hread⟩ := h.missing plain_entry ["\x7burn:a&amp;b\x7dp"]
    (by rw [hkey]; exact List.mem_cons_self) (plain_no_dead _)
  obtain ⟨k, hk, rfl⟩ := List.mem_map.mp helement
  rw [(mem_plain.mp hk).1] at hread
  revert hread
  decide +kernel

end Rshs.PropNames
