/-
`webdav/mod.rs`: the bodies of PROPFIND and PROPPATCH.

The XML reader is a parameter, from a text to the events it delivers; an attribute's
value is the text between its quotes, a text event is trimmed. A PROPPATCH body has
its character references decoded before the reader sees it.

Both parsers make a key at a start tag and keep it or drop it without looking at it,
so their loops are written over any kind of element and any kind of key
(`propfind_loop`, `proppatch_loop`); the parsers are the loops on tags and Clark keys.
The loop on another kind of key keeps the same ones (`propfind_loop_map`,
`proppatch_loop_map`).
-/
import Rshs.Xml

set_option autoImplicit false

namespace Rshs.PropBody

open Rshs.Webdav Rshs.Xml

/-! ## Events -/

/-- A start tag: the name as written, and the attributes with their raw values. -/
structure Tag where
  name : String
  attributes : List (String × String)
deriving DecidableEq

/-- What the reader delivers; comments and the like are `Other`. -/
inductive ReadEvent (T : Type)
  | Start (e : T)
  | Empty (e : T)
  | End (name : String)
  | Text (content : List Char)
  | CData (content : List Char)
  | GeneralRef (name : String)
  | Other
  | Err
deriving DecidableEq

/-- The events with their elements replaced. -/
def ReadEvent.map {S T : Type} (f : S → T) : ReadEvent S → ReadEvent T
  | .Start e => .Start (f e)
  | .Empty e => .Empty (f e)
  | .End name => .End name
  | .Text content => .Text content
  | .CData content => .CData content
  | .GeneralRef name => .GeneralRef name
  | .Other => .Other
  | .Err => .Err

/-- Why a body is refused. -/
inductive ParseError
  | InvalidBody (message : String)
  | Xml
deriving DecidableEq

/-! ## Character references -/

/-- `u32::from_str_radix` and `char::from_u32`: an optional sign, digits, a scalar
value. -/
def char_of_digits (radix : ℕ) (num_str : List Char) : Option Char :=
  let digits := match num_str with
    | '+' :: rest => rest
    | _ => num_str
  let value (c : Char) : Option ℕ :=
    let d := if c.isDigit then some (c.toNat - 48)
      else if 'a' ≤ c ∧ c ≤ 'f' then some (c.toNat - 87)
      else if 'A' ≤ c ∧ c ≤ 'F' then some (c.toNat - 55)
      else none
    d.filter (· < radix)
  if digits = [] then none
  else
    match digits.mapM value with
    | none => none
    | some ds =>
      let n := ds.foldl (fun acc d => acc * radix + d) 0
      if n.isValidChar then some (Char.ofNat n) else none

/-- What precedes and what follows the first `&#`. -/
def find_ref : List Char → Option (List Char × List Char)
  | [] => none
  | '&' :: '#' :: rest => some ([], rest)
  | c :: rest => (find_ref rest).map fun p => (c :: p.1, p.2)

/-- The loop of `decode_xml_char_refs`, which takes a reference off the text each time
round. -/
def decode_loop : ℕ → List Char → List Char
  | 0, rest => rest
  | fuel + 1, text =>
    match find_ref text with
    | none => text
    | some (before, rest) =>
      let hex := rest.head? = some 'x' ∨ rest.head? = some 'X'
      let rest := if hex then rest.tail else rest
      match Str.split_once ';' rest with
      | some (num_str, rest) =>
        before ++ (char_of_digits (if hex then 16 else 10) num_str).toList ++ decode_loop fuel rest
      | none => before ++ rest

/-- Numeric references are replaced, named ones stay for the reader. -/
def decode_xml_char_refs (text : List Char) : List Char := decode_loop text.length text

example : decode_xml_char_refs "a&#65;b&#x42;c&amp;&#1114112;d&#6".toList = "aAbBc&amp;d6".toList := by
  decide

/-! ## Elements -/

/-- A qualified name as prefix and local name. -/
def split_name (name : String) : Option String × String :=
  match Str.split_once ':' name.toList with
  | some (p, l) => (some (String.ofList p), String.ofList l)
  | none => (none, name)

/-- The raw value of an attribute. -/
def Tag.attribute (e : Tag) (key : String) : Option String :=
  (e.attributes.find? fun a => a.1 = key).map Prod.snd

/-- Namespace and local name of an element. Only its own declarations are looked at, so a prefix
declared further out has none. -/
def extract_element_ns (e : Tag) : Except ParseError (String × String) :=
  match split_name e.name with
  | (some p, localname) =>
    match e.attribute ("xmlns:" ++ p) with
    | some value =>
      if value = "" then .error (.InvalidBody "invalid namespace declaration: empty URI")
      else .ok (value, localname)
    | none => .ok ("", localname)
  | (none, localname) => .ok ((e.attribute "xmlns").getD "", localname)

/-- The local name and the key of an element. -/
def element_key (e : Tag) : Except ParseError (String × String) :=
  (extract_element_ns e).map fun p => (p.2, clark_key p.1 p.2)

section Loops

variable {T K : Type}

/-! ## PROPFIND -/

/-- The variables of the PROPFIND loop. -/
structure FindState (K : Type) where
  props : List K := []
  in_prop : Bool := false
  found_allprop : Bool := false
  found_propname : Bool := false
  seen_element : Bool := false

/-- A start tag or an empty element; `prop` may be anywhere. -/
def FindState.on_element (s : FindState K) (localname : String) (key : K) : FindState K :=
  let s := { s with seen_element := true }
  if localname = "prop" then { s with in_prop := true }
  else if localname = "allprop" then { s with found_allprop := true }
  else if localname = "propname" then { s with found_propname := true }
  else if s.in_prop then { s with props := s.props ++ [key] }
  else s

/-- An end tag: any that is called `prop` ends the list of names. -/
def FindState.on_end (s : FindState K) (name : String) : FindState K :=
  if (split_name name).2 = "prop" then { s with in_prop := false } else s

/-- The loop over the events: it stops at the first error. -/
def propfind_loop (key : T → Except ParseError (String × K)) (s : FindState K) :
    List (ReadEvent T) → Except ParseError (FindState K)
  | [] => .ok s
  | .Start e :: events | .Empty e :: events =>
    match key e with
    | .error err => .error err
    | .ok (localname, k) => propfind_loop key (s.on_element localname k) events
  | .End name :: events => propfind_loop key (s.on_end name) events
  | .Err :: _ => .error .Xml
  | .Text _ :: events | .CData _ :: events | .GeneralRef _ :: events | .Other :: events =>
    propfind_loop key s events

/-! ## PROPPATCH -/

/-- The variables of the PROPPATCH loop. -/
structure PatchState (K : Type) where
  actions : List (K × Option String) := []
  in_set : Bool := false
  in_remove : Bool := false
  current_name : Option K := none

/-- A start tag: under `set` it waits for its text, under `remove` it is an action. -/
def PatchState.on_start (s : PatchState K) (localname : String) (key : K) : PatchState K :=
  if localname = "set" then { s with in_set := true }
  else if localname = "remove" then { s with in_remove := true }
  else if localname = "prop" then s
  else if s.in_set then { s with current_name := some key }
  else if s.in_remove then { s with actions := s.actions ++ [(key, none)] }
  else s

/-- An empty element: under `set` it sets the empty value. -/
def PatchState.on_empty (s : PatchState K) (localname : String) (key : K) : PatchState K :=
  if s.in_remove = true ∧ localname ≠ "prop" then { s with actions := s.actions ++ [(key, none)] }
  else if s.in_set = true ∧ localname ≠ "prop" then
    { s with actions := s.actions ++ [(key, some "")] }
  else s

/-- The value of the property whose start tag was last seen, if one is open. -/
def PatchState.close (s : PatchState K) (value : String) : PatchState K :=
  match s.current_name with
  | some key =>
    if s.in_set then { s with actions := s.actions ++ [(key, some value)], current_name := none }
    else s
  | none => s

/-- An end tag: it closes a property without text with the empty value. -/
def PatchState.on_end (s : PatchState K) (name : String) : PatchState K :=
  if (split_name name).2 = "set" then { s with in_set := false }
  else if (split_name name).2 = "remove" then { s with in_remove := false }
  else s.close ""

/-- The loop over the events. The first text behind a start tag is the value. -/
def proppatch_loop (key : T → Except ParseError (String × K)) (s : PatchState K) :
    List (ReadEvent T) → Except ParseError (PatchState K)
  | [] => .ok s
  | .Start e :: events =>
    match key e with
    | .error err => .error err
    | .ok (localname, k) => proppatch_loop key (s.on_start localname k) events
  | .Empty e :: events =>
    match key e with
    | .error err => .error err
    | .ok (localname, k) => proppatch_loop key (s.on_empty localname k) events
  | .Text content :: events =>
    proppatch_loop key (s.close (String.ofList (decode_xml_char_refs content))) events
  | .End name :: events => proppatch_loop key (s.on_end name) events
  | .Err :: _ => .error .Xml
  | .CData _ :: events | .GeneralRef _ :: events | .Other :: events => proppatch_loop key s events

end Loops

/-! ## The loops on other elements and other keys -/

section Map

variable {S T K L : Type}

/-- The variables with other keys. -/
def FindState.map (g : K → L) (s : FindState K) : FindState L where
  props := s.props.map g
  in_prop := s.in_prop
  found_allprop := s.found_allprop
  found_propname := s.found_propname
  seen_element := s.seen_element

/-- The variables with other keys. -/
def PatchState.map (g : K → L) (s : PatchState K) : PatchState L where
  actions := s.actions.map fun a => (g a.1, a.2)
  in_set := s.in_set
  in_remove := s.in_remove
  current_name := s.current_name.map g

/-- The keys play no part in what an element does, -/
theorem FindState.map_on_element (g : K → L) (s : FindState K) (localname : String) (k : K) :
    (s.on_element localname k).map g = (s.map g).on_element localname (g k) := by
  unfold FindState.on_element FindState.map
  dsimp only
  split
  · rfl
  · split
    · rfl
    · split
      · rfl
      · split
        · rw [List.map_append, List.map_singleton]
        · rfl

/-- nor in what an end tag does. -/
theorem FindState.map_on_end (g : K → L) (s : FindState K) (name : String) :
    (s.on_end name).map g = (s.map g).on_end name := by
  unfold FindState.on_end
  split <;> rfl

/-- The keys play no part in what a start tag does, -/
theorem PatchState.map_on_start (g : K → L) (s : PatchState K) (localname : String) (k : K) :
    (s.on_start localname k).map g = (s.map g).on_start localname (g k) := by
  unfold PatchState.on_start PatchState.map
  dsimp only
  split
  · rfl
  · split
    · rfl
    · split
      · rfl
      · split
        · rfl
        · split
          · rw [List.map_append, List.map_singleton]
          · rfl

/-- nor in what an empty element does, -/
theorem PatchState.map_on_empty (g : K → L) (s : PatchState K) (localname : String) (k : K) :
    (s.on_empty localname k).map g = (s.map g).on_empty localname (g k) := by
  unfold PatchState.on_empty PatchState.map
  dsimp only
  split
  · rw [List.map_append, List.map_singleton]
  · split
    · rw [List.map_append, List.map_singleton]
    · rfl

/-- nor in how a property is closed, -/
theorem PatchState.map_close (g : K → L) (s : PatchState K) (value : String) :
    (s.close value).map g = (s.map g).close value := by
  obtain ⟨actions, in_set, in_remove, current_name⟩ := s
  unfold PatchState.close PatchState.map
  cases current_name with
  | none => rfl
  | some key =>
    dsimp only [Option.map_some]
    split
    · rw [List.map_append, List.map_singleton]
      rfl
    · rfl

/-- nor in what an end tag does. -/
theorem PatchState.map_on_end (g : K → L) (s : PatchState K) (name : String) :
    (s.on_end name).map g = (s.map g).on_end name := by
  unfold PatchState.on_end
  split
  · rfl
  · split
    · rfl
    · exact PatchState.map_close g s ""

/-- The loop on renamed elements is the loop with the renaming before the key. -/
theorem propfind_loop_rename (key : T → Except ParseError (String × K)) (f : S → T)
    (s : FindState K) (events : List (ReadEvent S)) :
    propfind_loop key s (events.map (ReadEvent.map f))
      = propfind_loop (fun e => key (f e)) s events := by
  induction events generalizing s with
  | nil => rfl
  | cons event events ih =>
    cases event with
    | Start e =>
      simp only [List.map_cons, ReadEvent.map, propfind_loop]
      cases key (f e) with
      | error err => rfl
      | ok p => exact ih _
    | Empty e =>
      simp only [List.map_cons, ReadEvent.map, propfind_loop]
      cases key (f e) with
      | error err => rfl
      | ok p => exact ih _
    | End name => exact ih _
    | Text content => exact ih _
    | CData content => exact ih _
    | GeneralRef name => exact ih _
    | Other => exact ih _
    | Err => rfl

/-- The loop on renamed elements is the loop with the renaming before the key. -/
theorem proppatch_loop_rename (key : T → Except ParseError (String × K)) (f : S → T)
    (s : PatchState K) (events : List (ReadEvent S)) :
    proppatch_loop key s (events.map (ReadEvent.map f))
      = proppatch_loop (fun e => key (f e)) s events := by
  induction events generalizing s with
  | nil => rfl
  | cons event events ih =>
    cases event with
    | Start e =>
      simp only [List.map_cons, ReadEvent.map, proppatch_loop]
      cases key (f e) with
      | error err => rfl
      | ok p => exact ih _
    | Empty e =>
      simp only [List.map_cons, ReadEvent.map, proppatch_loop]
      cases key (f e) with
      | error err => rfl
      | ok p => exact ih _
    | End name => exact ih _
    | Text content => exact ih _
    | CData content => exact ih _
    | GeneralRef name => exact ih _
    | Other => exact ih _
    | Err => rfl

/-- **A loop does not look at its keys.** Keys that are images give the image of the
result. -/
theorem propfind_loop_map (g : K → L) {key : T → Except ParseError (String × K)}
    {key' : T → Except ParseError (String × L)}
    (hkey : ∀ e, key' e = (key e).map fun p => (p.1, g p.2)) (s : FindState K)
    (events : List (ReadEvent T)) :
    propfind_loop key' (s.map g) events = (propfind_loop key s events).map (FindState.map g) := by
  induction events generalizing s with
  | nil => rfl
  | cons event events ih =>
    cases event with
    | Start e =>
      simp only [propfind_loop, hkey]
      cases key e with
      | error err => rfl
      | ok p =>
        simp only [Except.map]
        rw [← FindState.map_on_element]
        exact ih _
    | Empty e =>
      simp only [propfind_loop, hkey]
      cases key e with
      | error err => rfl
      | ok p =>
        simp only [Except.map]
        rw [← FindState.map_on_element]
        exact ih _
    | End name =>
      simp only [propfind_loop]
      rw [← FindState.map_on_end]
      exact ih _
    | Text content => exact ih _
    | CData content => exact ih _
    | GeneralRef name => exact ih _
    | Other => exact ih _
    | Err => rfl

/-- The loop with other keys ends in the state with these keys. -/
theorem proppatch_loop_map (g : K → L) {key : T → Except ParseError (String × K)}
    {key' : T → Except ParseError (String × L)}
    (hkey : ∀ e, key' e = (key e).map fun p => (p.1, g p.2)) (s : PatchState K)
    (events : List (ReadEvent T)) :
    proppatch_loop key' (s.map g) events = (proppatch_loop key s events).map (PatchState.map g) := by
  induction events generalizing s with
  | nil => rfl
  | cons event events ih =>
    cases event with
    | Start e =>
      simp only [proppatch_loop, hkey]
      cases key e with
      | error err => rfl
      | ok p =>
        simp only [Except.map]
        rw [← PatchState.map_on_start]
        exact ih _
    | Empty e =>
      simp only [proppatch_loop, hkey]
      cases key e with
      | error err => rfl
      | ok p =>
        simp only [Except.map]
        rw [← PatchState.map_on_empty]
        exact ih _
    | End name =>
      simp only [proppatch_loop]
      rw [← PatchState.map_on_end]
      exact ih _
    | Text content =>
      simp only [proppatch_loop]
      rw [← PatchState.map_close]
      exact ih _
    | CData content => exact ih _
    | GeneralRef name => exact ih _
    | Other => exact ih _
    | Err => rfl

end Map

section Parsers

variable (reader : List Char → List (ReadEvent Tag))

/-- A PROPFIND body; without an element it asks for everything. -/
def parse_propfind_request (xml : List Char) : Except ParseError PropRequest :=
  match propfind_loop element_key {} (reader xml) with
  | .error err => .error err
  | .ok s =>
    if s.found_allprop = true ∨ (s.props = [] ∧ s.seen_element = false) then .ok .AllProp
    else if s.props = [] then .error (.InvalidBody "invalid PROPFIND request body")
    else if s.found_propname then .ok .PropName
    else .ok (.Named s.props)

/-- A PROPPATCH body; its references are decoded before it is read, and in each text again. -/
def parse_proppatch_request (xml : List Char) : Except ParseError PropPatchOp :=
  match proppatch_loop element_key {} (reader (decode_xml_char_refs xml)) with
  | .error err => .error err
  | .ok s =>
    if s.actions = [] then .error (.InvalidBody "invalid PROPPATCH body")
    else .ok { actions := s.actions.map fun a => { name := a.1, value := a.2 } }

end Parsers

/-- A reader that knows one document. -/
def reads_as (text : List Char) (events : List (ReadEvent Tag)) (xml : List Char) :
    List (ReadEvent Tag) :=
  if xml = text then events else [.Err]

theorem reads_as_text (text : List Char) (events : List (ReadEvent Tag)) :
    reads_as text events text = events := if_pos rfl

end Rshs.PropBody
