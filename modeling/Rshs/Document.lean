/-
XML documents as trees, and the events a reader delivers for them.

An `Item` is what may stand inside an element: an element with its content, an element
written as one tag, or data, which is character data, a reference, or something else
such as a comment. Tags are of any type, so that an element can be told from every other
one with the same tag. The events are those of `ReadEvent`, an end tag with the name of
its start tag.
-/
import Rshs.PropBody

set_option autoImplicit false

namespace Rshs.Document

open Rshs.PropBody

/-- What stands between tags: text, a CDATA section, a reference, or a node of another kind. -/
inductive Data
  | text (content : List Char)
  | cdata (content : List Char)
  | reference (name : String)
  | other

/-- An element with its content, an empty element, or data. -/
inductive Item (T : Type)
  | element (tag : T) (content : List (Item T))
  | empty (tag : T)
  | data (d : Data)

section Trees

variable {T : Type}

/-- One case for each kind of item, and the two ways a list of items is built. -/
theorem Item.induct {P : Item T → Prop} {Q : List (Item T) → Prop}
    (element : ∀ tag content, Q content → P (.element tag content))
    (empty : ∀ tag, P (.empty tag)) (data : ∀ d, P (.data d)) (nil : Q [])
    (cons : ∀ i items, P i → Q items → Q (i :: items)) : (∀ i, P i) ∧ ∀ items, Q items :=
  ⟨Item.rec element empty data nil cons, Item.rec_1 element empty data nil cons⟩

/-! ## Events -/

def Data.event : Data → ReadEvent T
  | .text content => .Text content
  | .cdata content => .CData content
  | .reference name => .GeneralRef name
  | .other => .Other

section Events

variable (name : T → String)

mutual

/-- The events that the reader reports for an item. -/
def Item.events : Item T → List (ReadEvent T)
  | .element tag content => .Start tag :: (events_all content ++ [.End (name tag)])
  | .empty tag => [.Empty tag]
  | .data d => [d.event]

def events_all : List (Item T) → List (ReadEvent T)
  | [] => []
  | i :: items => i.events ++ events_all items

end

/-- Items one after the other report their events one after the other. -/
theorem events_all_append (is js : List (Item T)) :
    events_all name (is ++ js) = events_all name is ++ events_all name js := by
  induction is with
  | nil => rfl
  | cons i is ih => rw [List.cons_append, events_all, events_all, ih, List.append_assoc]

end Events

/-! ## Tags -/

mutual

/-- The tags of an item, in the order of the document. -/
def Item.tags : Item T → List T
  | .element tag content => tag :: tags_all content
  | .empty tag => [tag]
  | .data _ => []

def tags_all : List (Item T) → List T
  | [] => []
  | i :: items => i.tags ++ tags_all items

end

mutual

/-- The tags of the elements that are written with an end tag. -/
def Item.open_tags : Item T → List T
  | .element tag content => tag :: open_tags_all content
  | .empty _ | .data _ => []

def open_tags_all : List (Item T) → List T
  | [] => []
  | i :: items => i.open_tags ++ open_tags_all items

end

/-- The tag of an item that is an element. -/
def Item.tag : Item T → Option T
  | .element tag _ | .empty tag => some tag
  | .data _ => none

/-- The items inside an element. -/
def Item.content : Item T → List (Item T)
  | .element _ content => content
  | .empty _ | .data _ => []

/-- An element, for its tag and its content: none when it is written as one tag. -/
def Item.of (tag : T) : Option (List (Item T)) → Item T
  | some content => .element tag content
  | none => .empty tag

/-- The elements directly in some content. -/
def children (items : List (Item T)) : List T := items.filterMap Item.tag

/-- The tags of the children are among all tags. -/
theorem children_subset (items : List (Item T)) : ∀ t ∈ children items, t ∈ tags_all items := by
  intro t ht
  obtain ⟨i, hi, htag⟩ := List.mem_filterMap.mp ht
  clear ht
  induction items with
  | nil => cases hi
  | cons j items ih =>
    rw [tags_all]
    rcases List.mem_cons.mp hi with rfl | hi
    · refine List.mem_append_left _ ?_
      cases i with
      | element tag content =>
        cases htag
        exact List.mem_cons_self
      | empty tag =>
        cases htag
        exact List.mem_cons_self
      | data d => cases htag
    · exact List.mem_append_right _ (ih hi)

theorem tags_all_append (is js : List (Item T)) :
    tags_all (is ++ js) = tags_all is ++ tags_all js := by
  induction is with
  | nil => rfl
  | cons i is ih => rw [List.cons_append, tags_all, tags_all, ih, List.append_assoc]

/-- The tags in an item's content are among all tags. -/
theorem content_subset {items : List (Item T)} {i : Item T} (hi : i ∈ items) :
    ∀ t ∈ tags_all i.content, t ∈ tags_all items := by
  intro t ht
  induction items with
  | nil => cases hi
  | cons j items ih =>
    rw [tags_all]
    rcases List.mem_cons.mp hi with rfl | hi
    · refine List.mem_append_left _ ?_
      cases i with
      | element tag content => exact List.mem_cons_of_mem _ ht
      | empty tag => cases ht
      | data d => cases ht
    · exact List.mem_append_right _ (ih hi)

/-! ## The events of a tree -/

/-- An event of a document whose tags have a property. -/
def Keyed (P : T → Prop) : ReadEvent T → Prop
  | .Start e | .Empty e => P e
  | .End _ | .Text _ | .CData _ | .GeneralRef _ | .Other => True
  | .Err => False

/-- A property of all tags is one of all tags that the events carry. -/
theorem keyed_events (name : T → String) (P : T → Prop) :
    (∀ i : Item T, (∀ t ∈ i.tags, P t) → ∀ event ∈ i.events name, Keyed P event) ∧
      ∀ items : List (Item T), (∀ t ∈ tags_all items, P t) →
        ∀ event ∈ events_all name items, Keyed P event := by
  apply Item.induct
  case element =>
    intro tag content ih h event hevent
    rw [Item.tags, List.forall_mem_cons] at h
    rw [Item.events, List.mem_cons, List.mem_append, List.mem_singleton] at hevent
    rcases hevent with rfl | hevent | rfl
    · exact h.1
    · exact ih h.2 event hevent
    · exact trivial
  case empty =>
    intro tag h event hevent
    rw [List.mem_singleton.mp hevent]
    exact h tag List.mem_cons_self
  case data =>
    intro d h event hevent
    rw [List.mem_singleton.mp hevent]
    cases d <;> exact trivial
  case nil =>
    intro h event hevent
    cases hevent
  case cons =>
    intro i items hi hitems h event hevent
    rw [tags_all, List.forall_mem_append] at h
    rw [events_all, List.mem_append] at hevent
    rcases hevent with hevent | hevent
    · exact hi h.1 event hevent
    · exact hitems h.2 event hevent

end Trees

/-! ## The loops over the events of a tree -/

section Folds

variable {T K : Type} (localname : T → String) (k : T → K)

/-- One round of the PROPFIND loop, on a tag that has a key. -/
def find_step (s : FindState K) : ReadEvent T → FindState K
  | .Start e | .Empty e => s.on_element (localname e) (k e)
  | .End name => s.on_end name
  | .Text _ | .CData _ | .GeneralRef _ | .Other | .Err => s

/-- One round of the PROPPATCH loop, on a tag that has a key. -/
def patch_step (s : PatchState K) : ReadEvent T → PatchState K
  | .Start e => s.on_start (localname e) (k e)
  | .Empty e => s.on_empty (localname e) (k e)
  | .Text content => s.close (String.ofList (decode_xml_char_refs content))
  | .End name => s.on_end name
  | .CData _ | .GeneralRef _ | .Other | .Err => s

variable {localname k} {key : T → Except ParseError (String × K)}

/-- Where every key can be read, the PROPFIND loop is a fold of its step. -/
theorem propfind_loop_fold {events : List (ReadEvent T)}
    (h : ∀ event ∈ events, Keyed (fun e => key e = .ok (localname e, k e)) event)
    (s : FindState K) :
    propfind_loop key s events = .ok (events.foldl (find_step localname k) s) := by
  induction events generalizing s with
  | nil => rfl
  | cons event events ih =>
    rw [List.forall_mem_cons] at h
    cases event with
    | Start e =>
      have he : key e = .ok (localname e, k e) := h.1
      rw [propfind_loop, he]
      exact ih h.2 _
    | Empty e =>
      have he : key e = .ok (localname e, k e) := h.1
      rw [propfind_loop, he]
      exact ih h.2 _
    | End name => exact ih h.2 _
    | Text content => exact ih h.2 _
    | CData content => exact ih h.2 _
    | GeneralRef name => exact ih h.2 _
    | Other => exact ih h.2 _
    | Err => exact absurd h.1 id

/-- Where every key can be read, the PROPPATCH loop is a fold of its step. -/
theorem proppatch_loop_fold {events : List (ReadEvent T)}
    (h : ∀ event ∈ events, Keyed (fun e => key e = .ok (localname e, k e)) event)
    (s : PatchState K) :
    proppatch_loop key s events = .ok (events.foldl (patch_step localname k) s) := by
  induction events generalizing s with
  | nil => rfl
  | cons event events ih =>
    rw [List.forall_mem_cons] at h
    cases event with
    | Start e =>
      have he : key e = .ok (localname e, k e) := h.1
      rw [proppatch_loop, he]
      exact ih h.2 _
    | Empty e =>
      have he : key e = .ok (localname e, k e) := h.1
      rw [proppatch_loop, he]
      exact ih h.2 _
    | End name => exact ih h.2 _
    | Text content => exact ih h.2 _
    | CData content => exact ih h.2 _
    | GeneralRef name => exact ih h.2 _
    | Other => exact ih h.2 _
    | Err => exact absurd h.1 id

end Folds

end Rshs.Document
