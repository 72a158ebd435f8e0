/-
What a PROPFIND body is taken for.

The loop matches the names `prop`, `allprop` and `propname` at any depth, and lists the
key of every other element it meets while a flag is on, which the tags of elements named
`prop` turn on and off. `counted` says of a document which elements these are.

`classified_iff` says when the answer is the one the child of the root asks for. A
`propname` asks for names and is answered with an error, unless a key happens to be
listed inside; the names of a `prop` come out when the listed elements have the keys of
its children, and in a document without inner `prop` elements that have content this
means that no name inside is a keyword but that of elements deeper than the children.
-/
import Rshs.Document
import Rshs.Scope

set_option autoImplicit false

namespace Rshs.Classify

open Rshs.Xml Rshs.PropBody Rshs.Document

/-! ## Tags -/

def localname (e : Tag) : String := (split_name e.name).2

/-- The key the parsers make of an element. -/
def key_of (e : Tag) : String :=
  match element_key e with
  | .ok p => p.2
  | .error _ => ""

/-- No prefix is declared to be nothing. -/
def Declares (e : Tag) : Prop := ∀ p, e.attribute ("xmlns:" ++ p) ≠ some ""

theorem element_key_ok {e : Tag} (h : Declares e) :
    element_key e = .ok (localname e, key_of e) := by
  have hns : ∃ ns, extract_element_ns e = .ok (ns, localname e) := by
    unfold extract_element_ns localname
    cases hsplit : split_name e.name with
    | mk p l =>
      cases p with
      | none => exact ⟨_, rfl⟩
      | some p =>
        dsimp only
        cases hattr : e.attribute ("xmlns:" ++ p) with
        | none => exact ⟨_, rfl⟩
        | some value =>
          dsimp only
          rw [if_neg (fun heq => h p (by rw [hattr, heq]))]
          exact ⟨_, rfl⟩
  obtain ⟨ns, hns⟩ := hns
  unfold key_of element_key
  rw [hns]
  rfl

/-! ## The elements that are listed -/

/-- The names the loop looks for. -/
def Keyword (e : Tag) : Prop := localname e ∈ ["prop", "allprop", "propname"]

instance (e : Tag) : Decidable (Keyword e) := inferInstanceAs (Decidable (_ ∈ _))

/-- An element met with the flag on, unless it has the name of a keyword. -/
def own (on : Bool) (e : Tag) : List Tag := if on = true ∧ ¬ Keyword e then [e] else []

mutual

/-- The flag behind an item. -/
def after (on : Bool) : Item Tag → Bool
  | .element tag content => if localname tag = "prop" then false else after_all on content
  | .empty tag => on || localname tag = "prop"
  | .data _ => on

def after_all (on : Bool) : List (Item Tag) → Bool
  | [] => on
  | i :: items => after_all (after on i) items

end

mutual

/-- The elements whose nearest tag of an element named `prop` before them is no end tag,
keywords aside. -/
def counted (on : Bool) : Item Tag → List Tag
  | .element tag content => own on tag ++ counted_all (on || localname tag = "prop") content
  | .empty tag => own on tag
  | .data _ => []

def counted_all (on : Bool) : List (Item Tag) → List Tag
  | [] => []
  | i :: items => counted on i ++ counted_all (after on i) items

end

/-- An element of the name is among the tags. -/
def mentions (l : String) (tags : List Tag) : Bool := tags.any fun t => localname t = l

/-- What the loop has read: the elements listed, the flag behind, and whether there were
elements of some names. -/
def read (s : FindState String) (listed tags : List Tag) (on : Bool) : FindState String where
  props := s.props ++ listed.map key_of
  in_prop := on
  found_allprop := s.found_allprop || mentions "allprop" tags
  found_propname := s.found_propname || mentions "propname" tags
  seen_element := s.seen_element || !tags.isEmpty

theorem on_element_read (s : FindState String) (e : Tag) :
    s.on_element (localname e) (key_of e) =
      read s (own s.in_prop e) [e] (s.in_prop || localname e = "prop") := by
  obtain ⟨props, in_prop, found_allprop, found_propname, seen_element⟩ := s
  unfold FindState.on_element read own Keyword mentions
  by_cases hprop : localname e = "prop"
  · simp [hprop]
  · by_cases hall : localname e = "allprop"
    · simp [hall]
    · by_cases hname : localname e = "propname"
      · simp [hname]
      · cases in_prop <;> simp [hprop, hall, hname]

theorem on_end_read (s : FindState String) (e : Tag) :
    s.on_end e.name = { s with in_prop := if localname e = "prop" then false else s.in_prop } := by
  unfold FindState.on_end localname
  split <;> rfl

theorem read_read (s : FindState String) (ls ls' ts ts' : List Tag) (on on' : Bool) :
    read (read s ls ts on) ls' ts' on' = read s (ls ++ ls') (ts ++ ts') on' := by
  have hempty : (ts ++ ts').isEmpty = (ts.isEmpty && ts'.isEmpty) := by
    cases ts with
    | nil => rfl
    | cons t ts => rfl
  unfold read mentions
  simp only [List.map_append, List.append_assoc, List.any_append, Bool.or_assoc, hempty,
    Bool.not_and]

/-- **Reading a tree** is one look at it. -/
theorem fold_read :
    (∀ (i : Item Tag) (s : FindState String),
      (i.events Tag.name).foldl (find_step localname key_of) s =
        read s (counted s.in_prop i) i.tags (after s.in_prop i)) ∧
      ∀ (items : List (Item Tag)) (s : FindState String),
        (events_all Tag.name items).foldl (find_step localname key_of) s =
          read s (counted_all s.in_prop items) (tags_all items) (after_all s.in_prop items) := by
  apply Item.induct
  case element =>
    intro tag content ih s
    rw [Item.events, List.foldl_cons, List.foldl_append, find_step, on_element_read, ih, read_read,
      List.foldl_cons, List.foldl_nil, find_step, on_end_read, counted, Item.tags, after,
      List.singleton_append]
    by_cases hprop : localname tag = "prop"
    · simp [read, hprop]
    · simp [read, hprop]
  case empty =>
    intro tag s
    exact on_element_read s tag
  case data =>
    intro d s
    cases d <;> simp [Item.events, Data.event, find_step, counted, Item.tags, after, read, mentions]
  case nil =>
    intro s
    simp [events_all, counted_all, tags_all, after_all, read, mentions]
  case cons =>
    intro i items hi hitems s
    rw [events_all, List.foldl_append, hi, hitems, read_read, counted_all, tags_all, after_all]
    rfl

/-! ## Bodies -/

/-- A PROPFIND body whose root has one child: the child's tag, and what is inside it, none
when it is written as one tag. Between the tags stand white space, comments and the
like. -/
structure Propfind where
  prolog : List Data
  root : Tag
  before : List Data
  child : Tag
  inside : Option (List (Item Tag))
  behind : List Data
  epilog : List Data
  propfind : localname root = "propfind"
  kind : localname child = "allprop" ∨ localname child = "propname" ∨
    (localname child = "prop" ∧ children (inside.getD []) ≠ [])

namespace Propfind

variable (doc : Propfind)

def content : List (Item Tag) := doc.inside.getD []

def items : List (Item Tag) :=
  doc.prolog.map .data ++
    .element doc.root (doc.before.map .data ++ Item.of doc.child doc.inside :: doc.behind.map .data)
      :: doc.epilog.map .data

def events : List (ReadEvent Tag) := events_all Tag.name doc.items

/-- What the child asks for. -/
def meant : PropRequest :=
  if localname doc.child = "allprop" then .AllProp
  else if localname doc.child = "propname" then .PropName
  else .Named ((children doc.content).map key_of)

/-- What the namespace rules and the syntax of names ask of a body. -/
structure Legal : Prop where
  declares : ∀ e ∈ tags_all doc.items, Declares e
  names : ∀ e ∈ tags_all doc.items, '\x7b' ∉ (localname e).toList ∧ '\x7d' ∉ (localname e).toList

/-- The listed elements are those the child asks for. -/
def Counts : Prop :=
  localname doc.child = "allprop" ∨
    (localname doc.child = "propname" ∧ mentions "allprop" (tags_all doc.content) = false ∧
      counted_all false doc.content ≠ []) ∨
    (localname doc.child = "prop" ∧ mentions "allprop" (tags_all doc.content) = false ∧
      mentions "propname" (tags_all doc.content) = false ∧
      (counted_all true doc.content).map key_of = (children doc.content).map key_of)

end Propfind

theorem read_data (ds : List Data) (s : FindState String) :
    (events_all Tag.name (ds.map Item.data)).foldl (find_step localname key_of) s = s := by
  induction ds generalizing s with
  | nil => rfl
  | cons d ds ih =>
    rw [List.map_cons, events_all, List.foldl_append, ih]
    cases d <;> rfl

/-- What the loop has found at the end of a body. -/
theorem fold_propfind (doc : Propfind) :
    doc.events.foldl (find_step localname key_of) {} =
      { props := (counted_all (localname doc.child = "prop") doc.content).map key_of
        in_prop := after false (Item.of doc.child doc.inside)
        found_allprop := mentions "allprop" (doc.child :: tags_all doc.content)
        found_propname := mentions "propname" (doc.child :: tags_all doc.content)
        seen_element := true } := by
  have hof : ∀ on, counted on (Item.of doc.child doc.inside) =
      own on doc.child ++ counted_all (on || localname doc.child = "prop") doc.content := by
    intro on
    unfold Propfind.content
    cases doc.inside with
    | none => simp [Item.of, counted, counted_all]
    | some content => simp [Item.of, counted]
  have htags : (Item.of doc.child doc.inside).tags = doc.child :: tags_all doc.content := by
    unfold Propfind.content
    cases doc.inside with
    | none => simp [Item.of, Item.tags, tags_all]
    | some content => simp [Item.of, Item.tags]
  have hroot : find_step localname key_of ({} : FindState String) (.Start doc.root) =
      { seen_element := true } := by
    rw [find_step, on_element_read]
    simp [read, own, mentions, doc.propfind]
  have hend : ∀ s : FindState String,
      find_step localname key_of s (.End doc.root.name : ReadEvent Tag) = s := by
    intro s
    rw [find_step, on_end_read, doc.propfind]
    rfl
  unfold Propfind.events Propfind.items
  rw [events_all_append, List.foldl_append, read_data, events_all, List.foldl_append, read_data,
    Item.events, List.foldl_cons, hroot, List.foldl_append, events_all_append, List.foldl_append,
    read_data, events_all, List.foldl_append, read_data, fold_read.1, List.foldl_cons,
    List.foldl_nil, hend, hof, htags]
  simp [read, own]

/-- **What a body is taken for.** -/
theorem parse_propfind (reader : List Char → List (ReadEvent Tag)) {xml : List Char}
    {doc : Propfind} (hlegal : doc.Legal) (hread : reader xml = doc.events) :
    parse_propfind_request reader xml =
      if mentions "allprop" (doc.child :: tags_all doc.content) = true then .ok .AllProp
      else if counted_all (localname doc.child = "prop") doc.content = [] then
        .error (.InvalidBody "invalid PROPFIND request body")
      else if mentions "propname" (doc.child :: tags_all doc.content) = true then .ok .PropName
      else .ok (.Named ((counted_all (localname doc.child = "prop") doc.content).map key_of)) := by
  have hkeyed : ∀ event ∈ doc.events,
      Keyed (fun e => element_key e = .ok (localname e, key_of e)) event :=
    (keyed_events Tag.name _).2 doc.items fun e he => element_key_ok (hlegal.declares e he)
  unfold parse_propfind_request
  rw [hread, propfind_loop_fold hkeyed, fold_propfind]
  simp

/-- The answer is the one meant exactly when the listed elements are. -/
theorem meant_iff_counts (reader : List Char → List (ReadEvent Tag)) {xml : List Char}
    {doc : Propfind} (hlegal : doc.Legal) (hread : reader xml = doc.events) :
    parse_propfind_request reader xml = .ok doc.meant ↔ doc.Counts := by
  have hmention : ∀ l, mentions l (doc.child :: tags_all doc.content) =
      (decide (localname doc.child = l) || mentions l (tags_all doc.content)) := fun l => rfl
  rw [parse_propfind reader hlegal hread, hmention, hmention]
  unfold Propfind.meant Propfind.Counts
  rcases doc.kind with hall | hname | ⟨hprop, hsome⟩
  · simp [hall]
  · cases mentions "allprop" (tags_all doc.content) with
    | true => simp [hname]
    | false =>
      by_cases hnil : counted_all false doc.content = []
      · simp [hname, hnil]
      · simp [hname, hnil]
  · have hsome : children doc.content ≠ [] := hsome
    cases mentions "allprop" (tags_all doc.content) with
    | true => simp [hprop]
    | false =>
      cases mentions "propname" (tags_all doc.content) with
      | true => by_cases hnil : counted_all true doc.content = [] <;> simp [hprop, hnil]
      | false =>
        by_cases hnil : counted_all true doc.content = []
        · simp [hprop, hnil, hsome]
        · simp [hprop, hnil]

/-! ## Bodies without inner `prop` elements that have content -/

/-- Inside the child every element named `prop` is written as one tag. -/
def Propfind.Steady (doc : Propfind) : Prop :=
  ∀ e ∈ open_tags_all doc.content, localname e ≠ "prop"

/-- No element inside is named `allprop` or `propname`, no child `prop`, and every element
deeper than the children is. -/
structure Direct (content : List (Item Tag)) : Prop where
  no_keyword : ∀ e ∈ tags_all content, localname e ≠ "allprop" ∧ localname e ≠ "propname"
  children : ∀ e ∈ children content, localname e ≠ "prop"
  deeper : ∀ i ∈ content, ∀ e ∈ tags_all i.content, localname e = "prop"

/-- The flag stays on, and everything but keywords is listed. -/
theorem counted_steady :
    (∀ i : Item Tag, (∀ e ∈ i.open_tags, localname e ≠ "prop") →
      after true i = true ∧ counted true i = i.tags.filter (¬ Keyword ·)) ∧
      ∀ items : List (Item Tag), (∀ e ∈ open_tags_all items, localname e ≠ "prop") →
        after_all true items = true ∧ counted_all true items = (tags_all items).filter (¬ Keyword ·) := by
  have hown : ∀ e : Tag, own true e = [e].filter (¬ Keyword ·) := by
    intro e
    unfold own
    by_cases he : Keyword e <;> simp [he]
  apply Item.induct
  case element =>
    intro tag content ih h
    rw [Item.open_tags, List.forall_mem_cons] at h
    obtain ⟨hafter, hcounted⟩ := ih h.2
    rw [after, if_neg h.1, counted, Bool.true_or, hcounted, hown, Item.tags, ← List.filter_append]
    exact ⟨hafter, rfl⟩
  case empty =>
    intro tag h
    exact ⟨by simp [after], hown tag⟩
  case data =>
    intro d h
    exact ⟨rfl, rfl⟩
  case nil =>
    intro h
    exact ⟨rfl, rfl⟩
  case cons =>
    intro i items hi hitems h
    rw [open_tags_all, List.forall_mem_append] at h
    obtain ⟨hafter, hcounted⟩ := hi h.1
    rw [after_all, hafter, counted_all, hafter, hcounted, (hitems h.2).2, tags_all,
      List.filter_append]
    exact ⟨(hitems h.2).1, rfl⟩

/-- The elements of some content are its children and those deeper inside. -/
theorem countP_tags (p : Tag → Bool) (items : List (Item Tag)) :
    (tags_all items).countP p =
      (children items).countP p + (items.map fun i => (tags_all i.content).countP p).sum := by
  induction items with
  | nil => rfl
  | cons i items ih =>
    rw [tags_all, List.countP_append, ih, List.map_cons, List.sum_cons]
    cases i with
    | element tag content =>
      have hchildren : children (.element tag content :: items) = tag :: children items := rfl
      rw [hchildren, Item.tags, List.countP_cons, List.countP_cons, Item.content]
      omega
    | empty tag =>
      have hchildren : children (.empty tag :: items) = tag :: children items := rfl
      rw [hchildren, Item.tags, List.countP_cons, List.countP_cons, Item.content, tags_all]
      simp only [List.countP_nil]
      omega
    | data d =>
      have hchildren : children (.data d :: items) = children items := rfl
      rw [hchildren, Item.tags, Item.content, tags_all]
      simp only [List.countP_nil]
      omega

/-- Where no element deeper inside has a property, those that have it are children. -/
theorem filter_tags {p : Tag → Bool} {items : List (Item Tag)}
    (hdeep : ∀ i ∈ items, ∀ e ∈ tags_all i.content, p e = false) :
    (tags_all items).filter p = (children items).filter p := by
  induction items with
  | nil => rfl
  | cons i items ih =>
    rw [List.forall_mem_cons] at hdeep
    rw [tags_all, List.filter_append, ih hdeep.2]
    cases i with
    | element tag content =>
      have hchildren : children (.element tag content :: items) = [tag] ++ children items := rfl
      have hnone : (tags_all content).filter p = [] := by
        rw [List.filter_eq_nil_iff]
        intro e he
        rw [hdeep.1 e he]
        exact Bool.false_ne_true
      rw [hchildren, Item.tags, ← List.singleton_append, List.filter_append, hnone,
        List.append_nil, List.filter_append]
    | empty tag =>
      have hchildren : children (.empty tag :: items) = [tag] ++ children items := rfl
      rw [hchildren, Item.tags, List.filter_append]
    | data d => rfl

/-- A key tells the local name. -/
theorem localname_of_key {e e' : Tag} (h : Declares e) (h' : Declares e')
    (hname : '\x7b' ∉ (localname e).toList ∧ '\x7d' ∉ (localname e).toList)
    (hname' : '\x7b' ∉ (localname e').toList ∧ '\x7d' ∉ (localname e').toList)
    (hkey : key_of e = key_of e') : localname e = localname e' := by
  have hclark : ∀ {e : Tag}, Declares e → ∃ ns, key_of e = clark_key ns (localname e) := by
    intro e he
    have hok := element_key_ok he
    unfold element_key at hok
    cases hns : extract_element_ns e with
    | error err =>
      rw [hns] at hok
      cases hok
    | ok p =>
      rw [hns] at hok
      simp only [Except.map, Except.ok.injEq, Prod.mk.injEq] at hok
      exact ⟨p.1, by rw [← hok.2, hok.1]⟩
  obtain ⟨ns, hk⟩ := hclark h
  obtain ⟨ns', hk'⟩ := hclark h'
  rw [hk, hk'] at hkey
  exact (Scope.clark_key_injective hname.1 hname.2 hname'.1 hname'.2 hkey).2

theorem mentions_false_iff {l : String} {tags : List Tag} :
    mentions l tags = false ↔ ∀ e ∈ tags, localname e ≠ l := by
  unfold mentions
  rw [List.any_eq_false]
  simp

/-- Without inner `prop` elements that have content, the listed elements have the keys of
the children exactly when they are the children. -/
theorem counts_iff_direct {doc : Propfind} (hlegal : doc.Legal)
    (hprop : localname doc.child = "prop") (hsteady : doc.Steady) :
    doc.Counts ↔ Direct doc.content := by
  have hitems : ∀ e ∈ tags_all doc.content, e ∈ tags_all doc.items := by
    intro e he
    have hchild : e ∈ (Item.of doc.child doc.inside).tags := by
      unfold Propfind.content at he
      cases hinside : doc.inside with
      | none =>
        rw [hinside] at he
        cases he
      | some content =>
        rw [hinside] at he
        exact List.mem_cons_of_mem _ he
    unfold Propfind.items
    rw [tags_all_append, tags_all, Item.tags, tags_all_append, tags_all]
    simp only [List.mem_append, List.mem_cons]
    exact Or.inr (Or.inl (Or.inr (Or.inr (Or.inl hchild))))
  have hcounts : doc.Counts ↔ mentions "allprop" (tags_all doc.content) = false ∧
      mentions "propname" (tags_all doc.content) = false ∧
      ((tags_all doc.content).filter (¬ Keyword ·)).map key_of =
        (children doc.content).map key_of := by
    unfold Propfind.Counts
    rw [(counted_steady.2 doc.content hsteady).2]
    simp [hprop]
  have hfree : ∀ e : Tag, localname e ≠ "allprop" → localname e ≠ "propname" →
      localname e ≠ "prop" → ¬ Keyword e := by
    intro e hall hname hp hkey
    unfold Keyword at hkey
    simp only [List.mem_cons, List.not_mem_nil, or_false] at hkey
    rcases hkey with h | h | h
    · exact hp h
    · exact hall h
    · exact hname h
  rw [hcounts, mentions_false_iff, mentions_false_iff]
  constructor
  · rintro ⟨hall, hname, hkeys⟩
    have hchildren : ∀ e ∈ children doc.content, localname e ≠ "prop" := by
      -- the key of a child is that of a listed element
      intro e he hp
      have hmem : key_of e ∈ (children doc.content).map key_of := List.mem_map_of_mem he
      rw [← hkeys] at hmem
      obtain ⟨e', he', hkey⟩ := List.mem_map.mp hmem
      obtain ⟨hin, hno⟩ := List.mem_filter.mp he'
      have hin' := hitems e (children_subset _ e he)
      have hlocal := localname_of_key (hlegal.declares e' (hitems e' hin))
        (hlegal.declares e hin') (hlegal.names e' (hitems e' hin)) (hlegal.names e hin') hkey
      have hkeyword : Keyword e' := by
        unfold Keyword
        rw [hlocal, hp]
        decide
      exact of_decide_eq_true hno hkeyword
    refine ⟨fun e he => ⟨hall e he, hname e he⟩, hchildren, fun i hi e he => ?_⟩
    -- the children are as many as there are listed elements
    have hlen := congrArg List.length hkeys
    rw [List.length_map, List.length_map, ← List.countP_eq_length_filter, countP_tags] at hlen
    have hlisted : (children doc.content).countP (¬ Keyword ·) =
        (children doc.content).length := by
      rw [List.countP_eq_length]
      intro e he
      have hin := children_subset _ e he
      exact decide_eq_true (hfree e (hall e hin) (hname e hin) (hchildren e he))
    have hzero : ((doc.content.map fun i =>
        (tags_all i.content).countP (¬ Keyword ·)).sum) = 0 := by omega
    have hnone := List.sum_eq_zero_iff_forall_eq_nat.mp hzero _ (List.mem_map_of_mem hi)
    have hkeyword := List.countP_eq_zero.mp hnone e he
    by_contra hp
    have hin := content_subset hi e he
    exact hkeyword (decide_eq_true (hfree e (hall e hin) (hname e hin) hp))
  · rintro ⟨hno, hchildren, hdeep⟩
    refine ⟨fun e he => (hno e he).1, fun e he => (hno e he).2, ?_⟩
    have hdeeper : ∀ i ∈ doc.content, ∀ e ∈ tags_all i.content,
        (decide ¬ Keyword e) = false := by
      intro i hi e he
      have hkeyword : Keyword e := by
        unfold Keyword
        rw [hdeep i hi e he]
        decide
      simpa using hkeyword
    have hself : (children doc.content).filter (¬ Keyword ·) = children doc.content := by
      rw [List.filter_eq_self]
      intro e he
      have hin := hno e (children_subset _ e he)
      exact decide_eq_true (hfree e hin.1 hin.2 (hchildren e he))
    rw [filter_tags hdeeper, hself]

/-- **When a PROPFIND body is classified by its grammar.** Always for `allprop`; for
`propname` and `prop` when the elements listed are those asked for. In a body without
inner `prop` elements that have content, the names of a `prop` come out exactly when no
element inside is named `allprop` or `propname`, no child is named `prop`, and every
element deeper than the children is. -/
theorem classified_iff {reader : List Char → List (ReadEvent Tag)} {xml : List Char}
    {doc : Propfind} (hlegal : doc.Legal) (hread : reader xml = doc.events) :
    (parse_propfind_request reader xml = .ok doc.meant ↔ doc.Counts) ∧
      (localname doc.child = "prop" → doc.Steady →
        (parse_propfind_request reader xml = .ok doc.meant ↔ Direct doc.content)) := by
  have hcounts := meant_iff_counts reader hlegal hread
  refine ⟨hcounts, fun hprop hsteady => ?_⟩
  rw [hcounts]
  exact counts_iff_direct hlegal hprop hsteady

/-! ## Two bodies -/

theorem declares_of_values {e : Tag} (h : ∀ a ∈ e.attributes, a.2 ≠ "") : Declares e := by
  intro p hattr
  obtain ⟨a, ha, hempty⟩ := Option.map_eq_some_iff.mp hattr
  exact h a (List.mem_of_find?_eq_some ha) hempty

/-- A body whose child is `child`, with `inside` in it. -/
def body (child : Tag) (inside : Option (List (Item Tag)))
    (kind : localname child = "allprop" ∨ localname child = "propname" ∨
      (localname child = "prop" ∧ children (inside.getD []) ≠ [])) : Propfind where
  prolog := [.other]
  root := Scope.root_tag
  before := []
  child := child
  inside := inside
  behind := []
  epilog := []
  propfind := by decide
  kind := kind

def propname_tag : Tag where
  name := "D:propname"
  attributes := []

/-- The names a client asks for with an empty `propname`. -/
def names_body : Propfind := body propname_tag none (Or.inr (Or.inl (by decide)))

def etag_tag : Tag where
  name := "D:getetag"
  attributes := []

/-- A request for one property, by its name. -/
def etag_body : Propfind :=
  body Scope.prop_tag (some [.empty etag_tag]) (Or.inr (Or.inr ⟨by decide, by simp [children, Item.tag]⟩))

/-- The text of a body whose child, as it is written, is `child`. -/
def document (child : String) : List Char :=
  ("<?xml version=\"1.0\"?><D:propfind xmlns:D=\"DAV:\" xmlns:X=\"urn:a\" xmlns:Y=\"urn:b\">" ++
    child ++ "</D:propfind>").toList

def names_text : List Char := document "<D:propname/>"

def etag_text : List Char := document "<D:prop><D:getetag/></D:prop>"

theorem names_body_legal : names_body.Legal := by
  have htags : tags_all names_body.items = [Scope.root_tag, propname_tag] := rfl
  constructor
  · rw [htags]
    intro e he
    apply declares_of_values
    revert e
    decide
  · rw [htags]
    decide

theorem etag_body_legal : etag_body.Legal := by
  have htags : tags_all etag_body.items = [Scope.root_tag, Scope.prop_tag, etag_tag] := rfl
  constructor
  · rw [htags]
    intro e he
    apply declares_of_values
    revert e
    decide
  · rw [htags]
    decide

theorem classified_iff_etag :
    parse_propfind_request (reads_as etag_text etag_body.events) etag_text
      = .ok etag_body.meant := by
  have hsteady : etag_body.Steady := by
    intro e he
    cases he
  have htags : tags_all etag_body.content = [etag_tag] := rfl
  refine ((classified_iff etag_body_legal (reads_as_text _ _)).2 (by decide) hsteady).mpr ⟨?_, ?_, ?_⟩
  · rw [htags]
    decide
  · intro e he
    have hin := children_subset _ e he
    rw [htags] at hin
    revert e
    decide
  · intro i hi e he
    rw [List.mem_singleton.mp hi] at he
    cases he

/-- An empty `propname` is answered with an error. -/
theorem propname_refused :
    ¬ ∀ (reader : List Char → List (ReadEvent Tag)) (xml : List Char) (doc : Propfind), doc.Legal →
      reader xml = doc.events → parse_propfind_request reader xml = .ok doc.meant := by
  intro h
  have hparse := h (reads_as names_text names_body.events) names_text names_body names_body_legal
    (reads_as_text _ _)
  have herror : parse_propfind_request (reads_as names_text names_body.events) names_text =
      .error (.InvalidBody "invalid PROPFIND request body") := by
    unfold parse_propfind_request
    rw [reads_as_text]
    rfl
  rw [herror] at hparse
  cases hparse

end Rshs.Classify
