/-
Whether the actions of a PROPPATCH are the instructions of its body.

An `Update` is a document of `set` and `remove` elements, each with a `prop` and any
properties in it. Its properties are the elements directly inside a `prop`, each with
the tags around it, so that none is confused with an element of a value. `actions_iff`
says when the parser makes one action of each of them and none of anything else: the
properties are plain. That is enough in every document, and needed in every steady one,
where no value turns off the flag it is read under.
-/
import Rshs.PatchTree
import Rshs.Scope

set_option autoImplicit false

namespace Rshs.Instructions

open Rshs.Webdav Rshs.PropBody Rshs.Scope Rshs.Document Rshs.PatchTree

/-! ## Several properties, several instructions -/

section Lists

variable {T : Type} {name : T → String} {is_set : Bool} {s : PatchState T}

theorem run_data_all (ds : List Data) (h : s.current_name = none) :
    run name s (ds.map .data) = s := by
  induction ds with
  | nil => rfl
  | cons d ds ih =>
    have hsame : run name s [.data d] = s := by
      rcases run_data name s d with hsame | ⟨value, hclose⟩
      · exact hsame
      · rw [hclose, close_none h]
    rw [List.map_cons, run_cons, hsame]
    exact ih

theorem shown_append (as bs : List (T × Option String)) :
    shown (as ++ bs) = shown as ++ shown bs := List.map_append

/-- Plain properties are one action each. -/
theorem read_all_plain {items : List (Item T)}
    (h : ∀ i ∈ items, Plain is_set (map (localname name) i)) (hclean : Clean is_set s) :
    Clean is_set (run name s items) ∧ ∃ new, (run name s items).actions = s.actions ++ new ∧
      shown new = (children items).map fun t => (t, is_set) := by
  induction items generalizing s with
  | nil => exact ⟨hclean, [], (List.append_nil _).symm, rfl⟩
  | cons i items ih =>
    rw [List.forall_mem_cons] at h
    obtain ⟨hclean₁, n₁, hn₁, hs₁⟩ := read_plain i h.1 hclean
    obtain ⟨hclean₂, n₂, hn₂, hs₂⟩ := ih h.2 hclean₁
    have hchildren : children (i :: items) = i.tag.toList ++ children items := by
      unfold children
      rw [List.filterMap_cons]
      cases i.tag <;> rfl
    rw [run_cons]
    refine ⟨hclean₂, n₁ ++ n₂, by rw [hn₂, hn₁, List.append_assoc], ?_⟩
    rw [shown_append, hs₁, hs₂, hchildren, List.map_append]

/-- What several properties have left: an action for an element of a value, or no more
actions than there are properties, and as many only when they are plain. -/
structure Counted (Deep : T → Prop) (number : ℕ) (all_plain : Prop)
    (new : List (T × Option String)) : Prop where
  bound : (∃ a ∈ new, Deep a.1) ∨ (new.length ≤ number ∧ (new.length = number → all_plain))

theorem Counted.append {Deep : T → Prop} {n m : ℕ} {P Q : Prop} {as bs : List (T × Option String)}
    (h : Counted Deep n P as) (h' : Counted Deep m Q bs) : Counted Deep (n + m) (P ∧ Q) (as ++ bs) := by
  constructor
  rcases h.bound with ⟨a, ha, hdeep⟩ | ⟨hle, hall⟩
  · exact Or.inl ⟨a, List.mem_append_left _ ha, hdeep⟩
  · rcases h'.bound with ⟨a, ha, hdeep⟩ | ⟨hle', hall'⟩
    · exact Or.inl ⟨a, List.mem_append_right _ ha, hdeep⟩
    · refine Or.inr ⟨by rw [List.length_append]; omega, fun heq => ?_⟩
      rw [List.length_append] at heq
      exact ⟨hall (by omega), hall' (by omega)⟩

theorem read_all_steady {Deep : T → Prop} {items : List (Item T)}
    (hdeep : ∀ i ∈ items, ∀ t ∈ tags_all i.content, Deep t)
    (hsteady : ∀ i ∈ items, Steady is_set (map (localname name) i)) (hbetween : Between is_set s) :
    Between is_set (run name s items) ∧ ∃ new, (run name s items).actions = s.actions ++ new ∧
      Counted Deep (children items).length (∀ i ∈ items, Plain is_set (map (localname name) i)) new := by
  -- on the properties: each counts once, and leaves the flags for the next
  induction items generalizing s with
  | nil => exact ⟨hbetween, [], (List.append_nil _).symm, ⟨Or.inr ⟨le_refl _, by simp⟩⟩⟩
  | cons i items ih =>
    rw [List.forall_mem_cons] at hdeep hsteady
    -- an action too many comes from inside a property, and names a tag that lies deep
    obtain ⟨n₁, h₁, hdata⟩ := read_property i hsteady.1 hbetween
    obtain ⟨hbetween₂, n₂, hn₂, h₂⟩ := ih hdeep.2 hsteady.2 h₁.between
    have hlen : (children (i :: items)).length = i.tag.toList.length + (children items).length := by
      unfold children
      rw [List.filterMap_cons]
      cases i.tag with
      | none => simp
      | some t =>
        simp
        omega
    have hfirst : Counted Deep i.tag.toList.length (Plain is_set (map (localname name) i)) n₁ := by
      constructor
      rcases h₁.cases with ⟨a, ha, hin⟩ | rfl | ⟨hone, hplain⟩
      · exact Or.inl ⟨a, ha, hdeep.1 a.1 hin⟩
      · refine Or.inr ⟨Nat.zero_le _, fun hzero => ?_⟩
        cases i with
        | element tag content => cases hzero
        | empty tag => cases hzero
        | data d => exact trivial
      · refine Or.inr ⟨?_, fun _ => hplain⟩
        cases htag : i.tag with
        | none =>
          rw [hdata htag] at hone
          cases hone
        | some t =>
          rw [hone]
          exact le_refl 1
    rw [run_cons]
    refine ⟨hbetween₂, n₁ ++ n₂, by rw [hn₂, h₁.actions, List.append_assoc], ?_⟩
    have hboth := hfirst.append h₂
    rw [hlen]
    refine ⟨hboth.bound.imp_right fun hcount => ⟨hcount.1, fun heq => ?_⟩⟩
    rw [List.forall_mem_cons]
    exact hcount.2 heq

/-! ## One instruction -/

/-- Between two instructions. -/
structure Idle (s : PatchState T) : Prop where
  current : s.current_name = none
  in_set : s.in_set = false
  in_remove : s.in_remove = false

/-- The state the start tag of an instruction leaves. -/
def started (is_set : Bool) (s : PatchState T) : PatchState T :=
  if is_set then { s with in_set := true } else { s with in_remove := true }

/-- The state the end tag of an instruction leaves. -/
def stopped (is_set : Bool) (s : PatchState T) : PatchState T :=
  if is_set then { s with in_set := false } else { s with in_remove := false }

theorem started_actions (is_set : Bool) (s : PatchState T) :
    (started is_set s).actions = s.actions ∧ (started is_set s).current_name = s.current_name := by
  cases is_set <;> exact ⟨rfl, rfl⟩

theorem clean_started (h : Idle s) : Clean is_set (started is_set s) := by
  cases is_set with
  | true => exact ⟨⟨h.current, nofun, fun _ => h.in_remove⟩, fun _ => rfl, nofun⟩
  | false => exact ⟨⟨h.current, fun _ => h.in_set, nofun⟩, nofun, fun _ => rfl⟩

theorem idle_stopped (h : Between is_set s) : Idle (stopped is_set s) := by
  cases is_set with
  | true => exact ⟨h.current, rfl, h.in_remove rfl⟩
  | false => exact ⟨h.current, h.in_set rfl, rfl⟩

theorem stopped_actions (is_set : Bool) (s : PatchState T) :
    (stopped is_set s).actions = s.actions := by
  cases is_set <;> rfl

/-- **Reading an instruction** is reading its properties under its flag. -/
theorem run_instruction {tag prop : T} {before behind : List Data}
    {inside : Option (List (Item T))} (htag : localname name tag = instruction is_set)
    (hprop : localname name prop = "prop") (hidle : Idle s)
    (hcur : (run name (started is_set s) (inside.getD [])).current_name = none) :
    run name s [.element tag (before.map .data ++ Item.of prop inside :: behind.map .data)] =
      stopped is_set (run name (started is_set s) (inside.getD [])) := by
  have hstart : s.on_start (localname name tag) tag = started is_set s := by
    rw [htag]
    cases is_set <;> rfl
  have hend : ∀ s : PatchState T, s.on_end (name tag) = stopped is_set s := by
    intro s
    cases is_set with
    | true => exact on_end_set htag
    | false => exact on_end_remove htag
  have hnone : (started is_set s).current_name = none := by
    rw [(started_actions is_set s).2]
    exact hidle.current
  have hinner : run name (started is_set s) [Item.of prop inside] =
      run name (started is_set s) (inside.getD []) := by
    cases inside with
    | none =>
      unfold Item.of
      rw [run_empty, Option.getD_none, run_nil]
      unfold PatchState.on_empty
      rw [if_neg (fun h => h.2 hprop), if_neg (fun h => h.2 hprop)]
    | some content =>
      unfold Item.of
      rw [Option.getD_some] at hcur
      have hstart' : (started is_set s).on_start (localname name prop) prop = started is_set s := by
        rw [hprop]
        rfl
      rw [run_element, hstart', on_end_other (by rw [hprop]; decide) (by rw [hprop]; decide),
        close_none hcur, Option.getD_some]
  rw [run_element, hstart, hend, run_append, run_data_all before hnone, run_cons, hinner,
    run_data_all behind hcur]

end Lists

/-! ## Documents -/

/-- A `set` or a `remove`, with its `prop`: what is inside the `prop`, none when it is
written as one tag. -/
structure Instruction where
  is_set : Bool
  tag : Tag
  before : List Data
  prop : Tag
  inside : Option (List (Item Tag))
  behind : List Data
  named : localname Tag.name tag = instruction is_set
  prop_named : localname Tag.name prop = "prop"

namespace Instruction

variable (ins : Instruction)

def content : List (Item Tag) := ins.inside.getD []

def item : Item Tag :=
  .element ins.tag (ins.before.map .data ++ Item.of ins.prop ins.inside :: ins.behind.map .data)

/-- The properties, each with the tags around it. -/
def properties (root : Tag) : List (Site × Bool) :=
  (children ins.content).map fun e => (⟨e, [ins.prop, ins.tag, root]⟩, ins.is_set)

end Instruction

/-- A `propertyupdate`: its instructions, each with what stands behind it. -/
structure Update where
  prolog : List Data
  root : Tag
  before : List Data
  instructions : List (Instruction × List Data)
  epilog : List Data
  propertyupdate : localname Tag.name root = "propertyupdate"

namespace Update

variable (doc : Update)

def items : List (Item Tag) :=
  doc.prolog.map .data ++
    .element doc.root (doc.before.map .data ++
      doc.instructions.flatMap fun p => p.1.item :: p.2.map .data) :: doc.epilog.map .data

def events : List (ReadEvent Tag) := events_all Tag.name doc.items

def properties : List (Site × Bool) := doc.instructions.flatMap fun p => p.1.properties doc.root

/-- No prefix is declared to be nothing. -/
def Legal : Prop := ∀ e ∈ tags_all doc.items, ∀ p raw,
  e.attribute ("xmlns:" ++ p) = some raw → decoded raw ≠ ""

/-- Every property is taken for one. -/
def Plainly : Prop := ∀ p ∈ doc.instructions, ∀ i ∈ p.1.content,
  Plain p.1.is_set (map (localname Tag.name) i)

/-- No value turns off the flag it is read under. -/
def Steady : Prop := ∀ p ∈ doc.instructions, ∀ i ∈ p.1.content,
  PatchTree.Steady p.1.is_set (map (localname Tag.name) i)

end Update

/-- **What the claim asks of a PROPPATCH**: one action for each property, in order, with a
value for those of a `set`, and each made from the property element itself. -/
def Follows (reader : List Char → List (ReadEvent Tag)) (xml : List Char) (doc : Update) : Prop :=
  ∃ op, parse_proppatch_request reader xml = .ok op ∧
    op.actions.map (fun a => (a.name, a.value.isSome)) =
      doc.properties.map (fun p => (own_key decoded p.1, p.2)) ∧
    proppatch_sites doc.events = doc.properties.map Prod.fst

/-! ## The elements with the tags around them -/

mutual

def sited (around : List Tag) : Item Tag → Item Site
  | .element tag content => .element ⟨tag, around⟩ (sited_all (tag :: around) content)
  | .empty tag => .empty ⟨tag, around⟩
  | .data d => .data d

def sited_all (around : List Tag) : List (Item Tag) → List (Item Site)
  | [] => []
  | i :: items => sited around i :: sited_all around items

end

/-- The name of an element, as its end tag has it. -/
def site_name (s : Site) : String := s.tag.name

theorem in_context_sited :
    (∀ (i : Item Tag) (around : List Tag) (rest : List (ReadEvent Tag)),
      in_context around (i.events Tag.name ++ rest) =
        (sited around i).events site_name ++ in_context around rest) ∧
      ∀ (items : List (Item Tag)) (around : List Tag) (rest : List (ReadEvent Tag)),
        in_context around (events_all Tag.name items ++ rest) =
          events_all site_name (sited_all around items) ++ in_context around rest := by
  apply Item.induct
  case element =>
    intro tag content ih around rest
    rw [Item.events, List.cons_append, in_context, List.append_assoc, ih, sited, Item.events]
    simp only [List.cons_append, List.append_assoc, List.nil_append]
    rfl
  case empty =>
    intro tag around rest
    rfl
  case data =>
    intro d around rest
    cases d <;> rfl
  case nil =>
    intro around rest
    rfl
  case cons =>
    intro i items hi hitems around rest
    rw [events_all, List.append_assoc, hi, hitems, sited_all, events_all, List.append_assoc]

/-- The tree of names is the same. -/
theorem map_sited :
    (∀ (i : Item Tag) (around : List Tag),
      map (localname site_name) (sited around i) = map (localname Tag.name) i) ∧
      ∀ (items : List (Item Tag)) (around : List Tag),
        map_all (localname site_name) (sited_all around items) =
          map_all (localname Tag.name) items := by
  apply Item.induct
  case element =>
    intro tag content ih around
    rw [sited, map, map, ih]
    rfl
  case empty =>
    intro tag around
    rfl
  case data =>
    intro d around
    rfl
  case nil =>
    intro around
    rfl
  case cons =>
    intro i items hi hitems around
    rw [sited_all, map_all, map_all, hi, hitems]

/-- A site of some content has the tags of the content around it. -/
theorem around_sited :
    (∀ (i : Item Tag) (around : List Tag), ∀ s ∈ (sited around i).tags,
      around.length ≤ s.around.length ∧ s.tag ∈ i.tags) ∧
      ∀ (items : List (Item Tag)) (around : List Tag), ∀ s ∈ tags_all (sited_all around items),
        around.length ≤ s.around.length ∧ s.tag ∈ tags_all items := by
  apply Item.induct
  case element =>
    intro tag content ih around s hs
    rcases List.mem_cons.mp hs with rfl | hs
    · exact ⟨le_refl _, List.mem_cons_self⟩
    · obtain ⟨hlen, hin⟩ := ih (tag :: around) s hs
      rw [List.length_cons] at hlen
      exact ⟨by omega, List.mem_cons_of_mem _ hin⟩
  case empty =>
    intro tag around s hs
    rw [List.mem_singleton.mp hs]
    exact ⟨le_refl _, List.mem_cons_self⟩
  case data =>
    intro d around s hs
    cases hs
  case nil =>
    intro around s hs
    cases hs
  case cons =>
    intro i items hi hitems around s hs
    rw [tags_all, List.mem_append]
    rcases List.mem_append.mp hs with hs | hs
    · exact ⟨(hi around s hs).1, Or.inl (hi around s hs).2⟩
    · exact ⟨(hitems around s hs).1, Or.inr (hitems around s hs).2⟩

theorem sited_append (around : List Tag) (is js : List (Item Tag)) :
    sited_all around (is ++ js) = sited_all around is ++ sited_all around js := by
  induction is with
  | nil => rfl
  | cons i is ih => rw [List.cons_append, sited_all, sited_all, ih, List.cons_append]

theorem sited_data (around : List Tag) (ds : List Data) :
    sited_all around (ds.map .data) = ds.map .data := by
  induction ds with
  | nil => rfl
  | cons d ds ih => rw [List.map_cons, sited_all, ih]; rfl

theorem mem_sited {around : List Tag} {items : List (Item Tag)} {j : Item Site}
    (h : j ∈ sited_all around items) : ∃ i ∈ items, j = sited around i := by
  induction items with
  | nil => cases h
  | cons i items ih =>
    rcases List.mem_cons.mp h with rfl | h
    · exact ⟨i, List.mem_cons_self, rfl⟩
    · obtain ⟨i', hi', hj⟩ := ih h
      exact ⟨i', List.mem_cons_of_mem _ hi', hj⟩

theorem sited_mem {around : List Tag} {items : List (Item Tag)} {i : Item Tag} (h : i ∈ items) :
    sited around i ∈ sited_all around items := by
  induction items with
  | nil => cases h
  | cons j items ih =>
    rcases List.mem_cons.mp h with rfl | h
    · exact List.mem_cons_self
    · exact List.mem_cons_of_mem _ (ih h)

theorem children_sited (around : List Tag) (items : List (Item Tag)) :
    children (sited_all around items) = (children items).map fun e => ⟨e, around⟩ := by
  induction items with
  | nil => rfl
  | cons i items ih =>
    unfold children at ih ⊢
    rw [sited_all, List.filterMap_cons, List.filterMap_cons]
    cases i with
    | element tag content =>
      rw [sited, Item.tag, Item.tag, List.map_cons, ih]
    | empty tag =>
      rw [sited, Item.tag, Item.tag, List.map_cons, ih]
    | data d =>
      rw [sited, Item.tag, Item.tag, ih]

/-! ## The parser on a document -/

section Parse

variable {doc : Update}

theorem site_key_ok {s : Site} (h : ∀ p raw, s.tag.attribute ("xmlns:" ++ p) = some raw →
    decoded raw ≠ "") : site_key decoded s = .ok (localname site_name s, id s) := by
  have hns : ∃ ns, extract_element_ns (Tag.seen decoded s.tag) =
      .ok (ns, localname site_name s) := by
    have hname : (Tag.seen decoded s.tag).name = s.tag.name := rfl
    unfold extract_element_ns localname site_name
    rw [hname]
    cases hsplit : split_name s.tag.name with
    | mk p l =>
      cases p with
      | none => exact ⟨_, rfl⟩
      | some p =>
        dsimp only
        rw [attribute_seen]
        cases hattr : s.tag.attribute ("xmlns:" ++ p) with
        | none => exact ⟨_, rfl⟩
        | some raw =>
          rw [Option.map_some]
          dsimp only
          rw [if_neg (h p raw hattr)]
          exact ⟨_, rfl⟩
  obtain ⟨ns, hns⟩ := hns
  unfold site_key
  rw [hns]
  rfl

/-- The state the loop ends in, with the elements themselves for keys. -/
def final (doc : Update) : PatchState Site := run site_name {} (sited_all [] doc.items)

theorem loop_final (hlegal : doc.Legal) :
    proppatch_loop (site_key decoded) {} (in_context [] doc.events) = .ok (final doc) := by
  have hcontext : in_context [] doc.events = events_all site_name (sited_all [] doc.items) := by
    have h := in_context_sited.2 doc.items [] []
    simp only [List.append_nil] at h
    rw [Update.events, h]
    exact List.append_nil _
  have hkeyed : ∀ event ∈ events_all site_name (sited_all [] doc.items),
      Keyed (fun s => site_key decoded s = .ok (localname site_name s, id s)) event :=
    (keyed_events site_name _).2 _ fun s hs =>
      site_key_ok (hlegal s.tag (around_sited.2 doc.items [] s hs).2)
  rw [hcontext, proppatch_loop_fold hkeyed]
  rfl

/-- The claim is about the actions the loop ends with. -/
theorem follows_iff {reader : List Char → List (ReadEvent Tag)} {xml : List Char}
    (hlegal : doc.Legal) (hread : reader (decode_xml_char_refs xml) = decoded_events doc.events)
    (hsome : doc.properties ≠ []) :
    Follows reader xml doc ↔ shown (final doc).actions = doc.properties := by
  -- the parser looks the keys up after the loop, at the tags that the loop has named
  have hsites : proppatch_sites doc.events = (final doc).actions.map Prod.fst := by
    unfold proppatch_sites
    rw [loop_final hlegal]
  have hparse : parse_proppatch_request reader xml = if (final doc).actions = [] then
        .error (.InvalidBody "invalid PROPPATCH body")
      else .ok { actions := (final doc).actions.map fun a => ⟨own_key decoded a.1, a.2⟩ } := by
    unfold parse_proppatch_request
    rw [hread, proppatch_loop_sites, loop_final hlegal]
    simp only [Except.map, PatchState.map, List.map_eq_nil_iff, List.map_map]
    rfl
  unfold Follows
  rw [hsites, hparse]
  constructor
  · rintro ⟨op, hop, hshown, hfst⟩
    split at hop
    · cases hop
    · cases hop
      have hsnd : (shown (final doc).actions).map Prod.snd = doc.properties.map Prod.snd := by
        have h := congrArg (List.map Prod.snd) hshown
        simp only [List.map_map] at h
        unfold shown
        rw [List.map_map]
        exact h
      have hfst' : (shown (final doc).actions).map Prod.fst = doc.properties.map Prod.fst := by
        unfold shown
        rw [List.map_map]
        exact hfst
      rw [← List.zip_unzip (shown (final doc).actions), ← List.zip_unzip doc.properties,
        List.unzip_eq_map, List.unzip_eq_map, hsnd, hfst']
  · intro h
    have hne : (final doc).actions ≠ [] := by
      intro hnil
      rw [hnil] at h
      exact hsome h.symm
    rw [if_neg hne]
    refine ⟨_, rfl, ?_, ?_⟩
    · rw [← h]
      unfold shown
      rw [List.map_map, List.map_map]
      rfl
    · rw [← h]
      unfold shown
      rw [List.map_map]
      rfl

end Parse

/-! ## The instructions of a document -/

section Runs

variable {doc : Update} {root : Tag} {s : PatchState Site}

/-- The tags around the properties of an instruction. -/
def Instruction.around (root : Tag) (ins : Instruction) : List Tag := [ins.prop, ins.tag, root]

theorem sited_instruction (root : Tag) (ins : Instruction) :
    sited [root] ins.item = .element ⟨ins.tag, [root]⟩ (ins.before.map .data ++
      Item.of ⟨ins.prop, [ins.tag, root]⟩ (ins.inside.map (sited_all (ins.around root))) ::
        ins.behind.map .data) := by
  unfold Instruction.item
  rw [sited, sited_append, sited_data, sited_all, sited_data]
  cases ins.inside with
  | none => rfl
  | some content => rfl

theorem inside_sited (root : Tag) (ins : Instruction) :
    (ins.inside.map (sited_all (ins.around root))).getD [] =
      sited_all (ins.around root) ins.content := by
  unfold Instruction.content
  cases ins.inside with
  | none => rfl
  | some content => rfl

/-- An instruction and what stands behind it. -/
theorem run_sited (p : Instruction × List Data) (hidle : Idle s)
    (hbetween : Between p.1.is_set (run site_name (started p.1.is_set s)
      (sited_all (p.1.around root) p.1.content))) :
    Idle (run site_name s (sited_all [root] (p.1.item :: p.2.map .data))) ∧
      (run site_name s (sited_all [root] (p.1.item :: p.2.map .data))).actions =
        (run site_name (started p.1.is_set s) (sited_all (p.1.around root) p.1.content)).actions := by
  have htag : localname site_name ⟨p.1.tag, [root]⟩ = instruction p.1.is_set := p.1.named
  have hprop : localname site_name ⟨p.1.prop, [p.1.tag, root]⟩ = "prop" := p.1.prop_named
  have hinside := inside_sited root p.1
  have hcur := hbetween.current
  rw [← hinside] at hcur
  have hstopped := idle_stopped hbetween
  rw [sited_all, sited_data, run_cons, sited_instruction,
    run_instruction htag hprop hidle hcur, hinside, run_data_all p.2 hstopped.current]
  exact ⟨hstopped, stopped_actions _ _⟩

/-- **Plain instructions are followed.** -/
theorem read_plain_instructions (root : Tag) {ps : List (Instruction × List Data)}
    (h : ∀ p ∈ ps, ∀ i ∈ p.1.content, Plain p.1.is_set (map (localname Tag.name) i))
    (hidle : Idle s) :
    Idle (run site_name s (sited_all [root] (ps.flatMap fun p => p.1.item :: p.2.map .data))) ∧
      ∃ new, (run site_name s (sited_all [root]
          (ps.flatMap fun p => p.1.item :: p.2.map .data))).actions = s.actions ++ new ∧
        shown new = ps.flatMap fun p => p.1.properties root := by
  induction ps generalizing s with
  | nil => exact ⟨hidle, [], (List.append_nil _).symm, rfl⟩
  | cons p ps ih =>
    rw [List.forall_mem_cons] at h
    have hplain : ∀ j ∈ sited_all (p.1.around root) p.1.content,
        Plain p.1.is_set (map (localname site_name) j) := by
      intro j hj
      obtain ⟨i, hi, rfl⟩ := mem_sited hj
      rw [map_sited.1]
      exact h.1 i hi
    obtain ⟨hclean, n₁, hn₁, hs₁⟩ :=
      read_all_plain hplain (@clean_started Site p.1.is_set s hidle)
    obtain ⟨hidle₁, hactions⟩ := run_sited p hidle hclean.toBetween
    obtain ⟨hidle₂, n₂, hn₂, hs₂⟩ := ih h.2 hidle₁
    rw [List.flatMap_cons, sited_append, run_append]
    refine ⟨hidle₂, n₁ ++ n₂, ?_, ?_⟩
    · rw [hn₂, hactions, hn₁, (started_actions _ s).1, List.append_assoc]
    · rw [shown_append, hs₁, hs₂, List.flatMap_cons, children_sited, List.map_map]
      rfl

/-- An element of a value has four tags around it, or more. -/
def Deep (s : Site) : Prop := 4 ≤ s.around.length

theorem deep_inside (root : Tag) (ins : Instruction) :
    ∀ j ∈ sited_all (ins.around root) ins.content, ∀ s ∈ tags_all j.content, Deep s := by
  intro j hj s hs
  obtain ⟨i, -, rfl⟩ := mem_sited hj
  cases i with
  | element tag content => exact (around_sited.2 content _ s hs).1
  | empty tag => cases hs
  | data d => cases hs

theorem read_steady_instructions (root : Tag) {ps : List (Instruction × List Data)}
    (h : ∀ p ∈ ps, ∀ i ∈ p.1.content, PatchTree.Steady p.1.is_set (map (localname Tag.name) i))
    (hidle : Idle s) :
    Idle (run site_name s (sited_all [root] (ps.flatMap fun p => p.1.item :: p.2.map .data))) ∧
      ∃ new, (run site_name s (sited_all [root]
          (ps.flatMap fun p => p.1.item :: p.2.map .data))).actions = s.actions ++ new ∧
        Counted Deep (ps.flatMap fun p => p.1.properties root).length
          (∀ p ∈ ps, ∀ i ∈ p.1.content, Plain p.1.is_set (map (localname Tag.name) i)) new := by
  induction ps generalizing s with
  | nil => exact ⟨hidle, [], (List.append_nil _).symm, ⟨Or.inr ⟨le_refl _, by simp⟩⟩⟩
  | cons p ps ih =>
    rw [List.forall_mem_cons] at h
    have hsteady : ∀ j ∈ sited_all (p.1.around root) p.1.content,
        PatchTree.Steady p.1.is_set (map (localname site_name) j) := by
      intro j hj
      obtain ⟨i, hi, rfl⟩ := mem_sited hj
      rw [map_sited.1]
      exact h.1 i hi
    obtain ⟨hbetween, n₁, hn₁, h₁⟩ := read_all_steady (deep_inside root p.1) hsteady
      (@clean_started Site p.1.is_set s hidle).toBetween
    obtain ⟨hidle₁, hactions⟩ := run_sited p hidle hbetween
    obtain ⟨hidle₂, n₂, hn₂, h₂⟩ := ih h.2 hidle₁
    have hlen : (children (sited_all (p.1.around root) p.1.content)).length =
        (p.1.properties root).length := by
      rw [children_sited, List.length_map, Instruction.properties, List.length_map]
    rw [List.flatMap_cons, sited_append, run_append]
    refine ⟨hidle₂, n₁ ++ n₂, ?_, ?_⟩
    · rw [hn₂, hactions, hn₁, (started_actions _ s).1, List.append_assoc]
    · have hboth := h₁.append h₂
      rw [List.flatMap_cons, List.length_append, ← hlen]
      refine ⟨hboth.bound.imp_right fun hcount => ⟨hcount.1, fun heq => ?_⟩⟩
      obtain ⟨hfirst, hrest⟩ := hcount.2 heq
      rw [List.forall_mem_cons]
      refine ⟨fun i hi => ?_, hrest⟩
      rw [← map_sited.1 i (p.1.around root)]
      exact hfirst _ (sited_mem hi)

/-- The loop on a document is the loop on its instructions. -/
theorem final_eq (doc : Update) (hidle : Idle (run site_name ({} : PatchState Site)
      (sited_all [doc.root] (doc.instructions.flatMap fun p => p.1.item :: p.2.map .data)))) :
    final doc = run site_name ({} : PatchState Site)
      (sited_all [doc.root] (doc.instructions.flatMap fun p => p.1.item :: p.2.map .data)) := by
  have hroot : localname site_name ⟨doc.root, []⟩ = "propertyupdate" := doc.propertyupdate
  have hstart : ({} : PatchState Site).on_start (localname site_name ⟨doc.root, []⟩)
      ⟨doc.root, []⟩ = {} := by
    rw [hroot]
    rfl
  have hname : doc.root.name = site_name ⟨doc.root, []⟩ := rfl
  unfold final Update.items
  rw [sited_append, sited_data, run_append, run_data_all doc.prolog rfl, sited_all, sited_data,
    run_cons, sited, run_element, hstart, sited_append, sited_data, run_append,
    run_data_all doc.before rfl, on_end_other (by rw [hroot]; decide) (by rw [hroot]; decide),
    close_none hidle.current, run_data_all doc.epilog hidle.current]

end Runs

/-- **When the actions of a PROPPATCH are the instructions of its body.** It is enough that
every property is plain, and in a document whose values do not turn off the flag they are
read under it is needed. -/
theorem actions_iff {reader : List Char → List (ReadEvent Tag)} {xml : List Char} {doc : Update}
    (hlegal : doc.Legal) (hread : reader (decode_xml_char_refs xml) = decoded_events doc.events)
    (hsome : doc.properties ≠ []) :
    (doc.Plainly → Follows reader xml doc) ∧
      (doc.Steady → (Follows reader xml doc ↔ doc.Plainly)) := by
  have hidle : Idle ({} : PatchState Site) := ⟨rfl, rfl, rfl⟩
  have hplain : doc.Plainly → Follows reader xml doc := by
    intro h
    obtain ⟨hend, new, hnew, hshown⟩ := read_plain_instructions doc.root h hidle
    rw [follows_iff hlegal hread hsome, final_eq doc hend, hnew]
    exact hshown
  refine ⟨hplain, fun hsteady => ⟨fun h => ?_, hplain⟩⟩
  obtain ⟨hend, new, hnew, hcounted⟩ := read_steady_instructions doc.root hsteady hidle
  rw [follows_iff hlegal hread hsome, final_eq doc hend, hnew] at h
  have hshown : shown new = doc.properties := h
  rcases hcounted.bound with ⟨a, ha, hdeep⟩ | ⟨-, hall⟩
  · -- no property has that many tags around it
    have hmem : (a.1, a.2.isSome) ∈ doc.properties := by
      rw [← hshown]
      exact List.mem_map.mpr ⟨a, ha, rfl⟩
    obtain ⟨p, -, hp⟩ := List.mem_flatMap.mp hmem
    obtain ⟨e, -, he⟩ := List.mem_map.mp hp
    have hsite : a.1 = ⟨e, [p.1.prop, p.1.tag, doc.root]⟩ := (congrArg Prod.fst he).symm
    unfold Deep at hdeep
    rw [hsite] at hdeep
    simp at hdeep
  · refine hall ?_
    have hlen := congrArg List.length hshown
    unfold shown at hlen
    rw [List.length_map] at hlen
    exact hlen

/-! ## Two documents -/

def plain_tag (name : String) : Tag where
  name := name
  attributes := []

/-- A `set` of what is inside its `prop`. -/
def set_of (inside : List (Item Tag)) : Instruction where
  is_set := true
  tag := plain_tag "D:set"
  before := []
  prop := plain_tag "D:prop"
  inside := some inside
  behind := []
  named := by decide
  prop_named := by decide

/-- A document with one instruction. -/
def update (ins : Instruction) : Update where
  prolog := [.other]
  root := { name := "D:propertyupdate", attributes := [("xmlns:D", "DAV:")] }
  before := []
  instructions := [(ins, [])]
  epilog := []
  propertyupdate := by decide

/-- One property with a text for a value. -/
def text_document : List Char :=
  ("<?xml version=\"1.0\"?><D:propertyupdate xmlns:D=\"DAV:\"><D:set><D:prop><p>v</p>" ++
    "</D:prop></D:set></D:propertyupdate>").toList

/-- The document as it is nested. -/
def text_update : Update := update (set_of [.element (plain_tag "p") [.data (.text ['v'])]])

/-- One property with an element for a value. -/
def nested_document : List Char :=
  ("<?xml version=\"1.0\"?><D:propertyupdate xmlns:D=\"DAV:\"><D:set><D:prop><p><a>1</a></p>" ++
    "</D:prop></D:set></D:propertyupdate>").toList

/-- The document as it is nested. -/
def nested_update : Update :=
  update (set_of [.element (plain_tag "p") [.element (plain_tag "a") [.data (.text ['1'])]]])

/-- A document is legal when no attribute is empty. -/
theorem legal_of_attributes {doc : Update}
    (h : ∀ e ∈ tags_all doc.items, ∀ a ∈ e.attributes, decoded a.2 ≠ "") : doc.Legal := by
  intro e he p raw hraw
  obtain ⟨a, ha, rfl⟩ := Option.map_eq_some_iff.mp hraw
  exact h e he a (List.mem_of_find?_eq_some ha)

theorem text_update_legal : text_update.Legal := by
  apply legal_of_attributes
  have htags : tags_all text_update.items =
      [{ name := "D:propertyupdate", attributes := [("xmlns:D", "DAV:")] }, plain_tag "D:set",
        plain_tag "D:prop", plain_tag "p"] := rfl
  rw [htags]
  decide +kernel

theorem nested_update_legal : nested_update.Legal := by
  apply legal_of_attributes
  have htags : tags_all nested_update.items =
      [{ name := "D:propertyupdate", attributes := [("xmlns:D", "DAV:")] }, plain_tag "D:set",
        plain_tag "D:prop", plain_tag "p", plain_tag "a"] := rfl
  rw [htags]
  decide +kernel

theorem actions_iff_text :
    Follows (reads_as (decode_xml_char_refs text_document) (decoded_events text_update.events))
      text_document text_update := by
  refine (actions_iff text_update_legal (reads_as_text _ _) (by
    simp [Update.properties, text_update, update, Instruction.properties, Instruction.content,
      set_of, children, Item.tag])).1 ?_
  intro p hp i hi
  rw [List.mem_singleton.mp hp] at hi ⊢
  rw [List.mem_singleton.mp hi]
  exact ⟨by decide, by decide, by decide, trivial, trivial⟩

/-- The element inside the value becomes the action, and the property none. -/
theorem nested_element_taken :
    ¬ ∀ (reader : List Char → List (ReadEvent Tag)) (xml : List Char) (doc : Update), doc.Legal →
      reader (decode_xml_char_refs xml) = decoded_events doc.events → doc.properties ≠ [] →
      Follows reader xml doc := by
  intro h
  obtain ⟨op, hop, hnames, -⟩ := h
    (reads_as (decode_xml_char_refs nested_document) (decoded_events nested_update.events))
    nested_document nested_update nested_update_legal (reads_as_text _ _) (by
      simp [Update.properties, nested_update, update, Instruction.properties, Instruction.content,
        set_of, children, Item.tag])
  have hparse : parse_proppatch_request
      (reads_as (decode_xml_char_refs nested_document) (decoded_events nested_update.events))
      nested_document = .ok { actions := [⟨"a", some "1"⟩] } := by
    unfold parse_proppatch_request
    rw [reads_as_text]
    rfl
  rw [hparse, Except.ok.injEq] at hop
  rw [← hop] at hnames
  revert hnames
  decide +kernel

end Rshs.Instructions
