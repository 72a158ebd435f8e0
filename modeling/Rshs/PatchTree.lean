/-
What the PROPPATCH loop makes of a tree.

The loop keeps two flags and the name of an open property, and no depth: the tags of
any element named `set` or `remove` move the flags, every other start tag under the flag
of `set` becomes the open property, every other tag under the flag of `remove` an action.

`Quiet` values leave this alone: their elements are named `prop`, or are written with an
end tag and have the name of the other instruction. `read_value` says what a value does
under the flag of `set` as long as no element in it has its tags named so: an element
that is not quiet leaves an action of its own behind. `read_removed` says the same under
the flag of `remove`. Of the trees only the local names matter, so the conditions are
about trees of names.
-/
import Rshs.Document

set_option autoImplicit false

namespace Rshs.PatchTree

open Rshs.PropBody Rshs.Document

/-! ## Trees of names -/

mutual

/-- The tree with its tags replaced. -/
def map {S T : Type} (f : S → T) : Item S → Item T
  | .element tag content => .element (f tag) (map_all f content)
  | .empty tag => .empty (f tag)
  | .data d => .data d

def map_all {S T : Type} (f : S → T) : List (Item S) → List (Item T)
  | [] => []
  | i :: items => map f i :: map_all f items

end

mutual

/-- Every element is named `prop`, or has an end tag and the name `other`. -/
def Quiet (other : String) : Item String → Prop
  | .element l content => (l = "prop" ∨ l = other) ∧ QuietAll other content
  | .empty l => l = "prop"
  | .data _ => True

def QuietAll (other : String) : List (Item String) → Prop
  | [] => True
  | i :: items => Quiet other i ∧ QuietAll other items

end

mutual

/-- No element with end tag named `set` is inside another one. -/
def SetsApart : Item String → Prop
  | .element l content =>
    (l = "set" → ∀ m ∈ open_tags_all content, m ≠ "set") ∧ SetsApartAll content
  | .empty _ | .data _ => True

def SetsApartAll : List (Item String) → Prop
  | [] => True
  | i :: items => SetsApart i ∧ SetsApartAll items

end

/-- The instruction an element named so would be. -/
def instruction (is_set : Bool) : String := if is_set then "set" else "remove"

/-- A property that is taken for one: its name is no keyword, its value is quiet. -/
def Plain (is_set : Bool) : Item String → Prop
  | .element l content =>
    l ≠ "set" ∧ l ≠ "remove" ∧ l ≠ "prop" ∧ QuietAll (instruction !is_set) content
  | .empty l => l ≠ "prop"
  | .data _ => True

/-- No element with end tag in the value is named like the instruction, and in a `remove`
no `set` is inside a `set`. -/
def Steady (is_set : Bool) : Item String → Prop
  | .element l content => (∀ m ∈ open_tags_all content, m ≠ instruction is_set) ∧
      (is_set = false → SetsApart (.element l content))
  | .empty _ | .data _ => True

theorem quiet_open {other : String} :
    (∀ i, Quiet other i → ∀ m ∈ i.open_tags, m = "prop" ∨ m = other) ∧
      ∀ items, QuietAll other items → ∀ m ∈ open_tags_all items, m = "prop" ∨ m = other := by
  apply Item.induct
  case element =>
    intro l content ih h m hm
    rcases List.mem_cons.mp hm with rfl | hm
    · exact h.1
    · exact ih h.2 m hm
  case empty =>
    intro l h m hm
    cases hm
  case data =>
    intro d h m hm
    cases hm
  case nil =>
    intro h m hm
    cases hm
  case cons =>
    intro i items hi hitems h m hm
    rcases List.mem_append.mp hm with hm | hm
    · exact hi h.1 m hm
    · exact hitems h.2 m hm

/-- A quiet value without the other instruction is quiet in either. -/
theorem quiet_either {other : String} (other' : String) :
    (∀ i, Quiet other i → (∀ m ∈ i.open_tags, m ≠ other) → Quiet other' i) ∧
      ∀ items, QuietAll other items → (∀ m ∈ open_tags_all items, m ≠ other) →
        QuietAll other' items := by
  apply Item.induct
  case element =>
    intro l content ih h hno
    rw [Item.open_tags, List.forall_mem_cons] at hno
    exact ⟨Or.inl (h.1.resolve_right hno.1), ih h.2 hno.2⟩
  case empty =>
    intro l h hno
    exact h
  case data =>
    intro d h hno
    exact trivial
  case nil =>
    intro h hno
    exact trivial
  case cons =>
    intro i items hi hitems h hno
    rw [open_tags_all, List.forall_mem_append] at hno
    exact ⟨hi h.1 hno.1, hitems h.2 hno.2⟩

/-! ## The loop over a tree -/

section Runs

variable {T : Type} (name : T → String)

def localname (t : T) : String := (split_name (name t)).2

/-- The loop over the events of some items. -/
def run (s : PatchState T) (items : List (Item T)) : PatchState T :=
  (events_all name items).foldl (patch_step (localname name) id) s

theorem run_append (s : PatchState T) (is js : List (Item T)) :
    run name s (is ++ js) = run name (run name s is) js := by
  unfold run
  rw [events_all_append, List.foldl_append]

theorem run_nil (s : PatchState T) : run name s [] = s := rfl

theorem run_cons (s : PatchState T) (i : Item T) (items : List (Item T)) :
    run name s (i :: items) = run name (run name s [i]) items :=
  run_append name s [i] items

theorem run_element (s : PatchState T) (tag : T) (content : List (Item T)) :
    run name s [.element tag content] =
      (run name (s.on_start (localname name tag) tag) content).on_end (name tag) := by
  unfold run
  rw [events_all, events_all, List.append_nil, Item.events, List.foldl_cons, List.foldl_append]
  rfl

theorem run_empty (s : PatchState T) (tag : T) :
    run name s [.empty tag] = s.on_empty (localname name tag) tag := rfl

/-- Data closes the open property, or is skipped. -/
theorem run_data (s : PatchState T) (d : Data) :
    run name s [.data d] = s ∨ ∃ value, run name s [.data d] = s.close value := by
  cases d with
  | text content => exact Or.inr ⟨_, rfl⟩
  | cdata content => exact Or.inl rfl
  | reference r => exact Or.inl rfl
  | other => exact Or.inl rfl

end Runs

/-! ## One tag -/

section Tags

variable {T : Type} {name : T → String} {s : PatchState T}

theorem on_end_set {tag : T} (h : localname name tag = "set") :
    s.on_end (name tag) = { s with in_set := false } := by
  unfold PatchState.on_end
  exact if_pos h

theorem on_end_remove {tag : T} (h : localname name tag = "remove") :
    s.on_end (name tag) = { s with in_remove := false } := by
  have hset : (split_name (name tag)).2 ≠ "set" := by
    show localname name tag ≠ "set"
    rw [h]
    decide
  unfold PatchState.on_end
  rw [if_neg hset]
  exact if_pos h

theorem on_end_other {tag : T} (hset : localname name tag ≠ "set")
    (hremove : localname name tag ≠ "remove") : s.on_end (name tag) = s.close "" := by
  unfold PatchState.on_end
  exact (if_neg hset).trans (if_neg hremove)

theorem on_start_other {l : String} {tag : T} (hset : l ≠ "set") (hremove : l ≠ "remove")
    (hprop : l ≠ "prop") : s.on_start l tag = if s.in_set then { s with current_name := some tag }
      else if s.in_remove then { s with actions := s.actions ++ [(tag, none)] } else s := by
  unfold PatchState.on_start
  rw [if_neg hset, if_neg hremove, if_neg hprop]

theorem close_none (h : s.current_name = none) (value : String) : s.close value = s := by
  unfold PatchState.close
  rw [h]

theorem close_off (h : s.in_set = false) (value : String) : s.close value = s := by
  unfold PatchState.close
  split
  · rw [h]
    rfl
  · rfl

theorem close_some {c : T} (h : s.current_name = some c) (hset : s.in_set = true)
    (value : String) : s.close value =
      { s with actions := s.actions ++ [(c, some value)], current_name := none } := by
  unfold PatchState.close
  rw [h]
  dsimp only
  rw [hset]
  rfl

end Tags

/-! ## A value under the flag of `set` -/

section Value

variable {T : Type} {name : T → String}

/-- What reading a value does, whose elements with end tag are not named `set`: `names` is
its tree, `tags` are its tags, `new` the actions it adds. -/
structure ReadValue (names : List (Item String)) (tags : List T) (s s' : PatchState T)
    (new : List (T × Option String)) : Prop where
  actions : s'.actions = s.actions ++ new
  in_set : s'.in_set = s.in_set
  in_remove : s'.in_remove = true → s.in_remove = true
  remove_kept : (∀ m ∈ open_tags_all names, m ≠ "remove") → s'.in_remove = s.in_remove
  labels : ∀ a ∈ new, a.1 ∈ tags ∨ s.current_name = some a.1
  current : s'.current_name = s.current_name ∨ (s'.current_name = none ∧ new ≠ [])
  loud : s.in_set = true → QuietAll "remove" names ∨ ∃ a ∈ new, a.1 ∈ tags
  quiet : s.in_set = true → QuietAll "remove" names →
    (new = [] ∧ s'.current_name = s.current_name) ∨
      ∃ c v, s.current_name = some c ∧ new = [(c, some v)] ∧ s'.current_name = none

theorem ReadValue.refl (s : PatchState T) : ReadValue [] [] s s [] where
  actions := (List.append_nil _).symm
  in_set := rfl
  in_remove := id
  remove_kept := fun _ => rfl
  labels := by simp
  current := Or.inl rfl
  loud := fun _ => Or.inl trivial
  quiet := fun _ _ => Or.inl ⟨rfl, rfl⟩

theorem quiet_append {other : String} (ns ms : List (Item String)) :
    QuietAll other (ns ++ ms) ↔ QuietAll other ns ∧ QuietAll other ms := by
  induction ns with
  | nil => simp [QuietAll]
  | cons n ns ih => rw [List.cons_append, QuietAll, QuietAll, ih, and_assoc]

theorem open_tags_append (ns ms : List (Item String)) :
    open_tags_all (ns ++ ms) = open_tags_all ns ++ open_tags_all ms := by
  induction ns with
  | nil => rfl
  | cons n ns ih => rw [List.cons_append, open_tags_all, open_tags_all, ih, List.append_assoc]

/-- One part of a value after the other. -/
theorem ReadValue.append {ns ms : List (Item String)} {ts us : List T} {s s₁ s₂ : PatchState T}
    {n₁ n₂ : List (T × Option String)} (h₁ : ReadValue ns ts s s₁ n₁)
    (h₂ : ReadValue ms us s₁ s₂ n₂) : ReadValue (ns ++ ms) (ts ++ us) s s₂ (n₁ ++ n₂) where
  actions := by rw [h₂.actions, h₁.actions, List.append_assoc]
  in_set := h₂.in_set.trans h₁.in_set
  in_remove := fun h => h₁.in_remove (h₂.in_remove h)
  remove_kept := by
    intro h
    rw [open_tags_append, List.forall_mem_append] at h
    exact (h₂.remove_kept h.2).trans (h₁.remove_kept h.1)
  labels := by
    intro a ha
    rw [List.mem_append]
    rcases List.mem_append.mp ha with ha | ha
    · exact (h₁.labels a ha).imp_left Or.inl
    · rcases h₂.labels a ha with hin | hcur
      · exact Or.inl (Or.inr hin)
      · rcases h₁.current with hsame | ⟨hnone, -⟩
        · exact Or.inr (by rw [← hsame, hcur])
        · rw [hnone] at hcur
          cases hcur
  current := by
    rcases h₂.current with hsame | ⟨hnone, hnew⟩
    · rcases h₁.current with hsame' | ⟨hnone, hnew⟩
      · exact Or.inl (hsame.trans hsame')
      · exact Or.inr ⟨hsame.trans hnone, by simp [hnew]⟩
    · exact Or.inr ⟨hnone, by simp [hnew]⟩
  loud := by
    intro hset
    rw [quiet_append]
    rcases h₁.loud hset with hq | ⟨a, ha, hin⟩
    · rcases h₂.loud (h₁.in_set.trans hset) with hq' | ⟨a, ha, hin⟩
      · exact Or.inl ⟨hq, hq'⟩
      · exact Or.inr ⟨a, List.mem_append_right _ ha, List.mem_append_right _ hin⟩
    · exact Or.inr ⟨a, List.mem_append_left _ ha, List.mem_append_left _ hin⟩
  quiet := by
    intro hset hq
    rw [quiet_append] at hq
    rcases h₁.quiet hset hq.1 with ⟨rfl, hsame⟩ | ⟨c, v, hcur, rfl, hnone⟩
    · rw [List.nil_append, ← hsame]
      exact h₂.quiet (h₁.in_set.trans hset) hq.2
    · rcases h₂.quiet (h₁.in_set.trans hset) hq.2 with ⟨rfl, hsame⟩ | ⟨d, w, hcur', -⟩
      · exact Or.inr ⟨c, v, hcur, by simp, hsame.trans hnone⟩
      · rw [hnone] at hcur'
        cases hcur'

/-- The tree and the tags of a value, when they matter no more than before. -/
theorem ReadValue.widen {ns ms : List (Item String)} {ts us : List T} {s s' : PatchState T}
    {new : List (T × Option String)} (h : ReadValue ns ts s s' new)
    (hopen : ∀ m ∈ open_tags_all ns, m ∈ open_tags_all ms)
    (hquiet : QuietAll "remove" ns ↔ QuietAll "remove" ms) (htags : ∀ t ∈ ts, t ∈ us) :
    ReadValue ms us s s' new where
  actions := h.actions
  in_set := h.in_set
  in_remove := h.in_remove
  remove_kept := fun hno => h.remove_kept fun m hm => hno m (hopen m hm)
  labels := fun a ha => (h.labels a ha).imp_left (htags a.1)
  current := h.current
  loud := fun hset => (h.loud hset).imp hquiet.mp fun ⟨a, ha, hin⟩ => ⟨a, ha, htags _ hin⟩
  quiet := fun hset hq => h.quiet hset (hquiet.mpr hq)

theorem read_close (s : PatchState T) (value : String) :
    ∃ new, ReadValue [] [] s (s.close value) new := by
  cases hset : s.in_set with
  | false =>
    rw [close_off hset]
    exact ⟨[], .refl s⟩
  | true =>
    cases hcur : s.current_name with
    | none =>
      rw [close_none hcur]
      exact ⟨[], .refl s⟩
    | some c =>
      rw [close_some hcur hset]
      refine ⟨[(c, some value)], rfl, rfl, id, fun _ => rfl, ?_, Or.inr ⟨rfl, by simp⟩,
        fun _ => Or.inl trivial, fun _ _ => Or.inr ⟨c, value, hcur, rfl, rfl⟩⟩
      intro a ha
      rw [List.mem_singleton.mp ha]
      exact Or.inr hcur

theorem read_empty (s : PatchState T) (tag : T) :
    ∃ new, ReadValue [.empty (localname name tag)] [tag] s (s.on_empty (localname name tag) tag)
      new := by
  by_cases hprop : localname name tag = "prop"
  · have hsame : s.on_empty (localname name tag) tag = s := by
      unfold PatchState.on_empty
      rw [if_neg (fun h => h.2 hprop), if_neg (fun h => h.2 hprop)]
    rw [hsame]
    refine ⟨[], (ReadValue.refl s).widen (fun m hm => hm) ?_ (by simp)⟩
    simp [QuietAll, Quiet, hprop]
  · have hnew : ∀ a : T × Option String, a.1 = tag →
        ReadValue [.empty (localname name tag)] [tag] s { s with actions := s.actions ++ [a] }
          [a] := by
      intro a ha
      refine ⟨rfl, rfl, id, fun _ => rfl, ?_, Or.inl rfl, fun _ => Or.inr ⟨a, by simp, by simp [ha]⟩,
        fun _ hq => absurd hq.1 hprop⟩
      intro b hb
      rw [List.mem_singleton.mp hb, ha]
      exact Or.inl List.mem_cons_self
    unfold PatchState.on_empty
    by_cases hremove : s.in_remove = true
    · rw [if_pos ⟨hremove, hprop⟩]
      exact ⟨_, hnew _ rfl⟩
    · rw [if_neg (fun h => hremove h.1)]
      by_cases hset : s.in_set = true
      · rw [if_pos ⟨hset, hprop⟩]
        exact ⟨_, hnew _ rfl⟩
      · rw [if_neg (fun h => hset h.1)]
        exact ⟨[], (List.append_nil _).symm, rfl, id, fun _ => rfl, by simp, Or.inl rfl,
          fun h => absurd h hset, fun h => absurd h hset⟩

/-- An element whose name is no keyword: under the flag it leaves an action behind. -/
theorem read_ordinary {tag : T} {names : List (Item String)} {tags : List T}
    {s s₂ : PatchState T} (hset : localname name tag ≠ "set")
    (hremove : localname name tag ≠ "remove") (hprop : localname name tag ≠ "prop")
    {n₁ : List (T × Option String)}
    (h : ReadValue names tags (s.on_start (localname name tag) tag) s₂ n₁) :
    ∃ new, ReadValue [.element (localname name tag) names] (tag :: tags) s
      (s₂.on_end (name tag)) new := by
  rw [on_start_other hset hremove hprop] at h
  rw [on_end_other hset hremove]
  obtain ⟨n₂, hclose⟩ := read_close s₂ ""
  have hloud : ¬ QuietAll "remove" [.element (localname name tag) names] := by
    rintro ⟨⟨hp | hr, -⟩, -⟩
    · exact hprop hp
    · exact hremove hr
  have hopen : ∀ m ∈ open_tags_all names,
      m ∈ open_tags_all [.element (localname name tag) names] := by
    intro m hm
    simp [open_tags_all, Item.open_tags, hm]
  cases hflag : s.in_set with
  | true =>
    rw [if_pos hflag] at h
    -- the open property is closed inside or at the end
    have hboth := h.append hclose
    rw [List.append_nil, List.append_nil] at hboth
    have hlabels : ∀ a ∈ n₁ ++ n₂, a.1 ∈ tag :: tags := by
      intro a ha
      rcases hboth.labels a ha with hin | hcur
      · exact List.mem_cons_of_mem _ hin
      · rw [Option.some_inj.mp hcur]
        exact List.mem_cons_self
    have hend : (s₂.close "").current_name = none ∧ n₁ ++ n₂ ≠ [] := by
      rcases hboth.current with hopened | hdone
      · -- it cannot still be open
        exfalso
        have hset₂ : s₂.in_set = true := h.in_set.trans hflag
        rcases hcur : s₂.current_name with _ | c
        · rw [close_none hcur, hcur] at hopened
          cases hopened
        · rw [close_some hcur hset₂] at hopened
          cases hopened
      · exact hdone
    refine ⟨n₁ ++ n₂, hboth.actions, hboth.in_set.trans rfl, hboth.in_remove,
      fun hno => hboth.remove_kept fun m hm => hno m (hopen m hm), fun a ha => Or.inl (hlabels a ha),
      Or.inr hend, fun _ => Or.inr ?_, fun _ hq => absurd hq hloud⟩
    obtain ⟨a, ha⟩ := List.exists_mem_of_ne_nil _ hend.2
    exact ⟨a, ha, hlabels a ha⟩
  | false =>
    rw [if_neg (by rw [hflag]; exact Bool.false_ne_true)] at h
    have hoff : s₂.in_set = false := by
      rw [h.in_set]
      split
      · exact hflag
      · exact hflag
    rw [close_off hoff]
    have hloud' : ∀ P, s.in_set = true → P := fun P hs => by rw [hflag] at hs; cases hs
    split at h
    · refine ⟨(tag, none) :: n₁, ?_, h.in_set, h.in_remove,
        fun hno => h.remove_kept fun m hm => hno m (hopen m hm), ?_, ?_, fun hs => hloud' _ hs,
        fun hs => hloud' _ hs⟩
      · rw [h.actions]
        simp
      · intro a ha
        rcases List.mem_cons.mp ha with rfl | ha
        · exact Or.inl List.mem_cons_self
        · exact (h.labels a ha).imp_left (List.mem_cons_of_mem _)
      · exact h.current.imp_right fun hc => ⟨hc.1, by simp⟩
    · refine ⟨n₁, h.actions, h.in_set, h.in_remove,
        fun hno => h.remove_kept fun m hm => hno m (hopen m hm),
        fun a ha => (h.labels a ha).imp_left (List.mem_cons_of_mem _), h.current,
        fun hs => hloud' _ hs, fun hs => hloud' _ hs⟩

/-- **A value under the flag of `set`.** -/
theorem read_value :
    (∀ i : Item T, (∀ m ∈ open_tags_all [map (localname name) i], m ≠ "set") →
      ∀ s, ∃ new, ReadValue [map (localname name) i] i.tags s (run name s [i]) new) ∧
      ∀ items : List (Item T), (∀ m ∈ open_tags_all (map_all (localname name) items), m ≠ "set") →
        ∀ s, ∃ new, ReadValue (map_all (localname name) items) (tags_all items) s
          (run name s items) new := by
  -- along the tree: an element is its start tag, its content and its end tag
  apply Item.induct
  case element =>
    intro tag content ih hno s
    have hopen : open_tags_all [map (localname name) (.element tag content)] =
        localname name tag :: open_tags_all (map_all (localname name) content) := by
      simp [map, open_tags_all, Item.open_tags]
    rw [hopen, List.forall_mem_cons] at hno
    -- the content is read from the state behind the start tag, whatever that is
    obtain ⟨new, h⟩ := ih hno.2 (s.on_start (localname name tag) tag)
    rw [run_element]
    by_cases hprop : localname name tag = "prop"
    · -- the tags of a `prop` close the open property
      have hstart : s.on_start (localname name tag) tag = s := by
        rw [hprop]
        rfl
      rw [hstart] at h ⊢
      rw [on_end_other hno.1 (by rw [hprop]; decide)]
      obtain ⟨n₂, hclose⟩ := read_close (run name s content) ""
      have hboth := h.append hclose
      rw [List.append_nil, List.append_nil] at hboth
      refine ⟨new ++ n₂, hboth.widen ?_ ?_ fun t ht => List.mem_cons_of_mem _ ht⟩
      · intro m hm
        rw [hopen]
        exact List.mem_cons_of_mem _ hm
      · simp [map, QuietAll, Quiet, hprop]
    · by_cases hremove : localname name tag = "remove"
      · have hstart : s.on_start (localname name tag) tag = { s with in_remove := true } := by
          rw [hremove]
          rfl
        rw [hstart] at h ⊢
        rw [on_end_remove hremove]
        refine ⟨new, h.actions, h.in_set, ?_, ?_, ?_, h.current, ?_, ?_⟩
        · intro hfalse
          cases hfalse
        · intro hr
          rw [hopen, List.forall_mem_cons] at hr
          exact absurd hremove hr.1
        · exact fun a ha => (h.labels a ha).imp_left (List.mem_cons_of_mem _)
        · intro hset
          refine (h.loud hset).imp ?_ fun ⟨a, ha, hin⟩ => ⟨a, ha, List.mem_cons_of_mem _ hin⟩
          intro hq
          exact ⟨⟨Or.inr hremove, hq⟩, trivial⟩
        · intro hset hq
          exact h.quiet hset hq.1.2
      · exact read_ordinary hno.1 hremove hprop h
  case empty =>
    intro tag hno s
    rw [run_empty]
    exact read_empty s tag
  case data =>
    intro d hno s
    have hwiden : ∀ {s' new}, ReadValue [] ([] : List T) s s' new →
        ReadValue [.data d] [] s s' new := fun h =>
      h.widen (fun m hm => hm) (by simp [QuietAll, Quiet]) (fun t ht => ht)
    -- a text closes the property that is open, if one is
    rcases run_data name s d with hsame | ⟨value, hclose⟩
    · rw [hsame]
      exact ⟨[], hwiden (.refl s)⟩
    · rw [hclose]
      obtain ⟨new, h⟩ := read_close s value
      exact ⟨new, hwiden h⟩
  case nil =>
    intro hno s
    exact ⟨[], .refl s⟩
  case cons =>
    intro i items hi hitems hno s
    have hsplit : map_all (localname name) (i :: items) =
        [map (localname name) i] ++ map_all (localname name) items := rfl
    rw [hsplit, open_tags_append, List.forall_mem_append] at hno
    obtain ⟨n₁, h₁⟩ := hi hno.1 s
    obtain ⟨n₂, h₂⟩ := hitems hno.2 (run name s [i])
    rw [hsplit, run_cons]
    exact ⟨n₁ ++ n₂, h₁.append h₂⟩

end Value

/-! ## A value under the flag of `remove` -/

section Removed

variable {T : Type} {name : T → String}

/-- What reading a value outside of any `set` does, when no property is open. -/
structure ReadRemoved (names : List (Item String)) (tags : List T) (s s' : PatchState T)
    (new : List (T × Option String)) : Prop where
  actions : s'.actions = s.actions ++ new
  in_set : s'.in_set = false
  in_remove : s'.in_remove = s.in_remove
  current : s'.current_name = none
  labels : ∀ a ∈ new, a.1 ∈ tags
  loud : s.in_remove = true → QuietAll "set" names ∨ new ≠ []

/-- The value of an element named `set`, which is read under its own flag. -/
theorem removed_set {names : List (Item String)} {tags : List T} {s s₂ : PatchState T}
    {new : List (T × Option String)} (hcur : s.current_name = none)
    (hno : ∀ m ∈ open_tags_all names, m ≠ "remove")
    (h : ReadValue names tags { s with in_set := true } s₂ new) :
    ReadRemoved names tags s { s₂ with in_set := false } new where
  actions := h.actions
  in_set := rfl
  in_remove := h.remove_kept hno
  current := by
    rcases h.current with hsame | ⟨hnone, -⟩
    · exact hsame.trans hcur
    · exact hnone
  labels := by
    intro a ha
    refine (h.labels a ha).resolve_right (fun hopen => ?_)
    rw [show s.current_name = none from hcur] at hopen
    cases hopen
  loud := by
    intro _
    rcases h.loud rfl with hq | ⟨a, ha, -⟩
    · exact Or.inl ((quiet_either "set").2 names hq hno)
    · exact Or.inr (List.ne_nil_of_mem ha)

/-- **A value under the flag of `remove`**, and outside of both. -/
theorem read_removed :
    (∀ i : Item T, (∀ m ∈ open_tags_all [map (localname name) i], m ≠ "remove") →
      SetsApart (map (localname name) i) → ∀ s, s.in_set = false → s.current_name = none →
        ∃ new, ReadRemoved [map (localname name) i] i.tags s (run name s [i]) new) ∧
      ∀ items : List (Item T),
        (∀ m ∈ open_tags_all (map_all (localname name) items), m ≠ "remove") →
        SetsApartAll (map_all (localname name) items) →
        ∀ s, s.in_set = false → s.current_name = none →
          ∃ new, ReadRemoved (map_all (localname name) items) (tags_all items) s
            (run name s items) new := by
  -- along the tree, with the flag of `set` down and no property open before every item
  apply Item.induct
  case element =>
    intro tag content ih hno hapart s hset hcur
    have hopen : open_tags_all [map (localname name) (.element tag content)] =
        localname name tag :: open_tags_all (map_all (localname name) content) := by
      simp [map, open_tags_all, Item.open_tags]
    rw [hopen, List.forall_mem_cons] at hno
    rw [run_element]
    by_cases hnamed : localname name tag = "set"
    -- a `set` inside is read as one, and its end tag turns the flag off again
    · have hstart : s.on_start (localname name tag) tag = { s with in_set := true } := by
        rw [hnamed]
        rfl
      obtain ⟨new, h⟩ := read_value.2 content (hapart.1 hnamed) { s with in_set := true }
      rw [hstart, on_end_set hnamed]
      have hread := removed_set hcur hno.2 h
      refine ⟨new, hread.actions, hread.in_set, hread.in_remove, hread.current,
        fun a ha => List.mem_cons_of_mem _ (hread.labels a ha), fun hr => ?_⟩
      exact (hread.loud hr).imp_left fun hq => ⟨⟨Or.inr hnamed, hq⟩, trivial⟩
    · rw [on_end_other hnamed hno.1]
      by_cases hprop : localname name tag = "prop"
      -- a `prop` has no action of its own
      · have hstart : s.on_start (localname name tag) tag = s := by
          rw [hprop]
          rfl
        obtain ⟨new, h⟩ := ih hno.2 hapart.2 s hset hcur
        rw [hstart, close_none h.current]
        refine ⟨new, h.actions, h.in_set, h.in_remove, h.current,
          fun a ha => List.mem_cons_of_mem _ (h.labels a ha), fun hr => ?_⟩
        exact (h.loud hr).imp_left fun hq => ⟨⟨Or.inl hprop, hq⟩, trivial⟩
      · rw [on_start_other hnamed hno.1 hprop, if_neg (by rw [hset]; exact Bool.false_ne_true)]
        split
        · -- an action for the element itself
          obtain ⟨new, h⟩ := ih hno.2 hapart.2 { s with actions := s.actions ++ [(tag, none)] }
            hset hcur
          rw [close_none h.current]
          refine ⟨(tag, none) :: new, ?_, h.in_set, h.in_remove, h.current, ?_,
            fun _ => Or.inr (by simp)⟩
          · rw [h.actions]
            simp
          · intro a ha
            rcases List.mem_cons.mp ha with rfl | ha
            · exact List.mem_cons_self
            · exact List.mem_cons_of_mem _ (h.labels a ha)
        -- outside of both flags the element is passed over
        · rename_i hoff
          obtain ⟨new, h⟩ := ih hno.2 hapart.2 s hset hcur
          rw [close_none h.current]
          exact ⟨new, h.actions, h.in_set, h.in_remove, h.current,
            fun a ha => List.mem_cons_of_mem _ (h.labels a ha), fun hr => absurd hr hoff⟩
  case empty =>
    intro tag hno hapart s hset hcur
    rw [run_empty]
    have hnever : ¬ (s.in_set = true ∧ localname name tag ≠ "prop") := by
      rw [hset]
      exact fun h => Bool.false_ne_true h.1
    unfold PatchState.on_empty
    rw [if_neg hnever]
    split
    · exact ⟨[(tag, none)], rfl, hset, rfl, hcur, by simp [Item.tags], fun _ => Or.inr (by simp)⟩
    · rename_i hskip
      refine ⟨[], (List.append_nil _).symm, hset, rfl, hcur, by simp, fun hr => Or.inl ⟨?_, trivial⟩⟩
      show localname name tag = "prop"
      by_contra hprop
      exact hskip ⟨hr, hprop⟩
  case data =>
    intro d hno hapart s hset hcur
    -- no property is open, so that a text closes none
    have hsame : run name s [.data d] = s := by
      rcases run_data name s d with hsame | ⟨value, hclose⟩
      · exact hsame
      · rw [hclose, close_none hcur]
    rw [hsame]
    exact ⟨[], (List.append_nil _).symm, hset, rfl, hcur, by simp,
      fun _ => Or.inl ⟨trivial, trivial⟩⟩
  case nil =>
    intro hno hapart s hset hcur
    exact ⟨[], (List.append_nil _).symm, hset, rfl, hcur, by simp, fun _ => Or.inl trivial⟩
  case cons =>
    intro i items hi hitems hno hapart s hset hcur
    have hsplit : map_all (localname name) (i :: items) =
        [map (localname name) i] ++ map_all (localname name) items := rfl
    rw [hsplit, open_tags_append, List.forall_mem_append] at hno
    -- the rest is read from the state that the first item leaves
    obtain ⟨n₁, h₁⟩ := hi hno.1 hapart.1 s hset hcur
    obtain ⟨n₂, h₂⟩ := hitems hno.2 hapart.2 (run name s [i]) h₁.in_set h₁.current
    rw [run_cons]
    refine ⟨n₁ ++ n₂, ?_, h₂.in_set, h₂.in_remove.trans h₁.in_remove, h₂.current, ?_, ?_⟩
    · rw [h₂.actions, h₁.actions, List.append_assoc]
    · intro a ha
      rw [tags_all, List.mem_append]
      exact (List.mem_append.mp ha).imp (h₁.labels a) (h₂.labels a)
    · intro hr
      rcases h₁.loud hr with hq | hne
      · rcases h₂.loud (h₁.in_remove.trans hr) with hq' | hne
        · exact Or.inl ⟨hq.1, hq'⟩
        · exact Or.inr (by simp [hne])
      · exact Or.inr (by simp [hne])

/-- A quiet value that no property is open for is passed over. -/
structure Passed (s s' : PatchState T) : Prop where
  actions : s'.actions = s.actions
  in_remove : s'.in_remove = s.in_remove
  in_set : s'.in_set = true → s.in_set = true
  current : s'.current_name = none

theorem pass_quiet :
    (∀ i : Item T, Quiet "set" (map (localname name) i) → ∀ s, s.current_name = none →
      Passed s (run name s [i])) ∧
      ∀ items : List (Item T), QuietAll "set" (map_all (localname name) items) →
        ∀ s, s.current_name = none → Passed s (run name s items) := by
  -- along the tree: with no property open, nothing in it can close one
  apply Item.induct
  case element =>
    intro tag content ih h s hcur
    rw [run_element]
    rcases h.1 with hprop | hset
    · have hstart : s.on_start (localname name tag) tag = s := by
        rw [hprop]
        rfl
      have hpass := ih h.2 s hcur
      rw [hstart, on_end_other (by rw [hprop]; decide) (by rw [hprop]; decide),
        close_none hpass.current]
      exact hpass
    · have hstart : s.on_start (localname name tag) tag = { s with in_set := true } := by
        rw [hset]
        rfl
      have hpass := ih h.2 { s with in_set := true } hcur
      rw [hstart, on_end_set hset]
      exact ⟨hpass.actions, hpass.in_remove, by simp, hpass.current⟩
  case empty =>
    intro tag h s hcur
    have hprop : localname name tag = "prop" := h
    have hsame : s.on_empty (localname name tag) tag = s := by
      unfold PatchState.on_empty
      rw [if_neg (fun h => h.2 hprop), if_neg (fun h => h.2 hprop)]
    rw [run_empty, hsame]
    exact ⟨rfl, rfl, id, hcur⟩
  case data =>
    intro d h s hcur
    rcases run_data name s d with hsame | ⟨value, hclose⟩
    · rw [hsame]
      exact ⟨rfl, rfl, id, hcur⟩
    · rw [hclose, close_none hcur]
      exact ⟨rfl, rfl, id, hcur⟩
  case nil =>
    intro h s hcur
    exact ⟨rfl, rfl, id, hcur⟩
  case cons =>
    intro i items hi hitems h s hcur
    have h₁ := hi h.1 s hcur
    have h₂ := hitems h.2 (run name s [i]) h₁.current
    rw [run_cons]
    exact ⟨h₂.actions.trans h₁.actions, h₂.in_remove.trans h₁.in_remove,
      fun hs => h₁.in_set (h₂.in_set hs), h₂.current⟩

end Removed

/-! ## One property -/

section Property

variable {T : Type} {name : T → String} {is_set : Bool} {s : PatchState T}

/-- Between two properties of an instruction no property is open, and the flag of the
other instruction is off. -/
structure Between (is_set : Bool) (s : PatchState T) : Prop where
  current : s.current_name = none
  in_set : is_set = false → s.in_set = false
  in_remove : is_set = true → s.in_remove = false

/-- The flag of the instruction is still on. -/
structure Clean (is_set : Bool) (s : PatchState T) : Prop extends Between is_set s where
  on_set : is_set = true → s.in_set = true
  on_remove : is_set = false → s.in_remove = true

/-- Each label with whether it has a value. -/
def shown (new : List (T × Option String)) : List (T × Bool) := new.map fun a => (a.1, a.2.isSome)

/-- **A plain property is one action**, and the next one finds the same flags. -/
theorem read_plain (i : Item T) (hplain : Plain is_set (map (localname name) i))
    (hclean : Clean is_set s) :
    Clean is_set (run name s [i]) ∧ ∃ new, (run name s [i]).actions = s.actions ++ new ∧
      shown new = i.tag.toList.map fun t => (t, is_set) := by
  cases i with
  | element tag content =>
    obtain ⟨hset, hremove, hprop, hquiet⟩ := hplain
    rw [run_element, on_end_other hset hremove, on_start_other hset hremove hprop]
    -- in a `set` the element opens a property; in a `remove` it is an action at once
    cases is_set with
    | true =>
      rw [if_pos (hclean.on_set rfl)]
      have hno : ∀ m ∈ open_tags_all (map_all (localname name) content), m ≠ "set" := by
        intro m hm
        rcases quiet_open.2 _ hquiet m hm with rfl | rfl <;> decide
      obtain ⟨new, h⟩ := read_value.2 content hno { s with current_name := some tag }
      have hon := hclean.on_set rfl
      have hoff : (run name { s with current_name := some tag } content).in_remove = false := by
        rw [Bool.eq_false_iff]
        intro hr
        have hr' : s.in_remove = true := h.in_remove hr
        rw [hclean.in_remove rfl] at hr'
        cases hr'
      have hset' : (run name { s with current_name := some tag } content).in_set = true :=
        h.in_set.trans hon
      rcases h.quiet hon hquiet with ⟨rfl, hcur⟩ | ⟨c, v, hc, rfl, hcur⟩
      · -- closed by its own end tag
        rw [close_some hcur hset']
        refine ⟨⟨⟨rfl, nofun, fun _ => hoff⟩, fun _ => hset', nofun⟩,
          [(tag, some "")], ?_, rfl⟩
        rw [h.actions, List.append_nil]
      · -- closed by a text or a tag inside
        rw [close_none hcur]
        refine ⟨⟨⟨hcur, nofun, fun _ => hoff⟩, fun _ => hset', nofun⟩,
          [(c, some v)], h.actions, ?_⟩
        rw [← Option.some_inj.mp hc]
        rfl
    | false =>
      rw [if_neg (by rw [hclean.in_set rfl]; exact Bool.false_ne_true),
        if_pos (hclean.on_remove rfl)]
      have hpass := pass_quiet.2 content hquiet { s with actions := s.actions ++ [(tag, none)] }
        hclean.current
      rw [close_none hpass.current]
      refine ⟨⟨⟨hpass.current, fun _ => ?_, nofun⟩, nofun,
        fun _ => hpass.in_remove.trans (hclean.on_remove rfl)⟩, [(tag, none)], hpass.actions, rfl⟩
      rw [Bool.eq_false_iff]
      intro hs
      have hs' : s.in_set = true := hpass.in_set hs
      rw [hclean.in_set rfl] at hs'
      cases hs'
  | empty tag =>
    have hprop : localname name tag ≠ "prop" := hplain
    rw [run_empty]
    unfold PatchState.on_empty
    cases is_set with
    | true =>
      have hskip : ¬ (s.in_remove = true ∧ localname name tag ≠ "prop") := by
        rw [hclean.in_remove rfl]
        exact fun h => Bool.false_ne_true h.1
      rw [if_neg hskip, if_pos ⟨hclean.on_set rfl, hprop⟩]
      exact ⟨⟨⟨hclean.current, hclean.in_set, hclean.in_remove⟩, hclean.on_set, hclean.on_remove⟩,
        [(tag, some "")], rfl, rfl⟩
    | false =>
      rw [if_pos ⟨hclean.on_remove rfl, hprop⟩]
      exact ⟨⟨⟨hclean.current, hclean.in_set, hclean.in_remove⟩, hclean.on_set, hclean.on_remove⟩,
        [(tag, none)], rfl, rfl⟩
  | data d =>
    -- no property is open, so that a text closes none
    have hsame : run name s [.data d] = s := by
      rcases run_data name s d with hsame | ⟨value, hclose⟩
      · exact hsame
      · rw [hclose, close_none hclean.current]
    rw [hsame]
    exact ⟨hclean, [], (List.append_nil _).symm, rfl⟩

/-- What any property of a steady document does: it leaves an action for an element of its
value, or none at all, or it is plain and leaves one. -/
structure Outcome (is_set : Bool) (names : Item String) (inner : List T) (s s' : PatchState T)
    (new : List (T × Option String)) : Prop where
  actions : s'.actions = s.actions ++ new
  between : Between is_set s'
  cases : (∃ a ∈ new, a.1 ∈ inner) ∨ new = [] ∨ (new.length = 1 ∧ Plain is_set names)

theorem none_or_inner {new : List (T × Option String)} {inner : List T}
    {P : Prop} (h : ∀ a ∈ new, a.1 ∈ inner) : (∃ a ∈ new, a.1 ∈ inner) ∨ new = [] ∨ P := by
  cases new with
  | nil => exact Or.inr (Or.inl rfl)
  | cons a new => exact Or.inl ⟨a, List.mem_cons_self, h a List.mem_cons_self⟩

/-- A property of a `set` whose tags are named so. -/
theorem ReadValue.inner {names : List (Item String)} {inner : List T} {s' : PatchState T}
    {new : List (T × Option String)} (h : ReadValue names inner s s' new)
    (hcur : s.current_name = none) : s'.current_name = none ∧ ∀ a ∈ new, a.1 ∈ inner := by
  constructor
  · rcases h.current with hsame | ⟨hnone, -⟩
    · exact hsame.trans hcur
    · exact hnone
  · intro a ha
    refine (h.labels a ha).resolve_right (fun hopen => ?_)
    rw [hcur] at hopen
    cases hopen

/-- **A property element of a `set`.** -/
theorem read_set_element {tag : T} {content : List (Item T)}
    (hsteady : Steady true (map (localname name) (.element tag content)))
    (hbetween : Between true s) :
    ∃ new, Outcome true (map (localname name) (.element tag content)) (tags_all content) s
      (run name s [.element tag content]) new := by
  have hno : ∀ m ∈ open_tags_all (map_all (localname name) content), m ≠ "set" := hsteady.1
  have hread := fun s => (@read_value T name).2 content hno s
  have hcur := hbetween.current
  have hoff := hbetween.in_remove rfl
  rw [run_element]
  by_cases hset : localname name tag = "set"
  · -- its end tag turns the flag off
    have hstart : s.on_start (localname name tag) tag = { s with in_set := true } := by
      rw [hset]
      rfl
    obtain ⟨new, h⟩ := hread { s with in_set := true }
    obtain ⟨hnone, hinner⟩ := h.inner hcur
    rw [hstart, on_end_set hset]
    refine ⟨new, h.actions, ⟨hnone, nofun, fun _ => ?_⟩, none_or_inner hinner⟩
    rw [Bool.eq_false_iff]
    intro hr
    have hr' : s.in_remove = true := h.in_remove hr
    rw [hoff] at hr'
    cases hr'
  · by_cases hremove : localname name tag = "remove"
    -- a `remove` inside: its end tag turns its own flag off, and the other stays
    · have hstart : s.on_start (localname name tag) tag = { s with in_remove := true } := by
        rw [hremove]
        rfl
      obtain ⟨new, h⟩ := hread { s with in_remove := true }
      obtain ⟨hnone, hinner⟩ := h.inner hcur
      rw [hstart, on_end_remove hremove]
      exact ⟨new, h.actions, ⟨hnone, nofun, fun _ => rfl⟩, none_or_inner hinner⟩
    · have hkept : ∀ {s₁ s₂ : PatchState T} {new : List (T × Option String)},
          ReadValue (map_all (localname name) content) (tags_all content) s₁ s₂ new →
            s₁.in_remove = false → s₂.in_remove = false := by
        intro s₁ s₂ new h hs
        rw [Bool.eq_false_iff]
        intro hr
        rw [h.in_remove hr] at hs
        cases hs
      rw [on_end_other hset hremove]
      by_cases hprop : localname name tag = "prop"
      -- a `prop` has no action of its own
      · have hstart : s.on_start (localname name tag) tag = s := by
          rw [hprop]
          rfl
        obtain ⟨new, h⟩ := hread s
        obtain ⟨hnone, hinner⟩ := h.inner hcur
        rw [hstart, close_none hnone]
        exact ⟨new, h.actions, ⟨hnone, nofun, fun _ => hkept h hoff⟩, none_or_inner hinner⟩
      · rw [on_start_other hset hremove hprop]
        -- what remains is a property, which the flag of `set` opens
        by_cases hon : s.in_set = true
        · rw [if_pos hon]
          obtain ⟨new, h⟩ := hread { s with current_name := some tag }
          have hset₂ : (run name { s with current_name := some tag } content).in_set = true :=
            h.in_set.trans hon
          have hquiet := h.quiet hon
          have hrem := hkept h hoff
          have hplain : QuietAll "remove" (map_all (localname name) content) →
              Plain true (map (localname name) (.element tag content)) := fun hq =>
            ⟨hset, hremove, hprop, hq⟩
          rcases hc : (run name { s with current_name := some tag } content).current_name with _ | c
          · -- closed inside
            rw [close_none hc]
            refine ⟨new, h.actions, ⟨hc, nofun, fun _ => hrem⟩, ?_⟩
            rcases h.loud hon with hq | hdeep
            · rcases hquiet hq with ⟨-, hsame⟩ | ⟨c, v, -, rfl, -⟩
              · rw [hc] at hsame
                cases hsame
              · exact Or.inr (Or.inr ⟨rfl, hplain hq⟩)
            · exact Or.inl hdeep
          -- nothing inside has closed it: its end tag does, with an empty text
          · rw [close_some hc hset₂]
            refine ⟨new ++ [(c, some "")], ?_, ⟨rfl, nofun, fun _ => hrem⟩, ?_⟩
            · rw [h.actions, List.append_assoc]
            · rcases h.loud hon with hq | ⟨a, ha, hin⟩
              · rcases hquiet hq with ⟨rfl, -⟩ | ⟨c', v, -, -, hnone⟩
                · exact Or.inr (Or.inr ⟨rfl, hplain hq⟩)
                · rw [hc] at hnone
                  cases hnone
              · exact Or.inl ⟨a, List.mem_append_left _ ha, hin⟩
        · have hskip : ¬ s.in_remove = true := by
            rw [hoff]
            exact Bool.false_ne_true
          rw [if_neg hon, if_neg hskip]
          obtain ⟨new, h⟩ := hread s
          obtain ⟨hnone, hinner⟩ := h.inner hcur
          rw [close_none hnone]
          exact ⟨new, h.actions, ⟨hnone, nofun, fun _ => hkept h hoff⟩, none_or_inner hinner⟩

/-- **A property element of a `remove`.** -/
theorem read_remove_element {tag : T} {content : List (Item T)}
    (hsteady : Steady false (map (localname name) (.element tag content)))
    (hbetween : Between false s) :
    ∃ new, Outcome false (map (localname name) (.element tag content)) (tags_all content) s
      (run name s [.element tag content]) new := by
  have hno : ∀ m ∈ open_tags_all (map_all (localname name) content), m ≠ "remove" := hsteady.1
  obtain ⟨hapart, hdeep⟩ := hsteady.2 rfl
  have hcur := hbetween.current
  have hoff := hbetween.in_set rfl
  rw [run_element]
  -- a `set` inside has its own reading, and its end tag turns that flag off again
  by_cases hset : localname name tag = "set"
  · have hstart : s.on_start (localname name tag) tag = { s with in_set := true } := by
      rw [hset]
      rfl
    obtain ⟨new, h⟩ := (@read_value T name).2 content (hapart hset) { s with in_set := true }
    have hread := removed_set hcur hno h
    rw [hstart, on_end_set hset]
    exact ⟨new, hread.actions, ⟨hread.current, fun _ => rfl, nofun⟩, none_or_inner hread.labels⟩
  · by_cases hremove : localname name tag = "remove"
    · have hstart : s.on_start (localname name tag) tag = { s with in_remove := true } := by
        rw [hremove]
        rfl
      obtain ⟨new, h⟩ := read_removed.2 content hno hdeep { s with in_remove := true } hoff hcur
      rw [hstart, on_end_remove hremove]
      exact ⟨new, h.actions, ⟨h.current, fun _ => h.in_set, nofun⟩, none_or_inner h.labels⟩
    · rw [on_end_other hset hremove]
      by_cases hprop : localname name tag = "prop"
      · have hstart : s.on_start (localname name tag) tag = s := by
          rw [hprop]
          rfl
        obtain ⟨new, h⟩ := read_removed.2 content hno hdeep s hoff hcur
        rw [hstart, close_none h.current]
        exact ⟨new, h.actions, ⟨h.current, fun _ => h.in_set, nofun⟩, none_or_inner h.labels⟩
      · rw [on_start_other hset hremove hprop, if_neg (by rw [hoff]; exact Bool.false_ne_true)]
        split
        -- the flag is on: the element is an action at once
        · rename_i hon
          obtain ⟨new, h⟩ := read_removed.2 content hno hdeep
            { s with actions := s.actions ++ [(tag, none)] } hoff hcur
          rw [close_none h.current]
          refine ⟨(tag, none) :: new, ?_, ⟨h.current, fun _ => h.in_set, nofun⟩, ?_⟩
          · rw [h.actions]
            simp
          · cases new with
            | nil =>
              have hq := (h.loud hon).resolve_right (fun hne => hne rfl)
              exact Or.inr (Or.inr ⟨rfl, hset, hremove, hprop, hq⟩)
            | cons a new =>
              exact Or.inl ⟨a, by simp, h.labels a List.mem_cons_self⟩
        -- an inner `remove` has turned the flag off: nothing is taken
        · obtain ⟨new, h⟩ := read_removed.2 content hno hdeep s hoff hcur
          rw [close_none h.current]
          exact ⟨new, h.actions, ⟨h.current, fun _ => h.in_set, nofun⟩, none_or_inner h.labels⟩

/-- **Any item of a `prop`**, in a steady document. -/
theorem read_property (i : Item T) (hsteady : Steady is_set (map (localname name) i))
    (hbetween : Between is_set s) :
    ∃ new, Outcome is_set (map (localname name) i) (tags_all i.content) s (run name s [i]) new ∧
      (i.tag = none → new = []) := by
  cases i with
  | element tag content =>
    cases is_set with
    | true =>
      obtain ⟨new, h⟩ := read_set_element hsteady hbetween
      exact ⟨new, h, nofun⟩
    | false =>
      obtain ⟨new, h⟩ := read_remove_element hsteady hbetween
      exact ⟨new, h, nofun⟩
  | empty tag =>
    have hplain : localname name tag ≠ "prop" → Plain is_set (map (localname name) (.empty tag)) :=
      fun h => h
    have hkeep : ∀ actions, Between is_set { s with actions := actions } := fun _ =>
      ⟨hbetween.current, hbetween.in_set, hbetween.in_remove⟩
    rw [run_empty]
    unfold PatchState.on_empty
    split
    · rename_i hnew
      exact ⟨[(tag, none)], ⟨rfl, hkeep _, Or.inr (Or.inr ⟨rfl, hplain hnew.2⟩)⟩, nofun⟩
    · split
      · rename_i hnew
        exact ⟨[(tag, some "")], ⟨rfl, hkeep _, Or.inr (Or.inr ⟨rfl, hplain hnew.2⟩)⟩, nofun⟩
      · exact ⟨[], ⟨(List.append_nil _).symm, hbetween, Or.inr (Or.inl rfl)⟩, fun _ => rfl⟩
  | data d =>
    have hsame : run name s [.data d] = s := by
      rcases run_data name s d with hsame | ⟨value, hclose⟩
      · exact hsame
      · rw [hclose, close_none hbetween.current]
    rw [hsame]
    exact ⟨[], ⟨(List.append_nil _).symm, hbetween, Or.inr (Or.inl rfl)⟩, fun _ => rfl⟩

end Property

end Rshs.PatchTree
