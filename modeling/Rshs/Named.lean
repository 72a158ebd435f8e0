/-
The answer to a PROPFIND by names, read name by name.

The three propstats of an answer are computed apart: the live properties by local
name alone, the names that are not found, and all the dead properties of the entry,
asked for or not. `Shows` says that an element of the answer is about a name, and
`statuses` are the statuses of the propstats that show it. `named_reports_iff` says
for which entries and names the answer is written and gives each name its one status
and nothing else.
-/
import Rshs.Xml

set_option autoImplicit false

namespace Rshs.Named

open FinMap Rshs.Webdav Rshs.Xml

/-! ## Names -/

/-- A Clark name: a namespace in braces and a local name, or a local name alone, as an
XML name has them. -/
structure Clark (n : String) : Prop where
  key : clark_key (key_parts n).1 (key_parts n).2 = n
  colon : ':' ∉ (key_parts n).2.toList

/-- The name of a written element: the answer binds `D` to `DAV:` and has no default
namespace. -/
def element_name (name : String) (attributes : List (String × String)) : String × String :=
  match name.toList with
  | 'D' :: ':' :: rest => ("DAV:", String.ofList rest)
  | _ => ((attributes.lookup "xmlns").getD "", name)

/-- The name of the element that some events begin with. -/
def expanded : List Event → Option (String × String)
  | .Start name attributes :: _ => some (element_name name attributes)
  | .Empty name attributes :: _ => some (element_name name attributes)
  | _ => none

/-- The key of a name in the namespace `DAV:`. -/
def dav (l : String) : String := clark_key "DAV:" l

section Shown

variable (entry : PropEntry)

/-- A local name is that of a live property the entry has. -/
def Applicable (l : String) : Prop := l ∈ SUPPORTED_PROPS ∧ is_applicable l entry.is_dir = true

instance (l : String) : Decidable (Applicable entry l) := by
  unfold Applicable
  infer_instance

/-- An element is about a name. A live property that the entry has is also asked for
without its namespace. -/
def Shows (element : List Event) (n : String) : Prop :=
  expanded element = some (key_parts n) ∨
    ((key_parts n).1 = "" ∧ Applicable entry (key_parts n).2 ∧
      expanded element = some ("DAV:", (key_parts n).2))

instance (element : List Event) (n : String) : Decidable (Shows entry element n) := by
  unfold Shows
  infer_instance

/-- A propstat has an element about the name. -/
def ShowsIn (n : String) (ps : PropStat) : Prop := ∃ element ∈ ps.props, Shows entry element n

instance (n : String) : DecidablePred (ShowsIn entry n) := fun ps => by
  unfold ShowsIn
  infer_instance

/-- The statuses an answer gives a name, one for each propstat it is in. -/
def statuses (r : Response) (n : String) : List String :=
  (r.propstats.filter fun ps => ShowsIn entry n ps).map PropStat.status

/-- The entry has a dead property with that key. -/
def HasDead (key : String) : Prop := ∃ dead, entry.dead_props = some dead ∧ key ∈ dead

instance (key : String) : Decidable (HasDead entry key) :=
  match h : entry.dead_props with
  | none => isFalse (by
      rintro ⟨dead, hdead, -⟩
      rw [h] at hdead
      cases hdead)
  | some dead => decidable_of_iff (key ∈ dead) (by simp [HasDead, h])

/-- The name is found: a live property the entry has, in the namespace `DAV:` or in
none, or a dead property. -/
def Found (n : String) : Prop :=
  (((key_parts n).1 = "DAV:" ∨ (key_parts n).1 = "") ∧ Applicable entry (key_parts n).2) ∨
    HasDead entry n

/-- Each name has one status, the right one, and every element is about a name that was
asked for. -/
structure ReportsNamed (names : List String) (r : Response) : Prop where
  found : ∀ n ∈ names, Found entry n → statuses entry r n = [OK_LINE]
  missing : ∀ n ∈ names, ¬ Found entry n → statuses entry r n = [NOT_FOUND_LINE]
  asked : ∀ ps ∈ r.propstats, ∀ element ∈ ps.props, ∃ n ∈ names, Shows entry element n

/-- All dead properties are asked for. Of a name with the local name of a live property
that the entry has, that property is asked for by its own name and is no dead property
too; if the entry does not have it, the local name is asked for by itself; and a name
that is not the live property's is a dead property. -/
structure Agreeable (names : List String) : Prop where
  dead : ∀ key, HasDead entry key → key ∈ names
  applies : ∀ n ∈ names, Applicable entry (key_parts n).2 →
    ((key_parts n).2 ∈ names ∨ dav (key_parts n).2 ∈ names) ∧
      ¬ HasDead entry (key_parts n).2 ∧ ¬ HasDead entry (dav (key_parts n).2)
  bare : ∀ n ∈ names, (key_parts n).2 ∈ SUPPORTED_PROPS → ¬ Applicable entry (key_parts n).2 →
    (key_parts n).2 ∈ names
  own : ∀ n ∈ names, (key_parts n).2 ∈ SUPPORTED_PROPS →
    (key_parts n).1 = "" ∨ ((key_parts n).1 = "DAV:" ∧ Applicable entry (key_parts n).2) ∨
      HasDead entry n

end Shown

/-! ## Names and elements -/

theorem Clark.eq {n m : String} (hn : Clark n) (hm : Clark m) (h : key_parts n = key_parts m) :
    n = m := by
  rw [← hn.key, ← hm.key, h]

/-- The live properties are written without a namespace. -/
theorem live_parts : ∀ p ∈ SUPPORTED_PROPS, key_parts p = ("", p) := by decide

theorem live_colon : ∀ p ∈ SUPPORTED_PROPS, ':' ∉ p.toList := by decide

theorem dav_parts : ∀ p ∈ SUPPORTED_PROPS, key_parts (dav p) = ("DAV:", p) := by decide

theorem clark_live {p : String} (hp : p ∈ SUPPORTED_PROPS) : Clark p := by
  have hparts := live_parts p hp
  constructor
  · rw [hparts]
    rfl
  · rw [hparts]
    exact live_colon p hp

theorem clark_dav {p : String} (hp : p ∈ SUPPORTED_PROPS) : Clark (dav p) := by
  have hparts := dav_parts p hp
  constructor
  · rw [hparts]
    rfl
  · rw [hparts]
    exact live_colon p hp

/-- A name without a prefix, under the declaration of its namespace. -/
theorem element_name_key {n : String} (h : Clark n) :
    element_name (key_parts n).2 (ns_attributes (key_parts n).1) = key_parts n := by
  have hcolon := h.colon
  have hns : ((ns_attributes (key_parts n).1).lookup "xmlns").getD "" = (key_parts n).1 := by
    unfold ns_attributes
    split
    · rename_i hnil
      rw [hnil]
      rfl
    · simp
  unfold element_name
  split
  · rename_i rest hlist
    rw [hlist] at hcolon
    simp at hcolon
  · rw [hns]

theorem expanded_missing {n : String} (h : Clark n) :
    expanded [.Empty (key_parts n).2 (ns_attributes (key_parts n).1)] = some (key_parts n) := by
  rw [expanded, element_name_key h]

theorem expanded_dead {key value : String} (h : Clark key) :
    expanded (dead_prop ⟨key, value⟩) = some (key_parts key) := by
  rw [dead_prop, expanded, element_name_key h]

theorem expanded_live {entry : PropEntry} {p : String} {content : List Event}
    (hp : p ∈ SUPPORTED_PROPS) (hlive : live_prop entry p = some content) :
    expanded content = some ("DAV:", p) := by
  obtain ⟨rest, rfl⟩ := List.head?_eq_some_iff.mp (live_prop_head hp hlive)
  rw [expanded, element_name]
  simp

theorem local_name_key (n : String) : local_name n = (key_parts n).2 := by
  unfold local_name key_parts
  cases parse_clark n with
  | none => rfl
  | some parts => rfl

/-! ## What each part of an answer shows -/

theorem mem_missing {names : List String} {n : String} :
    n ∈ (sort_names names).2 ↔ n ∈ names ∧ (key_parts n).2 ∉ SUPPORTED_PROPS := by
  induction names using List.reverseRecOn with
  | nil => simp [sort_names]
  | append_singleton names m ih =>
    rw [sort_names_append, List.mem_append, List.mem_singleton]
    unfold sort_name
    simp only [List.contains_iff_mem]
    have hlocal := local_name_key m
    split
    · rename_i hlive
      have hstep : n ∈ (sort_names names).2 ↔
          (n ∈ names ∨ n = m) ∧ (key_parts n).2 ∉ SUPPORTED_PROPS := by
        rw [ih]
        constructor
        · rintro ⟨hn, hno⟩
          exact ⟨Or.inl hn, hno⟩
        · rintro ⟨hn | rfl, hno⟩
          · exact ⟨hn, hno⟩
          · rw [hlocal] at hlive
            exact absurd hlive hno
      split
      · exact hstep
      · exact hstep
    · rename_i hother
      rw [List.mem_append, List.mem_singleton, ih]
      constructor
      · rintro (⟨hn, hno⟩ | rfl)
        · exact ⟨Or.inl hn, hno⟩
        · rw [hlocal] at hother
          exact ⟨Or.inr rfl, hother⟩
      · rintro ⟨hn | hn, hno⟩
        · exact Or.inl ⟨hn, hno⟩
        · exact Or.inr hn

section Parts

variable {entry : PropEntry} {names : List String} {n : String}

theorem mem_applicable {p : String} :
    p ∈ applicable (.Named names) entry.is_dir ↔
      Applicable entry p ∧ ∃ m ∈ names, (key_parts m).2 = p := by
  unfold applicable Applicable
  rw [List.mem_filter, mem_asked]
  simp only [Asks, local_name_key]
  constructor
  · rintro ⟨⟨hp, hm⟩, happ⟩
    exact ⟨⟨hp, happ⟩, hm⟩
  · rintro ⟨⟨hp, happ⟩, hm⟩
    exact ⟨⟨hp, hm⟩, happ⟩

/-- A name that is answered with 404: a local name whose live property the entry lacks,
or a name that is none. -/
theorem mem_not_found {k : String} :
    k ∈ not_found entry (.Named names) ↔ ¬ HasDead entry k ∧
      ((k ∈ SUPPORTED_PROPS ∧ ¬ Applicable entry k ∧ ∃ m ∈ names, (key_parts m).2 = k) ∨
        (k ∈ names ∧ (key_parts k).2 ∉ SUPPORTED_PROPS)) := by
  have hall : k ∈ ((asked (.Named names)).1.filter (fun p => !is_applicable p entry.is_dir)
      ++ (asked (.Named names)).2) ↔
      (k ∈ SUPPORTED_PROPS ∧ ¬ Applicable entry k ∧ ∃ m ∈ names, (key_parts m).2 = k) ∨
        (k ∈ names ∧ (key_parts k).2 ∉ SUPPORTED_PROPS) := by
    rw [List.mem_append, List.mem_filter, mem_asked]
    unfold Applicable
    simp only [asked, Asks, local_name_key, mem_missing]
    refine or_congr_left ?_
    constructor
    · rintro ⟨⟨hp, hm⟩, happ⟩
      refine ⟨hp, fun h => ?_, hm⟩
      simp [h.2] at happ
    · rintro ⟨hp, happ, hm⟩
      refine ⟨⟨hp, hm⟩, ?_⟩
      cases hdir : is_applicable k entry.is_dir with
      | false => rfl
      | true => exact absurd ⟨hp, hdir⟩ happ
  unfold not_found HasDead
  cases entry.dead_props with
  | none => simpa using hall
  | some dead =>
    simp only [List.mem_filter, hall, Option.isNone_iff_eq_none, Option.some.injEq,
      exists_eq_left', AList.lookup_eq_none]
    exact and_comm

/-- The name is in the propstat of the live properties. -/
theorem shows_live {r : Response} (hr : write_response (.Named names) entry = some r)
    (hn : n ∈ names) :
    (∃ element ∈ (applicable (.Named names) entry.is_dir).map (live_element entry),
        Shows entry element n) ↔
      ((key_parts n).1 = "DAV:" ∨ (key_parts n).1 = "") ∧ Applicable entry (key_parts n).2 := by
  constructor
  · rintro ⟨element, helement, hshows⟩
    obtain ⟨p, hp, rfl⟩ := List.mem_map.mp helement
    have happ := (mem_applicable.mp hp).1
    have hname := expanded_live happ.1 (live_written hr nofun hp)
    rcases hshows with h | ⟨hbare, h, -⟩
    · rw [hname, Option.some_inj] at h
      rw [← h]
      exact ⟨Or.inl rfl, happ⟩
    · exact ⟨Or.inr hbare, h⟩
  · rintro ⟨hns, happ⟩
    have hp := mem_applicable.mpr ⟨happ, n, hn, rfl⟩
    have hname := expanded_live happ.1 (live_written hr nofun hp)
    refine ⟨live_element entry (key_parts n).2, List.mem_map_of_mem hp, ?_⟩
    rcases hns with hdav | hbare
    · left
      rw [hname, ← hdav]
    · exact Or.inr ⟨hbare, happ, hname⟩

/-- The name is in the propstat of what is not found. -/
theorem shows_missing (hn : n ∈ names) (hclark : ∀ m ∈ names, Clark m) :
    (∃ element ∈ (write_propstat_404 (not_found entry (.Named names))).props,
        Shows entry element n) ↔
      ¬ HasDead entry n ∧ (((key_parts n).1 = "" ∧ (key_parts n).2 ∈ SUPPORTED_PROPS ∧
          ¬ Applicable entry (key_parts n).2) ∨ (key_parts n).2 ∉ SUPPORTED_PROPS) := by
  have hc := hclark n hn
  have hkey : ∀ k ∈ not_found entry (.Named names), Clark k := by
    intro k hk
    rcases (mem_not_found.mp hk).2 with ⟨hlive, -, -⟩ | ⟨hreq, -⟩
    · exact clark_live hlive
    · exact hclark k hreq
  constructor
  · rintro ⟨element, helement, hshows⟩
    obtain ⟨k, hk, rfl⟩ := List.mem_map.mp helement
    rw [Shows, expanded_missing (hkey k hk), Option.some_inj, Option.some_inj] at hshows
    obtain ⟨hdead, hcases⟩ := mem_not_found.mp hk
    rcases hshows with h | ⟨hbare, happ, h⟩
    · -- the element is the name's own
      obtain rfl : k = n := (hkey k hk).eq hc h
      refine ⟨hdead, hcases.imp (fun hlive => ?_) And.right⟩
      have hparts := live_parts k hlive.1
      rw [hparts]
      exact ⟨rfl, hlive.1, hlive.2.1⟩
    · -- no element of a live property of the entry is here
      rcases hcases with ⟨hlive, -, -⟩ | ⟨-, hother⟩
      · rw [live_parts k hlive, Prod.mk.injEq] at h
        exact absurd h.1 (by decide)
      · rw [h] at hother
        exact absurd happ.1 hother
  · rintro ⟨hdead, hcases⟩
    refine ⟨_, List.mem_map_of_mem (a := n) (mem_not_found.mpr ⟨hdead, ?_⟩),
      Or.inl (expanded_missing hc)⟩
    rcases hcases with ⟨hbare, hlive, happ⟩ | hother
    · have heq : (key_parts n).2 = n := by
        refine (clark_live hlive).eq hc ?_
        rw [live_parts _ hlive, ← hbare]
      left
      rw [heq] at hlive happ
      exact ⟨hlive, happ, n, hn, heq⟩
    · exact Or.inr ⟨hn, hother⟩

/-- The keys of the dead properties are Clark names. -/
def ClarkDead (entry : PropEntry) : Prop := ∀ key, HasDead entry key → Clark key

theorem has_dead_iff {key : String} :
    HasDead entry key ↔ ∃ value, dead_prop ⟨key, value⟩ ∈ dead_elements entry ∧
      ∃ dead, entry.dead_props = some dead ∧ ⟨key, value⟩ ∈ dead.entries := by
  unfold HasDead dead_elements
  constructor
  · rintro ⟨dead, hdead, hmem⟩
    obtain ⟨value, hvalue⟩ := List.exists_of_mem_keys (AList.mem_keys.mp hmem)
    rw [hdead]
    exact ⟨value, List.mem_map_of_mem hvalue, dead, rfl, hvalue⟩
  · rintro ⟨value, -, dead, hdead, hmem⟩
    exact ⟨dead, hdead, AList.mem_keys.mpr (List.mem_keys_of_mem hmem)⟩

/-- Every element of a dead property is that of a key of the entry. -/
theorem dead_element {element : List Event} (h : element ∈ dead_elements entry) :
    ∃ key value, HasDead entry key ∧ element = dead_prop ⟨key, value⟩ := by
  have hmem := h
  unfold dead_elements at h
  cases hdead : entry.dead_props with
  | none =>
    rw [hdead] at h
    simp at h
  | some dead =>
    rw [hdead] at h
    obtain ⟨⟨key, value⟩, he, rfl⟩ := List.mem_map.mp h
    exact ⟨key, value, has_dead_iff.mpr ⟨value, hmem, dead, hdead, he⟩, rfl⟩

/-- The name is in the propstat of the dead properties. -/
theorem shows_dead (hc : Clark n) (hdead : ClarkDead entry) :
    (∃ element ∈ dead_elements entry, Shows entry element n) ↔
      HasDead entry n ∨ ((key_parts n).1 = "" ∧ Applicable entry (key_parts n).2 ∧
        HasDead entry (dav (key_parts n).2)) := by
  constructor
  · rintro ⟨element, helement, hshows⟩
    obtain ⟨key, value, hkey, rfl⟩ := dead_element helement
    rw [Shows, expanded_dead (hdead key hkey), Option.some_inj, Option.some_inj] at hshows
    rcases hshows with h | ⟨hbare, happ, h⟩
    · obtain rfl : key = n := (hdead key hkey).eq hc h
      exact Or.inl hkey
    · right
      have heq : key = dav (key_parts n).2 := by
        refine (hdead key hkey).eq (clark_dav happ.1) ?_
        rw [h, dav_parts _ happ.1]
      rw [heq] at hkey
      exact ⟨hbare, happ, hkey⟩
  · rintro (h | ⟨hbare, happ, h⟩)
    · obtain ⟨value, hmem, -⟩ := has_dead_iff.mp h
      exact ⟨_, hmem, Or.inl (expanded_dead hc)⟩
    · obtain ⟨value, hmem, -⟩ := has_dead_iff.mp h
      refine ⟨_, hmem, Or.inr ⟨hbare, happ, ?_⟩⟩
      rw [expanded_dead (hdead _ h), dav_parts _ happ.1]

/-! ## The answer -/

/-- A propstat, unless it has no elements. -/
def unless_empty (ps : PropStat) : List PropStat := if ps.props = [] then [] else [ps]

theorem parts_eq {r : Response} (hr : write_response (.Named names) entry = some r) :
    r.propstats =
      unless_empty (live_propstat entry (applicable (.Named names) entry.is_dir)) ++
        unless_empty (write_propstat_404 (not_found entry (.Named names))) ++
        unless_empty ⟨dead_elements entry, OK_LINE⟩ := by
  have hlive : unless_empty (live_propstat entry (applicable (.Named names) entry.is_dir)) =
      if applicable (.Named names) entry.is_dir = [] then []
      else [live_propstat entry (applicable (.Named names) entry.is_dir)] := by
    simp [unless_empty, live_propstat]
  have hmissing : unless_empty (write_propstat_404 (not_found entry (.Named names))) =
      if not_found entry (.Named names) = [] then []
      else [write_propstat_404 (not_found entry (.Named names))] := by
    simp [unless_empty, write_propstat_404]
  have hname : PropRequest.Named names ≠ .PropName := by simp
  rw [propstats_eq hr hname, hlive, hmissing]
  apply congrArg
  unfold unless_empty dead_elements
  cases entry.dead_props with
  | none => rfl
  | some dead => simp [write_dead_propstat]

/-- A part without elements is not written, and would show nothing. -/
theorem statuses_part (ps : PropStat) :
    ((unless_empty ps).filter fun qs => ShowsIn entry n qs).map PropStat.status =
      if ShowsIn entry n ps then [ps.status] else [] := by
  unfold unless_empty
  by_cases hnil : ps.props = []
  · have hno : ¬ ShowsIn entry n ps := by simp [ShowsIn, hnil]
    rw [if_pos hnil, if_neg hno]
    rfl
  · rw [if_neg hnil]
    by_cases hshow : ShowsIn entry n ps
    · simp [hshow]
    · simp [hshow]

section Answer

variable {r : Response} (hr : write_response (.Named names) entry = some r)

include hr

/-- **Where a name is shown**, part by part. -/
theorem statuses_eq (hn : n ∈ names) (hclark : ∀ m ∈ names, Clark m) (hdead : ClarkDead entry) :
    statuses entry r n =
      (if ((key_parts n).1 = "DAV:" ∨ (key_parts n).1 = "") ∧ Applicable entry (key_parts n).2
        then [OK_LINE] else []) ++
      (if ¬ HasDead entry n ∧ (((key_parts n).1 = "" ∧ (key_parts n).2 ∈ SUPPORTED_PROPS ∧
          ¬ Applicable entry (key_parts n).2) ∨ (key_parts n).2 ∉ SUPPORTED_PROPS)
        then [NOT_FOUND_LINE] else []) ++
      (if HasDead entry n ∨ ((key_parts n).1 = "" ∧ Applicable entry (key_parts n).2 ∧
          HasDead entry (dav (key_parts n).2)) then [OK_LINE] else []) := by
  unfold statuses
  rw [parts_eq hr, List.filter_append, List.filter_append, List.map_append, List.map_append,
    statuses_part, statuses_part, statuses_part]
  congr 1
  · congr 1
    · exact if_congr (shows_live hr hn) rfl rfl
    · exact if_congr (shows_missing hn hclark) rfl rfl
  · exact if_congr (shows_dead (hclark n hn) hdead) rfl rfl

/-- The elements of an answer, part by part. -/
theorem mem_response {element : List Event} :
    (∃ ps ∈ r.propstats, element ∈ ps.props) ↔
      element ∈ (applicable (.Named names) entry.is_dir).map (live_element entry) ∨
        element ∈ (write_propstat_404 (not_found entry (.Named names))).props ∨
        element ∈ dead_elements entry := by
  have hpart : ∀ ps : PropStat, (∃ qs ∈ unless_empty ps, element ∈ qs.props) ↔
      element ∈ ps.props := by
    intro ps
    unfold unless_empty
    split
    · rename_i hnil
      simp [hnil]
    · simp
  rw [parts_eq hr]
  simp only [List.mem_append, or_and_right, exists_or, hpart, or_assoc]
  rfl

/-- One name: its statuses are one, the right one, exactly under the conditions on the
dead properties. -/
theorem status_iff (hn : n ∈ names) (hclark : ∀ m ∈ names, Clark m) (hdead : ClarkDead entry) :
    ((Found entry n → statuses entry r n = [OK_LINE]) ∧
      (¬ Found entry n → statuses entry r n = [NOT_FOUND_LINE])) ↔
      ((key_parts n).2 ∈ SUPPORTED_PROPS →
        (key_parts n).1 = "" ∨ ((key_parts n).1 = "DAV:" ∧ Applicable entry (key_parts n).2) ∨
          HasDead entry n) ∧
      (Applicable entry (key_parts n).2 → (key_parts n).1 = "DAV:" ∨ (key_parts n).1 = "" →
        ¬ HasDead entry n ∧ ((key_parts n).1 = "" → ¬ HasDead entry (dav (key_parts n).2))) := by
  have hlive : Applicable entry (key_parts n).2 → (key_parts n).2 ∈ SUPPORTED_PROPS := And.left
  have hdiff : OK_LINE ≠ NOT_FOUND_LINE := by decide
  have hdav : "DAV:" ≠ "" := by decide
  rw [statuses_eq hr hn hclark hdead]
  unfold Found
  by_cases hs : (key_parts n).2 ∈ SUPPORTED_PROPS
  · by_cases ha : Applicable entry (key_parts n).2
    · by_cases hd : HasDead entry n
      · by_cases hns : (key_parts n).1 = "DAV:" ∨ (key_parts n).1 = ""
        · simp [ha, hd, hns]
        · simp [ha, hd, hns]
      · by_cases hbare : (key_parts n).1 = ""
        · by_cases hdd : HasDead entry (dav (key_parts n).2)
          · simp [ha, hd, hbare, hdd, hs]
          · simp [ha, hd, hbare, hdd, hs]
        · by_cases hns : (key_parts n).1 = "DAV:"
          · simp [ha, hd, hs, hns]
          · simp [ha, hd, hs, hns, hbare]
    · by_cases hd : HasDead entry n
      · simp [hs, ha, hd]
      · by_cases hbare : (key_parts n).1 = ""
        · simp [ha, hd, hbare, hs]
        · simp [ha, hd, hbare, hs]
  · have ha : ¬ Applicable entry (key_parts n).2 := fun h => hs (hlive h)
    by_cases hd : HasDead entry n
    · simp [hs, ha, hd]
    · simp [hs, ha, hd]

omit hr in
theorem key_of_bare (hc : Clark n) (hbare : (key_parts n).1 = "") : (key_parts n).2 = n := by
  have hkey := hc.key
  rw [hbare] at hkey
  exact hkey

omit hr in
theorem key_of_dav (hc : Clark n) (h : (key_parts n).1 = "DAV:") : dav (key_parts n).2 = n := by
  have hkey := hc.key
  rw [h] at hkey
  exact hkey

/-- What a live property's element is about. -/
theorem shows_live_element {p : String} (happlies : p ∈ applicable (.Named names) entry.is_dir)
    (hc : Clark n) : Shows entry (live_element entry p) n ↔ n = p ∨ n = dav p := by
  have hp := (mem_applicable.mp happlies).1
  rw [Shows, expanded_live hp.1 (live_written hr nofun happlies), Option.some_inj, Option.some_inj]
  constructor
  · rintro (h | ⟨hbare, -, h⟩)
    · right
      refine hc.eq (clark_dav hp.1) ?_
      rw [← h, dav_parts p hp.1]
    · left
      rw [Prod.mk.injEq] at h
      rw [h.2, key_of_bare hc hbare]
  · rintro (rfl | rfl)
    · right
      rw [live_parts n hp.1]
      exact ⟨rfl, hp, rfl⟩
    · left
      rw [dav_parts p hp.1]

/-- In an answer that is written each requested name is in one propstat with its status
and nothing else is, exactly if the names and the dead properties agree. -/
theorem written_reports_iff (hclark : ∀ m ∈ names, Clark m) (hdead : ClarkDead entry) :
    ReportsNamed entry names r ↔ Agreeable entry names := by
  constructor
  · intro h
    have hstatus := fun n hn => (status_iff hr hn hclark hdead).mp ⟨h.found n hn, h.missing n hn⟩
    have hshown : ∀ element, element ∈ (applicable (.Named names) entry.is_dir).map (live_element entry)
          ∨ element ∈ (write_propstat_404 (not_found entry (.Named names))).props ∨
          element ∈ dead_elements entry → ∃ n ∈ names, Shows entry element n := by
      intro element helement
      obtain ⟨ps, hps, hmem⟩ := (mem_response hr).mpr helement
      exact h.asked ps hps element hmem
    -- the live name that an asked local name stands for is asked for by itself
    have hnamed : ∀ n ∈ names, Applicable entry (key_parts n).2 →
        (key_parts n).2 ∈ names ∨ dav (key_parts n).2 ∈ names := by
      intro n hn happ
      have hp := mem_applicable.mpr ⟨happ, n, hn, rfl⟩
      obtain ⟨m, hm, hshows⟩ := hshown (live_element entry (key_parts n).2)
        (Or.inl (List.mem_map_of_mem hp))
      rcases (shows_live_element hr hp (hclark m hm)).mp hshows with rfl | rfl
      · exact Or.inl hm
      · exact Or.inr hm
    have hall : ∀ key, HasDead entry key → key ∈ names := by
      intro key hkey
      obtain ⟨value, hmem, -⟩ := has_dead_iff.mp hkey
      obtain ⟨m, hm, hshows⟩ := hshown _ (Or.inr (Or.inr hmem))
      rw [Shows, expanded_dead (hdead key hkey), Option.some_inj, Option.some_inj] at hshows
      rcases hshows with heq | ⟨hbare, happ, heq⟩
      · rw [(hdead key hkey).eq (hclark m hm) heq]
        exact hm
      · -- the live property of that name would be in two propstats
        have hdav : key = dav (key_parts m).2 := by
          refine (hdead key hkey).eq (clark_dav happ.1) ?_
          rw [heq, dav_parts _ happ.1]
        rw [hdav] at hkey
        exact absurd hkey (((hstatus m hm).2 happ (Or.inr hbare)).2 hbare)
    refine ⟨hall, fun n hn happ => ⟨hnamed n hn happ, ?_, ?_⟩, fun n hn hlive hno => ?_,
      fun n hn hlive => (hstatus n hn).1 hlive⟩
    · intro hkey
      have hparts := live_parts _ happ.1
      have hst := (hstatus _ (hall _ hkey)).2
      rw [hparts] at hst
      exact (hst happ (Or.inr rfl)).1 hkey
    · intro hkey
      have hparts := dav_parts _ happ.1
      have hst := (hstatus _ (hall _ hkey)).2
      rw [hparts] at hst
      exact (hst happ (Or.inl rfl)).1 hkey
    · by_cases hkey : HasDead entry (key_parts n).2
      · exact hall _ hkey
      · have hmem : (key_parts n).2 ∈ not_found entry (.Named names) :=
          mem_not_found.mpr ⟨hkey, Or.inl ⟨hlive, hno, n, hn, rfl⟩⟩
        obtain ⟨m, hm, hshows⟩ := hshown _ (Or.inr (Or.inl (List.mem_map_of_mem hmem)))
        have hclive := clark_live hlive
        rw [Shows, expanded_missing hclive, Option.some_inj, Option.some_inj,
          live_parts _ hlive] at hshows
        rcases hshows with heq | ⟨-, -, heq⟩
        · rw [← live_parts _ hlive] at heq
          rw [hclive.eq (hclark m hm) heq]
          exact hm
        · rw [Prod.mk.injEq] at heq
          exact absurd heq.1 (by decide)
  · intro h
    have hstatus : ∀ n ∈ names, _ := fun n hn => (status_iff hr hn hclark hdead).mpr
      ⟨h.own n hn, fun happ hns => by
        obtain ⟨-, hbare, hdav⟩ := h.applies n hn happ
        refine ⟨?_, fun _ => hdav⟩
        rcases hns with hns | hns
        · rw [← key_of_dav (hclark n hn) hns]
          exact hdav
        · rw [← key_of_bare (hclark n hn) hns]
          exact hbare⟩
    refine ⟨fun n hn => (hstatus n hn).1, fun n hn => (hstatus n hn).2, ?_⟩
    intro ps hps element hmem
    rcases (mem_response hr).mp ⟨ps, hps, hmem⟩ with hlive | hmissing | hd
    · obtain ⟨p, hp, rfl⟩ := List.mem_map.mp hlive
      obtain ⟨happ, m, hm, rfl⟩ := mem_applicable.mp hp
      rcases (h.applies m hm happ).1 with hin | hin
      · exact ⟨_, hin, (shows_live_element hr hp (hclark _ hin)).mpr (Or.inl rfl)⟩
      · exact ⟨_, hin, (shows_live_element hr hp (hclark _ hin)).mpr (Or.inr rfl)⟩
    · obtain ⟨k, hk, rfl⟩ := List.mem_map.mp hmissing
      rcases (mem_not_found.mp hk).2 with ⟨hlive, hno, m, hm, rfl⟩ | ⟨hin, -⟩
      · exact ⟨_, h.bare m hm hlive hno, Or.inl (expanded_missing (clark_live hlive))⟩
      · exact ⟨k, hin, Or.inl (expanded_missing (hclark k hin))⟩
    · obtain ⟨key, value, hkey, rfl⟩ := dead_element hd
      exact ⟨key, h.dead key hkey, Or.inl (expanded_dead (hdead key hkey))⟩

end Answer

/-- **What a PROPFIND by names reports.** There is an answer with each requested name in
one propstat with its status and nothing else, exactly if the dates that are asked for
can be written and the names and the dead properties agree. -/
theorem named_reports_iff (hheld : entry.Held) (hclark : ∀ m ∈ names, Clark m)
    (hdead : ClarkDead entry) :
    (∃ r, write_response (.Named names) entry = some r ∧ ReportsNamed entry names r) ↔
      Datable (.Named names) entry ∧ Agreeable entry names := by
  rw [← formats_iff hheld, ← write_response_isSome]
  constructor
  · rintro ⟨r, hr, hreports⟩
    exact ⟨Option.isSome_iff_exists.mpr ⟨r, hr⟩, (written_reports_iff hr hclark hdead).mp hreports⟩
  · rintro ⟨hsome, hagree⟩
    obtain ⟨r, hr⟩ := Option.isSome_iff_exists.mp hsome
    exact ⟨r, hr, (written_reports_iff hr hclark hdead).mpr hagree⟩

end Parts

/-! ## A property nobody asked for -/

/-- A file with the dead property `p` in the namespace `x:`. -/
def file_entry : PropEntry where
  href := "/f".toList
  modified := 0
  created := none
  size := 0
  is_dir := false
  dead_props := some (AList.insert "{x:}p" "v" ∅)

theorem file_dead {key : String} : HasDead file_entry key ↔ key = "{x:}p" := by
  simp [HasDead, file_entry, AList.mem_keys, AList.keys_singleton]

theorem file_clark : ClarkDead file_entry := by
  intro key hkey
  rw [file_dead.mp hkey]
  exact ⟨by decide, by decide⟩

theorem file_held : file_entry.Held := ⟨by decide, nofun⟩

theorem named_reports_iff_f :
    (∃ r, write_response (.Named [dav "getetag", "{x:}p"]) file_entry = some r ∧
        ReportsNamed file_entry [dav "getetag", "{x:}p"] r) ↔
      Datable (.Named [dav "getetag", "{x:}p"]) file_entry ∧
        Agreeable file_entry [dav "getetag", "{x:}p"] := by
  refine named_reports_iff file_held (fun m hm => ?_) file_clark
  simp only [List.mem_cons, List.not_mem_nil, or_false] at hm
  rcases hm with rfl | rfl
  · exact clark_dav (by decide)
  · exact ⟨by decide, by decide⟩

/-- A request for the entity tag alone is answered with the dead property too. -/
theorem unasked_reported :
    Clark (dav "getetag") ∧ ClarkDead file_entry ∧ file_entry.Held ∧
      ¬ ∃ r, write_response (.Named [dav "getetag"]) file_entry = some r ∧
        ReportsNamed file_entry [dav "getetag"] r := by
  refine ⟨clark_dav (by decide), file_clark, file_held, ?_⟩
  rintro ⟨r, hr, h⟩
  obtain ⟨value, hmem, -⟩ := has_dead_iff.mp (file_dead.mpr rfl)
  obtain ⟨ps, hps, helement⟩ := (mem_response hr).mpr (Or.inr (Or.inr hmem))
  obtain ⟨n, hn, hshows⟩ := h.asked ps hps _ helement
  rw [List.mem_singleton.mp hn, Shows, expanded_dead ⟨by decide, by decide⟩] at hshows
  revert hshows
  decide

end Rshs.Named
