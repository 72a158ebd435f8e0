/-
Operations of a hash map that `AList` lacks: `retain`, which keeps or rewrites each
entry, `or_default`, which makes a key present, `and_modify`, and a loop of insertions.

An `AList` is a hash map with its iteration order made visible: the keys are
distinct and the entries stand in some order. A statement over every `AList` is a
statement over every map content and every iteration order.
-/
import Mathlib.Data.List.AList

set_option autoImplicit false

namespace FinMap

variable {α β : Type*} [DecidableEq α]

/-- A finite map with its entries in iteration order. -/
abbrev Map (α β : Type*) := AList (fun _ : α => β)

/-- One entry of a map. -/
abbrev Entry (α β : Type*) := Sigma (fun _ : α => β)

/-! ## `retain` -/

/-- One entry under `retain`. -/
def retain_entry (f : α → β → Option β) (e : Entry α β) : Option (Entry α β) :=
  (f e.1 e.2).map (fun v => ⟨e.1, v⟩)

omit [DecidableEq α] in
theorem retain_keys_sublist (f : α → β → Option β) (es : List (Entry α β)) :
    List.Sublist (es.filterMap (retain_entry f)).keys es.keys := by
  induction es with
  | nil => simp
  | cons e es ih =>
    cases hf : f e.1 e.2 with
    | none =>
      rw [List.filterMap_cons_none (by simp [retain_entry, hf])]
      exact ih.trans (List.sublist_cons_self _ _)
    | some v =>
      rw [List.filterMap_cons_some (b := ⟨e.1, v⟩) (by simp [retain_entry, hf])]
      exact ih.cons_cons e.1

/-- `HashMap::retain`, with the entry's value rewritten on the way: `f k v = none`
drops the entry. -/
def retain (f : α → β → Option β) (m : Map α β) : Map α β where
  entries := m.entries.filterMap (retain_entry f)
  nodupKeys := List.Nodup.sublist (retain_keys_sublist f m.entries) m.nodupKeys

omit [DecidableEq α] in
theorem mem_retain {f : α → β → Option β} {m : Map α β} {k : α} {v : β} :
    (⟨k, v⟩ : Entry α β) ∈ (retain f m).entries
      ↔ ∃ u, (⟨k, u⟩ : Entry α β) ∈ m.entries ∧ f k u = some v := by
  rw [retain, List.mem_filterMap]
  constructor
  · rintro ⟨⟨k', u⟩, hmem, hf⟩
    obtain ⟨w, hw, heq⟩ := Option.map_eq_some_iff.mp hf
    cases heq
    exact ⟨u, hmem, hw⟩
  · rintro ⟨u, hmem, hf⟩
    exact ⟨⟨k, u⟩, hmem, by simp [retain_entry, hf]⟩

/-- A retained map holds what `f` makes of each entry. -/
theorem lookup_retain (f : α → β → Option β) (m : Map α β) (k : α) :
    (retain f m).lookup k = (m.lookup k).bind (f k) := by
  refine Option.ext (fun v => ?_)
  rw [← Option.mem_def, AList.mem_lookup_iff, mem_retain, Option.bind_eq_some_iff]
  refine exists_congr (fun u => and_congr ?_ Iff.rfl)
  rw [← AList.mem_lookup_iff, Option.mem_def]

/-! ## `or_default` -/

/-- `map.entry(k).or_default()`, as the map it leaves. -/
def or_default (d : β) (k : α) (m : Map α β) : Map α β :=
  if (m.lookup k).isSome then m else m.insert k d

/-- The value `or_default` hands out. -/
def get_or (d : β) (k : α) (m : Map α β) : β := (m.lookup k).getD d

theorem get_or_or_default (d : β) (k j : α) (m : Map α β) :
    get_or d j (or_default d k m) = get_or d j m := by
  rw [or_default]
  split
  · rfl
  · rename_i hnone
    by_cases hjk : j = k
    · subst hjk
      have hl : m.lookup j = none := by simpa using hnone
      simp [get_or, hl]
    · rw [get_or, AList.lookup_insert_ne hjk, get_or]

@[simp] theorem get_or_insert (d : β) (k : α) (v : β) (m : Map α β) :
    get_or d k (m.insert k v) = v := by
  simp [get_or]

theorem get_or_insert_ne (d : β) {j k : α} (hjk : j ≠ k) (v : β) (m : Map α β) :
    get_or d j (m.insert k v) = get_or d j m := by
  rw [get_or, AList.lookup_insert_ne hjk, get_or]

/-! ## `and_modify` -/

/-- `map.entry(k).and_modify(f)`, as the map it leaves. -/
def and_modify (k : α) (f : β → β) (m : Map α β) : Map α β :=
  match m.lookup k with
  | some v => m.insert k (f v)
  | none => m

theorem lookup_and_modify_ne {j k : α} (hjk : j ≠ k) (f : β → β) (m : Map α β) :
    (and_modify k f m).lookup j = m.lookup j := by
  unfold and_modify
  split
  · exact AList.lookup_insert_ne hjk
  · rfl

/-! ## Inserting in a loop -/

section Loop

variable {γ : Type*} {f : γ → α} {g : γ → β}

theorem lookup_insert_all_ne {l : List γ} {k : α} (h : ∀ e ∈ l, f e ≠ k) (m : Map α β) :
    (l.foldl (fun m e => m.insert (f e) (g e)) m).lookup k = m.lookup k := by
  induction l generalizing m with
  | nil => rfl
  | cons e l ih =>
    rw [List.forall_mem_cons] at h
    rw [List.foldl_cons, ih h.2, AList.lookup_insert_ne h.1.symm]

/-- Each of different keys keeps its value. -/
theorem lookup_insert_all {l : List γ} (hnodup : (l.map f).Nodup) {e : γ} (he : e ∈ l)
    (m : Map α β) :
    (l.foldl (fun m e => m.insert (f e) (g e)) m).lookup (f e) = some (g e) := by
  induction l generalizing m with
  | nil => cases he
  | cons d l ih =>
    rw [List.map_cons, List.nodup_cons] at hnodup
    rw [List.foldl_cons]
    rcases List.mem_cons.mp he with heq | hmem
    · have hrest : ∀ e' ∈ l, f e' ≠ f e := by
        intro e' he' hkey
        apply hnodup.1
        rw [← heq, ← hkey]
        exact List.mem_map_of_mem he'
      rw [lookup_insert_all_ne hrest, heq, AList.lookup_insert]
    · exact ih hnodup.2 hmem _

end Loop

end FinMap
