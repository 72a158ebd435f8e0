/-
`scandir.rs` on Linux: a directory scan with batched `statx`.

The names go to the kernel in batches, a ring for each. The completions of a batch come
back in an order of the kernel's own. Each carries the number its request was submitted
with, and what the request left in its buffer is written at that number, counted from the
start of the batch. The results are then put together with two vectors that were filled
while the directory was read.

`Filled` is the invariant: the slots before the next batch hold what `statx` gave for their
names, and the others hold nothing yet (`filled_run`). A kernel that looks the names up in the
directory gives the entries a PROPFIND is answered from (`batch_read_dir_entries_eq`).
-/
import Rshs.Slots
import Rshs.Propfind

set_option autoImplicit false

namespace Rshs.Batch

open StdPath Posix Slots Rshs.Time Rshs.Propfind

/-! ## The kernel -/

/-- A name without a NUL byte. -/
structure CString where
  bytes : List UInt8
  no_nul : 0 ∉ bytes

/-- `CString::new`. -/
def CString.new (bytes : List UInt8) : Option CString :=
  if h : 0 ∉ bytes then some { bytes := bytes, no_nul := h } else none

structure Cqe where
  user_data : ℕ
  result : ℤ

/-- What the program cannot foresee of the rings: which of them cannot be set up or
submitted, by the number of their first name; what comes of the `statx` of a name, as the
result and what is in the buffer then, by the number of the name; and in which order the
completions of a batch are delivered. -/
structure Kernel where
  refused : ℕ → Option ErrorKind
  statx : ℕ → CString → ℤ × Metadata
  order : ℕ → List Cqe → List Cqe
  order_perm : ∀ batch cqes, (order batch cqes).Perm cqes

section Scan

variable (k : Kernel)

/-! ## `batch_statx` -/

/-- Maximum statx calls per io_uring submission. -/
def BATCH_SIZE : ℕ := 256

/-- The completions of a batch, one for each request that was submitted. -/
def completions (chunk_start : ℕ) (chunk : List CString) : List Cqe :=
  k.order chunk_start (chunk.mapIdx fun i name =>
    { user_data := i, result := (k.statx (chunk_start + i) name).1 })

/-- The buffers of a batch, when all its requests are completed. -/
def buffers (chunk_start : ℕ) (chunk : List CString) : List Metadata :=
  chunk.mapIdx fun i name => (k.statx (chunk_start + i) name).2

/-- What is done with one completion. -/
def record (chunk_start n : ℕ) (bufs : List Metadata) (results : List (Option Metadata))
    (cqe : Cqe) : List (Option Metadata) :=
  let idx := cqe.user_data
  if 0 ≤ cqe.result ∧ idx < n then results.set (chunk_start + idx) bufs[idx]? else results

/-- One batch. -/
def statx_chunk (names : List CString) (results : List (Option Metadata)) (chunk_start : ℕ) :
    Except ErrorKind (List (Option Metadata)) :=
  let chunk_end := min (chunk_start + BATCH_SIZE) names.length
  let chunk := (names.take chunk_end).drop chunk_start
  match k.refused chunk_start with
  | some e => .error e
  | none =>
    .ok ((completions k chunk_start chunk).foldl
      (record chunk_start chunk.length (buffers k chunk_start chunk)) results)

/-- `(0..len).step_by(BATCH_SIZE)`. -/
def chunk_starts (len : ℕ) : List ℕ :=
  List.range' 0 ((len + BATCH_SIZE - 1) / BATCH_SIZE) BATCH_SIZE

def batch_statx (names : List CString) : Except ErrorKind (List (Option Metadata)) :=
  if names = [] then .ok []
  else (chunk_starts names.length).foldlM (statx_chunk k names) (List.replicate names.length none)

/-! ## `batch_linux` -/

/-- An entry as it is read: its name, and whether it is a directory, where the type is
known. -/
structure DirEntry where
  name : Name
  is_dir : Option Bool

/-- The vectors that are filled while the directory is read. -/
structure Columns where
  names_c : List CString
  names_os : List Name
  dtype_is_dir : List (Option Bool)

/-- An entry that cannot be read is skipped, and so is a name with a NUL byte. -/
def Columns.push (v : Columns) (entry : Except ErrorKind DirEntry) : Columns :=
  match entry with
  | .error _ => v
  | .ok e =>
    match CString.new e.name.bytes with
    | none => v
    | some c_name =>
      { names_c := v.names_c ++ [c_name]
        names_os := v.names_os ++ [e.name]
        dtype_is_dir := v.dtype_is_dir ++ [e.is_dir] }

/-- `DirEntryMeta`, from the parts of one index. -/
def entry_of (name : Name) (is_dir : Option Bool) (stx : Metadata) : DirEntryMeta where
  name := name
  is_dir := is_dir.getD stx.is_dir
  size := stx.len
  modified := timestamp_to_systemtime stx.mtime
  created := stx_created stx

/-- The entry of one index, unless its `statx` failed. -/
def merge (v : Columns) (stat_results : List (Option Metadata)) (i : ℕ) : Option DirEntryMeta := do
  let stx ← (← stat_results[i]?)
  let name ← v.names_os[i]?
  let is_dir ← v.dtype_is_dir[i]?
  return entry_of name is_dir stx

/-- The scan of a directory, from what opening it and reading it gave. -/
def batch_linux (dir : Except ErrorKind Unit)
    (read_dir : Except ErrorKind (List (Except ErrorKind DirEntry))) :
    Except ErrorKind (List DirEntryMeta) := do
  dir
  let entries ← read_dir
  let v := entries.foldl Columns.push { names_c := [], names_os := [], dtype_is_dir := [] }
  if v.names_c = [] then return []
  let stat_results ← batch_statx k v.names_c
  return (List.range v.names_c.length).filterMap (merge v stat_results)

/-! ## One batch -/

/-- What `statx` gave for a name: nothing when it failed. -/
def outcome (i : ℕ) (name : CString) : Option Metadata :=
  if 0 ≤ (k.statx i name).1 then some (k.statx i name).2 else none

variable {k} {names chunk : List CString} {results : List (Option Metadata)} {chunk_start : ℕ}

/-- The completions write to the slots of the requests that succeeded. -/
theorem record_fill (cqes : List Cqe) (n : ℕ) (bufs : List Metadata) :
    cqes.foldl (record chunk_start n bufs) results
      = fill results ((cqes.filter fun cqe => 0 ≤ cqe.result ∧ cqe.user_data < n).map
          fun cqe => (chunk_start + cqe.user_data, bufs[cqe.user_data]?)) := by
  induction cqes generalizing results with
  | nil => rfl
  | cons cqe cqes ih =>
    rw [List.foldl_cons, ih]
    unfold record
    by_cases hcqe : 0 ≤ cqe.result ∧ cqe.user_data < n
    · rw [if_pos hcqe, List.filter_cons_of_pos (by simpa using hcqe), List.map_cons, fill_cons]
    · rw [if_neg hcqe, List.filter_cons_of_neg (by simpa using hcqe)]

/-- There is one completion for each request, with its number. -/
theorem mem_completions {cqe : Cqe} : cqe ∈ completions k chunk_start chunk ↔
    ∃ i name, chunk[i]? = some name ∧
      cqe = { user_data := i, result := (k.statx (chunk_start + i) name).1 } := by
  unfold completions
  rw [(k.order_perm _ _).mem_iff, List.mem_mapIdx]
  constructor
  · rintro ⟨i, hi, rfl⟩
    exact ⟨i, chunk[i], List.getElem?_eq_getElem hi, rfl⟩
  · rintro ⟨i, name, hname, rfl⟩
    obtain ⟨hi, rfl⟩ := List.getElem?_eq_some_iff.mp hname
    exact ⟨i, hi, rfl⟩

theorem completions_nodup :
    ((completions k chunk_start chunk).map Cqe.user_data).Nodup := by
  have hperm := (k.order_perm chunk_start (chunk.mapIdx fun i name =>
    { user_data := i, result := (k.statx (chunk_start + i) name).1 })).map Cqe.user_data
  have hrange : (chunk.mapIdx fun i name => (⟨i, (k.statx (chunk_start + i) name).1⟩ : Cqe)).map
      Cqe.user_data = List.range chunk.length := by
    apply List.ext_getElem
    · simp
    · intro i hi hi'
      simp
  unfold completions
  rw [hperm.nodup_iff, hrange]
  exact List.nodup_range

/-- What the completions of a batch leave in the slots. -/
theorem recorded {i : ℕ} {name : CString} (hname : chunk[i]? = some name)
    (hi : chunk_start + i < results.length) :
    ((completions k chunk_start chunk).foldl
      (record chunk_start chunk.length (buffers k chunk_start chunk)) results)[chunk_start + i]?
        = match outcome k (chunk_start + i) name with
          | some stx => some (some stx)
          | none => results[chunk_start + i]? := by
  rw [record_fill]
  have hbuf : (buffers k chunk_start chunk)[i]? = some (k.statx (chunk_start + i) name).2 := by
    unfold buffers
    rw [List.getElem?_mapIdx, hname, Option.map_some]
  unfold outcome
  by_cases hok : 0 ≤ (k.statx (chunk_start + i) name).1
  · rw [if_pos hok]
    apply fill_own _ _ hi
    · -- the numbers of the completions are distinct
      rw [List.map_map]
      have hsub := (List.filter_sublist (l := completions k chunk_start chunk)
        (p := fun cqe => 0 ≤ cqe.result ∧ cqe.user_data < chunk.length)).map Cqe.user_data
      have hnodup := completions_nodup.sublist hsub
      have hcomp : (Prod.fst ∘ fun cqe : Cqe =>
          (chunk_start + cqe.user_data, (buffers k chunk_start chunk)[cqe.user_data]?))
            = (fun n => chunk_start + n) ∘ Cqe.user_data := rfl
      rw [hcomp, ← List.map_map]
      exact hnodup.map (fun a b h => Nat.add_left_cancel h)
    · have hlt : i < chunk.length := (List.getElem?_eq_some_iff.mp hname).1
      rw [List.mem_map]
      refine ⟨{ user_data := i, result := (k.statx (chunk_start + i) name).1 }, ?_, ?_⟩
      · rw [List.mem_filter]
        exact ⟨mem_completions.mpr ⟨i, name, hname, rfl⟩, by simpa using ⟨hok, hlt⟩⟩
      · dsimp only
        rw [hbuf]
  · rw [if_neg hok]
    apply fill_other
    intro w hw heq
    obtain ⟨cqe, hcqe, rfl⟩ := List.mem_map.mp hw
    obtain ⟨hmem, htest⟩ := List.mem_filter.mp hcqe
    obtain ⟨j, name', hname', rfl⟩ := mem_completions.mp hmem
    have hij : j = i := Nat.add_left_cancel heq
    subst hij
    rw [hname] at hname'
    cases hname'
    rw [decide_eq_true_iff] at htest
    exact hok htest.1

/-- The slots of the other batches are not touched. -/
theorem recorded_other {i : ℕ} (hi : i < chunk_start ∨ chunk_start + chunk.length ≤ i)
    (bufs : List Metadata) :
    ((completions k chunk_start chunk).foldl (record chunk_start chunk.length bufs) results)[i]?
      = results[i]? := by
  rw [record_fill]
  apply fill_other
  intro w hw heq
  obtain ⟨cqe, hcqe, rfl⟩ := List.mem_map.mp hw
  have htest := (List.mem_filter.mp hcqe).2
  rw [decide_eq_true_iff] at htest
  dsimp only at heq
  omega

/-! ## All batches -/

/-- The slots after the batches up to some number: what `statx` gave for the names before
it, and nothing yet for the others. -/
structure Filled (k : Kernel) (names : List CString) (results : List (Option Metadata))
    (upto : ℕ) : Prop where
  length : results.length = names.length
  each : ∀ i name, names[i]? = some name →
    results[i]? = some (if i < upto then outcome k i name else none)

/-- **One batch.** -/
theorem filled_step (h : Filled k names results chunk_start) :
    (∃ e, k.refused chunk_start = some e ∧ statx_chunk k names results chunk_start = .error e) ∨
      ∃ results', statx_chunk k names results chunk_start = .ok results' ∧
        Filled k names results' (chunk_start + BATCH_SIZE) := by
  unfold statx_chunk
  dsimp only
  cases hrefused : k.refused chunk_start with
  | some e => exact Or.inl ⟨e, rfl, rfl⟩
  | none =>
    refine Or.inr ⟨_, rfl, ?_, ?_⟩
    · rw [record_fill, fill_length]
      exact h.length
    intro i name hname
    have hlen := h.length
    have hi : i < names.length := (List.getElem?_eq_some_iff.mp hname).1
    by_cases hin : chunk_start ≤ i ∧ i < chunk_start + BATCH_SIZE
    · -- a name of this batch
      obtain ⟨j, rfl⟩ := Nat.exists_eq_add_of_le hin.1
      have hj : ((names.take (min (chunk_start + BATCH_SIZE) names.length)).drop chunk_start)[j]?
          = some name := by
        rw [List.getElem?_drop, List.getElem?_take_of_lt (by omega)]
        exact hname
      rw [recorded hj (by omega), if_pos hin.2]
      cases hout : outcome k (chunk_start + j) name with
      | some stx => rfl
      | none =>
        dsimp only
        rw [h.each _ _ hname, if_neg (by omega)]
    · rw [recorded_other, h.each i name hname]
      · congr 1
        by_cases hlt : i < chunk_start
        · rw [if_pos hlt, if_pos (by omega)]
        · rw [if_neg hlt, if_neg (by omega)]
      · rw [List.length_drop, List.length_take]
        omega

/-- **So many batches.** -/
theorem filled_run (count : ℕ) (h : Filled k names results chunk_start) :
    (∃ start e, k.refused start = some e ∧
      (List.range' chunk_start count BATCH_SIZE).foldlM (statx_chunk k names) results = .error e) ∨
      ∃ results', (List.range' chunk_start count BATCH_SIZE).foldlM (statx_chunk k names) results
          = .ok results' ∧ Filled k names results' (chunk_start + BATCH_SIZE * count) := by
  induction count generalizing chunk_start results with
  | zero => exact Or.inr ⟨results, rfl, h⟩
  | succ count ih =>
    rw [List.range'_succ, List.foldlM_cons]
    rcases filled_step h with ⟨e, hrefused, hchunk⟩ | ⟨results₁, hchunk, hfilled⟩
    · rw [hchunk]
      exact Or.inl ⟨chunk_start, e, hrefused, rfl⟩
    · rw [hchunk]
      rcases ih hfilled with ⟨start, e, hrefused, hrest⟩ | ⟨results', hrest, hfilled'⟩
      · exact Or.inl ⟨start, e, hrefused, hrest⟩
      · refine Or.inr ⟨results', hrest, ?_⟩
        have hcount : chunk_start + BATCH_SIZE + BATCH_SIZE * count
            = chunk_start + BATCH_SIZE * (count + 1) := by
          rw [Nat.mul_succ]
          omega
        rw [← hcount]
        exact hfilled'

/-- What `batch_statx` returns: a slot for each name, with what `statx` gave for it. -/
theorem batch_statx_cases (k : Kernel) (names : List CString) :
    (∃ start e, k.refused start = some e ∧ batch_statx k names = .error e) ∨
      ∃ results, batch_statx k names = .ok results ∧ results.length = names.length ∧
        ∀ i name, names[i]? = some name → results[i]? = some (outcome k i name) := by
  unfold batch_statx
  by_cases hnil : names = []
  · rw [if_pos hnil]
    subst hnil
    refine Or.inr ⟨[], rfl, rfl, fun i name hname => ?_⟩
    cases hname
  · rw [if_neg hnil]
    have hstart : Filled k names (List.replicate names.length none) 0 := by
      refine ⟨List.length_replicate, fun i name hname => ?_⟩
      have hi := (List.getElem?_eq_some_iff.mp hname).1
      rw [List.getElem?_replicate_of_lt hi, if_neg (Nat.not_lt_zero i)]
    rcases filled_run ((names.length + BATCH_SIZE - 1) / BATCH_SIZE) hstart with
      hrefused | ⟨results, hok, hfilled⟩
    · exact Or.inl hrefused
    · refine Or.inr ⟨results, hok, hfilled.length, fun i name hname => ?_⟩
      -- the last batch goes as far as the names do
      have hi := (List.getElem?_eq_some_iff.mp hname).1
      have hall : i < 0 + BATCH_SIZE * ((names.length + BATCH_SIZE - 1) / BATCH_SIZE) := by
        unfold BATCH_SIZE
        omega
      rw [hfilled.each i name hname, if_pos hall]

/-! ## The scan of a directory -/

/-- The entries that are asked for: those that could be read, whose names hold no NUL. -/
def asked (entries : List (Except ErrorKind DirEntry)) : List (DirEntry × CString) :=
  entries.filterMap fun entry =>
    match entry with
    | .error _ => none
    | .ok e => (CString.new e.name.bytes).map fun c_name => (e, c_name)

/-- The vectors that are filled are those of the entries asked for. -/
theorem columns_asked (entries : List (Except ErrorKind DirEntry)) (v : Columns) :
    entries.foldl Columns.push v =
      { names_c := v.names_c ++ (asked entries).map Prod.snd
        names_os := v.names_os ++ (asked entries).map fun a => a.1.name
        dtype_is_dir := v.dtype_is_dir ++ (asked entries).map fun a => a.1.is_dir } := by
  induction entries generalizing v with
  | nil => simp [asked]
  | cons entry entries ih =>
    rw [List.foldl_cons, ih]
    unfold Columns.push asked
    cases entry with
    | error e => rfl
    | ok e =>
      dsimp only
      cases hname : CString.new e.name.bytes with
      | none => simp [hname]
      | some c_name => simp [hname]

/-- The entry of one that was asked for, unless its `statx` failed. -/
def scanned_entry (k : Kernel) (i : ℕ) (a : DirEntry × CString) : Option DirEntryMeta :=
  (outcome k i a.2).map (entry_of a.1.name a.1.is_dir)

/-- What the results are put together to. -/
theorem merged {as : List (DirEntry × CString)}
    (hresults : ∀ i name, (as.map Prod.snd)[i]? = some name →
      results[i]? = some (outcome k i name)) :
    (List.range as.length).filterMap (merge
        { names_c := as.map Prod.snd
          names_os := as.map fun a => a.1.name
          dtype_is_dir := as.map fun a => a.1.is_dir } results)
      = (as.mapIdx (scanned_entry k)).filterMap id := by
  have hrange : as.mapIdx (scanned_entry k) = (List.range as.length).map (merge
        { names_c := as.map Prod.snd
          names_os := as.map fun a => a.1.name
          dtype_is_dir := as.map fun a => a.1.is_dir } results) := by
    apply List.ext_getElem
    · simp
    · intro i hi hi'
      rw [List.length_mapIdx] at hi
      have hi₀ : as[i]? = some as[i] := List.getElem?_eq_getElem hi
      have hstat := hresults i as[i].2 (by rw [List.getElem?_map, hi₀]; rfl)
      rw [List.getElem_mapIdx, List.getElem_map, List.getElem_range]
      unfold merge scanned_entry
      simp only [hstat, List.getElem?_map, hi₀, Option.map_some]
      cases outcome k i as[i].2 <;> rfl
  rw [hrange, List.filterMap_map]
  rfl

/-- What `batch_linux` returns. -/
theorem batch_linux_cases (k : Kernel) (entries : List (Except ErrorKind DirEntry)) :
    (∃ start e, k.refused start = some e ∧
      batch_linux k (.ok ()) (.ok entries) = .error e) ∨
      batch_linux k (.ok ()) (.ok entries)
        = .ok (((asked entries).mapIdx (scanned_entry k)).filterMap id) := by
  have hcolumns := columns_asked entries { names_c := [], names_os := [], dtype_is_dir := [] }
  simp only [List.nil_append] at hcolumns
  have hrun : batch_linux k (.ok ()) (.ok entries) =
      if (asked entries).map Prod.snd = [] then .ok []
      else match batch_statx k ((asked entries).map Prod.snd) with
        | .error e => .error e
        | .ok stat_results => .ok ((List.range ((asked entries).map Prod.snd).length).filterMap
            (merge { names_c := (asked entries).map Prod.snd
                     names_os := (asked entries).map fun a => a.1.name
                     dtype_is_dir := (asked entries).map fun a => a.1.is_dir } stat_results)) := by
    unfold batch_linux
    simp only [bind, Except.bind, pure, Except.pure, hcolumns]
    split
    · rfl
    · cases batch_statx k ((asked entries).map Prod.snd) <;> rfl
  rw [hrun]
  by_cases hnil : (asked entries).map Prod.snd = []
  · rw [if_pos hnil, List.map_eq_nil_iff.mp hnil]
    exact Or.inr rfl
  · rw [if_neg hnil]
    rcases batch_statx_cases k ((asked entries).map Prod.snd) with
      ⟨start, e, hrefused, he⟩ | ⟨results, hok, -, hresults⟩
    · rw [he]
      exact Or.inl ⟨start, e, hrefused, rfl⟩
    · rw [hok]
      dsimp only
      rw [List.length_map, merged hresults]
      exact Or.inr rfl

end Scan

/-- **Nothing is lost and nothing misplaced.** Whatever the number of names and the order
of the completions, unless a ring cannot be set up: `batch_statx` gives for each name its
own result, and `batch_linux`, in the order of the directory, the entries whose `statx`
succeeded, each with its own metadata. -/
theorem batched_exact (k : Kernel) :
    (∀ names, (∃ start e, k.refused start = some e ∧ batch_statx k names = .error e) ∨
      ∃ results, batch_statx k names = .ok results ∧ results.length = names.length ∧
        ∀ i name, names[i]? = some name → results[i]? = some (outcome k i name)) ∧
    ∀ entries, (∃ start e, k.refused start = some e ∧
        batch_linux k (.ok ()) (.ok entries) = .error e) ∨
      batch_linux k (.ok ()) (.ok entries)
        = .ok (((asked entries).mapIdx (scanned_entry k)).filterMap id) :=
  ⟨batch_statx_cases k, batch_linux_cases k⟩

/-! ## The scan as PROPFIND sees it -/

section Refinement

variable {k : Kernel} {disk : Disk} {scan : Scan} {dir : Path}

/-- What reading a directory gives, when the scan is as it is. -/
def read_entry (disk : Disk) (scan : Scan) (dir : Path) (n : Name) : Except ErrorKind DirEntry :=
  if scan.unread (dir ++ [n]) then .error .Other
  else .ok
    { name := n
      is_dir := if scan.type_error (dir ++ [n]) then none
        else some (disk.fs.node (dir ++ [n]) = some .dir) }

/-- A kernel that looks the names up in a directory of the disk. -/
def LooksUp (k : Kernel) (disk : Disk) (dir : Path) : Prop :=
  ∀ i n c_name, CString.new n.bytes = some c_name →
    outcome k i c_name = disk.metadata (dir ++ [n])

theorem new_eq_none_iff {n : Name} : CString.new n.bytes = none ↔ n.has_nul = true := by
  unfold CString.new Name.has_nul
  by_cases hnul : (0 : UInt8) ∉ n.bytes
  · rw [dif_pos hnul]
    simpa using hnul
  · rw [dif_neg hnul]
    simpa using hnul

/-- An entry that was asked for is one that is scanned. -/
theorem asked_entry (h : LooksUp k disk dir) (names : List Name) :
    ((asked (names.map (read_entry disk scan dir))).mapIdx (scanned_entry k)).filterMap id
      = names.filterMap (dir_entry disk scan dir) := by
  have hasked : ∀ a ∈ asked (names.map (read_entry disk scan dir)),
      CString.new a.1.name.bytes = some a.2 := by
    intro a ha
    obtain ⟨entry, -, heq⟩ := List.mem_filterMap.mp ha
    cases entry with
    | error e => cases heq
    | ok e =>
      obtain ⟨c_name, hc, rfl⟩ := Option.map_eq_some_iff.mp heq
      exact hc
  -- what comes of an entry does not depend on its number
  have hmap : (asked (names.map (read_entry disk scan dir))).mapIdx (scanned_entry k)
      = (asked (names.map (read_entry disk scan dir))).map fun a =>
        (disk.metadata (dir ++ [a.1.name])).map (entry_of a.1.name a.1.is_dir) := by
    apply List.ext_getElem
    · rw [List.length_mapIdx, List.length_map]
    · intro i hi hi'
      rw [List.length_mapIdx] at hi
      rw [List.getElem_mapIdx, List.getElem_map]
      unfold scanned_entry
      rw [h i _ _ (hasked _ (List.getElem_mem hi))]
  rw [hmap, List.filterMap_map]
  unfold asked
  rw [List.filterMap_map, List.filterMap_filterMap]
  apply List.filterMap_congr
  intro n _
  unfold read_entry dir_entry
  dsimp only [Function.comp_apply]
  by_cases hunread : scan.unread (dir ++ [n]) = true
  · rw [if_pos hunread, hunread, Bool.or_true, if_pos rfl]
    rfl
  · rw [if_neg hunread, Bool.eq_false_of_not_eq_true hunread, Bool.or_false]
    cases hnew : CString.new n.bytes with
    | none =>
      rw [if_pos (new_eq_none_iff.mp hnew)]
      dsimp only
      rw [hnew]
      rfl
    | some c_name =>
      have hnul : ¬ n.has_nul = true := by
        rw [← new_eq_none_iff, hnew]
        exact Option.some_ne_none c_name
      dsimp only
      rw [if_neg hnul, hnew, Option.map_some, Option.bind_some]
      dsimp only [Function.comp_apply, id]
      cases disk.metadata (dir ++ [n]) with
      | none => rfl
      | some stx => cases scan.type_error (dir ++ [n]) <;> rfl

/-- **The scan that PROPFIND is answered from is what the batches give.** -/
theorem batch_read_dir_entries_eq (h : LooksUp k disk dir)
    (hrings : ∀ start, k.refused start = none) (hdir : disk.fs.node dir = some .dir)
    (hrefused : scan.refused dir = false) :
    batch_linux k (.ok ())
        (.ok ((scan.order dir (disk.fs.children dir)).map (read_entry disk scan dir)))
      = .ok ((batch_read_dir_entries disk scan dir).getD []) := by
  rcases batch_linux_cases k ((scan.order dir (disk.fs.children dir)).map
    (read_entry disk scan dir)) with ⟨start, e, he, -⟩ | hok
  · rw [hrings] at he
    cases he
  · rw [hok, asked_entry h]
    unfold batch_read_dir_entries
    rw [follow_self ⟨.dir, hdir, by simp⟩]
    dsimp only
    rw [if_neg (by simp [hdir, hrefused]), Option.getD_some]

/-- A result of `statx`, and the buffer it leaves. -/
def statx_result : Option Metadata → ℤ × Metadata
  | some m => (0, m)
  | none => (-2, { is_dir := false, len := 0, mtime := noon, btime := none })

/-- The kernel of a disk, which completes the last request of a batch first. -/
def reversing (disk : Disk) (dir : Path) : Kernel where
  refused _ := none
  statx _ name := statx_result
    (if h : Name.Legal name.bytes then disk.metadata (dir ++ [⟨name.bytes, h⟩]) else none)
  order _ cqes := cqes.reverse
  order_perm _ cqes := cqes.reverse_perm

theorem reversing_looks_up (disk : Disk) (dir : Path) : LooksUp (reversing disk dir) disk dir := by
  intro i n c_name hname
  have hbytes : c_name.bytes = n.bytes := by
    unfold CString.new at hname
    split at hname
    · cases hname
      rfl
    · cases hname
  have hfound : (if h : Name.Legal c_name.bytes then disk.metadata (dir ++ [⟨c_name.bytes, h⟩])
      else none) = disk.metadata (dir ++ [n]) := by
    obtain ⟨bytes, no_nul⟩ := c_name
    dsimp only at hbytes
    subst hbytes
    exact dif_pos n.legal
  have hresult : (reversing disk dir).statx i c_name = statx_result (disk.metadata (dir ++ [n])) :=
    congrArg statx_result hfound
  unfold outcome
  rw [hresult]
  cases disk.metadata (dir ++ [n]) with
  | none => rfl
  | some m => rfl

end Refinement

/-- The directory `/d` of two entries, with the completions turned round: what the batches give
is what PROPFIND is answered from. -/
theorem batched_exact_reversing :
    let disk : Disk := ⟨disk_deep, server_d.disk.attr⟩
    let k := reversing disk [d_name]
    let names := disk.fs.children [d_name]
    names.length = 2 ∧
      batch_linux k (.ok ()) (.ok (names.map (read_entry disk server_d.scan [d_name])))
        = .ok ((batch_read_dir_entries disk server_d.scan [d_name]).getD []) ∧
      ∃ results, batch_statx k ((asked (names.map (read_entry disk server_d.scan [d_name]))).map
          Prod.snd) = .ok results ∧ results.length = 2 := by
  intro disk k names
  have hdir : disk.fs.node [d_name] = some .dir := by decide
  have hrefused : server_d.scan.refused [d_name] = false := rfl
  refine ⟨by decide, batch_read_dir_entries_eq (reversing_looks_up disk [d_name]) (fun _ => rfl)
    hdir hrefused, ?_⟩
  rcases (batched_exact k).1 ((asked (names.map (read_entry disk server_d.scan [d_name]))).map
    Prod.snd) with ⟨start, e, hrefused, -⟩ | ⟨results, hok, hlength, -⟩
  · cases hrefused
  · exact ⟨results, hok, by rw [hlength]; rfl⟩

end Rshs.Batch
