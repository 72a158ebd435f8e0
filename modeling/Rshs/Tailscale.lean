/-
`middleware/tailscale.rs`: the identity gate in front of the handlers.

The state of the gate is built from an argument (`from_arg`) and from a users file
(`from_file`), and the two are merged. A gate that is `Disabled` lets every request
through, so what matters of each source is when it is; there is one lemma for each.
-/
import Rshs.Str
import Rshs.Webdav

set_option autoImplicit false

namespace Rshs.Tailscale

open FinMap Rshs.Webdav

/-- Logins, each with the local name it is mapped to, if any. -/
abbrev Logins := Map (List Char) (Option (List Char))

inductive TailscaleAuthState
  | Disabled
  | AllowAll
  | AllowList (logins : Logins)

/-- `HashMap::extend`, entry by entry. -/
def extend (entries : List (Entry (List Char) (Option (List Char)))) (logins : Logins) : Logins :=
  entries.foldl (fun m e => m.insert e.1 e.2) logins

/-! ## Building the state -/

def all_word : List Char := "all".toList

/-- `--accept-tailscale-serve-auth`. -/
def from_arg (raw : List Char) : TailscaleAuthState :=
  let raw := Str.trim raw
  if raw = [] then .Disabled
  else if Str.eq_ignore_ascii_case raw all_word then .AllowAll
  else
    let logins := ((raw.splitOnP (· == ',')).map Str.trim).filter (· ≠ [])
    if logins = [] then .Disabled
    else .AllowList (extend (logins.map fun login => ⟨login, none⟩) ∅)

/-- The loop over the lines of a users file. -/
def from_lines (logins : Logins) : List (List Char) → TailscaleAuthState
  | [] => if logins.entries = [] then .Disabled else .AllowList logins
  | line :: rest =>
    let line := Str.trim line
    if line = [] ∨ line.head? = some '#' then from_lines logins rest
    else if Str.eq_ignore_ascii_case line all_word then .AllowAll
    else
      match Str.split_whitespace line with
      | [] => from_lines logins rest
      | login :: parts => from_lines (logins.insert login parts.head?) rest

/-- `--tailscale-users-file`, from the bytes that reading the file yields, if it can
be read. -/
def from_file (file : Option (List UInt8)) : Option TailscaleAuthState :=
  (file.bind Str.from_utf8).map fun content => from_lines ∅ (Str.lines content)

def TailscaleAuthState.merge : TailscaleAuthState → TailscaleAuthState → TailscaleAuthState
  | .AllowAll, _ => .AllowAll
  | _, .AllowAll => .AllowAll
  | .Disabled, x => x
  | x, .Disabled => x
  | .AllowList a, .AllowList b => .AllowList (extend b.entries a)

def TailscaleAuthState.is_empty : TailscaleAuthState → Bool
  | .Disabled => true
  | _ => false

def TailscaleAuthState.validate (s : TailscaleAuthState) (login : List Char) : Bool :=
  match s with
  | .Disabled => false
  | .AllowAll => true
  | .AllowList logins => (logins.lookup login).isSome

/-! ## The middleware -/

/-- A 403 with its text. -/
def forbidden (msg : String) : StatusCode × String :=
  (.FORBIDDEN, "403 Forbidden: " ++ msg ++ "\n")

/-- Whether a request with this identity header goes on to its handler. -/
def tailscale_auth_middleware (state : TailscaleAuthState)
    (tailscale_user_login : Option HeaderValue) : Except (StatusCode × String) Unit :=
  if state.is_empty then .ok ()
  else
    match tailscale_user_login.bind HeaderValue.to_str with
    | none => .error (forbidden "no Tailscale identity header on this request")
    | some login =>
      if state.validate login then .ok ()
      else .error (forbidden (String.ofList login ++ " is not authorized for this server"))

/-! ## When a source leaves the gate open -/

theorem merge_is_empty (a b : TailscaleAuthState) :
    (a.merge b).is_empty = true ↔ a.is_empty = true ∧ b.is_empty = true := by
  cases a with
  | Disabled => cases b <;> simp [TailscaleAuthState.merge, TailscaleAuthState.is_empty]
  | AllowAll => cases b <;> simp [TailscaleAuthState.merge, TailscaleAuthState.is_empty]
  | AllowList l => cases b <;> simp [TailscaleAuthState.merge, TailscaleAuthState.is_empty]

/-- The argument names somebody: it has a character that is neither a comma nor
whitespace. -/
def ArgNames (raw : List Char) : Prop :=
  ∃ c ∈ raw, (c == ',') = false ∧ Str.is_whitespace c = false

theorem from_arg_is_empty (raw : List Char) :
    (from_arg raw).is_empty = true ↔ ¬ ArgNames raw := by
  -- trimming takes nothing away that names somebody
  have htrim : ArgNames (Str.trim raw) ↔ ArgNames raw := by
    constructor
    · intro h
      obtain ⟨c, hc, hrest⟩ := h
      exact ⟨c, Str.mem_of_mem_trim hc, hrest⟩
    · intro h
      obtain ⟨c, hc, hcomma, hw⟩ := h
      exact ⟨c, Str.mem_trim hc hw, hcomma, hw⟩
  rw [← htrim]
  unfold from_arg
  dsimp only
  by_cases hnil : Str.trim raw = []
  · rw [if_pos hnil, hnil]
    simp [ArgNames, TailscaleAuthState.is_empty]
  rw [if_neg hnil]
  by_cases hall : Str.eq_ignore_ascii_case (Str.trim raw) all_word = true
  · -- the first letter of `all`
    rw [if_pos hall]
    obtain ⟨c, cs, hcons⟩ := List.exists_cons_of_ne_nil hnil
    have hnames : ArgNames (Str.trim raw) := by
      refine ⟨c, by rw [hcons]; exact List.mem_cons_self, ?_, Str.head_trim hcons⟩
      rw [beq_eq_false_iff_ne]
      intro hcomma
      rw [hcons, hcomma] at hall
      unfold Str.eq_ignore_ascii_case at hall
      rw [decide_eq_true_eq, List.map_cons] at hall
      have hhead := congrArg List.head? hall
      revert hhead
      simp only [List.head?_cons]
      decide
    simp [hnames, TailscaleAuthState.is_empty]
  · rw [if_neg hall]
    -- the logins are the pieces that are not blank
    have hlogins : (((Str.trim raw).splitOnP (· == ',')).map Str.trim).filter (· ≠ []) = [] ↔
        ¬ ArgNames (Str.trim raw) := by
      constructor
      · intro hnone hnames
        obtain ⟨c, hc, hcomma, hw⟩ := hnames
        obtain ⟨t, ht, hct⟩ : ∃ t ∈ (Str.trim raw).splitOnP (· == ','), c ∈ t :=
          Str.mem_splitOnP_iff.mpr ⟨hc, hcomma⟩
        have hblank : ¬ Str.trim t ≠ [] := by
          intro hne
          have hmem : Str.trim t ∈
              (((Str.trim raw).splitOnP (· == ',')).map Str.trim).filter (· ≠ []) :=
            List.mem_filter.mpr ⟨List.mem_map_of_mem ht, by simpa using hne⟩
          rw [hnone] at hmem
          cases hmem
        have hall := Str.trim_eq_nil.mp (not_not.mp hblank) c hct
        rw [hw] at hall
        cases hall
      · intro hno
        rw [List.filter_eq_nil_iff]
        intro login hlogin
        obtain ⟨t, ht, rfl⟩ := List.mem_map.mp hlogin
        have hblank : Str.trim t = [] := by
          rw [Str.trim_eq_nil]
          intro c hct
          by_contra hw
          have hmem := Str.mem_splitOnP_iff.mp ⟨t, ht, hct⟩
          exact hno ⟨c, hmem.1, hmem.2, by simpa using hw⟩
        simp [hblank]
    by_cases hnone : (((Str.trim raw).splitOnP (· == ',')).map Str.trim).filter (· ≠ []) = []
    · rw [if_pos hnone]
      simp [hlogins.mp hnone, TailscaleAuthState.is_empty]
    · rw [if_neg hnone]
      have hnames := not_not.mp (fun h => hnone (hlogins.mpr h))
      simp [hnames, TailscaleAuthState.is_empty]

/-- A line of a users file names somebody: it is neither blank nor a comment. -/
def LineNames (line : List Char) : Prop :=
  Str.trim line ≠ [] ∧ (Str.trim line).head? ≠ some '#'

/-- The loop leaves the gate open when it began with no login and no line names
somebody. -/
theorem from_lines_is_empty (logins : Logins) (ls : List (List Char)) :
    (from_lines logins ls).is_empty = true ↔
      logins.entries = [] ∧ ∀ line ∈ ls, ¬ LineNames line := by
  induction ls generalizing logins with
  | nil =>
    unfold from_lines
    by_cases h : logins.entries = []
    · rw [if_pos h]
      simp [h, TailscaleAuthState.is_empty]
    · rw [if_neg h]
      simp [h, TailscaleAuthState.is_empty]
  | cons line ls ih =>
    unfold from_lines
    dsimp only
    by_cases hskip : Str.trim line = [] ∨ (Str.trim line).head? = some '#'
    · -- a line that is skipped names nobody
      rw [if_pos hskip, ih]
      have hno : ¬ LineNames line := by
        intro h
        rcases hskip with hblank | hcomment
        · exact h.1 hblank
        · exact h.2 hcomment
      simp [hno]
    rw [if_neg hskip]
    have hnames : LineNames line := not_or.mp hskip
    have hnot : ¬ (logins.entries = [] ∧ ∀ l ∈ line :: ls, ¬ LineNames l) := by
      intro h
      exact h.2 line List.mem_cons_self hnames
    by_cases hall : Str.eq_ignore_ascii_case (Str.trim line) all_word = true
    · rw [if_pos hall]
      constructor
      · intro h
        cases h
      · intro h
        exact absurd h hnot
    · rw [if_neg hall]
      -- a line that is not blank has a first word
      obtain ⟨c, cs, hcons⟩ := List.exists_cons_of_ne_nil hnames.1
      have hmem : c ∈ Str.trim line := by
        rw [hcons]
        exact List.mem_cons_self
      have hword := Str.split_whitespace_ne_nil hmem (Str.head_trim hcons)
      obtain ⟨login, parts, hparts⟩ := List.exists_cons_of_ne_nil hword
      rw [hparts]
      dsimp only
      rw [ih]
      have hins : (logins.insert login parts.head?).entries ≠ [] := by
        rw [AList.entries_insert]
        simp
      constructor
      · intro h
        exact absurd h.1 hins
      · intro h
        exact absurd h hnot

/-- The file names somebody. -/
def FileNames (file : Option (List UInt8)) : Prop :=
  ∃ bytes content, file = some bytes ∧ Str.from_utf8 bytes = some content ∧
    ∃ line ∈ Str.lines content, LineNames line

/-- A file that cannot be read, or whose bytes are no text, is an error; otherwise
it leaves the gate open when it names nobody. -/
theorem from_file_is_empty (file : Option (List UInt8)) :
    ((from_file file).getD .Disabled).is_empty = true ↔ ¬ FileNames file := by
  unfold from_file FileNames
  cases file with
  | none => simp [TailscaleAuthState.is_empty]
  | some bytes =>
    cases hcontent : Str.from_utf8 bytes with
    | none => simp [hcontent, TailscaleAuthState.is_empty]
    | some content =>
      rw [Option.bind_some, hcontent, Option.map_some, Option.getD_some, from_lines_is_empty]
      constructor
      · rintro ⟨-, hno⟩ ⟨bytes', content', hbytes, hcontent', line, hline, hnames⟩
        cases hbytes
        rw [hcontent] at hcontent'
        cases hcontent'
        exact hno line hline hnames
      · intro hno
        refine ⟨rfl, fun line hline hnames => ?_⟩
        exact hno ⟨bytes, content, rfl, hcontent, line, hline, hnames⟩

/-- A gate that is not open refuses a request without the header. -/
theorem middleware_without_header (state : TailscaleAuthState) :
    tailscale_auth_middleware state none
        = .error (forbidden "no Tailscale identity header on this request") ↔
      state.is_empty = false := by
  unfold tailscale_auth_middleware
  cases h : state.is_empty with
  | true => simp
  | false => simp

end Rshs.Tailscale
