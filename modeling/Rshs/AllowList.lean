/-
Who the identity gate admits.

A source of the gate's state, the argument or the users file, says of a login whether it
is admitted; `FlagAdmits` and `FileAdmits` read that off the texts. Both parsers are
shown to build a state that validates exactly these logins, and a merge validates what
either side does, in either order.

A file is a list of lines, and a line grants something to everybody, to one login, or
nothing at all. Admission depends on the set of what is granted alone, so neither
comments, blank lines, lines written twice nor mapped names matter.
-/
import Rshs.Cli

set_option autoImplicit false

namespace Rshs.AllowList

open FinMap Rshs.Tailscale

/-! ## What the sources say -/

/-- The non-empty trimmed items between the commas. -/
def items (raw : List Char) : List (List Char) :=
  ((raw.splitOnP (· == ',')).map Str.trim).filter (· ≠ [])

def FlagAdmits (raw login : List Char) : Prop :=
  Str.eq_ignore_ascii_case (Str.trim raw) all_word = true ∨ login ∈ items raw

instance (line : List Char) : Decidable (LineNames line) := inferInstanceAs (Decidable (_ ∧ _))

/-- A line that is neither blank nor a comment is the word, or has the login first. -/
def LineAdmits (line login : List Char) : Prop :=
  LineNames line ∧ (Str.eq_ignore_ascii_case (Str.trim line) all_word = true ∨
    (Str.split_whitespace (Str.trim line)).head? = some login)

def FileAdmits (content login : List Char) : Prop :=
  ∃ line ∈ Str.lines content, LineAdmits line login

/-- What a line grants: a login, everything, or nothing. -/
def grant (line : List Char) : Option (Option (List Char)) :=
  if LineNames line then
    if Str.eq_ignore_ascii_case (Str.trim line) all_word then some none
    else (Str.split_whitespace (Str.trim line)).head?.map some
  else none

/-- What the lines of a file grant. -/
def grants (content : List Char) : List (Option (List Char)) := (Str.lines content).filterMap grant

/-! ## The states -/

@[simp] theorem validate_disabled (login : List Char) :
    TailscaleAuthState.Disabled.validate login = false := rfl

@[simp] theorem validate_all (login : List Char) :
    TailscaleAuthState.AllowAll.validate login = true := rfl

theorem validate_list (logins : Logins) (login : List Char) :
    (TailscaleAuthState.AllowList logins).validate login = true ↔ login ∈ logins := by
  unfold TailscaleAuthState.validate
  rw [AList.lookup_isSome]

theorem mem_extend (entries : List (Entry (List Char) (Option (List Char)))) (logins : Logins)
    (login : List Char) : login ∈ extend entries logins ↔ login ∈ logins ∨ login ∈ entries.keys := by
  induction entries generalizing logins with
  | nil => simp [extend]
  | cons e entries ih =>
    unfold extend at ih ⊢
    rw [List.foldl_cons, ih, AList.mem_insert, List.keys_cons, List.mem_cons]
    tauto

/-- A merge admits who either side admits. -/
theorem validate_merge (a b : TailscaleAuthState) (login : List Char) :
    (a.merge b).validate login = true ↔ a.validate login = true ∨ b.validate login = true := by
  cases a with
  | Disabled => cases b <;> simp [TailscaleAuthState.merge]
  | AllowAll => cases b <;> simp [TailscaleAuthState.merge]
  | AllowList l =>
    cases b with
    | Disabled => simp [TailscaleAuthState.merge]
    | AllowAll => simp [TailscaleAuthState.merge]
    | AllowList l' =>
      rw [TailscaleAuthState.merge, validate_list, validate_list, validate_list, mem_extend]
      exact Iff.rfl

/-! ## The parsers -/

theorem from_arg_admits (raw login : List Char) :
    (from_arg raw).validate login = true ↔ FlagAdmits raw login := by
  -- trimming the argument first leaves its items as they are
  have hitems : ((Str.trim raw).splitOnP (· == ',')).map Str.trim
      = (raw.splitOnP (· == ',')).map Str.trim := by
    symm
    apply Str.map_trim_pieces
    intro c hc
    rw [beq_eq_false_iff_ne]
    intro hcomma
    rw [hcomma] at hc
    revert hc
    decide
  unfold from_arg FlagAdmits items
  dsimp only
  rw [hitems]
  generalize hlogins : ((raw.splitOnP (· == ',')).map Str.trim).filter (· ≠ []) = logins
  by_cases hnil : Str.trim raw = []
  · -- nothing but whitespace: no item, and not the word
    have hnone : logins = [] := by
      rw [← hlogins, ← hitems, hnil]
      rfl
    rw [if_pos hnil, hnil, hnone]
    simp [Str.eq_ignore_ascii_case, all_word]
  rw [if_neg hnil]
  by_cases hall : Str.eq_ignore_ascii_case (Str.trim raw) all_word = true
  · rw [if_pos hall]
    simp [hall]
  rw [if_neg hall]
  have hkeys : (logins.map fun login => (⟨login, none⟩ : Entry _ (Option (List Char)))).keys
      = logins := by
    unfold List.keys
    rw [List.map_map]
    exact List.map_id _
  split
  · rename_i hnone
    rw [hnone]
    simp [hall]
  · rw [validate_list, mem_extend, hkeys]
    simp [hall]

/-- The loop over the lines admits who has been listed, and who a line admits. -/
theorem from_lines_admits (logins : Logins) (ls : List (List Char)) (login : List Char) :
    (from_lines logins ls).validate login = true ↔
      login ∈ logins ∨ ∃ line ∈ ls, LineAdmits line login := by
  induction ls generalizing logins with
  | nil =>
    unfold from_lines
    split
    · rename_i hnil
      have hno : login ∉ logins := by
        rw [AList.mem_keys, AList.keys, hnil]
        exact List.not_mem_nil
      simp [hno]
    · rw [validate_list]
      simp
  | cons line ls ih =>
    have hsplit : (∃ l ∈ line :: ls, LineAdmits l login) ↔
        LineAdmits line login ∨ ∃ l ∈ ls, LineAdmits l login := by
      simp only [List.mem_cons, exists_eq_or_imp]
    rw [hsplit]
    unfold from_lines
    dsimp only
    by_cases hskip : Str.trim line = [] ∨ (Str.trim line).head? = some '#'
    · -- a line that is skipped admits nobody
      have hno : ¬ LineAdmits line login := fun h => not_or.mpr h.1 hskip
      rw [if_pos hskip, ih]
      simp [hno]
    have hnames : LineNames line := not_or.mp hskip
    rw [if_neg hskip]
    by_cases hall : Str.eq_ignore_ascii_case (Str.trim line) all_word = true
    · rw [if_pos hall]
      have hline : LineAdmits line login := ⟨hnames, Or.inl hall⟩
      simp [hline]
    · rw [if_neg hall]
      have hline : LineAdmits line login ↔
          (Str.split_whitespace (Str.trim line)).head? = some login := by
        unfold LineAdmits
        simp [hnames, hall]
      rw [hline]
      cases hwords : Str.split_whitespace (Str.trim line) with
      | nil =>
        dsimp only
        rw [ih]
        simp
      | cons word parts =>
        dsimp only
        rw [ih, AList.mem_insert, List.head?_cons, Option.some_inj]
        tauto

theorem from_file_admits {bytes : List UInt8} {content : List Char}
    (h : Str.from_utf8 bytes = some content) (login : List Char) :
    ((from_file (some bytes)).getD .Disabled).validate login = true ↔ FileAdmits content login := by
  unfold from_file
  rw [Option.bind_some, h, Option.map_some, Option.getD_some, from_lines_admits]
  unfold FileAdmits
  simp

/-! ## What is granted -/

/-- A file admits a login when it grants everything or the login. -/
theorem file_admits_iff (content login : List Char) :
    FileAdmits content login ↔ none ∈ grants content ∨ some login ∈ grants content := by
  have hline : ∀ line, LineAdmits line login ↔
      grant line = some none ∨ grant line = some (some login) := by
    intro line
    unfold LineAdmits grant
    by_cases hnames : LineNames line
    · rw [if_pos hnames]
      by_cases hall : Str.eq_ignore_ascii_case (Str.trim line) all_word = true
      · simp [hnames, hall]
      · simp [hnames, hall]
    · rw [if_neg hnames]
      simp [hnames]
  unfold FileAdmits grants
  simp only [List.mem_filterMap, hline]
  constructor
  · rintro ⟨line, hmem, hall | hlogin⟩
    · exact Or.inl ⟨line, hmem, hall⟩
    · exact Or.inr ⟨line, hmem, hlogin⟩
  · rintro (⟨line, hmem, hall⟩ | ⟨line, hmem, hlogin⟩)
    · exact ⟨line, hmem, Or.inl hall⟩
    · exact ⟨line, hmem, Or.inr hlogin⟩

/-- The state of a command line with both options. -/
theorem both_options (cli : Cli) {raw path : List Char} {bytes : List UInt8}
    {read : List Char → Option (List UInt8)} (hraw : cli.accept_tailscale_serve_auth = some raw)
    (hpath : cli.tailscale_users_file = some path) (hread : read path = some bytes) :
    cli.to_tailscale_auth_state read
      = (from_arg raw).merge ((from_file (some bytes)).getD .Disabled) := by
  unfold Cli.to_tailscale_auth_state
  rw [hraw, hpath]
  dsimp only
  rw [hread]

/-- **The gate admits exactly who is configured.** With any argument and any file that
reads as text: a login is admitted exactly when the argument or a line of the file
admits it, in whichever order the two are merged, and any other file that grants the
same, whatever its comments, blank lines, repeated lines and mapped names, admits the
same. -/
theorem admitted_iff {cli : Cli} {raw path content : List Char} {bytes : List UInt8}
    {read : List Char → Option (List UInt8)} (hraw : cli.accept_tailscale_serve_auth = some raw)
    (hpath : cli.tailscale_users_file = some path) (hread : read path = some bytes)
    (htext : Str.from_utf8 bytes = some content) (login : List Char) :
    ((cli.to_tailscale_auth_state read).validate login = true ↔
        FlagAdmits raw login ∨ FileAdmits content login) ∧
      (((from_file (some bytes)).getD .Disabled).merge (from_arg raw)).validate login
        = (cli.to_tailscale_auth_state read).validate login ∧
      ∀ (bytes' : List UInt8) (content' : List Char), Str.from_utf8 bytes' = some content' →
        (∀ g, g ∈ grants content' ↔ g ∈ grants content) →
        ((from_arg raw).merge ((from_file (some bytes')).getD .Disabled)).validate login
          = (cli.to_tailscale_auth_state read).validate login := by
  rw [both_options cli hraw hpath hread]
  refine ⟨?_, ?_, ?_⟩
  · rw [validate_merge, from_arg_admits, from_file_admits htext]
  · rw [Bool.eq_iff_iff, validate_merge, validate_merge]
    exact or_comm
  · intro bytes' content' htext' hgrants
    rw [Bool.eq_iff_iff, validate_merge, validate_merge, from_file_admits htext,
      from_file_admits htext', file_admits_iff, file_admits_iff, hgrants, hgrants]

/-- A command line with an argument and a users file. -/
def listed_cli : Cli where
  users := []
  shadow_file := none
  shadow_write := false
  auth_cache_ttl := 60
  accept_tailscale_serve_auth := some " a, ,b".toList
  tailscale_users_file := some ['f']

/-- Its file: a comment, a login with a name, and the login again. -/
def listed_file : List UInt8 := Text.utf8_encode "#x\nc n\n c".toList

theorem admitted_iff_c :
    ((listed_cli.to_tailscale_auth_state fun _ => some listed_file).validate ['c'] = true ↔
      FlagAdmits " a, ,b".toList ['c'] ∨ FileAdmits "#x\nc n\n c".toList ['c']) :=
  have hraw : listed_cli.accept_tailscale_serve_auth = some " a, ,b".toList := rfl
  have hpath : listed_cli.tailscale_users_file = some ['f'] := rfl
  have hread : (fun _ => some listed_file) ['f'] = some listed_file := rfl
  (admitted_iff hraw hpath hread (by decide) ['c']).1

end Rshs.AllowList
