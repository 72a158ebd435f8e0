/-
What a shadow file keeps of the users written to it.

The writer puts every name and hash on a line as they are; the reader trims the line and
splits it at the first colon. A line is read back as its name and its hash without
trailing whitespace, as long as the name has no line feed and does not begin with
whitespace (`load_written`). Names that were read from a file are of that kind, so only
names of the command line can be lost, and no other name can be read (`Loaded`).
-/
import Rshs.ShadowFile
import Rshs.Utf8
import Mathlib.Logic.Encodable.Basic
import Mathlib.Logic.Equiv.List

set_option autoImplicit false

namespace Rshs.ShadowLines

open FinMap Rshs.Auth Rshs.ShadowFile

/-! ## Names and hashes -/

/-- A name as both sources of users split it off. -/
structure Split (username : List Char) : Prop where
  not_nil : username ≠ []
  no_colon : ':' ∉ username

/-- A name that stays the same on a line of its own. -/
structure Writable (username : List Char) : Prop where
  no_break : '\n' ∉ username
  no_lead : ∀ c ∈ username.head?, Str.is_whitespace c = false

/-- A hash as the reader accepts it. -/
structure Hashed (hash : List Char) : Prop where
  dollar : hash.head? = some '$'
  no_colon : ':' ∉ hash
  no_break : '\n' ∉ hash

theorem Hashed.trim_end_head {hash : List Char} (h : Hashed hash) :
    (Str.trim_end hash).head? = some '$' := Str.trim_end_head h.dollar (by decide)

/-! ## Reading a line -/

/-- What a line adds to the users. -/
theorem load_line_cases (users : Users) {line : List Char} (hbreak : '\n' ∉ line) :
    load_line users line = users ∨ ∃ username hash, Split username ∧ Writable username ∧
      Hashed hash ∧ load_line users line = users.insert username (.Sha512Crypt hash) := by
  have hmem : ∀ c ∈ Str.trim line, c ≠ '\n' := by
    intro c hc heq
    rw [heq] at hc
    exact hbreak (Str.mem_of_mem_trim hc)
  unfold load_line
  dsimp only
  split
  · exact Or.inl rfl
  · split
    · exact Or.inl rfl
    · rename_i username rest hsplit
      obtain ⟨hcolon, htrim⟩ := Str.split_once_some hsplit
      split
      · exact Or.inl rfl
      · rename_i hname
        have hnew : ∀ hash, ':' ∉ hash → (∀ c ∈ hash, c ∈ rest) →
            (if hash = [] ∨ hash.head? ≠ some '$' then users
              else users.insert username (.Sha512Crypt hash)) = users ∨
            ∃ name hash', Split name ∧ Writable name ∧ Hashed hash' ∧
              (if hash = [] ∨ hash.head? ≠ some '$' then users
                else users.insert username (.Sha512Crypt hash))
                  = users.insert name (.Sha512Crypt hash') := by
          intro hash hno hsub
          split
          · exact Or.inl rfl
          · rename_i hvalid
            rw [not_or, not_not] at hvalid
            refine Or.inr ⟨username, hash, ⟨hname, hcolon⟩, ⟨?_, ?_⟩, ⟨hvalid.2, hno, ?_⟩, rfl⟩
            · intro hin
              apply hmem '\n' _ rfl
              rw [htrim]
              exact List.mem_append_left _ hin
            · intro c hc
              obtain ⟨t, rfl⟩ := List.head?_eq_some_iff.mp hc
              exact Str.head_trim htrim
            · intro hin
              apply hmem '\n' _ rfl
              rw [htrim]
              exact List.mem_append_right _ (List.mem_cons_of_mem _ (hsub _ hin))
        -- the hash ends at the next colon, or with the line
        cases hrest : Str.split_once ':' rest with
        | none => exact hnew rest (Str.not_mem_of_split_once hrest) (fun c hc => hc)
        | some p =>
          obtain ⟨hno, heq⟩ := Str.split_once_some hrest
          apply hnew p.1 hno
          intro c hc
          rw [heq]
          exact List.mem_append_left _ hc

/-- A written line is read back, the hash without trailing whitespace. -/
theorem load_written (users : Users) {username hash : List Char} (hsplit : Split username)
    (hwritable : Writable username) (hhash : Hashed hash) :
    load_line users (Str.strip_cr (username ++ ':' :: hash))
      = users.insert username (.Sha512Crypt (Str.trim_end hash)) := by
  have hne : Str.trim_end hash ≠ [] := by
    intro hnil
    have hhead := hhash.trim_end_head
    rw [hnil] at hhead
    cases hhead
  have hlead : ∀ c ∈ (username ++ ':' :: hash).head?, Str.is_whitespace c = false := by
    obtain ⟨c, t, hcons⟩ := List.exists_cons_of_ne_nil hsplit.not_nil
    have hno_lead := hwritable.no_lead
    rw [hcons] at hno_lead ⊢
    exact hno_lead
  have hassoc : username ++ ':' :: hash = (username ++ [':']) ++ hash := by simp
  have htrim : Str.trim (Str.strip_cr (username ++ ':' :: hash))
      = username ++ ':' :: Str.trim_end hash := by
    rw [Str.trim_strip_cr, Str.trim_eq_trim_end hlead, hassoc, Str.trim_end_append hne]
    simp
  have hcolon : ':' ∉ Str.trim_end hash := fun h =>
    hhash.no_colon ((Str.trim_end_prefix hash).subset h)
  unfold load_line
  dsimp only
  rw [htrim, if_neg (by simp), Str.split_once_append hsplit.no_colon]
  dsimp only
  rw [if_neg hsplit.not_nil, Str.split_once_none hcolon]
  dsimp only
  rw [if_neg]
  rw [not_or, not_not]
  exact ⟨hne, hhash.trim_end_head⟩

/-! ## Where users come from -/

/-- Users as they are read from a file. -/
def Loaded (users : Users) : Prop :=
  ∀ username credential, users.lookup username = some credential →
    Split username ∧ Writable username ∧ ∃ hash, credential = .Sha512Crypt hash ∧ Hashed hash

/-- Users as they are given on a command line. -/
def Given (users : Users) : Prop :=
  ∀ username credential, users.lookup username = some credential →
    Split username ∧ ∃ password, credential = .Plaintext password

theorem load_line_loaded {users : Users} (h : Loaded users) {line : List Char}
    (hbreak : '\n' ∉ line) : Loaded (load_line users line) := by
  rcases load_line_cases users hbreak with hsame | ⟨username, hash, hsplit, hwritable, hhash, hnew⟩
  · rw [hsame]
    exact h
  · rw [hnew]
    intro name credential hlookup
    by_cases hname : name = username
    · rw [hname, AList.lookup_insert, Option.some_inj] at hlookup
      rw [hname]
      exact ⟨hsplit, hwritable, hash, hlookup.symm, hhash⟩
    · rw [AList.lookup_insert_ne hname] at hlookup
      exact h name credential hlookup

/-- **Only names that stay the same on a line are ever read.** -/
theorem load_loaded (content : List Char) : Loaded (load_from_shadow_file content).users := by
  have hfold : ∀ ls : List (List Char), (∀ line ∈ ls, '\n' ∉ line) → ∀ users, Loaded users →
      Loaded (ls.foldl load_line users) := by
    intro ls
    induction ls with
    | nil => exact fun _ users husers => husers
    | cons line ls ih =>
      intro h users husers
      rw [List.forall_mem_cons] at h
      exact ih h.2 _ (load_line_loaded husers h.1)
  apply hfold _ (fun line hline => Str.mem_lines hline)
  intro username credential h
  cases h

theorem add_entry_given {config : AuthState} (h : Given config.users) (entry : List Char) :
    Given (Cli.add_entry config entry).users := by
  unfold Cli.add_entry
  split
  · rename_i username password hsplit
    split
    · rename_i hname
      intro name credential hlookup
      change (config.users.insert username (.Plaintext password)).lookup name = _ at hlookup
      by_cases heq : name = username
      · rw [heq, AList.lookup_insert, Option.some_inj] at hlookup
        rw [heq]
        exact ⟨⟨hname, (Str.split_once_some hsplit).1⟩, password, hlookup.symm⟩
      · rw [AList.lookup_insert_ne heq] at hlookup
        exact h name credential hlookup
    · exact h
  · exact h

theorem cli_given (cli : Cli) : Given cli.to_auth_state.users := by
  have hfold : ∀ (entries : List (List Char)) (config : AuthState), Given config.users →
      Given (entries.foldl Cli.add_entry config).users := by
    intro entries
    induction entries with
    | nil => exact fun config h => h
    | cons entry entries ih => exact fun config h => ih _ (add_entry_given h entry)
  apply hfold
  intro username credential h
  cases h

/-- A merged user is the command line's, or the file's. -/
theorem lookup_merge (s other : AuthState) (username : List Char) :
    (merge_cli s other).users.lookup username
      = (other.users.lookup username).or (s.users.lookup username) := by
  unfold merge_cli
  dsimp only
  cases hlookup : other.users.lookup username with
  | none =>
    rw [Option.none_or]
    apply lookup_insert_all_ne
    intro e he heq
    have hmem : other.users.lookup e.1 = some e.2 :=
      AList.mem_lookup_iff.mpr he
    rw [heq, hlookup] at hmem
    cases hmem
  | some credential =>
    rw [Option.some_or]
    have hmem : (⟨username, credential⟩ : Entry (List Char) Credential) ∈ other.users.entries :=
      AList.mem_lookup_iff.mp hlookup
    exact lookup_insert_all (f := Sigma.fst) (g := Sigma.snd) other.users.nodupKeys hmem _

/-! ## Writing and reading -/

section Written

variable {iterate : Users → List (List Char × Credential)}
  {hash_password : List Char → List Char → Option (List Char)}

/-- The hash that is written for a credential. -/
def written_hash (hash_password : List Char → List Char → Option (List Char))
    (e : List Char × Credential) : Option (List Char) :=
  match e.2 with
  | .Sha512Crypt h => some h
  | .Plaintext p => hash_password e.1 p

theorem shadow_line_eq (e : List Char × Credential) :
    shadow_line hash_password e
      = (written_hash hash_password e).map fun h => (e.1 ++ ':' :: h) ++ ['\n'] := by
  obtain ⟨username, credential⟩ := e
  cases credential with
  | Plaintext p => rfl
  | Sha512Crypt h => rfl

/-- The lines of a file, each a name and a hash. -/
def Lines (hash_password : List Char → List Char → Option (List Char))
    (es : List (List Char × Credential)) (lines : List (List Char × List Char)) : Prop :=
  List.Forall₂ (fun e l => l.1 = e.1 ∧ written_hash hash_password e = some l.2) es lines

theorem lines_of_mapM {es : List (List Char × Credential)} {ls : List (List Char)}
    (h : es.mapM (shadow_line hash_password) = some ls) :
    ∃ lines, Lines hash_password es lines ∧
      ls = lines.map fun l => (l.1 ++ ':' :: l.2) ++ ['\n'] := by
  induction es generalizing ls with
  | nil =>
    cases h
    exact ⟨[], .nil, rfl⟩
  | cons e es ih =>
    rw [List.mapM_cons, shadow_line_eq] at h
    cases hhash : written_hash hash_password e with
    | none =>
      rw [hhash] at h
      cases h
    | some hash =>
      cases hrest : es.mapM (shadow_line hash_password) with
      | none =>
        rw [hhash, hrest] at h
        cases h
      | some rest =>
        rw [hhash, hrest] at h
        cases h
        obtain ⟨lines, hlines, rfl⟩ := ih hrest
        exact ⟨(e.1, hash) :: lines, .cons ⟨rfl, hhash⟩ hlines, rfl⟩

theorem Lines.names {es : List (List Char × Credential)} {lines : List (List Char × List Char)}
    (h : Lines hash_password es lines) : lines.map Prod.fst = es.map Prod.fst := by
  induction h with
  | nil => rfl
  | cons hline _ ih => rw [List.map_cons, List.map_cons, hline.1, ih]

theorem Lines.of_line {es : List (List Char × Credential)} {lines : List (List Char × List Char)}
    (h : Lines hash_password es lines) {l : List Char × List Char} (hl : l ∈ lines) :
    ∃ credential, (l.1, credential) ∈ es ∧
      written_hash hash_password (l.1, credential) = some l.2 := by
  induction h with
  | nil => cases hl
  | @cons e line es lines hline _ ih =>
    rcases List.mem_cons.mp hl with heq | hmem
    · obtain ⟨username, credential⟩ := e
      refine ⟨credential, ?_, ?_⟩
      · rw [heq, hline.1]
        exact List.mem_cons_self
      · rw [heq, hline.1]
        exact hline.2
    · obtain ⟨credential, hin, hhash⟩ := ih hmem
      exact ⟨credential, List.mem_cons_of_mem _ hin, hhash⟩

theorem Lines.of_entry {es : List (List Char × Credential)} {lines : List (List Char × List Char)}
    (h : Lines hash_password es lines) {e : List Char × Credential} (he : e ∈ es) :
    ∃ hash, (e.1, hash) ∈ lines ∧ written_hash hash_password e = some hash := by
  induction h with
  | nil => cases he
  | @cons e' line es lines hline _ ih =>
    rcases List.mem_cons.mp he with heq | hmem
    · refine ⟨line.2, ?_, ?_⟩
      · rw [heq, ← hline.1]
        exact List.mem_cons_self
      · rw [heq]
        exact hline.2
    · obtain ⟨hash, hin, hhash⟩ := ih hmem
      exact ⟨hash, List.mem_cons_of_mem _ hin, hhash⟩

/-- Lines that all stay the same are read back one by one. -/
theorem load_lines {lines : List (List Char × List Char)}
    (h : ∀ l ∈ lines, Split l.1 ∧ Writable l.1 ∧ Hashed l.2) :
    (load_from_shadow_file (lines.flatMap fun l => (l.1 ++ ':' :: l.2) ++ ['\n'])).users
      = lines.foldl (fun users l => users.insert l.1 (.Sha512Crypt (Str.trim_end l.2))) ∅ := by
  have hbreak : ∀ line ∈ lines.map (fun l => l.1 ++ ':' :: l.2), '\n' ∉ line := by
    intro line hline hin
    obtain ⟨l, hl, rfl⟩ := List.mem_map.mp hline
    obtain ⟨-, hwritable, hhash⟩ := h l hl
    rcases List.mem_append.mp hin with hname | hrest
    · exact hwritable.no_break hname
    · rcases List.mem_cons.mp hrest with heq | hmem
      · exact absurd heq (by decide)
      · exact hhash.no_break hmem
  have htext : (lines.flatMap fun l => (l.1 ++ ':' :: l.2) ++ ['\n'])
      = (lines.map fun l => l.1 ++ ':' :: l.2).flatMap fun line => line ++ ['\n'] := by
    rw [List.flatMap_map]
  unfold load_from_shadow_file
  dsimp only
  rw [htext, Str.lines_ended hbreak, List.map_map, List.foldl_map]
  clear hbreak htext
  have hfold : ∀ users : Users, List.foldl (fun users l => load_line users
        ((Str.strip_cr ∘ fun l : List Char × List Char => l.1 ++ ':' :: l.2) l)) users lines
      = lines.foldl (fun users l => users.insert l.1 (.Sha512Crypt (Str.trim_end l.2))) users := by
    induction lines with
    | nil => exact fun _ => rfl
    | cons l lines ih =>
      intro users
      rw [List.forall_mem_cons] at h
      rw [List.foldl_cons, List.foldl_cons, ← ih h.2]
      congr 1
      exact load_written users h.1.1 h.1.2.1 h.1.2.2
  exact hfold ∅

/-- What is assumed of the iteration over a map: every entry once. -/
def Iterates (iterate : Users → List (List Char × Credential)) : Prop :=
  ∀ users : Users, (iterate users).Perm (users.entries.map fun e => (e.1, e.2))

theorem Iterates.mem (h : Iterates iterate) {users : Users} {e : List Char × Credential} :
    e ∈ iterate users ↔ users.lookup e.1 = some e.2 := by
  rw [(h users).mem_iff, List.mem_map]
  constructor
  · rintro ⟨⟨username, credential⟩, hmem, rfl⟩
    exact AList.mem_lookup_iff.mpr hmem
  · intro hlookup
    exact ⟨⟨e.1, e.2⟩, AList.mem_lookup_iff.mp hlookup, rfl⟩

theorem Iterates.nodup (h : Iterates iterate) (users : Users) :
    ((iterate users).map Prod.fst).Nodup := by
  rw [((h users).map Prod.fst).nodup_iff, List.map_map]
  exact users.nodupKeys

/-- What is assumed of `sha_crypt`: its hashes verify the password they were made of and
no other, begin with a dollar sign and have neither colons nor whitespace. -/
structure Crypt (hash_password : List Char → List Char → Option (List Char))
    (verify_password : List Char → List Char → Bool) : Prop where
  verifies : ∀ username p h q, hash_password username p = some h →
    (verify_password q h = true ↔ q = p)
  dollar : ∀ username p h, hash_password username p = some h → h.head? = some '$'
  no_colon : ∀ username p h, hash_password username p = some h → ':' ∉ h
  no_space : ∀ username p h, hash_password username p = some h →
    ∀ c ∈ h, Str.is_whitespace c = false

theorem Crypt.hashed {verify_password : List Char → List Char → Bool}
    (h : Crypt hash_password verify_password) {username p hash : List Char}
    (hhash : hash_password username p = some hash) : Hashed hash where
  dollar := h.dollar username p hash hhash
  no_colon := h.no_colon username p hash hhash
  no_break := by
    intro hin
    exact absurd (h.no_space username p hash hhash _ hin) (by decide)

/-- A hash that verifies the same passwords when whitespace at its end is cut off. -/
def Trimmed (verify_password : List Char → List Char → Bool) (hash : List Char) : Prop :=
  ∀ p, verify_password p (Str.trim_end hash) = verify_password p hash

/-- Users of whom a shadow file keeps everything: their names have no line feed and do not
begin with whitespace, and the end of a hash may be trimmed. -/
structure Kept (verify_password : List Char → List Char → Bool) (users : Users) : Prop where
  names : ∀ username credential, users.lookup username = some credential → Writable username
  hashes : ∀ username hash, users.lookup username = some (.Sha512Crypt hash) →
    Trimmed verify_password hash

/-- Users merged from a file and a command line. -/
structure Merged (users : Users) : Prop where
  split : ∀ username credential, users.lookup username = some credential → Split username
  loaded : ∀ username hash, users.lookup username = some (.Sha512Crypt hash) →
    Writable username ∧ Hashed hash

theorem merged_users (content : List Char) (cli : Cli) :
    Merged (merge_cli (load_from_shadow_file content) cli.to_auth_state).users := by
  have hfile := load_loaded content
  have hcli := cli_given cli
  constructor
  · intro username credential h
    rw [lookup_merge] at h
    rcases Option.or_eq_some_iff.mp h with hgiven | ⟨-, hloaded⟩
    · exact (hcli username credential hgiven).1
    · exact (hfile username credential hloaded).1
  · intro username hash h
    rw [lookup_merge] at h
    rcases Option.or_eq_some_iff.mp h with hgiven | ⟨-, hloaded⟩
    · obtain ⟨-, password, heq⟩ := hcli username _ hgiven
      cases heq
    · obtain ⟨-, hwritable, hash', heq, hhash⟩ := hfile username _ hloaded
      cases heq
      exact ⟨hwritable, hhash⟩

section RoundTrip

variable {verify_password : List Char → List Char → Bool}
  (hiter : Iterates iterate) (hcrypt : Crypt hash_password verify_password)
variable {users : Users} (hmerged : Merged users)

include hiter hcrypt hmerged

/-- **The users of a written file**, when every name stays the same on a line. -/
theorem lookup_written {lines : List (List Char × List Char)}
    (hlines : Lines hash_password (iterate users) lines)
    (hnames : ∀ username credential, users.lookup username = some credential → Writable username)
    (username : List Char) :
    (load_from_shadow_file (lines.flatMap fun l => (l.1 ++ ':' :: l.2) ++ ['\n'])).users.lookup
        username
      = (users.lookup username).bind fun credential =>
        (written_hash hash_password (username, credential)).map fun h =>
          .Sha512Crypt (Str.trim_end h) := by
  have hgood : ∀ l ∈ lines, Split l.1 ∧ Writable l.1 ∧ Hashed l.2 := by
    intro l hl
    obtain ⟨credential, hin, hhash⟩ := hlines.of_line hl
    have hlookup : users.lookup l.1 = some credential := hiter.mem.mp hin
    refine ⟨hmerged.split _ _ hlookup, hnames _ _ hlookup, ?_⟩
    cases credential with
    | Plaintext p => exact hcrypt.hashed hhash
    | Sha512Crypt h =>
      cases hhash
      exact (hmerged.loaded _ _ hlookup).2
  have hnodup : (lines.map Prod.fst).Nodup := by
    rw [hlines.names]
    exact hiter.nodup users
  rw [load_lines hgood]
  cases hlookup : users.lookup username with
  | none =>
    rw [lookup_insert_all_ne]
    · rfl
    · intro l hl heq
      obtain ⟨credential, hin, -⟩ := hlines.of_line hl
      have hsome : users.lookup l.1 = some credential := hiter.mem.mp hin
      rw [heq, hlookup] at hsome
      cases hsome
  | some credential =>
    have hin : (username, credential) ∈ iterate users := hiter.mem.mpr hlookup
    obtain ⟨hash, hline, hhash⟩ := hlines.of_entry hin
    rw [Option.bind_some, hhash, Option.map_some]
    exact lookup_insert_all (f := Prod.fst) (g := fun l => Credential.Sha512Crypt (Str.trim_end l.2))
      hnodup hline ∅

/-- When every name stays the same on a line, a written user checks passwords against the
trimmed hash. -/
theorem validate_written {lines : List (List Char × List Char)} {s : AuthState}
    (hs : s.users = users) (hlines : Lines hash_password (iterate users) lines)
    (hkept : Kept verify_password users) (username password : List Char) :
    (load_from_shadow_file (lines.flatMap fun l => (l.1 ++ ':' :: l.2) ++ ['\n'])).validate
        verify_password username password
      = s.validate verify_password username password := by
  have hwritten := lookup_written hiter hcrypt hmerged hlines hkept.names username
  unfold AuthState.validate
  rw [hwritten, hs]
  cases hlookup : users.lookup username with
  | none => rfl
  | some credential =>
    have hin : (username, credential) ∈ iterate users := hiter.mem.mpr hlookup
    obtain ⟨hash, -, hhash⟩ := hlines.of_entry hin
    rw [Option.bind_some, hhash, Option.map_some]
    cases credential with
    | Sha512Crypt h =>
      cases hhash
      exact hkept.hashes username _ hlookup password
    | Plaintext p =>
      dsimp only
      rw [Str.trim_end_self (hcrypt.no_space _ _ _ hhash), Bool.eq_iff_iff,
        hcrypt.verifies _ _ _ password hhash, decide_eq_true_iff]
      exact eq_comm

/-- A state that validates the same after it was written is one that is kept. -/
theorem kept_of_validate {lines : List (List Char × List Char)} {s : AuthState}
    (hs : s.users = users) (hlines : Lines hash_password (iterate users) lines)
    (hsame : ∀ username password,
      (load_from_shadow_file (lines.flatMap fun l => (l.1 ++ ':' :: l.2) ++ ['\n'])).validate
          verify_password username password
        = s.validate verify_password username password) : Kept verify_password users := by
  have hnames : ∀ username credential, users.lookup username = some credential →
      Writable username := by
    intro username credential hlookup
    cases credential with
    | Sha512Crypt h => exact (hmerged.loaded _ _ hlookup).1
    | Plaintext p =>
      -- the password is right before, so there is a user of that name after
      have hright : s.validate verify_password username p = true := by
        unfold AuthState.validate
        rw [hs, hlookup]
        exact decide_eq_true rfl
      rw [← hsame] at hright
      unfold AuthState.validate at hright
      split at hright
      · rename_i hloaded
        exact (load_loaded _ _ _ hloaded).2.1
      · rename_i hloaded
        exact (load_loaded _ _ _ hloaded).2.1
      · cases hright
  refine ⟨hnames, ?_⟩
  intro username hash hlookup password
  have hwritten := lookup_written hiter hcrypt hmerged hlines hnames username
  rw [hlookup] at hwritten
  have hvalidate := hsame username password
  unfold AuthState.validate at hvalidate
  rw [hwritten, hs, hlookup] at hvalidate
  exact hvalidate

end RoundTrip

/-- **When a shadow file keeps its users.** Whatever the file and the command line: once
the merged users are written, what is read back validates the same names and passwords if
and only if every name stays the same on a line and the end of every hash may be trimmed. -/
theorem shadow_lines_iff {verify_password : List Char → List Char → Bool}
    (hiter : Iterates iterate) (hcrypt : Crypt hash_password verify_password)
    (content : List Char) (cli : Cli) {bytes : List UInt8}
    (hbytes : shadow_content iterate hash_password
      (merge_cli (load_from_shadow_file content) cli.to_auth_state).users = some bytes) :
    (∃ text, Str.from_utf8 bytes = some text ∧ ∀ username password,
      (load_from_shadow_file text).validate verify_password username password
        = (merge_cli (load_from_shadow_file content) cli.to_auth_state).validate verify_password
          username password) ↔
      Kept verify_password
        (merge_cli (load_from_shadow_file content) cli.to_auth_state).users := by
  have hmerged := merged_users content cli
  generalize merge_cli (load_from_shadow_file content) cli.to_auth_state = s at hbytes hmerged ⊢
  obtain ⟨ls, hls, rfl⟩ := Option.map_eq_some_iff.mp hbytes
  obtain ⟨lines, hlines, rfl⟩ := lines_of_mapM hls
  have htext : Str.from_utf8 (Text.utf8_encode (lines.map fun l => (l.1 ++ ':' :: l.2) ++ ['\n']).flatten)
      = some (lines.flatMap fun l => (l.1 ++ ':' :: l.2) ++ ['\n']) := by
    unfold Str.from_utf8
    rw [Text.utf8_lossy_encode, if_pos rfl, List.flatMap_def]
  rw [htext]
  constructor
  · rintro ⟨text, heq, hsame⟩
    rw [← Option.some.inj heq] at hsame
    exact kept_of_validate hiter hcrypt hmerged rfl hlines hsame
  · intro hkept
    exact ⟨_, rfl, validate_written hiter hcrypt hmerged rfl hlines hkept⟩

end Written

/-! ## A name that begins with a space -/

/-- A hash that tells passwords apart by its length. -/
def length_hash (_ password : List Char) : Option (List Char) :=
  some ("$6$".toList ++ List.replicate (Encodable.encode (password.map Char.toNat)) 'x')

def length_verify (password hash : List Char) : Bool := length_hash [] password = some hash

theorem iterates_in_order : Iterates in_order := fun _ => List.Perm.refl _

theorem crypt_length : Crypt length_hash length_verify := by
  have hmem : ∀ (n : ℕ) (c : Char), c ∈ "$6$".toList ++ List.replicate n 'x' →
      c ∈ "$6$".toList ∨ c = 'x' := by
    intro n c hc
    exact (List.mem_append.mp hc).imp_right List.eq_of_mem_replicate
  constructor
  · intro username p h q hp
    unfold length_verify
    rw [decide_eq_true_iff, ← hp]
    constructor
    · intro heq
      have hlists := List.append_cancel_left (Option.some.inj heq)
      have hlen := congrArg List.length hlists
      rw [List.length_replicate, List.length_replicate] at hlen
      exact List.map_injective_iff.mpr (fun _ _ => Char.toNat_inj.mp)
        (Encodable.encode_injective hlen)
    · intro heq
      rw [heq]
      rfl
  · intro username p h hp
    rw [← Option.some.inj hp]
    rfl
  · intro username p h hp hin
    rw [← Option.some.inj hp] at hin
    rcases hmem _ _ hin with hpre | hx
    · exact absurd hpre (by decide)
    · exact absurd hx (by decide)
  · intro username p h hp c hc
    rw [← Option.some.inj hp] at hc
    rcases hmem _ _ hc with hpre | hx
    · have hall : ∀ d ∈ "$6$".toList, Str.is_whitespace d = false :=
        Text.forall_mem_of_all (by decide)
      exact hall c hpre
    · rw [hx]
      decide

/-- The command line with one user, who has no password. -/
def user_cli (entry : String) : Cli where
  users := [entry.toList]
  shadow_file := none
  shadow_write := true
  auth_cache_ttl := 60
  accept_tailscale_serve_auth := none
  tailscale_users_file := none

theorem shadow_lines_iff_bob :
    (∃ text, Str.from_utf8 (Text.utf8_encode "bob:$6$\n".toList) = some text ∧
      ∀ username password, (load_from_shadow_file text).validate length_verify username password
        = (merge_cli (load_from_shadow_file []) (user_cli "bob:").to_auth_state).validate
          length_verify username password) ↔
      Kept length_verify
        (merge_cli (load_from_shadow_file []) (user_cli "bob:").to_auth_state).users :=
  shadow_lines_iff iterates_in_order crypt_length [] (user_cli "bob:") (by decide)

/-- A user whose name begins with a space cannot log in any more. -/
theorem leading_space_lost :
    ¬ ∀ (iterate : Users → List (List Char × Credential))
        (hash_password : List Char → List Char → Option (List Char))
        (verify_password : List Char → List Char → Bool) (content : List Char) (cli : Cli)
        (bytes : List UInt8), Iterates iterate → Crypt hash_password verify_password →
      shadow_content iterate hash_password
        (merge_cli (load_from_shadow_file content) cli.to_auth_state).users = some bytes →
      ∃ text, Str.from_utf8 bytes = some text ∧ ∀ username password,
        (load_from_shadow_file text).validate verify_password username password
          = (merge_cli (load_from_shadow_file content) cli.to_auth_state).validate verify_password
            username password := by
  intro hall
  have hbytes : shadow_content in_order length_hash
      (merge_cli (load_from_shadow_file []) (user_cli " bob:").to_auth_state).users
        = some (Text.utf8_encode " bob:$6$\n".toList) := by decide
  obtain ⟨text, -, hsame⟩ := hall in_order length_hash length_verify [] (user_cli " bob:") _
    iterates_in_order crypt_length hbytes
  have hbefore : (merge_cli (load_from_shadow_file []) (user_cli " bob:").to_auth_state).validate
      length_verify " bob".toList [] = true := by decide
  have hafter := (hsame " bob".toList []).trans hbefore
  have hlead : ∀ credential, (load_from_shadow_file text).users.lookup " bob".toList
      ≠ some credential := by
    intro credential hlookup
    have hno_lead := (load_loaded text _ _ hlookup).2.1.no_lead ' ' rfl
    exact absurd hno_lead (by decide)
  unfold AuthState.validate at hafter
  rw [Option.eq_none_iff_forall_ne_some.mpr hlead] at hafter
  cases hafter

end Rshs.ShadowLines
