/-
Whether a lock can be released at the URL it was taken with.

LOCK strips the separators at the end of the URL and stores the lock under the
directory that the rest leads to and the last name as it stands. UNLOCK resolves the
whole URL: it follows a symbolic link at the last name, and a separator at the end
asks for a directory. `Reached` says of a file tree when the second way ends at the
entry of the first, `released_iff` that UNLOCK removes the lock exactly then, given
that no other lock of the entry has its token.
-/
import Rshs.LockEffects
import Rshs.Overlap
import Rshs.Tokens
import Rshs.Server
import Rshs.Growth
import Rshs.Href
import Rshs.IfSyntax

set_option autoImplicit false

namespace Rshs.Release

open StdPath Posix FinMap Text Rshs.Webdav Rshs.IfHeader Rshs.Ls Rshs.Locks Rshs.Resolve Rshs.App
  Rshs.Href

/-! ## The URL without the separators at its end -/

theorem trim_end_split (s : List Char) :
    ∃ k, s = trim_end_matches '/' s ++ List.replicate k '/' := by
  unfold trim_end_matches
  induction s using List.reverseRecOn with
  | nil => exact ⟨0, rfl⟩
  | append_singleton s c ih =>
    by_cases hc : c = '/'
    · obtain ⟨k, hk⟩ := ih
      refine ⟨k + 1, ?_⟩
      rw [List.rdropWhile_concat_pos _ _ _ (by simpa using hc), List.replicate_succ',
        ← List.append_assoc, ← hk, hc]
    · refine ⟨0, ?_⟩
      rw [List.rdropWhile_concat_neg _ _ _ (by simpa using hc)]
      simp

theorem request_text_slashes {v : List Char} (h : request_text v ≠ []) (k : ℕ) :
    request_text (v ++ List.replicate k '/') = request_text v ++ List.replicate k '/' := by
  induction k with
  | zero => simp
  | succ k ih =>
    have hne : request_text (v ++ List.replicate k '/') ≠ [] := by
      rw [ih]
      simp [h]
    rw [List.replicate_succ', ← List.append_assoc, request_text_slash, if_neg hne, ih,
      List.append_assoc]

theorem of_text_slashes {t : List Char} (h : Plain t) (k : ℕ) :
    PathBuf.of_text (t ++ List.replicate k '/') =
      { comps := (names_of_text t).map .normal, slash := decide (k ≠ 0) } := by
  induction k with
  | zero =>
    have hcomps := h.comps
    have hslash := h.slash
    rw [List.replicate_zero, List.append_nil, PathBuf.mk.injEq]
    exact ⟨hcomps, hslash⟩
  | succ k ih =>
    have hhead : (t ++ List.replicate k '/').head? ≠ some '/' := by
      rw [List.head?_append_of_ne_nil _ h.not_nil]
      exact h.relative
    have hne : t ++ List.replicate k '/' ≠ [] := by simp [h.not_nil]
    rw [List.replicate_succ', ← List.append_assoc, PathBuf.mk.injEq]
    constructor
    · rw [of_text_slash hhead hne, ih]
    · have hlen := List.length_pos_of_ne_nil (List.splitOn_ne_nil '/' (t ++ List.replicate k '/'))
      unfold PathBuf.of_text
      dsimp only
      rw [List.splitOn_append_cons_self, List.splitOn_eq_singleton (List.not_mem_nil : '/' ∉ []),
        List.getLast?_concat, List.length_append]
      simp
      omega

/-- Names below a root, with or without a separator at the end. -/
theorem join_names_slash {p q : PathBuf} {ns : List Name} (hq : q.comps = ns.map .normal)
    (hns : ns ≠ []) : p.join q = { comps := p.comps ++ ns.map .normal, slash := q.slash } := by
  obtain ⟨n, ns, rfl⟩ := List.exists_cons_of_ne_nil hns
  have hrel : q.is_absolute = false := by
    unfold PathBuf.is_absolute
    rw [hq]
    simp
  have hcomps := @join_comps p q hrel
  have hslash : (p.join q).slash = q.slash := by
    unfold PathBuf.join
    rw [hrel, if_neg Bool.false_ne_true, hq]
    split
    · rfl
    · rfl
  rw [hq] at hcomps
  rw [PathBuf.mk.injEq]
  refine ⟨?_, hslash⟩
  rw [hcomps]
  split
  · rename_i hp
    rw [hp, List.nil_append]
  · rfl

/-! ## Where the whole URL leads -/

/-- Where the directory part of a path leads. -/
def dir_of (fs : Fs) (cwd : Path) (root_dir : PathBuf) (init : List Name) :
    Except ErrorKind Path :=
  walk fs false symlink_max cwd (below root_dir init).comps

/-- What UNLOCK canonicalises: the names below the root, and a separator if the URL
ends in one. -/
def whole (root_dir : PathBuf) (init : List Name) (n : Name) (slash : Bool) : PathBuf :=
  { comps := (below root_dir (init ++ [n])).comps, slash := slash }

/-- The whole path leads to the entry `m`: the directory part leads to the directory
of `m`, and there stands a directory, or a file and the text does not ask for a
directory. Or the directory part leads elsewhere, to a link to `m`. -/
inductive Reached (fs : Fs) (cwd : Path) (root_dir : PathBuf) (init : List Name) (n : Name)
    (slash : Bool) (m : Path) : Prop
  | dir (d : Path) (hd : dir_of fs cwd root_dir init = .ok d) (hm : m = d ++ [n])
      (hdir : fs.node m = some .dir)
  | file (d : Path) (c : List UInt8) (hd : dir_of fs cwd root_dir init = .ok d) (hm : m = d ++ [n])
      (hfile : fs.node m = some (.file c)) (hslash : slash = false)
  | link (d : Path) (t : PathBuf) (hd : dir_of fs cwd root_dir init = .ok d) (hm : m ≠ d ++ [n])
      (hlink : fs.node (d ++ [n]) = some (.symlink t))
      (hlead : canonicalize fs cwd (whole root_dir init n slash) = .ok m)

section Paths

variable {fs : Fs} {cwd : Path} {root_dir : PathBuf} {init : List Name} {n : Name} {slash : Bool}

theorem canonicalize_whole :
    canonicalize fs cwd (whole root_dir init n slash) = walk fs false symlink_max cwd
      ((below root_dir init).comps ++ (.normal n :: if slash then [.curDir] else [])) := by
  have hsteps : steps (whole root_dir init n slash) =
      (below root_dir init).comps ++ (.normal n :: if slash then [.curDir] else []) := by
    simp [steps, whole, below]
  unfold canonicalize
  rw [if_neg, hsteps]
  simp [whole, below]

theorem canonicalize_whole_iff {m : Path} :
    canonicalize fs cwd (whole root_dir init n slash) = .ok m ↔
      Reached fs cwd root_dir init n slash m := by
  constructor
  · intro h
    have hwalk := h
    rw [canonicalize_whole] at hwalk
    -- the walk reaches a directory, and takes the last name from there
    obtain ⟨d, l, hd, hlast⟩ := walk_split (by simp) hwalk
    have hdir := walk_dir hlast
    rw [walk_level, walk_with_cons, if_neg (not_not.mpr hdir)] at hlast
    dsimp only at hlast
    split at hlast
    -- nothing stands there
    · simp at hlast
    · -- a link, which no resolution ends at
      rename_i t hlink
      refine .link d t hd (fun hm => ?_) hlink h
      have hreal := canonicalize_real (canonicalize_cwd h) h
      rw [hm] at hreal
      obtain ⟨x, hx, hno⟩ := hreal
      rw [hlink] at hx
      exact hno t (Option.some_inj.mp hx).symm
    -- a file, which a slash behind it would refuse
    · rename_i c hfile
      cases slash with
      | false =>
        cases hlast
        exact .file d c hd rfl hfile rfl
      | true =>
        rw [if_pos rfl, walk_with_cons, hfile] at hlast
        simp at hlast
    -- a directory, with or without a slash
    · rename_i hsub
      have hm : m = d ++ [n] := by
        cases slash with
        | false =>
          cases hlast
          rfl
        | true =>
          rw [if_pos rfl, walk_with_cons, if_neg (not_not.mpr hsub)] at hlast
          cases hlast
          rfl
      rw [← hm] at hsub
      exact .dir d hd hm hsub
  · intro h
    cases h with
    | dir d hd hm hdir =>
      subst hm
      have hparent : fs.node d = some .dir := fs.parent_dir d n (by rw [hdir]; simp)
      rw [canonicalize_whole]
      refine walk_append hd (fun next => ?_)
      rw [walk_with_cons, if_neg (not_not.mpr hparent)]
      dsimp only
      rw [hdir]
      cases slash with
      | false => rfl
      | true =>
        dsimp only
        rw [if_pos rfl, walk_with_cons, if_neg (not_not.mpr hdir)]
        rfl
    | file d c hd hm hfile hslash =>
      subst hm hslash
      have hparent : fs.node d = some .dir := fs.parent_dir d n (by rw [hfile]; simp)
      rw [canonicalize_whole]
      refine walk_append hd (fun next => ?_)
      rw [walk_with_cons, if_neg (not_not.mpr hparent)]
      dsimp only
      rw [hfile]
      rfl
    | link d t hd hm hlink hlead => exact hlead

/-- What UNLOCK finds, for a URL that LOCK has accepted. -/
theorem resolve_existing_iff {u : List Char} {root_canonical : PathBuf} {m : Path}
    (hplain : Plain (request_text (trim_end_matches '/' u)))
    (hnames : names_of_text (request_text (trim_end_matches '/' u)) = init ++ [n])
    (hroot : m.starts_with root_canonical = true) :
    resolve_existing fs cwd root_dir root_canonical u = some m ↔
      Reached fs cwd root_dir init n (decide (trim_end_matches '/' u ≠ u)) m := by
  obtain ⟨k, hk⟩ := trim_end_split u
  have htext : request_text u =
      request_text (trim_end_matches '/' u) ++ List.replicate k '/' := by
    conv => lhs; rw [hk]
    exact request_text_slashes hplain.not_nil k
  have hslash : decide (k ≠ 0) = decide (trim_end_matches '/' u ≠ u) := by
    congr 1
    refine propext (not_congr ?_)
    constructor
    · intro h0
      rw [h0, List.replicate_zero, List.append_nil] at hk
      exact hk.symm
    · intro heq
      have hlen := congrArg List.length hk
      rw [List.length_append, List.length_replicate, heq] at hlen
      omega
  have hpath : root_dir.join (PathBuf.of_text (request_text u)) =
      whole root_dir init n (decide (trim_end_matches '/' u ≠ u)) := by
    rw [htext, of_text_slashes hplain, join_names_slash rfl (by rw [hnames]; simp), hnames, hslash]
    rfl
  rw [← canonicalize_whole_iff, resolve_existing_some_iff, hpath]
  constructor
  · rintro ⟨hcanon, -⟩
    exact hcanon
  · intro hcanon
    exact ⟨hcanon, hroot⟩

end Paths

/-! ## The lock LOCK adds -/

section Added

variable {default_hasher : ℕ → UInt64} {now : ℕ} {req : LockRequest} {locks : LockStore}
  {p : Path} {l : LockInfo}

/-- A grant writes one new lock, at the target. -/
theorem granted_new {entry : List LockInfo} {token : String}
    (hsub : ∀ y ∈ entry, y ∈ locks.at req.target)
    (hl : l ∈ LockStore.at ((or_default [] req.target locks : LockStore).insert req.target
      (entry ++ [req.lock token now])) p)
    (hnew : ∀ y ∈ locks.at p, y.token ≠ l.token) : p = req.target ∧ l.token = token := by
  rw [at_insert] at hl
  split at hl
  · rename_i hp
    rw [hp] at hnew
    rcases List.mem_append.mp hl with hold | hlast
    · exact absurd rfl (hnew l (hsub l hold))
    · rw [List.mem_singleton.mp hlast]
      exact ⟨hp, rfl⟩
  · rw [at_or_default] at hl
    exact absurd rfl (hnew l hl)

theorem first_section_new (hl : l ∈ (first_section default_hasher now req locks).2.at p)
    (hnew : ∀ y ∈ locks.at p, y.token ≠ l.token) :
    p = req.target ∧ l.token = generate_lock_token default_hasher now := by
  rcases first_section_cases default_hasher now req locks with
    ⟨lock, locks', hfind, heq⟩ | ⟨-, ⟨status, hd, heq⟩ | ⟨token, entry, hd, heq⟩ | ⟨he, heq⟩⟩
  · obtain ⟨q, pre, old, post, -, -, hlook, -, hexp, -, hlock, rfl⟩ := find_and_refresh_some hfind
    rw [heq] at hl
    exact absurd (Overlap.adds_of_new now hl hnew)
      (Overlap.not_adds_refresh hlook (Overlap.within_refreshed hlock hexp))
  · rw [heq] at hl
    exact absurd (Overlap.adds_of_new now hl hnew) (Overlap.not_adds_or_default req.target)
  · rw [heq] at hl
    rcases Tokens.granted_cases hd with ⟨htoken, hm⟩ | ⟨hsub, old, hold, htoken, -⟩
    · have hgranted := granted_new hm.sublist.subset hl hnew
      rw [htoken] at hgranted
      exact hgranted
    · -- an old token put back is not new
      obtain ⟨hp, hlt⟩ := granted_new hsub.subset hl hnew
      rw [hp] at hnew
      exact absurd (htoken.trans hlt.symm) (hnew old hold)
  · rw [heq] at hl
    dsimp only at hl
    rw [at_insert] at hl
    split at hl
    · cases hl
    · rw [at_or_default] at hl
      exact absurd rfl (hnew l hl)

theorem second_section_new {created : Bool}
    (hl : l ∈ (second_section default_hasher now req created locks).2.at p)
    (hnew : ∀ y ∈ locks.at p, y.token ≠ l.token) :
    p = req.target ∧ l.token = generate_lock_token default_hasher now := by
  rcases second_section_cases default_hasher now req created locks with ⟨-, heq⟩ | ⟨-, heq⟩
  · rw [heq] at hl
    exact absurd (Overlap.adds_of_new now hl hnew) (Overlap.not_adds_or_default req.target)
  · rw [heq, ← List.nil_append [req.lock _ now]] at hl
    exact granted_new (by simp) hl hnew

end Added

/-- **What LOCK adds.** A lock under a token that is new at its path is stored at the
target of the LOCK, and its token was made at a reading of the clock. -/
theorem added_lock {os : Os} {cwd : Path} {clock : Server.Clock} {default_hasher : ℕ → UInt64}
    {req : Request} {w w' : World} {status : StatusCode} {p : Path} {l : LockInfo}
    (h : Server.handle_lock os cwd clock default_hasher req w = (.ok status, w'))
    (hl : l ∈ w'.app.locks.at p) (hnew : ∀ y ∈ w.app.locks.at p, y.token ≠ l.token) :
    (w.resolve_and_guard cwd (trim_end_matches '/' req.uri_path)).1 = .ok p ∧
      ∃ now, l.token = generate_lock_token default_hasher now := by
  have hlocks : (w.resolve_and_guard cwd (trim_end_matches '/' req.uri_path)).2.app.locks =
      w.app.locks := rfl
  unfold Server.handle_lock at h
  dsimp only at h
  generalize w.resolve_and_guard cwd (trim_end_matches '/' req.uri_path) = r at h hlocks ⊢
  obtain ⟨e | target, wg⟩ := r
  · cases h
  · dsimp only at h hlocks ⊢
    rw [← hlocks] at hnew
    cases hbody : req.lock_body with
    | none =>
      rw [hbody] at h
      cases h
    | some events =>
      rw [hbody] at h
      dsimp only at h
      have htarget : (Server.lock_request req wg.app events target).target = target := rfl
      generalize Server.lock_request req wg.app events target = lreq at h htarget
      rw [← htarget]
      have hfirst := @first_section_new default_hasher clock.first lreq wg.app.locks p l
      have hsame := (@LockEffects.first_section_effect default_hasher clock.first lreq
        wg.app.locks).2.1
      generalize first_section default_hasher clock.first lreq wg.app.locks = first
        at h hfirst hsame
      obtain ⟨_ | reply, left⟩ := first
      · -- the second section finds at `p` what the request found
        have hleft : left.at p = wg.app.locks.at p := hsame rfl p
        rw [← hleft] at hnew
        dsimp only [with_locks_machine] at h
        generalize create_new os target wg.machine = made at h
        obtain ⟨made, m⟩ := made
        dsimp only at h
        split at h
        · cases h
        · have hw := (Prod.mk.inj h).2
          rw [← hw] at hl
          obtain ⟨hp, htoken⟩ := second_section_new hl hnew
          rw [hp]
          exact ⟨rfl, _, htoken⟩
      · have hw := (Prod.mk.inj h).2
        rw [← hw] at hl
        obtain ⟨hp, htoken⟩ := hfirst hl hnew
        rw [hp]
        exact ⟨rfl, _, htoken⟩

/-! ## The Lock-Token header of a granted token -/

/-- The text of a header that names a lock by its token. -/
def lock_token_value (token : String) : HeaderValue :=
  header_value (String.ofList (quoted token.toList))

theorem hex16_digits (w : UInt64) : ∀ c ∈ hex16 w, c ∈ "0123456789abcdef".toList := by
  intro c hc
  obtain ⟨i, -, rfl⟩ := List.mem_map.mp hc
  have hlt : w.toNat / 16 ^ (15 - i) % 16 < 16 := Nat.mod_lt _ (by decide)
  generalize w.toNat / 16 ^ (15 - i) % 16 = d at hlt
  have hall : ∀ d < 16, Nat.digitChar d ∈ "0123456789abcdef".toList := by decide
  exact hall d hlt

theorem generated_toList (default_hasher : ℕ → UInt64) (now : ℕ) :
    (generate_lock_token default_hasher now).toList =
      "opaquelocktoken:".toList ++ hex16 (default_hasher now) := by
  have htoken : generate_lock_token default_hasher now =
      "opaquelocktoken:" ++ String.ofList (hex16 (default_hasher now)) := rfl
  rw [htoken, String.toList_append]
  exact congrArg _ String.toList_ofList

theorem generated_chars (default_hasher : ℕ → UInt64) (now : ℕ) :
    ∀ c ∈ (generate_lock_token default_hasher now).toList,
      c ∈ "opaquelocktoken:0123456789abcdef".toList := by
  have hprefix : ∀ c ∈ "opaquelocktoken:".toList,
      c ∈ "opaquelocktoken:0123456789abcdef".toList := Text.forall_mem_of_all (by decide +kernel)
  have hdigits : ∀ c ∈ "0123456789abcdef".toList,
      c ∈ "opaquelocktoken:0123456789abcdef".toList := Text.forall_mem_of_all (by decide +kernel)
  intro c hc
  rw [generated_toList] at hc
  rcases List.mem_append.mp hc with h | h
  · exact hprefix c h
  · exact hdigits c (hex16_digits _ c h)

/-- Nothing is trimmed off a text none of whose characters is to go. -/
theorem untrimmed {P : Char → Bool} {t : List Char} (h : ∀ c ∈ t, P c = false) :
    t.dropWhile P = t ∧ t.rdropWhile P = t := by
  constructor
  · cases t with
    | nil => rfl
    | cons c t => exact List.dropWhile_cons_of_neg (by simp [h c List.mem_cons_self])
  · refine List.rdropWhile_eq_self_iff.mpr (fun hne => ?_)
    simp [h _ (List.getLast_mem hne)]

theorem trim_quoted {t : List Char} (hne : t ≠ [])
    (h : ∀ c ∈ t, c ≠ '<' ∧ c ≠ '>' ∧ c.isWhitespace = false) :
    trim (trim_matches '>' (trim_matches '<' (quoted t))) = t := by
  have hopen := @untrimmed (· = '<') t (fun c hc => by simp [(h c hc).1])
  have hclose := @untrimmed (· = '>') t (fun c hc => by simp [(h c hc).2.1])
  have hspace := @untrimmed Char.isWhitespace t (fun c hc => (h c hc).2.2)
  have hfront : ∀ P : Char → Bool, t.dropWhile P = t →
      (t ++ ['>']).dropWhile P = t ++ ['>'] := by
    intro P hP
    rw [List.dropWhile_append, hP, if_neg (by simp [hne])]
  have hleft : trim_matches '<' (quoted t) = t ++ ['>'] := by
    unfold trim_matches trim_end_matches quoted
    rw [List.dropWhile_cons_of_pos (by simp), hfront _ hopen.1,
      List.rdropWhile_concat_neg _ _ _ (by simp)]
  have hright : trim_matches '>' (t ++ ['>']) = t := by
    unfold trim_matches trim_end_matches
    rw [hfront _ hclose.1, List.rdropWhile_concat_pos _ _ _ (by simp), hclose.2]
  rw [hleft, hright]
  unfold trim
  rw [hspace.1, hspace.2]

/-- **The header of a granted token is read as the token.** -/
theorem parse_lock_token_generated {default_hasher : ℕ → UInt64} {now : ℕ} {headers : HeaderMap}
    (h : headers.lock_token = some (lock_token_value (generate_lock_token default_hasher now))) :
    parse_lock_token_header headers = some (generate_lock_token default_hasher now) := by
  have hchars := generated_chars default_hasher now
  have hquotable : ∀ c ∈ "opaquelocktoken:0123456789abcdef".toList,
      32 ≤ c.toNat ∧ c.toNat < 127 ∧ c ≠ '>' := Text.forall_mem_of_all (by decide +kernel)
  have hkept : ∀ c ∈ "opaquelocktoken:0123456789abcdef".toList,
      c ≠ '<' ∧ c ≠ '>' ∧ c.isWhitespace = false := Text.forall_mem_of_all (by decide +kernel)
  have hne : (generate_lock_token default_hasher now).toList ≠ [] := by
    rw [generated_toList]
    simp
  have hcarried := quoted_carried (fun c hc => hquotable c (hchars c hc))
  have htrim := trim_quoted hne (fun c hc => hkept c (hchars c hc))
  unfold parse_lock_token_header
  rw [h, Option.bind_some, lock_token_value, to_str_header_value hcarried, Option.map_some,
    htrim, String.ofList_toList]

/-! ## Release -/

/-- UNLOCK answers 204 and takes exactly the lock `l` out of the entry `p`. -/
def Releases (cwd : Path) (req : Request) (w : World) (p : Path) (l : LockInfo) : Prop :=
  (Server.handle_unlock cwd req w).1 = .ok .NO_CONTENT ∧
    (Server.handle_unlock cwd req w).2.app.locks.at p = (w.app.locks.at p).erase l ∧
    ∀ q, q ≠ p → (Server.handle_unlock cwd req w).2.app.locks.at q = w.app.locks.at q

/-- One lock of the entry has the token. -/
def Alone (token : String) (entry : List LockInfo) : Prop :=
  entry.countP (fun l => l.token = token) = 1

theorem filter_eq_erase_iff {entry : List LockInfo} {l : LockInfo} (hl : l ∈ entry) :
    entry.filter (fun x => x.token ≠ l.token) = entry.erase l ↔ Alone l.token entry := by
  have hcount := List.length_eq_countP_add_countP (fun x : LockInfo => decide (x.token = l.token))
    (l := entry)
  have hfilter : (entry.filter (fun x => x.token ≠ l.token)).length =
      entry.countP (fun x => !decide (x.token = l.token)) := by
    rw [List.countP_eq_length_filter]
    simp
  have herase := List.length_erase_of_mem hl
  have hpos := List.length_pos_of_mem hl
  unfold Alone
  constructor
  · intro heq
    rw [heq] at hfilter
    simp only [Bool.not_eq_true, Bool.decide_eq_false] at hcount
    omega
  · intro hone
    -- nothing before or after the lock has its token
    obtain ⟨pre, post, hpre, hentry, hsplit⟩ := List.exists_erase_eq hl
    rw [hentry, List.countP_append, List.countP_cons_of_pos (by simp)] at hone
    have hrest : ∀ x ∈ pre ++ post, x.token ≠ l.token := by
      intro x hx
      rcases List.mem_append.mp hx with h | h
      · have hzero : pre.countP (fun x => decide (x.token = l.token)) = 0 := by omega
        simpa using List.countP_eq_zero.mp hzero x h
      · have hzero : post.countP (fun x => decide (x.token = l.token)) = 0 := by omega
        simpa using List.countP_eq_zero.mp hzero x h
    rw [hsplit, hentry, List.filter_append, List.filter_cons_of_neg (by simp), ← List.filter_append]
    exact List.filter_eq_self.mpr (fun x hx => by simpa using hrest x hx)

/-- **When a lock can be released.** -/
theorem released_iff {os : Os} {cwd : Path} {clock : Server.Clock} {default_hasher : ℕ → UInt64}
    {lock_req unlock_req : Request} {w w' w₁ : World} {status : StatusCode} {p : Path}
    {l : LockInfo} {init : List Name} {n : Name}
    (hlock : Server.handle_lock os cwd clock default_hasher lock_req w = (.ok status, w'))
    (hl : l ∈ w'.app.locks.at p) (hnew : ∀ y ∈ w.app.locks.at p, y.token ≠ l.token)
    (hnames : names_of_text (request_text (trim_end_matches '/' lock_req.uri_path)) = init ++ [n])
    (hdir : w₁.app.root_dir = w.app.root_dir)
    (hcanonical : w₁.app.root_canonical = w.app.root_canonical)
    (hkept : l ∈ w₁.app.locks.at p)
    (hpath : unlock_req.uri_path = lock_req.uri_path)
    (htoken : unlock_req.headers.lock_token = some (lock_token_value l.token)) :
    Releases cwd unlock_req w₁ p l ↔
      Alone l.token (w₁.app.locks.at p) ∧
        Reached w₁.machine.fs cwd w.app.root_dir init n
          (decide (trim_end_matches '/' lock_req.uri_path ≠ lock_req.uri_path)) p := by
  -- the lock is new, so that its token is generated and its path the one resolved
  obtain ⟨hresolve, now, hgen⟩ := added_lock hlock hl hnew
  obtain ⟨hplain, init', n', pc, hnames', -, hroot, hp⟩ := resolve_and_guard_ok_iff.mp hresolve
  have hstart : p.starts_with w.app.root_canonical = true := by
    rw [hp]
    exact Path.starts_with_of_prefix hroot (List.prefix_append pc [n'])
  -- the header carries a generated token without loss
  have hheader : parse_lock_token_header unlock_req.headers = some l.token := by
    rw [hgen] at htoken ⊢
    exact parse_lock_token_generated htoken
  have hreach := @resolve_existing_iff w₁.machine.fs cwd w.app.root_dir init n lock_req.uri_path
    w.app.root_canonical p hplain hnames hstart
  have hresolved : w₁.resolve_existing cwd unlock_req.uri_path =
      resolve_existing w₁.machine.fs cwd w.app.root_dir w.app.root_canonical lock_req.uri_path := by
    rw [World.resolve_existing, hdir, hcanonical, hpath]
  -- a lock that is kept is one that can be removed
  have hne : (w₁.app.locks.at p).erase l ≠ w₁.app.locks.at p := by
    intro heq
    have hlen := List.length_erase_of_mem hkept
    have hpos := List.length_pos_of_mem hkept
    rw [heq] at hlen
    omega
  unfold Releases Server.handle_unlock Locks.handle_unlock
  rw [hheader, hresolved, ← filter_eq_erase_iff hkept, ← hreach]
  cases hr : resolve_existing w₁.machine.fs cwd w.app.root_dir w.app.root_canonical
      lock_req.uri_path with
  | none => simp
  | some q =>
    dsimp only
    simp only [with_locks_locks]
    rw [unlock_section_status]
    by_cases hq : q = p
    · subst hq
      rw [if_pos ⟨l, hkept, rfl⟩, at_unlock_section, if_pos rfl]
      refine ⟨fun h => ⟨h.2.1, rfl⟩, fun h => ⟨rfl, h.1, fun x hx => ?_⟩⟩
      rw [at_unlock_section, if_neg hx]
    · -- the entry of the lock is not touched
      constructor
      · intro h
        have hsame := h.2.1
        rw [at_unlock_section, if_neg (Ne.symm hq)] at hsame
        exact absurd hsame.symm hne
      · intro h
        exact absurd (Option.some_inj.mp h.2) hq

/-! ## A file and a link to it -/

def lock_of (uri_path : String) : Request where
  method := .LOCK
  uri_path := uri_path.toList
  headers := {}
  body := []
  lock_body := some LockEffects.empty_body
  proppatch_body := none
  propfind_body := none

/-- An UNLOCK that names the token of the reading 0. -/
def unlock_of (uri_path : String) : Request where
  method := .UNLOCK
  uri_path := uri_path.toList
  headers := { lock_token := some (lock_token_value (generate_lock_token (fun _ => 0) 0)) }
  body := []
  lock_body := none
  proppatch_body := none
  propfind_body := none

def file_f : Path := [f_name]

def link_l : Path := [l_name]

/-- A disk with a file `/f` and a link `/l` to it. -/
def disk_l : Fs :=
  (Fs.empty.set file_f (.file [1])).set link_l (.symlink (PathBuf.of_text "f".toList))

/-- The server on this disk. -/
def world_l : World := World.start (AppState.new disk_l [] (PathBuf.of_text "/".toList) 0) disk_l

/-- The world after a LOCK. -/
def locked_l (uri_path : String) : World :=
  (Server.handle_lock Os.calm [] ⟨0, 1, 2⟩ (fun _ => 0) (lock_of uri_path) world_l).2

/-- The lock a LOCK without body and headers adds. -/
def lock_l : LockInfo where
  scope := .Exclusive
  token := generate_lock_token (fun _ => 0) 0
  owner := none
  created := 2
  timeout := none
  depth := .Infinity

theorem file_granted :
    Server.handle_lock Os.calm [] ⟨0, 1, 2⟩ (fun _ => 0) (lock_of "/f") world_l =
      (.ok .OK, locked_l "/f") := Prod.ext (by decide) rfl

theorem link_granted :
    Server.handle_lock Os.calm [] ⟨0, 1, 2⟩ (fun _ => 0) (lock_of "/l") world_l =
      (.ok .OK, locked_l "/l") := Prod.ext (by decide) rfl

theorem released_iff_f :
    Releases [] (unlock_of "/f") (locked_l "/f") file_f lock_l ↔
      Alone lock_l.token ((locked_l "/f").app.locks.at file_f) ∧
        Reached (locked_l "/f").machine.fs [] world_l.app.root_dir [] f_name
          (decide (trim_end_matches '/' (lock_of "/f").uri_path ≠ (lock_of "/f").uri_path)) file_f :=
  released_iff file_granted (by decide) (by decide) (by decide) rfl rfl (by decide) rfl rfl

/-- A lock taken through a link cannot be released through it. -/
theorem link_not_released :
    lock_l ∈ (locked_l "/l").app.locks.at link_l ∧ lock_l.is_expired 3 = false ∧
      (∀ y ∈ world_l.app.locks.at link_l, y.token ≠ lock_l.token) ∧
      Server.handle_lock Os.calm [] ⟨0, 1, 2⟩ (fun _ => 0) (lock_of "/l") world_l =
        (.ok .OK, locked_l "/l") ∧
      (locked_l "/l").machine.fs.node link_l ≠ none ∧
      (unlock_of "/l").headers.lock_token = some (lock_token_value lock_l.token) ∧
      ¬ Releases [] (unlock_of "/l") (locked_l "/l") link_l lock_l := by
  refine ⟨by decide, by decide, by decide, link_granted, by decide, rfl, fun h => ?_⟩
  have hreply : (Server.handle_unlock [] (unlock_of "/l") (locked_l "/l")).1 =
      .error .FORBIDDEN := by decide
  have hok := h.1
  rw [hreply] at hok
  cases hok

end Rshs.Release
