/-
Each write request as a command on the hierarchy that is served.

`Acted` is what a request has done: whatever becomes of it, it has stayed within the scope
of its command, and the served tree is a ground again; and if it was performed, the tree is
the one that the command leaves. There is one such lemma for PUT, MKCOL, DELETE and LOCK,
and for the phases of COPY and MOVE, whatever the system calls do.
-/
import Rshs.ServedRoot

set_option autoImplicit false

namespace Rshs.StoreSteps

open StdPath Posix Hierarchy Rshs.Webdav Rshs.Resolve Rshs.App Rshs.Http Rshs.CopyMove
open Rshs.CopyRun Rshs.Transfer Rshs.Replace Rshs.Grounds Rshs.ServedRoot

/-! ## What a request has done -/

structure Acted (R : Path) (t : Files) (c : Command Name (List UInt8)) (performed : Prop)
    (fs fs' : Fs) : Prop where
  within : Within R (c.Scope t) c.Fills fs fs'
  effect : performed → ∃ ha : c.Allowed t, Shows R fs' (t.perform c ha)

section Acted

variable {R : Path} {t : Files} {c : Command Name (List UInt8)} {performed : Prop} {fs fs' : Fs}

/-- Nothing was done. -/
theorem Acted.nothing (hg : Ground R fs) (hno : ¬ performed) : Acted R t c performed fs fs :=
  ⟨Within.refl hg, fun h => absurd h hno⟩

/-- A request that has acted is a step of the hierarchy. -/
theorem Acted.step [Decidable performed] (h : Acted R t c performed fs fs') (ht : Shows R fs t) :
    ∃ t', Shows R fs' t' ∧ Step t (c, decide performed) t' := by
  by_cases hp : performed
  · obtain ⟨ha, hshows⟩ := h.effect hp
    rw [decide_eq_true hp]
    exact ⟨_, hshows, ha, rfl⟩
  · rw [decide_eq_false hp]
    exact ⟨_, h.within.ground.shows, h.within.step ht⟩

end Acted

/-! ## The requests of one path -/

section Single

variable {os : Os} {cwd R : Path} {req : Request} {w : World} {t : Files} {s : List Name}

/-- A file that is opened anew and written. -/
theorem node_written {fs : Fs} {bytes : List UInt8} (hslot : fs.Slot (R ++ s)) (a : Path) :
    ((fs.set (R ++ s) (.file [])).set (R ++ s) (.file bytes)).node a
      = if a = R ++ s then some (node_of (.file bytes)) else fs.node a := node_fill hslot a

/-- **PUT** stores its body. -/
theorem handle_put_acted (h : Serving cwd R w.app w.machine.fs) (ht : Shows R w.machine.fs t) :
    Acted R t (.store (target_names req.uri_path) req.body)
      (∃ status, (handle_put os cwd req w).1 = .ok status) w.machine.fs
      (handle_put os cwd req w).2.machine.fs := by
  unfold handle_put
  have hw := guard_machine w cwd req.uri_path
  rcases hr : w.resolve_and_guard cwd req.uri_path with ⟨r, w'⟩
  rw [hr] at hw
  dsimp only at hw
  cases r with
  | error e =>
    dsimp only
    rw [hw]
    exact Acted.nothing h.ground (by simp)
  | ok target =>
    have hguard : (w.resolve_and_guard cwd req.uri_path).1 = .ok target := by rw [hr]
    obtain ⟨-, hne, rfl⟩ := h.guard hguard
    dsimp only
    rw [aim_machine, hw]
    rcases create_cases os (R ++ target_names req.uri_path) w.machine with
      ⟨e, hc⟩ | ⟨loc, hl, hslot, hc⟩
    · rw [hc]
      exact Acted.nothing h.ground (by simp)
    · rw [hc]
      dsimp only
      obtain ⟨rfl, hroom⟩ := (h.ground.locate_iff hne).mp hl
      have hleaf : t.entry (target_names req.uri_path) ≠ some .folder :=
        fun hf => hslot.2.2 (ht.folder_iff.mpr hf)
      rcases write_cases os (R ++ target_names req.uri_path) req.body
          (w.machine.tick.set (R ++ target_names req.uri_path) (.file [])) with ⟨k, hwr⟩ | hwr
      · -- a part of the body is there
        rw [hwr]
        exact ⟨Within.made h.ground hroom rfl rfl (node_written hslot), by simp⟩
      · rw [hwr]
        refine ⟨Within.made h.ground hroom rfl rfl (node_written hslot), fun _ => ?_⟩
        exact ⟨⟨ht.place hroom, hleaf⟩,
          ht.put (e := .file req.body) (ht.place hroom) (Or.inr hleaf) (node_written hslot)⟩

/-- An entry that is made where there was none. -/
theorem make_acted {e : Entry (List UInt8)} {m : Machine} (hg : Ground R m.fs) (ht : Shows R m.fs t)
    (hs : s ≠ []) :
    Acted R t (.make s e) ((make os (node_of e) (R ++ s) m).1 = .ok ()) m.fs
      (make os (node_of e) (R ++ s) m).2.fs := by
  rcases make_cases os (node_of e) (R ++ s) m with ⟨err, hm⟩ | ⟨loc, hl, hnone, hslot, hm⟩
  · rw [hm]
    exact Acted.nothing hg (by simp)
  · rw [hm]
    obtain ⟨rfl, hroom⟩ := (hg.locate_entry_iff hs).mp hl
    have habsent := ht.none_iff.mp hnone
    have hnode : ∀ a, (m.fs.set (R ++ s) (node_of e)).node a =
        if a = R ++ s then some (node_of e) else m.fs.node a := Fs.node_set hslot
    refine ⟨Within.made hg hroom ⟨rfl, habsent⟩ rfl hnode, fun _ => ?_⟩
    exact ⟨⟨ht.place hroom, habsent⟩,
      ht.put (ht.place hroom) (Or.inr (by rw [habsent]; exact nofun)) hnode⟩

/-- What could not be made has changed nothing. -/
theorem make_fails {e : Entry (List UInt8)} {m : Machine}
    (hno : (make os (node_of e) (R ++ s) m).1 ≠ .ok ()) :
    (make os (node_of e) (R ++ s) m).2.fs = m.fs := by
  rcases make_cases os (node_of e) (R ++ s) m with ⟨err, hm⟩ | ⟨loc, -, -, -, hm⟩
  · rw [hm]
    rfl
  · rw [hm] at hno
    exact absurd rfl hno

/-- **MKCOL** makes a folder. -/
theorem handle_mkcol_acted (h : Serving cwd R w.app w.machine.fs) (ht : Shows R w.machine.fs t) :
    Acted R t (.make (target_names (trim_end_matches '/' req.uri_path)) .folder)
      (∃ status, (handle_mkcol os cwd req w).1 = .ok status) w.machine.fs
      (handle_mkcol os cwd req w).2.machine.fs := by
  unfold handle_mkcol
  split
  · exact Acted.nothing h.ground (by simp)
  · dsimp only
    have hw := guard_machine w cwd (trim_end_matches '/' req.uri_path)
    rcases hr : w.resolve_and_guard cwd (trim_end_matches '/' req.uri_path) with ⟨r, w'⟩
    rw [hr] at hw
    dsimp only at hw
    cases r with
    | error e =>
      dsimp only
      rw [hw]
      exact Acted.nothing h.ground (by simp)
    | ok target =>
      have hguard : (w.resolve_and_guard cwd (trim_end_matches '/' req.uri_path)).1 = .ok target := by
        rw [hr]
      obtain ⟨-, hne, rfl⟩ := h.guard hguard
      dsimp only
      rw [hw]
      split
      · rw [hw]
        exact Acted.nothing h.ground (by simp)
      · rw [aim_machine, hw]
        have hmade := @make_acted os R t _ .folder w.machine h.ground ht hne
        rcases hc : create_dir os (R ++ target_names (trim_end_matches '/' req.uri_path)) w.machine
          with ⟨e | u, m⟩
        all_goals
          rw [show make os (node_of .folder) (R ++ target_names (trim_end_matches '/' req.uri_path))
            w.machine = _ from hc] at hmade
        · exact ⟨hmade.within, by simp⟩
        · exact ⟨hmade.within, fun _ => hmade.effect rfl⟩

/-- **DELETE** removes what was found for its URL. -/
theorem handle_delete_acted (h : Serving cwd R w.app w.machine.fs) (ht : Shows R w.machine.fs t)
    (hs : ∀ p, w.resolve_existing cwd req.uri_path = some p → p = R ++ s) :
    Acted R t (.remove s) (∃ status, (handle_delete os cwd req w).1 = .ok status) w.machine.fs
      (handle_delete os cwd req w).2.machine.fs := by
  unfold handle_delete
  split
  · exact Acted.nothing h.ground (by simp)
  · rename_i p hfound
    obtain rfl := hs p hfound
    have hsome := (resolve_existing_real hfound).ne_none
    have hentry : t.entry s ≠ none := fun hnone => hsome (ht.none_iff.mpr hnone)
    -- what is removed at the place of the path is pruned
    have hpruned : s ≠ [] → ∀ loc, locate_entry w.machine.fs (R ++ s) = .ok loc →
        Within R ((Command.remove (β := List UInt8) s).Scope t) (Command.remove (β := List UInt8) s).Fills
            w.machine.fs (w.machine.fs.prune loc) ∧
          ∃ ha : (Command.remove s).Allowed t, Shows R (w.machine.fs.prune loc) (t.perform _ ha) := by
      intro hne loc hl
      obtain ⟨rfl, -⟩ := (h.ground.locate_entry_iff hne).mp hl
      refine ⟨Within.less h.ground (Fs.keeps_prune _) hne (fun a ha => ?_) (fun r hr => hr),
        ⟨hne, hentry⟩, ht.prune hne⟩
      rw [Fs.node_prune (by simp [hne]), if_neg ha]
    split
    · exact Acted.nothing h.ground (by simp)
    · rename_i file_type hmeta
      split
      · split
        · exact Acted.nothing h.ground (by simp)
        · rename_i hroot
          have hne : s ≠ [] := by
            rintro rfl
            rw [List.append_nil] at hroot
            exact hroot h.canonical.symm
          dsimp only
          rw [aim_machine]
          rcases remove_dir_all_cases os (R ++ s) w.machine with
            ⟨e, hr⟩ | ⟨loc, hl, ⟨chosen, -, hr⟩ | ⟨-, -, hr⟩⟩
          · rw [hr]
            exact Acted.nothing h.ground (by simp)
          · -- the removal failed on its way
            rw [hr]
            obtain ⟨rfl, -⟩ := (h.ground.locate_entry_iff hne).mp hl
            refine ⟨Within.less h.ground (Fs.keeps_without _) hne (fun a ha => ?_) (fun r hr => hr),
              by simp⟩
            exact sweep_node a fun hb => ha hb.1
          · rw [hr]
            obtain ⟨hwithin, heffect⟩ := hpruned hne loc hl
            exact ⟨hwithin, fun _ => heffect⟩
      · rename_i hdir
        have hne : s ≠ [] := by
          rintro rfl
          obtain ⟨x, hx, hxt⟩ := h.ground.metadata_iff.mp hmeta
          rw [List.append_nil, h.ground.root] at hx
          cases hx
          exact hdir hxt.symm
        dsimp only
        rw [aim_machine]
        rcases remove_file_cases os (R ++ s) w.machine with ⟨e, hr⟩ | ⟨loc, hl, -, -, hr⟩
        · rw [hr]
          exact Acted.nothing h.ground (by simp)
        · rw [hr]
          obtain ⟨hwithin, heffect⟩ := hpruned hne loc hl
          exact ⟨hwithin, fun _ => heffect⟩

/-- **LOCK** makes an empty file where there is nothing, or changes nothing. -/
theorem handle_lock_acted {clock : Server.Clock} {default_hasher : ℕ → UInt64}
    (h : Serving cwd R w.app w.machine.fs) (ht : Shows R w.machine.fs t) :
    Acted R t (.make (target_names (trim_end_matches '/' req.uri_path)) (.file []))
      ((Server.handle_lock os cwd clock default_hasher req w).2.machine.fs ≠ w.machine.fs)
      w.machine.fs (Server.handle_lock os cwd clock default_hasher req w).2.machine.fs := by
  unfold Server.handle_lock
  dsimp only
  have hw := guard_machine w cwd (trim_end_matches '/' req.uri_path)
  rcases hr : w.resolve_and_guard cwd (trim_end_matches '/' req.uri_path) with ⟨r, w'⟩
  rw [hr] at hw
  dsimp only at hw
  cases r with
  | error e =>
    dsimp only
    rw [hw]
    exact Acted.nothing h.ground (by simp)
  | ok target =>
    have hguard : (w.resolve_and_guard cwd (trim_end_matches '/' req.uri_path)).1 = .ok target := by
      rw [hr]
    obtain ⟨-, hne, rfl⟩ := h.guard hguard
    dsimp only
    split
    · rw [hw]
      exact Acted.nothing h.ground (by simp)
    · split
      · rw [with_locks_machine, hw]
        exact Acted.nothing h.ground (by simp)
      · rw [with_locks_machine, hw]
        have hmade := @make_acted os R t _ (.file []) w.machine h.ground ht hne
        have hsame := @make_fails os R (target_names (trim_end_matches '/' req.uri_path)) (.file [])
          w.machine
        rcases hc : create_new os (R ++ target_names (trim_end_matches '/' req.uri_path)) w.machine
          with ⟨rc, m⟩
        rw [show make os (node_of (.file [])) (R ++ target_names (trim_end_matches '/' req.uri_path))
          w.machine = _ from hc] at hmade hsame
        -- what changes the tree has made the file
        have hdone : m.fs ≠ w.machine.fs → rc = .ok () := fun hne' => by
          by_contra hno
          exact hne' (hsame hno)
        dsimp only
        split
        · exact ⟨hmade.within, fun hne' => hmade.effect (hdone hne')⟩
        · exact ⟨hmade.within, fun hne' => hmade.effect (hdone hne')⟩

end Single

end Rshs.StoreSteps
