/-
A COPY or MOVE whose source and destination are the same file or directory.

The guard of `do_move_or_copy` compares the source's real path with the root, as it
was spelled, joined with the destination. `Spelled` says when the two have the same
components; only then does the guard see that the paths are one, and otherwise no
later test answers 403.
-/
import Rshs.CopyMove

set_option autoImplicit false

namespace Rshs.SelfCopy

open StdPath Posix Rshs.Webdav Rshs.Resolve Rshs.App Rshs.CopyMove

/-- Every file still has its content. -/
def SameContent (fs fs' : Fs) : Prop :=
  ∀ p c, fs.node p = some (.file c) → fs'.node p = some (.file c)

section Main

variable {os : Os} {cwd : Path} {fuel : ℕ} {req : Request} {is_move : Bool} {w : World}
  {text : List Char} {src dest : Path}

/-- **When a COPY or MOVE onto itself is rejected and harmless.** With a source and a
destination that lead to the same file or directory: the reply is 403 and every file
keeps its content, if and only if the destination spells the source's real path from
the root as it was given. -/
theorem self_copy_rejected_iff (htext : parse_destination req.headers = some text)
    (hsrc : w.resolve_existing cwd req.uri_path = some src)
    (hdest : (w.resolve_and_guard cwd text).1 = .ok dest)
    (_hsame : follow w.machine.fs dest = .ok src) :
    ((do_move_or_copy os cwd fuel req is_move w).1.map response_status = some .FORBIDDEN ∧
        SameContent w.machine.fs (do_move_or_copy os cwd fuel req is_move w).2.machine.fs) ↔
      Spelled w.app.root_dir text src := by
  constructor
  · rintro ⟨hstatus, -⟩
    by_contra hspelled
    rw [guard_misses htext hsrc hdest hspelled] at hstatus
    rcases ht : transfer os fuel req is_move src dest (w.resolve_and_guard cwd text).2
      with ⟨_ | r, w'⟩
    · rw [ht] at hstatus
      cases hstatus
    · rw [ht] at hstatus
      -- no reply after the guard is a 403
      rcases transfer_reply ht with rfl | rfl | rfl | rfl | rfl
      all_goals cases hstatus
  · intro hspelled
    rw [guard_hits htext hsrc (resolve_and_guard_ok_iff.mp hdest).1 hspelled]
    exact ⟨rfl, fun p c h => h⟩

end Main

/-! ## The default root -/

def copy_request : Request where
  method := .COPY
  uri_path := "/f".toList
  headers := { destination := some (Text.utf8_encode "/f".toList) }
  body := []
  lock_body := none
  proppatch_body := none
  propfind_body := none

def srv : Path := [r_name]

def srv_f : Path := [r_name, f_name]

/-- A directory `/r` with one file `f`. -/
def disk_srv : Fs := (Fs.empty.set srv .dir).set srv_f (.file [1])

/-- Served from `/r`, with the root spelled as the text says. -/
def served_from (root : String) : World :=
  World.start (AppState.new disk_srv srv (PathBuf.of_text root.toList) 0) disk_srv

theorem self_copy_rejected_absolute :
    ((do_move_or_copy Os.calm srv 0 copy_request false (served_from "/r")).1.map response_status
          = some .FORBIDDEN ∧
        SameContent (served_from "/r").machine.fs
          (do_move_or_copy Os.calm srv 0 copy_request false (served_from "/r")).2.machine.fs) ↔
      Spelled (served_from "/r").app.root_dir "/f".toList srv_f :=
  self_copy_rejected_iff (by decide) (by decide)
    (show ((served_from "/r").resolve_and_guard srv "/f".toList).1 = .ok srv_f by decide) (by decide)

/-- With the root `.` a COPY of `/f` onto `/f` is answered with 204, and `/f` is
empty afterwards. -/
theorem self_copy_truncates :
    ¬ (parse_destination copy_request.headers = some "/f".toList →
        (served_from ".").resolve_existing srv copy_request.uri_path = some srv_f →
        ((served_from ".").resolve_and_guard srv "/f".toList).1 = .ok srv_f →
        follow (served_from ".").machine.fs srv_f = .ok srv_f →
        (do_move_or_copy Os.calm srv 0 copy_request false (served_from ".")).1.map response_status
            = some .FORBIDDEN ∧
          SameContent (served_from ".").machine.fs
            (do_move_or_copy Os.calm srv 0 copy_request false (served_from ".")).2.machine.fs) := by
  intro h
  obtain ⟨-, hcontent⟩ := h (by decide) (by decide) (by decide) (by decide)
  have hbefore : (served_from ".").machine.fs.node srv_f = some (.file [1]) := by decide
  have hafter : (do_move_or_copy Os.calm srv 0 copy_request false
      (served_from ".")).2.machine.fs.node srv_f = some (.file []) := by decide
  have hkept := hcontent _ _ hbefore
  rw [hafter] at hkept
  cases hkept

end Rshs.SelfCopy
