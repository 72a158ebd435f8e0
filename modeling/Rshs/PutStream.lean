/-
PUT, with its body as the stream it is read from.

`Http.handle_put` writes the whole body at once and leaves open what a failing
transfer has written. Here the body arrives in chunks, the stream may fail after any
of them, and so may each write and the flush. `streamed_is_put` is the connection:
whatever happens to the stream is something that can happen to the one write.

The file is opened with `File::create`, which truncates it, before the first chunk is
read. `tokio::io::copy` reads into a buffer of its own and goes on reading while the
file is busy with its last write, so that a stream that fails takes with it what the
buffer held. A failure after the opening leaves the part of the body that has been
written (`put_error_leaves`).
-/
import Rshs.Http

set_option autoImplicit false

namespace Rshs.PutStream

open StdPath Posix Rshs.Webdav Rshs.Resolve Rshs.App Rshs.Http

/-! ## The body -/

/-- The chunks a body stream delivers, and whether an error comes after them. -/
structure BodyStream where
  chunks : List (List UInt8)
  fails : Bool

def BodyStream.bytes (s : BodyStream) : List UInt8 := s.chunks.flatten

section Handler

variable (os : Os)

/-- The buffer of `tokio::io::copy`: 8 KiB. -/
def DEFAULT_BUF_SIZE : ℕ := 8 * 1024

/-- `StreamReader::poll_read`: the next bytes of the chunk at hand, as many as there is
room for, and what is left of the stream. Empty chunks are passed over. -/
def poll_read (room : ℕ) : List (List UInt8) → Option (List UInt8 × List (List UInt8))
  | [] => none
  | [] :: chunks => poll_read room chunks
  | chunk :: chunks => some (chunk.take room, chunk.drop room :: chunks)

variable (busy : ℕ → Bool)

/-- The rounds of `tokio::io::copy`, at most `rounds` of them: one read into the buffer,
then a write of the buffer. While the file is at its last write (`busy`, asked after so
many bytes) and there is room, the copy reads on instead. A stream that fails ends the
copy at once, and what is in the buffer is not written. -/
def copy_rounds (file : Path) (fails : Bool) : ℕ → List (List UInt8) → List UInt8 → List UInt8 →
    Machine → IoResult (List UInt8) × Machine
  | 0, _, _, _, m => (.error .Other, m)
  | rounds + 1, chunks, buffer, written, m =>
    match poll_read (DEFAULT_BUF_SIZE - buffer.length) chunks with
    | none =>
      if fails then (.error .Other, m)
      else if buffer = [] then (.ok written, m)
      else
        match write os file (written ++ buffer) m with
        | (.error e, m) => (.error e, m)
        | (.ok (), m) => (.ok (written ++ buffer), m)
    | some (piece, chunks) =>
      let buffer := buffer ++ piece
      if written ≠ [] ∧ buffer.length < DEFAULT_BUF_SIZE ∧ busy (written ++ buffer).length then
        copy_rounds file fails rounds chunks buffer written m
      else
        match write os file (written ++ buffer) m with
        | (.error e, m) => (.error e, m)
        | (.ok (), m) => copy_rounds file fails rounds chunks [] (written ++ buffer) m

/-- `tokio::io::copy` into the file that was just opened. Every read has at least one
byte, or is the last. A write that fails may have lost earlier bytes too; what is in
the file then is a part of what was sent. -/
def io_copy (file : Path) (stream : BodyStream) (m : Machine) : IoResult (List UInt8) × Machine :=
  copy_rounds os busy file stream.fails (stream.bytes.length + 1) stream.chunks [] [] m

/-- `File::flush`: the last write is waited for. -/
def flush (file : Path) (written : List UInt8) (m : Machine) : IoResult Unit × Machine :=
  write os file written m

variable (cwd : Path) (req : Request)

/-- `handle_put`, on the stream of its body. -/
def handle_put_stream (stream : BodyStream) (w : World) : AppResult × World :=
  match w.resolve_and_guard cwd req.uri_path with
  | (.error e, w) => (.error (e.status .BAD_REQUEST), w)
  | (.ok target, w) =>
    let existed := (metadata w.machine.fs target).isOk
    let w := w.aim (.guarded target)
    match create os target w.machine with
    | (.error _, m) => (.error .INTERNAL_SERVER_ERROR, w.on m)
    | (.ok file, m) =>
      match io_copy os busy file stream m with
      | (.error _, m) => (.error .INTERNAL_SERVER_ERROR, w.on m)
      | (.ok bytes_written, m) =>
        match flush os file bytes_written m with
        | (.error _, m) => (.error .INTERNAL_SERVER_ERROR, w.on m)
        | (.ok (), m) => (.ok (if existed then .OK else .CREATED), w.on m)

end Handler

/-! ## What a transfer leaves -/

/-- The file has these bytes, and everything else is as it was. -/
def Filled (fs fs' : Fs) (file : Path) (bytes : List UInt8) : Prop :=
  fs'.node file = some (.file bytes) ∧ ∀ q, q ≠ file → fs'.node q = fs.node q

section Transfer

variable (os : Os) {file : Path}

theorem filled_set {fs fs' : Fs} {old bytes : List UInt8} (h : Filled fs fs' file old)
    (hslot : fs'.Slot file) : Filled fs (fs'.set file (.file bytes)) file bytes := by
  constructor
  · rw [Fs.node_set hslot, if_pos rfl]
  · intro q hq
    rw [Fs.node_set hslot, if_neg hq]
    exact h.2 q hq

/-- What a read takes is the first of what is left, and it fits. -/
theorem poll_read_cases (room : ℕ) (chunks : List (List UInt8)) :
    (poll_read room chunks = none ∧ chunks.flatten = []) ∨
      ∃ piece rest, poll_read room chunks = some (piece, rest) ∧
        piece ++ rest.flatten = chunks.flatten ∧ piece.length ≤ room ∧ (0 < room → piece ≠ []) := by
  induction chunks with
  | nil => exact Or.inl ⟨rfl, rfl⟩
  | cons chunk chunks ih =>
    cases chunk with
    | nil => simpa [poll_read] using ih
    | cons b bs =>
      refine Or.inr ⟨_, _, rfl, ?_, List.length_take_le _ _, fun hroom => ?_⟩
      · rw [List.flatten_cons, ← List.append_assoc, List.take_append_drop, List.flatten_cons]
      · obtain ⟨n, rfl⟩ : ∃ n, room = n + 1 := ⟨room - 1, by omega⟩
        exact List.cons_ne_nil _ _

/-- A write while the file has `old`: all of `bytes` is in it, or a part is. -/
theorem write_cases {fs : Fs} {m : Machine} {old : List UInt8} (bytes : List UInt8)
    (h : Filled fs m.fs file old) (hslot : m.fs.Slot file) :
    (∃ m', write os file bytes m = (.ok (), m') ∧ Filled fs m'.fs file bytes ∧ m'.fs.Slot file) ∨
      ∃ e part m', write os file bytes m = (.error e, m') ∧ os.fault m.calls = true ∧
        part <+: bytes ∧ Filled fs m'.fs file part ∧ m'.fs.Slot file := by
  cases hf : os.fault m.calls with
  | false => exact Or.inl ⟨_, write_ok hf, filled_set h hslot, slot_set hslot⟩
  | true =>
    exact Or.inr ⟨_, _, _, write_fault hf, rfl, List.take_prefix _ _, filled_set h hslot,
      slot_set hslot⟩

/-- What the rounds can come to: they deliver all that is left, or they stop and a part
of the body is in the file. The induction is on the rounds; every one that goes on has
taken a byte off the stream. -/
theorem copy_rounds_cases (busy : ℕ → Bool) {fs : Fs} (fails : Bool) {rounds : ℕ}
    {chunks : List (List UInt8)} (buffer : List UInt8) {written : List UInt8} {m : Machine}
    (henough : chunks.flatten.length < rounds) (hroom : buffer.length < DEFAULT_BUF_SIZE)
    (h : Filled fs m.fs file written) (hslot : m.fs.Slot file) :
    ∃ bytes m', Filled fs m'.fs file bytes ∧ m'.fs.Slot file ∧
      bytes <+: written ++ (buffer ++ chunks.flatten) ∧
      ((fails = false ∧ bytes = written ++ (buffer ++ chunks.flatten) ∧
          copy_rounds os busy file fails rounds chunks buffer written m = (.ok bytes, m')) ∨
        ∃ e, (fails = true ∨ ∃ k, os.fault k = true) ∧
          copy_rounds os busy file fails rounds chunks buffer written m = (.error e, m')) := by
  -- each round takes a byte off the stream at least, or is the last
  induction rounds generalizing chunks buffer written m with
  | zero => omega
  | succ rounds ih =>
    unfold copy_rounds
    rcases poll_read_cases (DEFAULT_BUF_SIZE - buffer.length) chunks with
      ⟨hread, hnone⟩ | ⟨piece, rest, hread, hall, hfits, hsome⟩
    · -- the end of the stream: an error loses the buffer, else it is written
      rw [hread, hnone, List.append_nil]
      dsimp only
      cases fails with
      | true => exact ⟨written, m, h, hslot, List.prefix_append _ _, Or.inr ⟨_, Or.inl rfl, rfl⟩⟩
      | false =>
        rw [if_neg Bool.false_ne_true]
        split
        · rename_i hbuf
          rw [hbuf, List.append_nil]
          exact ⟨written, m, h, hslot, List.prefix_rfl, Or.inl ⟨rfl, rfl, rfl⟩⟩
        · rcases write_cases os (written ++ buffer) h hslot with
            ⟨m', hw, hfilled, hslot'⟩ | ⟨e, part, m', hw, hf, hpart, hfilled, hslot'⟩
          · rw [hw]
            exact ⟨_, m', hfilled, hslot', List.prefix_rfl, Or.inl ⟨rfl, rfl, rfl⟩⟩
          · rw [hw]
            exact ⟨part, m', hfilled, hslot', hpart, Or.inr ⟨e, Or.inr ⟨_, hf⟩, rfl⟩⟩
    · rw [hread]
      dsimp only
      have hpos : 0 < piece.length := List.length_pos_iff.mpr (hsome (by omega))
      have hfewer : rest.flatten.length < rounds := by
        rw [← hall, List.length_append] at henough
        omega
      have hrest : buffer ++ chunks.flatten = buffer ++ piece ++ rest.flatten := by
        rw [List.append_assoc, hall]
      rw [hrest]
      split
      · -- the file is busy: the copy reads on
        rename_i hbusy
        exact ih _ hfewer hbusy.2.1 h hslot
      · rcases write_cases os (written ++ (buffer ++ piece)) h hslot with
          ⟨m', hw, hfilled, hslot'⟩ | ⟨e, part, m', hw, hf, hpart, hfilled, hslot'⟩
        · rw [hw]
          have hrec := ih [] hfewer (by decide) hfilled hslot'
          rwa [List.nil_append, List.append_assoc] at hrec
        · rw [hw]
          refine ⟨part, m', hfilled, hslot', hpart.trans ?_, Or.inr ⟨e, Or.inr ⟨_, hf⟩, rfl⟩⟩
          exact (List.prefix_append_right_inj _).mpr (List.prefix_append _ _)

/-- What a transfer can do: it delivers the whole body, or it stops and a part of the
body is in the file. -/
theorem io_copy_cases (busy : ℕ → Bool) {fs : Fs} (stream : BodyStream) {m : Machine}
    (h : Filled fs m.fs file []) (hslot : m.fs.Slot file) :
    ∃ bytes m', Filled fs m'.fs file bytes ∧ m'.fs.Slot file ∧ bytes <+: stream.bytes ∧
      ((stream.fails = false ∧ bytes = stream.bytes ∧
          io_copy os busy file stream m = (.ok bytes, m')) ∨
        ∃ e, (stream.fails = true ∨ ∃ k, os.fault k = true) ∧
          io_copy os busy file stream m = (.error e, m')) :=
  copy_rounds_cases os busy stream.fails [] (Nat.lt_succ_self _) (by decide) h hslot

end Transfer

/-! ## What an error leaves -/

section Error

/-- The handler behind the resolution of its path. -/
theorem handle_put_stream_resolved (os : Os) (busy : ℕ → Bool) {cwd target : Path} {req : Request}
    (stream : BodyStream) {w : World} (hg : (w.resolve_and_guard cwd req.uri_path).1 = .ok target) :
    (∃ e, create os target w.machine = (.error e, w.machine.tick) ∧
        (handle_put_stream os busy cwd req stream w).1 = .error .INTERNAL_SERVER_ERROR ∧
        (handle_put_stream os busy cwd req stream w).2.machine.fs = w.machine.fs) ∨
      ∃ file m, create os target w.machine = (.ok file, m) ∧
        ∃ bytes, bytes <+: stream.bytes ∧
          Filled w.machine.fs (handle_put_stream os busy cwd req stream w).2.machine.fs file bytes ∧
          (((handle_put_stream os busy cwd req stream w).1 = .error .INTERNAL_SERVER_ERROR ∧
              (stream.fails = true ∨ ∃ k, os.fault k = true)) ∨
            ((handle_put_stream os busy cwd req stream w).1 =
                .ok (if (metadata w.machine.fs target).isOk then .OK else .CREATED) ∧
              stream.fails = false ∧ bytes = stream.bytes)) := by
  unfold handle_put_stream
  have hw := guard_machine w cwd req.uri_path
  rcases hr : w.resolve_and_guard cwd req.uri_path with ⟨r, w'⟩
  rw [hr] at hg hw
  dsimp only at hg hw
  subst hg
  dsimp only
  rw [aim_machine, hw]
  rcases create_cases os target w.machine with ⟨e, hc⟩ | ⟨file, -, hslot, hc⟩
  · rw [hc]
    exact Or.inl ⟨e, rfl, rfl, rfl⟩
  · right
    rw [hc]
    refine ⟨file, _, rfl, ?_⟩
    dsimp only
    have hopened : Filled w.machine.fs (w.machine.tick.set file (.file [])).fs file [] := by
      constructor
      · rw [set_fs, tick_fs, Fs.node_set hslot, if_pos rfl]
      · intro q hq
        rw [set_fs, tick_fs, Fs.node_set hslot, if_neg hq]
    obtain ⟨bytes, m', hfilled, hslot', hpre, ⟨hok, hall, heq⟩ | ⟨e, hwhy, heq⟩⟩ :=
      io_copy_cases os busy stream hopened (slot_set hslot)
    · -- all has arrived: the flush is left
      rw [heq]
      dsimp only
      unfold flush
      rcases write_cases os bytes hfilled hslot' with
        ⟨m₂, hw, hfilled₂, -⟩ | ⟨e, part, m₂, hw, hf, hpart, hfilled₂, -⟩
      · rw [hw]
        exact ⟨bytes, hpre, hfilled₂, Or.inr ⟨rfl, hok, hall⟩⟩
      · rw [hw]
        exact ⟨part, hpart.trans hpre, hfilled₂, Or.inl ⟨rfl, Or.inr ⟨_, hf⟩⟩⟩
    · rw [heq]
      exact ⟨bytes, hpre, hfilled, Or.inl ⟨rfl, hwhy⟩⟩

/-- A stream that fails is answered with 500, once the target is resolved. -/
theorem failing_stream_errors (os : Os) (busy : ℕ → Bool) {cwd target : Path} {req : Request}
    {stream : BodyStream} {w : World}
    (hg : (w.resolve_and_guard cwd req.uri_path).1 = .ok target) (hfails : stream.fails = true) :
    (handle_put_stream os busy cwd req stream w).1 = .error .INTERNAL_SERVER_ERROR := by
  rcases handle_put_stream_resolved os busy stream hg with
    ⟨e, -, herr, -⟩ | ⟨_, _, -, _, -, -, ⟨herr, -⟩ | ⟨-, hno, -⟩⟩
  · exact herr
  · exact herr
  · rw [hfails] at hno
    contradiction

/-- **What a PUT leaves that answers with an error.** Up to the opening of the file
nothing has changed. From then on the target has the bytes that have been written, a
part of the body, whatever it had before; the stream has failed then, or a call has. -/
theorem put_error_leaves (os : Os) (busy : ℕ → Bool) (cwd : Path) (req : Request)
    (stream : BodyStream) (w : World) (status : StatusCode)
    (h : (handle_put_stream os busy cwd req stream w).1 = .error status) :
    (((∃ e, (w.resolve_and_guard cwd req.uri_path).1 = .error e) ∨
        ∃ target e, (w.resolve_and_guard cwd req.uri_path).1 = .ok target ∧
          create os target w.machine = (.error e, w.machine.tick)) ∧
      (handle_put_stream os busy cwd req stream w).2.machine.fs = w.machine.fs) ∨
    ∃ target file m bytes, (w.resolve_and_guard cwd req.uri_path).1 = .ok target ∧
      create os target w.machine = (.ok file, m) ∧
      (stream.fails = true ∨ ∃ k, os.fault k = true) ∧ bytes <+: stream.bytes ∧
      Filled w.machine.fs (handle_put_stream os busy cwd req stream w).2.machine.fs file bytes := by
  cases hg : (w.resolve_and_guard cwd req.uri_path).1 with
  | error e =>
    refine Or.inl ⟨Or.inl ⟨e, rfl⟩, ?_⟩
    unfold handle_put_stream
    have hw := guard_machine w cwd req.uri_path
    rcases hr : w.resolve_and_guard cwd req.uri_path with ⟨r, w'⟩
    rw [hr] at hg hw
    dsimp only at hg hw
    subst hg
    exact congrArg Machine.fs hw
  | ok target =>
    rcases handle_put_stream_resolved os busy stream hg with
      ⟨e, hc, -, hfs⟩ | ⟨file, m, hc, bytes, hpre, hfilled, ⟨-, hwhy⟩ | ⟨hok, -⟩⟩
    · exact Or.inl ⟨Or.inr ⟨target, e, rfl, hc⟩, hfs⟩
    · exact Or.inr ⟨target, file, m, bytes, rfl, hc, hwhy, hpre, hfilled⟩
    · rw [hok] at h
      contradiction

end Error

/-! ## One write for all -/

/-- The system in which the first call goes as in `os` and the second one is the whole
transfer: it fails with so many bytes written, or it does not. -/
def one_write (os : Os) (calls : ℕ) (fails : Bool) (cut : ℕ) : Os where
  fault n := if n = calls then os.fault n else fails
  order := os.order
  order_perm := os.order_perm
  cut _ := cut
  chosen := os.chosen

theorem create_one_write (os : Os) (target : Path) (m : Machine) (fails : Bool) (cut : ℕ) :
    create (one_write os m.calls fails cut) target m = create os target m := by
  have hfault : (one_write os m.calls fails cut).fault m.calls = os.fault m.calls := if_pos rfl
  unfold create syscall
  rw [hfault]

/-- The plain PUT, once its target is resolved. -/
theorem handle_put_resolved {os : Os} {cwd : Path} {req : Request} {w : World} {target : Path}
    (hg : (w.resolve_and_guard cwd req.uri_path).1 = .ok target) :
    handle_put os cwd req w =
      match create os target w.machine with
      | (.error _, m) => (.error .INTERNAL_SERVER_ERROR,
          ((w.resolve_and_guard cwd req.uri_path).2.aim (.guarded target)).on m)
      | (.ok file, m) =>
        match write os file req.body m with
        | (.error _, m) => (.error .INTERNAL_SERVER_ERROR,
            ((w.resolve_and_guard cwd req.uri_path).2.aim (.guarded target)).on m)
        | (.ok (), m) => (.ok (if (metadata w.machine.fs target).isOk then .OK else .CREATED),
            ((w.resolve_and_guard cwd req.uri_path).2.aim (.guarded target)).on m) := by
  have hw := guard_machine w cwd req.uri_path
  unfold handle_put
  rcases hr : w.resolve_and_guard cwd req.uri_path with ⟨r, w'⟩
  rw [hr] at hg hw
  dsimp only at hg hw ⊢
  subst hg
  dsimp only
  rw [aim_machine]
  -- the guard has left the machine alone
  generalize w'.machine = m at hw ⊢
  subst hw
  rfl

/-- The file that was opened, and the rest of the tree. -/
theorem create_leaves {os : Os} {target file : Path} {m m' : Machine}
    (hc : create os target m = (.ok file, m')) :
    m'.fs.Slot file ∧ m'.calls = m.calls + 1 ∧ ∀ q, q ≠ file → m'.fs.node q = m.fs.node q := by
  rcases create_cases os target m with ⟨e, hc'⟩ | ⟨loc, -, hslot, hc'⟩
  · rw [hc] at hc'
    cases hc'
  · rw [hc] at hc'
    cases hc'
    refine ⟨slot_set hslot, rfl, fun q hq => ?_⟩
    rw [set_fs, tick_fs, Fs.node_set hslot, if_neg hq]

/-- **A streamed PUT is a PUT.** Whatever becomes of the stream, in some system the one
write of the whole body comes to the same reply and the same tree. -/
theorem streamed_is_put (os : Os) (busy : ℕ → Bool) (cwd : Path) (req : Request)
    (stream : BodyStream) (w : World) :
    ∃ os', (handle_put os' cwd { req with body := stream.bytes } w).1 =
        (handle_put_stream os busy cwd req stream w).1 ∧
      ∀ q, (handle_put os' cwd { req with body := stream.bytes } w).2.machine.fs.node q =
        (handle_put_stream os busy cwd req stream w).2.machine.fs.node q := by
  -- a path that is refused is refused before the body is looked at
  cases hg : (w.resolve_and_guard cwd req.uri_path).1 with
  | error e =>
    refine ⟨os, ?_⟩
    unfold handle_put handle_put_stream
    rcases hr : w.resolve_and_guard cwd req.uri_path with ⟨r, w'⟩
    rw [hr] at hg
    dsimp only at hg ⊢
    subst hg
    exact ⟨rfl, fun _ => rfl⟩
  | ok target =>
    have hput := fun os' =>
      @handle_put_resolved os' cwd { req with body := stream.bytes } w target hg
    dsimp only at hput
    rcases handle_put_stream_resolved os busy stream hg with
      ⟨e, hc, hreply, hfs⟩ | ⟨file, m, hc, bytes, hpre, hfilled, hend⟩
    · refine ⟨os, ?_⟩
      rw [hput, hc, hreply, hfs]
      exact ⟨rfl, fun _ => rfl⟩
    · obtain ⟨hslot, hcalls, hother⟩ := create_leaves hc
      -- either way the one file has what the stream left, and nothing else has changed
      have hnode : ∀ q, ((m.tick.set file (.file bytes)).fs.node q) =
          (handle_put_stream os busy cwd req stream w).2.machine.fs.node q := by
        intro q
        rw [set_fs, tick_fs, Fs.node_set hslot]
        split
        · rename_i hq
          rw [hq, hfilled.1]
        · rename_i hq
          rw [hother q hq, hfilled.2 q hq]
      rcases hend with ⟨hreply, -⟩ | ⟨hreply, -, hall⟩
      · -- the write breaks off where the stream did
        refine ⟨one_write os w.machine.calls true bytes.length, ?_⟩
        have hfault : (one_write os w.machine.calls true bytes.length).fault m.calls = true := by
          rw [hcalls]
          exact if_neg (by omega)
        have hat : (one_write os w.machine.calls true bytes.length).cut m.calls = bytes.length := rfl
        have hcut : stream.bytes.take bytes.length = bytes := (List.prefix_iff_eq_take.mp hpre).symm
        rw [hput, create_one_write, hc]
        dsimp only
        rw [write_fault hfault, hreply, hat, hcut]
        exact ⟨rfl, hnode⟩
      -- all was written: the one write succeeds
      · refine ⟨one_write os w.machine.calls false 0, ?_⟩
        have hfault : (one_write os w.machine.calls false 0).fault m.calls = false := by
          rw [hcalls]
          exact if_neg (by omega)
        rw [hput, create_one_write, hc]
        dsimp only
        rw [write_ok hfault, hreply, ← hall]
        exact ⟨rfl, hnode⟩

/-! ## An upload that breaks off -/

def f_path : Path := [f_name]

/-- `/f` with one byte, served from `/`. -/
def served_f : World :=
  let fs := Fs.empty.set f_path (.file [1])
  World.start (AppState.new fs [] (PathBuf.of_text "/".toList) 0) fs

def put_f : Request where
  method := .PUT
  uri_path := "/f".toList
  headers := {}
  body := []
  lock_body := none
  proppatch_body := none
  propfind_body := none

/-- Three bytes in two chunks, and then an error. -/
def broken_stream : BodyStream := ⟨[[3, 4], [5]], true⟩

theorem put_f_resolves : (served_f.resolve_and_guard [] put_f.uri_path).1 = .ok f_path := by
  decide

theorem put_error_leaves_f :
    (((∃ e, (served_f.resolve_and_guard [] put_f.uri_path).1 = .error e) ∨
        ∃ target e, (served_f.resolve_and_guard [] put_f.uri_path).1 = .ok target ∧
          create Os.calm target served_f.machine = (.error e, served_f.machine.tick)) ∧
      (handle_put_stream Os.calm (fun _ => true) [] put_f broken_stream served_f).2.machine.fs
        = served_f.machine.fs) ∨
    ∃ target file m bytes, (served_f.resolve_and_guard [] put_f.uri_path).1 = .ok target ∧
      create Os.calm target served_f.machine = (.ok file, m) ∧
      (broken_stream.fails = true ∨ ∃ k, Os.calm.fault k = true) ∧ bytes <+: broken_stream.bytes ∧
      Filled served_f.machine.fs
        (handle_put_stream Os.calm (fun _ => true) [] put_f broken_stream served_f).2.machine.fs
        file bytes :=
  put_error_leaves Os.calm (fun _ => true) [] put_f broken_stream served_f .INTERNAL_SERVER_ERROR
    (failing_stream_errors _ _ put_f_resolves rfl)

/-- A stream that fails after three bytes, the last of them read while the file was busy
with the first two: the reply is 500, and `/f` has those two instead of its own. -/
theorem broken_put_replaces :
    (handle_put_stream Os.calm (fun _ => true) [] put_f broken_stream served_f).1
        = .error .INTERNAL_SERVER_ERROR ∧
      served_f.machine.fs.node f_path = some (.file [1]) ∧
      (handle_put_stream Os.calm (fun _ => true) [] put_f broken_stream served_f).2.machine.fs.node
        f_path = some (.file [3, 4]) := by
  decide

end Rshs.PutStream
