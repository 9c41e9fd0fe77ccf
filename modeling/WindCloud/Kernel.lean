import WindCloud.Protocol
import WindCloud.Lib.Duplex
import WindCloud.Lib.FileImage
import Mathlib.Logic.Function.Basic
import Mathlib.Tactic.Simps.Basic
/-!
# The calls the two programs make

What the commands and the session of a connection do outside their memory is one of the calls
below, logging and printing left out. `Effect` is what a call may answer and what it changes: a
call may be interrupted, may do part of its work, and may fail wherever the fault model `faults`
allows it to; what it does when it succeeds is fixed. What a directory is for, a parent to be
there and entries to list, it leaves open; `Tree` has these rules.

A process has its own handles and its connection, of which `rcvd` and `sent` are the whole
history, and shares the file system with others: `rely` says how they may have changed it by
the time a call is made. `Env.quiet` has no others, `Env.busy` has others that do anything.

Files are kept under their paths, and a descriptor or a mapping goes by the path of its file: on
a path that somebody has removed it changes nothing, and on one that was made again it goes to
the new file, where the real one stays with the old. A store past the end of a mapped file is
dropped; that it never happens is a matter of its own.
-/

namespace WindCloud

open Interaction FileImage

/-- A file's bytes; its length is an `off_t`. -/
structure Content where
  bytes : Bytes
  lt : bytes.length < 2 ^ 63

def Content.empty : Content := ⟨[], by decide⟩

inductive Node where
  | reg (c : Content)
  | dir

abbrev FS := Bytes → Option Node

/-- A regular file with these bytes. -/
def FS.Has (fs : FS) (path : Bytes) (bytes : Bytes) : Prop :=
  ∃ c, fs path = some (.reg c) ∧ c.bytes = bytes

/-- The bytes of a file; an absent one counts as empty. -/
def FS.bytes (fs : FS) (path : Bytes) : Bytes :=
  match fs path with
  | some (.reg c) => c.bytes
  | _ => []

/-- The bytes of the file at `path` go through `g`. -/
def FS.Modify (fs : FS) (path : Bytes) (g : Bytes → Bytes) (fs' : FS) : Prop :=
  match fs path with
  | some (.reg c) => ∃ c' : Content, c'.bytes = g c.bytes ∧ fs' = Function.update fs path (some (.reg c'))
  | _ => fs' = fs

/-! ## Calls and answers -/

/-- Where a `recv` stands: at the top of `handle_request`, in `recv_follow_packet`, in the client. -/
inductive Wait where
  | request | follow | reply
deriving DecidableEq, Repr

/-- Which `ftruncate` it is: the server's reset (`handle.c:616`), extension (`:646`) and final
cut (`:734`), or the client's reset. -/
inductive Resize where
  | reset | extend | cut | local
deriving DecidableEq, Repr

inductive OpenMode where
  | rdonly | rdwrCreat
deriving DecidableEq, Repr

/-- The calls. `wait` and `why` only name the place of the call: no answer depends on them. -/
inductive Call where
  | recv (wait : Wait) (n : Nat)
  | send (buf : Bytes)
  | calloc (n : Nat)
  | opendir (path : Bytes)
  | readdir (dir : Nat)
  | closedir (dir : Nat)
  | remove (path : Bytes)
  | mkdir (path : Bytes)
  | openFile (path : Bytes) (mode : OpenMode)
  | close (fd : Nat)
  | fstat (fd : Nat)
  | ftruncate (fd : Nat) (len : Int) (why : Resize)
  | lseek (fd : Nat) (off : Int)
  | read (fd : Nat) (n : Nat)
  | write (fd : Nat) (buf : Bytes)
  | sendfile (fd : Nat) (off : Int) (n : Nat)
  | mmap (fd : Nat) (len : Nat)
  | memcpy (map : Nat) (off : Nat) (data : Bytes)
  | munmap (map : Nat)
deriving DecidableEq, Repr

/-- The answer of a call that transfers bytes: `-1` with `EINTR`, `-1`, or what was done. -/
inductive IoRes (α : Type) where
  | intr
  | fail
  | done (a : α)
deriving DecidableEq, Repr

/-- Answers. `none` and `false` are failures. -/
abbrev Res : Call → Type
  | .recv .. | .read .. => IoRes Bytes
  | .send .. | .write .. | .sendfile .. => IoRes Nat
  | .calloc .. | .remove .. | .mkdir .. | .ftruncate .. | .lseek .. => Bool
  | .opendir .. | .openFile .. | .fstat .. | .mmap .. => Option Nat
  | .readdir .. => Option Bytes
  | .closedir .. | .close .. | .memcpy .. | .munmap .. => Unit

/-- Programs over these calls. -/
abbrev Io := Prog Call Res

namespace Sys

abbrev recv (wait : Wait) (n : Nat) : Io (IoRes Bytes) := Prog.perform (Call.recv wait n)
abbrev send (buf : Bytes) : Io (IoRes Nat) := Prog.perform (Call.send buf)
abbrev calloc (n : Nat) : Io Bool := Prog.perform (Call.calloc n)
abbrev opendir (path : Bytes) : Io (Option Nat) := Prog.perform (Call.opendir path)
abbrev readdir (dir : Nat) : Io (Option Bytes) := Prog.perform (Call.readdir dir)
abbrev closedir (dir : Nat) : Io Unit := Prog.perform (Call.closedir dir)
abbrev remove (path : Bytes) : Io Bool := Prog.perform (Call.remove path)
abbrev mkdir (path : Bytes) : Io Bool := Prog.perform (Call.mkdir path)
abbrev openFile (path : Bytes) (mode : OpenMode) : Io (Option Nat) := Prog.perform (Call.openFile path mode)
abbrev close (fd : Nat) : Io Unit := Prog.perform (Call.close fd)
abbrev fstat (fd : Nat) : Io (Option Nat) := Prog.perform (Call.fstat fd)
abbrev ftruncate (fd : Nat) (len : Int) (why : Resize) : Io Bool := Prog.perform (Call.ftruncate fd len why)
abbrev lseek (fd : Nat) (off : Int) : Io Bool := Prog.perform (Call.lseek fd off)
abbrev read (fd n : Nat) : Io (IoRes Bytes) := Prog.perform (Call.read fd n)
abbrev write (fd : Nat) (buf : Bytes) : Io (IoRes Nat) := Prog.perform (Call.write fd buf)
abbrev sendfile (fd : Nat) (off : Int) (n : Nat) : Io (IoRes Nat) := Prog.perform (Call.sendfile fd off n)
abbrev mmap (fd len : Nat) : Io (Option Nat) := Prog.perform (Call.mmap fd len)
abbrev memcpy (map off : Nat) (data : Bytes) : Io Unit := Prog.perform (Call.memcpy map off data)
abbrev munmap (map : Nat) : Io Unit := Prog.perform (Call.munmap map)

end Sys

/-! ## States -/

structure OpenFile where
  path : Bytes
  pos : Nat
deriving DecidableEq, Repr

structure Mapping where
  path : Bytes
  len : Nat
deriving DecidableEq, Repr

/-- A call with its answer. -/
abbrev Event := (c : Call) × Res c

/-- What a process has to itself. `dirs` holds the entries a directory handle has still to
deliver; `trace` is the calls on files so far. -/
structure Proc where
  fds : Nat → Option OpenFile
  dirs : Nat → Option (List Bytes)
  maps : Nat → Option Mapping
  rcvd : Bytes
  sent : Bytes
  trace : List Event

namespace Proc

def init : Proc := ⟨fun _ => none, fun _ => none, fun _ => none, [], [], []⟩

@[simps] def setFd (p : Proc) (fd : Nat) (f : Option OpenFile) : Proc :=
  { p with fds := Function.update p.fds fd f }
@[simps] def setDir (p : Proc) (d : Nat) (names : Option (List Bytes)) : Proc :=
  { p with dirs := Function.update p.dirs d names }
@[simps] def setMap (p : Proc) (m : Nat) (mp : Option Mapping) : Proc :=
  { p with maps := Function.update p.maps m mp }
@[simps] def addRcvd (p : Proc) (bs : Bytes) : Proc := { p with rcvd := p.rcvd ++ bs }
@[simps] def addSent (p : Proc) (bs : Bytes) : Proc := { p with sent := p.sent ++ bs }
@[simps] def note (p : Proc) (c : Call) (r : Res c) : Proc := { p with trace := p.trace ++ [⟨c, r⟩] }

@[simp] theorem addRcvd_nil (p : Proc) : p.addRcvd [] = p := by simp [addRcvd]
@[simp] theorem addSent_nil (p : Proc) : p.addSent [] = p := by simp [addSent]
@[simp] theorem addRcvd_addRcvd (p : Proc) (a b : Bytes) : (p.addRcvd a).addRcvd b = p.addRcvd (a ++ b) := by
  simp [addRcvd]
@[simp] theorem addSent_addSent (p : Proc) (a b : Bytes) : (p.addSent a).addSent b = p.addSent (a ++ b) := by
  simp [addSent]

/-- The process after a stretch that leaves its handles: what it has received, sent and done. -/
@[simps] def ran (p : Proc) (r s : Bytes) (t : List Event) : Proc :=
  { p with rcvd := p.rcvd ++ r, sent := p.sent ++ s, trace := p.trace ++ t }

/-- A mapping that may be absent. -/
def mapAt (p : Proc) (map : Option Nat) (mp : Mapping) : Proc :=
  match map with
  | some m => p.setMap m (some mp)
  | none => p

variable (p : Proc) (bs r s : Bytes) (t : List Event) (fd : Nat) (f : Option OpenFile) (map : Option Nat)
  (mp : Mapping) (c : Call) (x : Res c)

@[simp] theorem ran_nil : p.ran [] [] [] = p := by simp [ran]
@[simp] theorem ran_addRcvd : (p.ran r s t).addRcvd bs = p.ran (r ++ bs) s t := by simp [ran, addRcvd]
@[simp] theorem ran_addSent : (p.ran r s t).addSent bs = p.ran r (s ++ bs) t := by simp [ran, addSent]
@[simp] theorem ran_note : (p.ran r s t).note c x = p.ran r s (t ++ [⟨c, x⟩]) := by simp [ran, note]

/-! Histories move inside handles, so that a state reads: what was done, then what is open. -/

@[simp] theorem setFd_addRcvd : (p.setFd fd f).addRcvd bs = (p.addRcvd bs).setFd fd f := rfl
@[simp] theorem setFd_addSent : (p.setFd fd f).addSent bs = (p.addSent bs).setFd fd f := rfl
@[simp] theorem setFd_note : (p.setFd fd f).note c x = (p.note c x).setFd fd f := rfl
@[simp] theorem setFd_setFd (g : Option OpenFile) : (p.setFd fd f).setFd fd g = p.setFd fd g := by
  simp [setFd]
theorem setFd_none (h : p.fds fd = none) : p.setFd fd none = p := by
  rw [setFd, ← h, Function.update_eq_self]

@[simp] theorem mapAt_addRcvd : (p.mapAt map mp).addRcvd bs = (p.addRcvd bs).mapAt map mp := by
  cases map <;> rfl
@[simp] theorem mapAt_addSent : (p.mapAt map mp).addSent bs = (p.addSent bs).mapAt map mp := by
  cases map <;> rfl
@[simp] theorem mapAt_note : (p.mapAt map mp).note c x = (p.note c x).mapAt map mp := by
  cases map <;> rfl
@[simp] theorem mapAt_fds : (p.mapAt map mp).fds = p.fds := by cases map <;> rfl
@[simp] theorem mapAt_sent : (p.mapAt map mp).sent = p.sent := by cases map <;> rfl
@[simp] theorem mapAt_rcvd : (p.mapAt map mp).rcvd = p.rcvd := by cases map <;> rfl
@[simp] theorem mapAt_trace : (p.mapAt map mp).trace = p.trace := by cases map <;> rfl
@[simp] theorem setMap_note (m : Nat) (g : Option Mapping) : (p.setMap m g).note c x = (p.note c x).setMap m g := rfl
theorem setMap_mapAt {m : Nat} (h : p.maps m = none) : (p.mapAt (some m) mp).setMap m none = p := by
  simp only [mapAt, setMap, Function.update_idem]
  rw [← h, Function.update_eq_self]
end Proc

structure World where
  fs : FS
  proc : Proc

/-! ## What a call does -/

/-- The answers of a call in state `w`, and the state after them. -/
def Effect (faults : Call → Prop) (w : World) : (c : Call) → Res c → World → Prop
  | .recv .., .intr, w' => w' = w
  | c@(.recv ..), .fail, w' => faults c ∧ w' = w
  | c@(.recv _ n), .done bs, w' =>
      bs.length ≤ n ∧ (bs = [] → faults c) ∧ w' = ⟨w.fs, w.proc.addRcvd bs⟩
  | .send .., .intr, w' => w' = w
  | c@(.send ..), .fail, w' => faults c ∧ w' = w
  | c@(.send buf), .done m, w' =>
      m ≤ buf.length ∧ (m = 0 → faults c) ∧ w' = ⟨w.fs, w.proc.addSent (buf.take m)⟩
  | c@(.calloc _), ok, w' => (ok = false → faults c) ∧ w' = w
  | c@(.opendir _), none, w' => faults c ∧ w' = w
  | .opendir path, some d, w' => ∃ names,
      w.fs path = some .dir ∧ w.proc.dirs d = none ∧ w' = ⟨w.fs, w.proc.setDir d (some names)⟩
  | c@(.readdir d), none, w' => (w.proc.dirs d = some [] ∨ faults c) ∧ w' = w
  | .readdir d, some name, w' => ∃ names,
      w.proc.dirs d = some (name :: names) ∧ w' = ⟨w.fs, w.proc.setDir d (some names)⟩
  | .closedir d, _, w' => w' = ⟨w.fs, w.proc.setDir d none⟩
  | c@(.remove _), false, w' => faults c ∧ w' = w
  | .remove path, true, w' => w.fs path ≠ none ∧ w' = ⟨Function.update w.fs path none, w.proc⟩
  | c@(.mkdir _), false, w' => faults c ∧ w' = w
  | .mkdir path, true, w' => w.fs path = none ∧ w' = ⟨Function.update w.fs path (some .dir), w.proc⟩
  | c@(.openFile ..), none, w' => faults c ∧ w' = w
  | .openFile path .rdonly, some fd, w' =>
      w.fs path ≠ none ∧ w.proc.fds fd = none ∧ w' = ⟨w.fs, w.proc.setFd fd (some ⟨path, 0⟩)⟩
  | .openFile path .rdwrCreat, some fd, w' =>
      w.fs path ≠ some .dir ∧ w.proc.fds fd = none ∧
        w' = ⟨Function.update w.fs path (some ((w.fs path).getD (.reg .empty))),
          w.proc.setFd fd (some ⟨path, 0⟩)⟩
  | .close fd, _, w' => w' = ⟨w.fs, w.proc.setFd fd none⟩
  | c@(.fstat _), none, w' => faults c ∧ w' = w
  | .fstat fd, some n, w' => ∃ f, w.proc.fds fd = some f ∧ n < 2 ^ 63 ∧
      (∀ b, w.fs.Has f.path b → n = b.length) ∧ w' = w
  | c@(.ftruncate ..), false, w' => faults c ∧ w' = w
  | .ftruncate fd len _, true, w' => ∃ f fs, w.proc.fds fd = some f ∧ 0 ≤ len ∧
      w.fs.Modify f.path (resize 0 len.toNat) fs ∧ w' = ⟨fs, w.proc⟩
  | c@(.lseek ..), false, w' => faults c ∧ w' = w
  | .lseek fd off, true, w' => ∃ f, w.proc.fds fd = some f ∧ 0 ≤ off ∧
      w' = ⟨w.fs, w.proc.setFd fd (some ⟨f.path, off.toNat⟩)⟩
  | .read .., .intr, w' => w' = w
  | c@(.read ..), .fail, w' => faults c ∧ w' = w
  | .read fd n, .done bs, w' => ∃ f, w.proc.fds fd = some f ∧ w.fs f.path ≠ some .dir ∧ bs.length ≤ n ∧
      (∀ b, w.fs.Has f.path b → bs <+: b.drop f.pos ∧ (bs = [] → b.length ≤ f.pos)) ∧
      w' = ⟨w.fs, w.proc.setFd fd (some ⟨f.path, f.pos + bs.length⟩)⟩
  | .write .., .intr, w' => w' = w
  | c@(.write ..), .fail, w' => faults c ∧ w' = w
  | c@(.write fd buf), .done m, w' => ∃ f fs, w.proc.fds fd = some f ∧ m ≤ buf.length ∧
      (m = 0 → faults c) ∧ w.fs.Modify f.path (patch 0 · f.pos (buf.take m)) fs ∧
      w' = ⟨fs, w.proc.setFd fd (some ⟨f.path, f.pos + m⟩)⟩
  | .sendfile .., .intr, w' => w' = w
  | c@(.sendfile ..), .fail, w' => faults c ∧ w' = w
  | c@(.sendfile fd off n), .done m, w' => ∃ f bs, w.proc.fds fd = some f ∧ w.fs f.path ≠ some .dir ∧
      0 ≤ off ∧ bs.length = m ∧ m ≤ n ∧
      (∀ b, w.fs.Has f.path b → bs <+: b.drop off.toNat ∧ (bs = [] → b.length ≤ off ∨ faults c)) ∧
      w' = ⟨w.fs, w.proc.addSent bs⟩
  | c@(.mmap ..), none, w' => faults c ∧ w' = w
  | .mmap fd len, some m, w' => ∃ f, w.proc.fds fd = some f ∧ w.proc.maps m = none ∧
      w' = ⟨w.fs, w.proc.setMap m (some ⟨f.path, len⟩)⟩
  | .memcpy m off data, _, w' => ∃ mp fs, w.proc.maps m = some mp ∧
      w.fs.Modify mp.path (store · off data) fs ∧ w' = ⟨fs, w.proc⟩
  | .munmap m, _, w' => w' = ⟨w.fs, w.proc.setMap m none⟩

/-- The calls that `trace` records: all but those on the connection and on memory. -/
def Call.traced : Call → Bool
  | .recv .. | .send .. | .calloc .. => false
  | _ => true

/-- Which calls may fail, and what others may do to the file system in between. -/
structure Env where
  faults : Call → Prop
  rely : FS → FS → Prop
  refl : ∀ fs, rely fs fs
  trans : ∀ {fs₁ fs₂ fs₃}, rely fs₁ fs₂ → rely fs₂ fs₃ → rely fs₁ fs₃

namespace Env

/-- Nobody else uses the file system. -/
def quiet (faults : Call → Prop) : Env :=
  ⟨faults, fun fs fs' => fs' = fs, fun _ => rfl, fun h h' => h'.trans h⟩

/-- Others may do anything to the file system at any time. -/
def busy (faults : Call → Prop) : Env := ⟨faults, fun _ _ => True, fun _ => trivial, fun _ _ => trivial⟩

/-- Nobody else changes the file system. -/
def Quiet (env : Env) : Prop := ∀ {fs fs'}, env.rely fs fs' → fs' = fs

theorem quiet_quiet (faults : Call → Prop) : (quiet faults).Quiet := fun h => h

end Env

/-- The semantics of the calls: others first, then the call. -/
def kernel (env : Env) : Sem Call Res World := fun w c r w' =>
  ∃ fs, env.rely w.fs fs ∧ ∃ v, Effect env.faults ⟨fs, w.proc⟩ c r v ∧
    w' = if c.traced then ⟨v.fs, v.proc.note c r⟩ else v

/-! ## Files -/

namespace FS

variable {fs fs' : FS} {path path' : Bytes} {b : Bytes} {g : Bytes → Bytes}

theorem Has.lt (h : fs.Has path b) : b.length < 2 ^ 63 := by
  obtain ⟨c, -, rfl⟩ := h
  exact c.lt

theorem Has.bytes (h : fs.Has path b) : fs.bytes path = b := by
  obtain ⟨c, hc, rfl⟩ := h
  simp [FS.bytes, hc]

theorem Has.self (h : fs.Has path b) : fs.Has path (fs.bytes path) := h.bytes.symm ▸ h

theorem bytes_lt (fs : FS) (path : Bytes) : (fs.bytes path).length < 2 ^ 63 := by
  unfold FS.bytes
  split
  · rename_i c _
    exact c.lt
  · simp

theorem Has.unique {b' : Bytes} (h : fs.Has path b) (h' : fs.Has path b') : b = b' := by
  rw [← h.bytes, h'.bytes]

theorem has_update (c : Content) : FS.Has (Function.update fs path (some (.reg c))) path c.bytes :=
  ⟨c, by simp, rfl⟩

/-- `fs` with the file `c` at `path`. -/
def put (fs : FS) (path : Bytes) (c : Content) : FS := Function.update fs path (some (.reg c))

theorem put_has (fs : FS) (path : Bytes) (c : Content) : (fs.put path c).Has path c.bytes := has_update c

@[simp] theorem put_put (fs : FS) (path : Bytes) (c c' : Content) : (fs.put path c).put path c' = fs.put path c' := by
  simp [put]

@[simp] theorem put_self (fs : FS) (path : Bytes) (c : Content) : fs.put path c path = some (.reg c) := by
  simp [put]

@[simp] theorem bytes_put (fs : FS) (path : Bytes) (c : Content) : (fs.put path c).bytes path = c.bytes :=
  (fs.put_has path c).bytes

theorem modify_put (fs : FS) (path : Bytes) {c c' : Content} (h : c'.bytes = g c.bytes) :
    (fs.put path c).Modify path g (fs.put path c') := by
  simp only [Modify, put_self]
  exact ⟨c', h, (put_put ..).symm⟩

theorem Has.modify (h : fs.Has path b) (hm : fs.Modify path g fs') : fs'.Has path (g b) := by
  obtain ⟨c, hc, rfl⟩ := h
  simp only [Modify, hc] at hm
  obtain ⟨c', hb, rfl⟩ := hm
  exact ⟨c', by simp, hb⟩

/-- A change that makes no file longer can be made. -/
theorem modify_exists (fs : FS) (path : Bytes) (hg : ∀ b, (g b).length ≤ b.length) : ∃ fs', fs.Modify path g fs' := by
  unfold Modify
  split
  · rename_i c _
    exact ⟨_, ⟨g c.bytes, (hg _).trans_lt c.lt⟩, rfl, rfl⟩
  · exact ⟨fs, rfl⟩

/-- `O_CREAT` keeps what is there. -/
theorem has_create (h : fs path ≠ some .dir) :
    FS.Has (Function.update fs path (some ((fs path).getD (.reg .empty)))) path (fs.bytes path) := by
  unfold FS.bytes
  split
  · rename_i c hc
    exact ⟨c, by simp [hc], rfl⟩
  · rename_i hn
    rcases hx : fs path with _ | c | _
    · exact ⟨.empty, by simp, rfl⟩
    · exact absurd hx (hn c)
    · exact absurd hx h

end FS

/-! What can be known of a file while `I` holds of the file system. -/

section Known

variable (I : FS → Prop) (path : Bytes)

/-- A read of the file at `pos` may give `bs`. -/
def Reads (pos : Nat) (bs : Bytes) : Prop := ∃ fs, I fs ∧ ∀ b, fs.Has path b → bs <+: b.drop pos

/-- The file may end at `pos`. -/
def Ends (pos : Nat) : Prop := ∃ fs, I fs ∧ ∀ b, fs.Has path b → b.length ≤ pos

/-- The file may have `size` bytes. -/
def Sized (size : Nat) : Prop := size < 2 ^ 63 ∧ ∃ fs, I fs ∧ ∀ b, fs.Has path b → size = b.length

end Known

/-! ## The connection -/

section Connection

variable {env : Env} {w w' : World} {c : Call} {r : Res c}

/-- What a call may write to the connection; of `sendfile` this cannot be said. -/
def Call.sends : Call → Option Bytes
  | .send buf => some buf
  | .sendfile .. => none
  | _ => some []

/-- Histories only grow. -/
theorem effect_grows (h : Effect env.faults w c r w') :
    w.proc.rcvd <+: w'.proc.rcvd ∧ w.proc.sent <+: w'.proc.sent := by
  unfold Effect at h
  split at h <;> grind [Proc.addRcvd, Proc.addSent, Proc.setFd, Proc.setDir, Proc.setMap, List.prefix_append,
    List.prefix_refl]

theorem kernel_grows (h : kernel env w c r w') :
    w.proc.rcvd <+: w'.proc.rcvd ∧ w.proc.sent <+: w'.proc.sent := by
  obtain ⟨fs, -, v, he, rfl⟩ := h
  have := effect_grows he
  split <;> exact this

/-- The trace holds only what `kernel` notes. -/
theorem effect_trace (h : Effect env.faults w c r w') : w'.proc.trace = w.proc.trace := by
  unfold Effect at h
  split at h <;> grind [Proc.addRcvd, Proc.addSent, Proc.setFd, Proc.setDir, Proc.setMap]

theorem kernel_traces (h : kernel env w c r w') :
    w'.proc.trace = w.proc.trace ++ if c.traced then [⟨c, r⟩] else [] := by
  obtain ⟨fs, -, v, he, rfl⟩ := h
  have ht := effect_trace he
  split
  · rw [Proc.note_trace, ht]
  · rw [ht, List.append_nil]

theorem effect_silent (h : Effect env.faults w c r w') (h₁ : ∀ buf, c ≠ .send buf)
    (h₂ : ∀ fd off n, c ≠ .sendfile fd off n) : w'.proc.sent = w.proc.sent := by
  unfold Effect at h
  split at h <;> grind [Proc.addRcvd, Proc.setFd, Proc.setDir, Proc.setMap]

theorem effect_deaf (h : Effect env.faults w c r w') (hc : ∀ wait n, c ≠ .recv wait n) :
    w'.proc.rcvd = w.proc.rcvd := by
  unfold Effect at h
  split at h <;> grind [Proc.addSent, Proc.setFd, Proc.setDir, Proc.setMap]

/-- Only `recv` receives. -/
theorem kernel_deaf (h : kernel env w c r w') (hc : ∀ wait n, c ≠ .recv wait n) : w'.proc.rcvd = w.proc.rcvd := by
  obtain ⟨fs, -, v, he, rfl⟩ := h
  have := effect_deaf he hc
  split <;> exact this

/-- The calls that change files. -/
def Call.Changes : Call → Prop
  | .remove _ | .mkdir _ | .openFile _ .rdwrCreat | .ftruncate .. | .write .. | .memcpy .. => True
  | _ => False

theorem effect_still (h : Effect env.faults w c r w') (hc : ¬ c.Changes) : w'.fs = w.fs := by
  unfold Effect at h
  split at h <;> grind [Call.Changes]

/-- Where nobody else changes files, the other calls leave them. -/
theorem kernel_still (h : kernel env w c r w') (hq : env.Quiet) (hc : ¬ c.Changes) : w'.fs = w.fs := by
  obtain ⟨fs, hr, v, he, rfl⟩ := h
  have hfs := effect_still he hc
  rw [hq hr] at hfs
  split <;> exact hfs

theorem effect_sends {t : Bytes} (h : Effect env.faults w c r w') (hc : c.sends = some t) :
    ∃ s, w'.proc.sent = w.proc.sent ++ s ∧ s <+: t := by
  cases c with
  | send buf =>
    obtain rfl : buf = t := Option.some.inj hc
    rcases r with _ | _ | m
    · exact ⟨[], by rw [show w' = w from h, List.append_nil], List.nil_prefix⟩
    · exact ⟨[], by rw [h.2, List.append_nil], List.nil_prefix⟩
    · exact ⟨buf.take m, by rw [h.2.2]; rfl, List.take_prefix _ _⟩
  | sendfile => simp [Call.sends] at hc
  | _ => exact ⟨[], by rw [effect_silent h (by simp) (by simp), List.append_nil], List.nil_prefix⟩

/-- A call writes no more than it is given. -/
theorem kernel_sends {t : Bytes} (h : kernel env w c r w') (hc : c.sends = some t) :
    ∃ s, w'.proc.sent = w.proc.sent ++ s ∧ s <+: t := by
  obtain ⟨fs, -, v, he, rfl⟩ := h
  have := effect_sends he hc
  split <;> exact this

theorem steps_grow {α : Type} {c d : Io α × World} (h : Prog.Steps (kernel env) c d) :
    c.2.proc.rcvd <+: d.2.proc.rcvd ∧ c.2.proc.sent <+: d.2.proc.sent := by
  induction h with
  | refl => exact ⟨List.prefix_refl _, List.prefix_refl _⟩
  | tail _ hs ih =>
    cases hs with
    | call hs => exact ⟨ih.1.trans (kernel_grows hs).1, ih.2.trans (kernel_grows hs).2⟩
    | loop => exact ih

/-- A run only adds to the trace. -/
theorem trace_grows {α : Type} {c d : Io α × World} (h : Prog.Steps (kernel env) c d) :
    ∃ events, d.2.proc.trace = c.2.proc.trace ++ events := by
  induction h with
  | refl => exact ⟨[], (List.append_nil _).symm⟩
  | tail _ hs ih =>
    obtain ⟨events, ih⟩ := ih
    cases hs with
    | call hs =>
      exact ⟨events ++ _, by rw [kernel_traces hs, ih, List.append_assoc]⟩
    | loop => exact ⟨events, ih⟩

/-- Where in the trace of a run a call on its way stands. -/
theorem trace_through {α : Type} {p : Io α} {d : Io α × World} (hs : kernel env w c r w') (hc : c.traced = true)
    (h : Prog.Steps (kernel env) (p, w') d) : ∃ events, d.2.proc.trace = w.proc.trace ++ ⟨c, r⟩ :: events := by
  obtain ⟨events, h⟩ := trace_grows h
  exact ⟨events, by rw [h, kernel_traces hs, if_pos hc, List.append_assoc, List.singleton_append]⟩

theorem mem_through {α : Type} {p : Io α} {d : Io α × World} (hs : kernel env w c r w') (hc : c.traced = true)
    (h : Prog.Steps (kernel env) (p, w') d) : (⟨c, r⟩ : Event) ∈ d.2.proc.trace := by
  obtain ⟨events, h⟩ := trace_through hs hc h
  exact h ▸ List.mem_append_right _ List.mem_cons_self

/-- A process with its connection. -/
def side (env : Env) : Side Call Res World UInt8 where
  sem := kernel env
  inp w := w.proc.rcvd
  out w := w.proc.sent
  out_mono h := (kernel_grows h).2

end Connection

/-- The process has received `r` and sent `s` since it was `b`. -/
structure Proc.Since (b : Proc) (r s : Bytes) (v : Proc) : Prop where
  rcvd : v.rcvd = b.rcvd ++ r
  sent : v.sent = b.sent ++ s

section Since

variable {b v : Proc} {r s bs : Bytes}

theorem Proc.Since.refl (b : Proc) : b.Since [] [] b := ⟨by simp, by simp⟩

theorem Proc.Since.trans {u : Proc} {r' s' : Bytes} (h : b.Since r s u) (h' : u.Since r' s' v) :
    b.Since (r ++ r') (s ++ s') v :=
  ⟨by rw [h'.rcvd, h.rcvd, List.append_assoc], by rw [h'.sent, h.sent, List.append_assoc]⟩

theorem Proc.Since.addRcvd (h : b.Since r s v) : b.Since (r ++ bs) s (v.addRcvd bs) :=
  ⟨by simp [h.rcvd], h.sent⟩

theorem Proc.Since.addSent (h : b.Since r s v) : b.Since r (s ++ bs) (v.addSent bs) :=
  ⟨h.rcvd, by simp [h.sent]⟩

/-- Calls on files do not show on the connection. -/
theorem Proc.Since.setFd {fd : Nat} {f : Option OpenFile} {c : Call} {x : Res c} (h : b.Since r s v) :
    b.Since r s ((v.setFd fd f).note c x) := ⟨h.rcvd, h.sent⟩

theorem Proc.Since.note {c : Call} {x : Res c} (h : b.Since r s v) : b.Since r s (v.note c x) := ⟨h.rcvd, h.sent⟩

end Since

/-- After a call that only writes. -/
theorem Proc.Since.wrote {env : Env} {b : Proc} {r s t : Bytes} {w w' : World} {c : Call} {x : Res c}
    (h : b.Since r s w.proc) (hk : kernel env w c x w') (hc : c.sends = some t) (hr : ∀ wait n, c ≠ .recv wait n) :
    ∃ s', b.Since r (s ++ s') w'.proc ∧ s' <+: t := by
  obtain ⟨s', hs', hpre⟩ := kernel_sends hk hc
  exact ⟨s', ⟨(kernel_deaf hk hr).trans h.rcvd, by rw [hs', h.sent, List.append_assoc]⟩, hpre⟩

/-- After a call that does not go to the connection. -/
theorem Proc.Since.quiet {env : Env} {b : Proc} {r s : Bytes} {w w' : World} {c : Call} {x : Res c}
    (h : b.Since r s w.proc) (hk : kernel env w c x w') (hc : c.sends = some []) (hr : ∀ wait n, c ≠ .recv wait n) :
    b.Since r s w'.proc := by
  obtain ⟨s', hs, hpre⟩ := h.wrote hk hc hr
  obtain rfl := List.prefix_nil.1 hpre
  rwa [List.append_nil] at hs

/-- After a call that is given `t` to write. -/
theorem Proc.Since.step {env : Env} {b : Proc} {r s t : Bytes} {w w' : World} {c : Call} {x : Res c}
    (h : b.Since r s w.proc) (hk : kernel env w c x w') (hc : c.sends = some t) :
    ∃ r' s', b.Since (r ++ r') (s ++ s') w'.proc ∧ s' <+: t := by
  obtain ⟨s', hs', hpre⟩ := kernel_sends hk hc
  obtain ⟨r', hr'⟩ := (kernel_grows hk).1
  refine ⟨r', s', ⟨?_, ?_⟩, hpre⟩
  · rw [← hr', h.rcvd, List.append_assoc]
  · rw [hs', h.sent, List.append_assoc]

/-- What two processes that were in step have passed to each other since. -/
theorem duplex_streams {envC envS : Env} {α β : Type} {c c' : Io α} {d d' : Io β} {wc wc' ws ws' : World}
    (hsync : wc.proc.sent = ws.proc.rcvd ∧ ws.proc.sent = wc.proc.rcvd)
    (hrun : DuplexSteps (side envC) (side envS) ((c, wc), (d, ws)) ((c', wc'), (d', ws'))) :
    Prog.Steps (kernel envC) (c, wc) (c', wc') ∧ Prog.Steps (kernel envS) (d, ws) (d', ws') ∧
      ∃ rc sc rs ss, wc.proc.Since rc sc wc'.proc ∧ ws.proc.Since rs ss ws'.proc ∧ rs <+: sc ∧ rc <+: ss := by
  have h₁ : wc.proc.rcvd <+: ws.proc.sent := by rw [hsync.2]
  have h₂ : ws.proc.rcvd <+: wc.proc.sent := by rw [hsync.1]
  obtain ⟨hc, hs, hcausal⟩ := Duplex.reach hrun ⟨h₁, h₂⟩
  obtain ⟨⟨rc, hrc⟩, ⟨sc, hsc⟩⟩ := steps_grow hc
  obtain ⟨⟨rs, hrs⟩, ⟨ss, hss⟩⟩ := steps_grow hs
  refine ⟨hc, hs, rc, sc, rs, ss, ⟨hrc.symm, hsc.symm⟩, ⟨hrs.symm, hss.symm⟩, ?_, ?_⟩
  · have h : ws'.proc.rcvd <+: wc'.proc.sent := hcausal.2
    rw [← (show ws.proc.rcvd ++ rs = ws'.proc.rcvd from hrs), ← (show wc.proc.sent ++ sc = wc'.proc.sent from hsc),
      hsync.1] at h
    exact (List.prefix_append_right_inj _).1 h
  · have h : wc'.proc.rcvd <+: ws'.proc.sent := hcausal.1
    rw [← (show ws.proc.sent ++ ss = ws'.proc.sent from hss), ← (show wc.proc.rcvd ++ rc = wc'.proc.rcvd from hrc),
      hsync.2] at h
    exact (List.prefix_append_right_inj _).1 h

/-! ## Rules for the calls

One rule a call: the answers it may get, each with the state in which the program goes on. -/

section Rules

open Prog

variable {env : Env} {P : World → Call → Prop} {α : Type} {Q : α → World → Prop} {w : World}

theorem wp_effect {c : Call} {k : Res c → Io α} (hP : P w c)
    (h : ∀ fs r v, env.rely w.fs fs → Effect env.faults ⟨fs, w.proc⟩ c r v →
      wp (kernel env) P (k r) Q (if c.traced then ⟨v.fs, v.proc.note c r⟩ else v)) :
    wp (kernel env) P (.call c k) Q w := by
  refine wp_call.2 ⟨hP, ?_⟩
  rintro r w' ⟨fs, hr, v, he, rfl⟩
  exact h fs r v hr he

theorem wp_recv {wait : Wait} {n : Nat} {k : IoRes Bytes → Io α} (hP : P w (.recv wait n))
    (intr : ∀ fs, env.rely w.fs fs → wp (kernel env) P (k .intr) Q ⟨fs, w.proc⟩)
    (fail : ∀ fs, env.rely w.fs fs → env.faults (.recv wait n) → wp (kernel env) P (k .fail) Q ⟨fs, w.proc⟩)
    (done : ∀ fs bs, env.rely w.fs fs → bs.length ≤ n → (bs = [] → env.faults (.recv wait n)) →
      wp (kernel env) P (k (.done bs)) Q ⟨fs, w.proc.addRcvd bs⟩) :
    wp (kernel env) P (Sys.recv wait n >>= k) Q w := by
  refine wp_effect hP ?_
  intro fs r v hr he
  rcases r with _ | _ | bs
  · obtain rfl := he
    exact intr fs hr
  · obtain ⟨hf, rfl⟩ := he
    exact fail fs hr hf
  · obtain ⟨hn, hf, rfl⟩ := he
    exact done fs bs hr hn hf

theorem wp_send {buf : Bytes} {k : IoRes Nat → Io α} (hP : P w (.send buf))
    (intr : ∀ fs, env.rely w.fs fs → wp (kernel env) P (k .intr) Q ⟨fs, w.proc⟩)
    (fail : ∀ fs, env.rely w.fs fs → env.faults (.send buf) → wp (kernel env) P (k .fail) Q ⟨fs, w.proc⟩)
    (done : ∀ fs m, env.rely w.fs fs → m ≤ buf.length → (m = 0 → env.faults (.send buf)) →
      wp (kernel env) P (k (.done m)) Q ⟨fs, w.proc.addSent (buf.take m)⟩) :
    wp (kernel env) P (Sys.send buf >>= k) Q w := by
  refine wp_effect hP ?_
  intro fs r v hr he
  rcases r with _ | _ | m
  · obtain rfl := he
    exact intr fs hr
  · obtain ⟨hf, rfl⟩ := he
    exact fail fs hr hf
  · obtain ⟨hn, hf, rfl⟩ := he
    exact done fs m hr hn hf

theorem wp_calloc {n : Nat} {k : Bool → Io α} (hP : P w (.calloc n))
    (fail : ∀ fs, env.rely w.fs fs → env.faults (.calloc n) → wp (kernel env) P (k false) Q ⟨fs, w.proc⟩)
    (ok : ∀ fs, env.rely w.fs fs → wp (kernel env) P (k true) Q ⟨fs, w.proc⟩) :
    wp (kernel env) P (Sys.calloc n >>= k) Q w := by
  refine wp_effect hP ?_
  intro fs r v hr he
  obtain ⟨hf, rfl⟩ := he
  rcases r with _ | _
  · exact fail fs hr (hf rfl)
  · exact ok fs hr

theorem wp_opendir {path : Bytes} {k : Option Nat → Io α} (hP : P w (.opendir path))
    (fail : ∀ fs, env.rely w.fs fs → env.faults (.opendir path) →
      wp (kernel env) P (k none) Q ⟨fs, w.proc.note (.opendir path) none⟩)
    (ok : ∀ fs d names, env.rely w.fs fs → w.proc.dirs d = none →
      wp (kernel env) P (k (some d)) Q
        ⟨fs, (w.proc.setDir d (some names)).note (.opendir path) (some d)⟩) :
    wp (kernel env) P (Sys.opendir path >>= k) Q w := by
  refine wp_effect hP ?_
  intro fs r v hr he
  rcases r with _ | d
  · obtain ⟨hf, rfl⟩ := he
    exact fail fs hr hf
  · obtain ⟨names, -, hd, rfl⟩ := he
    exact ok fs d names hr hd

theorem wp_readdir {d : Nat} {k : Option Bytes → Io α} (hP : P w (.readdir d))
    (stop : ∀ fs, env.rely w.fs fs → w.proc.dirs d = some [] ∨ env.faults (.readdir d) →
      wp (kernel env) P (k none) Q ⟨fs, w.proc.note (.readdir d) none⟩)
    (ok : ∀ fs name names, env.rely w.fs fs → w.proc.dirs d = some (name :: names) →
      wp (kernel env) P (k (some name)) Q
        ⟨fs, (w.proc.setDir d (some names)).note (.readdir d) (some name)⟩) :
    wp (kernel env) P (Sys.readdir d >>= k) Q w := by
  refine wp_effect hP ?_
  intro fs r v hr he
  rcases r with _ | name
  · obtain ⟨hf, rfl⟩ := he
    exact stop fs hr hf
  · obtain ⟨names, hd, rfl⟩ := he
    exact ok fs name names hr hd

theorem wp_closedir {d : Nat} {k : Unit → Io α} (hP : P w (.closedir d))
    (ok : ∀ fs, env.rely w.fs fs → wp (kernel env) P (k ()) Q
      ⟨fs, (w.proc.setDir d none).note (.closedir d) ()⟩) :
    wp (kernel env) P (Sys.closedir d >>= k) Q w := by
  refine wp_effect hP ?_
  intro fs r v hr he
  obtain rfl := he
  exact ok fs hr

/-- Opening for reading leaves the file system. -/
theorem wp_openRead {path : Bytes} {k : Option Nat → Io α} (hP : P w (.openFile path .rdonly))
    (fail : ∀ fs, env.rely w.fs fs → env.faults (.openFile path .rdonly) →
      wp (kernel env) P (k none) Q ⟨fs, w.proc.note (.openFile path .rdonly) none⟩)
    (ok : ∀ fs fd, env.rely w.fs fs → fs path ≠ none → w.proc.fds fd = none →
      wp (kernel env) P (k (some fd)) Q
        ⟨fs, (w.proc.setFd fd (some ⟨path, 0⟩)).note (.openFile path .rdonly) (some fd)⟩) :
    wp (kernel env) P (Sys.openFile path .rdonly >>= k) Q w := by
  refine wp_effect hP ?_
  intro fs r v hr he
  rcases r with _ | fd
  · obtain ⟨hf, rfl⟩ := he
    exact fail fs hr hf
  · obtain ⟨hp, hd, rfl⟩ := he
    exact ok fs fd hr hp hd

/-- Opening with `O_CREAT` makes an empty file where there is none. -/
theorem wp_openCreat {path : Bytes} {k : Option Nat → Io α} (hP : P w (.openFile path .rdwrCreat))
    (fail : ∀ fs, env.rely w.fs fs → env.faults (.openFile path .rdwrCreat) →
      wp (kernel env) P (k none) Q ⟨fs, w.proc.note (.openFile path .rdwrCreat) none⟩)
    (ok : ∀ fs fs' fd, env.rely w.fs fs → (∀ q, q ≠ path → fs' q = fs q) → fs'.Has path (fs.bytes path) →
      w.proc.fds fd = none → wp (kernel env) P (k (some fd)) Q
        ⟨fs', (w.proc.setFd fd (some ⟨path, 0⟩)).note (.openFile path .rdwrCreat) (some fd)⟩) :
    wp (kernel env) P (Sys.openFile path .rdwrCreat >>= k) Q w := by
  refine wp_effect hP ?_
  intro fs r v hr he
  rcases r with _ | fd
  · obtain ⟨hf, rfl⟩ := he
    exact fail fs hr hf
  · obtain ⟨hp, hd, rfl⟩ := he
    exact ok fs _ fd hr (fun q hq => by simp [hq]) (FS.has_create hp) hd

theorem wp_close {fd : Nat} {k : Unit → Io α} (hP : P w (.close fd))
    (ok : ∀ fs, env.rely w.fs fs → wp (kernel env) P (k ()) Q
      ⟨fs, (w.proc.setFd fd none).note (.close fd) ()⟩) :
    wp (kernel env) P (Sys.close fd >>= k) Q w := by
  refine wp_effect hP ?_
  intro fs r v hr he
  obtain rfl := he
  exact ok fs hr

theorem wp_fstat {fd : Nat} {k : Option Nat → Io α} (hP : P w (.fstat fd))
    (fail : ∀ fs, env.rely w.fs fs → env.faults (.fstat fd) →
      wp (kernel env) P (k none) Q ⟨fs, w.proc.note (.fstat fd) none⟩)
    (ok : ∀ fs n f, env.rely w.fs fs → w.proc.fds fd = some f → n < 2 ^ 63 →
      (∀ b, fs.Has f.path b → n = b.length) →
      wp (kernel env) P (k (some n)) Q ⟨fs, w.proc.note (.fstat fd) (some n)⟩) :
    wp (kernel env) P (Sys.fstat fd >>= k) Q w := by
  refine wp_effect hP ?_
  intro fs r v hr he
  rcases r with _ | n
  · obtain ⟨hf, rfl⟩ := he
    exact fail fs hr hf
  · obtain ⟨f, hf, hn, hb, rfl⟩ := he
    exact ok fs n f hr hf hn hb

theorem wp_ftruncate {fd : Nat} {len : Int} {why : Resize} {k : Bool → Io α}
    (hP : P w (.ftruncate fd len why))
    (fail : ∀ fs, env.rely w.fs fs → env.faults (.ftruncate fd len why) →
      wp (kernel env) P (k false) Q ⟨fs, w.proc.note (.ftruncate fd len why) false⟩)
    (ok : ∀ fs fs' f, env.rely w.fs fs → w.proc.fds fd = some f → 0 ≤ len →
      fs.Modify f.path (resize 0 len.toNat) fs' →
      wp (kernel env) P (k true) Q ⟨fs', w.proc.note (.ftruncate fd len why) true⟩) :
    wp (kernel env) P (Sys.ftruncate fd len why >>= k) Q w := by
  refine wp_effect hP ?_
  intro fs r v hr he
  rcases r with _ | _
  · obtain ⟨hf, rfl⟩ := he
    exact fail fs hr hf
  · obtain ⟨f, fs', hf, hl, hm, rfl⟩ := he
    exact ok fs fs' f hr hf hl hm

theorem wp_lseek {fd : Nat} {off : Int} {k : Bool → Io α} (hP : P w (.lseek fd off))
    (fail : ∀ fs, env.rely w.fs fs → env.faults (.lseek fd off) →
      wp (kernel env) P (k false) Q ⟨fs, w.proc.note (.lseek fd off) false⟩)
    (ok : ∀ fs f, env.rely w.fs fs → w.proc.fds fd = some f → 0 ≤ off →
      wp (kernel env) P (k true) Q
        ⟨fs, (w.proc.setFd fd (some ⟨f.path, off.toNat⟩)).note (.lseek fd off) true⟩) :
    wp (kernel env) P (Sys.lseek fd off >>= k) Q w := by
  refine wp_effect hP ?_
  intro fs r v hr he
  rcases r with _ | _
  · obtain ⟨hf, rfl⟩ := he
    exact fail fs hr hf
  · obtain ⟨f, hf, hl, rfl⟩ := he
    exact ok fs f hr hf hl

theorem wp_read {fd n : Nat} {k : IoRes Bytes → Io α} (hP : P w (.read fd n))
    (intr : ∀ fs, env.rely w.fs fs →
      wp (kernel env) P (k .intr) Q ⟨fs, w.proc.note (.read fd n) .intr⟩)
    (fail : ∀ fs, env.rely w.fs fs → env.faults (.read fd n) →
      wp (kernel env) P (k .fail) Q ⟨fs, w.proc.note (.read fd n) .fail⟩)
    (done : ∀ fs bs f, env.rely w.fs fs → w.proc.fds fd = some f → bs.length ≤ n →
      (∀ b, fs.Has f.path b → bs <+: b.drop f.pos ∧ (bs = [] → b.length ≤ f.pos)) →
      wp (kernel env) P (k (.done bs)) Q
        ⟨fs, (w.proc.setFd fd (some ⟨f.path, f.pos + bs.length⟩)).note (.read fd n) (.done bs)⟩) :
    wp (kernel env) P (Sys.read fd n >>= k) Q w := by
  refine wp_effect hP ?_
  intro fs r v hr he
  rcases r with _ | _ | bs
  · obtain rfl := he
    exact intr fs hr
  · obtain ⟨hf, rfl⟩ := he
    exact fail fs hr hf
  · obtain ⟨f, hf, -, hn, hb, rfl⟩ := he
    exact done fs bs f hr hf hn hb

theorem wp_write {fd : Nat} {buf : Bytes} {k : IoRes Nat → Io α} (hP : P w (.write fd buf))
    (intr : ∀ fs, env.rely w.fs fs →
      wp (kernel env) P (k .intr) Q ⟨fs, w.proc.note (.write fd buf) .intr⟩)
    (fail : ∀ fs, env.rely w.fs fs → env.faults (.write fd buf) →
      wp (kernel env) P (k .fail) Q ⟨fs, w.proc.note (.write fd buf) .fail⟩)
    (done : ∀ fs fs' m f, env.rely w.fs fs → w.proc.fds fd = some f → m ≤ buf.length →
      (m = 0 → env.faults (.write fd buf)) → fs.Modify f.path (patch 0 · f.pos (buf.take m)) fs' →
      wp (kernel env) P (k (.done m)) Q
        ⟨fs', (w.proc.setFd fd (some ⟨f.path, f.pos + m⟩)).note (.write fd buf) (.done m)⟩) :
    wp (kernel env) P (Sys.write fd buf >>= k) Q w := by
  refine wp_effect hP ?_
  intro fs r v hr he
  rcases r with _ | _ | m
  · obtain rfl := he
    exact intr fs hr
  · obtain ⟨hf, rfl⟩ := he
    exact fail fs hr hf
  · obtain ⟨f, fs', hf, hn, h0, hm, rfl⟩ := he
    exact done fs fs' m f hr hf hn h0 hm

theorem wp_sendfile {fd n : Nat} {off : Int} {k : IoRes Nat → Io α} (hP : P w (.sendfile fd off n))
    (intr : ∀ fs, env.rely w.fs fs →
      wp (kernel env) P (k .intr) Q ⟨fs, w.proc.note (.sendfile fd off n) .intr⟩)
    (fail : ∀ fs, env.rely w.fs fs → env.faults (.sendfile fd off n) →
      wp (kernel env) P (k .fail) Q ⟨fs, w.proc.note (.sendfile fd off n) .fail⟩)
    (done : ∀ fs bs f, env.rely w.fs fs → w.proc.fds fd = some f → 0 ≤ off → bs.length ≤ n →
      (∀ b, fs.Has f.path b → bs <+: b.drop off.toNat ∧
        (bs = [] → b.length ≤ off ∨ env.faults (.sendfile fd off n))) →
      wp (kernel env) P (k (.done bs.length)) Q
        ⟨fs, (w.proc.addSent bs).note (.sendfile fd off n) (.done bs.length)⟩) :
    wp (kernel env) P (Sys.sendfile fd off n >>= k) Q w := by
  refine wp_effect hP ?_
  intro fs r v hr he
  rcases r with _ | _ | m
  · obtain rfl := he
    exact intr fs hr
  · obtain ⟨hf, rfl⟩ := he
    exact fail fs hr hf
  · obtain ⟨f, bs, hf, -, ho, rfl, hn, hb, rfl⟩ := he
    exact done fs bs f hr hf ho hn hb

theorem wp_mmap {fd len : Nat} {k : Option Nat → Io α} (hP : P w (.mmap fd len))
    (fail : ∀ fs, env.rely w.fs fs → env.faults (.mmap fd len) →
      wp (kernel env) P (k none) Q ⟨fs, w.proc.note (.mmap fd len) none⟩)
    (ok : ∀ fs m f, env.rely w.fs fs → w.proc.fds fd = some f → w.proc.maps m = none →
      wp (kernel env) P (k (some m)) Q
        ⟨fs, (w.proc.setMap m (some ⟨f.path, len⟩)).note (.mmap fd len) (some m)⟩) :
    wp (kernel env) P (Sys.mmap fd len >>= k) Q w := by
  refine wp_effect hP ?_
  intro fs r v hr he
  rcases r with _ | m
  · obtain ⟨hf, rfl⟩ := he
    exact fail fs hr hf
  · obtain ⟨f, hf, hm, rfl⟩ := he
    exact ok fs m f hr hf hm

theorem wp_memcpy {m off : Nat} {data : Bytes} {k : Unit → Io α} (hP : P w (.memcpy m off data))
    (ok : ∀ fs fs' mp, env.rely w.fs fs → w.proc.maps m = some mp →
      fs.Modify mp.path (store · off data) fs' →
      wp (kernel env) P (k ()) Q ⟨fs', w.proc.note (.memcpy m off data) ()⟩) :
    wp (kernel env) P (Sys.memcpy m off data >>= k) Q w := by
  refine wp_effect hP ?_
  intro fs r v hr he
  obtain ⟨mp, fs', hm, hs, rfl⟩ := he
  exact ok fs fs' mp hr hm hs

theorem wp_munmap {m : Nat} {k : Unit → Io α} (hP : P w (.munmap m))
    (ok : ∀ fs, env.rely w.fs fs → wp (kernel env) P (k ()) Q
      ⟨fs, (w.proc.setMap m none).note (.munmap m) ()⟩) :
    wp (kernel env) P (Sys.munmap m >>= k) Q w := by
  refine wp_effect hP ?_
  intro fs r v hr he
  obtain rfl := he
  exact ok fs hr

end Rules
end WindCloud
