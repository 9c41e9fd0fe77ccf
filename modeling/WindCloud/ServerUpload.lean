import WindCloud.Server
/-!
# What the server's `handle_puts` can do

`PutsPoint` lists the calls `handle_puts` makes, each with the state the process is in when it
makes it; `PutsEnd` lists the ways it returns, each with the contents of the target. Both speak
of the process alone (what it has received, sent and called), whatever others do to the file
system in the meantime; the contents are given for an environment in which nobody else touches
the file. `wp_handlePuts` is the proof; everything that is said of uploads is read off these two
lists.
-/

namespace WindCloud

open Interaction Prog FileImage

/-- `path` holds `bytes`, if nobody else writes to the file system. -/
def Held (env : Env) (fs : FS) (path bytes : Bytes) : Prop := env.Quiet → fs.Has path bytes

section Held

variable {env : Env} {fs fs' : FS} {path bytes : Bytes} {g : Bytes → Bytes}

theorem Held.rely (h : Held env fs path bytes) (hr : env.rely fs fs') : Held env fs' path bytes :=
  fun hq => hq hr ▸ h hq

theorem Held.modify (h : Held env fs path bytes) (hm : fs.Modify path g fs') : Held env fs' path (g bytes) :=
  fun hq => (h hq).modify hm

end Held

namespace Server

/-! ## The stages of an upload -/

/-- The real path and the announced size of an upload request. -/
def uploadTarget (session : Session) (packet : Packet) : Option (Bytes × UInt64) :=
  match extractFileInfo packet pathMax with
  | none => none
  | some (fileName, totalSize) =>
    if fileName = [] then none
    else (resolveTargetPath session.currentPath fileName pathMax pathMax).map fun r => (r.2, totalSize)

theorem uploadTarget_eq_some {session : Session} {packet : Packet} {path : Bytes} {total : UInt64} :
    uploadTarget session packet = some (path, total) ↔ ∃ fileName virtualPath,
      extractFileInfo packet pathMax = some (fileName, total) ∧ fileName ≠ [] ∧
        resolveTargetPath session.currentPath fileName pathMax pathMax = some (virtualPath, path) := by
  unfold uploadTarget
  rcases extractFileInfo packet pathMax with _ | ⟨fileName, totalSize⟩
  · simp
  · by_cases hn : fileName = []
    · simp [hn]
    · simp only [if_neg hn, Option.map_eq_some_iff, Option.some.injEq, Prod.mk.injEq]
      constructor
      · rintro ⟨⟨v, p⟩, hr, rfl, rfl⟩
        exact ⟨fileName, v, ⟨rfl, rfl⟩, hn, hr⟩
      · rintro ⟨name, v, ⟨rfl, rfl⟩, -, hr⟩
        exact ⟨_, hr, rfl, rfl⟩

/-- What `handle_puts` does with the answer of `fstat`. -/
def uploadMeasured (session : Session) (fd : Nat) (total : UInt64) (st : Option Nat) : Io (Rc × Session) :=
  if resumePoint st > total then do
    match ← Sys.ftruncate fd 0 .reset with
    | false =>
      Sys.close fd
      reply session .error .ioError (lit "服务端重置文件失败")
    | true => uploadFrom session fd total 0
  else uploadFrom session fd total (resumePoint st)

/-- The offset `PUTS_RESP` carries, from the answer of `fstat`. -/
def startOffset (total : UInt64) (st : Option Nat) : UInt64 :=
  if resumePoint st > total then 0 else resumePoint st

/-- What a reset leaves of the contents `C`. -/
def kept (total : UInt64) (st : Option Nat) (C : Bytes) : Bytes :=
  if resumePoint st > total then [] else C

/-- The answer to the upload request. -/
def putsResp (total : UInt64) (st : Option Nat) : Packet := resumePacket .putsResp (startOffset total st)

/-- Opening the target. -/
def openedEvents (path : Bytes) (fd : Nat) : List Event := [⟨.openFile path .rdwrCreat, some fd⟩]

/-- Opening, measuring and resetting it. -/
def measuredEvents (path : Bytes) (total : UInt64) (fd : Nat) (st : Option Nat) : List Event :=
  openedEvents path fd ++ [⟨.fstat fd, st⟩] ++
    if resumePoint st > total then [⟨.ftruncate fd 0 .reset, true⟩] else []

/-- Extending and mapping it. -/
def mappedEvents (total : UInt64) (fd : Nat) : Option Nat → List Event
  | some m => [⟨.ftruncate fd (offT total) .extend, true⟩, ⟨.mmap fd total.toNat, some m⟩]
  | none => []

/-- Copying the blocks, the first to `off`. -/
def copyEvents (map : Option Nat) : Nat → List Packet → List Event
  | _, [] => []
  | off, p :: ps =>
    (match map with
      | some m => if p.data = [] then [] else [⟨.memcpy m off p.data, ()⟩]
      | none => []) ++ copyEvents map (off + p.data.length) ps

/-- An upload in its receive loop: the answers it got, and the blocks it took. -/
structure Progress where
  fd : Nat
  st : Option Nat
  map : Option Nat
  pkts : List Packet

namespace Progress

variable (b : Proc) (path : Bytes) (total : UInt64) (u : Progress)

def data : Bytes := payloads u.pkts

/-- `write_offset`. -/
def offset : Nat := (startOffset total u.st).toNat + u.data.length

def trace : List Event :=
  measuredEvents path total u.fd u.st ++ mappedEvents total u.fd u.map ++
    copyEvents u.map (startOffset total u.st).toNat u.pkts

/-- The process when it has received `r` of the stream after the request. -/
def proc (r : Bytes) : Proc :=
  ((b.ran r (putsResp total u.st).wire (u.trace path total)).setFd u.fd (some ⟨path, 0⟩)).mapAt u.map
    ⟨path, total.toNat⟩

/-- The target's contents, from those it had. -/
def file (C : Bytes) : Bytes :=
  match u.map with
  | some _ => store (resize 0 total.toNat (kept total u.st C)) (startOffset total u.st).toNat u.data
  | none => kept total u.st C

/-- One more block. -/
def add (p : Packet) : Progress := { u with pkts := u.pkts ++ [p] }

structure Ok : Prop where
  fd : b.fds u.fd = none
  map : ∀ m, u.map = some m → b.maps m = none
  mapped : u.map = none ↔ total = 0
  blocks : ∀ p ∈ u.pkts, p.Valid ∧ p.Is .fileData
  fits : u.offset total ≤ total.toNat
  lt : total.toNat < 2 ^ 63

end Progress

/-- Why the receive loop stops at `write_offset = off`: the bytes it took last, the session and
`success`. -/
inductive Stop (env : Env) (session : Session) (total : UInt64) (off : Nat) : Bytes → Session → Bool → Prop
  | fileEnd {p : Packet} : p.Valid → p.Is .fileEnd →
      Stop env session total off p.wire session (off == total.toNat)
  | refused {p : Packet} : p.Valid → ¬ p.Is .fileEnd →
      (p.Is .fileData → total.toNat < off + p.data.length) →
      Stop env session total off p.wire session.closing false
  | broken {bs : Bytes} : Partial bs → Broken env .follow bs →
      Stop env session total off bs session.closing false

/-- The last reply. -/
def putsReply (success : Bool) : Packet :=
  if success then textPacket .ack .ok (lit "上传完成")
  else textPacket .error .ioError (lit "上传中断，已保存断点")

/-- After the loop, up to the cut. -/
def unmappedEvents : Option Nat → List Event
  | some m => [⟨.munmap m, ()⟩]
  | none => []

/-- The cut and the close; `cut` is the answer of `ftruncate`. -/
def closedEvents (total : UInt64) (u : Progress) (success cut : Bool) : List Event :=
  unmappedEvents u.map ++
    (if success then [] else [⟨.ftruncate u.fd (offT (.ofNat (u.offset total))) .cut, cut⟩]) ++
    [⟨.close u.fd, ()⟩]

/-! ## The calls -/

/-- The calls of `handle_puts` on the target `path` with the announced size `total`, and the
process when it makes them; `b` is the process at the start. -/
inductive PutsPoint (env : Env) (b : Proc) (path : Bytes) (total : UInt64) : Proc → Call → Prop
  | openFile : PutsPoint env b path total b (.openFile path .rdwrCreat)
  | fstat {fd : Nat} : b.fds fd = none → PutsPoint env b path total
      ((b.ran [] [] (openedEvents path fd)).setFd fd (some ⟨path, 0⟩)) (.fstat fd)
  | reset {fd : Nat} {st : Option Nat} : b.fds fd = none → resumePoint st > total →
      PutsPoint env b path total
        ((b.ran [] [] (openedEvents path fd ++ [⟨.fstat fd, st⟩])).setFd fd (some ⟨path, 0⟩))
        (.ftruncate fd 0 .reset)
  | resume {fd : Nat} {st : Option Nat} {pre rest : Bytes} : b.fds fd = none →
      pre ++ rest <+: (putsResp total st).wire → rest ≠ [] → PutsPoint env b path total
        ((b.ran [] pre (measuredEvents path total fd st)).setFd fd (some ⟨path, 0⟩)) (.send rest)
  | extend {fd : Nat} {st : Option Nat} : b.fds fd = none → 0 < total → PutsPoint env b path total
      ((b.ran [] (putsResp total st).wire (measuredEvents path total fd st)).setFd fd (some ⟨path, 0⟩))
      (.ftruncate fd (offT total) .extend)
  | mmap {fd : Nat} {st : Option Nat} : b.fds fd = none → 0 < total → PutsPoint env b path total
      ((b.ran [] (putsResp total st).wire (measuredEvents path total fd st ++
        [⟨.ftruncate fd (offT total) .extend, true⟩])).setFd fd (some ⟨path, 0⟩)) (.mmap fd total.toNat)
  | recv {u : Progress} {bs : Bytes} {n : Nat} : u.Ok b total → Wanting bs n →
      PutsPoint env b path total (u.proc b path total (Packet.wires u.pkts ++ bs)) (.recv .follow n)
  | calloc {u : Progress} {bs : Bytes} {n : Nat} : u.Ok b total → Wanting bs n →
      PutsPoint env b path total (u.proc b path total (Packet.wires u.pkts ++ bs)) (.calloc n)
  | memcpy {u : Progress} {p : Packet} {m : Nat} : (u.add p).Ok b total → u.map = some m → p.data ≠ [] →
      PutsPoint env b path total (u.proc b path total (Packet.wires (u.pkts ++ [p])))
        (.memcpy m (u.offset total) p.data)
  | munmap {u : Progress} {tail : Bytes} {session session' : Session} {success : Bool} {m : Nat} :
      u.Ok b total → Stop env session total (u.offset total) tail session' success → u.map = some m →
      PutsPoint env b path total (u.proc b path total (Packet.wires u.pkts ++ tail)) (.munmap m)
  | cut {u : Progress} {tail : Bytes} {session session' : Session} : u.Ok b total →
      Stop env session total (u.offset total) tail session' false → PutsPoint env b path total
        ((b.ran (Packet.wires u.pkts ++ tail) (putsResp total u.st).wire
          (u.trace path total ++ unmappedEvents u.map)).setFd u.fd (some ⟨path, 0⟩))
        (.ftruncate u.fd (offT (.ofNat (u.offset total))) .cut)
  | closeEnd {u : Progress} {tail : Bytes} {session session' : Session} {success : Bool} {t : List Event} :
      u.Ok b total → Stop env session total (u.offset total) tail session' success →
      PutsPoint env b path total
        ((b.ran (Packet.wires u.pkts ++ tail) (putsResp total u.st).wire t).setFd u.fd (some ⟨path, 0⟩))
        (.close u.fd)
  | replyEnd {u : Progress} {tail : Bytes} {session session' : Session} {success cut : Bool}
      {pre rest : Bytes} : u.Ok b total →
      Stop env session total (u.offset total) tail session' success →
      pre ++ rest <+: (putsReply success).wire → rest ≠ [] → PutsPoint env b path total
        (b.ran (Packet.wires u.pkts ++ tail) ((putsResp total u.st).wire ++ pre)
          (u.trace path total ++ closedEvents total u success cut)) (.send rest)
  /-- The target could not be opened or reset. -/
  | closeEarly {fd : Nat} {t : List Event} : PutsPoint env b path total
      ((b.ran [] [] t).setFd fd (some ⟨path, 0⟩)) (.close fd)
  | replyEarly {t : List Event} {e : Packet} {pre rest : Bytes} : e.Valid → e.Is .error →
      pre ++ rest <+: e.wire → rest ≠ [] → PutsPoint env b path total (b.ran [] pre t) (.send rest)
  /-- `PUTS_RESP` could not be sent. -/
  | closeUnsent {fd : Nat} {st : Option Nat} {pre rest : Bytes} {t : List Event} :
      pre ++ rest <+: (putsResp total st).wire → rest ≠ [] → env.faults (.send rest) →
      PutsPoint env b path total ((b.ran [] pre t).setFd fd (some ⟨path, 0⟩)) (.close fd)
  /-- The extension or the mapping failed. -/
  | closeLate {fd : Nat} {st : Option Nat} {c : Call} {t : List Event} : env.faults c →
      c = .ftruncate fd (offT total) .extend ∨ c = .mmap fd total.toNat → PutsPoint env b path total
        ((b.ran [] (putsResp total st).wire t).setFd fd (some ⟨path, 0⟩)) (.close fd)
  | replyLate {fd : Nat} {st : Option Nat} {c : Call} {t : List Event} {e : Packet} {pre rest : Bytes} :
      env.faults c → c = .ftruncate fd (offT total) .extend ∨ c = .mmap fd total.toNat →
      e.Valid → e.Is .error → pre ++ rest <+: e.wire → rest ≠ [] → PutsPoint env b path total
        (b.ran [] ((putsResp total st).wire ++ pre) t) (.send rest)

/-! ## The returns -/

/-- What has been sent of the packet `e` when a function returns `rc`. -/
def Sent (env : Env) (e : Packet) (rc : Rc) (pre : Bytes) : Prop :=
  rc = .ok ∧ pre = e.wire ∨
    rc = .fail ∧ ∃ rest, pre ++ rest <+: e.wire ∧ rest ≠ [] ∧ env.faults (.send rest)

/-- `fstat` failed, or gave the size of `C`. -/
structure Measured (env : Env) (st : Option Nat) (C : Bytes) : Prop where
  fault : st = none → ∃ fd, env.faults (.fstat fd)
  size : env.Quiet → ∀ n, st = some n → n = C.length

/-- What `handle_puts` refuses before it answers with `PUTS_RESP`: the calls it has made, and what it says. -/
inductive Refused (env : Env) (path C : Bytes) (total : UInt64) (fs : FS) : List Event → Packet → Prop
  | unopened : Refused env path C total fs [⟨.openFile path .rdwrCreat, none⟩]
      (textPacket .error .ioError (lit "服务端无法创建文件"))
  | unreset {fd : Nat} {st : Option Nat} {t : List Event} : openedEvents path fd <+: t → resumePoint st > total →
      env.faults (.ftruncate fd 0 .reset) → Measured env st C → Held env fs path C →
      Refused env path C total fs t (textPacket .error .ioError (lit "服务端重置文件失败"))

/-- How `handle_puts` returns; `C` is what the target held at the start (empty when absent). -/
inductive PutsEnd (env : Env) (b : Proc) (path : Bytes) (total : UInt64) (session : Session) (C : Bytes) :
    Rc × Session → World → Prop
  /-- An error before the target was changed. -/
  | refused {fs : FS} {t : List Event} {e : Packet} {rc : Rc} {pre : Bytes} : e.Valid → e.Is .error →
      Sent env e rc pre → (env.Quiet → fs.bytes path = C) → (∀ fd n, (⟨.mmap fd n, none⟩ : Event) ∉ t) →
      Refused env path C total fs t e → PutsEnd env b path total session C (rc, session) ⟨fs, b.ran [] pre t⟩
  | unsent {fs : FS} {fd : Nat} {st : Option Nat} {pre : Bytes} : Sent env (putsResp total st) .fail pre →
      Measured env st C → Held env fs path (kept total st C) →
      PutsEnd env b path total session C (.fail, session.closing)
        ⟨fs, b.ran [] pre (measuredEvents path total fd st ++ [⟨.close fd, ()⟩])⟩
  | extendFailed {fs : FS} {fd : Nat} {st : Option Nat} {e : Packet} {rc : Rc} {pre : Bytes} :
      env.faults (.ftruncate fd (offT total) .extend) → 0 < total → e.Valid → e.Is .error → Sent env e rc pre →
      Measured env st C → Held env fs path (kept total st C) →
      e = textPacket .error .ioError (lit "服务端预分配文件失败") →
      PutsEnd env b path total session C (rc, session)
        ⟨fs, b.ran [] ((putsResp total st).wire ++ pre) (measuredEvents path total fd st ++
          [⟨.ftruncate fd (offT total) .extend, false⟩, ⟨.close fd, ()⟩])⟩
  | mapFailed {fs : FS} {fd : Nat} {st : Option Nat} {e : Packet} {rc : Rc} {pre : Bytes} :
      env.faults (.mmap fd total.toNat) → 0 < total → total.toNat < 2 ^ 63 → e.Valid → e.Is .error →
      Sent env e rc pre → Measured env st C → Held env fs path (resize 0 total.toNat (kept total st C)) →
      e = textPacket .error .ioError (lit "服务端映射文件失败") →
      PutsEnd env b path total session C (rc, session)
        ⟨fs, b.ran [] ((putsResp total st).wire ++ pre) (measuredEvents path total fd st ++
          [⟨.ftruncate fd (offT total) .extend, true⟩, ⟨.mmap fd total.toNat, none⟩, ⟨.close fd, ()⟩])⟩
  | done {fs : FS} {u : Progress} {tail : Bytes} {session' : Session} {success cut : Bool} {rc : Rc}
      {pre : Bytes} : u.Ok b total → Stop env session total (u.offset total) tail session' success →
      (cut = false → ∃ fd n, env.faults (.ftruncate fd n .cut)) →
      Sent env (putsReply success) rc pre → Measured env u.st C →
      Held env fs path (if ¬ success ∧ cut then resize 0 (u.offset total) (u.file total C) else u.file total C) →
      PutsEnd env b path total session C (rc, session')
        ⟨fs, b.ran (Packet.wires u.pkts ++ tail) ((putsResp total u.st).wire ++ pre)
          (u.trace path total ++ closedEvents total u success cut)⟩

section Packets

variable {env : Env} {total : UInt64}

theorem Sent.starts {e : Packet} {rc : Rc} {pre : Bytes} (h : Sent env e rc pre) : pre <+: e.wire := by
  rcases h with ⟨-, rfl⟩ | ⟨-, rest, h, -⟩
  · exact List.prefix_refl _
  · exact (List.prefix_append _ _).trans h

theorem Sent.mono {env' : Env} {e : Packet} {rc : Rc} {pre : Bytes} (hs : Sent env e rc pre)
    (hf : ∀ buf, env.faults (.send buf) → env'.faults (.send buf)) : Sent env' e rc pre := by
  rcases hs with h | ⟨hrc, rest, hpre, hne, hfault⟩
  · exact .inl h
  · exact .inr ⟨hrc, rest, hpre, hne, hf rest hfault⟩

theorem putsReply_valid (success : Bool) : (putsReply success).Valid := by
  cases success <;> exact textPacket_valid (by decide)

@[simp] theorem putsReply_is {success : Bool} {type : CmdType} :
    (putsReply success).Is type ↔ (if success then .ack else .error) = type := by
  cases success <;> exact Packet.of_is

theorem putsResp_valid (st : Option Nat) : (putsResp total st).Valid :=
  Packet.of_valid _ _ (by rw [length_resumePayload]; decide)

@[simp] theorem putsResp_is {st : Option Nat} {type : CmdType} : (putsResp total st).Is type ↔ .putsResp = type :=
  Packet.of_is

end Packets

/-! ## Progress by one block -/

section Progress

variable {b : Proc} {path : Bytes} {total : UInt64} {u : Progress} {p : Packet} {C : Bytes}

theorem copyEvents_append (map : Option Nat) (off : Nat) (ps qs : List Packet) :
    copyEvents map off (ps ++ qs) = copyEvents map off ps ++ copyEvents map (off + (payloads ps).length) qs := by
  induction ps generalizing off with
  | nil => simp [copyEvents]
  | cons p ps ih => simp [copyEvents, ih, Nat.add_assoc]

namespace Progress

@[simp] theorem add_fd : (u.add p).fd = u.fd := rfl
@[simp] theorem add_st : (u.add p).st = u.st := rfl
@[simp] theorem add_map : (u.add p).map = u.map := rfl
@[simp] theorem add_pkts : (u.add p).pkts = u.pkts ++ [p] := rfl
@[simp] theorem add_data : (u.add p).data = u.data ++ p.data := by simp [data]

theorem add_offset : (u.add p).offset total = u.offset total + p.data.length := by
  simp [offset, Nat.add_assoc]

theorem add_trace : (u.add p).trace path total =
    u.trace path total ++ copyEvents u.map (u.offset total) [p] := by
  simp [trace, copyEvents_append, offset, data]

@[simp] theorem proc_addRcvd (r bs : Bytes) :
    (u.proc b path total r).addRcvd bs = u.proc b path total (r ++ bs) := by simp [proc]

theorem proc_add (r : Bytes) (h : copyEvents u.map (u.offset total) [p] = []) :
    (u.add p).proc b path total r = u.proc b path total r := by
  simp [proc, add_trace, h]

theorem proc_maps {m : Nat} (r : Bytes) (h : u.map = some m) :
    (u.proc b path total r).maps m = some ⟨path, total.toNat⟩ := by
  simp [proc, h, Proc.mapAt]

theorem proc_rcvd (r : Bytes) : (u.proc b path total r).rcvd = b.rcvd ++ r := by simp [proc]
theorem proc_sent (r : Bytes) : (u.proc b path total r).sent = b.sent ++ (putsResp total u.st).wire := by simp [proc]
theorem proc_trace (r : Bytes) : (u.proc b path total r).trace = b.trace ++ u.trace path total := by simp [proc]

theorem Ok.block_lt (h : u.Ok b total) : u.offset total < 2 ^ 63 := Nat.lt_of_le_of_lt h.fits h.lt

theorem Ok.toNat_offset (h : u.Ok b total) : (UInt64.ofNat (u.offset total)).toNat = u.offset total :=
  UInt64.toNat_ofNat_of_lt' (by have := h.block_lt; show _ < 2 ^ 64; omega)

/-- The check before the copy (`handle.c:702`) does not overflow. -/
theorem Ok.overrun (h : u.Ok b total) (hp : p.Valid) :
    .ofNat (u.offset total) + p.header.dataLen.toUInt64 > total ↔ total.toNat < u.offset total + p.data.length := by
  have h1 := h.block_lt
  have h2 := hp.data_le
  have hm : maxPacketPayload.toNat = 65536 := rfl
  rw [gt_iff_lt, UInt64.lt_iff_toNat_lt, UInt64.toNat_add, h.toNat_offset, UInt32.toNat_toUInt64, ← hp.length,
    Nat.mod_eq_of_lt (by omega)]

theorem Ok.add (h : u.Ok b total) (hp : p.Valid) (hd : p.Is .fileData)
    (hfit : u.offset total + p.data.length ≤ total.toNat) : (u.add p).Ok b total where
  fd := h.fd
  map := h.map
  mapped := h.mapped
  blocks := forall_mem_snoc h.blocks ⟨hp, hd⟩
  fits := by rwa [add_offset]
  lt := h.lt

theorem next_offset (hp : p.Valid) :
    .ofNat (u.offset total) + p.header.dataLen.toUInt64 = .ofNat ((u.add p).offset total) := by
  rw [add_offset, UInt64.ofNat_add, hp.length]
  congr 1
  rw [← UInt64.toNat_inj, UInt32.toNat_toUInt64]
  have := p.header.dataLen.toNat_lt
  exact (UInt64.toNat_ofNat_of_lt' (by show _ < 2 ^ 64; omega)).symm

theorem add_file : (u.add p).file total C =
    match u.map with
    | some _ => store (u.file total C) (u.offset total) p.data
    | none => u.file total C := by
  unfold file
  rcases hm : u.map with _ | m <;> simp [hm, offset, store_store]

end Progress
end Progress

/-! ## The proof -/

section Rules

variable {env : Env} {b : Proc} {path C : Bytes} {total : UInt64} {session : Session} {fs : FS}

/-- The copy of a block that fits. -/
theorem wp_copyBlock {u : Progress} {p : Packet} {Q : Unit → World → Prop} (hu : (u.add p).Ok b total)
    (hp : p.Valid) (hC : Held env fs path (u.file total C))
    (hQ : ∀ fs, Held env fs path ((u.add p).file total C) →
      Q () ⟨fs, (u.add p).proc b path total (Packet.wires (u.add p).pkts)⟩) :
    wp (kernel env) (fun v c => PutsPoint env b path total v.proc c)
      (copyBlock u.map (.ofNat (u.offset total)) p) Q
      ⟨fs, u.proc b path total (Packet.wires (u.pkts ++ [p]))⟩ := by
  have hdata : p.data.take p.header.dataLen.toNat = p.data := by rw [← hp.length, List.take_length]
  have hlen : p.header.dataLen > 0 ↔ p.data ≠ [] := by
    rw [gt_iff_lt, UInt32.lt_iff_toNat_lt, ← hp.length]
    exact List.length_pos_iff
  have hoff : (UInt64.ofNat (u.offset total)).toNat = u.offset total := by
    have h1 := hu.block_lt
    rw [Progress.add_offset] at h1
    exact UInt64.toNat_ofNat_of_lt' (by show _ < 2 ^ 64; omega)
  have hstay (h : copyEvents u.map (u.offset total) [p] = []) (hf : (u.add p).file total C = u.file total C) :
      Q () ⟨fs, u.proc b path total (Packet.wires (u.pkts ++ [p]))⟩ := by
    have := hQ fs (hf ▸ hC)
    rwa [Progress.proc_add _ h] at this
  unfold copyBlock
  rcases hm : u.map with _ | m
  · exact hstay (by simp [copyEvents, hm]) (by rw [Progress.add_file, hm])
  · simp only
    split
    · rename_i h
      rw [hlen] at h
      rw [hdata, hoff, ← bind_ret (Sys.memcpy _ _ _)]
      refine wp_memcpy (.memcpy hu hm h) ?_
      intro fs₁ fs₂ mp hr hmp hst
      obtain rfl : mp = ⟨path, total.toNat⟩ := by
        exact (Option.some.inj ((Progress.proc_maps _ hm).symm.trans hmp)).symm
      have hfile : (u.add p).file total C = store (u.file total C) (u.offset total) p.data := by
        rw [Progress.add_file, hm]
      have := hQ fs₂ (hfile ▸ (hC.rely hr).modify hst)
      simpa [Progress.proc, Progress.add_trace, copyEvents, hm, h] using this
    · rename_i h
      rw [hlen, not_not] at h
      apply hstay (by simp [copyEvents, h, hm])
      rw [Progress.add_file, hm, h, store_nil]

/-- The receive loop, from the first block on. -/
theorem wp_receiveLoop {u : Progress} {Q : Session × UInt64 × Bool → World → Prop} (hu : u.Ok b total)
    (hnil : u.pkts = []) (hC : Held env fs path (u.file total C))
    (hQ : ∀ fs (u' : Progress) tail session' success, u'.fd = u.fd → u'.st = u.st → u'.map = u.map →
      u'.Ok b total → Stop env session total (u'.offset total) tail session' success → Held env fs path (u'.file total C) →
      Q (session', .ofNat (u'.offset total), success)
        ⟨fs, u'.proc b path total (Packet.wires u'.pkts ++ tail)⟩) :
    wp (kernel env) (fun v c => PutsPoint env b path total v.proc c)
      (receiveLoop session total u.map (startOffset total u.st)) Q ⟨fs, u.proc b path total []⟩ := by
  have hstart : startOffset total u.st = .ofNat (u.offset total) := by
    rw [← UInt64.toNat_inj, hu.toNat_offset]
    simp [Progress.offset, Progress.data, hnil]
  refine wp_loop (fun off v => ∃ fs, ∃ u' : Progress, u'.fd = u.fd ∧ u'.st = u.st ∧ u'.map = u.map ∧ u'.Ok b total ∧
      off = .ofNat (u'.offset total) ∧ Held env fs path (u'.file total C) ∧
      v = ⟨fs, u'.proc b path total (Packet.wires u'.pkts)⟩)
    ⟨fs, u, rfl, rfl, rfl, hu, hstart, hC, by simp [hnil]⟩ ?_
  rintro _ _ ⟨fs, u', hfd, hst, hmap, hu', rfl, hC', rfl⟩
  refine wp_bind.2 (wp_recvFollowPacket ?_ ?_ ?_ ?_)
  · intro fs₁ bs n _ hw
    rw [Progress.proc_addRcvd]
    exact .recv hu' hw
  · intro fs₁ bs n _ hw
    rw [Progress.proc_addRcvd]
    exact .calloc hu' hw
  · intro fs₁ p hr hp
    have hC₁ := hC'.rely hr
    rw [Progress.proc_addRcvd]
    have hstop {session' : Session} {success : Bool}
        (h : Stop env session total (u'.offset total) p.wire session' success) :=
      hQ fs₁ u' p.wire session' success hfd hst hmap hu' h hC₁
    simp only
    split
    · rename_i hend
      have hbeq : (UInt64.ofNat (u'.offset total) == total) = (u'.offset total == total.toNat) := by
        rw [Bool.eq_iff_iff, beq_iff_eq, beq_iff_eq, ← UInt64.toNat_inj, hu'.toNat_offset]
      rw [hbeq]
      exact hstop (.fileEnd hp hend)
    split
    · rename_i hend hdata
      exact hstop (.refused hp hend fun h => absurd h hdata)
    split
    · rename_i hend hdata hover
      exact hstop (.refused hp hend fun _ => (hu'.overrun hp).1 hover)
    · rename_i hend hdata hover
      rw [hu'.overrun hp, not_lt] at hover
      have hadd := hu'.add hp (not_not.1 hdata) hover
      have hw : Packet.wires u'.pkts ++ p.wire = Packet.wires (u'.pkts ++ [p]) := by simp
      rw [hw, ← hmap]
      rw [← hmap] at hQ
      refine wp_bind.2 (wp_copyBlock hadd hp hC₁ fun fs₂ hC₂ => ?_)
      exact ⟨fs₂, u'.add p, hfd, hst, rfl, hadd, Progress.next_offset hp, hC₂, rfl⟩
  · intro fs₁ bs p hr hpart hbroken
    rw [Progress.proc_addRcvd]
    exact hQ fs₁ u' bs _ _ hfd hst hmap hu' (.broken hpart hbroken) (hC'.rely hr)

theorem Progress.proc_unmap {u : Progress} {m : Nat} (hu : u.Ok b total) (hm : u.map = some m) (r : Bytes) :
    (((u.proc b path total r).setMap m none).note (.munmap m) ()) =
      (b.ran r (putsResp total u.st).wire (u.trace path total ++ unmappedEvents u.map)).setFd u.fd
        (some ⟨path, 0⟩) := by
  have hfree : ((b.ran r (putsResp total u.st).wire (u.trace path total)).setFd u.fd (some ⟨path, 0⟩)).maps m =
      none := hu.map m hm
  rw [Progress.proc, hm, Proc.setMap_mapAt _ _ hfree]
  simp [unmappedEvents]

theorem Proc.closed {p : Proc} {fd : Nat} (h : p.fds fd = none) (r s : Bytes) (t : List Event)
    (f : Option OpenFile) : (((p.ran r s t).setFd fd f).setFd fd none).note (.close fd) () =
      p.ran r s (t ++ [⟨.close fd, ()⟩]) := by
  rw [Proc.setFd_setFd, Proc.setFd_note, Proc.ran_note]
  exact Proc.setFd_none (p.ran r s (t ++ [⟨.close fd, ()⟩])) fd h

section Finish

variable {u : Progress} {tail : Bytes} {session' : Session} {success : Bool}

/-- The last reply. -/
theorem wp_putsReply {cut : Bool} {type : CmdType} {status : StatusCode} {msg : Bytes} (hu : u.Ok b total)
    (hs : Stop env session total (u.offset total) tail session' success) (hst : Measured env u.st C)
    (hcut : cut = false → ∃ fd n, env.faults (.ftruncate fd n .cut))
    (hC : Held env fs path
      (if ¬ success ∧ cut then resize 0 (u.offset total) (u.file total C) else u.file total C))
    (hmsg : textPacket type status msg = putsReply success) (hlen : msg.length < maxPacketPayload.toNat) :
    wp (kernel env) (fun v c => PutsPoint env b path total v.proc c) (reply session' type status msg)
      (PutsEnd env b path total session C)
      ⟨fs, b.ran (Packet.wires u.pkts ++ tail) (putsResp total u.st).wire
        (u.trace path total ++ closedEvents total u success cut)⟩ := by
  refine wp_reply hlen ?_ ?_ ?_
  · intro fs₁ pre rest _ hpre hne
    rw [hmsg] at hpre
    simp only [Proc.ran_addSent]
    exact .replyEnd hu hs hpre hne
  · intro fs₁ hr
    rw [hmsg]
    simp only [Proc.ran_addSent]
    exact .done hu hs hcut (.inl ⟨rfl, rfl⟩) hst (hC.rely hr)
  · intro fs₁ pre rest hr hpre hne hf
    rw [hmsg] at hpre
    simp only [Proc.ran_addSent]
    exact .done hu hs hcut (.inr ⟨rfl, rest, hpre, hne, hf⟩) hst (hC.rely hr)

/-- A success: close and reply. -/
theorem wp_finishOk (hu : u.Ok b total) (hs : Stop env session total (u.offset total) tail session' true)
    (hst : Measured env u.st C) (hC : Held env fs path (u.file total C)) :
    wp (kernel env) (fun v c => PutsPoint env b path total v.proc c)
      (do Sys.close u.fd; reply session' .ack .ok (lit "上传完成")) (PutsEnd env b path total session C)
      ⟨fs, (b.ran (Packet.wires u.pkts ++ tail) (putsResp total u.st).wire
        (u.trace path total ++ unmappedEvents u.map)).setFd u.fd (some ⟨path, 0⟩)⟩ := by
  refine wp_close (.closeEnd hu hs) ?_
  intro fs₁ hr
  rw [Proc.closed hu.fd]
  have hmsg : textPacket .ack .ok (lit "上传完成") = putsReply true := rfl
  have hcut : true = false → ∃ fd n, env.faults (.ftruncate fd n .cut) := by simp
  have := wp_putsReply hu hs hst hcut (by simpa using hC.rely hr) hmsg (by decide)
  simpa [closedEvents] using this

/-- An interrupted upload: cut, close and reply. -/
theorem wp_finishCut (hu : u.Ok b total) (hs : Stop env session total (u.offset total) tail session' false)
    (hst : Measured env u.st C) (hC : Held env fs path (u.file total C)) :
    wp (kernel env) (fun v c => PutsPoint env b path total v.proc c)
      (do
        let _ ← Sys.ftruncate u.fd (offT (.ofNat (u.offset total))) .cut
        Sys.close u.fd
        reply session' .error .ioError (lit "上传中断，已保存断点")) (PutsEnd env b path total session C)
      ⟨fs, (b.ran (Packet.wires u.pkts ++ tail) (putsResp total u.st).wire
        (u.trace path total ++ unmappedEvents u.map)).setFd u.fd (some ⟨path, 0⟩)⟩ := by
  have hoff : offT (.ofNat (u.offset total)) = u.offset total := by
    rw [offT_of_lt (by rw [hu.toNat_offset]; exact hu.block_lt), hu.toNat_offset]
  have hclose {fs : FS} {cut : Bool} (hcut : cut = false → ∃ fd n, env.faults (.ftruncate fd n .cut))
      (hC : Held env fs path (if cut then resize 0 (u.offset total) (u.file total C) else u.file total C)) :
      wp (kernel env) (fun v c => PutsPoint env b path total v.proc c)
        (do Sys.close u.fd; reply session' .error .ioError (lit "上传中断，已保存断点"))
        (PutsEnd env b path total session C)
        ⟨fs, (b.ran (Packet.wires u.pkts ++ tail) (putsResp total u.st).wire
          (u.trace path total ++ unmappedEvents u.map ++
            [⟨.ftruncate u.fd (offT (.ofNat (u.offset total))) .cut, cut⟩])).setFd u.fd (some ⟨path, 0⟩)⟩ := by
    refine wp_close (.closeEnd hu hs) ?_
    intro fs₁ hr
    rw [Proc.closed hu.fd]
    have hmsg : textPacket .error .ioError (lit "上传中断，已保存断点") = putsReply false := rfl
    have := wp_putsReply hu hs hst hcut (by simpa using hC.rely hr) hmsg (by decide)
    simpa [closedEvents] using this
  refine wp_ftruncate (.cut hu hs) ?_ ?_
  · intro fs₁ hr hf
    have := @hclose _ false (fun _ => ⟨_, _, hf⟩) (by simpa using hC.rely hr)
    simpa using this
  · intro fs₁ fs₂ f hr hfd _ hm
    obtain rfl : f = ⟨path, 0⟩ := by simpa using hfd.symm
    have hC₂ := (hC.rely hr).modify hm
    rw [hoff, Int.toNat_natCast] at hC₂
    have := @hclose _ true (by simp) (by simpa using hC₂)
    simpa using this

/-- After the loop: unmap, then one of the two. -/
theorem wp_uploadFinish (hu : u.Ok b total)
    (hs : Stop env session total (u.offset total) tail session' success)
    (hst : Measured env u.st C) (hC : Held env fs path (u.file total C)) :
    wp (kernel env) (fun v c => PutsPoint env b path total v.proc c)
      (uploadFinish session' u.fd u.map (.ofNat (u.offset total)) success)
      (PutsEnd env b path total session C) ⟨fs, u.proc b path total (Packet.wires u.pkts ++ tail)⟩ := by
  have hrest {fs : FS} (hC : Held env fs path (u.file total C)) :
      wp (kernel env) (fun v c => PutsPoint env b path total v.proc c)
        (if success then do
          Sys.close u.fd
          reply session' .ack .ok (lit "上传完成")
        else do
          let _ ← Sys.ftruncate u.fd (offT (.ofNat (u.offset total))) .cut
          Sys.close u.fd
          reply session' .error .ioError (lit "上传中断，已保存断点"))
        (PutsEnd env b path total session C)
        ⟨fs, (b.ran (Packet.wires u.pkts ++ tail) (putsResp total u.st).wire
          (u.trace path total ++ unmappedEvents u.map)).setFd u.fd (some ⟨path, 0⟩)⟩ := by
    cases success with
    | true => exact wp_finishOk hu hs hst hC
    | false => exact wp_finishCut hu hs hst hC
  apply wp_bind.2
  rcases hm : u.map with _ | m
  · have := hrest hC
    simpa [unmap, Progress.proc, hm, unmappedEvents, Proc.mapAt] using this
  · rw [unmap, ← bind_ret (Sys.munmap m)]
    refine wp_munmap (.munmap hu hs hm) ?_
    intro fs₁ hr
    rw [Progress.proc_unmap hu hm]
    exact hrest (hC.rely hr)

end Finish

/-- The receive loop and what follows it. -/
theorem wp_uploadReceive {u : Progress} (hu : u.Ok b total) (hnil : u.pkts = []) (hst : Measured env u.st C)
    (hC : Held env fs path (u.file total C)) (session : Session) :
    wp (kernel env) (fun v c => PutsPoint env b path total v.proc c)
      (uploadReceive session u.fd total u.map (startOffset total u.st))
      (PutsEnd env b path total session C) ⟨fs, u.proc b path total []⟩ := by
  refine wp_bind.2 (wp_receiveLoop hu hnil hC ?_)
  intro fs₁ u' tail session' success hfd hst' hmap hu' hs hC'
  have := wp_uploadFinish hu' hs (hst' ▸ hst) hC'
  rwa [hfd, hmap] at this

/-- An error reply, after `s` was sent. -/
theorem wp_replyError {Q : Rc × Session → World → Prop} {s : Bytes} {t : List Event} {msg : Bytes}
    (hlen : msg.length < maxPacketPayload.toNat)
    (check : ∀ pre rest, pre ++ rest <+: (textPacket .error .ioError msg).wire → rest ≠ [] →
      PutsPoint env b path total (b.ran [] (s ++ pre) t) (.send rest))
    (hQ : ∀ fs' rc pre, env.rely fs fs' → Sent env (textPacket .error .ioError msg) rc pre →
      Q (rc, session) ⟨fs', b.ran [] (s ++ pre) t⟩) :
    wp (kernel env) (fun v c => PutsPoint env b path total v.proc c) (reply session .error .ioError msg) Q
      ⟨fs, b.ran [] s t⟩ := by
  refine wp_reply hlen ?_ ?_ ?_
  · intro fs₁ pre rest _ hpre hne
    rw [Proc.ran_addSent]
    exact check pre rest hpre hne
  · intro fs₁ hr
    rw [Proc.ran_addSent]
    exact hQ fs₁ _ _ hr (.inl ⟨rfl, rfl⟩)
  · intro fs₁ pre rest hr hpre hne hf
    rw [Proc.ran_addSent]
    exact hQ fs₁ _ _ hr (.inr ⟨rfl, rest, hpre, hne, hf⟩)

/-- An error reply before `PUTS_RESP`. -/
theorem wp_replyEarly {t : List Event} {msg : Bytes} (hlen : msg.length < maxPacketPayload.toNat)
    (hC : Held env fs path C ∨ (env.Quiet → fs.bytes path = C))
    (ht : ∀ fd n, (⟨.mmap fd n, none⟩ : Event) ∉ t)
    (hwhy : ∀ fs', env.rely fs fs' → Refused env path C total fs' t (textPacket .error .ioError msg)) :
    wp (kernel env) (fun v c => PutsPoint env b path total v.proc c) (reply session .error .ioError msg)
      (PutsEnd env b path total session C) ⟨fs, b.ran [] [] t⟩ := by
  have hv : (textPacket .error .ioError msg).Valid := textPacket_valid hlen
  refine wp_replyError hlen ?_ ?_
  · intro pre rest hpre hne
    exact .replyEarly hv (Packet.of_is.2 rfl) hpre hne
  · intro fs' rc pre hr hs
    refine .refused hv (Packet.of_is.2 rfl) hs (fun hq => ?_) ht (hwhy fs' hr)
    rw [hq hr]
    exact hC.elim (fun h => (h hq).bytes) (fun h => h hq)

/-- The extension, the mapping and what follows. -/
theorem wp_uploadMapped {fd : Nat} {st : Option Nat} (hfd : b.fds fd = none) (hst : Measured env st C)
    (hle : (startOffset total st).toNat ≤ total.toNat) (hC : Held env fs path (kept total st C)) :
    wp (kernel env) (fun v c => PutsPoint env b path total v.proc c)
      (uploadMapped session fd total (startOffset total st)) (PutsEnd env b path total session C)
      ⟨fs, (b.ran [] (putsResp total st).wire (measuredEvents path total fd st)).setFd fd
        (some ⟨path, 0⟩)⟩ := by
  unfold uploadMapped
  split
  rotate_left
  · -- an empty file is not mapped
    rename_i hpos
    have h0 : total = 0 := by simpa [UInt64.pos_iff_ne_zero] using hpos
    have hu : Progress.Ok b total ⟨fd, st, none, []⟩ :=
      ⟨hfd, by simp, by simp [h0], by simp,
        by simpa [Progress.offset, Progress.data] using hle, by simp [h0]⟩
    have hfile : Held env fs path (Progress.file total ⟨fd, st, none, []⟩ C) := by
      simpa [Progress.file] using hC
    have := wp_uploadReceive hu rfl hst hfile session
    simpa [Progress.proc, Progress.trace, mappedEvents, copyEvents, Proc.mapAt] using this
  rename_i hpos
  refine wp_ftruncate (.extend hfd hpos) ?_ ?_
  · intro fs₁ hr₁ hf
    simp only [Proc.setFd_note, Proc.ran_note]
    refine wp_close (.closeLate hf (.inl rfl)) ?_
    intro fs₂ hr₂
    rw [Proc.closed hfd]
    refine wp_replyError (by decide)
      (fun pre rest => .replyLate hf (.inl rfl) (textPacket_valid (by decide)) (Packet.of_is.2 rfl))
      fun fs₃ rc pre hr₃ hs => ?_
    simp only [List.append_assoc, List.cons_append, List.nil_append]
    exact .extendFailed hf hpos (textPacket_valid (by decide)) (Packet.of_is.2 rfl) hs hst
      (((hC.rely hr₁).rely hr₂).rely hr₃) rfl
  · intro fs₁ fs₂ f hr₁ hf hlt hm
    obtain rfl : f = ⟨path, 0⟩ := by simpa using hf.symm
    rw [offT_nonneg] at hlt
    have hC₂ := (hC.rely hr₁).modify hm
    rw [offT_of_lt hlt, Int.toNat_natCast] at hC₂
    simp only [Proc.setFd_note, Proc.ran_note]
    refine wp_mmap (.mmap hfd hpos) ?_ ?_
    · intro fs₃ hr₃ hf
      simp only [Proc.setFd_note, Proc.ran_note]
      refine wp_close (.closeLate hf (.inr rfl)) ?_
      intro fs₄ hr₄
      rw [Proc.closed hfd]
      refine wp_replyError (by decide)
        (fun pre rest => .replyLate hf (.inr rfl) (textPacket_valid (by decide)) (Packet.of_is.2 rfl))
        fun fs₅ rc pre hr₅ hs => ?_
      simp only [List.append_assoc, List.cons_append, List.nil_append]
      exact .mapFailed hf hpos hlt (textPacket_valid (by decide)) (Packet.of_is.2 rfl) hs hst
        (((hC₂.rely hr₃).rely hr₄).rely hr₅) rfl
    · intro fs₃ m f hr₃ hf hm
      obtain rfl : f = ⟨path, 0⟩ := by simpa using hf.symm
      have hne : total ≠ 0 := UInt64.pos_iff_ne_zero.1 hpos
      have hu : Progress.Ok b total ⟨fd, st, some m, []⟩ :=
        ⟨hfd, fun m' h => by obtain rfl := Option.some.inj h; exact hm, by simp [hne], by simp,
          by simpa [Progress.offset, Progress.data] using hle, hlt⟩
      have hfile : Held env fs₃ path (Progress.file total ⟨fd, st, some m, []⟩ C) := by
        simpa [Progress.file, Progress.data] using hC₂.rely hr₃
      have := wp_uploadReceive hu rfl hst hfile session
      simpa [Progress.proc, Progress.trace, mappedEvents, copyEvents, Proc.mapAt] using this

/-- From the resume reply on. -/
theorem wp_uploadFrom {fd : Nat} {st : Option Nat} (hfd : b.fds fd = none) (hst : Measured env st C)
    (hle : (startOffset total st).toNat ≤ total.toNat) (hC : Held env fs path (kept total st C))
    (session : Session) : wp (kernel env) (fun v c => PutsPoint env b path total v.proc c)
      (uploadFrom session fd total (startOffset total st)) (PutsEnd env b path total session C)
      ⟨fs, (b.ran [] [] (measuredEvents path total fd st)).setFd fd (some ⟨path, 0⟩)⟩ := by
  refine wp_bind.2 (wp_sendResumePacket ?_ ?_ ?_)
  · intro fs₁ pre rest _ hpre hne
    simp only [Proc.setFd_addSent, Proc.ran_addSent]
    exact .resume hfd hpre hne
  · intro fs₁ hr₁
    simp only [Proc.setFd_addSent, Proc.ran_addSent, List.nil_append]
    rw [← putsResp]
    exact wp_uploadMapped hfd hst hle (hC.rely hr₁)
  · intro fs₁ pre rest hr₁ hpre hne hf
    simp only [Proc.setFd_addSent, Proc.ran_addSent, List.nil_append]
    rw [← bind_ret (Sys.close fd)]
    refine wp_close (.closeUnsent hpre hne hf) ?_
    intro fs₂ hr₂
    rw [Proc.closed hfd]
    exact .unsent (.inr ⟨rfl, rest, hpre, hne, hf⟩) hst ((hC.rely hr₁).rely hr₂)

theorem startOffset_le (total : UInt64) (st : Option Nat) : (startOffset total st).toNat ≤ total.toNat := by
  unfold startOffset
  split
  · simp
  · rename_i h
    exact UInt64.le_iff_toNat_le.1 (UInt64.not_lt.1 h)

/-- **The calls and the returns of `handle_puts`.** -/
theorem wp_handlePuts {packet : Packet} (ht : uploadTarget session packet = some (path, total)) :
    wp (kernel env) (fun v c => PutsPoint env b path total v.proc c) (handlePuts session packet)
      (PutsEnd env b path total session (fs.bytes path)) ⟨fs, b⟩ := by
  obtain ⟨fileName, virtualPath, hinfo, hname, hpath⟩ := uploadTarget_eq_some.1 ht
  unfold handlePuts
  simp only [hinfo, hpath, if_neg hname]
  refine wp_openCreat .openFile ?_ ?_
  · intro fs₁ hr₁ _
    have hstay : env.Quiet → fs₁.bytes path = fs.bytes path := fun hq => congrArg (FS.bytes · path) (hq hr₁)
    have hrun : b.note (.openFile path .rdwrCreat) none = b.ran [] [] [⟨.openFile path .rdwrCreat, none⟩] := by
      simp [Proc.note, Proc.ran]
    rw [hrun]
    exact wp_replyEarly (by decide) (.inr hstay) (by simp) fun _ _ => .unopened
  · intro fs₁ fs₂ fd hr₁ _ hhas hfd
    have hC₂ : Held env fs₂ path (fs.bytes path) := fun hq => (hq hr₁ : fs₁ = fs) ▸ hhas
    have hopen : ((b.setFd fd (some ⟨path, 0⟩)).note (.openFile path .rdwrCreat) (some fd)) =
        (b.ran [] [] (openedEvents path fd)).setFd fd (some ⟨path, 0⟩) := by
      simp [openedEvents, Proc.note, Proc.ran, Proc.setFd]
    -- from the answer of `fstat` on
    have hfrom {fs₃ : FS} {st : Option Nat} (hr₃ : env.rely fs₂ fs₃)
        (hst : Measured env st (fs.bytes path)) :
        wp (kernel env) (fun v c => PutsPoint env b path total v.proc c) (uploadMeasured session fd total st)
          (PutsEnd env b path total session (fs.bytes path))
          ⟨fs₃, (b.ran [] [] (openedEvents path fd ++ [⟨.fstat fd, st⟩])).setFd fd (some ⟨path, 0⟩)⟩ := by
      have hC₃ := hC₂.rely hr₃
      unfold uploadMeasured
      split
      · rename_i hover
        have hstart : startOffset total st = 0 := if_pos hover
        refine wp_ftruncate (.reset hfd hover) ?_ ?_
        · intro fs₄ hr₄ hf
          simp only [Proc.setFd_note, Proc.ran_note]
          refine wp_close .closeEarly ?_
          intro fs₅ hr₅
          rw [Proc.closed hfd]
          have hC₅ := (hC₃.rely hr₄).rely hr₅
          refine wp_replyEarly (by decide) (.inl hC₅) (by simp [openedEvents]) fun fs' hr' => ?_
          exact .unreset (by simp [List.append_assoc]) hover hf hst (hC₅.rely hr')
        · intro fs₄ fs₅ f hr₄ hf _ hm
          obtain rfl : f = ⟨path, 0⟩ := by simpa using hf.symm
          have hC₅ := (hC₃.rely hr₄).modify hm
          have hkept : Held env fs₅ path (kept total st (fs.bytes path)) := by simpa [kept, hover] using hC₅
          have := wp_uploadFrom hfd hst (startOffset_le total st) hkept session
          simpa [hstart, measuredEvents, hover] using this
      · rename_i hover
        have hstart : startOffset total st = resumePoint st := if_neg hover
        have hkept : Held env fs₃ path (kept total st (fs.bytes path)) := by simpa [kept, hover] using hC₃
        have := wp_uploadFrom hfd hst (startOffset_le total st) hkept session
        simpa [hstart, measuredEvents, hover] using this
    rw [hopen]
    refine wp_fstat (.fstat hfd) ?_ ?_
    · intro fs₃ hr₃ hf
      simp only [Proc.setFd_note, Proc.ran_note]
      exact hfrom hr₃ ⟨fun _ => ⟨fd, hf⟩, fun _ n h => by simp at h⟩
    · intro fs₃ n f hr₃ hf _ hn
      obtain rfl : f = ⟨path, 0⟩ := by simpa using hf.symm
      simp only [Proc.setFd_note, Proc.ran_note]
      refine hfrom hr₃ ⟨by simp, fun hq n' h => ?_⟩
      obtain rfl := Option.some.inj h
      exact hn _ (hC₂.rely hr₃ hq)

end Rules

end Server
end WindCloud
