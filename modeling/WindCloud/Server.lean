import WindCloud.Path
import WindCloud.PacketIo
/-!
# The server's request handlers

| here | there |
| --- | --- |
| `Session`                         | `session_t` (`protocol.h:135`); the socket is implicit, `user_id` is never read |
| `sendTextReply` .. `sendFileInfoPacket` | `handle.c:36`, `:277`, `:288` |
| `sendFileDataPacket`              | `send_file_data_packet` (`handle.c:353`) |
| `recvFollowPacket`                | `recv_follow_packet` (`handle.c:404`) |
| `handlePwd` .. `handleMkdir`      | `handle.c:417-551` |
| `handlePuts`, `uploadFrom`, `uploadMapped`, `uploadReceive`, `uploadFinish` | `handle_puts` (`handle.c:568-748`), cut after the reset, before and after the mapping and after the loop |
| `handleGets`, `downloadFrom`      | `handle_gets` (`handle.c:761-850`), cut before the block loop |
| `dispatchCommand`, `handleRequest` | `handle.c:859`, `:910` |

A handler takes the session and returns it, with the `int` it returns in the source. Logging
and the release of payloads are left out.
-/

namespace WindCloud

open Interaction Prog FileImage

structure Session where
  currentPath : Bytes
  shouldClose : Bool
deriving DecidableEq, Repr

/-- The session a worker starts with (`worker.c:61-65`). -/
def Session.start : Session := ⟨rootPath, false⟩

def Session.closing (session : Session) : Session := { session with shouldClose := true }

/-- `(off_t)x`. -/
def offT (x : UInt64) : Int := if x.toNat < 2 ^ 63 then x.toNat else (x.toNat : Int) - 2 ^ 64

/-- `(uint64_t)off`. -/
def offU64 (off : Int) : UInt64 := .ofNat (off % 2 ^ 64).toNat

theorem offT_of_lt {x : UInt64} (h : x.toNat < 2 ^ 63) : offT x = x.toNat := if_pos h

theorem offT_nonneg {x : UInt64} : 0 ≤ offT x ↔ x.toNat < 2 ^ 63 := by
  have := x.toNat_lt
  unfold offT
  split <;> omega

theorem offU64_natCast {n : Nat} (h : n < 2 ^ 64) : (offU64 n).toNat = n := by
  rw [offU64, UInt64.toNat_ofNat_of_lt' (by show _ < 2 ^ 64; omega)]
  omega

namespace Server

/-! ## Replies -/

/-- The text goes with its terminating NUL. -/
def sendTextReply (type : CmdType) (status : StatusCode) (msg : Option Bytes) : Io Rc :=
  let payloadLen : UInt32 := match msg with
    | some m => .ofNat m.length + 1
    | none => 0
  sendPacket type status (msg.map (· ++ [0])) payloadLen

/-- `return send_text_reply(session, ..)`. -/
def reply (session : Session) (type : CmdType) (status : StatusCode) (msg : Bytes) : Io (Rc × Session) := do
  let rc ← sendTextReply type status (some msg)
  return (rc, session)

def sendResumePacket (type : CmdType) (status : StatusCode) (offset : UInt64) : Io Rc :=
  sendPacket type status (some (resumePayload offset)) (.ofNat resumeSize)

def sendFileInfoPacket (type : CmdType) (status : StatusCode) (fileName : Bytes) (fileSize : UInt64) : Io Rc :=
  sendPacket type status (some (fileInfoPayload fileName fileSize)) (.ofNat fileInfoSize)

/-- The header by `send_n`, the bytes by `sendfile`; the new `*offset` is returned too. -/
def sendFileDataPacket (fd : Nat) (offset : Int) (chunkSize : Nat) : Io (Rc × Int) := do
  let header := (TlvHeader.of .fileData .ok (.ofNat chunkSize)).hton host
  match ← sendN (header.bytes host) with
  | .fail => return (.fail, offset)
  | .ok =>
    .iter (fun sentTotal : Nat =>
      if sentTotal < chunkSize then do
        match ← Sys.sendfile fd (offset + sentTotal) (chunkSize - sentTotal) with
        | .intr => return .inl sentTotal
        | .fail => return .inr (.fail, offset + sentTotal)
        | .done 0 => return .inr (.fail, offset + sentTotal)
        | .done sent => return .inl (sentTotal + sent)
      else return .inr (.ok, offset + sentTotal)) 0

def recvFollowPacket (session : Session) : Io (Rc × Session × Packet) := do
  match ← recvPacket .follow with
  | (.fail, packet) => return (.fail, session.closing, packet)
  | (.ok, packet) => return (.ok, session, packet)

/-! ## Commands with a text reply -/

def handlePwd (session : Session) : Io (Rc × Session) := reply session .ack .ok session.currentPath

def handleCd (session : Session) (arg : Bytes) : Io (Rc × Session) :=
  match resolveTargetPath session.currentPath arg pathMax pathMax with
  | none => reply session .error .badRequest (lit "cd 参数非法")
  | some (nextVirtual, realPath) => do
    match ← Sys.opendir realPath with
    | none => reply session .error .notFound (lit "目录不存在")
    | some dir =>
      Sys.closedir dir
      let session := { session with currentPath := truncate pathMax nextVirtual }
      reply session .ack .ok (lit "进入目录成功")

/-- The state of the loop of `handle_ls`: the buffer `result`, and `used`. -/
structure Listing where
  result : Bytes
  used : Nat

/-- One entry (`handle.c:476-498`); `none` when it does not fit. -/
def Listing.add (l : Listing) (name : Bytes) : Option Listing :=
  if name = dot ∨ name = dotdot then some l
  else
    let room := maxTextPayload - l.used
    let result := store l.result l.used (truncate room name ++ [0])
    if name.length ≥ room then none
    else
      let used := l.used + name.length
      if used + 2 < maxTextPayload then
        some ⟨store (store result used [10]) (used + 1) [0], used + 1⟩
      else some ⟨result, used⟩

def handleLs (session : Session) : Io (Rc × Session) :=
  match buildRealPath session.currentPath pathMax with
  | none => reply session .error .badRequest (lit "当前路径过长")
  | some realPath => do
    match ← Sys.opendir realPath with
    | none => reply session .error .ioError (lit "目录打开失败")
    | some dir =>
      let listing ← .iter (fun l : Listing => do
        match ← Sys.readdir dir with
        | none => return .inr (some l)
        | some name =>
          match l.add name with
          | none => return .inr none
          | some l => return .inl l) ⟨List.replicate maxTextPayload 0, 0⟩
      match listing with
      | none => do
        Sys.closedir dir
        reply session .error .ioError (lit "目录内容过长")
      | some l => do
        Sys.closedir dir
        reply session .ack .ok (if l.used = 0 then lit "(empty)" else cstr l.result)

def handleRm (session : Session) (arg : Bytes) : Io (Rc × Session) :=
  match resolveTargetPath session.currentPath arg pathMax pathMax with
  | none => reply session .error .badRequest (lit "rm 参数非法")
  | some (_, realPath) => do
    match ← Sys.remove realPath with
    | false => reply session .error .ioError (lit "删除失败")
    | true => reply session .ack .ok (lit "删除成功")

def handleMkdir (session : Session) (arg : Bytes) : Io (Rc × Session) :=
  match resolveTargetPath session.currentPath arg pathMax pathMax with
  | none => reply session .error .badRequest (lit "mkdir 参数非法")
  | some (_, realPath) => do
    match ← Sys.mkdir realPath with
    | false => reply session .error .ioError (lit "创建文件夹失败")
    | true => reply session .ack .ok (lit "创建文件夹成功")

/-! ## Upload -/

/-- `if (map_ptr != NULL) munmap(..)`. -/
def unmap : Option Nat → Io Unit
  | some m => Sys.munmap m
  | none => return ()

/-- After the receive loop (`handle.c:725-748`). -/
def uploadFinish (session : Session) (fd : Nat) (map : Option Nat) (writeOffset : UInt64) (success : Bool) :
    Io (Rc × Session) := do
  unmap map
  if success then
    Sys.close fd
    reply session .ack .ok (lit "上传完成")
  else
    -- the result of this `ftruncate` is not looked at
    let _ ← Sys.ftruncate fd (offT writeOffset) .cut
    Sys.close fd
    reply session .error .ioError (lit "上传中断，已保存断点")

/-- The copy of a block into the mapping (`handle.c:712-714`). -/
def copyBlock (map : Option Nat) (writeOffset : UInt64) (packet : Packet) : Io Unit :=
  match map with
  | some m =>
    if packet.header.dataLen > 0 then
      Sys.memcpy m writeOffset.toNat (packet.data.take packet.header.dataLen.toNat)
    else return ()
  | none => return ()

/-- The receive loop (`handle.c:673-719`); its result is the session, `write_offset` and `success`. -/
def receiveLoop (session : Session) (totalSize : UInt64) (map : Option Nat) (writeOffset : UInt64) :
    Io (Session × UInt64 × Bool) :=
  .iter (fun writeOffset : UInt64 => do
    match ← recvFollowPacket session with
    | (.fail, session, _) => return .inr (session, writeOffset, false)
    | (.ok, session, followPacket) =>
      if followPacket.Is .fileEnd then
        return .inr (session, writeOffset, writeOffset == totalSize)
      else if ¬ followPacket.Is .fileData then
        return .inr (session.closing, writeOffset, false)
      else if writeOffset + followPacket.header.dataLen.toUInt64 > totalSize then
        return .inr (session.closing, writeOffset, false)
      else
        copyBlock map writeOffset followPacket
        return .inl (writeOffset + followPacket.header.dataLen.toUInt64)) writeOffset

def uploadReceive (session : Session) (fd : Nat) (totalSize : UInt64) (map : Option Nat)
    (writeOffset : UInt64) : Io (Rc × Session) := do
  let (session, writeOffset, success) ← receiveLoop session totalSize map writeOffset
  uploadFinish session fd map writeOffset success

/-- The extension and the mapping (`handle.c:639-668`). -/
def uploadMapped (session : Session) (fd : Nat) (totalSize writeOffset : UInt64) : Io (Rc × Session) := do
  if totalSize > 0 then
    match ← Sys.ftruncate fd (offT totalSize) .extend with
    | false =>
      Sys.close fd
      reply session .error .ioError (lit "服务端预分配文件失败")
    | true =>
      match ← Sys.mmap fd totalSize.toNat with
      | none =>
        Sys.close fd
        reply session .error .ioError (lit "服务端映射文件失败")
      | some m => uploadReceive session fd totalSize (some m) writeOffset
  else uploadReceive session fd totalSize none writeOffset

/-- From the resume reply on (`handle.c:627`). -/
def uploadFrom (session : Session) (fd : Nat) (totalSize writeOffset : UInt64) : Io (Rc × Session) := do
  match ← sendResumePacket .putsResp .ok writeOffset with
  | .fail =>
    Sys.close fd
    return (.fail, session.closing)
  | .ok => uploadMapped session fd totalSize writeOffset

/-- `write_offset` from the answer of `fstat` (`handle.c:604-609`). -/
def resumePoint : Option Nat → UInt64
  | some size => if size > 0 then .ofNat size else 0
  | none => 0

def handlePuts (session : Session) (packet : Packet) : Io (Rc × Session) :=
  match extractFileInfo packet pathMax with
  | none => reply session .error .badRequest (lit "puts 请求格式错误")
  | some (fileName, totalSize) =>
    if fileName = [] then reply session .error .badRequest (lit "puts 请求格式错误")
    else match resolveTargetPath session.currentPath fileName pathMax pathMax with
    | none => reply session .error .badRequest (lit "上传文件名非法")
    | some (_, realPath) => do
      match ← Sys.openFile realPath .rdwrCreat with
      | none => reply session .error .ioError (lit "服务端无法创建文件")
      | some fd =>
        let st ← Sys.fstat fd
        let writeOffset := resumePoint st
        if writeOffset > totalSize then
          match ← Sys.ftruncate fd 0 .reset with
          | false =>
            Sys.close fd
            reply session .error .ioError (lit "服务端重置文件失败")
          | true => uploadFrom session fd totalSize 0
        else uploadFrom session fd totalSize writeOffset

/-! ## Download -/

/-- The block loop and the end packet (`handle.c:823-849`). -/
def downloadFrom (session : Session) (fd : Nat) (totalSize resumeOffset : UInt64) : Io (Rc × Session) := do
  let rc ← .iter (fun sendOffset : Int =>
    if offU64 sendOffset < totalSize then do
      let chunkSize := (totalSize - offU64 sendOffset).toNat
      let chunkSize := if chunkSize > fileBlockSize then fileBlockSize else chunkSize
      match ← sendFileDataPacket fd sendOffset chunkSize with
      | (.fail, _) => return .inr Rc.fail
      | (.ok, sendOffset) => return .inl sendOffset
    else return .inr Rc.ok) (offT resumeOffset)
  match rc with
  | .fail =>
    Sys.close fd
    return (.fail, session.closing)
  | .ok =>
    Sys.close fd
    let rc ← sendPacket .fileEnd .ok none 0
    return (rc, session)

def handleGets (session : Session) (arg : Bytes) : Io (Rc × Session) :=
  match resolveTargetPath session.currentPath arg pathMax pathMax with
  | none => reply session .error .badRequest (lit "下载文件名非法")
  | some (_, realPath) => do
    match ← Sys.openFile realPath .rdonly with
    | none => reply session .error .notFound (lit "服务端文件不存在")
    | some fd =>
      match ← Sys.fstat fd with
      | none =>
        Sys.close fd
        reply session .error .ioError (lit "读取文件信息失败")
      | some size =>
        let totalSize : UInt64 := .ofNat size
        match ← sendFileInfoPacket .getsResp .ok arg totalSize with
        | .fail =>
          Sys.close fd
          return (.fail, session.closing)
        | .ok =>
          match ← recvFollowPacket session with
          | (.fail, session, _) =>
            Sys.close fd
            return (.fail, session)
          | (.ok, session, resumePacket) =>
            if ¬ resumePacket.Is .resumePos then
              Sys.close fd
              return (.fail, session.closing)
            else match extractResumeOffset resumePacket with
            | none =>
              Sys.close fd
              return (.fail, session.closing)
            | some resumeOffset =>
              downloadFrom session fd totalSize (if resumeOffset > totalSize then 0 else resumeOffset)

/-! ## The connection's loop -/

/-- A command with a string argument (`handle.c:869-894`): `missing` answers when it is absent. -/
def withArg (session : Session) (packet : Packet) (missing : Bytes)
    (handler : Session → Bytes → Io (Rc × Session)) : Io (Rc × Session) :=
  match copyStringPayload packet pathMax false with
  | none => reply session .error .badRequest missing
  | some arg => handler session arg

def dispatchCommand (session : Session) (packet : Packet) : Io (Rc × Session) :=
  match CmdType.ofCode packet.header.cmdType with
  | some .pwd => handlePwd session
  | some .ls => handleLs session
  | some .cd => withArg session packet (lit "cd 缺少目录参数") handleCd
  | some .rm => withArg session packet (lit "rm 缺少文件名") handleRm
  | some .mkdir => withArg session packet (lit "mkdir 缺少目录名") handleMkdir
  | some .putsReq => handlePuts session packet
  | some .getsReq => withArg session packet (lit "gets 缺少文件名") handleGets
  | _ => reply session.closing .error .protocolError (lit "未知命令类型")

/-- One round of `handle_request` (`handle.c:920-949`): the session to go on with, or the end. -/
def handleRequestRound (session : Session) : Io (Session ⊕ Rc) :=
  if session.shouldClose then return .inr .ok
  else do
    match ← recvPacket .request with
    | (.fail, _) => return .inr .ok
    | (.ok, packet) =>
      let (rc, session) ← dispatchCommand session packet
      if rc ≠ .ok ∧ ¬ session.shouldClose then return .inr .ok
      else return .inl session

def handleRequest (session : Session) : Io Rc := .iter handleRequestRound session

theorem Listing.length_add {l l' : Listing} {name : Bytes} (h : l.add name = some l') :
    l'.result.length = l.result.length := by
  unfold Listing.add at h
  split at h
  · rw [Option.some.inj h]
  simp only at h
  split at h
  · cases h
  split at h
  · rw [← Option.some.inj h, length_store, length_store, length_store]
  · rw [← Option.some.inj h, length_store]

theorem ofCode_of_is {p : Packet} {type : CmdType} (h : p.Is type) : CmdType.ofCode p.header.cmdType = some type := by
  rw [h, CmdType.ofCode_code]

theorem dispatchCommand_puts {session : Session} {p : Packet} (h : p.Is .putsReq) :
    dispatchCommand session p = handlePuts session p := by rw [dispatchCommand, ofCode_of_is h]

/-- What follows a served command. -/
def afterCommand (r : Rc × Session) : Io (Session ⊕ Rc) :=
  if r.1 ≠ .ok ∧ ¬ r.2.shouldClose then return .inr .ok else return .inl r.2

theorem handleRequestRound_of_open {session : Session} (h : session.shouldClose = false) :
    handleRequestRound session = recvPacket .request >>= fun x => match x with
      | (.fail, _) => .ret (.inr .ok)
      | (.ok, packet) => dispatchCommand session packet >>= afterCommand := by
  rw [handleRequestRound, if_neg (by simp [h])]
  rfl

/-! ## Rules for the replies and the follow-up packets -/

/-- The packet a text travels in. -/
def textPacket (type : CmdType) (status : StatusCode) (msg : Bytes) : Packet :=
  .of type status (msg ++ [0])

section Rules

variable {env : Env} {P : World → Call → Prop} {w : World} {session : Session}

theorem textPacket_valid {type : CmdType} {status : StatusCode} {msg : Bytes}
    (h : msg.length < maxPacketPayload.toNat) : (textPacket type status msg).Valid :=
  Packet.of_valid _ _ (by rw [List.length_append]; exact h)

theorem sendTextReply_some (type : CmdType) (status : StatusCode) (msg : Bytes) :
    sendTextReply type status (some msg) =
      sendPacket type status (some (msg ++ [0])) (.ofNat (msg ++ [0]).length) := by
  simp [sendTextReply, UInt32.ofNat_add]

theorem wp_reply {type : CmdType} {status : StatusCode} {msg : Bytes} {Q : Rc × Session → World → Prop}
    (hlen : msg.length < maxPacketPayload.toNat)
    (check : ∀ fs pre rest, env.rely w.fs fs → pre ++ rest <+: (textPacket type status msg).wire →
      rest ≠ [] → P ⟨fs, w.proc.addSent pre⟩ (.send rest))
    (ok : ∀ fs, env.rely w.fs fs → Q (.ok, session) ⟨fs, w.proc.addSent (textPacket type status msg).wire⟩)
    (fail : ∀ fs pre rest, env.rely w.fs fs → pre ++ rest <+: (textPacket type status msg).wire →
      rest ≠ [] → env.faults (.send rest) → Q (.fail, session) ⟨fs, w.proc.addSent pre⟩) :
    wp (kernel env) P (reply session type status msg) Q w := by
  have hmax : (msg ++ [0]).length ≤ maxPacketPayload.toNat := by rw [List.length_append]; exact hlen
  rw [reply, sendTextReply_some]
  exact wp_bind.2 (wp_sendPacket rfl rfl hmax check ok fail)

theorem wp_sendResumePacket {type : CmdType} {offset : UInt64} {Q : Rc → World → Prop}
    (check : ∀ fs pre rest, env.rely w.fs fs → pre ++ rest <+: (resumePacket type offset).wire →
      rest ≠ [] → P ⟨fs, w.proc.addSent pre⟩ (.send rest))
    (ok : ∀ fs, env.rely w.fs fs → Q .ok ⟨fs, w.proc.addSent (resumePacket type offset).wire⟩)
    (fail : ∀ fs pre rest, env.rely w.fs fs → pre ++ rest <+: (resumePacket type offset).wire →
      rest ≠ [] → env.faults (.send rest) → Q .fail ⟨fs, w.proc.addSent pre⟩) :
    wp (kernel env) P (sendResumePacket type .ok offset) Q w := by
  have hp : (some (resumePayload offset)).getD [] = resumePayload offset := rfl
  exact wp_sendPacket hp (by simp) (by rw [length_resumePayload]; decide) check ok fail

theorem wp_recvFollowPacket {Q : Rc × Session × Packet → World → Prop}
    (check : ∀ fs bs n, env.rely w.fs fs → Wanting bs n → P ⟨fs, w.proc.addRcvd bs⟩ (.recv .follow n))
    (alloc : ∀ fs bs n, env.rely w.fs fs → Wanting bs n → P ⟨fs, w.proc.addRcvd bs⟩ (.calloc n))
    (ok : ∀ fs p, env.rely w.fs fs → Packet.Valid p → Q (.ok, session, p) ⟨fs, w.proc.addRcvd p.wire⟩)
    (fail : ∀ fs bs p, env.rely w.fs fs → Partial bs → Broken env .follow bs →
      Q (.fail, session.closing, p) ⟨fs, w.proc.addRcvd bs⟩) :
    wp (kernel env) P (recvFollowPacket session) Q w :=
  wp_bind.2 (wp_recvPacket check alloc ok fun fs bs p hr hp hb _ => fail fs bs p hr hp hb)

end Rules

end Server
end WindCloud
