import WindCloud.Server
/-!
# The client's commands

| here | there |
| --- | --- |
| `writeN`, `safeBasename`   | `write_n`, `safe_basename` (`client_command_handle.c:24`, `:60`) |
| `recvTextResponse`         | `recv_text_response` (`:94`) |
| `handleSimpleCommand`      | `handle_simple_command` (`:128`) |
| `handlePuts`, `requestUpload`, `uploadFrom`, `sendBlocks` | `handle_puts` (`:168-321`), cut before the request and before `lseek`, and its block loop (`:271-297`) |
| `handleGets`, `receiveBlocks` | `handle_gets` (`:336-484`) and its packet loop (`:433-478`) |
| `processCommand`           | `process_command` (`:493`) |

What is printed and what is logged is left out.
-/

namespace WindCloud
namespace Client

open Interaction Prog

/-- `write_n`: as `send_n`, on a file. -/
def writeN (fd : Nat) (buf : Bytes) : Io Rc :=
  .iter (fun total : Nat =>
    if total < buf.length then do
      match ← Sys.write fd (buf.drop total) with
      | .intr => return .inl total
      | .fail => return .inr .fail
      | .done 0 => return .inr .fail
      | .done written => return .inl (total + written)
    else return .inr .ok) 0

/-- `basename(3)`, the POSIX one of `<libgen.h>`. -/
def basename (path : Bytes) : Bytes :=
  if path = [] then dot
  else
    let r := path.reverse.dropWhile (· == slash)
    if r = [] then [slash] else (r.takeWhile (· != slash)).reverse

def safeBasename (path : Bytes) (bufSz : Nat) : Bytes := truncate bufSz (basename (truncate pathMax path))

def recvTextResponse : Io Rc := do
  match ← recvPacket .reply with
  | (.fail, _) => return .fail
  | (.ok, packet) => if ¬ packet.Is .ack ∧ ¬ packet.Is .error then return .fail else return .ok

def handleSimpleCommand (req : CommandRequest) : Io Rc := do
  let (payload, payloadLen) : Option Bytes × UInt32 :=
    if req.arg ≠ [] then (some (req.arg ++ [0]), .ofNat req.arg.length + 1) else (none, 0)
  match ← sendPacket req.type .ok payload payloadLen with
  | .fail => return .fail
  | .ok => recvTextResponse

/-! ## Upload -/

/-- The block loop; its state is `resume_offset`. -/
def sendBlocks (fd : Nat) (fileSize resumeOffset : UInt64) : Io Rc :=
  .iter (fun resumeOffset : UInt64 =>
    if resumeOffset < fileSize then do
      match ← Sys.read fd fileBlockSize with
      | .intr => return .inl resumeOffset
      | .fail => return .inr .fail
      | .done [] => return .inr .ok
      | .done buf =>
        match ← sendPacket .fileData .ok (some buf) (.ofNat buf.length) with
        | .fail => return .inr .fail
        | .ok => return .inl (resumeOffset + .ofNat buf.length)
    else return .inr .ok) resumeOffset

/-- From the resume offset on (`client_command_handle.c:262-321`). -/
def uploadFrom (fd : Nat) (fileSize resumeOffset : UInt64) : Io Rc := do
  match ← Sys.lseek fd (offT resumeOffset) with
  | false =>
    Sys.close fd
    return .fail
  | true =>
    match ← sendBlocks fd fileSize resumeOffset with
    | .fail =>
      Sys.close fd
      return .fail
    | .ok =>
      Sys.close fd
      match ← sendPacket .fileEnd .ok none 0 with
      | .fail => return .fail
      | .ok => recvTextResponse

/-- The request and its answer (`client_command_handle.c:209-256`). -/
def requestUpload (fd : Nat) (baseName : Bytes) (fileSize : UInt64) : Io Rc := do
  match ← sendPacket .putsReq .ok (some (fileInfoPayload baseName fileSize)) (.ofNat fileInfoSize) with
  | .fail =>
    Sys.close fd
    return .fail
  | .ok =>
    match ← recvPacket .reply with
    | (.fail, _) =>
      Sys.close fd
      return .fail
    | (.ok, packet) =>
      if packet.Is .error then
        Sys.close fd
        return .fail
      else if ¬ packet.Is .putsResp ∨ packet.header.dataLen ≠ .ofNat resumeSize then
        Sys.close fd
        return .fail
      else
        let resumeOffset := loadU64 packet.data
        uploadFrom fd fileSize (if resumeOffset > fileSize then 0 else resumeOffset)

def handlePuts (req : CommandRequest) : Io Rc := do
  match ← Sys.openFile req.arg .rdonly with
  | none => return .fail
  | some fd =>
    match ← Sys.fstat fd with
    | none =>
      Sys.close fd
      return .fail
    | some size => requestUpload fd (safeBasename req.arg pathMax) (.ofNat size)

/-! ## Download -/

/-- The packet loop; its state is `local_size`. -/
def receiveBlocks (fd : Nat) (localSize : UInt64) : Io Rc :=
  .iter (fun localSize : UInt64 => do
    match ← recvPacket .reply with
    | (.fail, _) => return .inr .fail
    | (.ok, packet) =>
      if packet.Is .fileEnd then return .inr .ok
      else if packet.Is .error then return .inr .fail
      else if ¬ packet.Is .fileData then return .inr .fail
      else
        match ← writeN fd (packet.data.take packet.header.dataLen.toNat) with
        | .fail => return .inr .fail
        | .ok => return .inl (localSize + packet.header.dataLen.toUInt64)) localSize

/-- From the offset in the local file on (`client_command_handle.c:411-483`). -/
def downloadTo (fd : Nat) (localSize : UInt64) : Io Rc := do
  match ← Sys.lseek fd (offT localSize) with
  | false =>
    Sys.close fd
    return .fail
  | true =>
    match ← sendPacket .resumePos .ok (some (resumePayload localSize)) (.ofNat resumeSize) with
    | .fail =>
      Sys.close fd
      return .fail
    | .ok =>
      let rc ← receiveBlocks fd localSize
      Sys.close fd
      return rc

def handleGets (req : CommandRequest) : Io Rc := do
  match ← sendPacket .getsReq .ok (some (req.arg ++ [0])) (.ofNat req.arg.length + 1) with
  | .fail => return .fail
  | .ok =>
    match ← recvPacket .reply with
    | (.fail, _) => return .fail
    | (.ok, packet) =>
      if packet.Is .error then return .fail
      else if ¬ packet.Is .getsResp ∨ packet.header.dataLen ≠ .ofNat fileInfoSize then return .fail
      else
        let serverSize := loadU64 (packet.data.drop pathMax)
        match ← Sys.openFile req.arg .rdwrCreat with
        | none => return .fail
        | some fd =>
          let st ← Sys.fstat fd
          let localSize := Server.resumePoint st
          if localSize > serverSize then
            match ← Sys.ftruncate fd 0 .local with
            | false =>
              Sys.close fd
              return .fail
            | true => downloadTo fd 0
          else downloadTo fd localSize

/-! ## Commands -/

def processCommand (input : Bytes) : Io Rc :=
  match buildCommandRequest input with
  | none => return .fail
  | some req =>
    match req.type with
    | .pwd | .cd | .ls | .rm | .mkdir => handleSimpleCommand req
    | .putsReq => if req.arg = [] then return .fail else handlePuts req
    | .getsReq => if req.arg = [] then return .fail else handleGets req
    | _ => return .fail

end Client
end WindCloud
