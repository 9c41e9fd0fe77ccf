import WindCloud.Client
import WindCloud.Lib.Handles
/-!
# What a command opens it gives back

`close`, `closedir` and `munmap` are written out on every way out of a handler. The handles of a
process are its open files, its directory streams and its mappings; a handler opens at most two, and
gives them back last one first, so that each is checked with the rules of a stack of handles
(`Handling.Frees`).
-/

namespace WindCloud

open Interaction Prog Handling

inductive Handle where
  | file (fd : Nat)
  | dir (d : Nat)
  | map (m : Nat)
deriving DecidableEq, Repr

/-- What is open in a process. -/
def Handle.IsOpen (p : Proc) : Handle → Prop
  | .file fd => p.fds fd ≠ none
  | .dir d => p.dirs d ≠ none
  | .map m => p.maps m ≠ none

def Proc.handles (p : Proc) : Set Handle := {h | h.IsOpen p}

/-- The calls that open and close handles. -/
def handling : Handling Call Res Handle where
  acquires
    | .opendir _, some d => some (.dir d)
    | .openFile .., some fd => some (.file fd)
    | .mmap .., some m => some (.map m)
    | _, _ => none
  releases
    | .closedir d => some (.dir d)
    | .close fd => some (.file fd)
    | .munmap m => some (.map m)
    | _ => none

section Effects

variable {env : Env} {w w' : World} {c : Call} {r : Res c} {p : Proc}

theorem mem_handles {h : Handle} : h ∈ p.handles ↔ h.IsOpen p := Iff.rfl

theorem handles_setFd_some {fd : Nat} (f : OpenFile) : (p.setFd fd (some f)).handles = insert (.file fd) p.handles := by
  ext h
  cases h <;> simp [mem_handles, Handle.IsOpen, Function.update_apply]
  grind

theorem handles_setFd_none {fd : Nat} : (p.setFd fd none).handles = p.handles \ {.file fd} := by
  ext h
  cases h <;> simp [mem_handles, Handle.IsOpen, Function.update_apply]
  grind

theorem handles_setDir_some {d : Nat} (names : List Bytes) :
    (p.setDir d (some names)).handles = insert (.dir d) p.handles := by
  ext h
  cases h <;> simp [mem_handles, Handle.IsOpen, Function.update_apply]
  grind

theorem handles_setDir_none {d : Nat} : (p.setDir d none).handles = p.handles \ {.dir d} := by
  ext h
  cases h <;> simp [mem_handles, Handle.IsOpen, Function.update_apply]
  grind

theorem handles_setMap_some {m : Nat} (mp : Mapping) : (p.setMap m (some mp)).handles = insert (.map m) p.handles := by
  ext h
  cases h <;> simp [mem_handles, Handle.IsOpen, Function.update_apply]
  grind

theorem handles_setMap_none {m : Nat} : (p.setMap m none).handles = p.handles \ {.map m} := by
  ext h
  cases h <;> simp [mem_handles, Handle.IsOpen, Function.update_apply]
  grind

/-- Moving the position of an open file, and reading on in an open directory. -/
theorem handles_setFd_of_open {fd : Nat} {f g : OpenFile} (h : p.fds fd = some g) :
    (p.setFd fd (some f)).handles = p.handles := by
  rw [handles_setFd_some]
  exact Set.insert_eq_of_mem (by simp [mem_handles, Handle.IsOpen, h])

theorem handles_setDir_of_open {d : Nat} {names more : List Bytes} (h : p.dirs d = some more) :
    (p.setDir d (some names)).handles = p.handles := by
  rw [handles_setDir_some]
  exact Set.insert_eq_of_mem (by simp [mem_handles, Handle.IsOpen, h])

theorem effect_handling {faults : Call → Prop} (h : Effect faults w c r w') :
    handling.sem w.proc.handles c r w'.proc.handles := by
  have same {v : World} (he : w' = v) (hv : v.proc.handles = w.proc.handles) :
      w'.proc.handles = w.proc.handles := he ▸ hv
  cases c with
  | opendir path =>
    cases r with
    | none => exact same h.2 rfl
    | some d =>
      obtain ⟨names, -, hd, rfl⟩ := h
      exact ⟨by simp [mem_handles, Handle.IsOpen, hd], handles_setDir_some names⟩
  | readdir d =>
    cases r with
    | none => exact same h.2 rfl
    | some name =>
      obtain ⟨names, hd, rfl⟩ := h
      exact handles_setDir_of_open hd
  | closedir d => exact h ▸ handles_setDir_none
  | openFile path mode =>
    cases r with
    | none => exact same h.2 rfl
    | some fd =>
      cases mode with
      | rdonly =>
        obtain ⟨-, hfd, rfl⟩ := h
        exact ⟨by simp [mem_handles, Handle.IsOpen, hfd], handles_setFd_some _⟩
      | rdwrCreat =>
        obtain ⟨-, hfd, rfl⟩ := h
        exact ⟨by simp [mem_handles, Handle.IsOpen, hfd], handles_setFd_some _⟩
  | close fd => exact h ▸ handles_setFd_none
  | mmap fd len =>
    cases r with
    | none => exact same h.2 rfl
    | some m =>
      obtain ⟨f, -, hm, rfl⟩ := h
      exact ⟨by simp [mem_handles, Handle.IsOpen, hm], handles_setMap_some _⟩
  | munmap m => exact h ▸ handles_setMap_none
  | recv wait n =>
    rcases r with _ | _ | bs
    · exact same h rfl
    · exact same h.2 rfl
    · exact same h.2.2 rfl
  | send buf =>
    rcases r with _ | _ | m
    · exact same h rfl
    · exact same h.2 rfl
    · exact same h.2.2 rfl
  | calloc n => exact same h.2 rfl
  | remove path =>
    cases r with
    | false => exact same h.2 rfl
    | true => exact same h.2 rfl
  | mkdir path =>
    cases r with
    | false => exact same h.2 rfl
    | true => exact same h.2 rfl
  | fstat fd =>
    cases r with
    | none => exact same h.2 rfl
    | some n =>
      obtain ⟨f, -, -, -, rfl⟩ := h
      rfl
  | ftruncate fd len why =>
    cases r with
    | false => exact same h.2 rfl
    | true =>
      obtain ⟨f, fs, -, -, -, rfl⟩ := h
      rfl
  | lseek fd off =>
    cases r with
    | false => exact same h.2 rfl
    | true =>
      obtain ⟨f, hf, -, rfl⟩ := h
      exact handles_setFd_of_open hf
  | read fd n =>
    rcases r with _ | _ | bs
    · exact same h rfl
    · exact same h.2 rfl
    · obtain ⟨f, hf, -, -, -, rfl⟩ := h
      exact handles_setFd_of_open hf
  | write fd buf =>
    rcases r with _ | _ | m
    · exact same h rfl
    · exact same h.2 rfl
    · obtain ⟨f, fs, hf, -, -, -, rfl⟩ := h
      exact handles_setFd_of_open hf
  | sendfile fd off n =>
    rcases r with _ | _ | m
    · exact same h rfl
    · exact same h.2 rfl
    · obtain ⟨f, bs, -, -, -, -, -, -, rfl⟩ := h
      rfl
  | memcpy m off data =>
    obtain ⟨mp, fs, -, -, rfl⟩ := h
    rfl

theorem kernel_handling (w : World) (c : Call) (r : Res c) (w' : World) (h : kernel env w c r w') :
    handling.sem w.proc.handles c r w'.proc.handles := by
  obtain ⟨fs, -, v, he, rfl⟩ := h
  have := effect_handling he
  split <;> exact this

end Effects

/-! ## The server's handlers -/

/-- `p` gives back what it opens, and with it the handles of `held`. -/
abbrev Returns {α : Type} (held : List Handle) (p : Io α) : Prop := handling.Frees held p

theorem idle_toPeer {c : Call} (h : c.ToPeer) : handling.Idle c := by
  cases c with
  | send buf => exact ⟨fun _ => rfl, rfl⟩
  | _ => cases h

theorem idle_fromPeer {c : Call} (h : c.FromPeer) : handling.Idle c := by
  cases c with
  | recv wait n => exact ⟨fun _ => rfl, rfl⟩
  | calloc n => exact ⟨fun _ => rfl, rfl⟩
  | _ => cases h

theorem sendPacket_idle (type : CmdType) (status : StatusCode) (payload : Option Bytes) (len : UInt32) :
    every handling.Idle (sendPacket type status payload len) fun _ => True :=
  every_mono (sendPacket_calls ..) (fun _ => idle_toPeer) fun _ => id

theorem recvPacket_idle (wait : Wait) : every handling.Idle (recvPacket wait) fun _ => True :=
  every_mono (recvPacket_calls wait) (fun _ => idle_fromPeer) fun _ => id

section Rules

variable {α : Type} {held : List Handle}

/-- Closing the file on top. -/
theorem returns_close {fd : Nat} {k : Unit → Io α} (hk : Returns held (k ())) :
    Returns (.file fd :: held) (Sys.close fd >>= k) := Frees.release rfl (fun _ => rfl) fun _ => hk

theorem returns_closedir {d : Nat} {k : Unit → Io α} (hk : Returns held (k ())) :
    Returns (.dir d :: held) (Sys.closedir d >>= k) := Frees.release rfl (fun _ => rfl) fun _ => hk

theorem returns_munmap {m : Nat} {k : Unit → Io α} (hk : Returns held (k ())) :
    Returns (.map m :: held) (Sys.munmap m >>= k) := Frees.release rfl (fun _ => rfl) fun _ => hk

theorem returns_open {path : Bytes} {mode : OpenMode} {k : Option Nat → Io α} (hnone : Returns held (k none))
    (hsome : ∀ fd, Returns (.file fd :: held) (k (some fd))) : Returns held (Sys.openFile path mode >>= k) :=
  Frees.acquire rfl fun r => by
    cases r with
    | none => exact hnone
    | some fd => exact hsome fd

theorem returns_opendir {path : Bytes} {k : Option Nat → Io α} (hnone : Returns held (k none))
    (hsome : ∀ d, Returns (.dir d :: held) (k (some d))) : Returns held (Sys.opendir path >>= k) :=
  Frees.acquire rfl fun r => by
    cases r with
    | none => exact hnone
    | some d => exact hsome d

theorem returns_mmap {fd len : Nat} {k : Option Nat → Io α} (hnone : Returns held (k none))
    (hsome : ∀ m, Returns (.map m :: held) (k (some m))) : Returns held (Sys.mmap fd len >>= k) :=
  Frees.acquire rfl fun r => by
    cases r with
    | none => exact hnone
    | some m => exact hsome m

/-- Any other call. -/
theorem returns_call {c : Call} {k : Res c → Io α} (ha : ∀ r, handling.acquires c r = none)
    (hr : handling.releases c = none) (hk : ∀ r, Returns held (k r)) : Returns held (perform c >>= k) :=
  Frees.idle ⟨ha, hr⟩ hk

end Rules

namespace Server

variable {session : Session}

theorem reply_returns {type : CmdType} {status : StatusCode} {msg : Bytes} :
    Returns [] (reply session type status msg) := by
  rw [reply, sendTextReply_some]
  exact .after (sendPacket_idle ..) fun _ _ => .ret _

theorem recvFollowPacket_idle : every handling.Idle (recvFollowPacket session) fun _ => True := by
  apply every_bind (recvPacket_idle _)
  rintro ⟨_ | _, packet⟩ _ <;> trivial

theorem handleCd_returns (arg : Bytes) : Returns [] (handleCd session arg) := by
  unfold handleCd
  split
  · exact reply_returns
  · exact returns_opendir reply_returns fun d => returns_closedir reply_returns

theorem handleLs_returns : Returns [] (handleLs session) := by
  unfold handleLs
  split
  · exact reply_returns
  · refine returns_opendir reply_returns fun d => .after (R := fun _ => True) ?_ fun l _ => ?_
    · refine every_iter (fun _ => True) trivial ?_
      intro l _
      refine every_perform ⟨fun _ => rfl, rfl⟩ ?_
      intro name
      cases name with
      | none => trivial
      | some name => cases hl : l.add name <;> simp only [hl] <;> trivial
    · cases l <;> exact returns_closedir reply_returns

theorem handleRm_returns (arg : Bytes) : Returns [] (handleRm session arg) := by
  unfold handleRm
  split
  · exact reply_returns
  · refine returns_call (fun _ => rfl) rfl ?_
    intro ok
    cases ok <;> exact reply_returns

theorem handleMkdir_returns (arg : Bytes) : Returns [] (handleMkdir session arg) := by
  unfold handleMkdir
  split
  · exact reply_returns
  · refine returns_call (fun _ => rfl) rfl ?_
    intro ok
    cases ok <;> exact reply_returns

/-- The stack of an upload: its mapping, if there is one, over its file. -/
def uploadHandles (fd : Nat) : Option Nat → List Handle
  | some m => [.map m, .file fd]
  | none => [.file fd]

theorem uploadFinish_returns {fd : Nat} {map : Option Nat} {writeOffset : UInt64} {success : Bool} :
    Returns (uploadHandles fd map) (uploadFinish session fd map writeOffset success) := by
  have hclosed : Returns [.file fd] (uploadFinish session fd none writeOffset success) := by
    cases success with
    | true => exact returns_close reply_returns
    | false => exact returns_call (fun _ => rfl) rfl fun _ => returns_close reply_returns
  cases map with
  | none => exact hclosed
  | some m => exact returns_munmap hclosed

theorem receiveLoop_idle {totalSize writeOffset : UInt64} {map : Option Nat} :
    every handling.Idle (receiveLoop session totalSize map writeOffset) fun _ => True := by
  refine every_iter (fun _ => True) trivial ?_
  intro off _
  apply every_bind recvFollowPacket_idle
  rintro ⟨_ | _, session', packet⟩ _
  · simp only
    split
    · trivial
    split
    · trivial
    split
    · trivial
    · refine every_bind (R := fun _ => True) ?_ fun _ _ => trivial
      unfold copyBlock
      split
      · split
        · exact ⟨⟨fun _ => rfl, rfl⟩, fun _ _ _ => trivial⟩
        · trivial
      · trivial
  · trivial

theorem uploadReceive_returns {fd : Nat} {totalSize writeOffset : UInt64} (map : Option Nat) :
    Returns (uploadHandles fd map) (uploadReceive session fd totalSize map writeOffset) :=
  .after receiveLoop_idle fun _ _ => uploadFinish_returns

theorem uploadMapped_returns {fd : Nat} {totalSize writeOffset : UInt64} :
    Returns [.file fd] (uploadMapped session fd totalSize writeOffset) := by
  unfold uploadMapped
  split
  · refine returns_call (fun _ => rfl) rfl ?_
    intro ok
    cases ok with
    | false => exact returns_close reply_returns
    | true => exact returns_mmap (returns_close reply_returns) fun m => uploadReceive_returns (some m)
  · exact uploadReceive_returns none

theorem uploadFrom_returns {fd : Nat} {totalSize writeOffset : UInt64} :
    Returns [.file fd] (uploadFrom session fd totalSize writeOffset) := by
  refine .after (sendPacket_idle ..) ?_
  intro rc _
  cases rc with
  | fail => exact returns_close (.ret _)
  | ok => exact uploadMapped_returns

theorem handlePuts_returns {packet : Packet} : Returns [] (handlePuts session packet) := by
  unfold handlePuts
  split
  · exact reply_returns
  split
  · exact reply_returns
  split
  · exact reply_returns
  · refine returns_open reply_returns fun fd => returns_call (fun _ => rfl) rfl fun st => ?_
    simp only
    split
    · refine returns_call (fun _ => rfl) rfl ?_
      intro ok
      cases ok with
      | false => exact returns_close reply_returns
      | true => exact uploadFrom_returns
    · exact uploadFrom_returns

theorem sendFileDataPacket_idle {fd chunkSize : Nat} {offset : Int} :
    every handling.Idle (sendFileDataPacket fd offset chunkSize) fun _ => True := by
  refine every_bind (every_mono (sendN_calls _) (fun _ => idle_toPeer) fun _ => id) fun rc _ => ?_
  cases rc with
  | fail => trivial
  | ok =>
    refine every_iter (fun _ => True) trivial ?_
    intro total _
    split
    · refine every_perform ⟨fun _ => rfl, rfl⟩ ?_
      rintro (_ | _ | _ | m) <;> trivial
    · trivial

theorem downloadFrom_returns {fd : Nat} {totalSize resumeOffset : UInt64} :
    Returns [.file fd] (downloadFrom session fd totalSize resumeOffset) := by
  refine .after (R := fun _ => True) (every_iter (fun _ => True) trivial fun off _ => ?_) fun rc _ => ?_
  · split
    · apply every_bind sendFileDataPacket_idle
      rintro ⟨_ | _, off'⟩ _ <;> trivial
    · trivial
  · cases rc with
    | fail => exact returns_close (.ret _)
    | ok => exact returns_close (.after (sendPacket_idle ..) fun _ _ => .ret _)

theorem handleGets_returns (arg : Bytes) : Returns [] (handleGets session arg) := by
  unfold handleGets
  split
  · exact reply_returns
  · refine returns_open reply_returns fun fd => returns_call (fun _ => rfl) rfl fun size => ?_
    cases size with
    | none => exact returns_close reply_returns
    | some size =>
      refine .after (sendPacket_idle ..) ?_
      intro rc _
      cases rc with
      | fail => exact returns_close (.ret _)
      | ok =>
        refine .after recvFollowPacket_idle ?_
        rintro ⟨_ | _, session', packet⟩ _
        · simp only
          split
          · exact returns_close (.ret _)
          split
          · exact returns_close (.ret _)
          · exact downloadFrom_returns
        · exact returns_close (.ret _)

end Server

/-! ## The client's -/

namespace Client

theorem recvTextResponse_idle : every handling.Idle recvTextResponse fun _ => True := by
  apply every_bind (recvPacket_idle _)
  rintro ⟨_ | _, packet⟩ _
  · simp only
    split <;> trivial
  · trivial

theorem writeN_idle {fd : Nat} {buf : Bytes} : every handling.Idle (writeN fd buf) fun _ => True := by
  refine every_iter (fun _ => True) trivial ?_
  intro total _
  split
  · refine every_perform ⟨fun _ => rfl, rfl⟩ ?_
    rintro (_ | _ | _ | m) <;> trivial
  · trivial

theorem sendBlocks_idle {fd : Nat} {fileSize resumeOffset : UInt64} :
    every handling.Idle (sendBlocks fd fileSize resumeOffset) fun _ => True := by
  refine every_iter (fun _ => True) trivial ?_
  intro off _
  split
  · refine every_perform ⟨fun _ => rfl, rfl⟩ ?_
    rintro (_ | _ | _ | ⟨b, bs⟩)
    · trivial
    · trivial
    · trivial
    · refine every_bind (sendPacket_idle ..) ?_
      intro rc _
      cases rc <;> trivial
  · trivial

theorem uploadFrom_returns {fd : Nat} {fileSize resumeOffset : UInt64} :
    Returns [.file fd] (uploadFrom fd fileSize resumeOffset) := by
  refine returns_call (fun _ => rfl) rfl ?_
  intro ok
  cases ok with
  | false => exact returns_close (.ret _)
  | true =>
    refine .after sendBlocks_idle ?_
    intro rc _
    cases rc with
    | fail => exact returns_close (.ret _)
    | ok =>
      refine returns_close (.after (sendPacket_idle ..) fun rc _ => ?_)
      cases rc with
      | fail => exact .ret _
      | ok => exact .of_every recvTextResponse_idle

theorem requestUpload_returns {fd : Nat} {baseName : Bytes} {fileSize : UInt64} :
    Returns [.file fd] (requestUpload fd baseName fileSize) := by
  refine .after (sendPacket_idle ..) ?_
  intro rc _
  cases rc with
  | fail => exact returns_close (.ret _)
  | ok =>
    refine .after (recvPacket_idle _) ?_
    rintro ⟨_ | _, packet⟩ _
    · simp only
      split
      · exact returns_close (.ret _)
      split
      · exact returns_close (.ret _)
      · exact uploadFrom_returns
    · exact returns_close (.ret _)

theorem handlePuts_returns (req : CommandRequest) : Returns [] (handlePuts req) := by
  refine returns_open (.ret _) fun fd => returns_call (fun _ => rfl) rfl fun size => ?_
  cases size with
  | none => exact returns_close (.ret _)
  | some size => exact requestUpload_returns

theorem receiveBlocks_idle {fd : Nat} {localSize : UInt64} :
    every handling.Idle (receiveBlocks fd localSize) fun _ => True := by
  refine every_iter (fun _ => True) trivial ?_
  intro size _
  apply every_bind (recvPacket_idle _)
  rintro ⟨_ | _, packet⟩ _
  · simp only
    split
    · trivial
    split
    · trivial
    split
    · trivial
    · refine every_bind writeN_idle ?_
      intro rc _
      cases rc <;> trivial
  · trivial

theorem downloadTo_returns {fd : Nat} {localSize : UInt64} : Returns [.file fd] (downloadTo fd localSize) := by
  refine returns_call (fun _ => rfl) rfl ?_
  intro ok
  cases ok with
  | false => exact returns_close (.ret _)
  | true =>
    refine .after (sendPacket_idle ..) ?_
    intro rc _
    cases rc with
    | fail => exact returns_close (.ret _)
    | ok => exact .after receiveBlocks_idle fun rc _ => returns_close (.ret _)

theorem handleGets_returns (req : CommandRequest) : Returns [] (handleGets req) := by
  refine .after (sendPacket_idle ..) ?_
  intro rc _
  cases rc with
  | fail => exact .ret _
  | ok =>
    refine .after (recvPacket_idle _) ?_
    rintro ⟨_ | _, packet⟩ _
    · simp only
      split
      · exact .ret _
      split
      · exact .ret _
      · refine returns_open (.ret _) fun fd => returns_call (fun _ => rfl) rfl fun st => ?_
        split
        · refine returns_call (fun _ => rfl) rfl ?_
          intro ok
          cases ok with
          | false => exact returns_close (.ret _)
          | true => exact downloadTo_returns
        · exact downloadTo_returns
    · exact .ret _

end Client

/-! ## Every run -/

/-- In every run of `p`: where it returns, the handles are those from before; and a handle that is
closed is open, and was not before. -/
def Tidy {α : Type} (p : Io α) : Prop := ∀ (env : Env) (w : World),
  (∀ a w', Steps (kernel env) (p, w) (.ret a, w') → w'.proc.handles = w.proc.handles) ∧
  ∀ (c : Call) (k : Res c → Io α) (w' : World) (h : Handle), Steps (kernel env) (p, w) (.call c k, w') →
    handling.releases c = some h → h ∈ w'.proc.handles ∧ h ∉ w.proc.handles

theorem Returns.tidy {α : Type} {p : Io α} (h : Returns [] p) : Tidy p := by
  intro env w
  refine ⟨fun a w' hrun => ?_, fun c k w' hd hrun hc => ?_⟩
  · exact Frees.returns (fun w : World => w.proc.handles) h kernel_handling hrun
  · exact Frees.closes (fun w : World => w.proc.handles) h kernel_handling hrun hc

/-- **Every request gives back what it opened**, on whichever way out: whatever arrives and whichever
call fails. -/
theorem handlers_tidy :
    (∀ session arg, Tidy (Server.handleCd session arg)) ∧ (∀ session, Tidy (Server.handleLs session)) ∧
    (∀ session arg, Tidy (Server.handleRm session arg)) ∧ (∀ session arg, Tidy (Server.handleMkdir session arg)) ∧
    (∀ session packet, Tidy (Server.handlePuts session packet)) ∧
    (∀ session arg, Tidy (Server.handleGets session arg)) ∧
    (∀ req, Tidy (Client.handlePuts req)) ∧ ∀ req, Tidy (Client.handleGets req) := by
  refine ⟨?_, ?_, ?_, ?_, ?_, ?_, ?_, ?_⟩
  · intro _ arg
    exact (Server.handleCd_returns arg).tidy
  · exact fun _ => Server.handleLs_returns.tidy
  · intro _ arg
    exact (Server.handleRm_returns arg).tidy
  · intro _ arg
    exact (Server.handleMkdir_returns arg).tidy
  · exact fun _ _ => Server.handlePuts_returns.tidy
  · intro _ arg
    exact (Server.handleGets_returns arg).tidy
  · intro req
    exact (Client.handlePuts_returns req).tidy
  · intro req
    exact (Client.handleGets_returns req).tidy

end WindCloud
