import WindCloud.Run
/-!
# The path jail

`handle_cd` is the only writer of `current_path`, and what it writes is a rendered stack; so
is every path the other handlers resolve. The invariant of the connection's loop is that
`current_path` renders a stack; the check on each call is that its path lies under the base
directory. Neither depends on what any call answers (`Prog.every`), so they hold in every run,
whatever arrives and whatever the file system does.
-/

namespace WindCloud

open Interaction Prog

/-- The path a call hands to the file system. -/
def Call.path? : Call → Option Bytes
  | .opendir path | .remove path | .mkdir path | .openFile path _ => some path
  | _ => none

/-- The base directory, or names below it. -/
def Jailed (path : Bytes) : Prop :=
  ∃ names : List Bytes, (∀ c ∈ names, c ≠ [] ∧ slash ∉ c ∧ c ≠ dot ∧ c ≠ dotdot) ∧
    path = serverBaseDir ++ names.flatMap (slash :: ·)

/-- A call that names no path, or one in the jail. -/
def Confined (c : Call) : Prop := ∀ path, c.path? = some path → Jailed path

/-- `current_path` is normalised. -/
def Session.Normal (session : Session) : Prop := ∃ v : VPath, session.currentPath = v.render

theorem VPath.jailed (v : VPath) : Jailed (serverBaseDir ++ v.tail) := ⟨v.names, v.ok, rfl⟩

theorem Confined.of_none {c : Call} (h : c.path? = none) : Confined c := fun _ hp => by simp [h] at hp

theorem Confined.of_some {c : Call} {path : Bytes} (h : c.path? = some path) (hj : Jailed path) :
    Confined c := fun p hp => by
  rw [h] at hp
  exact Option.some.inj hp ▸ hj

/-- A confined call that removes nothing. -/
def Spares (c : Call) : Prop := Confined c ∧ ∀ path, c ≠ .remove path

theorem Spares.of_none {c : Call} (h : c.path? = none) : Spares c :=
  ⟨.of_none h, fun path hc => by simp [hc, Call.path?] at h⟩

theorem Spares.of_some {c : Call} {path : Bytes} (h : c.path? = some path) (hj : Jailed path)
    (hc : ∀ path, c ≠ .remove path) : Spares c := ⟨.of_some h hj, hc⟩

theorem Spares.of_toPeer {c : Call} (h : c.ToPeer) : Spares c := by
  cases c with
  | send buf => exact .of_none rfl
  | _ => cases h

theorem Spares.of_fromPeer {c : Call} (h : c.FromPeer) : Spares c := by
  cases c with
  | recv wait n => exact .of_none rfl
  | calloc n => exact .of_none rfl
  | _ => cases h

/-- The calls of a download once its size is known. -/
def Call.Downloads : Call → Prop
  | .recv .. | .send _ | .calloc _ | .close _ | .sendfile .. => True
  | _ => False

/-- The calls of a transfer once its file is open. -/
def Call.Transfers : Call → Prop
  | .recv .. | .send _ | .calloc _ | .close _ | .sendfile .. | .mmap .. | .memcpy .. | .munmap _ => True
  | .ftruncate _ _ why => why = .extend ∨ why = .cut
  | _ => False

theorem Call.Transfers.of_toPeer {c : Call} (h : c.ToPeer) : c.Transfers := by
  cases c with
  | send buf => trivial
  | _ => cases h

theorem Call.Transfers.of_fromPeer {c : Call} (h : c.FromPeer) : c.Transfers := by
  cases c with
  | recv wait n => trivial
  | calloc n => trivial
  | _ => cases h

theorem Call.Downloads.of_toPeer {c : Call} (h : c.ToPeer) : c.Downloads := by
  cases c with
  | send buf => trivial
  | _ => cases h

theorem Call.Downloads.of_fromPeer {c : Call} (h : c.FromPeer) : c.Downloads := by
  cases c with
  | recv wait n => trivial
  | calloc n => trivial
  | _ => cases h

theorem Call.Downloads.transfers {c : Call} (h : c.Downloads) : c.Transfers := by
  cases c with
  | ftruncate fd len why => cases h
  | _ => trivial

/-- They work on handles. -/
theorem Spares.of_transfers {c : Call} (h : c.Transfers) : Spares c := by
  cases c with
  | openFile path mode => cases h
  | opendir path => cases h
  | remove path => cases h
  | mkdir path => cases h
  | _ => exact .of_none rfl

namespace Server

/-! ## Packets name no path -/

theorem sendPacket_spares (type : CmdType) (status : StatusCode) (payload : Option Bytes) (len : UInt32) :
    every Spares (sendPacket type status payload len) fun _ => True :=
  every_mono (sendPacket_calls ..) (fun _ => .of_toPeer) fun _ => id

theorem recvPacket_spares (wait : Wait) : every Spares (recvPacket wait) fun _ => True :=
  every_mono (recvPacket_calls wait) (fun _ => .of_fromPeer) fun _ => id

section Handlers

variable {session : Session} {cur : Bytes}

/-- A handler's contract: confined calls, and a normalised path in the session it returns. -/
abbrev Keeps (p : Io (Rc × Session)) : Prop := every Confined p fun r => r.2.Normal

/-- What all handlers but two do: they remove nothing and leave `current_path`. -/
abbrev Stays (cur : Bytes) (p : Io (Rc × Session)) : Prop := every Spares p fun r => r.2.currentPath = cur

theorem sendTextReply_calls (type : CmdType) (status : StatusCode) (msg : Option Bytes) :
    every Call.ToPeer (sendTextReply type status msg) fun _ => True :=
  sendPacket_calls ..

/-- Closing a handle on the way out. -/
theorem close_stays {c : Call} {k : Res c → Io (Rc × Session)} (hc : c.path? = none)
    (hk : ∀ r, Stays cur (k r)) : Stays cur (perform c >>= k) :=
  every_perform (.of_none hc) hk

/-! ## Transfers -/

/-- The part of a transfer with its file open: it leaves `current_path`. -/
abbrev Moves (cur : Bytes) (p : Io (Rc × Session)) : Prop := every Call.Transfers p fun r => r.2.currentPath = cur

theorem Moves.stays {p : Io (Rc × Session)} (h : Moves cur p) : Stays cur p :=
  every_mono h (fun _ => .of_transfers) fun _ => id

theorem reply_moves {type : CmdType} {status : StatusCode} {msg : Bytes} (h : session.currentPath = cur) :
    Moves cur (reply session type status msg) :=
  every_bind (every_mono (sendTextReply_calls ..) (fun _ => .of_toPeer) fun _ => id) fun _ _ => h

theorem reply_stays {type : CmdType} {status : StatusCode} {msg : Bytes} (h : session.currentPath = cur) :
    Stays cur (reply session type status msg) := (reply_moves h).stays

theorem call_moves {c : Call} {k : Res c → Io (Rc × Session)} (hc : c.Transfers) (hk : ∀ r, Moves cur (k r)) :
    Moves cur (perform c >>= k) :=
  every_perform hc hk

theorem recvFollowPacket_transfers (h : session.currentPath = cur) :
    every Call.Transfers (recvFollowPacket session) fun r => r.2.1.currentPath = cur := by
  refine every_bind (every_mono (recvPacket_calls _) (fun _ => .of_fromPeer) fun _ => id) ?_
  rintro ⟨_ | _, packet⟩ _ <;> exact h

theorem uploadFinish_moves {fd : Nat} {map : Option Nat} {writeOffset : UInt64} {success : Bool}
    (h : session.currentPath = cur) : Moves cur (uploadFinish session fd map writeOffset success) := by
  have hmap : every Call.Transfers (unmap map) fun _ => True := by
    cases map with
    | none => trivial
    | some m => exact ⟨trivial, fun _ _ _ => trivial⟩
  refine every_bind hmap fun _ _ => ?_
  cases success with
  | true => exact call_moves trivial fun _ => reply_moves h
  | false => exact call_moves (.inr rfl) fun _ => call_moves trivial fun _ => reply_moves h

theorem receiveLoop_transfers {totalSize writeOffset : UInt64} {map : Option Nat} (h : session.currentPath = cur) :
    every Call.Transfers (receiveLoop session totalSize map writeOffset) fun r => r.1.currentPath = cur := by
  refine every_iter (fun _ => True) trivial ?_
  intro off _
  apply every_bind (recvFollowPacket_transfers h)
  rintro ⟨_ | _, session', packet⟩ hs
  · simp only
    split
    · exact hs
    split
    · exact hs
    split
    · exact hs
    · refine every_bind (R := fun _ => True) ?_ fun _ _ => trivial
      unfold copyBlock
      split
      · split
        · exact ⟨trivial, fun _ _ _ => trivial⟩
        · trivial
      · trivial
  · exact hs

theorem uploadReceive_moves {fd : Nat} {totalSize writeOffset : UInt64} {map : Option Nat}
    (h : session.currentPath = cur) : Moves cur (uploadReceive session fd totalSize map writeOffset) :=
  every_bind (receiveLoop_transfers h) fun _ hs => uploadFinish_moves hs

theorem uploadMapped_moves {fd : Nat} {totalSize writeOffset : UInt64} (h : session.currentPath = cur) :
    Moves cur (uploadMapped session fd totalSize writeOffset) := by
  unfold uploadMapped
  split
  · refine call_moves (.inl rfl) ?_
    intro ok
    cases ok with
    | false => exact call_moves trivial fun _ => reply_moves h
    | true =>
      refine call_moves trivial ?_
      intro map
      cases map with
      | none => exact call_moves trivial fun _ => reply_moves h
      | some m => exact uploadReceive_moves h
  · exact uploadReceive_moves h

theorem uploadFrom_moves {fd : Nat} {totalSize writeOffset : UInt64} (h : session.currentPath = cur) :
    Moves cur (uploadFrom session fd totalSize writeOffset) := by
  refine every_bind (every_mono (sendPacket_calls ..) (fun _ => .of_toPeer) fun _ => id) fun rc _ => ?_
  cases rc with
  | fail => exact call_moves trivial fun _ => h
  | ok => exact uploadMapped_moves h

theorem sendFileDataPacket_downloads {fd chunkSize : Nat} {offset : Int} :
    every Call.Downloads (sendFileDataPacket fd offset chunkSize) fun _ => True := by
  refine every_bind (every_mono (sendN_calls _) (fun _ => .of_toPeer) fun _ => id) fun rc _ => ?_
  cases rc with
  | fail => trivial
  | ok =>
    refine every_iter (fun _ => True) trivial ?_
    intro total _
    split
    · apply every_perform trivial
      rintro (_ | _ | _ | m) <;> trivial
    · trivial

theorem downloadFrom_downloads {fd : Nat} {totalSize resumeOffset : UInt64} (h : session.currentPath = cur) :
    every Call.Downloads (downloadFrom session fd totalSize resumeOffset) fun r => r.2.currentPath = cur := by
  refine every_bind (R := fun _ => True) (every_iter (fun _ => True) trivial fun off _ => ?_) fun rc _ => ?_
  · split
    · apply every_bind sendFileDataPacket_downloads
      rintro ⟨_ | _, off'⟩ _ <;> trivial
    · trivial
  · cases rc with
    | fail => exact every_perform trivial fun _ => h
    | ok =>
      refine every_perform trivial fun _ => ?_
      exact every_bind (every_mono (sendPacket_calls ..) (fun _ => .of_toPeer) fun _ => id) fun _ _ => h

/-- `handle_gets` after `CMD_GETS_RESP` (`handle.c:801`). -/
def resumeDownload (session : Session) (fd : Nat) (totalSize : UInt64) : Io (Rc × Session) := do
  match ← recvFollowPacket session with
  | (.fail, session, _) =>
    Sys.close fd
    return (.fail, session)
  | (.ok, session, resumePacket) =>
    if ¬ resumePacket.Is .resumePos then
      Sys.close fd
      return (.fail, session.closing)
    else match extractResumeOffset resumePacket with
    | none =>
      Sys.close fd
      return (.fail, session.closing)
    | some resumeOffset => downloadFrom session fd totalSize (if resumeOffset > totalSize then 0 else resumeOffset)

theorem resumeDownload_downloads {fd : Nat} {totalSize : UInt64} (h : session.currentPath = cur) :
    every Call.Downloads (resumeDownload session fd totalSize) fun r => r.2.currentPath = cur := by
  have hrecv : every Call.Downloads (recvFollowPacket session) fun r => r.2.1.currentPath = cur := by
    refine every_bind (every_mono (recvPacket_calls _) (fun _ => .of_fromPeer) fun _ => id) ?_
    rintro ⟨_ | _, packet⟩ _ <;> exact h
  apply every_bind hrecv
  rintro ⟨_ | _, session', packet⟩ hs
  · simp only
    split
    · exact every_perform trivial fun _ => hs
    split
    · exact every_perform trivial fun _ => hs
    · exact downloadFrom_downloads hs
  · exact every_perform trivial fun _ => hs

theorem resumeDownload_moves {fd : Nat} {totalSize : UInt64} (h : session.currentPath = cur) :
    Moves cur (resumeDownload session fd totalSize) :=
  every_mono (resumeDownload_downloads h) (fun _ hc => hc.transfers) fun _ => id

/-! ## The handlers -/

theorem handleCd_normal {arg : Bytes} (h : session.Normal) :
    every Spares (handleCd session arg) fun r => r.2.Normal := by
  obtain ⟨u, hu⟩ := h
  have stay {type : CmdType} {status : StatusCode} {msg : Bytes} :
      every Spares (reply session type status msg) fun r => r.2.Normal :=
    every_mono (reply_stays rfl) (fun _ => id) fun _ hr => ⟨u, hr.trans hu⟩
  unfold handleCd
  split
  · exact stay
  · rename_i nextVirtual realPath hres
    obtain ⟨v, rfl, hlen, rfl⟩ := resolveTargetPath_render hres
    refine every_perform (.of_some rfl v.jailed (by simp)) ?_
    intro dir
    cases dir with
    | none => exact stay
    | some d =>
      refine every_mono (close_stays rfl fun _ => reply_stays (truncate_eq hlen)) (fun _ => id) fun _ hr => ?_
      exact ⟨v, hr⟩

theorem handleLs_stays {v : VPath} (h : session.currentPath = v.render) : Stays v.render (handleLs session) := by
  unfold handleLs
  split
  · exact reply_stays h
  · rename_i realPath hb
    rw [h] at hb
    obtain rfl := buildRealPath_render hb
    refine every_perform (.of_some rfl v.jailed (by simp)) ?_
    intro dir
    cases dir with
    | none => exact reply_stays h
    | some d =>
      refine every_bind (R := fun _ => True) (every_iter (fun _ => True) trivial fun l _ => ?_) fun l _ => ?_
      · refine every_perform (.of_none rfl) ?_
        intro name
        cases name with
        | none => trivial
        | some name => cases hl : l.add name <;> simp only [hl] <;> trivial
      · cases l <;> exact close_stays rfl fun _ => reply_stays h

/-- `rm` removes what its argument resolves to. -/
theorem handleRm_allowed {arg : Bytes} (h : session.currentPath = cur) :
    every (fun c => Confined c ∧ ∀ path, c = .remove path → ∃ virtualPath,
        resolveTargetPath session.currentPath arg pathMax pathMax = some (virtualPath, path))
      (handleRm session arg) fun r => r.2.currentPath = cur := by
  have spared {c : Call} (hc : Spares c) : Confined c ∧ ∀ path, c = .remove path → ∃ virtualPath,
      resolveTargetPath session.currentPath arg pathMax pathMax = some (virtualPath, path) :=
    ⟨hc.1, fun path hp => absurd hp (hc.2 path)⟩
  unfold handleRm
  split
  · exact every_mono (reply_stays h) (fun _ => spared) fun _ => id
  · rename_i hres
    obtain ⟨v, -, -, rfl⟩ := resolveTargetPath_render hres
    refine every_perform ⟨.of_some rfl v.jailed, ?_⟩ fun ok => ?_
    · rintro _ ⟨⟩
      exact ⟨_, hres⟩
    · cases ok <;> exact every_mono (reply_stays h) (fun _ => spared) fun _ => id

theorem handleMkdir_stays {arg : Bytes} (h : session.currentPath = cur) : Stays cur (handleMkdir session arg) := by
  unfold handleMkdir
  split
  · exact reply_stays h
  · rename_i hres
    obtain ⟨v, -, -, rfl⟩ := resolveTargetPath_render hres
    refine every_perform (.of_some rfl v.jailed (by simp)) ?_
    intro ok
    cases ok <;> exact reply_stays h

theorem handlePuts_stays {packet : Packet} (h : session.currentPath = cur) : Stays cur (handlePuts session packet) := by
  unfold handlePuts
  split
  · exact reply_stays h
  split
  · exact reply_stays h
  split
  · exact reply_stays h
  · rename_i hres
    obtain ⟨v, -, -, rfl⟩ := resolveTargetPath_render hres
    refine every_perform (.of_some rfl v.jailed (by simp)) ?_
    intro fd
    cases fd with
    | none => exact reply_stays h
    | some fd =>
      refine close_stays rfl ?_
      intro st
      simp only
      split
      · refine close_stays rfl ?_
        intro ok
        cases ok with
        | false => exact close_stays rfl fun _ => reply_stays h
        | true => exact (uploadFrom_moves h).stays
      · exact (uploadFrom_moves h).stays

theorem handleGets_stays {arg : Bytes} (h : session.currentPath = cur) : Stays cur (handleGets session arg) := by
  unfold handleGets
  split
  · exact reply_stays h
  · rename_i hres
    obtain ⟨v, -, -, rfl⟩ := resolveTargetPath_render hres
    refine every_perform (.of_some rfl v.jailed (by simp)) ?_
    intro fd
    cases fd with
    | none => exact reply_stays h
    | some fd =>
      refine close_stays rfl ?_
      intro size
      cases size with
      | none => exact close_stays rfl fun _ => reply_stays h
      | some size =>
        refine every_bind (sendPacket_spares ..) ?_
        intro rc _
        cases rc with
        | fail => exact close_stays rfl fun _ => h
        | ok => exact (resumeDownload_moves h).stays

theorem withArg_every {C : Call → Prop} {Q : Rc × Session → Prop} {packet : Packet} {missing : Bytes}
    {handler : Session → Bytes → Io (Rc × Session)}
    (hmissing : every C (reply session .error .badRequest missing) Q)
    (hh : ∀ arg, copyStringPayload packet pathMax false = some arg → every C (handler session arg) Q) :
    every C (withArg session packet missing handler) Q := by
  unfold withArg
  split
  · exact hmissing
  · rename_i harg
    exact hh _ harg

/-- `current_path` changes by `cd` only, and files go by `rm` only. -/
theorem dispatchCommand_stays {packet : Packet} {v : VPath} (h : session.currentPath = v.render)
    (hcd : ¬ packet.Is .cd) (hrm : ¬ packet.Is .rm) : Stays v.render (dispatchCommand session packet) := by
  unfold dispatchCommand
  split
  · exact reply_stays h
  · exact handleLs_stays h
  · rename_i hp
    exact absurd (CmdType.ofCode_eq hp) hcd
  · rename_i hp
    exact absurd (CmdType.ofCode_eq hp) hrm
  · exact withArg_every (reply_stays h) fun _ _ => handleMkdir_stays h
  · exact handlePuts_stays h
  · exact withArg_every (reply_stays h) fun _ _ => handleGets_stays h
  · have hclosing : session.closing.currentPath = v.render := h
    exact reply_stays hclosing

/-- What an `rm` may remove. -/
def Removes (session : Session) (packet : Packet) (path : Bytes) : Prop :=
  packet.Is .rm ∧ ∃ arg virtualPath, copyStringPayload packet pathMax false = some arg ∧
    resolveTargetPath session.currentPath arg pathMax pathMax = some (virtualPath, path)

/-- **One request**: it stays in the jail, removes what it may, and leaves `current_path` normalised;
only `cd` changes it. -/
theorem dispatchCommand_allowed {packet : Packet} (h : session.Normal) :
    every (fun c => Confined c ∧ ∀ path, c = .remove path → Removes session packet path)
      (dispatchCommand session packet)
      fun r => r.2.Normal ∧ (¬ packet.Is .cd → r.2.currentPath = session.currentPath) := by
  obtain ⟨v, hv⟩ := h
  have spared (c : Call) (hc : Spares c) : Confined c ∧ ∀ path, c = .remove path → Removes session packet path :=
    ⟨hc.1, fun path hp => absurd hp (hc.2 path)⟩
  have stayed (r : Rc × Session) (hr : r.2.currentPath = v.render) :
      r.2.Normal ∧ (¬ packet.Is .cd → r.2.currentPath = session.currentPath) :=
    ⟨⟨v, hr⟩, fun _ => hr.trans hv.symm⟩
  by_cases hcd : packet.Is .cd
  · rw [dispatchCommand, ofCode_of_is hcd]
    refine withArg_every (every_mono (reply_stays hv) spared stayed) ?_
    intro arg _
    exact every_mono (handleCd_normal ⟨v, hv⟩) spared fun r hr => ⟨hr, fun hn => absurd hcd hn⟩
  by_cases hrm : packet.Is .rm
  · rw [dispatchCommand, ofCode_of_is hrm]
    refine withArg_every (every_mono (reply_stays hv) spared stayed) ?_
    intro arg harg
    refine every_mono (handleRm_allowed hv) (fun c hc => ⟨hc.1, fun path hp => ?_⟩) stayed
    obtain ⟨virtualPath, hres⟩ := hc.2 path hp
    exact ⟨hrm, arg, virtualPath, harg, hres⟩
  · exact every_mono (dispatchCommand_stays hv hcd hrm) spared stayed

theorem dispatchCommand_keeps {packet : Packet} (h : session.Normal) : Keeps (dispatchCommand session packet) :=
  every_mono (dispatchCommand_allowed h) (fun _ hc => hc.1) fun _ hr => hr.1

end Handlers

theorem handleRequest_confined {session : Session} (h : session.Normal) :
    every Confined (handleRequest session) fun _ => True := by
  refine every_iter Session.Normal h ?_
  intro session hs
  unfold handleRequestRound
  split
  · trivial
  · refine every_bind (every_mono (recvPacket_spares _) (fun _ hc => hc.1) fun _ => id) ?_
    rintro ⟨_ | _, packet⟩ _
    · apply every_bind (dispatchCommand_keeps hs)
      rintro ⟨rc, session'⟩ hs'
      simp only
      split
      · trivial
      · exact hs'
    · trivial

/-- **Path jail**: in every run of a worker's connection, whatever it receives and whatever any
call answers, a path handed to `opendir`, `remove`, `mkdir` or `open` is the base directory or
names below it. -/
theorem handleRequest_jailed {env : Env} {w w' : World} {c : Call} {k : Res c → Io Rc} {path : Bytes}
    (hrun : Steps (kernel env) (handleRequest Session.start, w) (.call c k, w'))
    (hpath : c.path? = some path) :
    ∃ names : List Bytes, (∀ c ∈ names, c ≠ [] ∧ slash ∉ c ∧ c ≠ dot ∧ c ≠ dotdot) ∧
      path = serverBaseDir ++ names.flatMap (slash :: ·) :=
  every_check (handleRequest_confined ⟨VPath.root, rfl⟩) hrun path hpath

/-- A client that asks to go to `a/../../b`. -/
theorem handleRequest_opensDir : ∃ c, Steps (kernel (.quiet fun _ => False))
    (handleRequest .start, ⟨fun _ => none, .init⟩) c ∧ ∃ k, c.1 = .call (.opendir (lit "../tests/b")) k := by
  have hp : (textPacket .cd .ok (lit "a/../../b")).Valid := textPacket_valid (by decide)
  have hR : Backward (fed (.quiet fun _ => False) (textPacket .cd .ok (lit "a/../../b")).wire) fun c => _ :=
    backward_kernel fun c : Io Rc × World => ∃ k, c.1 = .call (.opendir (lit "../tests/b")) k
  refine hR.loop (run_request hR rfl hp (List.prefix_refl _) ⟨_, .refl, ?_⟩)
  have harg : copyStringPayload (textPacket .cd .ok (lit "a/../../b")) pathMax false = some (lit "a/../../b") := by
    decide
  have hpath : resolveTargetPath rootPath (lit "a/../../b") pathMax pathMax = some (lit "/b", lit "../tests/b") := by
    decide
  have hcd : (textPacket .cd .ok (lit "a/../../b")).Is .cd := Packet.of_is.2 rfl
  rw [dispatchCommand, ofCode_of_is hcd]
  simp only [withArg, harg, handleCd, hpath, Session.start]
  exact ⟨_, rfl⟩

/-- The jail holds there. -/
theorem handleRequest_jailed_opensDir : ∃ names : List Bytes,
    (∀ c ∈ names, c ≠ [] ∧ slash ∉ c ∧ c ≠ dot ∧ c ≠ dotdot) ∧
      lit "../tests/b" = serverBaseDir ++ names.flatMap (slash :: ·) := by
  obtain ⟨⟨_, w'⟩, hrun, k, rfl⟩ := handleRequest_opensDir
  exact handleRequest_jailed hrun rfl

end Server
end WindCloud
