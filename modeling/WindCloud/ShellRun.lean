import WindCloud.Lib.Acts
import WindCloud.ShellTransfer
/-!
# A connection is a run of the shell

`Tracks` says that the requests a worker is done with are a run of the shell, which has received what the worker has
received and written what the worker has written. Every run of `handle_request` follows the shell up to the request it
is at (`served_refines`).

| here | there |
| --- | --- |
| `dispatchCommand_told` | `dispatch_command` (`handle.c:859-903`) |
| `AtWork`, `Tracks`  | the loop of `handle_request` (`handle.c:920-949`) |
-/

namespace WindCloud

open Interaction Prog FileImage

namespace Server

/-! ## One request -/

section Request

variable {faults : Call → Prop} {session : Session} {packet : Packet} {dir : VPath} {w v : World} {x : Rc × Session}

/-- A command with an argument, which may be missing. -/
theorem withArg_told {missing : Bytes} {handler : Session → Bytes → Io (Rc × Session)} (hat : session.At dir)
    (hopen : session.shouldClose = false) (hlen : missing.length < maxPacketPayload.toNat)
    (hmissing : copyStringPayload packet pathMax false = none → ask packet = .malformed missing)
    (hhandler : ∀ arg, copyStringPayload packet pathMax false = some arg →
      Steps (tree faults) (handler session arg, w) (.ret x, v) → Told faults w dir packet x v)
    (h : Steps (tree faults) (withArg session packet missing handler, w) (.ret x, v)) : Told faults w dir packet x v := by
  unfold withArg at h
  split at h
  · rename_i harg
    refine wp_result (wp_refused hlen ⟨rfl, rfl, rfl⟩ hat hopen ?_) h
    rw [hmissing harg]
    exact .malformed
  · rename_i arg harg
    exact hhandler arg harg h

/-- **One request** is a step of the shell. -/
theorem dispatchCommand_told (hat : session.At dir) (hopen : session.shouldClose = false) (hroot : w.fs dotdot = some .dir)
    (hbare : w.proc.handles = ∅) (h : Steps (tree faults) (dispatchCommand session packet, w) (.ret x, v)) :
    Told faults w dir packet x v := by
  have hunknown (hask : ask packet = .unknown)
      (h : Steps (tree faults) (reply session.closing .error .protocolError (lit "未知命令类型"), w) (.ret x, v)) :
      Told faults w dir packet x v := by
    have hreply : wp (tree faults) (fun _ _ => True) (reply session.closing .error .protocolError (lit "未知命令类型"))
        (Told faults w dir packet) w :=
      wp_treeReply (by decide) fun rc out hs => ⟨[], out, dir, ⟨hat.path, hat.room⟩, by simp, by simp, .unknown hask hs⟩
    exact wp_result hreply h
  rcases htype : CmdType.ofCode packet.header.cmdType with _ | type
  · rw [dispatchCommand, htype] at h
    exact hunknown (by rw [ask, htype]) h
  rw [dispatchCommand, htype] at h
  cases type
  case pwd => exact wp_result (handlePwd_told hat hopen (by rw [ask, htype])) h
  case ls => exact wp_result (handleLs_told hat hopen hroot (by rw [ask, htype])) h
  case cd =>
    refine withArg_told hat hopen (by decide) (fun harg => ?_) (fun arg harg h => ?_) h
    · simp only [ask, htype, harg]
    · exact wp_result (handleCd_told hat hopen hroot (by simp only [ask, htype, harg])) h
  case rm =>
    refine withArg_told hat hopen (by decide) (fun harg => ?_) (fun arg harg h => ?_) h
    · simp only [ask, htype, harg]
    · exact wp_result (handleRm_told hat hopen hroot (by simp only [ask, htype, harg])) h
  case mkdir =>
    refine withArg_told hat hopen (by decide) (fun harg => ?_) (fun arg harg h => ?_) h
    · simp only [ask, htype, harg]
    · exact wp_result (handleMkdir_told hat hopen hroot (by simp only [ask, htype, harg])) h
  case getsReq =>
    refine withArg_told hat hopen (by decide) (fun harg => ?_) (fun arg harg h => ?_) h
    · simp only [ask, htype, harg]
    · exact handleGets_told hat hopen hroot hbare (by simp only [ask, htype, harg]) h
  case putsReq => exact handlePuts_told hat hopen hroot hbare htype h
  all_goals exact hunknown (by rw [ask, htype]) h

/-- A request is about a place in the tree. -/
theorem requestPath_real {q : Bytes} (hat : session.At dir) (h : requestPath session packet = some q) :
    ∃ u : VPath, q = u.real := by
  have hnamed (h : (copyStringPayload packet pathMax false).bind (namedPath session) = some q) :
      ∃ u : VPath, q = u.real := by
    obtain ⟨arg, -, h⟩ := Option.bind_eq_some_iff.1 h
    obtain ⟨⟨virtualPath, _⟩, hres, rfl⟩ := Option.map_eq_some_iff.1 h
    exact ⟨_, hat.real hres⟩
  have hputs (h : (uploadTarget session packet).map Prod.fst = some q) : ∃ u : VPath, q = u.real := by
    obtain ⟨⟨_, total⟩, ht, rfl⟩ := Option.map_eq_some_iff.1 h
    obtain ⟨name, virtualPath, -, -, hres⟩ := uploadTarget_eq_some.1 ht
    exact ⟨_, hat.real hres⟩
  unfold requestPath at h
  split at h
  · rw [hat.path] at h
    exact ⟨dir, buildRealPath_render h⟩
  · exact hnamed h
  · exact hnamed h
  · exact hnamed h
  · exact hnamed h
  · exact hputs h
  · cases h

end Request

/-! ## A connection -/

section Connection

variable (faults : Call → Prop) (w : World)

/-- A worker that began in `w` has served the requests of `talks` and stands in `u`; what it has received and written is
theirs, and they are a run of the shell. -/
structure Tracks (talks : List Talk) (session : Session) (closed : Bool) (u : World) : Prop where
  shell : ∃ dir : VPath, session.At dir ∧
    Runs (ShellStep faults) (Shell.of w.fs .root false) talks (Shell.of u.fs dir closed)
  said : w.proc.Since (talks.flatMap fun t => t.packet.wire ++ t.rcvd) (talks.flatMap Talk.sent) u.proc
  /-- Nothing is open, and the server's directory is still in one. -/
  bare : u.proc.handles = ∅
  root : u.fs dotdot = some .dir

/-- What a worker has done since it was in `u`: nothing, or a part of one request. After the last one there is none. -/
inductive AtWork (session : Session) (closed : Bool) (u : World) : World → Prop
  | idle : AtWork session closed u u
  | reading {p : Io (Rc × Packet)} {v : World} (hopen : closed = false)
      (h : Steps (tree faults) (recvPacket .request, u) (p, v)) : AtWork session closed u v
  | serving {packet : Packet} {p : Io (Rc × Session)} {u₁ v : World} (hopen : closed = false)
      (hrecv : Steps (tree faults) (recvPacket .request, u) (.ret (.ok, packet), u₁))
      (h : Steps (tree faults) (dispatchCommand session packet, u₁) (p, v)) (hp : ∀ x, p ≠ .ret x) :
      AtWork session closed u v

end Connection

section Runs

variable {faults : Call → Prop} {talks : List Talk} {session : Session} {packet : Packet} {closed : Bool}
  {w u u₁ v : World} {x : Rc × Session}

theorem recvPacket_tree (h : Steps (tree faults) (recvPacket .request, u) (.ret (.ok, packet), v)) :
    v = ⟨u.fs, u.proc.addRcvd packet.wire⟩ := by
  rcases recvPacket_result (steps_mono (fun _ _ _ _ => TreeCall.quiet) h) with ⟨_, rfl, -, -, hv⟩ | ⟨_, _, -, hfail, -⟩
  · exact hv
  · cases hfail

/-- One request more. -/
theorem Tracks.next (hf : Tracks faults w talks session false u) (hopen : session.shouldClose = false)
    (hrecv : Steps (tree faults) (recvPacket .request, u) (.ret (.ok, packet), u₁))
    (h : Steps (tree faults) (dispatchCommand session packet, u₁) (.ret x, v)) :
    ∃ t, Tracks faults w (talks ++ [t]) x.2 (x.2.shouldClose || x.1 == .fail) v := by
  obtain ⟨⟨dir, hat, hruns⟩, hsaid, hbare, hroot⟩ := hf
  have hu₁ := recvPacket_tree hrecv
  have hroot₁ : u₁.fs dotdot = some .dir := hu₁ ▸ hroot
  have hbare₁ : u₁.proc.handles = ∅ := hu₁ ▸ hbare
  obtain ⟨rcvd, out, next, hnext, hrcvd, hsent, hserves⟩ := dispatchCommand_told hat hopen hroot₁ hbare₁ h
  have hquiet := steps_mono (fun _ _ _ _ => TreeCall.quiet) h
  refine ⟨⟨packet, rcvd, out⟩, ⟨next, hnext, ?_⟩, ?_, ?_, ?_⟩
  · rw [hu₁] at hserves
    exact hruns.snoc ⟨rfl, hserves⟩
  · have hread : u.proc.Since packet.wire [] u₁.proc := hu₁ ▸ (Proc.Since.refl _).addRcvd
    have hboth := hsaid.trans (hread.trans ⟨hrcvd, hsent⟩)
    simpa using hboth
  · have hd := Handling.Frees.returns (fun w : World => w.proc.handles) dispatchCommand_returns kernel_handling hquiet
    exact hd.trans hbare₁
  · by_contra hne
    obtain ⟨hpath, -⟩ := elsewhere_of_steps dispatchCommand_minds hbare₁ hquiet (hroot₁.symm ▸ hne)
    obtain ⟨q, hq⟩ := requestPath_real hat hpath
    exact q.real_ne_dotdot hq.symm

/-- What a round may come to: it is at its request, or done with it and goes on with the session the handler left. -/
theorem Tracks.round {p : Io (Session ⊕ Rc)} (hf : Tracks faults w talks session closed u)
    (hc : closed = true → session.shouldClose = true) (h : Steps (tree faults) (handleRequestRound session, u) (p, v)) :
    (AtWork faults session closed u v ∧ ∀ s, p ≠ .ret (.inl s)) ∨
      ∃ (t : Talk) (x : Rc × Session), Tracks faults w (talks ++ [t]) x.2 (x.2.shouldClose || x.1 == .fail) v ∧
        ∀ s, p = .ret (.inl s) → s = x.2 ∧ (x.1 = .fail → s.shouldClose = true) := by
  by_cases hclose : session.shouldClose = true
  · rw [handleRequestRound, if_pos hclose] at h
    cases steps_ret h
    exact .inl ⟨.idle, fun s hs => by cases hs⟩
  have hopen : session.shouldClose = false := by simpa using hclose
  obtain rfl : closed = false := by simpa using mt hc hclose
  -- once the packet is there
  have hserve {packet : Packet} {u₁ : World} {p' : Io (Rc × Session)}
      (hrecv : Steps (tree faults) (recvPacket .request, u) (.ret (.ok, packet), u₁))
      (h : Steps (tree faults) (dispatchCommand session packet, u₁) (p', v)) (hp : p = p' >>= afterCommand) :
      (AtWork faults session false u v ∧ ∀ s, p ≠ .ret (.inl s)) ∨
        ∃ (t : Talk) (x : Rc × Session), Tracks faults w (talks ++ [t]) x.2 (x.2.shouldClose || x.1 == .fail) v ∧
          ∀ s, p = .ret (.inl s) → s = x.2 ∧ (x.1 = .fail → s.shouldClose = true) := by
    by_cases hret : ∃ x, p' = .ret x
    · obtain ⟨x, rfl⟩ := hret
      obtain ⟨t, ht⟩ := hf.next hopen hrecv h
      refine .inr ⟨t, x, ht, fun s hs => ?_⟩
      rw [hp, ret_bind, afterCommand_eq] at hs
      split at hs
      · cases hs
      · rename_i hgo
        cases hs
        exact ⟨rfl, fun hfail => by simpa [hfail] using hgo⟩
    · rw [not_exists] at hret
      refine .inl ⟨.serving rfl hrecv h hret, fun s hs => ?_⟩
      rw [hp] at hs
      cases p' with
      | ret x => exact hret x rfl
      | call => cases hs
      | loop => cases hs
  rw [handleRequestRound_eq hopen] at h
  rcases steps_bind_cases h with ⟨p', rfl, hrecv⟩ | ⟨⟨rc, packet⟩, u₁, hrecv, h⟩
  · by_cases hret : ∃ x, p' = .ret x
    · obtain ⟨⟨rc, packet⟩, rfl⟩ := hret
      cases rc with
      | fail => exact .inl ⟨.reading rfl hrecv, fun s hs => by cases hs⟩
      | ok => exact hserve hrecv .refl rfl
    · rw [not_exists] at hret
      refine .inl ⟨.reading rfl hrecv, fun s hs => ?_⟩
      cases p' with
      | ret x => exact hret x rfl
      | call => cases hs
      | loop => cases hs
  · cases rc with
    | fail =>
      cases steps_ret h
      exact .inl ⟨.reading rfl hrecv, fun s hs => by cases hs⟩
    | ok =>
      rcases steps_bind_cases h with ⟨p', rfl, hdis⟩ | ⟨x, v', hdis, h⟩
      · exact hserve hrecv hdis rfl
      · rw [afterCommand_eq] at h
        obtain ⟨rfl, rfl⟩ := Prod.mk.inj (steps_ret h)
        exact hserve hrecv hdis (afterCommand_eq x).symm

/-- Between two rounds. -/
theorem tracks_of_rounds (hbare : w.proc.handles = ∅) (hroot : w.fs dotdot = some .dir)
    (h : Rounds (tree faults) handleRequestRound (.start, w) (session, u)) :
    ∃ talks closed, Tracks faults w talks session closed u ∧ (closed = true → session.shouldClose = true) := by
  generalize hc : (session, u) = c at h
  induction h generalizing session u with
  | refl =>
    cases hc
    exact ⟨[], false, ⟨⟨.root, ⟨rfl, by decide⟩, .nil⟩, .refl _, hbare, hroot⟩, fun h => by cases h⟩
  | @tail b _ _ hs ih =>
    subst hc
    obtain ⟨talks, closed, hf, hclosed⟩ := ih rfl
    rcases hf.round hclosed hs with ⟨-, hne⟩ | ⟨t, x, hf, hx⟩
    · exact absurd rfl (hne _)
    · obtain ⟨rfl, hfail⟩ := hx _ rfl
      refine ⟨_, _, hf, fun h => ?_⟩
      rcases Bool.or_eq_true_iff.1 h with h | h
      · exact h
      · exact hfail (by simpa using h)

/-- **A connection is a remote shell.** Nobody else changes the tree. Whatever arrives and whichever calls fail, at any
moment the requests a worker is done with are a run of a shell that starts at the root: what it has received is these
requests and what belongs to them, what it has written is what that shell has answered, the tree is that shell's tree,
and beyond them it has done no more than a part of the next request. -/
theorem served_refines {q : Io Rc} (hbare : w.proc.handles = ∅) (hroot : w.fs dotdot = some .dir)
    (h : Steps (tree faults) (handleRequest .start, w) (q, v)) :
    ∃ talks session closed u, Tracks faults w talks session closed u ∧ AtWork faults session closed u v := by
  obtain ⟨session, u, hr, hcase⟩ := steps_loop_cases h
  obtain ⟨talks, closed, hf, hclosed⟩ := tracks_of_rounds hbare hroot hr
  rcases hcase with ⟨-, rfl⟩ | ⟨p, hp, -⟩ | ⟨rc, u', hx, hret⟩
  · exact ⟨talks, session, closed, v, hf, .idle⟩
  · rcases hf.round hclosed hp with ⟨hway, -⟩ | ⟨t, x, hf, -⟩
    · exact ⟨talks, session, closed, u, hf, hway⟩
    · exact ⟨_, _, _, v, hf, .idle⟩
  · cases steps_ret hret
    rcases hf.round hclosed hx with ⟨hway, -⟩ | ⟨t, x, hf, -⟩
    · exact ⟨talks, session, closed, u, hf, hway⟩
    · exact ⟨_, _, _, v, hf, .idle⟩

/-! ### A client makes a directory, goes there and asks for a file -/

theorem tree_replies {type : CmdType} {status : StatusCode} {msg : Bytes} (hlen : msg.length < maxPacketPayload.toNat) :
    Steps (tree faults) (reply session type status msg, u)
      (.ret (.ok, session), ⟨u.fs, u.proc.addSent (textPacket type status msg).wire⟩) := by
  have hR : Backward (fed (.quiet faults) u.proc.rcvd) fun c => _ :=
    backward_steps fun c : Io (Rc × Session) × World =>
      c = (.ret (.ok, session), ⟨u.fs, u.proc.addSent (textPacket type status msg).wire⟩)
  obtain ⟨_, h, rfl⟩ : ∃ c, Steps (fed (.quiet faults) u.proc.rcvd) (reply session type status msg >>= .ret, u) c ∧
      c = (.ret (.ok, session), ⟨u.fs, u.proc.addSent (textPacket type status msg).wire⟩) :=
    run_reply hR hlen (List.prefix_refl _) ⟨_, .refl, rfl⟩
  rw [bind_ret] at h
  have hcalls : every (fun c => c.FromPeer ∨ c.ToPeer) (reply session type status msg) fun _ => True :=
    every_bind (every_mono (sendTextReply_calls ..) (fun _ => .inr) fun _ => id) fun _ _ => trivial
  exact steps_mono (fun _ _ _ _ h => h.1) (tree_of_peer hcalls h)

/-- A request that is served, on the way from one round to the next. -/
theorem tree_serves {next : Session} (hp : packet.Valid) (hopen : session.shouldClose = false)
    (h : Steps (tree faults) (dispatchCommand session packet, ⟨u.fs, u.proc.addRcvd packet.wire⟩) (.ret (.ok, next), v)) :
    Steps (tree faults) (handleRequest session, u) (handleRequest next, v) := by
  refine steps_loop_inl ?_ .refl
  rw [handleRequestRound_eq hopen]
  refine steps_trans_bind (steps_mono (fun _ _ _ _ h => h.1) (tree_reads hp)) (steps_trans_bind h ?_)
  rw [afterCommand_eq]
  exact .refl

/-- `mkdir a`, `cd a` and `gets b`. -/
def mkdirA : Packet := textPacket .mkdir .ok (lit "a")
def cdA : Packet := textPacket .cd .ok (lit "a")
def getsB : Packet := textPacket .getsReq .ok (lit "b")

theorem mkdirA_valid : mkdirA.Valid := textPacket_valid (by decide)
theorem cdA_valid : cdA.Valid := textPacket_valid (by decide)
theorem getsB_valid : getsB.Valid := textPacket_valid (by decide)

def pathA : Bytes := lit "../tests/a"
def pathB : Bytes := lit "../tests/a/b"

/-- What they are answered. -/
def madeA : Packet := textPacket .ack .ok (lit "创建文件夹成功")
def enteredA : Packet := textPacket .ack .ok (lit "进入目录成功")
def missingB : Packet := textPacket .error .notFound (lit "服务端文件不存在")

theorem parent_pathA : parent pathA = serverBaseDir :=
  parent_append serverBaseDir (show slash ∉ lit "a" by decide)

theorem mkdirA_serves (hbase : u.fs serverBaseDir = some .dir) (hnone : u.fs pathA = none) :
    Steps (tree faults) (handleRequest .start, u) (handleRequest .start, ⟨Function.update u.fs pathA (some .dir),
      ((u.proc.addRcvd mkdirA.wire).note (.mkdir pathA) true).addSent madeA.wire⟩) := by
  have his : mkdirA.Is .mkdir := Packet.of_is.2 rfl
  have harg : copyStringPayload mkdirA pathMax false = some (lit "a") := by decide
  have hpath : resolveTargetPath Session.start.currentPath (lit "a") pathMax pathMax = some (lit "/a", pathA) := by decide
  have hlen : (lit "创建文件夹成功").length < maxPacketPayload.toNat := by decide
  have hunder : u.fs.Under pathA := by rw [FS.Under, parent_pathA, hbase]
  have hmkdir : tree faults ⟨u.fs, u.proc.addRcvd mkdirA.wire⟩ (.mkdir pathA) true
      ⟨Function.update u.fs pathA (some .dir), (u.proc.addRcvd mkdirA.wire).note (.mkdir pathA) true⟩ :=
    ⟨⟨u.fs, rfl, ⟨_, _⟩, ⟨hnone, rfl⟩, rfl⟩, fun _ => ⟨hunder, hnone⟩, fun _ _ h => by cases h⟩
  refine tree_serves mkdirA_valid rfl ?_
  rw [dispatchCommand, ofCode_of_is his]
  simp only [withArg, harg, handleMkdir, hpath]
  exact steps_call hmkdir (tree_replies hlen)

/-- The process when it has opened the new directory, which holds nothing. -/
def openedA (p : Proc) : Proc :=
  ((p.addRcvd cdA.wire).setDir 0 (some [dot, dotdot])).note (.opendir pathA) (some 0)

theorem cdA_serves (hbase : u.fs serverBaseDir = some .dir) (hdir : u.fs pathA = some .dir)
    (hempty : ∀ name, ¬ u.fs.Holds pathA name) (hfree : u.proc.dirs 0 = none) :
    Steps (tree faults) (handleRequest .start, u) (handleRequest ⟨lit "/a", false⟩,
      ⟨u.fs, (((openedA u.proc).setDir 0 none).note (.closedir 0) ()).addSent enteredA.wire⟩) := by
  have his : cdA.Is .cd := Packet.of_is.2 rfl
  have harg : copyStringPayload cdA pathMax false = some (lit "a") := by decide
  have hpath : resolveTargetPath Session.start.currentPath (lit "a") pathMax pathMax = some (lit "/a", pathA) := by decide
  have hlen : (lit "进入目录成功").length < maxPacketPayload.toNat := by decide
  have htrunc : truncate pathMax (lit "/a") = lit "/a" := truncate_eq (by decide)
  have hunder : u.fs.Under pathA := by rw [FS.Under, parent_pathA, hbase]
  have hlists : u.fs.Lists pathA [dot, dotdot] := ⟨by decide, fun name => by simp [hempty name]⟩
  have hdirs : (openedA u.proc).dirs 0 = some [dot, dotdot] := by simp [openedA]
  have hopendir : tree faults ⟨u.fs, u.proc.addRcvd cdA.wire⟩ (.opendir pathA) (some 0) ⟨u.fs, openedA u.proc⟩ := by
    refine ⟨⟨u.fs, rfl, ⟨_, _⟩, ⟨[dot, dotdot], hdir, hfree, rfl⟩, rfl⟩, fun _ => ⟨hunder, hdir⟩, ?_⟩
    rintro _ _ heq
    cases heq
    exact ⟨[dot, dotdot], hdirs, hlists⟩
  have hclosedir : tree faults ⟨u.fs, openedA u.proc⟩ (.closedir 0) ()
      ⟨u.fs, ((openedA u.proc).setDir 0 none).note (.closedir 0) ()⟩ :=
    ⟨⟨u.fs, rfl, ⟨_, _⟩, rfl, rfl⟩, False.elim, fun _ _ h => by cases h⟩
  refine tree_serves cdA_valid rfl ?_
  rw [dispatchCommand, ofCode_of_is his]
  simp only [withArg, harg, handleCd, hpath, htrunc]
  exact steps_call hopendir (steps_call hclosedir (tree_replies hlen))

theorem getsB_serves (hnone : u.fs pathB = none) : Steps (tree faults) (handleRequest ⟨lit "/a", false⟩, u)
    (handleRequest ⟨lit "/a", false⟩,
      ⟨u.fs, ((u.proc.addRcvd getsB.wire).note (.openFile pathB .rdonly) none).addSent missingB.wire⟩) := by
  have his : getsB.Is .getsReq := Packet.of_is.2 rfl
  have harg : copyStringPayload getsB pathMax false = some (lit "b") := by decide
  have hpath : resolveTargetPath (lit "/a") (lit "b") pathMax pathMax = some (lit "/a/b", pathB) := by decide
  have hlen : (lit "服务端文件不存在").length < maxPacketPayload.toNat := by decide
  have hopen : tree faults ⟨u.fs, u.proc.addRcvd getsB.wire⟩ (.openFile pathB .rdonly) none
      ⟨u.fs, (u.proc.addRcvd getsB.wire).note (.openFile pathB .rdonly) none⟩ :=
    ⟨⟨u.fs, rfl, ⟨_, _⟩, ⟨.inr fun h => h.2 hnone, rfl⟩, rfl⟩, False.elim, fun _ _ h => by cases h⟩
  refine tree_serves getsB_valid rfl ?_
  rw [dispatchCommand, ofCode_of_is his]
  simp only [withArg, harg, handleGets, hpath]
  exact steps_call hopen (tree_replies hlen)

/-- The three requests are a run of the shell. -/
theorem served_refines_newDirectory : ∃ v talks session closed u,
    Steps (tree fun _ => False) (handleRequest .start, ⟨bareTree, .init⟩) (handleRequest ⟨lit "/a", false⟩, v) ∧
      v.proc.rcvd = Packet.wires [mkdirA, cdA, getsB] ∧ v.proc.sent = Packet.wires [madeA, enteredA, missingB] ∧
      Tracks (fun _ => False) ⟨bareTree, .init⟩ talks session closed u ∧ AtWork (fun _ => False) session closed u v := by
  have hbase : bareTree serverBaseDir = some .dir := if_pos (.inr rfl)
  have hnone {q : Bytes} (hq : pathA <+: q) : bareTree q = none := by
    refine if_neg fun h => ?_
    rcases h with rfl | rfl <;> revert hq <;> decide
  have hbase' : Function.update bareTree pathA (some .dir) serverBaseDir = some .dir := by
    rw [Function.update_of_ne (by decide), hbase]
  have hmade : Function.update bareTree pathA (some .dir) pathA = some .dir := by rw [Function.update_self]
  have hbelow (name : Bytes) : Function.update bareTree pathA (some .dir) (pathA ++ slash :: name) = none := by
    rw [Function.update_of_ne (by simp), hnone (List.prefix_append _ _)]
  have hmkdir : Steps (tree fun _ => False) (handleRequest .start, ⟨bareTree, .init⟩) (handleRequest .start, _) :=
    mkdirA_serves hbase (hnone (List.prefix_refl _))
  have hcd : Steps (tree fun _ => False) (handleRequest .start, _) (handleRequest ⟨lit "/a", false⟩, _) :=
    hmkdir.trans (cdA_serves hbase' hmade (fun name h => h.2 (hbelow name)) rfl)
  have hrun : Steps (tree fun _ => False) (handleRequest .start, _) (handleRequest ⟨lit "/a", false⟩, _) :=
    hcd.trans (getsB_serves (hbelow (lit "b")))
  have hroot : bareTree dotdot = some .dir := if_pos (.inl rfl)
  obtain ⟨talks, session, closed, u, htracks, hwork⟩ := served_refines init_handles hroot hrun
  exact ⟨_, talks, session, closed, u, hrun, by simp [Proc.init, openedA], by simp [Proc.init, openedA], htracks, hwork⟩

end Runs
end Server
end WindCloud
