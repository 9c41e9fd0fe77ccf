import WindCloud.CommandLoop
import WindCloud.Frame
/-!
# What the client may touch

The client takes file names from its user only: a name in an answer of the server is never one it opens. Whatever the
server sends, the command loop touches no file but the argument of a `puts` or a `gets` that its user typed, and changes
none but the argument of a `gets` (`client_changes_named`). Two files are not spoken of: the log, which the commands write
a line to (`client_command_handle.c:319`, `:482`, `:505`), and `config.ini`, which is read before the loop.
-/

namespace WindCloud

open Interaction Prog FileImage

namespace Client

/-- The file a command is about. -/
def commandPath (req : CommandRequest) : Option Bytes :=
  match req.type with
  | .putsReq | .getsReq => some req.arg
  | _ => none

/-- A call about `target`, which changes it only if `writes`, and then as a file that is stored. -/
structure Keeps (target : Option Bytes) (writes : Prop) (c : Call) : Prop where
  names : c.Names {q | target = some q}
  change : ∀ t, c.change = some t → writes ∧ t = .putsReq

section Commands

variable {target : Option Bytes} {writes : Prop} {α : Type} {req : CommandRequest} {fd : Nat} {size off : UInt64}

theorem Keeps.of_toPeer {c : Call} (h : c.ToPeer) : Keeps target writes c := by
  cases c with
  | send buf => exact ⟨nofun, nofun⟩
  | _ => cases h

theorem Keeps.of_fromPeer {c : Call} (h : c.FromPeer) : Keeps target writes c := by
  cases c with
  | recv | calloc => exact ⟨nofun, nofun⟩
  | _ => cases h

theorem sendPacket_keeps (type : CmdType) (status : StatusCode) (payload : Option Bytes) (len : UInt32) :
    every (Keeps target writes) (sendPacket type status payload len) fun _ => True :=
  every_mono (sendPacket_calls ..) (fun _ => .of_toPeer) fun _ => id

theorem recvPacket_keeps (wait : Wait) : every (Keeps target writes) (recvPacket wait) fun _ => True :=
  every_mono (recvPacket_calls wait) (fun _ => .of_fromPeer) fun _ => id

theorem recvTextResponse_keeps : every (Keeps target writes) recvTextResponse fun _ => True := by
  apply every_bind (recvPacket_keeps .reply)
  rintro ⟨_ | _, packet⟩ _
  · simp only
    split <;> trivial
  · trivial

theorem sendBlocks_keeps : every (Keeps target writes) (sendBlocks fd size off) fun _ => True := by
  refine every_iter (fun _ => True) trivial fun off _ => ?_
  split
  · refine every_perform ⟨nofun, nofun⟩ ?_
    rintro (_ | _ | _ | ⟨b, bs⟩)
    · trivial
    · trivial
    · trivial
    · refine every_bind (sendPacket_keeps ..) fun rc _ => ?_
      cases rc <;> trivial
  · trivial

theorem uploadFrom_keeps : every (Keeps target writes) (uploadFrom fd size off) fun _ => True := by
  have hclose {rc : Rc} : every (Keeps target writes) (Sys.close fd >>= fun _ => .ret rc) fun _ => True :=
    every_perform ⟨nofun, nofun⟩ fun _ => trivial
  refine every_perform ⟨nofun, nofun⟩ fun ok => ?_
  cases ok with
  | false => exact hclose
  | true =>
    refine every_bind sendBlocks_keeps fun rc _ => ?_
    cases rc with
    | fail => exact hclose
    | ok =>
      refine every_perform ⟨nofun, nofun⟩ fun _ => every_bind (sendPacket_keeps ..) fun rc _ => ?_
      cases rc with
      | fail => trivial
      | ok => exact recvTextResponse_keeps

theorem handlePuts_keeps : every (Keeps (some req.arg) writes) (handlePuts req) fun _ => True := by
  have hclose {fd : Nat} {rc : Rc} : every (Keeps (some req.arg) writes) (Sys.close fd >>= fun _ => .ret rc) fun _ => True :=
    every_perform ⟨nofun, nofun⟩ fun _ => trivial
  refine every_perform ⟨fun _ hq => hq, nofun⟩ fun fd => ?_
  cases fd with
  | none => trivial
  | some fd =>
    refine every_perform ⟨nofun, nofun⟩ fun size => ?_
    cases size with
    | none => exact hclose
    | some size =>
      refine every_bind (sendPacket_keeps ..) fun rc _ => ?_
      cases rc with
      | fail => exact hclose
      | ok =>
        apply every_bind (recvPacket_keeps .reply)
        rintro ⟨_ | _, packet⟩ _
        · simp only
          split
          · exact hclose
          split
          · exact hclose
          · exact uploadFrom_keeps
        · exact hclose

/-- What a download does to its file. -/
theorem stores {t : CmdType} (h : some CmdType.putsReq = some t) : True ∧ t = .putsReq :=
  ⟨trivial, (Option.some.inj h).symm⟩

theorem writeN_keeps {buf : Bytes} : every (Keeps target True) (writeN fd buf) fun _ => True := by
  refine every_iter (fun _ => True) trivial fun total _ => ?_
  split
  · refine every_perform ⟨nofun, fun _ => stores⟩ ?_
    rintro (_ | _ | _ | m) <;> trivial
  · trivial

theorem downloadTo_keeps : every (Keeps target True) (downloadTo fd off) fun _ => True := by
  have hclose {rc : Rc} : every (Keeps target True) (Sys.close fd >>= fun _ => .ret rc) fun _ => True :=
    every_perform ⟨nofun, nofun⟩ fun _ => trivial
  refine every_perform ⟨nofun, nofun⟩ fun ok => ?_
  cases ok with
  | false => exact hclose
  | true =>
    refine every_bind (sendPacket_keeps ..) fun rc _ => ?_
    cases rc with
    | fail => exact hclose
    | ok =>
      refine every_bind (R := fun _ => True) (every_iter (fun _ => True) trivial fun size _ => ?_) fun _ _ => hclose
      apply every_bind (recvPacket_keeps .reply)
      rintro ⟨_ | _, packet⟩ _
      · simp only
        split
        · trivial
        split
        · trivial
        split
        · trivial
        · refine every_bind writeN_keeps fun rc _ => ?_
          cases rc <;> trivial
      · trivial

theorem handleGets_keeps : every (Keeps (some req.arg) True) (handleGets req) fun _ => True := by
  refine every_bind (sendPacket_keeps ..) fun rc _ => ?_
  cases rc with
  | fail => trivial
  | ok =>
    apply every_bind (recvPacket_keeps .reply)
    rintro ⟨_ | _, packet⟩ _
    · split
      · trivial
      split
      · trivial
      split
      · trivial
      · have hopen : Keeps (some req.arg) True (.openFile req.arg .rdwrCreat) := ⟨fun _ hq => hq, fun _ => stores⟩
        refine every_perform hopen fun fd => ?_
        cases fd with
        | none => trivial
        | some fd =>
          refine every_perform ⟨nofun, nofun⟩ fun st => ?_
          simp only
          split
          · refine every_perform ⟨nofun, fun _ => stores⟩ fun ok => ?_
            cases ok with
            | false => exact every_perform ⟨nofun, nofun⟩ fun _ => trivial
            | true => exact downloadTo_keeps
          · exact downloadTo_keeps
    · trivial

theorem handleSimpleCommand_calls :
    every (fun c => Call.ToPeer c ∨ Call.FromPeer c) (handleSimpleCommand req) fun _ => True := by
  refine every_bind (every_mono (sendPacket_calls ..) (fun _ => .inl) fun _ => id) fun rc _ => ?_
  cases rc with
  | fail => trivial
  | ok =>
    apply every_bind (every_mono (recvPacket_calls .reply) (fun _ => .inr) fun _ => id)
    rintro ⟨_ | _, packet⟩ _
    · simp only
      split <;> trivial
    · trivial

/-- **One command** keeps to the file its argument names. -/
theorem processCommand_keeps {input : Bytes} (h : buildCommandRequest input = some req) :
    every (Keeps (commandPath req) (req.type = .getsReq)) (processCommand input) fun _ => True := by
  have hsimple {target : Option Bytes} {writes : Prop} :
      every (Keeps target writes) (handleSimpleCommand req) fun _ => True :=
    every_mono handleSimpleCommand_calls (fun _ hc => hc.elim .of_toPeer .of_fromPeer) fun _ => id
  unfold processCommand commandPath
  simp only [h]
  generalize req.type = type
  cases type with
  | pwd | cd | ls | rm | mkdir => exact hsimple
  | putsReq =>
    simp only
    split
    · trivial
    · exact handlePuts_keeps
  | getsReq =>
    simp only
    split
    · trivial
    · exact every_mono handleGets_keeps (fun _ hc => ⟨hc.names, fun t ht => ⟨trivial, (hc.change t ht).2⟩⟩) fun _ => id
  | _ => trivial

theorem processCommand_returns (input : Bytes) : WindCloud.Returns [] (processCommand input) := by
  have hsimple {req : CommandRequest} : WindCloud.Returns [] (handleSimpleCommand req) :=
    .of_every (every_mono handleSimpleCommand_calls (fun _ hc => hc.elim idle_toPeer idle_fromPeer) fun _ => id)
  unfold processCommand
  rcases buildCommandRequest input with _ | req
  · exact .ret _
  · simp only
    generalize req.type = type
    cases type with
    | pwd | cd | ls | rm | mkdir => exact hsimple
    | putsReq =>
      simp only
      split
      · exact .ret _
      · exact handlePuts_returns req
    | getsReq =>
      simp only
      split
      · exact .ret _
      · exact handleGets_returns req
    | _ => exact .ret _

end Commands

/-! ## Runs of the client -/

section Runs

variable {env : Env} {w v : World} {stdin : Bytes} {e : Call} {k : Res e → Io Unit}

/-- A call of the client is one of a command it was given, and nothing was open before that command. -/
theorem commandLoop_call (h : Steps (kernel env) (commandLoop stdin, w) (.call e k, v)) :
    ∃ input ∈ commands stdin, ∃ u k', u.proc.handles = w.proc.handles ∧
      Steps (kernel env) (processCommand input, u) (.call e k', v) := by
  have hunroll {stdin : Bytes} {w : World} (h : Steps (kernel env) (commandLoop stdin, w) (.call e k, v)) :
      Steps (kernel env) (commandRound stdin >>= unroll commandRound .ret, w) (.call e k, v) := by
    rcases h.cases_head with heq | ⟨d, hs, h⟩
    · cases heq
    · cases hs with
      | loop => exact h
  induction stdin using commands.induct generalizing w with
  | case1 stdin hnone =>
    have hrun := hunroll h
    simp only [commandRound, hnone, pure_eq, ret_bind, unroll] at hrun
    cases steps_ret hrun
  | case2 stdin buf rest hsome hquits =>
    have hrun := hunroll h
    simp only [commandRound, hsome, if_pos hquits, pure_eq, ret_bind, unroll] at hrun
    cases steps_ret hrun
  | case3 stdin buf rest hsome hquits hempty ih =>
    have hrun := hunroll h
    simp only [commandRound, hsome, if_neg hquits, if_pos hempty, pure_eq, ret_bind, unroll] at hrun
    rw [commands, hsome]
    simp only [if_neg hquits, if_pos hempty]
    exact ih hrun
  | case4 stdin buf rest hsome hquits hempty ih =>
    have hrun := hunroll h
    simp only [commandRound, hsome, if_neg hquits, if_neg hempty] at hrun
    rw [commands, hsome]
    simp only [if_neg hquits, if_neg hempty]
    rw [Prog.bind_assoc] at hrun
    rcases steps_bind_cases hrun with ⟨p, hp, hcommand⟩ | ⟨rc, u, hcommand, hrest⟩
    · cases p with
      | ret x =>
        have hloop : Prog.call e k = .loop commandRound rest .ret := hp
        cases hloop
      | loop body s k' => cases hp
      | call e' k' =>
        obtain ⟨rfl, -⟩ := Prog.call.inj hp
        exact ⟨_, List.mem_cons_self, w, k', rfl, hcommand⟩
    · obtain ⟨input, hmem, u', k', hu, hcall⟩ := ih hrest
      have hback := Handling.Frees.returns (fun w : World => w.proc.handles) (processCommand_returns _) kernel_handling hcommand
      exact ⟨input, List.mem_cons_of_mem _ hmem, u', k', hu.trans hback, hcall⟩

/-- A file the client touches was named in one of the user's commands, and one it changes in a `gets`. -/
theorem commandLoop_touches (hbare : w.proc.handles = ∅) (h : Steps (kernel env) (commandLoop stdin, w) (.call e k, v))
    {q : Bytes} (hq : e.touches v.proc = some q) : ∃ input ∈ commands stdin, ∃ req, buildCommandRequest input = some req ∧
      commandPath req = some q ∧ ∀ t, e.change = some t → req.type = .getsReq ∧ t = .putsReq := by
  obtain ⟨input, hmem, u, k', hu, hcall⟩ := commandLoop_call h
  rcases hreq : buildCommandRequest input with _ | req
  · simp only [processCommand, hreq, pure_eq] at hcall
    cases steps_ret hcall
  · have hkeeps := processCommand_keeps hreq
    have hwp : wp (kernel env) (fun _ => Keeps (commandPath req) (req.type = .getsReq)) (processCommand input)
        (fun _ _ => True) u :=
      wp_mono (every_wp (I := fun _ => True) hkeeps trivial (fun _ _ hc _ => hc) fun _ _ _ _ _ _ _ => trivial)
        fun _ _ _ => trivial
    have honly : OnlyIn {q | commandPath req = some q} v.proc :=
      wp_keeps (I := fun u => OnlyIn _ u.proc) hwp (fun _ _ _ _ hc hk h => h.kernel hk hc.names)
        (.of_bare (hu.trans hbare)) hcall
    obtain ⟨hnames, hchange⟩ := every_check hkeeps hcall
    exact ⟨input, hmem, req, hreq, honly.touches hnames hq, hchange⟩

/-- **The server names no file of the client**: in every run of the client's command loop, whatever the server sends and
whichever call fails, a file it touches, its log apart, is the argument of a `puts` or a `gets` of its user; and a step
that changes anything but the log changes the argument of a `gets`, as a regular file. -/
theorem client_changes_named {faults : Call → Prop} {p : Io Unit} (hbare : w.proc.handles = ∅)
    (hrun : Steps (kernel (.quiet faults)) (commandLoop stdin, w) (p, v)) :
    (∀ e k q, p = .call e k → e.touches v.proc = some q → ∃ input ∈ commands stdin, ∃ req,
      buildCommandRequest input = some req ∧ commandPath req = some q) ∧
    ∀ p' v' q, Step (kernel (.quiet faults)) (p, v) (p', v') → v'.fs q ≠ v.fs q → ∃ input ∈ commands stdin, ∃ req,
      buildCommandRequest input = some req ∧ req.type = .getsReq ∧ req.arg = q ∧
        Changed (v.fs q) (v'.fs q) .putsReq := by
  refine ⟨?_, ?_⟩
  · rintro e k q rfl hq
    obtain ⟨input, hmem, req, hreq, hpath, -⟩ := commandLoop_touches hbare hrun hq
    exact ⟨input, hmem, req, hreq, hpath⟩
  · intro p' v' q hstep hne
    cases hstep with
    | loop => exact absurd rfl hne
    | @call _ _ e k r _ hk =>
      obtain ⟨t, ht, hchanged⟩ := kernel_changed hk hne
      obtain ⟨input, hmem, req, hreq, hpath, hgets⟩ := commandLoop_touches hbare hrun (kernel_elsewhere hk hne).1
      obtain ⟨htype, rfl⟩ := hgets t ht
      rw [commandPath, htype] at hpath
      exact ⟨input, hmem, req, hreq, htype, Option.some.inj hpath, hchanged⟩

/-- An answer to `gets` with a name nobody asked for. -/
def strayResp : Packet := fileInfoPacket .getsResp (lit "g") 1

/-- The user asks for `f`, and the server answers so. -/
theorem commandLoop_opens : ∃ c, Steps (kernel (.quiet fun _ => False))
    (commandLoop (lit "gets f\n"), ⟨fun _ => none, .init⟩) c ∧ c.2.fs = (fun _ => none) ∧ (∀ fd, c.2.proc.fds fd = none) ∧
      ∃ k, c.1 = .call (.openFile (lit "f") .rdwrCreat) k := by
  have hp : strayResp.Valid := fileInfoPacket_valid _ _ _
  have hR : Backward (fed (.quiet fun _ => False) strayResp.wire) fun c => _ :=
    backward_kernel fun c : Io Unit × World => c.2.fs = (fun _ => none) ∧ (∀ fd, c.2.proc.fds fd = none) ∧
      ∃ k, c.1 = .call (.openFile (lit "f") .rdwrCreat) k
  have hgets : fgets maxCommandInput (lit "gets f\n") = some (lit "gets f\n", []) := by decide
  have hstrip : stripNewline (lit "gets f\n") = lit "gets f" := by decide
  have hreq : buildCommandRequest (lit "gets f") = some ⟨.getsReq, lit "f"⟩ := by decide
  refine hR.loop ?_
  rw [commandRound, hgets]
  simp only [hstrip, if_neg (by decide : ¬ Quits (lit "gets f")), if_neg (by decide : ¬ lit "gets f" = []), processCommand,
    hreq, if_neg (by decide : ¬ lit "f" = []), handleGets]
  rw [Prog.bind_assoc, Prog.bind_assoc]
  refine run_sendPacket (lit "f" ++ [0]) hR rfl rfl (by decide) List.nil_prefix ?_
  simp only
  rw [Prog.bind_assoc]
  refine run_recvPacket hR hp (List.prefix_refl _) ?_
  have herr : ¬ strayResp.Is .error := by simp [strayResp, fileInfoPacket]
  have hok : ¬ (¬ strayResp.Is .getsResp ∨
      strayResp.header.dataLen ≠ .ofNat fileInfoSize) := by
    rintro (h | h)
    · exact h (Packet.of_is.2 rfl)
    · exact h (fileInfoPacket_dataLen _ _ _)
  simp only [if_neg herr, if_neg hok]
  exact ⟨_, .refl, rfl, fun _ => rfl, _, rfl⟩

/-- What the client creates there is the file its user named. -/
theorem client_changes_named_gets : ∃ p p' v v', Steps (kernel (.quiet fun _ => False))
    (commandLoop (lit "gets f\n"), ⟨fun _ => none, .init⟩) (p, v) ∧
      Step (kernel (.quiet fun _ => False)) (p, v) (p', v') ∧ v'.fs (lit "f") ≠ v.fs (lit "f") ∧
      ∃ input ∈ commands (lit "gets f\n"), ∃ req, buildCommandRequest input = some req ∧ req.type = .getsReq ∧
        req.arg = lit "f" ∧ Changed (v.fs (lit "f")) (v'.fs (lit "f")) .putsReq := by
  obtain ⟨⟨p, fs, l⟩, hrun, hfs, hfds, k, hp⟩ := commandLoop_opens
  obtain rfl : fs = fun _ => none := hfs
  obtain rfl : p = _ := hp
  have hstep : Step (kernel (.quiet fun _ => False)) (.call (.openFile (lit "f") .rdwrCreat) k, ⟨fun _ => none, l⟩)
      (k (some 0), ⟨Function.update (fun _ => none) (lit "f") (some (.reg .empty)),
        (l.setFd 0 (some ⟨lit "f", 0⟩)).note (.openFile (lit "f") .rdwrCreat) (some 0)⟩) :=
    .call ⟨_, rfl, ⟨_, l.setFd 0 (some ⟨lit "f", 0⟩)⟩, ⟨by simp, hfds 0, rfl⟩, rfl⟩
  have hne : Function.update (fun _ => none) (lit "f") (some (Node.reg .empty)) (lit "f") ≠ none := by simp
  exact ⟨_, _, _, _, hrun, hstep, hne, (client_changes_named init_handles hrun).2 _ _ _ hstep hne⟩

end Runs
end Client
end WindCloud
