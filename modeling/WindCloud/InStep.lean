import WindCloud.CommandLoop
import WindCloud.Settling
/-!
# Client and server stay in step

When a command has returned, it has sent nothing, or the server has served its request and waits for the next one, or
the server is gone (`Between.command`); so it is for any number of commands (`runCommands_inStep`). That is so unless
one of the two leaves an exchange in the middle and keeps the connection:

| who    | where | after |
| ---    | ---   | ---   |
| client | `lseek` (`client_command_handle.c:262`), `read` (`:273`) | `CMD_PUTS_RESP` |
| client | `open` (`:380`), `ftruncate` (`:399`), `lseek` (`:411`), `write` (`:469`) | `CMD_GETS_RESP` |
| server | `ftruncate` to the announced size (`handle.c:646`), `mmap` (`:663`) | `CMD_PUTS_RESP` |

Where the server leaves one in another place it closes the session.
-/

namespace WindCloud

open Interaction Prog Server

/-- Neither side has anything of the other's still to read. -/
structure Synced (c s : Proc) : Prop where
  toServer : s.rcvd = c.sent
  toClient : c.rcvd = s.sent

/-- The calls at whose failure the client leaves an exchange: on files, on the connection, and for memory. -/
def Client.Leaves (c : Call) : Prop := Breaks c ∨ Stops c

/-- The calls at whose failure the server leaves an exchange with its session open. -/
def Server.Leaves : Call → Prop
  | .ftruncate _ _ .extend | .mmap .. => True
  | _ => False

/-- What comes of a command on the server: nothing, or its request is dispatched at the top of `handle_request` and served. -/
inductive Exchange (env : Env) (input : Bytes) (session : Session) (v : World) : Session → World → Prop
  | idle : Exchange env input session v session v
  | served {req : CommandRequest} {r : Request} {v' : World} (hreq : buildCommandRequest input = some req)
      (his : r.packet.Is req.type) (hsession : r.session = session) (hserve : Server.Serves env v r .ok v')
      (hopen : r.next.shouldClose = false) : Exchange env input session v r.next v'

/-- The commands one after the other, each with its exchange, and after each the two are in step. -/
inductive Dialogue (envC envS : Env) : List Bytes → World → Session → World → World → Session → World → Prop
  | nil {wc ws : World} {session : Session} : Dialogue envC envS [] wc session ws wc session ws
  | cons {input : Bytes} {inputs : List Bytes} {wc wc₁ wc' ws ws₁ ws' : World} {session session₁ session' : Session} {rc : Rc}
      (hclient : Steps (kernel envC) (Client.processCommand input, wc) (.ret rc, wc₁))
      (hserver : Exchange envS input session ws session₁ ws₁) (hsync : Synced wc₁.proc ws₁.proc)
      (hrest : Dialogue envC envS inputs wc₁ session₁ ws₁ wc' session' ws') :
      Dialogue envC envS (input :: inputs) wc session ws wc' session' ws'

section Commands

variable {envC envS : Env} {session : Session} {input : Bytes} {inputs : List Bytes} {wc wc' v w w₀ : World} {q q₀ : Io Rc}
  {rc : Rc}

theorem not_mapFaults_of_leaves (hS : ∀ c, Server.Leaves c → ¬ envS.faults c) (total : UInt64) : ¬ MapFaults envS total := by
  rintro ⟨fd, c, hf, rfl | rfl⟩
  · exact hS (.ftruncate fd (offT total) .extend) trivial hf
  · exact hS (.mmap fd total.toNat) trivial hf

theorem buildCommandRequest_short {req : CommandRequest} (h : buildCommandRequest input = some req) :
    req.arg.length < pathMax := by
  have hcut (arg : Bytes) : (truncate pathMax arg).length < pathMax := by
    have : 0 < pathMax := by decide
    rw [truncate, List.length_take]
    omega
  unfold buildCommandRequest parseCommandRequest at h
  split at h
  · cases h
  · split at h
    · cases h
    · rw [← Option.some.inj h]
      exact hcut _

/-- What a command leaves: the server is gone, or it waits in `session'`, from `v'` on, and the two are in step. -/
def Settled (env : Env) (input : Bytes) (session : Session) (v wc' : World) (q : Io Rc) (w : World) : Prop :=
  Gone q ∨ ∃ session' v', Exchange env input session v session' v' ∧ session'.shouldClose = false ∧
    session'.currentPath.length < pathMax ∧ Synced wc'.proc v'.proc ∧ Around (kernel env) (handleRequest session', v') (q, w)

/-- Where a command begins and where it has come to: the streams in between. -/
structure Between (env : Env) (session : Session) (wc v wc' : World) (q : Io Rc) (w : World) (rc sc rs ss : Bytes) : Prop where
  isOpen : session.shouldClose = false
  short : session.currentPath.length < pathMax
  sync : Synced wc.proc v.proc
  around : Around (kernel env) (handleRequest session, v) (q, w)
  client : wc.proc.Since rc sc wc'.proc
  server : v.proc.Since rs ss w.proc
  toServer : rs <+: sc
  toClient : rc <+: ss

/-- A command that has sent nothing. -/
theorem Between.idle {rs ss : Bytes} (h : Between envS session wc v wc' q w [] [] rs ss) :
    Settled envS input session v wc' q w := by
  refine .inr ⟨session, v, .idle, h.isOpen, h.short, ⟨?_, ?_⟩, h.around⟩
  · rw [h.sync.toServer, h.client.sent, List.append_nil]
  · rw [← h.sync.toClient, h.client.rcvd, List.append_nil]

theorem Between.refused {p : Io Rc} {a : Rc} {rc sc rs ss : Bytes} (h : Between envS session wc v wc' q w rc sc rs ss)
    (hclient : Steps (kernel envC) (.ret a, wc) (p, wc')) : Settled envS input session v wc' q w := by
  obtain ⟨-, rfl⟩ := Prod.mk.inj (steps_ret hclient)
  obtain rfl : rc = [] := by simpa using h.client.rcvd
  obtain rfl : sc = [] := by simpa using h.client.sent
  exact h.idle

/-- A command whose exchange is settled. -/
theorem Between.settled {M W : Bytes → Bytes → Prop} {P : Packet} {rc sc rs ss : Bytes} {req : CommandRequest}
    (h : Between envS session wc v wc' q w rc sc rs ss) (hreq : buildCommandRequest input = some req) (his : P.Is req.type)
    (hset : Settles M W P rc sc rs ss) (hM : M [] [])
    (hwp : ∀ v₁, wp (kernel envS) (Follows envS v₁.proc M) (dispatchCommand session P) (Finishes v₁.proc session W) v₁) :
    Settled envS input session v wc' q w := by
  rcases handleRequest_settles h.isOpen h.around h.server h.toServer h.toClient hset hM hwp with
    hgone | ⟨v₁, ⟨rcode, next⟩, u, hrecv, hrun, rfl, hopen, hshort, hsince, haround⟩
  · exact .inl hgone
  · obtain ⟨events, hev⟩ := trace_grows hrun
    have hserve : Server.Serves envS v ⟨session, P, events, next⟩ .ok u := ⟨h.isOpen, v₁, hrecv.run, hrun, hev⟩
    refine .inr ⟨next, u, .served hreq his rfl hserve hopen, hopen, hshort h.short, ⟨?_, ?_⟩, haround⟩
    · rw [hsince.rcvd, h.client.sent, h.sync.toServer]
    · rw [hsince.sent, h.client.rcvd, h.sync.toClient]

/-- The streams of the client alone. -/
theorem Between.streams {rc sc rs ss : Bytes} {E : Bytes → Bytes → Prop} (h : Between envS session wc v wc' q w rc sc rs ss)
    (hend : ∃ r s, wc.proc.Since r s wc'.proc ∧ E r s) : E rc sc := by
  obtain ⟨r, s, hs, hend⟩ := hend
  obtain rfl : rc = r := List.append_cancel_left (h.client.rcvd.symm.trans hs.rcvd)
  obtain rfl : sc = s := List.append_cancel_left (h.client.sent.symm.trans hs.sent)
  exact hend

section Kinds

variable {rcv sc rs ss : Bytes} {req : CommandRequest}

theorem Between.text (h : Between envS session wc v wc' q w rcv sc rs ss) (hC : ∀ c, Client.Leaves c → ¬ envC.faults c)
    (hreq : buildCommandRequest input = some req) (htype : IsText req.type)
    (hclient : Steps (kernel envC) (Client.handleSimpleCommand req, wc) (.ret rc, wc')) :
    Settled envS input session v wc' q w := by
  have hlen := buildCommandRequest_short hreq
  have hend := h.streams (wp_result (Client.wp_handleSimpleCommand hlen) hclient)
  have his : (Client.simpleRequest req).Is req.type := Packet.of_is.2 rfl
  have hset := hend.settles hlen (fun c hc => hC c (.inl hc)) (around_framed h.around h.server) h.toServer h.toClient
  exact h.settled hreq his hset .start fun v₁ => dispatchCommand_texts his htype h.short v₁.proc v₁ (.refl _)

theorem Between.upload (h : Between envS session wc v wc' q w rcv sc rs ss) (hC : ∀ c, Client.Leaves c → ¬ envC.faults c)
    (hS : ∀ c, Server.Leaves c → ¬ envS.faults c) (hreq : buildCommandRequest input = some req)
    (htype : req.type = .putsReq) (hclient : Steps (kernel envC) (Client.handlePuts req, wc) (.ret rc, wc')) :
    Settled envS input session v wc' q w := by
  obtain ⟨r, s, hs, -, hend⟩ := wp_result (Client.wp_handlePuts (I := fun _ => True) (fun _ _ => trivial) trivial) hclient
  have hend := h.streams ⟨r, s, hs, hend⟩
  rcases hend.settles (fun c hc => hC c (.inl hc)) (not_mapFaults_of_leaves hS) (around_framed h.around h.server) h.toServer
    h.toClient with ⟨rfl, rfl⟩ | ⟨size, hset⟩
  · exact h.idle
  · have his := Client.uploadRequest_is req.arg size
    have hload : UInt64.ofNat size = loadU64 ((Client.uploadRequest req.arg size).data.drop pathMax) := by
      simp [Client.uploadRequest, fileInfoPacket, loadU64_fileInfoPayload]
    refine h.settled hreq (htype ▸ his) hset .start fun v₁ => ?_
    rw [dispatchCommand_puts his]
    exact wp_putsStreams hload

/-- The server's side of a download, whatever its argument is taken for. -/
theorem wp_download (session : Session) (arg : Bytes) : ∃ path arg', ∀ v₁,
    wp (kernel envS) (Follows envS v₁.proc (GettingOf (fun _ => True) (fun n pos block => block.length = blockSize n pos)
      path arg')) (dispatchCommand session (Client.downloadRequest arg)) (Finishes v₁.proc session
        (GottenOf (fun _ => True) (fun n pos block => block.length = blockSize n pos) path arg')) v₁ := by
  have his : (Client.downloadRequest arg).Is .getsReq := Packet.of_is.2 rfl
  rw [dispatchCommand, ofCode_of_is his]
  simp only [withArg]
  split
  · refine ⟨[], [], fun v₁ => ?_⟩
    have hsized : Sized (fun _ => True) [] (v₁.fs.bytes []).length := FS.sized_bytes trivial []
    exact wp_getsError hsized (.refl _) (by decide)
  · rename_i arg' _
    refine ⟨((resolveTargetPath session.currentPath arg' pathMax pathMax).map Prod.snd).getD [], arg', fun v₁ => ?_⟩
    refine wp_handleGets (fun n _ => blocks_of_length _ n) (fun _ _ => trivial) trivial (.refl _) ?_
    intro virtualPath path hpath
    rw [hpath, Option.map_some, Option.getD_some]

theorem Between.download (h : Between envS session wc v wc' q w rcv sc rs ss) (hC : ∀ c, Client.Leaves c → ¬ envC.faults c)
    (hreq : buildCommandRequest input = some req) (htype : req.type = .getsReq)
    (hclient : Steps (kernel envC) (Client.handleGets req, wc) (.ret rc, wc')) : Settled envS input session v wc' q w := by
  have hlen := buildCommandRequest_short hreq
  obtain ⟨r, s, hs, -, hend⟩ := wp_result (Client.wp_handleGets hlen) hclient
  have hend := h.streams (E := fun r s => Client.DownloadEnd envC req.arg _ rc r s wc'.fs) ⟨r, s, hs, hend⟩
  have his : (Client.downloadRequest req.arg).Is req.type := htype ▸ Packet.of_is.2 rfl
  obtain ⟨path, arg', hwp⟩ := wp_download session req.arg
  refine h.settled hreq his ?_ (.start w.fs trivial) hwp
  exact hend.settles hlen (fun c hc => hC c (.inr hc)) (fun n _ => blocks_of_length path n)
    (around_framed h.around h.server) h.toServer h.toClient

/-- **One command**: whatever it is and however it returns, the server is gone or has served what was sent. -/
theorem Between.command (h : Between envS session wc v wc' q w rcv sc rs ss) (hC : ∀ c, Client.Leaves c → ¬ envC.faults c)
    (hS : ∀ c, Server.Leaves c → ¬ envS.faults c)
    (hclient : Steps (kernel envC) (Client.processCommand input, wc) (.ret rc, wc')) :
    Settled envS input session v wc' q w := by
  unfold Client.processCommand at hclient
  split at hclient
  · exact h.refused hclient
  · rename_i req hreq
    split at hclient
    · rename_i htype
      exact h.text hC hreq (.inl htype) hclient
    · rename_i htype
      exact h.text hC hreq (.inr (.inl htype)) hclient
    · rename_i htype
      exact h.text hC hreq (.inr (.inr (.inl htype))) hclient
    · rename_i htype
      exact h.text hC hreq (.inr (.inr (.inr (.inl htype)))) hclient
    · rename_i htype
      exact h.text hC hreq (.inr (.inr (.inr (.inr htype)))) hclient
    · rename_i htype
      split at hclient
      · exact h.refused hclient
      · exact h.upload hC hS hreq htype hclient
    · rename_i htype
      split at hclient
      · exact h.refused hclient
      · exact h.download hC hreq htype hclient
    · exact h.refused hclient

end Kinds

/-- The streams of a run of both. -/
theorem between_of_run (hopen : session.shouldClose = false) (hshort : session.currentPath.length < pathMax)
    (hsync : Synced wc.proc v.proc) (haround : Around (kernel envS) (handleRequest session, v) (q₀, w₀)) {p p' : Io Rc}
    (hcausal : Duplex.Causal (side envC) (side envS) ((p, wc), (q₀, w₀)))
    (hrun : DuplexSteps (side envC) (side envS) ((p, wc), (q₀, w₀)) ((p', wc'), (q, w))) :
    Steps (kernel envC) (p, wc) (p', wc') ∧ ∃ rc sc rs ss, Between envS session wc v wc' q w rc sc rs ss := by
  obtain ⟨hclient, hserver, hcausal'⟩ := Duplex.reach hrun hcausal
  have haround' := haround.steps hserver
  obtain ⟨⟨rc, hrc⟩, sc, hsc⟩ := steps_grow hclient
  obtain ⟨⟨rs, hrs⟩, ss, hss⟩ := around_grows haround'
  refine ⟨hclient, rc, sc, rs, ss, hopen, hshort, hsync, haround', ⟨hrc.symm, hsc.symm⟩, ⟨hrs.symm, hss.symm⟩, ?_, ?_⟩
  · have h : w.proc.rcvd <+: wc'.proc.sent := hcausal'.2
    rwa [← hrs, ← hsc, hsync.toServer, List.prefix_append_right_inj] at h
  · have h : wc'.proc.rcvd <+: w.proc.sent := hcausal'.1
    rwa [← hrc, ← hss, hsync.toClient, List.prefix_append_right_inj] at h

/-! ## A session -/

/-- **By induction on the commands**: from a server that is on its way to the top, or has gone on from there. -/
theorem dialogue_of_run (hC : ∀ c, Client.Leaves c → ¬ envC.faults c) (hS : ∀ c, Server.Leaves c → ¬ envS.faults c)
    (hopen : session.shouldClose = false) (hshort : session.currentPath.length < pathMax) (hsync : Synced wc.proc v.proc)
    (haround : Around (kernel envS) (handleRequest session, v) (q₀, w₀))
    (hcausal : Duplex.Causal (side envC) (side envS) ((Client.runCommands inputs, wc), (q₀, w₀)))
    (hrun : DuplexSteps (side envC) (side envS) ((Client.runCommands inputs, wc), (q₀, w₀)) ((.ret (), wc'), (q, w))) :
    Gone q ∨ ∃ session' v', Dialogue envC envS inputs wc session v wc' session' v' ∧ session'.shouldClose = false ∧
      Synced wc'.proc v'.proc ∧ Around (kernel envS) (handleRequest session', v') (q, w) := by
  induction inputs generalizing session wc v q₀ w₀ with
  | nil =>
    obtain ⟨hclient, hserver, -⟩ := Duplex.reach hrun hcausal
    obtain ⟨-, rfl⟩ := Prod.mk.inj (steps_ret hclient)
    exact .inr ⟨session, v, .nil, hopen, hsync, haround.steps hserver⟩
  | cons input inputs ih =>
    obtain ⟨rc, wc₁, ⟨q₁, w₁⟩, hfirst, hrest⟩ := Duplex.bind_left hrun
    obtain ⟨hclient, rcv, sc, rs, ss, hbetween⟩ := between_of_run hopen hshort hsync haround hcausal hfirst
    have hcausal₁ := (Duplex.reach hfirst hcausal).2.2
    rcases hbetween.command hC hS hclient with hgone | ⟨session₁, v₁, hexchange, hopen₁, hshort₁, hsync₁, haround₁⟩
    · exact .inl (hgone.steps (Duplex.reach hrest hcausal₁).2.1)
    · rcases ih hopen₁ hshort₁ hsync₁ haround₁ hcausal₁ hrest with hgone | ⟨session', v', hdialogue, hend⟩
      · exact .inl hgone
      · exact .inr ⟨session', v', .cons hclient hexchange hsync₁ hdialogue, hend⟩

/-- **Client and server stay in step**: when the commands have returned, however each did, the server is gone, or it has
served the request of each at the top of `handle_request` and waits there, and neither side has anything left to read. -/
theorem runCommands_inStep (hC : ∀ c, Client.Leaves c → ¬ envC.faults c) (hS : ∀ c, Server.Leaves c → ¬ envS.faults c)
    (hopen : session.shouldClose = false) (hshort : session.currentPath.length < pathMax) (hsync : Synced wc.proc v.proc)
    (hrun : DuplexSteps (side envC) (side envS) ((Client.runCommands inputs, wc), (handleRequest session, v))
      ((.ret (), wc'), (q, w))) :
    Gone q ∨ ∃ session' v', Dialogue envC envS inputs wc session v wc' session' v' ∧ AtTop session' q ∧
      Synced wc'.proc w.proc := by
  have hcausal : Duplex.Causal (side envC) (side envS) ((Client.runCommands inputs, wc), (handleRequest session, v)) := by
    constructor
    · show wc.proc.rcvd <+: v.proc.sent
      rw [hsync.toClient]
    · show v.proc.rcvd <+: wc.proc.sent
      rw [hsync.toServer]
  rcases dialogue_of_run hC hS hopen hshort hsync (.refl _) hcausal hrun with
    hgone | ⟨session', v', hdialogue, hopen', hsync', haround⟩
  · exact .inl hgone
  · -- nothing has come since it served the last request
    have hread : w.proc.rcvd <+: wc'.proc.sent := (Duplex.reach hrun hcausal).2.2.2
    rw [← hsync'.toServer] at hread
    obtain ⟨hgrow, s, hs⟩ := around_grows haround
    have hrcvd : w.proc.rcvd = v'.proc.rcvd := (hgrow.eq_of_length_le hread.length_le).symm
    obtain rfl : s = [] := around_sends hopen' haround ⟨hrcvd.trans (List.append_nil _).symm, hs.symm⟩ rfl
    have hsynced : Synced wc'.proc w.proc := by
      refine ⟨hrcvd.trans hsync'.toServer, ?_⟩
      rw [← hs, List.append_nil, hsync'.toClient]
    rcases haround with ⟨hunfolds, -⟩ | hsteps
    · exact .inr ⟨session', v', hdialogue, ⟨hopen', .inl hunfolds⟩, hsynced⟩
    · rcases handleRequest_unmoved hopen' hsteps hrcvd with hunfolds | hgone
      · exact .inr ⟨session', v', hdialogue, ⟨hopen', .inr hunfolds⟩, hsynced⟩
      · exact .inl hgone

theorem processCommand_puts : Client.processCommand (lit "puts f") = Client.handlePuts putsF := by
  have hreq : buildCommandRequest (lit "puts f") = some putsF := by decide
  rw [Client.processCommand, hreq]
  rfl

/-- A client that asks where it is. -/
theorem runCommands_pwd (hsync : Synced wc.proc v.proc) : ∃ wc' ws', DuplexSteps (side envC) (side envS)
    ((Client.runCommands [lit "pwd"], wc), (handleRequest .start, v)) ((.ret (), wc'), (handleRequest .start, ws')) := by
  suffices h : ∃ x, DuplexSteps (side envC) (side envS)
      ((Client.runCommands [lit "pwd"], wc), (handleRequest .start, v)) x ∧
      (x.1.1 = .ret () ∧ x.2.1 = handleRequest .start) by
    obtain ⟨⟨⟨_, wc'⟩, _, ws'⟩, hrun, rfl, rfl⟩ := h
    exact ⟨wc', ws', hrun⟩
  have hprocess : Client.processCommand (lit "pwd") = Client.handleSimpleCommand ⟨.pwd, []⟩ := by
    have hreq : buildCommandRequest (lit "pwd") = some ⟨.pwd, []⟩ := by decide
    rw [Client.processCommand, hreq]
  have hvalid : (Packet.of .pwd .ok []).Valid := Packet.of_valid _ _ (by decide)
  have hpwd : (Packet.of .pwd .ok []).Is .pwd := Packet.of_is.2 rfl
  have hread : wc.proc.rcvd <+: v.proc.sent := hsync.toClient ▸ List.prefix_refl _
  have hin : v.proc.rcvd ++ (Packet.of .pwd .ok []).wire <+: wc.proc.sent ++ (Packet.of .pwd .ok []).wire :=
    hsync.toServer ▸ List.prefix_refl _
  rw [Client.runCommands, hprocess, Client.handleSimpleCommand]
  simp only [if_neg (not_not.2 (rfl : ([] : Bytes) = []))]
  rw [bind_assoc]
  refine run_sendPacket [] (Duplex.backward_left _) rfl rfl (by decide) hread ?_
  refine (Duplex.backward_right _).loop (run_request (Duplex.backward_right _) rfl hvalid hin ?_)
  rw [dispatchCommand, ofCode_of_is hpwd]
  refine run_reply (Duplex.backward_right _) (by decide) hin ?_
  have hv : (textPacket .ack .ok rootPath).Valid := textPacket_valid (by decide)
  have hack : (textPacket .ack .ok rootPath).Is .ack := Packet.of_is.2 rfl
  have hreply : wc.proc.rcvd ++ (textPacket .ack .ok rootPath).wire <+: v.proc.sent ++ (textPacket .ack .ok rootPath).wire :=
    hsync.toClient ▸ List.prefix_refl _
  exact Client.run_recvTextResponse (Duplex.backward_left _) hv (.inl hack) hreply ⟨_, .refl, rfl, rfl⟩

/-- A client that uploads a file, and then asks where it is. -/
theorem runCommands_puts : ∃ wc' ws', DuplexSteps (side (.quiet fun _ => False)) (side (.quiet fun _ => False))
    ((Client.runCommands [lit "puts f", lit "pwd"], ⟨FS.put (fun _ => none) putsF.arg one, .init⟩),
      (handleRequest .start, ⟨FS.put (fun _ => none) targetF noBytes, .init⟩))
    ((.ret (), wc'), (handleRequest .start, ws')) := by
  obtain ⟨wc₁, ws₁, hupload, -, -, htoServer, htoClient⟩ := upload_runs (F := one) (C := noBytes) (.quiet fun _ => False)
    (.quiet fun _ => False) (fun _ => none) (fun _ => none) (by decide) (by decide) (by decide)
  have hboth := Duplex.bind_both (fun _ => Client.runCommands [lit "pwd"]) afterRound hupload
  obtain ⟨wc', ws', hpwd⟩ := @runCommands_pwd (.quiet fun _ => False) (.quiet fun _ => False) _ _
    ⟨htoServer.symm, htoClient.symm⟩
  rw [Client.runCommands, processCommand_puts]
  exact ⟨wc', ws', .head (.right .loop) (hboth.trans hpwd)⟩

theorem runCommands_inStep_puts : ∃ (wc' ws' : World) (session' : Session) (v' : World),
    Dialogue (.quiet fun _ => False) (.quiet fun _ => False) [lit "puts f", lit "pwd"]
      ⟨FS.put (fun _ => none) putsF.arg one, .init⟩ .start ⟨FS.put (fun _ => none) targetF noBytes, .init⟩
      wc' session' v' ∧ AtTop session' (handleRequest .start) ∧ Synced wc'.proc ws'.proc := by
  obtain ⟨wc', ws', hrun⟩ := runCommands_puts
  have hnone (c : Call) : ¬ (Env.quiet fun _ => False).faults c := id
  have hopen : Session.start.shouldClose = false := rfl
  obtain ⟨k, hcall, -⟩ := handleRequest_waits hopen
  rcases runCommands_inStep (fun c _ => hnone c) (fun c _ => hnone c) hopen (by decide) ⟨rfl, rfl⟩ hrun with
    hgone | ⟨session', v', h⟩
  · exact absurd hgone (not_gone hcall)
  · exact ⟨wc', ws', session', v', h⟩

/-- The client cannot read its file after `CMD_PUTS_RESP`: it is done, and the server waits for the rest. -/
theorem runCommands_outOfStep : ∃ wc' q ws',
    DuplexSteps (side (.quiet fun c => ∃ fd n, c = .read fd n)) (side (.quiet fun _ => False))
      ((Client.runCommands [lit "puts f"], ⟨FS.put (fun _ => none) putsF.arg one, .init⟩),
        (handleRequest .start, ⟨FS.put (fun _ => none) targetF noBytes, .init⟩))
      ((.ret (), wc'), (q, ws')) ∧ ¬ Gone q ∧ ∀ session, ¬ AtTop session q := by
  have hupload : ∃ x, DuplexSteps (side (.quiet fun c => ∃ fd n, c = .read fd n)) (side (.quiet fun _ => False))
      ((Client.handlePuts putsF, ⟨FS.put (fun _ => none) putsF.arg one, .init⟩),
        (handleRequestRound .start, ⟨FS.put (fun _ => none) targetF noBytes, .init⟩)) x ∧
      (x.1.1 = .ret .fail ∧ ∃ f, x.2.1 = uploadReceive .start 0 1 (some 0) 0 >>= f) := by
    refine upload_opens (F := one) (C := noBytes) (by decide) ?_
    intro pc ps hrc hrs hsc hss hfc hfs hmap
    have hread : pc.rcvd <+: ps.sent := by rw [hrc]
    rw [← bind_ret (Client.uploadFrom _ _ _), Client.uploadFrom, bind_assoc]
    apply run_lseek (Duplex.backward_left _) hread hfc (by decide)
    simp only
    rw [bind_assoc]
    apply (Duplex.backward_left _).iter
    rw [if_pos (by decide), bind_assoc]
    refine run_read_fail (Duplex.backward_left _) hread ⟨_, _, rfl⟩ ?_
    simp only [pure_eq, ret_bind, unroll]
    rw [bind_assoc]
    apply run_close (Duplex.backward_left _) hread
    -- the server maps the target
    have hin : ps.rcvd <+: pc.sent := by rw [hrs]
    rw [uploadMapped, if_pos (by decide), bind_assoc]
    refine run_ftruncate (d := ⟨[0], by decide⟩) (Duplex.backward_right _) hin hfs rfl (by decide) (by decide) ?_
    simp only
    rw [bind_assoc]
    refine run_mmap (Duplex.backward_right _) hin 0 hfs hmap ?_
    exact ⟨_, .refl, rfl, _, rfl⟩
  obtain ⟨⟨⟨_, wc'⟩, _, ws'⟩, hrun, rfl, f, rfl⟩ := hupload
  have hboth := Duplex.bind_both (fun _ => Client.runCommands []) afterRound hrun
  obtain ⟨k, hk⟩ := uploadReceive_waits fun x => f x >>= afterRound
  rw [← bind_assoc] at hk
  rw [Client.runCommands, processCommand_puts]
  exact ⟨wc', _, ws', .head (.right .loop) hboth, not_gone hk, fun _ => not_atTop hk⟩

end Commands
end WindCloud
