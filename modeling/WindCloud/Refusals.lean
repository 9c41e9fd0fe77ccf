import WindCloud.Lib.Log
import WindCloud.PathJail
/-!
# What the file system refuses

A call on files that fails may stand in the way of a request (`Refuses`). The answer is clean when it is
one error reply and the session is as it was (`Refused`). It is, unless the call is one that the
handlers come to when they have already committed themselves (`Call.Late`):

| call | committed by |
| --- | --- |
| `ftruncate` to the announced size, `mmap` | `CMD_PUTS_RESP` (`handle.c:627`), the error is a second packet |
| `sendfile`                                | `CMD_GETS_RESP` (`handle.c:792`), the session is closed |
| `readdir`                                 | nothing, but the error is taken for the end of the directory (`handle.c:476`) |
| `fstat` in an upload                      | nothing, but its failure is taken for an empty file (`handle.c:606`) |

A directory can be opened and measured, so `gets` of one fails in `sendfile`.
-/

namespace WindCloud

open Interaction Prog FileImage

/-- `c`, answered by `r`, stands in the way of the request `packet`. An upload can do without the size of its
file, unless it is to be emptied. -/
def Refuses (packet : Packet) (w : World) : (c : Call) → Res c → Prop
  | .opendir _, none | .openFile .., none | .mmap .., none | .remove _, false | .mkdir _, false => True
  | .readdir d, none => w.proc.dirs d ≠ some []
  | .fstat fd, none => packet.Is .getsReq ∨
      ∃ fileName f, extractFileInfo packet pathMax = some (fileName, 0) ∧ w.proc.fds fd = some f ∧ w.fs.bytes f.path ≠ []
  | .ftruncate _ _ why, false => why ≠ .cut
  | .sendfile .., .fail | .sendfile .., .done 0 => True
  | _, _ => False

/-- The calls that fail too late. -/
def Call.Late (packet : Packet) : Call → Prop
  | .readdir _ | .mmap .. | .sendfile .. => True
  | .ftruncate _ _ why => why = .extend
  | .fstat _ => packet.Is .putsReq
  | _ => False

/-- Runs with the calls that were refused in their course. -/
abbrev refusals (env : Env) (packet : Packet) : Sem Call Res (World × List Call) := (kernel env).log (Refuses packet)

/-- A clean refusal: one error reply, nothing read, the session as it was, and `handle_request` goes on with it. -/
structure Refused (session : Session) (w : World) (r : Rc × Session) (w' : World) : Prop where
  answer : ∃ e : Packet, e.Valid ∧ e.Is .error ∧ w'.proc.sent = w.proc.sent ++ e.wire
  unread : w'.proc.rcvd = w.proc.rcvd
  same : r.2 = session
  goesOn : Server.afterCommand r = .ret (.inl session)

/-- Something else than an error reply has been sent. -/
def Spoilt (b w : World) : Prop :=
  ∃ h : TlvHeader, h.cmdType ≠ CmdType.error.code ∧ b.proc.sent ++ h.wire <+: w.proc.sent

/-- What is to be proved of a request. -/
def Verdict (session : Session) (packet : Packet) (b : World) (r : Rc × Session) (v : World × List Call) : Prop :=
  v.2 ≠ [] → (Refused session b r v.1 ↔ ∀ c ∈ v.2, ¬ c.Late packet)

section Verdicts

variable {session : Session} {packet : Packet} {b w w' : World} {r : Rc × Session} {log : List Call} {env : Env}

theorem Spoilt.not_refused (h : Spoilt b w) : ¬ Refused session b r w := by
  obtain ⟨hd, hne, hpre⟩ := h
  rintro ⟨⟨e, -, he, hsent⟩, -, -, -⟩
  rw [hsent, List.prefix_append_right_inj] at hpre
  have hhd : hd.wire = e.header.wire := by
    have htake := List.prefix_iff_eq_take.1 hpre
    rw [htake, Packet.wire]
    simp
  rw [TlvHeader.wire_inj hhd] at hne
  exact hne he

theorem Spoilt.mono (h : Spoilt b w) (hk : w.proc.sent <+: w'.proc.sent) : Spoilt b w' := by
  obtain ⟨hd, hne, hpre⟩ := h
  exact ⟨hd, hne, hpre.trans hk⟩

theorem spoilt_packet {p : Packet} {fs : FS} (hsent : w.proc.sent = b.proc.sent) (hp : ¬ p.Is .error) :
    Spoilt b ⟨fs, w.proc.addSent p.wire⟩ := by
  refine ⟨p.header, hp, ?_⟩
  rw [Proc.addSent_sent, hsent, Packet.wire, ← List.append_assoc]
  exact List.prefix_append _ _

theorem Verdict.late (h : Spoilt b w) (hlog : ∀ c ∈ log, c.Late packet) : Verdict session packet b r (w, log) := by
  intro hne
  obtain ⟨c, hc⟩ := List.exists_mem_of_ne_nil _ hne
  exact ⟨fun hr => absurd hr h.not_refused, fun h => absurd (hlog c hc) (h c hc)⟩

theorem not_refuses_toPeer {c : Call} {x : Res c} (hc : c.ToPeer) : ¬ Refuses packet w c x := by
  cases c with
  | send buf => exact id
  | _ => cases hc

/-- The calls of a transfer are late. -/
theorem Refuses.late {c : Call} {x : Res c} (h : Refuses packet w c x) (hc : c.Transfers) : c.Late packet := by
  cases c with
  | sendfile fd off n => trivial
  | mmap fd len => trivial
  | ftruncate fd len why =>
    cases x with
    | false => exact hc.resolve_right h
    | true => exact h.elim
  | openFile path mode => cases hc
  | opendir path => cases hc
  | remove path => cases hc
  | mkdir path => cases hc
  | readdir d => cases hc
  | fstat fd => cases hc
  | lseek fd off => cases hc
  | read fd n => cases hc
  | write fd buf => cases hc
  | closedir d => cases hc
  | _ => exact h.elim

end Verdicts

namespace Server

section Rules

variable {env : Env} {session : Session} {packet : Packet} {b w : World} {log : List Call}

/-- The rest of a transfer after its first packet. -/
theorem wp_spoilt {p : Io (Rc × Session)} (hp : Moves session.currentPath p) (hs : Spoilt b w)
    (hlog : ∀ c ∈ log, c.Late packet) :
    wp (refusals env packet) (fun _ _ => True) p (Verdict session packet b) (w, log) := by
  refine wp_mono (every_wp hp (I := fun v => Spoilt b v.1 ∧ ∀ c ∈ v.2, c.Late packet) ⟨hs, hlog⟩ ?_ ?_) ?_
  · exact fun _ _ _ _ => trivial
  · rintro ⟨v, l⟩ c r ⟨v', l'⟩ hc ⟨hk, hyes, hno⟩ ⟨hv, hl⟩
    refine ⟨hv.mono (kernel_grows hk).2, ?_⟩
    by_cases hr : Refuses packet v c r
    · rw [show l' = _ from hyes hr]
      exact forall_mem_snoc hl (hr.late hc)
    · rw [show l' = _ from hno hr]
      exact hl
  · rintro r ⟨v, l⟩ ⟨-, hv, hl⟩
    exact .late hv hl

/-- A packet that the socket takes. -/
theorem wp_sent {p : Io Rc} (hsend : ∀ buf, ¬ env.faults (.send buf)) (hcalls : every Call.ToPeer p fun _ => True)
    {q : Packet} (hp : ∀ {Q : Rc → World → Prop} (_ : ∀ fs, env.rely w.fs fs → Q .ok ⟨fs, w.proc.addSent q.wire⟩)
      (_ : ∀ fs pre rest, env.rely w.fs fs → pre ++ rest <+: q.wire → rest ≠ [] → env.faults (.send rest) →
        Q .fail ⟨fs, w.proc.addSent pre⟩), wp (kernel env) (fun _ _ => True) p Q w) :
    wp (refusals env packet) (fun _ _ => True) p
      (fun rc v => rc = .ok ∧ ∃ fs, v = (⟨fs, w.proc.addSent q.wire⟩, log)) (w, log) := by
  have hkernel : wp (kernel env) (fun _ _ => True) p
      (fun rc v => rc = .ok ∧ ∃ fs, v = ⟨fs, w.proc.addSent q.wire⟩) w :=
    hp (fun fs _ => ⟨rfl, fs, rfl⟩) fun _ _ _ _ _ _ hf => absurd hf (hsend _)
  refine wp_mono (wp_log_idle hcalls (fun _ _ _ => not_refuses_toPeer) hkernel) ?_
  rintro rc ⟨_, _⟩ ⟨⟨-, rfl, fs, rfl⟩, rfl⟩
  exact ⟨rfl, fs, rfl⟩

theorem wp_replied (hsend : ∀ buf, ¬ env.faults (.send buf)) {type : CmdType} {status : StatusCode} {msg : Bytes}
    (hlen : msg.length < maxPacketPayload.toNat) :
    wp (refusals env packet) (fun _ _ => True) (reply session type status msg) (fun r v => r = (.ok, session) ∧
      ∃ fs, v = (⟨fs, w.proc.addSent (textPacket type status msg).wire⟩, log)) (w, log) := by
  have hmax : (msg ++ [0]).length ≤ maxPacketPayload.toNat := by rw [List.length_append]; exact hlen
  rw [reply, sendTextReply_some]
  refine wp_bind.2 (wp_mono (wp_sent hsend (sendPacket_calls ..) fun hok hfail =>
    wp_sendPacket rfl rfl hmax (fun _ _ _ _ _ _ => trivial) hok hfail) ?_)
  rintro _ _ ⟨rfl, fs, rfl⟩
  exact ⟨rfl, fs, rfl⟩

/-- The error reply in time. -/
theorem wp_refusal (hsend : ∀ buf, ¬ env.faults (.send buf)) (hw : b.proc.Since [] [] w.proc)
    (hlog : ∀ c ∈ log, ¬ c.Late packet) {status : StatusCode} {msg : Bytes} (hlen : msg.length < maxPacketPayload.toNat) :
    wp (refusals env packet) (fun _ _ => True) (reply session .error status msg) (Verdict session packet b) (w, log) := by
  apply wp_mono (wp_replied hsend hlen)
  rintro _ _ ⟨rfl, fs, rfl⟩ _
  refine ⟨fun _ => hlog, fun _ => ⟨⟨textPacket .error status msg, textPacket_valid hlen, Packet.of_is.2 rfl, ?_⟩, ?_,
    rfl, rfl⟩⟩
  · rw [Proc.addSent_sent, hw.sent, List.append_nil]
  · rw [Proc.addSent_rcvd, hw.rcvd, List.append_nil]

/-- Another reply. -/
theorem wp_acked (hsend : ∀ buf, ¬ env.faults (.send buf)) (hw : b.proc.Since [] [] w.proc)
    (hlog : ∀ c ∈ log, c.Late packet) {status : StatusCode} {msg : Bytes} (hlen : msg.length < maxPacketPayload.toNat) :
    wp (refusals env packet) (fun _ _ => True) (reply session .ack status msg) (Verdict session packet b) (w, log) := by
  apply wp_mono (wp_replied hsend hlen)
  rintro _ _ ⟨rfl, fs, rfl⟩
  refine .late (spoilt_packet (hw.sent.trans (List.append_nil _)) ?_) hlog
  simp [textPacket]

/-- A reply of a request that has not been refused. -/
theorem wp_unrefused {session' : Session} {type : CmdType} {status : StatusCode} {msg : Bytes} :
    wp (refusals env packet) (fun _ _ => True) (reply session' type status msg) (Verdict session packet b) (w, []) := by
  have hcalls : every Call.ToPeer (reply session' type status msg) fun _ => True :=
    every_bind (sendTextReply_calls ..) fun _ _ => trivial
  refine wp_mono (every_wp hcalls (I := fun v => v.2 = []) rfl (fun _ _ _ _ => trivial) ?_) ?_
  · rintro ⟨v, _⟩ c r ⟨v', l⟩ hc ⟨-, -, hno⟩ rfl
    exact hno (not_refuses_toPeer hc)
  · rintro r ⟨v, _⟩ ⟨-, rfl⟩ h
    exact absurd rfl h

/-- A call on files shows in the log only. -/
theorem wp_file {c : Call} {k : Res c → Io (Rc × Session)} (hw : b.proc.Since [] [] w.proc) (hc : c.sends = some [])
    (hr : ∀ wait n, c ≠ .recv wait n)
    (h : ∀ r v log', kernel env w c r v → b.proc.Since [] [] v.proc → (Refuses packet w c r → log' = log ++ [c]) →
      (¬ Refuses packet w c r → log' = log) →
      wp (refusals env packet) (fun _ _ => True) (k r) (Verdict session packet b) (v, log')) :
    wp (refusals env packet) (fun _ _ => True) (perform c >>= k) (Verdict session packet b) (w, log) := by
  exact wp_log fun r v log' hk hyes hno => h r v log' hk (hw.quiet hk hc hr) hyes hno

end Rules

/-! ## The handlers -/

section Handlers

variable {env : Env} {session : Session} {packet : Packet} {b : World}

/-- A handler's contract. -/
abbrev Judged (env : Env) (session : Session) (packet : Packet) (p : Io (Rc × Session)) : Prop :=
  ∀ b, wp (refusals env packet) (fun _ _ => True) p (Verdict session packet b) (b, [])

theorem handleCd_judged (hsend : ∀ buf, ¬ env.faults (.send buf)) (arg : Bytes) :
    Judged env session packet (handleCd session arg) := by
  intro b
  unfold handleCd
  split
  · exact wp_unrefused
  · refine wp_file (.refl _) rfl (by simp) ?_
    intro dir v log _ hv hyes hno
    cases dir with
    | none =>
      obtain rfl := hyes trivial
      exact wp_refusal hsend hv (by simp [Call.Late]) (by decide)
    | some d =>
      obtain rfl := hno id
      refine wp_file hv rfl (by simp) ?_
      intro _ v log _ hv _ hno
      obtain rfl := hno id
      exact wp_unrefused

/-- An error of `readdir` is taken for the end of the directory. -/
theorem handleLs_judged (hsend : ∀ buf, ¬ env.faults (.send buf)) : Judged env session packet (handleLs session) := by
  intro b
  unfold handleLs
  split
  · exact wp_unrefused
  · refine wp_file (.refl _) rfl (by simp) ?_
    intro dir v log _ hv hyes hno
    cases dir with
    | none =>
      obtain rfl := hyes trivial
      exact wp_refusal hsend hv (by simp [Call.Late]) (by decide)
    | some d =>
      obtain rfl := hno id
      refine wp_loop (fun l v => l.result.length = maxTextPayload ∧ v.2 = [] ∧ b.proc.Since [] [] v.1.proc)
        ⟨List.length_replicate, rfl, hv⟩ ?_
      rintro l ⟨v, _⟩ ⟨hlen, rfl, hv⟩
      refine wp_log ?_
      intro name v' log hk hyes hno
      have hv' : b.proc.Since [] [] v'.proc := hv.quiet hk rfl (by simp)
      cases name with
      | none =>
        have hlate : ∀ c ∈ log, c.Late packet := by
          by_cases hr : Refuses packet v (.readdir d) none
          · rw [hyes hr]
            simp [Call.Late]
          · rw [hno hr]
            simp
        refine wp_file hv' rfl (by simp) ?_
        intro _ u log' _ hu _ hno'
        obtain rfl := hno' id
        apply wp_acked hsend hu hlate
        split
        · decide
        · refine ((List.takeWhile_prefix _).length_le.trans hlen.le).trans_lt ?_
          decide
      | some name =>
        obtain rfl := hno id
        cases hl : l.add name with
        | none =>
          simp only [hl]
          refine wp_file hv' rfl (by simp) ?_
          intro _ u log' _ hu _ hno'
          obtain rfl := hno' id
          exact wp_unrefused
        | some l' =>
          simp only [hl]
          exact ⟨(Listing.length_add hl).trans hlen, rfl, hv'⟩

theorem handleRm_judged (hsend : ∀ buf, ¬ env.faults (.send buf)) (arg : Bytes) :
    Judged env session packet (handleRm session arg) := by
  intro b
  unfold handleRm
  split
  · exact wp_unrefused
  · refine wp_file (.refl _) rfl (by simp) ?_
    intro ok v log _ hv hyes hno
    cases ok with
    | false =>
      obtain rfl := hyes trivial
      exact wp_refusal hsend hv (by simp [Call.Late]) (by decide)
    | true =>
      obtain rfl := hno id
      exact wp_unrefused

theorem handleMkdir_judged (hsend : ∀ buf, ¬ env.faults (.send buf)) (arg : Bytes) :
    Judged env session packet (handleMkdir session arg) := by
  intro b
  unfold handleMkdir
  split
  · exact wp_unrefused
  · refine wp_file (.refl _) rfl (by simp) ?_
    intro ok v log _ hv hyes hno
    cases ok with
    | false =>
      obtain rfl := hyes trivial
      exact wp_refusal hsend hv (by simp [Call.Late]) (by decide)
    | true =>
      obtain rfl := hno id
      exact wp_unrefused

/-- With its first packet sent, an upload is not refused cleanly. -/
theorem wp_uploadFrom_refusals (hsend : ∀ buf, ¬ env.faults (.send buf)) {fd : Nat} {totalSize writeOffset : UInt64}
    {w : World} {log : List Call} (hw : b.proc.Since [] [] w.proc) (hlog : ∀ c ∈ log, c.Late packet) :
    wp (refusals env packet) (fun _ _ => True) (uploadFrom session fd totalSize writeOffset)
      (Verdict session packet b) (w, log) := by
  refine wp_bind.2 (wp_mono (wp_sent (q := resumePacket .putsResp writeOffset) hsend (sendPacket_calls ..)
    fun hok hfail => wp_sendResumePacket (fun _ _ _ _ _ _ => trivial) hok hfail) ?_)
  rintro _ _ ⟨rfl, fs, rfl⟩
  refine wp_spoilt (uploadMapped_moves rfl) (spoilt_packet (hw.sent.trans (List.append_nil _)) ?_) hlog
  simp [resumePacket]

theorem handlePuts_judged (hsend : ∀ buf, ¬ env.faults (.send buf)) (hputs : packet.Is .putsReq) :
    Judged env session packet (handlePuts session packet) := by
  intro b
  unfold handlePuts
  split
  · exact wp_unrefused
  split
  · exact wp_unrefused
  split
  · exact wp_unrefused
  · refine wp_file (.refl _) rfl (by simp) ?_
    intro fd v log _ hv hyes hno
    cases fd with
    | none =>
      obtain rfl := hyes trivial
      exact wp_refusal hsend hv (by simp [Call.Late]) (by decide)
    | some fd =>
      obtain rfl := hno id
      refine wp_file hv rfl (by simp) ?_
      intro st v' log hk hv' hyes hno
      have hlate : ∀ c ∈ log, c.Late packet := by
        by_cases hr : Refuses packet v (.fstat fd) st
        · rw [hyes hr]
          simpa [Call.Late] using hputs
        · rw [hno hr]
          simp
      simp only
      split
      · -- the file had a size, so `fstat` was not refused
        rename_i hover
        have hnil : log = [] := by
          apply hno
          cases st with
          | none => exact absurd hover (by simp [resumePoint])
          | some size => exact id
        subst hnil
        refine wp_file hv' rfl (by simp) ?_
        intro ok u log _ hu hyes hno
        cases ok with
        | false =>
          obtain rfl := hyes (by simp [Refuses])
          refine wp_file hu rfl (by simp) ?_
          intro _ u' log' _ hu' _ hno'
          obtain rfl := hno' id
          exact wp_refusal hsend hu' (by simp [Call.Late]) (by decide)
        | true =>
          obtain rfl := hno id
          exact wp_uploadFrom_refusals hsend hu (by simp)
      · exact wp_uploadFrom_refusals hsend hv' hlate

theorem handleGets_judged (hsend : ∀ buf, ¬ env.faults (.send buf)) (hgets : packet.Is .getsReq) (arg : Bytes) :
    Judged env session packet (handleGets session arg) := by
  intro b
  unfold handleGets
  split
  · exact wp_unrefused
  · refine wp_file (.refl _) rfl (by simp) ?_
    intro fd v log _ hv hyes hno
    cases fd with
    | none =>
      obtain rfl := hyes trivial
      exact wp_refusal hsend hv (by simp [Call.Late]) (by decide)
    | some fd =>
      obtain rfl := hno id
      refine wp_file hv rfl (by simp) ?_
      intro size v' log hk hv' hyes hno
      cases size with
      | none =>
        obtain rfl := hyes (.inl hgets)
        refine wp_file hv' rfl (by simp) ?_
        intro _ u log' _ hu _ hno'
        obtain rfl := hno' id
        refine wp_refusal hsend hu ?_ (by decide)
        simp [Call.Late, Packet.Is, show packet.header.cmdType = _ from hgets]
      | some size =>
        obtain rfl := hno id
        refine wp_bind.2 (wp_mono (wp_sent (q := fileInfoPacket .getsResp arg (.ofNat size)) hsend (sendPacket_calls ..)
          fun hok hfail => wp_sendPacket rfl (by simp) (by rw [Option.getD_some, length_fileInfoPayload]; decide)
            (fun _ _ _ _ _ _ => trivial) hok hfail) ?_)
        rintro _ _ ⟨rfl, fs, rfl⟩
        -- what follows are the calls of a transfer
        exact wp_spoilt (resumeDownload_moves rfl)
          (spoilt_packet (hv'.sent.trans (List.append_nil _)) (by simp [fileInfoPacket])) (by simp)

theorem withArg_judged {missing : Bytes} {handler : Session → Bytes → Io (Rc × Session)}
    (hh : ∀ arg, Judged env session packet (handler session arg)) :
    Judged env session packet (withArg session packet missing handler) := by
  intro b
  unfold withArg
  split
  · exact wp_unrefused
  · exact hh _ b

theorem dispatchCommand_judged (hsend : ∀ buf, ¬ env.faults (.send buf)) :
    Judged env session packet (dispatchCommand session packet) := by
  unfold dispatchCommand
  split
  · intro b
    exact wp_unrefused
  · exact handleLs_judged hsend
  · exact withArg_judged (handleCd_judged hsend)
  · exact withArg_judged (handleRm_judged hsend)
  · exact withArg_judged (handleMkdir_judged hsend)
  · rename_i h
    exact handlePuts_judged hsend (CmdType.ofCode_eq h)
  · rename_i h
    exact withArg_judged (handleGets_judged hsend (CmdType.ofCode_eq h))
  · intro b
    exact wp_unrefused

end Handlers

/-! ## Every run -/

section Runs

variable {env : Env} {session : Session} {packet : Packet} {w w' : World} {r : Rc × Session} {log : List Call}

/-- **Refusals are clean unless they come too late**: while the socket takes what is sent, a request that the
file system refused in the course of a run is answered by one error reply, with the session as it was, exactly
if none of the refused calls is a late one. -/
theorem dispatchCommand_refused (hsend : ∀ buf, ¬ env.faults (.send buf))
    (hrun : Steps (refusals env packet) (dispatchCommand session packet, w, []) (.ret r, w', log)) (hlog : log ≠ []) :
    Refused session w r w' ↔ ∀ c ∈ log, ¬ c.Late packet :=
  wp_result (dispatchCommand_judged hsend w) hrun hlog

/-- `mkdir a`, refused. -/
theorem dispatchCommand_refused_mkdir : ∃ v, Refused .start ⟨fun _ => none, .init⟩ (.ok, .start) v := by
  let env : Env := .quiet fun c => ∃ path, c = .mkdir path
  let packet := textPacket .mkdir .ok (lit "a")
  have hsend (buf : Bytes) : ¬ env.faults (.send buf) := fun ⟨_, h⟩ => by cases h
  have hres : resolveTargetPath Session.start.currentPath (lit "a") pathMax pathMax =
    some (lit "/a", lit "../tests/a") := by decide
  have harg : copyStringPayload packet pathMax false = some (lit "a") := by decide
  have his : packet.Is .mkdir := Packet.of_is.2 rfl
  obtain ⟨k, hk, hdis⟩ : ∃ k, k false = reply .start .error .ioError (lit "创建文件夹失败") ∧
      dispatchCommand .start packet = Sys.mkdir (lit "../tests/a") >>= k := by
    rw [dispatchCommand, ofCode_of_is his]
    simp only [withArg, harg, handleMkdir, hres]
    refine ⟨_, ?_, rfl⟩
    rfl
  let w : World := ⟨fun _ => none, Proc.init.note (.mkdir (lit "../tests/a")) false⟩
  have hreply : ∃ d, Steps (kernel env) (reply .start .error .ioError (lit "创建文件夹失败"), w) d ∧
      d.1 = .ret (.ok, .start) := by
    have hR : Backward (fed env []) fun c => _ :=
      backward_kernel fun d : Io (Rc × Session) × World => d.1 = .ret (.ok, .start)
    rw [← bind_ret (reply ..)]
    exact run_reply hR (by decide) (List.prefix_refl _) ⟨_, .refl, rfl⟩
  obtain ⟨⟨_, v⟩, hreply, rfl⟩ := hreply
  obtain ⟨log, hreply⟩ : ∃ log, Steps ((kernel env).log (Refuses packet))
      (reply .start .error .ioError (lit "创建文件夹失败"), w, [.mkdir (lit "../tests/a")]) (.ret (.ok, .start), v, log) :=
    steps_log hreply _
  obtain ⟨-, fs, hv⟩ := wp_result (wp_replied hsend (by decide)) hreply
  obtain rfl := (Prod.mk.inj hv).2
  have hstep : refusals env packet (⟨fun _ => none, .init⟩, []) (.mkdir (lit "../tests/a")) false
      (w, [.mkdir (lit "../tests/a")]) :=
    ⟨⟨_, rfl, _, ⟨⟨_, rfl⟩, rfl⟩, rfl⟩, fun _ => rfl, fun h => absurd trivial h⟩
  have hrun : Steps (refusals env packet) (dispatchCommand .start packet, ⟨fun _ => none, .init⟩, [])
      (.ret (.ok, .start), v, [.mkdir (lit "../tests/a")]) := by
    rw [← hk] at hreply
    rw [hdis]
    exact steps_call hstep hreply
  exact ⟨v, (dispatchCommand_refused hsend hrun (by simp)).2 (by simp [Call.Late])⟩

/-- `gets .`, which is a directory: its size is announced, and `sendfile` fails. -/
theorem dispatchCommand_getsDirectory : ∃ v log,
    Steps (refusals (.quiet fun c => ∃ fd off n, c = .sendfile fd off n) (textPacket .getsReq .ok (lit ".")))
      (dispatchCommand .start (textPacket .getsReq .ok (lit ".")),
        ⟨fun path => if path = serverBaseDir then some .dir else none, .init⟩, [])
      (.ret (.fail, Session.start.closing), v, log) ∧ log ≠ [] ∧
    ¬ Refused .start ⟨fun path => if path = serverBaseDir then some .dir else none, .init⟩
      (.fail, Session.start.closing) v := by
  let env : Env := .quiet fun c => ∃ fd off n, c = .sendfile fd off n
  let packet := textPacket .getsReq .ok (lit ".")
  let fs : FS := fun path => if path = serverBaseDir then some .dir else none
  let again := resumePacket .resumePos 0
  have hres : resolveTargetPath Session.start.currentPath (lit ".") pathMax pathMax = some (rootPath, serverBaseDir) := by
    decide
  let R (c : Io (Rc × Session) × World) : Prop := ∀ log, ∃ (d : Io (Rc × Session) × World) (log' : List Call),
    Steps (refusals env packet) (c.1, c.2, log) (d.1, d.2, log') ∧ d.1 = .ret (.fail, Session.start.closing) ∧ log' ≠ []
  have hR : Backward (fed env again.wire) R :=
    (backward_log fun (d : Io (Rc × Session) × World) log' => d.1 = .ret (.fail, Session.start.closing) ∧ log' ≠ []).mono
      fun _ _ _ _ h => h.1
  have hnil : ([] : Bytes) <+: again.wire := List.nil_prefix
  suffices h : R (dispatchCommand .start packet, ⟨fs, .init⟩) by
    obtain ⟨⟨_, v⟩, log, hrun, rfl, hlog⟩ := h []
    exact ⟨v, log, hrun, hlog, fun h => by simpa [Session.start, Session.closing] using h.same⟩
  have harg : copyStringPayload packet pathMax false = some (lit ".") := by decide
  have his : packet.Is .getsReq := Packet.of_is.2 rfl
  rw [dispatchCommand, ofCode_of_is his]
  simp only [withArg, harg, handleGets, hres]
  apply run_openRead hR hnil 0 (by simp [fs]) rfl
  -- `fstat` of a directory gives some size
  have hdir (bs : Bytes) : ¬ fs.Has serverBaseDir bs := by
    rintro ⟨c, hc, -⟩
    simp [fs] at hc
  refine run_call hR (r := some 1) (v := ⟨fs, _⟩) ⟨⟨serverBaseDir, 0⟩, by simp, by decide, ?_, rfl⟩ hnil ?_
  · intro bs hbs
    exact absurd hbs (hdir bs)
  simp only [sendFileInfoPacket]
  refine run_sendPacket (fileInfoPayload (lit ".") (.ofNat 1)) hR rfl (by simp) (by rw [length_fileInfoPayload]; decide)
    hnil ?_
  apply run_recvFollowPacket hR (resumePacket_valid .resumePos 0) (List.prefix_refl _)
  have hagain : (resumePacket .resumePos 0).Is .resumePos := Packet.of_is.2 rfl
  have hin : again.wire <+: again.wire := List.prefix_refl _
  simp only [if_neg (not_not.2 hagain), extractResumeOffset_resumePacket]
  rw [if_neg (by decide), downloadFrom]
  apply hR.iter
  rw [if_pos (by decide), bind_assoc, sendFileDataPacket, bind_assoc, TlvHeader.bytes_hton]
  apply run_sendN hR hin
  simp only [iter_bind]
  apply hR.loop
  rw [if_pos (by decide), bind_assoc]
  -- and `sendfile` is refused
  intro log
  apply steps_log_call (r := IoRes.fail)
  · exact ⟨fs, rfl, ⟨fs, _⟩, ⟨⟨_, _, _, rfl⟩, rfl⟩, rfl⟩
  · trivial
  have hR : Backward (fed env again.wire) fun c => _ :=
    backward_kernel fun d : Io (Rc × Session) × World => d.1 = .ret (.fail, Session.start.closing)
  simp only [pure_eq, ret_bind, unroll]
  exact run_close hR hin ⟨_, .refl, rfl⟩

end Runs

end Server
end WindCloud
