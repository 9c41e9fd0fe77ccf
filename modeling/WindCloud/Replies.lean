import WindCloud.ClientUpload
import WindCloud.Exchange
/-!
# Commands with a text reply

`pwd`, `cd`, `ls`, `rm` and `mkdir` are a request and a reply, whatever the file system answers:
`Replying` says it of the server's two streams at any moment, `TextEnd` of the client's when
`handle_simple_command` returns.
-/

namespace WindCloud

open Interaction Prog

namespace Server

/-- Nothing more is received, and `s` is the start of one reply. -/
def Replying (r s : Bytes) : Prop := r = [] ∧ ∃ e : Packet, e.Valid ∧ e.Final ∧ s <+: e.wire

def Replied (r s : Bytes) : Prop := r = [] ∧ ∃ e : Packet, e.Valid ∧ e.Final ∧ s = e.wire

theorem Replied.replying {r s : Bytes} (h : Replied r s) : Replying r s := by
  obtain ⟨hr, e, hv, he, rfl⟩ := h
  exact ⟨hr, e, hv, he, List.prefix_refl _⟩

theorem Replying.start : Replying [] [] := ⟨rfl, endPacket, endPacket_valid, by simp [endPacket], List.nil_prefix⟩

section Handlers

variable {env : Env} {session : Session} {arg : Bytes}

/-- A handler's contract: it sends one reply. -/
abbrev Texts (env : Env) (session : Session) (p : Io (Rc × Session)) : Prop :=
  ∀ (b : Proc) (w : World), b.Since [] [] w.proc →
    wp (kernel env) (Follows env b Replying) p (Finishes b session Replied) w

/-- The reply. -/
theorem reply_texts {session' : Session} {type : CmdType} {status : StatusCode} {msg : Bytes}
    (hshort : session.currentPath.length < pathMax → session'.currentPath.length < pathMax)
    (htype : type = .ack ∨ type = .error) (hlen : msg.length < maxPacketPayload.toNat) :
    Texts env session (reply session' type status msg) := by
  intro b w hs
  have hs₀ : b.Since [] (Packet.wires []) w.proc := hs
  have hv : (textPacket type status msg).Valid := textPacket_valid hlen
  have hfinal : (textPacket type status msg).Final := Packet.of_final.2 (htype.imp_right .inl)
  refine wp_followReply hs₀ (by simp) (by simp) hlen ?_ ?_ ?_
  · intro s' hs'
    exact ⟨rfl, _, hv, hfinal, by simpa using hs'⟩
  · intro fs _
    have hsent := since_addPacket hs₀ (textPacket type status msg)
    exact ⟨hshort, fun _ _ => ⟨[], _, hsent, rfl, _, hv, hfinal, by simp⟩⟩
  · intro fs pre rest _ _ _
    exact ⟨hshort, nofun⟩

/-- A call on files does not show. -/
theorem wp_unseen {α : Type} {b : Proc} {w : World} {c : Call} {k : Res c → Io α} {Q : α → World → Prop}
    (hs : b.Since [] [] w.proc) (hc : c.sends = some []) (hr : ∀ wait n, c ≠ .recv wait n)
    (h : ∀ x v, b.Since [] [] v.proc → wp (kernel env) (Follows env b Replying) (k x) Q v) :
    wp (kernel env) (Follows env b Replying) (perform c >>= k) Q w := by
  refine ⟨.idle hs .start not_ended_nil hc hr, ?_⟩
  intro x v hk
  exact h x v (hs.quiet hk hc hr)

theorem call_texts {c : Call} {k : Res c → Io (Rc × Session)} (hc : c.sends = some []) (hr : ∀ wait n, c ≠ .recv wait n)
    (hk : ∀ x, Texts env session (k x)) : Texts env session (perform c >>= k) :=
  fun b _ hs => wp_unseen hs hc hr fun x v hv => hk x b v hv

theorem handlePwd_texts (hshort : session.currentPath.length < pathMax) : Texts env session (handlePwd session) := by
  have hm : pathMax ≤ maxPacketPayload.toNat := by decide
  exact reply_texts id (.inl rfl) (hshort.trans_le hm)

theorem handleCd_texts : Texts env session (handleCd session arg) := by
  unfold handleCd
  split
  · exact reply_texts id (.inr rfl) (by decide)
  · rename_i nextVirtual realPath _
    refine call_texts rfl (by simp) ?_
    intro dir
    cases dir with
    | none => exact reply_texts id (.inr rfl) (by decide)
    | some d =>
      refine call_texts rfl (by simp) ?_
      intro _
      refine reply_texts (fun _ => ?_) (.inl rfl) (by decide)
      have : 0 < pathMax := by decide
      simp only [truncate, List.length_take]
      omega

theorem handleLs_texts : Texts env session (handleLs session) := by
  unfold handleLs
  split
  · exact reply_texts id (.inr rfl) (by decide)
  · refine call_texts rfl (by simp) ?_
    intro dir
    cases dir with
    | none => exact reply_texts id (.inr rfl) (by decide)
    | some d =>
      intro b w hs
      refine wp_loop (fun l v => l.result.length = maxTextPayload ∧ b.Since [] [] v.proc) ⟨List.length_replicate, hs⟩ ?_
      rintro l v ⟨hlen, hv⟩
      refine wp_unseen hv rfl (by simp) ?_
      intro name v' hv'
      cases name with
      | none =>
        refine wp_unseen hv' rfl (by simp) ?_
        intro _ u hu
        refine reply_texts id (.inl rfl) ?_ b u hu
        split
        · decide
        · refine ((List.takeWhile_prefix _).length_le.trans hlen.le).trans_lt ?_
          decide
      | some name =>
        cases hl : l.add name with
        | none =>
          simp only [hl]
          exact call_texts rfl (by simp) (fun _ => reply_texts id (.inr rfl) (by decide)) b v' hv'
        | some l' =>
          simp only [hl]
          exact ⟨(Listing.length_add hl).trans hlen, hv'⟩

theorem handleRm_texts : Texts env session (handleRm session arg) := by
  unfold handleRm
  split
  · exact reply_texts id (.inr rfl) (by decide)
  · refine call_texts rfl (by simp) ?_
    intro ok
    cases ok with
    | false => exact reply_texts id (.inr rfl) (by decide)
    | true => exact reply_texts id (.inl rfl) (by decide)

theorem handleMkdir_texts : Texts env session (handleMkdir session arg) := by
  unfold handleMkdir
  split
  · exact reply_texts id (.inr rfl) (by decide)
  · refine call_texts rfl (by simp) ?_
    intro ok
    cases ok with
    | false => exact reply_texts id (.inr rfl) (by decide)
    | true => exact reply_texts id (.inl rfl) (by decide)

theorem withArg_texts {packet : Packet} {missing : Bytes} {handler : Session → Bytes → Io (Rc × Session)}
    (hmissing : missing.length < maxPacketPayload.toNat) (hh : ∀ arg, Texts env session (handler session arg)) :
    Texts env session (withArg session packet missing handler) := by
  unfold withArg
  split
  · exact reply_texts id (.inr rfl) hmissing
  · exact hh _

end Handlers

/-- The commands that are answered with a text. -/
def IsText (type : CmdType) : Prop := type = .pwd ∨ type = .cd ∨ type = .ls ∨ type = .rm ∨ type = .mkdir

/-- **A text command is answered with one packet.** -/
theorem dispatchCommand_texts {env : Env} {session : Session} {packet : Packet} {type : CmdType} (his : packet.Is type)
    (htype : IsText type) (hshort : session.currentPath.length < pathMax) :
    Texts env session (dispatchCommand session packet) := by
  rw [dispatchCommand, ofCode_of_is his]
  rcases htype with rfl | rfl | rfl | rfl | rfl
  · exact handlePwd_texts hshort
  · exact withArg_texts (by decide) fun _ => handleCd_texts
  · exact handleLs_texts
  · exact withArg_texts (by decide) fun _ => handleRm_texts
  · exact withArg_texts (by decide) fun _ => handleMkdir_texts

end Server

/-! ## The client -/

namespace Client

/-- The request of a text command: its argument with the NUL, or nothing. -/
def simpleRequest (req : CommandRequest) : Packet := .of req.type .ok (if req.arg ≠ [] then req.arg ++ [0] else [])

/-- How `handle_simple_command` returns when it has read `r` and written `s`. -/
inductive TextEnd (env : Env) (req : CommandRequest) : Bytes → Bytes → Prop
  | done {q : Packet} : q.Valid → TextEnd env req q.wire (simpleRequest req).wire
  | broken {c : Call} {r s : Bytes} : env.faults c → Breaks c → TextEnd env req r s
  | garbled {bs s : Bytes} : bs.length = 20 → ¬ (TlvHeader.ofWire bs).Ok → TextEnd env req bs s

section Rules

variable {env : Env} {req : CommandRequest} {w : World}

theorem length_simpleRequest (hlen : req.arg.length < pathMax) :
    (if req.arg ≠ [] then req.arg ++ [0] else []).length ≤ maxPacketPayload.toNat := by
  have hm : pathMax ≤ maxPacketPayload.toNat := by decide
  split
  · rw [List.length_append]
    exact (Nat.succ_le_of_lt hlen).trans hm
  · exact Nat.zero_le _

theorem simpleRequest_valid (hlen : req.arg.length < pathMax) : (simpleRequest req).Valid :=
  Packet.of_valid _ _ (length_simpleRequest hlen)

/-- **How the client's text command returns.** -/
theorem wp_handleSimpleCommand (hlen : req.arg.length < pathMax) :
    wp (kernel env) (fun _ _ => True) (handleSimpleCommand req)
      (fun _ v => ∃ r s, w.proc.Since r s v.proc ∧ TextEnd env req r s) w := by
  have hrecv {fs : FS} : wp (kernel env) (fun _ _ => True) recvTextResponse
      (fun _ v => ∃ r s, w.proc.Since r s v.proc ∧ TextEnd env req r s)
      ⟨fs, w.proc.addSent (simpleRequest req).wire⟩ := by
    have hs : w.proc.Since [] (simpleRequest req).wire (w.proc.addSent (simpleRequest req).wire) :=
      (Proc.Since.refl w.proc).addSent
    refine wp_bind.2 (wp_recvPacket (fun _ _ _ _ _ => trivial) (fun _ _ _ _ _ => trivial) ?_ ?_)
    · intro fs' q _ hq
      have hend : w.proc.Since q.wire _ ((w.proc.addSent (simpleRequest req).wire).addRcvd q.wire) := hs.addRcvd
      simp only
      split
      · exact ⟨_, _, hend, .done hq⟩
      · exact ⟨_, _, hend, .done hq⟩
    · intro fs' bs q _ _ hb _
      refine ⟨_, _, hs.addRcvd, ?_⟩
      rcases hb with ⟨n, h⟩ | ⟨n, h⟩ | ⟨hl, hbad⟩
      · exact .broken h trivial
      · exact .broken h trivial
      · exact .garbled hl hbad
  have hfail {fs : FS} {pre rest : Bytes} (h : env.faults (.send rest)) :
      ∃ r s, w.proc.Since r s (⟨fs, w.proc.addSent pre⟩ : World).proc ∧ TextEnd env req r s :=
    ⟨_, _, (Proc.Since.refl w.proc).addSent, .broken h trivial⟩
  have hmax := length_simpleRequest hlen
  unfold handleSimpleCommand
  by_cases harg : req.arg ≠ []
  · rw [if_pos harg] at hmax
    have hreq : simpleRequest req = .of req.type .ok (req.arg ++ [0]) := by rw [simpleRequest, if_pos harg]
    simp only [if_pos harg]
    refine wp_bind.2 (wp_sendPacket rfl (by simp [UInt32.ofNat_add]) hmax (fun _ _ _ _ _ _ => trivial) ?_ ?_)
    · intro fs _
      rw [Option.getD_some, ← hreq]
      exact hrecv
    · intro fs pre rest _ _ _ h
      exact hfail h
  · have hreq : simpleRequest req = .of req.type .ok [] := by rw [simpleRequest, if_neg harg]
    simp only [if_neg harg]
    refine wp_bind.2 (wp_sendPacket rfl rfl (by decide) (fun _ _ _ _ _ _ => trivial) ?_ ?_)
    · intro fs _
      rw [Option.getD_none, ← hreq]
      exact hrecv
    · intro fs pre rest _ _ _ h
      exact hfail h

end Rules
end Client
end WindCloud
