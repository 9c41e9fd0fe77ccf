import WindCloud.CommandLoop
import WindCloud.Settling
import WindCloud.InStep
import WindCloud.Lib.Turns
/-!
# Client and server never wait for each other

Every packet but `FILE_DATA` hands the turn over (`Packet.hands`). The client waits for a packet only when it has handed
over more often than it was handed to, the server only when it has not done so less often: so it is in every function
that waits, whatever the other side has sent, and whichever call on a file fails.

| who    | where it waits | what it has handed over |
| ---    | ---            | ---                     |
| client | `recv_text_response` (`client_command_handle.c:98`) | the request, or `FILE_END` |
| client | the replies of `puts` and `gets` (`:220`, `:355`), the loop of `gets` (`:435`) | the request, `RESUME_POS` |
| server | `handle_request` (`handle.c:929`) | the last reply |
| server | `handle_puts` (`handle.c:676`), `handle_gets` (`:801`) | `PUTS_RESP`, `GETS_RESP` |

After a packet that was cut short the server reads nothing more, and the client's connection is taken to hold
(`never_both_wait`).
-/

namespace WindCloud

open Interaction Prog

/-- Blocks leave the turn where it is. -/
def Packet.hands (p : Packet) : Bool := decide (¬ p.Is .fileData)

theorem Packet.hands_of {type : CmdType} {status : StatusCode} {data : Bytes} :
    (Packet.of type status data).hands = decide (type ≠ .fileData) := by
  simp [Packet.hands]

/-- The process leads by `n`, counted from `b`. -/
def Leading (b : Proc) (n : Int) (p : Proc) : Prop :=
  ∃ r s, b.Since r s p ∧ Leads Packet.wire Packet.Valid Packet.hands n r s

/-- What it has read since `b` is not a start of complete packets. -/
def Garbled (b p : Proc) : Prop := ∃ r s, b.Since r s p ∧ ¬ WellFramed r

/-- The process waits for the other side only when it leads by `n`. -/
def Awaits (b : Proc) (n : Int) (w : World) : Call → Prop
  | .recv .. => Garbled b w.proc ∨ ∃ r s, b.Since r s w.proc ∧ Waits Packet.wire Packet.Valid Packet.hands n r s
  | _ => True

/-- The calls that neither read from the connection nor write to it. -/
def Call.Aside : Call → Prop
  | .recv .. | .send _ | .sendfile .. => False
  | _ => True

section Rules

variable {env : Env} {b : Proc} {f m n : Int} {w : World} {α β : Type} {Q : α → World → Prop}

theorem Leading.refl (b : Proc) : Leading b 0 b := ⟨[], [], .refl b, .nil⟩

theorem Leading.mono (h : Leading b n w.proc) (hm : m ≤ n) : Leading b m w.proc := by
  obtain ⟨r, s, hs, hl⟩ := h
  exact ⟨r, s, hs, hl.mono hm⟩

theorem Leading.aside {c : Call} {x : Res c} {v : World} (h : Leading b n w.proc) (hc : c.Aside)
    (hk : kernel env w c x v) : Leading b n v.proc := by
  obtain ⟨r, s, hs, hl⟩ := h
  refine ⟨r, s, hs.quiet hk ?_ ?_, hl⟩
  · cases c <;> first | rfl | cases hc
  · rintro wait k rfl
    cases hc

/-- Whatever has come takes the turn at most once. -/
theorem Leading.follow {p : Packet} (h : Leading b (n - p.hands.toNat) w.proc) : Leading b (n - 1) w.proc :=
  h.mono (by cases p.hands <;> simp)

/-- A call on the side. -/
theorem wp_aside {c : Call} {k : Res c → Io α} (hc : c.Aside) (h : Leading b n w.proc)
    (hk : ∀ x v, Leading b n v.proc → wp (kernel env) (Awaits b f) (k x) Q v) :
    wp (kernel env) (Awaits b f) (perform c >>= k) Q w := by
  refine wp_call.2 ⟨?_, fun x v hs => hk x v (h.aside hc hs)⟩
  cases c <;> trivial

/-- A stretch on the side. -/
theorem wp_asides {p : Io α} {k : α → Io β} {R : α → Prop} {Q : β → World → Prop} (hp : every Call.Aside p R)
    (h : Leading b n w.proc) (hk : ∀ a v, R a → Leading b n v.proc → wp (kernel env) (Awaits b f) (k a) Q v) :
    wp (kernel env) (Awaits b f) (p >>= k) Q w := by
  refine wp_bind.2 (wp_mono (every_wp (I := fun v => Leading b n v.proc) hp h ?_ ?_) fun a v ha => hk a v ha.1 ha.2)
  · intro v c hc _
    cases c <;> trivial
  · exact fun _ _ _ _ hc hs hl => hl.aside hc hs

/-- Whoever does not wait need not lead. -/
theorem wp_mute {p : Io α} {R : α → Prop} (hp : every (fun c => ∀ wait k, c ≠ .recv wait k) p R) :
    wp (kernel env) (Awaits b f) p (fun a _ => R a) w := by
  refine wp_mono (every_wp (I := fun _ => True) hp trivial ?_ fun _ _ _ _ _ _ _ => trivial) fun a v ha => ha.1
  intro v c hc _
  cases c <;> first | trivial | exact absurd rfl (hc _ _)

/-- A packet is sent, or none of it, or the connection has failed. -/
theorem wp_turnSend {type : CmdType} {status : StatusCode} {payload : Option Bytes} {len : UInt32}
    {Q : Rc → World → Prop} (hlen : len.toNat ≤ (payload.getD []).length) (h : Leading b n w.proc)
    (ok : ∀ v, Leading b (n + (decide (type ≠ .fileData)).toNat) v.proc → Q .ok v)
    (fail : ∀ v, Leading b n v.proc ∨ (∃ c, c.Net ∧ env.faults c) → Q .fail v) :
    wp (kernel env) (Awaits b f) (sendPacket type status payload len) Q w := by
  obtain ⟨r, s, hs, hl⟩ := h
  by_cases hmax : len > maxPacketPayload
  · rw [sendPacket_of_gt hmax]
    exact fail _ (.inl ⟨r, s, hs, hl⟩)
  -- only what `len` says is looked at
  have hcut : sendPacket type status payload len = sendPacket type status (payload.map (List.take len.toNat)) len := by
    unfold sendPacket
    cases payload with
    | none => rfl
    | some data => simp only [Option.map_some, List.take_take, Nat.min_self]
  rw [gt_iff_lt, UInt32.not_lt, UInt32.le_iff_toNat_le] at hmax
  have htake : ((payload.getD []).take len.toNat).length = len.toNat := by
    rw [List.length_take]
    omega
  have hdata : (payload.map (List.take len.toNat)).getD [] = (payload.getD []).take len.toNat := by
    cases payload <;> simp
  have hvalid : (Packet.of type status ((payload.getD []).take len.toNat)).Valid := Packet.of_valid _ _ (by omega)
  rw [hcut]
  refine wp_sendPacket hdata (by rw [htake, UInt32.ofNat_toNat]) (by omega) (fun _ _ _ _ _ _ => trivial) ?_ ?_
  · intro fs _
    refine ok _ ⟨r, _, hs.addSent, ?_⟩
    rw [← Packet.hands_of]
    exact hl.write hvalid
  · exact fun fs pre rest _ _ _ hf => fail _ (.inr ⟨.send rest, trivial, hf⟩)

/-- The length field of a text, which wraps. -/
theorem toNat_terminated (msg : Bytes) : (UInt32.ofNat msg.length + 1).toNat ≤ (msg ++ [0]).length := by
  rw [UInt32.toNat_add, UInt32.toNat_ofNat, List.length_append]
  have := Nat.mod_le msg.length (2 ^ 32)
  exact (Nat.mod_le _ _).trans (by simpa using this)

/-- A packet is read, or the connection has failed, or what was read is no packet. -/
theorem wp_turnRecv {wait : Wait} {Q : Rc × Packet → World → Prop} (h : Leading b n w.proc) (hf : f ≤ n)
    (ok : ∀ p v, p.Valid → Leading b (n - p.hands.toNat) v.proc → Q (.ok, p) v)
    (fail : ∀ p v, Garbled b v.proc ∨ (∃ c, c.Net ∧ env.faults c) → Q (.fail, p) v) :
    wp (kernel env) (Awaits b f) (recvPacket wait) Q w := by
  obtain ⟨r, s, hs, hl⟩ := h
  refine wp_recvPacket ?_ (fun _ _ _ _ _ => trivial) ?_ ?_
  · exact fun fs bs k _ hbs => .inr ⟨_, s, hs.addRcvd, (hl.mono hf).waits hbs.short⟩
  · exact fun fs p _ hp => ok p _ hp ⟨_, s, hs.addRcvd, hl.read hp⟩
  · rintro fs bs p _ - (⟨k, hf⟩ | ⟨k, hf⟩ | ⟨hlen, hbad⟩) -
    · exact fail _ _ (.inr ⟨.recv wait k, trivial, hf⟩)
    · exact fail _ _ (.inr ⟨.calloc k, trivial, hf⟩)
    · obtain ⟨ins, outs, hins, -, rfl, -⟩ := hl
      exact fail _ _ (.inl ⟨_, s, hs.addRcvd, fun hw => hbad (hw.header hins hlen (List.prefix_refl _))⟩)

end Rules

/-! ## The server -/

namespace Server

section Handlers

variable {env : Env} {b : Proc} {m n : Int} {w : World} {session : Session} {α : Type}

/-- What a handler leaves: the loop goes on only where the server is not behind. -/
def Evens (b : Proc) (x : Rc × Session) (v : World) : Prop := x.1 = .ok → x.2.shouldClose = false → Leading b 0 v.proc

/-- A handler that takes a turn and gives it back. -/
abbrev Turns (env : Env) (p : Io (Rc × Session)) : Prop :=
  ∀ b w, Leading b (-1) w.proc → wp (kernel env) (Awaits b 0) p (Evens b) w

theorem reply_turns {type : CmdType} {status : StatusCode} {msg : Bytes} (htype : type ≠ .fileData) :
    Turns env (reply session type status msg) := by
  intro b w h
  have hlen : (UInt32.ofNat msg.length + 1).toNat ≤ ((some (msg ++ [0])).getD []).length := toNat_terminated msg
  refine wp_bind.2 (wp_turnSend hlen h ?_ ?_)
  · intro v hv _ _
    rw [decide_eq_true htype] at hv
    exact hv
  · intro v _ hrc
    cases hrc

theorem aside_turns {c : Call} {k : Res c → Io (Rc × Session)} (hc : c.Aside) (hk : ∀ x, Turns env (k x)) :
    Turns env (perform c >>= k) := fun b _ h => wp_aside hc h fun x v hv => hk x b v hv

theorem asides_turns {p : Io α} {k : α → Io (Rc × Session)} {R : α → Prop} (hp : every Call.Aside p R)
    (hk : ∀ a, R a → Turns env (k a)) : Turns env (p >>= k) := fun b _ h => wp_asides hp h fun a v ha hv => hk a ha b v hv

/-- A handler that closes the session may leave the turn. -/
theorem closing_turns {p : Io (Rc × Session)}
    (hp : every (fun c => ∀ wait k, c ≠ .recv wait k) p fun x => x.1 = .ok → x.2.shouldClose = true) :
    wp (kernel env) (Awaits b n) p (Evens b) w := by
  refine wp_mono (wp_mute hp) fun x v hx hrc hopen => ?_
  rw [hx hrc] at hopen
  cases hopen

theorem handleCd_turns (arg : Bytes) : Turns env (handleCd session arg) := by
  unfold handleCd
  split
  · exact reply_turns (by decide)
  · refine aside_turns trivial ?_
    intro dir
    cases dir with
    | none => exact reply_turns (by decide)
    | some d => exact aside_turns trivial fun _ => reply_turns (by decide)

theorem handleLs_turns : Turns env (handleLs session) := by
  unfold handleLs
  split
  · exact reply_turns (by decide)
  · refine aside_turns trivial ?_
    intro dir
    cases dir with
    | none => exact reply_turns (by decide)
    | some d =>
      refine asides_turns (R := fun _ => True) (every_iter (fun _ => True) trivial fun l _ => ?_) ?_
      · refine every_perform trivial ?_
        intro name
        cases name with
        | none => trivial
        | some name => cases hl : l.add name <;> simp only [hl] <;> trivial
      · intro l _
        cases l <;> exact aside_turns trivial fun _ => reply_turns (by decide)

theorem handleRm_turns (arg : Bytes) : Turns env (handleRm session arg) := by
  unfold handleRm
  split
  · exact reply_turns (by decide)
  · refine aside_turns trivial ?_
    intro ok
    cases ok <;> exact reply_turns (by decide)

theorem handleMkdir_turns (arg : Bytes) : Turns env (handleMkdir session arg) := by
  unfold handleMkdir
  split
  · exact reply_turns (by decide)
  · refine aside_turns trivial ?_
    intro ok
    cases ok <;> exact reply_turns (by decide)

/-- A follow-up packet, or the session closes. -/
theorem wp_turnFollow {Q : Rc × Session × Packet → World → Prop} (h : Leading b 0 w.proc)
    (ok : ∀ p v, p.Valid → Leading b (0 - p.hands.toNat) v.proc → Q (.ok, session, p) v)
    (fail : ∀ p v, Q (.fail, session.closing, p) v) :
    wp (kernel env) (Awaits b 0) (recvFollowPacket session) Q w :=
  wp_bind.2 (wp_turnRecv h le_rfl ok fun p v _ => fail p v)

theorem uploadFinish_turns {fd : Nat} {map : Option Nat} {writeOffset : UInt64} {success : Bool} :
    Turns env (uploadFinish session fd map writeOffset success) := by
  have hmap : every Call.Aside (unmap map) fun _ => True := by
    cases map with
    | none => trivial
    | some m => exact ⟨trivial, fun _ _ _ => trivial⟩
  refine asides_turns hmap fun _ _ => ?_
  cases success with
  | true => exact aside_turns trivial fun _ => reply_turns (by decide)
  | false => exact aside_turns trivial fun _ => aside_turns trivial fun _ => reply_turns (by decide)

/-- It waits for nothing, and leaves the session as it is. -/
theorem uploadFinish_mute {fd : Nat} {map : Option Nat} {writeOffset : UInt64} {success : Bool} :
    every (fun c => ∀ wait k, c ≠ .recv wait k) (uploadFinish session fd map writeOffset success)
      fun x => x.2 = session := by
  have hreply {type : CmdType} {status : StatusCode} {msg : Bytes} :
      every (fun c => ∀ wait k, c ≠ .recv wait k) (reply session type status msg) fun x => x.2 = session := by
    refine every_bind (R := fun _ => True) ?_ fun _ _ => rfl
    exact every_mono (sendPacket_calls type status (some (msg ++ [0])) _) (by rintro _ hc wait k rfl; exact hc) fun _ => id
  have hmap : every (fun c => ∀ wait k, c ≠ .recv wait k) (unmap map) fun _ => True := by
    cases map with
    | none => trivial
    | some m => exact ⟨nofun, fun _ _ _ => trivial⟩
  refine every_bind hmap fun _ _ => ?_
  cases success with
  | true => exact every_perform nofun fun _ => hreply
  | false => exact every_perform nofun fun _ => every_perform nofun fun _ => hreply

/-- **The receive loop of an upload** takes blocks while the other side leads, and closes the session or comes to the
packet that hands the turn over. -/
theorem wp_turnReceive {totalSize writeOffset : UInt64} {map : Option Nat} (h : Leading b 0 w.proc) :
    wp (kernel env) (Awaits b 0) (receiveLoop session totalSize map writeOffset) (fun x v =>
      x.1.shouldClose = true ∨ Leading b (-1) v.proc) w := by
  refine wp_loop (fun _ v => Leading b 0 v.proc) h ?_
  intro off v hv
  refine wp_bind.2 (wp_turnFollow hv ?_ ?_)
  · intro p v' hp hv'
    simp only
    split
    · exact .inr hv'.follow
    split
    · exact .inl rfl
    rename_i hdata
    split
    · exact .inl rfl
    · rw [show p.hands = false by simpa [Packet.hands] using hdata] at hv'
      refine wp_asides (R := fun _ => True) ?_ hv' fun _ v'' _ hv'' => hv''
      unfold copyBlock
      split
      · split
        · exact ⟨trivial, fun _ _ _ => trivial⟩
        · trivial
      · trivial
  · intro p v'
    exact .inl rfl

theorem uploadReceive_turns {fd : Nat} {totalSize writeOffset : UInt64} {map : Option Nat} (h : Leading b 0 w.proc) :
    wp (kernel env) (Awaits b 0) (uploadReceive session fd totalSize map writeOffset) (Evens b) w := by
  refine wp_bind.2 (wp_mono (wp_turnReceive h) ?_)
  rintro ⟨session', off, success⟩ v (hclose | hv)
  · refine closing_turns (every_mono uploadFinish_mute (fun _ => id) ?_)
    rintro x rfl _
    exact hclose
  · exact uploadFinish_turns b v hv

theorem uploadMapped_turns {fd : Nat} {totalSize writeOffset : UInt64} (h : Leading b 0 w.proc) :
    wp (kernel env) (Awaits b 0) (uploadMapped session fd totalSize writeOffset) (Evens b) w := by
  have hgive {v : World} {msg : Bytes} (hv : Leading b 0 v.proc) : wp (kernel env) (Awaits b 0) (do
      Sys.close fd
      reply session .error .ioError msg) (Evens b) v := by
    refine wp_aside trivial hv fun _ v' hv' => ?_
    exact reply_turns (by decide) b v' (hv'.mono (by decide))
  unfold uploadMapped
  split
  · refine wp_aside trivial h ?_
    rintro (_ | _) v hv
    · exact hgive hv
    · refine wp_aside trivial hv ?_
      rintro (_ | m) v' hv'
      · exact hgive hv'
      · exact uploadReceive_turns hv'
  · exact uploadReceive_turns h

theorem uploadFrom_turns {fd : Nat} {totalSize writeOffset : UInt64} :
    Turns env (uploadFrom session fd totalSize writeOffset) := by
  intro b w h
  have hlen : (UInt32.ofNat resumeSize).toNat ≤ ((some (resumePayload writeOffset)).getD []).length := by
    rw [Option.getD_some, length_resumePayload]
    decide
  refine wp_bind.2 (wp_turnSend hlen h ?_ ?_)
  · exact fun v hv => uploadMapped_turns hv
  · exact fun v _ => closing_turns (every_perform nofun fun _ => nofun)

theorem handlePuts_turns {packet : Packet} : Turns env (handlePuts session packet) := by
  unfold handlePuts
  split
  · exact reply_turns (by decide)
  split
  · exact reply_turns (by decide)
  split
  · exact reply_turns (by decide)
  · refine aside_turns trivial ?_
    intro fd
    cases fd with
    | none => exact reply_turns (by decide)
    | some fd =>
      refine aside_turns trivial fun st => ?_
      simp only
      split
      · refine aside_turns trivial ?_
        intro ok
        cases ok with
        | false => exact aside_turns trivial fun _ => reply_turns (by decide)
        | true => exact uploadFrom_turns
      · exact uploadFrom_turns

/-- A block from a file: the whole packet is sent, or the session closes. -/
theorem wp_turnBlock {fd chunkSize : Nat} {offset : Int} {Q : Rc × Int → World → Prop} (hle : chunkSize ≤ fileBlockSize)
    (h : Leading b m w.proc) (ok : ∀ off v, Leading b m v.proc → Q (.ok, off) v) (fail : ∀ off v, Q (.fail, off) v) :
    wp (kernel env) (Awaits b n) (sendFileDataPacket fd offset chunkSize) Q w := by
  obtain ⟨r, s, hs, hl⟩ := h
  unfold sendFileDataPacket
  simp only [TlvHeader.bytes_hton]
  refine wp_bind.2 (wp_sendN (fun _ _ _ _ _ _ => trivial) ?_ fun _ _ _ _ _ _ _ => fail _ _)
  intro fs _
  refine wp_loop (fun sentTotal v => ∃ pre : Bytes, pre.length = sentTotal ∧ sentTotal ≤ chunkSize ∧
    b.Since r (s ++ (TlvHeader.of .fileData .ok (.ofNat chunkSize)).wire ++ pre) v.proc)
    ⟨[], rfl, Nat.zero_le _, by simpa using hs.addSent⟩ ?_
  rintro _ v ⟨pre, rfl, hpre, hsince⟩
  split
  · refine wp_call.2 ⟨trivial, ?_⟩
    rintro (_ | _ | k) v' ⟨fs', -, u, he, rfl⟩
    · obtain rfl := show u = _ from he
      exact ⟨pre, rfl, hpre, hsince.note⟩
    · exact fail _ _
    · obtain ⟨f, bs, -, -, -, rfl, hk, -, rfl⟩ := he
      cases bs with
      | nil => exact fail _ _
      | cons c bs =>
        refine ⟨pre ++ c :: bs, by simp, by simp at hk ⊢; omega, ?_⟩
        rw [← List.append_assoc]
        exact hsince.addSent.note
  · have hlen : pre.length = chunkSize := by omega
    refine ok _ _ ⟨r, _, hsince, ?_⟩
    have hblock := hl.write (dataPacket_valid (hlen.trans_le hle))
    have hhands : (dataPacket pre).hands = false := by simp [dataPacket, Packet.hands_of]
    have hwire : (dataPacket pre).wire = (TlvHeader.of .fileData .ok (.ofNat chunkSize)).wire ++ pre := by
      simp [dataPacket, Packet.wire, hlen]
    rwa [hhands, hwire, ← List.append_assoc, Bool.toNat_false, Nat.cast_zero, add_zero] at hblock

theorem downloadFrom_turns {fd : Nat} {totalSize resumeOffset : UInt64} :
    Turns env (downloadFrom session fd totalSize resumeOffset) := by
  intro b w h
  have hclose {v : World} : wp (kernel env) (Awaits b 0) (do
      Sys.close fd
      return (Rc.fail, session.closing)) (Evens b) v := closing_turns (every_perform nofun fun _ => nofun)
  unfold downloadFrom
  refine wp_bind.2 (wp_mono (Q := fun rc v => rc = .ok → Leading b (-1) v.proc) ?_ ?_)
  · refine wp_loop (fun _ v => Leading b (-1) v.proc) h ?_
    intro off v hv
    split
    · simp only
      refine wp_bind.2 (wp_turnBlock ?_ hv (fun off v hv => hv) fun off v => nofun)
      split <;> omega
    · exact fun _ => hv
  · rintro (_ | _) v hv
    · refine wp_aside trivial (hv rfl) fun _ v' hv' => ?_
      refine wp_bind.2 (wp_turnSend (Nat.zero_le _) hv' ?_ fun v _ => nofun)
      exact fun v hv _ _ => hv
    · exact hclose

theorem handleGets_turns (arg : Bytes) : Turns env (handleGets session arg) := by
  unfold handleGets
  split
  · exact reply_turns (by decide)
  · refine aside_turns trivial ?_
    intro fd
    cases fd with
    | none => exact reply_turns (by decide)
    | some fd =>
      refine aside_turns trivial ?_
      intro size
      cases size with
      | none => exact aside_turns trivial fun _ => reply_turns (by decide)
      | some size =>
        intro b w h
        have hclose {session : Session} {v : World} : wp (kernel env) (Awaits b 0) (do
            Sys.close fd
            return (Rc.fail, session)) (Evens b) v := closing_turns (every_perform nofun fun _ => nofun)
        have hlen : (UInt32.ofNat fileInfoSize).toNat ≤ ((some (fileInfoPayload arg (.ofNat size))).getD []).length := by
          rw [Option.getD_some, length_fileInfoPayload]
          decide
        refine wp_bind.2 (wp_turnSend hlen h ?_ fun v _ => hclose)
        intro v hv
        refine wp_bind.2 (wp_turnFollow hv ?_ fun p v => hclose)
        intro p v' _ hv'
        simp only
        split
        · exact hclose
        split
        · exact hclose
        · exact downloadFrom_turns b v' hv'.follow

theorem withArg_turns {packet : Packet} {missing : Bytes} {handler : Session → Bytes → Io (Rc × Session)}
    (h : ∀ arg, Turns env (handler session arg)) : Turns env (withArg session packet missing handler) := by
  unfold withArg
  split
  · exact reply_turns (by decide)
  · exact h _

/-- **Every request is answered in turn.** -/
theorem dispatchCommand_turns {packet : Packet} : Turns env (dispatchCommand session packet) := by
  unfold dispatchCommand
  split
  · exact reply_turns (by decide)
  · exact handleLs_turns
  · exact withArg_turns handleCd_turns
  · exact withArg_turns handleRm_turns
  · exact withArg_turns handleMkdir_turns
  · exact handlePuts_turns
  · exact withArg_turns handleGets_turns
  · exact reply_turns (by decide)

/-- A connection: whenever it waits, it is not behind. -/
theorem handleRequest_turns : wp (kernel env) (Awaits w.proc 0) (handleRequest session) (fun _ _ => True) w := by
  refine wp_loop (fun session v => session.shouldClose = false → Leading w.proc 0 v.proc) (fun _ => .refl _) ?_
  intro session v hv
  unfold handleRequestRound
  split
  · trivial
  rename_i hopen
  refine wp_bind.2 (wp_turnRecv (hv (by simpa using hopen)) le_rfl ?_ fun p v _ => trivial)
  intro p v' _ hv'
  refine wp_bind.2 (wp_mono (dispatchCommand_turns _ v' hv'.follow) ?_)
  rintro ⟨rc, next⟩ u hu
  simp only
  split
  · trivial
  · rename_i hgo
    intro hopen'
    refine hu ?_ hopen'
    cases rc with
    | ok => rfl
    | fail => exact absurd ⟨nofun, by simp [hopen']⟩ hgo

end Handlers
end Server

/-! ## The client -/

namespace Client

section Commands

variable {env : Env} {b : Proc} {w : World} {α : Type}

/-- What a command leaves. -/
def Even (b : Proc) (v : World) : Prop := Garbled b v.proc ∨ Leading b 0 v.proc

/-- A command that takes no more turns than it gives. -/
abbrev Turns (env : Env) (n : Int) (p : Io α) : Prop :=
  ∀ b w, Leading b n w.proc → wp (kernel env) (Awaits b 1) p (fun _ => Even b) w

theorem ret_turns {n : Int} {a : α} (hn : 0 ≤ n) : Turns env n (.ret a : Io α) := fun _ _ h => .inr (h.mono hn)

theorem aside_turns {n : Int} {c : Call} {k : Res c → Io α} (hc : c.Aside) (hk : ∀ x, Turns env n (k x)) :
    Turns env n (perform c >>= k) := fun b _ h => wp_aside hc h fun x v hv => hk x b v hv

/-- What is garbled stays garbled. -/
theorem wp_garbled {p : Io α} (h : Garbled b w.proc) : wp (kernel env) (Awaits b 1) p (fun _ => Even b) w := by
  refine wp_mono (every_wp (I := fun v => Garbled b v.proc) (C := fun _ => True) (Q := fun _ => True) ?_ h ?_ ?_)
    fun _ v hv => .inl hv.2
  · exact wp_stable (fun _ _ _ _ _ _ => trivial) trivial
  · intro v c _ hv
    cases c <;> first | trivial | exact .inl hv
  · rintro v c x v' - hk ⟨r, s, hs, hr⟩
    obtain ⟨⟨r', hr'⟩, s', hs'⟩ := kernel_grows hk
    refine ⟨r ++ r', s ++ s', ⟨?_, ?_⟩, ?_⟩
    · rw [← hr', hs.rcvd, List.append_assoc]
    · rw [← hs', hs.sent, List.append_assoc]
    · rintro ⟨ps, hps, hpre⟩
      exact hr ⟨ps, hps, (List.prefix_append r r').trans hpre⟩

variable (hC : ∀ c, c.Net → ¬ env.faults c)
include hC

/-- A packet that is sent, or none of it. -/
theorem send_turns {n m : Int} {type : CmdType} {status : StatusCode} {payload : Option Bytes} {len : UInt32} {k : Rc → Io α}
    (hlen : len.toNat ≤ (payload.getD []).length) (hm : m = n + (decide (type ≠ .fileData)).toNat)
    (ok : Turns env m (k .ok)) (fail : Turns env n (k .fail)) : Turns env n (sendPacket type status payload len >>= k) := by
  intro b w h
  refine wp_bind.2 (wp_turnSend hlen h ?_ ?_)
  · exact fun v hv => ok b v (hm ▸ hv)
  · rintro v (hv | ⟨c, hc, hf⟩)
    · exact fail b v hv
    · exact absurd hf (hC c hc)

/-- The client waits while it leads. -/
theorem recv_turns {k : Rc × Packet → Io α} (block : ∀ p : Packet, p.Is .fileData → Turns env 1 (k (.ok, p)))
    (other : ∀ p : Packet, ¬ p.Is .fileData → Turns env 0 (k (.ok, p))) : Turns env 1 (recvPacket .reply >>= k) := by
  intro b w h
  refine wp_bind.2 (wp_turnRecv h le_rfl ?_ ?_)
  · intro p v _ hv
    by_cases hp : p.Is .fileData
    · refine block p hp b v (hv.mono ?_)
      simp [Packet.hands, hp]
    · refine other p hp b v (hv.mono ?_)
      simp [Packet.hands, hp]
  · rintro p v (hv | ⟨c, hc, hf⟩)
    · exact wp_garbled hv
    · exact absurd hf (hC c hc)

theorem recvAny_turns {k : Rc × Packet → Io α} (h : ∀ p, Turns env 0 (k (.ok, p))) :
    Turns env 1 (recvPacket .reply >>= k) :=
  recv_turns hC (fun p _ b w hw => h p b w (hw.mono (by decide))) fun p _ => h p

theorem recvTextResponse_turns : Turns env 1 recvTextResponse := by
  refine recvAny_turns hC fun p => ?_
  simp only
  split <;> exact ret_turns le_rfl

/-- A packet that is sent to get an answer. -/
theorem ask_turns {type : CmdType} {payload : Option Bytes} {len : UInt32} {k : Rc → Io Rc} (htype : type ≠ .fileData)
    (hlen : len.toNat ≤ (payload.getD []).length) (hok : k .ok = recvTextResponse) (hfail : k .fail = .ret .fail) :
    Turns env 0 (sendPacket type .ok payload len >>= k) :=
  send_turns hC hlen (by simp [htype]) (hok ▸ recvTextResponse_turns hC) (hfail ▸ ret_turns le_rfl)

theorem handleSimpleCommand_turns {req : CommandRequest} (hreq : req.type ≠ .fileData) :
    Turns env 0 (handleSimpleCommand req) := by
  unfold handleSimpleCommand
  by_cases harg : req.arg ≠ []
  · rw [if_pos harg]
    exact ask_turns hC hreq (toNat_terminated req.arg) rfl rfl
  · rw [if_neg harg]
    exact ask_turns hC hreq (Nat.zero_le _) rfl rfl

/-! ### Transfers -/

theorem wp_turnBlocks {fd : Nat} {fileSize resumeOffset : UInt64} (h : Leading b 0 w.proc) :
    wp (kernel env) (Awaits b 1) (sendBlocks fd fileSize resumeOffset) (fun _ v => Leading b 0 v.proc) w := by
  refine wp_loop (fun _ v => Leading b 0 v.proc) h ?_
  intro off v hv
  split
  · refine wp_aside trivial hv ?_
    rintro (_ | _ | _ | ⟨c, bs⟩) v' hv'
    · exact hv'
    · exact hv'
    · exact hv'
    · have hlen : (UInt32.ofNat (c :: bs).length).toNat ≤ ((some (c :: bs)).getD []).length := by
        rw [Option.getD_some, UInt32.toNat_ofNat']
        exact Nat.mod_le _ _
      refine wp_bind.2 (wp_turnSend hlen hv' (fun u hu => ?_) ?_)
      · simpa using hu
      · rintro u (hu | ⟨e, he, hf⟩)
        · exact hu
        · exact absurd hf (hC e he)
  · exact hv

theorem uploadFrom_turns {fd : Nat} {fileSize resumeOffset : UInt64} :
    Turns env 0 (uploadFrom fd fileSize resumeOffset) := by
  refine aside_turns trivial ?_
  intro ok
  cases ok with
  | false => exact aside_turns trivial fun _ => ret_turns le_rfl
  | true =>
    intro b w h
    refine wp_bind.2 (wp_mono (wp_turnBlocks hC h) ?_)
    intro rc v hv
    cases rc with
    | fail => exact wp_aside trivial hv fun _ u hu => .inr hu
    | ok =>
      refine wp_aside trivial hv fun _ u hu => ?_
      refine ask_turns hC (by decide) (Nat.zero_le _) ?_ ?_ b u hu
      · rfl
      · rfl

theorem requestUpload_turns {fd : Nat} {baseName : Bytes} {fileSize : UInt64} :
    Turns env 0 (requestUpload fd baseName fileSize) := by
  have hgive : Turns env 0 (do
      Sys.close fd
      return Rc.fail) := aside_turns trivial fun _ => ret_turns le_rfl
  have hlen : (UInt32.ofNat fileInfoSize).toNat ≤ ((some (fileInfoPayload baseName fileSize)).getD []).length := by
    rw [Option.getD_some, length_fileInfoPayload]
    decide
  refine send_turns hC hlen rfl (recvAny_turns hC fun p => ?_) hgive
  simp only
  split
  · exact hgive
  split
  · exact hgive
  · exact uploadFrom_turns hC

theorem handlePuts_turns {req : CommandRequest} : Turns env 0 (handlePuts req) := by
  refine aside_turns trivial ?_
  intro fd
  cases fd with
  | none => exact ret_turns le_rfl
  | some fd =>
    refine aside_turns trivial ?_
    intro size
    cases size with
    | none => exact aside_turns trivial fun _ => ret_turns le_rfl
    | some size => exact requestUpload_turns hC

omit hC in
theorem writeN_asides {fd : Nat} {buf : Bytes} : every Call.Aside (writeN fd buf) fun _ => True := by
  refine every_iter (fun _ => True) trivial ?_
  intro total _
  split
  · refine every_perform trivial ?_
    rintro (_ | _ | _ | m) <;> trivial
  · trivial

/-- **The packet loop of a download** waits as long as blocks come. -/
theorem receiveBlocks_turns {fd : Nat} {localSize : UInt64} : Turns env 1 (receiveBlocks fd localSize) := by
  intro b w h
  refine wp_loop (fun _ v => Leading b 1 v.proc) h ?_
  intro size v hv
  refine wp_bind.2 (wp_turnRecv hv le_rfl ?_ ?_)
  · intro p v' _ hv'
    have heven : Even b v' := .inr hv'.follow
    simp only
    split
    · exact heven
    split
    · exact heven
    split
    · exact heven
    · rename_i hdata
      rw [show p.hands = false by simpa [Packet.hands] using hdata] at hv'
      refine wp_asides writeN_asides hv' ?_
      rintro (_ | _) u - hu
      · exact hu
      · exact .inr (hu.mono (by decide))
  · rintro p v' (hv' | ⟨c, hc, hf⟩)
    · exact .inl hv'
    · exact absurd hf (hC c hc)

theorem downloadTo_turns {fd : Nat} {localSize : UInt64} : Turns env 0 (downloadTo fd localSize) := by
  have hgive : Turns env 0 (do
      Sys.close fd
      return Rc.fail) := aside_turns trivial fun _ => ret_turns le_rfl
  refine aside_turns trivial ?_
  intro ok
  cases ok with
  | false => exact hgive
  | true =>
    have hlen : (UInt32.ofNat resumeSize).toNat ≤ ((some (resumePayload localSize)).getD []).length := by
      rw [Option.getD_some, length_resumePayload]
      decide
    refine send_turns hC hlen rfl ?_ hgive
    intro b w h
    refine wp_bind.2 (wp_mono (receiveBlocks_turns hC b w h) ?_)
    rintro rc v (hv | hv)
    · exact wp_garbled hv
    · exact wp_aside trivial hv fun _ u hu => .inr hu

theorem handleGets_turns {req : CommandRequest} : Turns env 0 (handleGets req) := by
  have hgive {fd : Nat} : Turns env 0 (do
      Sys.close fd
      return Rc.fail) := aside_turns trivial fun _ => ret_turns le_rfl
  have hlen : (UInt32.ofNat req.arg.length + 1).toNat ≤ ((some (req.arg ++ [0])).getD []).length := toNat_terminated req.arg
  refine send_turns hC hlen rfl (recvAny_turns hC fun p => ?_) (ret_turns le_rfl)
  simp only
  split
  · exact ret_turns le_rfl
  split
  · exact ret_turns le_rfl
  refine aside_turns trivial ?_
  intro fd
  cases fd with
  | none => exact ret_turns le_rfl
  | some fd =>
    refine aside_turns trivial fun st => ?_
    split
    · refine aside_turns trivial ?_
      intro ok
      cases ok with
      | false => exact hgive
      | true => exact downloadTo_turns hC
    · exact downloadTo_turns hC

/-- **Every command takes its turns back.** -/
theorem processCommand_turns {input : Bytes} : Turns env 0 (processCommand input) := by
  unfold processCommand
  split
  · exact ret_turns le_rfl
  split
  case _ htype => exact handleSimpleCommand_turns hC (by simp [htype])
  case _ htype => exact handleSimpleCommand_turns hC (by simp [htype])
  case _ htype => exact handleSimpleCommand_turns hC (by simp [htype])
  case _ htype => exact handleSimpleCommand_turns hC (by simp [htype])
  case _ htype => exact handleSimpleCommand_turns hC (by simp [htype])
  · split
    · exact ret_turns le_rfl
    · exact handlePuts_turns hC
  · split
    · exact ret_turns le_rfl
    · exact handleGets_turns hC
  · exact ret_turns le_rfl

/-- The whole session: whenever the client waits, it leads. -/
theorem commandLoop_turns {stdin : Bytes} : Turns env 0 (commandLoop stdin) := by
  intro b w h
  refine wp_loop (fun _ v => Even b v) (.inr h) ?_
  intro stdin v hv
  unfold commandRound
  split
  · exact hv
  simp only
  split
  · exact hv
  split
  · exact hv
  refine wp_bind.2 (wp_mono ?_ fun _ u hu => hu)
  rcases hv with hv | hv
  · exact wp_garbled hv
  · exact processCommand_turns hC b v hv

end Commands
end Client

/-! ## Both -/

section Both

open Server

variable {envC envS : Env} {session : Session} {stdin : Bytes} {wc wc' v w : World}

/-- **Client and server never wait for each other.** When both are in `recv`, something is under way: that is so at any
time of any session in which the client's `send`, its `recv` and its allocation of a payload do not fail, whatever the
user types, however the reads and writes are cut, and also where a call on a file has left the two out of step. -/
theorem never_both_wait (hC : ∀ c, c.Net → ¬ envC.faults c) (hsync : Synced wc.proc v.proc) {waitC waitS : Wait}
    {m n : Nat} {k : IoRes Bytes → Io Unit} {k' : IoRes Bytes → Io Rc}
    (hrun : DuplexSteps (side envC) (side envS) ((Client.commandLoop stdin, wc), (handleRequest session, v))
      ((.call (.recv waitC m) k, wc'), (.call (.recv waitS n) k', w))) : ¬ Synced wc'.proc w.proc := by
  intro hdrained
  have hcausal : Duplex.Causal (side envC) (side envS) ((Client.commandLoop stdin, wc), (handleRequest session, v)) := by
    constructor
    · show wc.proc.rcvd <+: v.proc.sent
      rw [hsync.toClient]
    · show v.proc.rcvd <+: wc.proc.sent
      rw [hsync.toServer]
  obtain ⟨hclient, hserver, -⟩ := Duplex.reach hrun hcausal
  -- what each has read is what the other has written
  have hcross {r s r' s' : Bytes} (hc : wc.proc.Since r s wc'.proc) (hs : v.proc.Since r' s' w.proc) : r = s' ∧ s = r' := by
    constructor
    · have := hc.rcvd.symm.trans (hdrained.toClient.trans hs.sent)
      rwa [hsync.toClient, List.append_cancel_left_eq] at this
    · have := hc.sent.symm.trans (hdrained.toServer.symm.trans hs.rcvd)
      rwa [hsync.toServer, List.append_cancel_left_eq] at this
  have hawaitC : Awaits wc.proc 1 wc' (.recv waitC m) := wp_check (Client.commandLoop_turns hC _ wc (.refl _)) hclient
  have hawaitS : Awaits v.proc 0 w (.recv waitS n) := wp_check handleRequest_turns hserver
  obtain ⟨⟨rs, hrs⟩, ss, hss⟩ := steps_grow hserver
  have hsinceS : v.proc.Since rs ss w.proc := ⟨hrs.symm, hss.symm⟩
  rcases hawaitC with ⟨r, s, hc, hgarbled⟩ | ⟨r, s, hc, hwaitC⟩
  · -- the server writes packets only
    obtain ⟨rfl, -⟩ := hcross hc hsinceS
    exact hgarbled (around_framed (.inr hserver) hsinceS)
  obtain ⟨rfl, rfl⟩ := hcross hc hsinceS
  rcases hawaitS with ⟨r', s', hs, hgarbled⟩ | ⟨r', s', hs, hwaitS⟩
  · obtain ⟨rfl, rfl⟩ := hcross hc hs
    obtain ⟨_, _, -, -, ins, outs, -, houts, -, rfl, -⟩ := hwaitC
    exact hgarbled ⟨outs, houts, List.prefix_refl _⟩
  · obtain ⟨rfl, rfl⟩ := hcross hc hs
    exact hwaitC.not_both Packet.wire_code hwaitS (by decide)

/-- A user who asks for the current directory: both have come to `recv`. -/
theorem commandLoop_pwd : ∃ wc' w k k', DuplexSteps (side (.quiet fun _ => False)) (side (.quiet fun _ => False))
    ((Client.commandLoop (lit "pwd"), ⟨fun _ => none, .init⟩), (handleRequest .start, ⟨fun _ => none, .init⟩))
    ((.call (.recv .reply 20) k, wc'), (.call (.recv .request 20) k', w)) := by
  suffices h : ∃ x, DuplexSteps (side (.quiet fun _ => False)) (side (.quiet fun _ => False))
      ((Client.commandLoop (lit "pwd"), ⟨fun _ => none, .init⟩), (handleRequest .start, ⟨fun _ => none, .init⟩)) x ∧
      ∃ k k', x.1.1 = .call (.recv .reply 20) k ∧ x.2.1 = .call (.recv .request 20) k' by
    obtain ⟨⟨⟨_, wc'⟩, _, w⟩, hrun, k, k', rfl, rfl⟩ := h
    exact ⟨wc', w, k, k', hrun⟩
  have hround : Client.commandRound (lit "pwd") = Client.handleSimpleCommand ⟨.pwd, []⟩ >>= fun _ => .ret (.inl []) := by
    have hget : Client.fgets Client.maxCommandInput (lit "pwd") = some (lit "pwd", []) := by decide
    have hstrip : Client.stripNewline (lit "pwd") = lit "pwd" := by decide
    have hreq : buildCommandRequest (lit "pwd") = some ⟨.pwd, []⟩ := by decide
    simp only [Client.commandRound, hget, hstrip, if_neg (show ¬ Client.Quits (lit "pwd") by decide),
      if_neg (show ¬ lit "pwd" = [] by decide), Client.processCommand, hreq]
    rfl
  have hnil : ([] : Bytes) <+: [] := List.prefix_refl _
  refine (Duplex.backward_left _).loop ?_
  rw [hround, Client.handleSimpleCommand]
  simp only [if_neg (not_not.2 (rfl : ([] : Bytes) = []))]
  rw [bind_assoc, bind_assoc]
  refine run_sendPacket [] (Duplex.backward_left _) rfl rfl (by decide) hnil ?_
  refine (Duplex.backward_left _).loop ((Duplex.backward_right _).loop ?_)
  rw [handleRequestRound_of_open rfl]
  exact (Duplex.backward_right _).loop ⟨_, .refl, _, _, rfl, rfl⟩

/-- The request is under way. -/
theorem never_both_wait_pwd : ∃ (wc' w : World) (k : IoRes Bytes → Io Unit) (k' : IoRes Bytes → Io Rc),
    DuplexSteps (side (.quiet fun _ => False)) (side (.quiet fun _ => False))
      ((Client.commandLoop (lit "pwd"), ⟨fun _ => none, .init⟩), (handleRequest .start, ⟨fun _ => none, .init⟩))
      ((.call (.recv .reply 20) k, wc'), (.call (.recv .request 20) k', w)) ∧ ¬ Synced wc'.proc w.proc := by
  obtain ⟨wc', w, k, k', hrun⟩ := commandLoop_pwd
  exact ⟨wc', w, k, k', hrun, never_both_wait (fun _ _ => id) ⟨rfl, rfl⟩ hrun⟩

end Both
end WindCloud
