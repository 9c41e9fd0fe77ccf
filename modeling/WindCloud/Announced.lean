import WindCloud.UploadLoop
/-!
# How much of its announcement an upload sends

The block loop of the client compares `resume_offset` with the announced size before a read, but every read asks
for a whole block. So the blocks fit what was announced as long as no read gives more than is left of it
(`Client.handlePuts_announced`), which is so while the local file keeps its length (`Client.handlePuts_settled`).
A file that grows after `fstat` breaks it. The server's side of a download cuts its last block instead
(`handle.c:829-833`).

| here | there |
| --- | --- |
| `Within`    | the answers of `fstat` and `read` (`client_command_handle.c:188`, `:273`) |
| `Announced` | `resume_offset` and `file_size` in the loop (`client_command_handle.c:271-297`) |
-/

namespace WindCloud

open Interaction Prog

namespace Client

/-! ## Reads that stay within the announcement -/

/-- `fstat` answers `size`, and a read gives no more than is left of it. -/
def Within (size : Nat) (p : Proc) : (c : Call) → Res c → Prop
  | .fstat _, some n => n = size
  | .read fd _, .done bs => ∀ f, p.fds fd = some f → bs.length ≤ size - f.pos
  | _, _ => True

/-- The runs in which `size` is announced and every read stays within it. -/
def within (env : Env) (size : Nat) : Sem Call Res World := fun w c r w' =>
  kernel env w c r w' ∧ Within size w.proc c r

section Stream

variable (arg : Bytes) (size : Nat)

/-- An upload under way whose blocks fit what was announced. -/
structure Announced (r : Bytes) (p : Packet) (chunks : List Bytes) : Prop
    extends Uploading (fun _ => True) arg r size p chunks where
  fits : (resumeOf size p).toNat + chunks.flatten.length ≤ size

/-- What the client may have written when it has read `r`: part of the request, or of an upload that fits. -/
def Modest (r s : Bytes) : Prop := s <+: (uploadRequest arg size).wire ∨ ∃ p chunks, Announced arg size r p chunks ∧
  s <+: Packet.wires (uploadRequest arg size :: (dataPackets chunks ++ [endPacket]))

variable {arg size} {r r' s s' : Bytes} {p : Packet} {chunks : List Bytes}

theorem Announced.mono (h : Announced arg size r p chunks) (hr : r <+: r') : Announced arg size r' p chunks :=
  ⟨h.toUploading.mono hr, h.fits⟩

theorem Modest.mono (h : Modest arg size r s) (hr : r <+: r') (hs : s' <+: s) : Modest arg size r' s' := by
  rcases h with h | ⟨p, chunks, ha, h⟩
  · exact .inl (hs.trans h)
  · exact .inr ⟨p, chunks, ha.mono hr, hs.trans h⟩

theorem Modest.nil : Modest arg size r [] := .inl List.nil_prefix

/-- The request and the blocks read so far. -/
theorem Announced.blocks (h : Announced arg size r p chunks) :
    Modest arg size r ((uploadRequest arg size).wire ++ Packet.wires (dataPackets chunks)) := by
  refine .inr ⟨p, chunks, h, ?_⟩
  rw [Packet.wires_cons, Packet.wires_append, ← List.append_assoc]
  exact List.prefix_append _ _

/-- They go on with the end packet. -/
theorem Announced.whole (h : Announced arg size r p chunks) :
    Modest arg size r ((uploadRequest arg size).wire ++ Packet.wires (dataPackets chunks) ++ endPacket.wire) := by
  refine .inr ⟨p, chunks, h, ?_⟩
  rw [Packet.wires_cons, Packet.wires_append, ← List.append_assoc]
  simp

/-- One more block that is within what is left. -/
theorem Announced.snoc {off : Nat} {chunk : Bytes} (h : Announced arg size r p chunks)
    (hoff : off = (resumeOf size p).toNat + chunks.flatten.length) (hlt : off < size) (hne : chunk ≠ [])
    (hlen : chunk.length ≤ fileBlockSize) (hleft : chunk.length ≤ size - off)
    (hread : Reads (fun _ => True) arg off chunk) : Announced arg size r p (chunks ++ [chunk]) := by
  subst hoff
  refine ⟨{ h.toUploading with fed := .snoc h.fed hlt hne hlen hread }, ?_⟩
  rw [List.flatten_append, List.length_append, List.flatten_singleton]
  omega

/-- **The overrun check passes**: a server that resumes where it said takes every block and comes to the end. -/
theorem Announced.taken (h : Announced arg size r p chunks) (hp : loadU64 p.data ≤ .ofNat size) :
    Server.taking (.ofNat size) (loadU64 p.data).toNat (dataPackets chunks ++ [endPacket]) =
      (dataPackets chunks, true) := by
  have hoff : loadU64 p.data = resumeOf size p := (if_neg (UInt64.not_lt.2 hp)).symm
  have hdata : ∀ q ∈ dataPackets chunks, q.Is .fileData := fun q hq => (h.fed.valid q hq).2
  have hend : endPacket.Is .fileEnd := Packet.of_is.2 rfl
  have hfits : (resumeOf size p).toNat + (payloads (dataPackets chunks)).length ≤ (UInt64.ofNat size).toNat := by
    rw [payloads_dataPackets, toNat_size h.sized.1]
    exact h.fits
  rw [hoff, Server.taking_append hdata hfits, Server.taking_end hend]
  simp

end Stream

/-! ## Every run -/

/-- Whatever the call writes stays in an upload that fits. -/
def Keeping (arg : Bytes) (size : Nat) (b : Proc) (v : World) (c : Call) : Prop :=
  ∃ r s t, b.Since r s v.proc ∧ c.sends = some t ∧ Modest arg size r (s ++ t)

section Rules

variable {env : Env} {arg : Bytes} {size : Nat} {b : Proc} {w : World} {r s : Bytes} {fd : Nat} {p : Packet}
  {α β : Type} {P : World → Call → Prop}

theorem Keeping.silent {c : Call} (hs : b.Since r s w.proc) (hm : Modest arg size r s) (hc : c.sends = some []) :
    Keeping arg size b w c := ⟨r, s, [], hs, hc, by rwa [List.append_nil]⟩

theorem Keeping.after {c : Call} {x : Res c} {v : World} (h : Keeping arg size b w c)
    (hk : within env size w c x v) : ∃ r s, b.Since r s v.proc ∧ Modest arg size r s := by
  obtain ⟨r, s, t, hs, hc, hm⟩ := h
  obtain ⟨r', s', hs', hpre⟩ := hs.step hk.1 hc
  exact ⟨_, _, hs', hm.mono (List.prefix_append _ _) ((List.prefix_append_right_inj _).2 hpre)⟩

/-- A part about which the rules for every run suffice. -/
theorem wp_part {q : Io α} {k : α → Io β} {Q : β → World → Prop}
    (h : wp (kernel env) P q (fun a v => wp (within env size) P (k a) Q v) w) :
    wp (within env size) P (q >>= k) Q w :=
  wp_bind.2 (wp_weaken h (fun _ _ _ _ h => h.1) fun _ _ h => h)

theorem wp_callPart {c : Call} {k : Res c → Io β} {Q : β → World → Prop}
    (h : wp (kernel env) P (perform c >>= .ret) (fun a v => wp (within env size) P (k a) Q v) w) :
    wp (within env size) P (perform c >>= k) Q w := wp_part h

/-- A read that stays within the announcement. -/
theorem wp_readWithin {n : Nat} {k : IoRes Bytes → Io α} {Q : α → World → Prop} {f : OpenFile}
    (hP : P w (.read fd n)) (hfd : w.proc.fds fd = some f)
    (intr : ∀ fs, wp (within env size) P (k .intr) Q ⟨fs, w.proc.note (.read fd n) .intr⟩)
    (fail : ∀ fs, wp (within env size) P (k .fail) Q ⟨fs, w.proc.note (.read fd n) .fail⟩)
    (done : ∀ fs bs, bs.length ≤ n → bs.length ≤ size - f.pos → Reads (fun _ => True) f.path f.pos bs →
      wp (within env size) P (k (.done bs)) Q
        ⟨fs, (w.proc.setFd fd (some ⟨f.path, f.pos + bs.length⟩)).note (.read fd n) (.done bs)⟩) :
    wp (within env size) P (Sys.read fd n >>= k) Q w := by
  refine wp_call.2 ⟨hP, ?_⟩
  rintro x w' ⟨⟨fs, -, v, he, rfl⟩, hwithin⟩
  rcases x with _ | _ | bs
  · obtain rfl := he
    exact intr fs
  · obtain ⟨-, rfl⟩ := he
    exact fail fs
  · obtain ⟨g, hg, -, hn, hb, rfl⟩ := he
    obtain rfl : f = g := Option.some.inj (hfd.symm.trans hg)
    exact done fs bs hn (hwithin f hfd) ⟨fs, trivial, fun b h => (hb b h).1⟩

/-- What `fstat` answers is what is announced. -/
theorem wp_fstatWithin {k : Option Nat → Io α} {Q : α → World → Prop} {f : OpenFile} (hP : P w (.fstat fd))
    (hfd : w.proc.fds fd = some f)
    (fail : ∀ fs, wp (within env size) P (k none) Q ⟨fs, w.proc.note (.fstat fd) none⟩)
    (ok : ∀ fs, Sized (fun _ => True) f.path size →
      wp (within env size) P (k (some size)) Q ⟨fs, w.proc.note (.fstat fd) (some size)⟩) :
    wp (within env size) P (Sys.fstat fd >>= k) Q w := by
  refine wp_call.2 ⟨hP, ?_⟩
  rintro x w' ⟨⟨fs, -, v, he, rfl⟩, hwithin⟩
  rcases x with _ | n
  · obtain ⟨-, rfl⟩ := he
    exact fail fs
  · obtain ⟨g, hg, hn, hb, rfl⟩ := he
    obtain rfl : f = g := Option.some.inj (hfd.symm.trans hg)
    obtain rfl : n = size := hwithin
    exact ok fs ⟨hn, fs, trivial, hb⟩

/-- `close(fd); return -1;` -/
theorem within_quit (hs : b.Since r s w.proc) (hm : Modest arg size r s) :
    wp (within env size) (Keeping arg size b) (do Sys.close fd; return .fail) (fun (_ : Rc) _ => True) w :=
  wp_call.2 ⟨.silent hs hm rfl, fun _ _ _ => trivial⟩

/-- A packet that belongs to the upload. -/
theorem within_sendPacket {type : CmdType} {status : StatusCode} {payload : Option Bytes} {len : UInt32}
    {k : Rc → Io α} {Q : α → World → Prop} (data : Bytes) (hs : b.Since r s w.proc) (hp : payload.getD [] = data)
    (hlen : len = .ofNat data.length) (hmax : data.length ≤ maxPacketPayload.toNat)
    (hm : Modest arg size r (s ++ (Packet.of type status data).wire))
    (ok : ∀ fs, wp (within env size) (Keeping arg size b) (k .ok) Q
      ⟨fs, w.proc.addSent (Packet.of type status data).wire⟩)
    (fail : ∀ v s', b.Since r s' v.proc → Modest arg size r s' →
      wp (within env size) (Keeping arg size b) (k .fail) Q v) :
    wp (within env size) (Keeping arg size b) (sendPacket type status payload len >>= k) Q w := by
  have hstart {t : Bytes} (h : t <+: (Packet.of type status data).wire) : Modest arg size r (s ++ t) :=
    hm.mono (List.prefix_refl _) ((List.prefix_append_right_inj _).2 h)
  refine wp_part (wp_sendPacket hp hlen hmax ?_ ?_ ?_)
  · intro fs pre rest _ hpre _
    exact ⟨r, s ++ pre, rest, hs.addSent, rfl, by rw [List.append_assoc]; exact hstart hpre⟩
  · intro fs _
    exact ok fs
  · intro fs pre rest _ hpre _ _
    exact fail _ _ hs.addSent (hstart ((List.prefix_append _ _).trans hpre))

/-- A packet from the server. -/
theorem within_recvPacket {k : Rc × Packet → Io α} {Q : α → World → Prop} (hs : b.Since r s w.proc)
    (hm : Modest arg size r s)
    (ok : ∀ fs p, Packet.Valid p → wp (within env size) (Keeping arg size b) (k (.ok, p)) Q
      ⟨fs, w.proc.addRcvd p.wire⟩)
    (fail : ∀ v r' p, b.Since r' s v.proc → Modest arg size r' s →
      wp (within env size) (Keeping arg size b) (k (.fail, p)) Q v) :
    wp (within env size) (Keeping arg size b) (recvPacket .reply >>= k) Q w := by
  have hmore (bs : Bytes) : Modest arg size (r ++ bs) s := hm.mono (List.prefix_append _ _) (List.prefix_refl _)
  refine wp_part (wp_recvPacket ?_ ?_ ?_ ?_)
  · intro fs bs n _ _
    exact .silent hs.addRcvd (hmore bs) rfl
  · intro fs bs n _ _
    exact .silent hs.addRcvd (hmore bs) rfl
  · intro fs p _ hp
    exact ok fs p hp
  · intro fs bs p _ _ _ _
    exact fail _ _ p hs.addRcvd (hmore bs)

/-- The state between two blocks. -/
structure Between (arg : Bytes) (size : Nat) (b : Proc) (p : Packet) (chunks : List Bytes) (v : World) : Prop where
  up : Announced arg size p.wire p chunks
  since : b.Since p.wire ((uploadRequest arg size).wire ++ Packet.wires (dataPackets chunks)) v.proc

theorem within_sendBlocks {k : Rc → Io α} {Q : α → World → Prop} (hw : Between arg size b p [] w)
    (hfd : w.proc.fds fd = some ⟨arg, (resumeOf size p).toNat⟩)
    (ok : ∀ v chunks, Between arg size b p chunks v → wp (within env size) (Keeping arg size b) (k .ok) Q v)
    (fail : ∀ v s', b.Since p.wire s' v.proc → Modest arg size p.wire s' →
      wp (within env size) (Keeping arg size b) (k .fail) Q v) :
    wp (within env size) (Keeping arg size b) (sendBlocks fd (.ofNat size) (resumeOf size p) >>= k) Q w := by
  refine wp_loop (fun (off : UInt64) v => ∃ chunks, Between arg size b p chunks v ∧
    off.toNat = (resumeOf size p).toNat + chunks.flatten.length ∧ v.proc.fds fd = some ⟨arg, off.toNat⟩)
    ⟨[], hw, by simp, hfd⟩ ?_
  rintro off v ⟨chunks, hv, hoff, hfd⟩
  split
  · rename_i hlt
    rw [UInt64.lt_iff_toNat_lt, toNat_size hv.up.sized.1] at hlt
    refine wp_readWithin (.silent hv.since hv.up.blocks rfl) hfd ?_ ?_ ?_
    · intro fs
      exact ⟨chunks, ⟨hv.up, hv.since.note⟩, hoff, hfd⟩
    · intro fs
      exact fail _ _ hv.since.note hv.up.blocks
    · intro fs buf hlen hleft hread
      rcases buf with _ | ⟨x, xs⟩
      · exact ok _ chunks ⟨hv.up, hv.since.setFd⟩
      · have hne : x :: xs ≠ [] := by simp
        change wp _ _ (sendPacket _ _ (some (x :: xs)) _ >>= _) _ _
        generalize x :: xs = buf at *
        have hup : Announced arg size p.wire p (chunks ++ [buf]) := hv.up.snoc hoff hlt hne hlen hleft hread
        have hnext : (off + .ofNat buf.length).toNat = off.toNat + buf.length :=
          toNat_add_block (hlt.trans hv.up.sized.1) hlen
        have hmax : fileBlockSize ≤ maxPacketPayload.toNat := by decide
        refine within_sendPacket buf hv.since.setFd rfl rfl (hlen.trans hmax) ?_ ?_ ?_
        · rw [List.append_assoc, ← wires_blocks_snoc]
          exact hup.blocks
        · intro fs'
          refine ⟨chunks ++ [buf], ⟨hup, ?_⟩, ?_, ?_⟩
          · rw [wires_blocks_snoc, ← List.append_assoc]
            exact hv.since.setFd.addSent
          · rw [hnext, hoff]
            simp [Nat.add_assoc]
          · rw [hnext]
            simp
        · intro v s' hs hm
          exact fail v s' hs hm
  · exact ok v chunks hv

theorem within_uploadFrom (hw : Between arg size b p [] w) (hfd : w.proc.fds fd = some ⟨arg, 0⟩) :
    wp (within env size) (Keeping arg size b) (uploadFrom fd (.ofNat size) (resumeOf size p)) (fun _ _ => True) w := by
  have hlt : (resumeOf size p).toNat < 2 ^ 63 := (resumeOf_le hw.up.sized.1 p).trans_lt hw.up.sized.1
  refine wp_callPart (wp_lseek (Keeping.silent hw.since hw.up.blocks rfl) ?_ ?_)
  · intro fs _ _
    exact within_quit hw.since.note hw.up.blocks
  · intro fs f _ hf _
    obtain rfl : f = ⟨arg, 0⟩ := Option.some.inj (hf.symm.trans hfd)
    refine within_sendBlocks ⟨hw.up, hw.since.setFd⟩ (by simp [offT_of_lt hlt]) ?_ ?_
    · intro v chunks hv
      refine wp_callPart (wp_close (.silent hv.since hv.up.blocks rfl) fun fs' _ => ?_)
      refine within_sendPacket [] hv.since.setFd rfl rfl (by decide) hv.up.whole ?_ ?_
      · intro fs''
        refine within_recvPacket hv.since.setFd.addSent hv.up.whole ?_ ?_
        · intro _ q _
          simp only
          split <;> trivial
        · exact fun _ _ _ _ _ => trivial
      · exact fun _ _ _ _ => trivial
    · intro v s' hs hm
      exact within_quit hs hm

theorem within_requestUpload (hs : b.Since [] [] w.proc) (hsized : Sized (fun _ => True) arg size)
    (hfd : w.proc.fds fd = some ⟨arg, 0⟩) :
    wp (within env size) (Keeping arg size b) (requestUpload fd (safeBasename arg pathMax) (.ofNat size))
      (fun _ _ => True) w := by
  have hreq {r : Bytes} : Modest arg size r ([] ++ (uploadRequest arg size).wire) := .inl (by simp)
  refine within_sendPacket (fileInfoPayload (safeBasename arg pathMax) (.ofNat size)) hs rfl
    (by simp) (by rw [length_fileInfoPayload]; decide) hreq ?_ ?_
  · intro fs
    have hs₁ : b.Since [] (uploadRequest arg size).wire (w.proc.addSent (uploadRequest arg size).wire) := hs.addSent
    refine within_recvPacket hs₁ hreq ?_ ?_
    · intro fs₁ q hq
      have hs₂ : b.Since q.wire (uploadRequest arg size).wire
          ((w.proc.addSent (uploadRequest arg size).wire).addRcvd q.wire) := hs₁.addRcvd
      simp only
      split
      · exact within_quit hs₂ hreq
      split
      · exact within_quit hs₂ hreq
      · rename_i herr hresp
        rw [not_or, not_not, not_not] at hresp
        refine within_uploadFrom ⟨⟨⟨hsized, hq, hresp.1, hresp.2, List.prefix_refl _, .nil⟩, ?_⟩, ?_⟩ hfd
        · simpa using resumeOf_le hsized.1 q
        · simpa [dataPackets] using! hs₂
    · intro v r' q hs' hm
      exact within_quit hs' hm
  · intro v s' hs' hm
    exact within_quit hs' hm

theorem within_handlePuts {req : CommandRequest} :
    wp (within env size) (Keeping req.arg size w.proc) (handlePuts req) (fun _ _ => True) w := by
  refine wp_callPart (wp_openRead (Keeping.silent (.refl _) .nil rfl) ?_ ?_)
  · exact fun _ _ _ => trivial
  · intro fs fd _ _ _
    have hs : w.proc.Since [] [] ((w.proc.setFd fd (some ⟨req.arg, 0⟩)).note (.openFile req.arg .rdonly) (some fd)) :=
      (Proc.Since.refl _).setFd
    refine wp_fstatWithin (f := ⟨req.arg, 0⟩) (.silent hs .nil rfl) (by simp) ?_ ?_
    · exact fun _ => within_quit hs.note .nil
    · intro _ hsized
      exact within_requestUpload hs.note hsized (by simp)

/-- **The blocks fit the announcement.** In every run of the client's `handle_puts` in which no read gives more than
`file_size - resume_offset` bytes, whatever the server answers and wherever the run has come to, what has been
written is the start of a request for `size` bytes and of blocks that bring the resume point to at most `size`. A
server that resumes at the offset it answered takes all of them and never refuses one as an overrun. -/
theorem handlePuts_announced {req : CommandRequest} {q : Io Rc} {v : World}
    (hrun : Steps (within env size) (handlePuts req, w) (q, v)) : ∃ r s, w.proc.Since r s v.proc ∧
      (s <+: (uploadRequest req.arg size).wire ∨ ∃ p chunks, Announced req.arg size r p chunks ∧
        s <+: Packet.wires (uploadRequest req.arg size :: (dataPackets chunks ++ [endPacket])) ∧
        (loadU64 p.data ≤ .ofNat size → Server.taking (.ofNat size) (loadU64 p.data).toNat
          (dataPackets chunks ++ [endPacket]) = (dataPackets chunks, true))) := by
  have hwp : wp (within env size) (fun v c => ∀ x v', within env size v c x v' →
      ∃ r s, w.proc.Since r s v'.proc ∧ Modest req.arg size r s) (handlePuts req) (fun _ _ => True) w :=
    wp_weaken within_handlePuts (fun _ _ _ _ h => h) fun _ _ h _ _ hk => h.after hk
  obtain ⟨r, s, hs, hm⟩ := wp_always (I := fun v => ∃ r s, w.proc.Since r s v.proc ∧ Modest req.arg size r s) hwp
    ⟨[], [], .refl _, .nil⟩ hrun
  refine ⟨r, s, hs, ?_⟩
  rcases hm with hm | ⟨p, chunks, ha, hm⟩
  · exact .inl hm
  · exact .inr ⟨p, chunks, ha, hm, ha.taken⟩

end Rules

/-! ## A file that keeps its length -/

/-- The file at `path` has `n` bytes. -/
def HasLength (path : Bytes) (n : Nat) (fs : FS) : Prop := ∃ b, fs.Has path b ∧ b.length = n

/-- The calls of an upload: on files, no more than reading the one at `path`. -/
def Views (path : Bytes) : Call → Prop
  | .openFile q mode => q = path ∧ mode = .rdonly
  | .fstat _ | .lseek .. | .read .. | .close _ | .send _ | .recv .. | .calloc _ => True
  | _ => False

section Settled

variable {env : Env} {arg : Bytes} {size : Nat} {w w' : World} {c : Call} {x : Res c}

theorem sendPacket_views {type : CmdType} {status : StatusCode} {payload : Option Bytes} {len : UInt32} :
    every (Views arg) (sendPacket type status payload len) fun _ => True :=
  every_mono (sendPacket_calls ..) (fun c hc => by cases c <;> first | exact hc.elim | trivial) fun _ => id

theorem recvPacket_views : every (Views arg) (recvPacket .reply) fun _ => True :=
  every_mono (recvPacket_calls _) (fun c hc => by cases c <;> first | exact hc.elim | trivial) fun _ => id

theorem quit_views {fd : Nat} : every (Views arg) (do Sys.close fd; return Rc.fail) fun _ => True :=
  every_perform trivial fun _ => trivial

theorem sendBlocks_views {fd : Nat} {fileSize off : UInt64} :
    every (Views arg) (sendBlocks fd fileSize off) fun _ => True := by
  refine every_iter (fun _ => True) trivial ?_
  intro off _
  split
  · apply every_perform trivial
    rintro (_ | _ | _ | ⟨b, bs⟩)
    · trivial
    · trivial
    · trivial
    · refine every_bind sendPacket_views ?_
      intro rc _
      cases rc <;> trivial
  · trivial

theorem uploadFrom_views {fd : Nat} {fileSize off : UInt64} :
    every (Views arg) (uploadFrom fd fileSize off) fun _ => True := by
  refine every_perform trivial ?_
  intro ok
  cases ok with
  | false => exact quit_views
  | true =>
    refine every_bind sendBlocks_views ?_
    intro rc _
    cases rc with
    | fail => exact quit_views
    | ok =>
      refine every_perform trivial fun _ => every_bind sendPacket_views fun rc _ => ?_
      cases rc with
      | fail => trivial
      | ok =>
        apply every_bind recvPacket_views
        rintro ⟨_ | _, packet⟩ _
        · simp only
          split <;> trivial
        · trivial

theorem handlePuts_views {req : CommandRequest} : every (Views req.arg) (handlePuts req) fun _ => True := by
  refine every_perform ⟨rfl, rfl⟩ ?_
  intro fd
  cases fd with
  | none => trivial
  | some fd =>
    refine every_perform trivial ?_
    intro st
    cases st with
    | none => exact quit_views
    | some size =>
      refine every_bind sendPacket_views ?_
      intro rc _
      cases rc with
      | fail => exact quit_views
      | ok =>
        apply every_bind recvPacket_views
        rintro ⟨_ | _, packet⟩ _
        · simp only
          split
          · exact quit_views
          split
          · exact quit_views
          · exact uploadFrom_views
        · exact quit_views

/-- Every open file is the one at `path`, and it has `size` bytes. -/
structure Settled (path : Bytes) (size : Nat) (w : World) : Prop where
  length : HasLength path size w.fs
  files : ∀ fd f, w.proc.fds fd = some f → f.path = path

/-- A file open after a call was open before it, or has just been opened. -/
theorem effect_files {faults : Call → Prop} {fd : Nat} {f : OpenFile} (h : Effect faults w c x w')
    (hf : w'.proc.fds fd = some f) :
    (∃ g, w.proc.fds fd = some g ∧ g.path = f.path) ∨
      c = .openFile f.path .rdonly ∨ c = .openFile f.path .rdwrCreat := by
  have hset (p : Proc) (fd' : Nat) (g : Option OpenFile) : (p.setFd fd' g).fds fd = if fd = fd' then g else p.fds fd :=
    Function.update_apply ..
  unfold Effect at h
  split at h <;> grind [Proc.addRcvd, Proc.addSent, Proc.setDir, Proc.setMap]

/-- Such a call leaves it so, and its answer is within the size. -/
theorem Settled.step (h : Settled arg size w)
    (hrely : ∀ {fs fs'}, env.rely fs fs' → HasLength arg size fs → HasLength arg size fs')
    (hc : Views arg c) (hk : kernel env w c x w') : Settled arg size w' ∧ Within size w.proc c x := by
  obtain ⟨fs, hr, v, he, rfl⟩ := hk
  have hlen : HasLength arg size fs := hrely hr h.length
  have hstill : v.fs = fs := effect_still he fun hch => by
    cases c with
    | openFile q mode =>
      obtain rfl := hc.2
      exact hch
    | _ => first | exact hch | exact hc
  have hsettled : Settled arg size v := by
    refine ⟨hstill ▸ hlen, fun fd f hf => ?_⟩
    rcases effect_files he hf with ⟨g, hg, hgf⟩ | rfl | rfl
    · exact hgf ▸ h.files fd g hg
    · exact hc.1
    · exact hc.1
  refine ⟨?_, ?_⟩
  · split
    · exact ⟨hsettled.length, hsettled.files⟩
    · exact hsettled
  · obtain ⟨b, hhas, hl⟩ := hlen
    unfold Within
    split
    · obtain ⟨f, hf, -, hb, -⟩ := he
      exact (hb b (h.files _ f hf ▸ hhas)).trans hl
    · intro g hg
      obtain ⟨f, hf, -, -, hb, -⟩ := he
      obtain rfl : f = g := Option.some.inj (hf.symm.trans hg)
      have hpre := (hb b (h.files _ f hf ▸ hhas)).1.length_le
      rwa [List.length_drop, hl] at hpre
    · trivial

/-- **While the file keeps its length, every read stays within the announcement.** -/
theorem handlePuts_settled {req : CommandRequest} {q : Io Rc} {v : World}
    (hrely : ∀ {fs fs'}, env.rely fs fs' → HasLength req.arg size fs → HasLength req.arg size fs')
    (h : Settled req.arg size w) (hrun : Steps (kernel env) (handlePuts req, w) (q, v)) :
    Steps (within env size) (handlePuts req, w) (q, v) := by
  have hwp : wp (kernel env) (fun v c => Views req.arg c ∧ Settled req.arg size v) (handlePuts req)
      (fun _ v => True ∧ Settled req.arg size v) w :=
    every_wp handlePuts_views h (fun _ _ hc hv => ⟨hc, hv⟩) fun _ _ _ _ hc hk hv => (hv.step hrely hc hk).1
  have hstep (u : World) (c : Call) (x : Res c) (u' v : World) (hp : Views req.arg c ∧ Settled req.arg size u)
      (hk : kernel env u c x u') (he : u = v) : ∃ v', within env size v c x v' ∧ u' = v' :=
    ⟨u', he ▸ ⟨hk, (hp.2.step hrely hp.1 hk).2⟩, rfl⟩
  obtain ⟨_, hrun', rfl⟩ := wp_sim (R := Eq) hwp hstep hrun rfl
  exact hrun'

end Settled

/-! ### Two runs -/

section Runs

variable {env : Env} {avail : Bytes} {R : Io Rc × World → Prop} {fs : FS} {F : Content} {off : UInt64}

/-- The request is sent and the offset comes back. -/
theorem run_handlePuts (hR : Backward (fed env avail) R) (hin : (resumePacket .putsResp off).wire <+: avail)
    (hoff : ¬ off > .ofNat F.bytes.length)
    (h : ∀ p' : Proc, p'.rcvd = (resumePacket .putsResp off).wire →
      p'.sent = (uploadRequest putsF.arg F.bytes.length).wire → p'.fds 0 = some ⟨putsF.arg, 0⟩ →
      R (uploadFrom 0 (.ofNat F.bytes.length) off, ⟨fs.put putsF.arg F, p'⟩)) :
    R (handlePuts putsF, ⟨fs.put putsF.arg F, .init⟩) := by
  have hnil : ([] : Bytes) <+: avail := List.nil_prefix
  rw [handlePuts]
  apply run_openRead hR hnil 0 (by simp) rfl
  refine run_fstat hR hnil (by simp [Proc.init]; rfl) rfl ?_
  simp only
  rw [requestUpload]
  refine run_sendPacket (fileInfoPayload (safeBasename putsF.arg pathMax) (.ofNat F.bytes.length)) hR rfl (by simp)
    (by rw [length_fileInfoPayload]; decide) hnil ?_
  refine run_recvPacket hR (resumePacket_valid _ _) hin ?_
  have herr : ¬ (resumePacket .putsResp off).Is .error := by simp [resumePacket]
  have hok : ¬ (¬ (resumePacket .putsResp off).Is .putsResp ∨
      (resumePacket .putsResp off).header.dataLen ≠ .ofNat resumeSize) := by
    rintro (h | h)
    · exact h (Packet.of_is.2 rfl)
    · exact h (resumePacket_dataLen _ _)
  have hload : loadU64 (resumePacket .putsResp off).data = off := by simp [resumePacket]
  simp only [if_neg herr, if_neg hok, hload, if_neg hoff]
  refine h _ ?_ ?_ ?_
  · simp [Proc.init]
  · simp [Proc.init, uploadRequest, fileInfoPacket]
  · simp

/-- The file `f` of two bytes. -/
def pair : Content := ⟨[7, 8], by decide⟩

/-- Where the second of two bytes is missing, it is sent, and no read gives more. -/
theorem handlePuts_announced_second : ∃ v : World,
    Steps (within (.quiet fun _ => False) 2) (handlePuts putsF, ⟨FS.put (fun _ => none) putsF.arg pair, .init⟩)
      (.ret .ok, v) ∧
    ∃ r s, Proc.init.Since r s v.proc ∧ (s <+: (uploadRequest putsF.arg 2).wire ∨ ∃ p chunks,
      Announced putsF.arg 2 r p chunks ∧
      s <+: Packet.wires (uploadRequest putsF.arg 2 :: (dataPackets chunks ++ [endPacket])) ∧
      (loadU64 p.data ≤ .ofNat 2 → Server.taking (.ofNat 2) (loadU64 p.data).toNat
        (dataPackets chunks ++ [endPacket]) = (dataPackets chunks, true))) := by
  have hR : Backward (fed (.quiet fun _ => False) ((resumePacket .putsResp 1).wire ++ (Server.putsReply true).wire)) _ :=
    backward_kernel fun c : Io Rc × World => c.1 = .ret .ok
  have hrun : ∃ c, Steps (kernel (.quiet fun _ => False))
      (handlePuts putsF, ⟨FS.put (fun _ => none) putsF.arg pair, .init⟩) c ∧ c.1 = .ret .ok := by
    refine run_handlePuts hR (List.prefix_append _ _) (by decide) ?_
    intro p' hr _ hfd
    have hin : p'.rcvd <+: (resumePacket .putsResp 1).wire ++ (Server.putsReply true).wire := hr ▸ List.prefix_append _ _
    rw [← bind_ret (uploadFrom ..)]
    refine run_uploadFrom hR hin hfd rfl (by decide) (by decide) ?_
    intro p'' hr' _
    exact run_recvTextResponse hR (Server.putsReply_valid true) (.inl (by simp)) (by rw [hr', hr]) ⟨_, .refl, rfl⟩
  obtain ⟨⟨_, v⟩, hrun, rfl⟩ := hrun
  have hsettled : Settled putsF.arg 2 ⟨FS.put (fun _ => none) putsF.arg pair, .init⟩ :=
    ⟨⟨pair.bytes, FS.put_has .., rfl⟩, nofun⟩
  have hwithin := handlePuts_settled (fun h hl => h ▸ hl) hsettled hrun
  exact ⟨v, hwithin, handlePuts_announced hwithin⟩

/-- The file `f` has one byte when it is measured and two when it is read: both are sent, and the server refuses
the block. -/
theorem handlePuts_overruns : ∃ q v, Steps (kernel (.busy fun _ => False))
      (handlePuts putsF, ⟨FS.put (fun _ => none) putsF.arg (Server.byteFile 7), .init⟩) (q, v) ∧
    v.proc.rcvd = (resumePacket .putsResp 0).wire ∧
    v.proc.sent = Packet.wires [uploadRequest putsF.arg 1, dataPacket [7, 8]] ∧
    ¬ (dataPacket [7, 8]).data.length ≤ 1 - 0 ∧
    Server.taking 1 0 [dataPacket [7, 8], endPacket] = ([], false) := by
  have hR : Backward (fed (.busy fun _ => False) (resumePacket .putsResp 0).wire) _ :=
    backward_kernel fun c : Io Rc × World => c.2.proc.rcvd = (resumePacket .putsResp 0).wire ∧
      c.2.proc.sent = Packet.wires [uploadRequest putsF.arg 1, dataPacket [7, 8]]
  have hrun : ∃ c, Steps (kernel (.busy fun _ => False))
      (handlePuts putsF, ⟨FS.put (fun _ => none) putsF.arg (Server.byteFile 7), .init⟩) c ∧
      c.2.proc.rcvd = (resumePacket .putsResp 0).wire ∧
      c.2.proc.sent = Packet.wires [uploadRequest putsF.arg 1, dataPacket [7, 8]] := by
    refine run_handlePuts hR (List.prefix_refl _) (by decide) ?_
    intro p' hr hs hfd
    have hin : p'.rcvd <+: (resumePacket .putsResp 0).wire := hr ▸ List.prefix_refl _
    rw [uploadFrom]
    apply run_lseek hR hin hfd (by decide)
    simp only
    apply hR.iter
    rw [if_pos (by decide), bind_assoc, perform_bind]
    -- somebody appends a byte before the read
    have hread (q : Proc) (hq : q.fds 0 = some ⟨putsF.arg, 0⟩) : Effect (fun _ => False)
        ⟨FS.put (fun _ => none) putsF.arg pair, q⟩ (.read 0 fileBlockSize) (.done [7, 8])
        ⟨FS.put (fun _ => none) putsF.arg pair, q.setFd 0 (some ⟨putsF.arg, 2⟩)⟩ :=
      effect_read hq rfl (List.prefix_refl [7, 8]) (by simp) (by decide)
    refine hR.call ⟨⟨_, trivial, _, hread _ (by simp; rfl), rfl⟩, hin⟩ ?_
    simp only
    rw [bind_assoc]
    apply run_sendPacket [7, 8] hR rfl rfl (by decide) hin
    exact ⟨_, .refl, hr, by simp [hs, Call.traced, Server.byteFile_bytes, dataPacket]⟩
  obtain ⟨⟨q, v⟩, hrun, hr, hs⟩ := hrun
  exact ⟨q, v, hrun, hr, hs, by decide, by decide⟩

end Runs
end Client
end WindCloud
