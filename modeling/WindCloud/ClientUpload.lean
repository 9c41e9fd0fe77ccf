import WindCloud.UploadSafety
/-!
# What the client's `handle_puts` can send

The client's side of an upload, said of the two streams alone: `Feeds` is what it has written,
given what it has read, at any moment; `UploadEnd` is how it returns. The local file may change
all the time; `I` is what is known of the file system throughout, and a block is something that
a read of the file could give at that offset while `I` held.
-/

namespace WindCloud

open Interaction Prog

namespace Client

/-! ## The stream of an upload -/

section Stream

variable (I : FS → Prop) (arg : Bytes)

/-- Blocks read one after the other from the offset `off` on, each before `size` was reached. -/
inductive Fed (size off : Nat) : List Bytes → Prop
  | nil : Fed size off []
  | snoc {chunks : List Bytes} {chunk : Bytes} : Fed size off chunks → off + chunks.flatten.length < size →
      chunk ≠ [] → chunk.length ≤ fileBlockSize → Reads I arg (off + chunks.flatten.length) chunk →
      Fed size off (chunks ++ [chunk])

def uploadRequest (size : Nat) : Packet := fileInfoPacket .putsReq (safeBasename arg pathMax) (.ofNat size)

/-- The offset the client takes from `PUTS_RESP`. -/
def resumeOf (size : Nat) (p : Packet) : UInt64 :=
  if loadU64 p.data > .ofNat size then 0 else loadU64 p.data

/-- An upload under way: the size it announced, the answer it read (in `r`), the blocks read. -/
structure Uploading (r : Bytes) (size : Nat) (p : Packet) (chunks : List Bytes) : Prop where
  sized : Sized I arg size
  valid : p.Valid
  resp : p.Is .putsResp
  len : p.header.dataLen = .ofNat resumeSize
  read : p.wire <+: r
  fed : Fed I arg size (resumeOf size p).toNat chunks

/-- Nothing is left to read. -/
def Finished (size : Nat) (p : Packet) (chunks : List Bytes) : Prop :=
  size ≤ (resumeOf size p).toNat + chunks.flatten.length ∨
    Ends I arg ((resumeOf size p).toNat + chunks.flatten.length)

/-- The packets of an upload, as far as it has come when it has read `r`. -/
inductive Feed (r : Bytes) : List Packet → Prop
  | request {size : Nat} : Sized I arg size → Feed r [uploadRequest arg size]
  | blocks {size : Nat} {p : Packet} {chunks : List Bytes} : Uploading I arg r size p chunks →
      Feed r (uploadRequest arg size :: dataPackets chunks)
  | whole {size : Nat} {p : Packet} {chunks : List Bytes} : Uploading I arg r size p chunks →
      Finished I arg size p chunks → Feed r (uploadRequest arg size :: (dataPackets chunks ++ [endPacket]))

/-- The client may have written `s` when it has read `r`. -/
def Feeds (r s : Bytes) : Prop := s = [] ∨ ∃ ps, Feed I arg r ps ∧ s <+: Packet.wires ps

variable {I arg} {r r' s s' : Bytes} {size off : Nat} {p : Packet} {chunks : List Bytes}

theorem Uploading.mono (h : Uploading I arg r size p chunks) (hr : r <+: r') : Uploading I arg r' size p chunks :=
  { h with read := h.read.trans hr }

theorem Feed.mono {ps : List Packet} (h : Feed I arg r ps) (hr : r <+: r') : Feed I arg r' ps := by
  cases h with
  | request h => exact .request h
  | blocks h => exact .blocks (h.mono hr)
  | whole h hf => exact .whole (h.mono hr) hf

theorem Feeds.mono (h : Feeds I arg r s) (hr : r <+: r') (hs : s' <+: s) : Feeds I arg r' s' := by
  rcases h with rfl | ⟨ps, hf, h⟩
  · exact .inl (List.prefix_nil.1 hs)
  · exact .inr ⟨ps, hf.mono hr, hs.trans h⟩

theorem Fed.valid (h : Fed I arg size off chunks) : ∀ p ∈ dataPackets chunks, p.Valid ∧ p.Is .fileData := by
  induction h with
  | nil => simp [dataPackets]
  | snoc _ _ _ hlen _ ih =>
    intro p hp
    rw [dataPackets_append, List.mem_append] at hp
    rcases hp with hp | hp
    · exact ih p hp
    · obtain rfl : p = _ := by simpa [dataPackets, dataPacket] using hp
      have hmax : fileBlockSize ≤ maxPacketPayload.toNat := by decide
      exact ⟨Packet.of_valid _ _ (hlen.trans hmax), Packet.of_is.2 rfl⟩

theorem uploadRequest_valid (arg : Bytes) (size : Nat) : (uploadRequest arg size).Valid := fileInfoPacket_valid _ _ _

theorem uploadRequest_is (arg : Bytes) (size : Nat) : (uploadRequest arg size).Is .putsReq := Packet.of_is.2 rfl

/-- The packets of an upload: the request, data and perhaps the end. -/
theorem Feed.shape {ps : List Packet} (h : Feed I arg r ps) : ∃ size chunks tail, Sized I arg size ∧
    ps = uploadRequest arg size :: (dataPackets chunks ++ tail) ∧ (tail = [] ∨ tail = [endPacket]) ∧
      ∀ p ∈ dataPackets chunks, p.Valid ∧ p.Is .fileData := by
  cases h with
  | @request size h => exact ⟨size, [], [], h, rfl, .inl rfl, by simp [dataPackets]⟩
  | @blocks size p chunks h => exact ⟨size, chunks, [], h.sized, by simp, .inl rfl, h.fed.valid⟩
  | @whole size p chunks h _ => exact ⟨size, chunks, [endPacket], h.sized, rfl, .inr rfl, h.fed.valid⟩

theorem Feed.valid {ps : List Packet} (h : Feed I arg r ps) : ∀ p ∈ ps, p.Valid := by
  obtain ⟨size, chunks, tail, -, rfl, htail, hv⟩ := h.shape
  intro p hp
  simp only [List.mem_cons, List.mem_append] at hp
  rcases hp with rfl | hp | hp
  · exact uploadRequest_valid _ _
  · exact (hv p hp).1
  · rcases htail with rfl | rfl
    · simp at hp
    · obtain rfl := List.mem_singleton.1 hp
      exact endPacket_valid

end Stream

/-! ## The calls and the returns -/

/-- Whatever the call writes stays in the stream of an upload. -/
def Feeding (I : FS → Prop) (arg : Bytes) (b : Proc) (v : World) (c : Call) : Prop :=
  ∃ r s t, b.Since r s v.proc ∧ c.sends = some t ∧ Feeds I arg r (s ++ t)

/-- The calls whose failure ends an upload after its start. -/
def Breaks : Call → Prop
  | .send _ | .recv .. | .calloc _ | .lseek .. | .read .. => True
  | _ => False

/-- How `handle_puts` returns when it has read `r` and written `s`. -/
inductive UploadEnd (env : Env) (I : FS → Prop) (arg : Bytes) : Rc → Bytes → Bytes → Prop
  /-- The local file could not be opened or measured. -/
  | unopened : UploadEnd env I arg .fail [] []
  | refused {size : Nat} {p : Packet} : Sized I arg size → p.Valid → p.Is .error →
      UploadEnd env I arg .fail p.wire (uploadRequest arg size).wire
  | odd {size : Nat} {p : Packet} : Sized I arg size → p.Valid → ¬ p.Is .error →
      ¬ (p.Is .putsResp ∧ p.header.dataLen = .ofNat resumeSize) →
      UploadEnd env I arg .fail p.wire (uploadRequest arg size).wire
  | done {size : Nat} {p q : Packet} {chunks : List Bytes} : Uploading I arg p.wire size p chunks →
      Finished I arg size p chunks → q.Valid →
      UploadEnd env I arg (if q.Is .ack ∨ q.Is .error then .ok else .fail) (p.wire ++ q.wire)
        (Packet.wires (uploadRequest arg size :: (dataPackets chunks ++ [endPacket])))
  | broken {c : Call} {r s : Bytes} : env.faults c → Breaks c → UploadEnd env I arg .fail r s
  | garbled {ps : List Packet} {bs s : Bytes} : (∀ p ∈ ps, Packet.Valid p) → bs.length = 20 →
      ¬ (TlvHeader.ofWire bs).Ok → UploadEnd env I arg .fail (Packet.wires ps ++ bs) s

section Rules

variable {env : Env} {I : FS → Prop} {arg : Bytes} {b : Proc} {w : World} {r s : Bytes}

/-- A state from which the next call writes nothing. -/
theorem Feeding.silent {c : Call} (hs : b.Since r s w.proc) (hf : Feeds I arg r s) (hc : c.sends = some []) :
    Feeding I arg b w c := ⟨r, s, [], hs, hc, by rwa [List.append_nil]⟩

/-- **What has been written is the start of an upload**, after any call too. -/
theorem Feeding.after {c : Call} {x : Res c} {v : World} (h : Feeding I arg b w c) (hk : kernel env w c x v) :
    ∃ r s, b.Since r s v.proc ∧ Feeds I arg r s := by
  obtain ⟨r, s, t, hs, hc, hf⟩ := h
  obtain ⟨r', s', hs', hpre⟩ := hs.step hk hc
  exact ⟨_, _, hs', hf.mono (List.prefix_append _ _) ((List.prefix_append_right_inj _).2 hpre)⟩

theorem wp_feedPacket {type : CmdType} {status : StatusCode} {payload : Option Bytes} {len : UInt32}
    (data : Bytes) {Q : Rc → World → Prop} (hI : ∀ {fs fs'}, env.rely fs fs' → I fs → I fs') (hw : I w.fs)
    (hs : b.Since r s w.proc) (hp : payload.getD [] = data) (hlen : len = .ofNat data.length)
    (hmax : data.length ≤ maxPacketPayload.toNat)
    (hf : Feeds I arg r (s ++ (Packet.of type status data).wire))
    (ok : ∀ fs, I fs → Q .ok ⟨fs, w.proc.addSent (Packet.of type status data).wire⟩)
    (fail : ∀ fs pre rest, Feeds I arg r (s ++ pre) → env.faults (.send rest) → Q .fail ⟨fs, w.proc.addSent pre⟩) :
    wp (kernel env) (Feeding I arg b) (sendPacket type status payload len) Q w := by
  have hstart {t : Bytes} (h : t <+: (Packet.of type status data).wire) : Feeds I arg r (s ++ t) :=
    hf.mono (List.prefix_refl _) ((List.prefix_append_right_inj _).2 h)
  refine wp_sendPacket hp hlen hmax ?_ ?_ ?_
  · intro fs pre rest _ hpre _
    exact ⟨r, s ++ pre, rest, hs.addSent, rfl, by rw [List.append_assoc]; exact hstart hpre⟩
  · intro fs hr
    exact ok fs (hI hr hw)
  · intro fs pre rest _ hpre _ hfault
    exact fail fs pre rest (hstart ((List.prefix_append _ _).trans hpre)) hfault

theorem wp_takePacket {Q : Rc × Packet → World → Prop} (hI : ∀ {fs fs'}, env.rely fs fs' → I fs → I fs')
    (hw : I w.fs) (hs : b.Since r s w.proc) (hf : Feeds I arg r s)
    (ok : ∀ fs p, I fs → Packet.Valid p → Q (.ok, p) ⟨fs, w.proc.addRcvd p.wire⟩)
    (fail : ∀ fs bs p, Feeds I arg (r ++ bs) s → Broken env .reply bs → Q (.fail, p) ⟨fs, w.proc.addRcvd bs⟩) :
    wp (kernel env) (Feeding I arg b) (recvPacket .reply) Q w := by
  have hmore (bs : Bytes) : Feeds I arg (r ++ bs) s := hf.mono (List.prefix_append _ _) (List.prefix_refl _)
  refine wp_recvPacket ?_ ?_ ?_ ?_
  · intro fs bs n _ _
    exact .silent hs.addRcvd (hmore bs) rfl
  · intro fs bs n _ _
    exact .silent hs.addRcvd (hmore bs) rfl
  · intro fs p hr hp
    exact ok fs p (hI hr hw) hp
  · intro fs bs p _ _ hb _
    exact fail fs bs p (hmore bs) hb

/-- A receive that failed, after the packets `ps`. -/
theorem UploadEnd.of_broken {bs : Bytes} {ps : List Packet} (hv : ∀ p ∈ ps, Packet.Valid p)
    (h : Broken env .reply bs) : UploadEnd env I arg .fail (Packet.wires ps ++ bs) s := by
  rcases h with ⟨n, h⟩ | ⟨n, h⟩ | ⟨hl, hbad⟩
  · exact .broken h trivial
  · exact .broken h trivial
  · exact .garbled hv hl hbad

/-- The postcondition: one of the ways to return. -/
def Returns (env : Env) (I : FS → Prop) (arg : Bytes) (b : Proc) (rc : Rc) (v : World) : Prop :=
  ∃ r s, b.Since r s v.proc ∧ Feeds I arg r s ∧ UploadEnd env I arg rc r s

/-- The state between two blocks. -/
structure BetweenBlocks (I : FS → Prop) (arg : Bytes) (b : Proc) (size : Nat) (p : Packet) (chunks : List Bytes)
    (v : World) : Prop where
  inv : I v.fs
  up : Uploading I arg p.wire size p chunks
  since : b.Since p.wire ((uploadRequest arg size).wire ++ Packet.wires (dataPackets chunks)) v.proc

theorem resumeOf_le {size : Nat} (h : size < 2 ^ 63) (p : Packet) : (resumeOf size p).toNat ≤ size := by
  unfold resumeOf
  split
  · simp
  · rename_i h'
    rw [gt_iff_lt, UInt64.lt_iff_toNat_lt, toNat_size h] at h'
    omega

variable {size : Nat} {p : Packet} {fd : Nat}

theorem wp_sendBlocks {Q : Rc → World → Prop} (hI : ∀ {fs fs'}, env.rely fs fs' → I fs → I fs')
    (hw : BetweenBlocks I arg b size p [] w) (hfd : w.proc.fds fd = some ⟨arg, (resumeOf size p).toNat⟩)
    (ok : ∀ v chunks, BetweenBlocks I arg b size p chunks v → Finished I arg size p chunks → Q .ok v)
    (fail : ∀ v, Returns env I arg b .fail v → Q .fail v) :
    wp (kernel env) (Feeding I arg b) (sendBlocks fd (.ofNat size) (resumeOf size p)) Q w := by
  have hsize : (UInt64.ofNat size).toNat = size := toNat_size hw.up.sized.1
  refine wp_loop (fun (off : UInt64) v => ∃ chunks, BetweenBlocks I arg b size p chunks v ∧
    off.toNat = (resumeOf size p).toNat + chunks.flatten.length ∧ v.proc.fds fd = some ⟨arg, off.toNat⟩)
    ⟨[], hw, by simp, hfd⟩ ?_
  rintro off v ⟨chunks, hv, hoff, hfd⟩
  have hfeeds : Feeds I arg p.wire ((uploadRequest arg size).wire ++ Packet.wires (dataPackets chunks)) :=
    .inr ⟨_, .blocks hv.up, List.prefix_refl _⟩
  split
  · rename_i hlt
    rw [UInt64.lt_iff_toNat_lt, hsize] at hlt
    refine wp_read (.silent hv.since hfeeds rfl) ?_ ?_ ?_
    · intro fs hr
      exact ⟨chunks, ⟨hI hr hv.inv, hv.up, hv.since.note⟩, hoff, hfd⟩
    · intro fs _ hf
      exact fail _ ⟨_, _, hv.since.note, hfeeds, .broken hf trivial⟩
    · intro fs buf f hr hf hlen hread
      obtain rfl : f = ⟨arg, off.toNat⟩ := by rw [hfd] at hf; exact (Option.some.inj hf).symm
      have hfs := hI hr hv.inv
      rcases buf with _ | ⟨x, xs⟩
      · -- the end of the file
        refine ok _ chunks ⟨hfs, hv.up, hv.since.setFd⟩ (.inr ⟨fs, hfs, fun b hb => ?_⟩)
        rw [← hoff]
        exact (hread b hb).2 rfl
      · have hne : x :: xs ≠ [] := by simp
        change wp _ _ (sendPacket _ _ (some (x :: xs)) _ >>= _) _ _
        generalize x :: xs = buf at *
        have hfed : Fed I arg size (resumeOf size p).toNat (chunks ++ [buf]) := by
          refine .snoc hv.up.fed (by rw [← hoff]; exact hlt) hne hlen ?_
          rw [← hoff]
          exact ⟨fs, hfs, fun b hb => (hread b hb).1⟩
        have hup : Uploading I arg p.wire size p (chunks ++ [buf]) := { hv.up with fed := hfed }
        have hnext : (off + .ofNat buf.length).toNat = off.toNat + buf.length :=
          toNat_add_block (hlt.trans hv.up.sized.1) hlen
        have hmax : fileBlockSize ≤ maxPacketPayload.toNat := by decide
        refine wp_bind.2 (wp_feedPacket buf hI hfs hv.since.setFd rfl rfl (hlen.trans hmax) ?_ ?_ ?_)
        · refine .inr ⟨_, .blocks hup, ?_⟩
          rw [Packet.wires_cons, wires_blocks_snoc, List.append_assoc]
        · intro fs' hfs'
          refine ⟨chunks ++ [buf], ⟨hfs', hup, ?_⟩, ?_, ?_⟩
          · rw [wires_blocks_snoc, ← List.append_assoc]
            exact hv.since.setFd.addSent
          · rw [hnext, hoff]
            simp [Nat.add_assoc]
          · rw [hnext]
            simp
        · intro fs' pre rest hpre hf
          exact fail _ ⟨_, _, hv.since.setFd.addSent, hpre, .broken hf trivial⟩
  · rename_i hge
    rw [UInt64.lt_iff_toNat_lt, hsize, not_lt] at hge
    exact ok v chunks hv (.inl (by omega))

/-- The end packet and the final reply. -/
theorem wp_finishUpload {chunks : List Bytes} (hI : ∀ {fs fs'}, env.rely fs fs' → I fs → I fs')
    (hw : BetweenBlocks I arg b size p chunks w) (hfin : Finished I arg size p chunks) :
    wp (kernel env) (Feeding I arg b)
      (do
        match ← sendPacket .fileEnd .ok none 0 with
        | .fail => return .fail
        | .ok => recvTextResponse) (Returns env I arg b) w := by
  have hfeeds : Feeds I arg p.wire ((uploadRequest arg size).wire ++ Packet.wires (dataPackets chunks) ++
      (Packet.of .fileEnd .ok []).wire) := by
    refine .inr ⟨_, .whole hw.up hfin, ?_⟩
    rw [Packet.wires_cons, Packet.wires_append, endPacket, List.append_assoc]
    simp
  refine wp_bind.2 (wp_feedPacket [] hI hw.inv hw.since rfl rfl (by decide) hfeeds ?_ ?_)
  · intro fs hfs
    have hs : b.Since p.wire _ (w.proc.addSent (Packet.of .fileEnd .ok []).wire) := hw.since.addSent
    refine wp_bind.2 (wp_takePacket hI hfs hs hfeeds ?_ ?_)
    · intro fs' q _ hq
      have hdone : UploadEnd env I arg _ (p.wire ++ q.wire) _ := .done hw.up hfin hq
      have hsent : (uploadRequest arg size).wire ++ Packet.wires (dataPackets chunks) ++
          (Packet.of .fileEnd .ok []).wire =
            Packet.wires (uploadRequest arg size :: (dataPackets chunks ++ [endPacket])) := by
        simp [endPacket]
      rw [← hsent] at hdone
      have hmore : Feeds I arg (p.wire ++ q.wire) _ := hfeeds.mono (List.prefix_append _ _) (List.prefix_refl _)
      simp only
      split
      · rename_i hq'
        rw [if_neg (by tauto)] at hdone
        exact ⟨_, _, hs.addRcvd, hmore, hdone⟩
      · rename_i hq'
        rw [if_pos (by tauto)] at hdone
        exact ⟨_, _, hs.addRcvd, hmore, hdone⟩
    · intro fs' bs q hmore hb
      refine ⟨_, _, hs.addRcvd, hmore, ?_⟩
      rw [← List.append_nil p.wire, ← Packet.wires_nil, ← Packet.wires_cons]
      exact .of_broken (by simpa using hw.up.valid) hb
  · intro fs pre rest hpre hf
    exact ⟨_, _, hw.since.addSent, hpre, .broken hf trivial⟩

/-- `close(fd); return -1;` -/
theorem wp_closeFail (h : Returns env I arg b .fail w) :
    wp (kernel env) (Feeding I arg b) (do Sys.close fd; return .fail) (Returns env I arg b) w := by
  obtain ⟨r, s, hs, hf, hend⟩ := h
  exact wp_close (.silent hs hf rfl) fun _ _ => ⟨r, s, hs.setFd, hf, hend⟩

/-- From the answer `PUTS_RESP` on. -/
theorem wp_uploadFrom (hI : ∀ {fs fs'}, env.rely fs fs' → I fs → I fs')
    (hw : BetweenBlocks I arg b size p [] w) (hfd : w.proc.fds fd = some ⟨arg, 0⟩) :
    wp (kernel env) (Feeding I arg b)
      (uploadFrom fd (.ofNat size) (resumeOf size p)) (Returns env I arg b) w := by
  have hfeeds : Feeds I arg p.wire ((uploadRequest arg size).wire ++ Packet.wires (dataPackets [])) :=
    .inr ⟨_, .blocks hw.up, List.prefix_refl _⟩
  have hlt : (resumeOf size p).toNat < 2 ^ 63 := (resumeOf_le hw.up.sized.1 p).trans_lt hw.up.sized.1
  refine wp_lseek (.silent hw.since hfeeds rfl) ?_ ?_
  · intro fs hr hf
    exact wp_closeFail ⟨_, _, hw.since.note, hfeeds, .broken hf trivial⟩
  · intro fs f hr hf _
    obtain rfl : f = ⟨arg, 0⟩ := by rw [hfd] at hf; exact (Option.some.inj hf).symm
    refine wp_bind.2 (wp_sendBlocks hI ⟨hI hr hw.inv, hw.up, hw.since.setFd⟩ ?_ ?_ ?_)
    · simp [offT_of_lt hlt]
    · intro v chunks hv hfin
      have hf : Feeds I arg p.wire ((uploadRequest arg size).wire ++ Packet.wires (dataPackets chunks)) :=
        .inr ⟨_, .blocks hv.up, List.prefix_refl _⟩
      refine wp_close (.silent hv.since hf rfl) ?_
      intro fs' hr'
      exact wp_finishUpload hI ⟨hI hr' hv.inv, hv.up, hv.since.setFd⟩ hfin
    · intro v hv
      exact wp_closeFail hv

/-- From the request on, when the local file is open and measured. -/
theorem wp_requestUpload (hI : ∀ {fs fs'}, env.rely fs fs' → I fs → I fs') (hw : I w.fs)
    (hs : b.Since [] [] w.proc) (hsized : Sized I arg size) (hfd : w.proc.fds fd = some ⟨arg, 0⟩) :
    wp (kernel env) (Feeding I arg b)
      (requestUpload fd (safeBasename arg pathMax) (.ofNat size)) (Returns env I arg b) w := by
  have hreq : Feeds I arg [] ([] ++ (uploadRequest arg size).wire) := .inr ⟨_, .request hsized, by simp⟩
  refine wp_bind.2 (wp_feedPacket (fileInfoPayload (safeBasename arg pathMax) (.ofNat size)) hI hw hs rfl
    (by simp) (by rw [length_fileInfoPayload]; decide) hreq ?_ ?_)
  · intro fs hfs
    have hs₁ : b.Since [] (uploadRequest arg size).wire (w.proc.addSent (uploadRequest arg size).wire) := hs.addSent
    refine wp_bind.2 (wp_takePacket hI hfs hs₁ hreq ?_ ?_)
    · intro fs₁ p hfs₁ hp
      have hs₂ : b.Since p.wire (uploadRequest arg size).wire
          ((w.proc.addSent (uploadRequest arg size).wire).addRcvd p.wire) := hs₁.addRcvd
      have hmore : Feeds I arg p.wire (uploadRequest arg size).wire :=
        hreq.mono List.nil_prefix (List.prefix_refl _)
      simp only
      split
      · rename_i herr
        exact wp_closeFail ⟨_, _, hs₂, hmore, .refused hsized hp herr⟩
      split
      · rename_i herr hresp
        exact wp_closeFail ⟨_, _, hs₂, hmore, .odd hsized hp herr (by tauto)⟩
      · rename_i herr hresp
        rw [not_or, not_not, not_not] at hresp
        refine wp_uploadFrom hI ⟨hfs₁, ⟨hsized, hp, hresp.1, hresp.2, List.prefix_refl _, .nil⟩, ?_⟩ hfd
        simpa [dataPackets] using! hs₂
    · intro fs₁ bs p hmore hb
      refine wp_closeFail ⟨_, _, hs₁.addRcvd, hmore, ?_⟩
      rw [← Packet.wires_nil]
      exact .of_broken (by simp) hb
  · intro fs pre rest hpre hf
    exact wp_closeFail ⟨_, _, hs.addSent, hpre, .broken hf trivial⟩

/-- **What the client's `handle_puts` writes, and how it returns.** -/
theorem wp_handlePuts {req : CommandRequest} (hI : ∀ {fs fs'}, env.rely fs fs' → I fs → I fs') (hw : I w.fs) :
    wp (kernel env) (Feeding I req.arg w.proc) (handlePuts req) (Returns env I req.arg w.proc) w := by
  have h0 : Feeds I req.arg [] [] := .inl rfl
  refine wp_openRead (.silent (.refl _) h0 rfl) ?_ ?_
  · intro fs _ _
    exact ⟨[], [], (Proc.Since.refl _).note, h0, .unopened⟩
  · intro fs fd hr _ hfree
    have hs : w.proc.Since [] [] ((w.proc.setFd fd (some ⟨req.arg, 0⟩)).note (.openFile req.arg .rdonly) (some fd)) :=
      (Proc.Since.refl _).setFd
    refine wp_fstat (.silent hs h0 rfl) ?_ ?_
    · intro fs₁ _ _
      exact wp_closeFail ⟨[], [], hs.note, h0, .unopened⟩
    · intro fs₁ size f hr₁ hf hlt hsize
      obtain rfl : f = ⟨req.arg, 0⟩ := by simpa using hf.symm
      have hfs₁ : I fs₁ := hI hr₁ (hI hr hw)
      exact wp_requestUpload hI hfs₁ hs.note ⟨hlt, fs₁, hfs₁, hsize⟩ (by simp)

/-- At every moment what the client has written is the start of an upload. -/
theorem feeds_of_steps {req : CommandRequest} {p : Io Rc} {w' : World}
    (hI : ∀ {fs fs'}, env.rely fs fs' → I fs → I fs') (hw : I w.fs)
    (hrun : Steps (kernel env) (handlePuts req, w) (p, w')) :
    ∃ r s, w.proc.Since r s w'.proc ∧ Feeds I req.arg r s := by
  have h : wp (kernel env) (fun v c => ∀ x v', kernel env v c x v' →
      ∃ r s, w.proc.Since r s v'.proc ∧ Feeds I req.arg r s) (handlePuts req) (Returns env I req.arg w.proc) w :=
    wp_weaken (wp_handlePuts hI hw) (fun _ _ _ _ h => h) fun _ _ h _ _ hk => h.after hk
  exact wp_always (I := fun v => ∃ r s, w.proc.Since r s v.proc ∧ Feeds I req.arg r s) h
    ⟨[], [], .refl _, .inl rfl⟩ hrun

end Rules
end Client
end WindCloud
