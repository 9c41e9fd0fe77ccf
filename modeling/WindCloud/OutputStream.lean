import WindCloud.Run
/-!
# What the server writes keeps its framing

A packet is written by `send_packet`, or by hand: a header, then the file's bytes by `sendfile`. A
write may take part of what it is given, fail, or take nothing, anywhere; then the packet stays
incomplete, and the handler's result has to keep the loop from writing again.

Only the bytes written and whether a write has failed matter here (`Line`); a run of the calls is a
run of `line` (`kernel_line`), and each handler is checked there once: it starts with complete
packets, makes no write that does not fit one, and if its result lets the loop go on it ends with
complete packets (`Emits`).
-/

namespace WindCloud

open Interaction Prog

/-- The answer of a write that ends the stream: it failed, or took nothing. -/
def Call.broken : (c : Call) → Res c → Bool
  | .send _, .fail | .sendfile .., .fail => true
  | .send _, .done m | .sendfile .., .done m => m == 0
  | _, _ => false

/-- What a call may have written when it answers. -/
def Call.Wrote : (c : Call) → Res c → Bytes → Prop
  | .send buf, .done m, bs => m ≤ buf.length ∧ bs = buf.take m
  | .sendfile _ _ n, .done m, bs => bs.length = m ∧ m ≤ n
  | _, _, bs => bs = []

def Call.Writes : Call → Prop
  | .send _ | .sendfile .. => True
  | _ => False

/-- The bytes written, and whether a write has failed. -/
structure Line where
  out : Bytes
  dead : Bool

/-- The calls, as far as they write. -/
def line : Sem Call Res Line := fun l c r l' =>
  l'.dead = (l.dead || c.broken r) ∧ ∃ bs, c.Wrote r bs ∧ l'.out = l.out ++ bs

theorem line_still {l l' : Line} {c : Call} {r : Res c} (hc : ¬ c.Writes) (h : line l c r l') : l' = l := by
  obtain ⟨out, dead⟩ := l
  obtain ⟨out', dead'⟩ := l'
  obtain ⟨hdead, bs, hw, hout⟩ := h
  have hbs : bs = [] ∧ c.broken r = false := by
    cases c <;> first | exact absurd trivial hc | exact ⟨hw, rfl⟩
  simp_all

/-- A call that does not write leaves `sent`. -/
theorem kernel_still_sent {env : Env} {w w' : World} {c : Call} {r : Res c} (hc : ¬ c.Writes)
    (h : kernel env w c r w') : w'.proc.sent = w.proc.sent := by
  obtain ⟨fs, -, v, he, rfl⟩ := h
  have := effect_silent he (fun buf hb => hc (hb ▸ trivial)) fun fd off n hb => hc (hb ▸ trivial)
  split <;> exact this

/-- **Every run is one of `line`.** -/
theorem kernel_line {env : Env} (base : Bytes) (w : World) (c : Call) (r : Res c) (w' : World) (l : Line)
    (h : kernel env w c r w') (hl : w.proc.sent = base ++ l.out) :
    ∃ l', line l c r l' ∧ w'.proc.sent = base ++ l'.out := by
  by_cases hc : c.Writes
  · have hbytes : ∃ bs, c.Wrote r bs ∧ w'.proc.sent = w.proc.sent ++ bs := by
      obtain ⟨fs, -, v, he, rfl⟩ := h
      cases c with
      | send buf =>
        rcases r with _ | _ | m
        · exact ⟨[], rfl, by rw [show v = _ from he, List.append_nil]; rfl⟩
        · exact ⟨[], rfl, by rw [he.2, List.append_nil]; rfl⟩
        · exact ⟨buf.take m, ⟨he.1, rfl⟩, by rw [he.2.2]; rfl⟩
      | sendfile fd off n =>
        rcases r with _ | _ | m
        · exact ⟨[], rfl, by rw [show v = _ from he, List.append_nil]; rfl⟩
        · exact ⟨[], rfl, by rw [he.2, List.append_nil]; rfl⟩
        · obtain ⟨f, bs, -, -, -, hlen, hle, -, rfl⟩ := he
          exact ⟨bs, ⟨hlen, hle⟩, rfl⟩
      | _ => cases hc
    obtain ⟨bs, hw, hs⟩ := hbytes
    exact ⟨⟨l.out ++ bs, l.dead || c.broken r⟩, ⟨rfl, bs, hw, rfl⟩, by rw [hs, hl, List.append_assoc]⟩
  · refine ⟨l, ⟨?_, [], ?_, by simp⟩, (kernel_still_sent hc h).trans hl⟩
    · cases c <;> first | exact absurd trivial hc | simp [Call.broken]
    · cases c <;> first | exact absurd trivial hc | rfl

/-! ## What fits -/

/-- After `out`, the bytes `buf` go on inside one packet. -/
def Fits (out buf : Bytes) : Prop := ∃ (ps : List Packet) (part : Bytes) (q : Packet),
  (∀ p ∈ ps, p.Valid) ∧ q.Valid ∧ out = Packet.wires ps ++ part ∧ part ++ buf <+: q.wire

/-- A write is made only while none has failed, and what it is given goes on inside one packet. -/
def Call.Framed (l : Line) : Call → Prop
  | .send buf => l.dead = false ∧ Fits l.out buf
  | .sendfile _ _ n => l.dead = false ∧ ∀ bs : Bytes, bs.length ≤ n → Fits l.out bs
  | _ => True

/-- Complete packets, and no write has failed. -/
def Line.Whole (l : Line) : Prop := l.dead = false ∧ ∃ ps : List Packet, (∀ p ∈ ps, p.Valid) ∧ l.out = Packet.wires ps

theorem Line.Whole.append {l : Line} {p : Packet} (h : l.Whole) (hp : p.Valid) : Line.Whole ⟨l.out ++ p.wire, false⟩ := by
  obtain ⟨-, ps, hps, hout⟩ := h
  exact ⟨rfl, ps ++ [p], by simpa [or_imp, forall_and] using ⟨hps, hp⟩, by simp [hout]⟩

theorem Line.Whole.fits {l : Line} {q : Packet} {pre buf : Bytes} (h : l.Whole) (hq : q.Valid)
    (hpre : pre ++ buf <+: q.wire) : Fits (l.out ++ pre) buf := by
  obtain ⟨-, ps, hps, hout⟩ := h
  exact ⟨ps, pre, q, hps, hq, by rw [hout], hpre⟩

theorem Line.Whole.fits_start {l : Line} {q : Packet} {buf : Bytes} (h : l.Whole) (hq : q.Valid)
    (hpre : buf <+: q.wire) : Fits l.out buf := by
  obtain ⟨-, ps, hps, hout⟩ := h
  exact ⟨ps, [], q, hps, hq, by rw [hout, List.append_nil], hpre⟩

theorem Fits.take {out buf : Bytes} (h : Fits out buf) (bs : Bytes) (hbs : bs <+: buf) : Fits (out ++ bs) [] := by
  obtain ⟨ps, part, q, hps, hq, rfl, hpre⟩ := h
  refine ⟨ps, part ++ bs, q, hps, hq, by rw [List.append_assoc], ?_⟩
  rw [List.append_nil]
  exact ((List.prefix_append_right_inj _).2 hbs).trans hpre

theorem Call.Framed.fits {l l' : Line} {c : Call} {r : Res c} (hc : c.Framed l) (hs : line l c r l') (hl : Fits l.out []) :
    Fits l'.out [] := by
  by_cases hw : c.Writes
  · obtain ⟨-, bs, hbs, hout⟩ := hs
    rw [hout]
    cases c with
    | send buf =>
      rcases r with _ | _ | m
      · exact hc.2.take bs (hbs ▸ List.nil_prefix)
      · exact hc.2.take bs (hbs ▸ List.nil_prefix)
      · exact hc.2.take bs (hbs.2 ▸ List.take_prefix _ _)
    | sendfile fd off n =>
      rcases r with _ | _ | m
      · exact (hc.2 [] (Nat.zero_le _)).take bs (hbs ▸ List.nil_prefix)
      · exact (hc.2 [] (Nat.zero_le _)).take bs (hbs ▸ List.nil_prefix)
      · exact (hc.2 bs (hbs.1.trans_le hbs.2)).take bs (List.prefix_refl _)
    | _ => cases hw
  · exact (line_still hw hs) ▸ hl

/-- After a failed write the line stays as it is. -/
theorem Call.Framed.still {l l' : Line} {c : Call} {r : Res c} (hc : c.Framed l) (hs : line l c r l') (hl : l.dead = true) :
    l' = l := by
  refine line_still (fun hw => ?_) hs
  cases c with
  | send buf => exact absurd (hc.1.symm.trans hl) (by simp)
  | sendfile fd off n => exact absurd (hc.1.symm.trans hl) (by simp)
  | _ => cases hw

theorem Call.Wrote.eq_nil {c : Call} {r : Res c} {bs : Bytes} (hw : c.Wrote r bs) (hb : c.broken r = true) : bs = [] := by
  cases c with
  | send buf =>
    rcases r with _ | _ | m
    · exact hw
    · exact hw
    · obtain rfl : m = 0 := by simpa [Call.broken] using hb
      exact hw.2.trans (List.take_zero)
  | sendfile fd off n =>
    rcases r with _ | _ | m
    · exact hw
    · exact hw
    · obtain rfl : m = 0 := by simpa [Call.broken] using hb
      exact List.length_eq_zero_iff.1 hw.1
  | _ => cases hb

/-- Complete packets and at most one that is cut off. -/
theorem Fits.cut {out : Bytes} (h : Fits out []) : ∃ (ps : List Packet) (part : Bytes), (∀ p ∈ ps, p.Valid) ∧
    (∃ q : Packet, q.Valid ∧ part <+: q.wire ∧ part ≠ q.wire) ∧ out = Packet.wires ps ++ part := by
  obtain ⟨ps, part, q, hps, hq, rfl, hpre⟩ := h
  rw [List.append_nil] at hpre
  by_cases hfull : part = q.wire
  · refine ⟨ps ++ [q], [], by simpa [or_imp, forall_and] using ⟨hps, hq⟩, ?_, by simp [hfull]⟩
    exact ⟨q, hq, List.nil_prefix, fun h => Packet.wire_code.ne_nil hq h.symm⟩
  · exact ⟨ps, part, hps, ⟨q, hq, hpre, hfull⟩, rfl⟩

/-- In any case a start of complete packets. -/
theorem Fits.start {out : Bytes} (h : Fits out []) : ∃ ps : List Packet, (∀ p ∈ ps, p.Valid) ∧ out <+: Packet.wires ps := by
  obtain ⟨ps, part, q, hps, hq, rfl, hpre⟩ := h
  refine ⟨ps ++ [q], by simpa [or_imp, forall_and] using ⟨hps, hq⟩, ?_⟩
  rw [Packet.wires_append, List.prefix_append_right_inj]
  simpa using hpre

/-! ## The two ways a packet is written -/

namespace Server

section Packets

variable {l : Line} {out : Bytes} {α β : Type}

/-- The precondition of a handler that writes what fits. -/
abbrev framed (p : Io α) (Q : α → Line → Prop) (l : Line) : Prop := wp line (fun l c => c.Framed l) p Q l

theorem framed_call {c : Call} {k : Res c → Io α} {Q : α → Line → Prop} (hP : c.Framed l)
    (h : ∀ r bs, c.Wrote r bs → framed (k r) Q ⟨l.out ++ bs, l.dead || c.broken r⟩) :
    framed (perform c >>= k) Q l := by
  refine ⟨hP, ?_⟩
  rintro r ⟨out', dead'⟩ ⟨hdead, bs, hw, hout⟩
  obtain rfl : dead' = _ := hdead
  obtain rfl : out' = _ := hout
  exact h r bs hw

/-- `send_n` of bytes that fit writes all of them, or fails. -/
theorem sendN_framed {buf : Bytes} (h : Fits out buf) :
    framed (sendN buf) (fun rc l' => rc = .ok → l' = ⟨out ++ buf, false⟩) ⟨out, false⟩ := by
  refine wp_loop (fun total l' => total ≤ buf.length ∧ l' = ⟨out ++ buf.take total, false⟩)
    ⟨Nat.zero_le _, by simp⟩ ?_
  rintro total _ ⟨hle, rfl⟩
  split
  · rename_i hlt
    have hfits : Fits (out ++ buf.take total) (buf.drop total) := by
      obtain ⟨ps, part, q, hps, hq, rfl, hpre⟩ := h
      exact ⟨ps, part ++ buf.take total, q, hps, hq, by rw [List.append_assoc], by simpa using hpre⟩
    refine framed_call ⟨rfl, hfits⟩ ?_
    rintro (_ | _ | m) bs hw
    · obtain rfl : bs = [] := hw
      exact ⟨hle, by simp [Call.broken]⟩
    · simp
    · obtain ⟨hm, rfl⟩ := hw
      rw [List.length_drop] at hm
      cases m with
      | zero => simp
      | succ m => exact ⟨by omega, by simp [Call.broken, List.take_add]⟩
  · obtain rfl : total = buf.length := by omega
    simp

/-- A packet sent from a buffer that is long enough. -/
theorem sendPacket_framed (hl : l.Whole) {type : CmdType} {status : StatusCode} {payload : Option Bytes} {len : UInt32}
    (hlen : len.toNat ≤ (payload.getD []).length) :
    framed (sendPacket type status payload len) (fun rc l' => rc = .ok → l'.Whole) l := by
  obtain ⟨out, dead⟩ := l
  obtain rfl : dead = false := hl.1
  unfold sendPacket
  simp only [TlvHeader.bytes_hton]
  split
  · simp
  rename_i hmax
  rw [gt_iff_lt, UInt32.not_lt, UInt32.le_iff_toNat_le] at hmax
  have htake : ((payload.getD []).take len.toNat).length = len.toNat := by
    rw [List.length_take]
    omega
  have hlen' : UInt32.ofNat ((payload.getD []).take len.toNat).length = len := by
    rw [htake, UInt32.ofNat_toNat]
  have hvalid : (Packet.of type status ((payload.getD []).take len.toNat)).Valid := Packet.of_valid _ _ (by omega)
  have hwire : (Packet.of type status ((payload.getD []).take len.toNat)).wire =
      (TlvHeader.of type status len).wire ++ (payload.getD []).take len.toNat := by
    rw [Packet.wire, Packet.data_of, Packet.of, hlen']
  have hwhole := hl.append hvalid
  rw [hwire, ← List.append_assoc] at hwhole
  refine wp_bind.2 (wp_mono (sendN_framed ?_) ?_)
  · exact hl.fits_start hvalid (by rw [hwire]; exact List.prefix_append _ _)
  · rintro (_ | _) l' h
    · obtain rfl := h rfl
      rcases payload with _ | p
      · simpa using hwhole
      · simp only
        split
        · refine wp_mono (sendN_framed ?_) ?_
          · exact hl.fits hvalid (by rw [hwire]; exact List.prefix_refl _)
          · intro rc l' h hrc
            rw [h hrc]
            exact hwhole
        · rename_i h0
          have hzero : len.toNat = 0 := by
            rw [gt_iff_lt, UInt32.lt_iff_toNat_lt] at h0
            simpa using h0
          simpa [hzero] using hwhole
    · simp

/-- A packet whose bytes come from a file. -/
theorem sendFileDataPacket_framed (hl : l.Whole) {fd chunkSize : Nat} {offset : Int} (hle : chunkSize ≤ fileBlockSize) :
    framed (sendFileDataPacket fd offset chunkSize) (fun r l' => r.1 = .ok → l'.Whole) l := by
  obtain ⟨out, dead⟩ := l
  obtain rfl : dead = false := hl.1
  unfold sendFileDataPacket
  simp only [TlvHeader.bytes_hton]
  generalize hh : (TlvHeader.of .fileData .ok (.ofNat chunkSize)).wire = header
  have hwire {block : Bytes} (hb : block.length = chunkSize) : (dataPacket block).wire = header ++ block := by
    simp [dataPacket, Packet.wire, hb, hh]
  have hfits {pre bs : Bytes} (hlen : pre.length + bs.length ≤ chunkSize) : Fits (out ++ (header ++ pre)) bs := by
    have hb : (pre ++ bs ++ List.replicate (chunkSize - (pre.length + bs.length)) 0).length = chunkSize := by
      simp
      omega
    apply hl.fits (dataPacket_valid (hb.trans_le hle))
    rw [hwire hb]
    simp
  refine wp_bind.2 (wp_mono (sendN_framed ?_) ?_)
  · have hb : (List.replicate chunkSize (0 : UInt8)).length = chunkSize := List.length_replicate
    exact hl.fits_start (dataPacket_valid (hb.trans_le hle)) (by rw [hwire hb]; exact List.prefix_append _ _)
  · rintro (_ | _) l' h
    · obtain rfl := h rfl
      refine wp_loop (fun sentTotal l' => ∃ pre : Bytes, pre.length = sentTotal ∧ sentTotal ≤ chunkSize ∧
        l' = ⟨out ++ (header ++ pre), false⟩) ⟨[], rfl, Nat.zero_le _, by simp⟩ ?_
      rintro _ _ ⟨pre, rfl, hpre, rfl⟩
      split
      · refine framed_call ⟨rfl, fun bs hbs => hfits (by omega)⟩ ?_
        rintro (_ | _ | m) bs hw
        · obtain rfl : bs = [] := hw
          exact ⟨pre, rfl, hpre, by simp [Call.broken]⟩
        · simp
        · obtain ⟨rfl, hm⟩ := hw
          cases bs with
          | nil => simp
          | cons b bs => exact ⟨pre ++ b :: bs, by simp, by simp at hm ⊢; omega, by simp [Call.broken]⟩
      · have hpre' : pre.length = chunkSize := by omega
        intro _
        have := hl.append (dataPacket_valid (hpre'.trans_le hle))
        rwa [hwire hpre'] at this
    · simp

end Packets

/-! ## The handlers -/

section Handlers

variable {α β : Type} {session : Session}

/-- From complete packets, `p` makes only writes that fit; a result in `ok` comes with complete packets. -/
def Emits (ok : α → Prop) (p : Io α) : Prop := ∀ l : Line, l.Whole → framed p (fun a l' => ok a → l'.Whole) l

/-- `p` writes nothing, and returns with `Q`. -/
abbrev Silent (p : Io α) (Q : α → Prop) : Prop := every (fun c => ¬ c.Writes) p Q

theorem Silent.framed {p : Io α} {Q : α → Prop} (h : Silent p Q) (l : Line) :
    framed p (fun a l' => Q a ∧ l' = l) l := by
  refine every_wp h rfl ?_ ?_
  · intro l c hc _
    cases c <;> first | exact absurd trivial hc | trivial
  · rintro l' c r l'' hc hs rfl
    exact line_still hc hs

theorem Emits.ret {ok : α → Prop} (a : α) : Emits ok (.ret a) := fun _ hl _ => hl

/-- A stretch that writes nothing. -/
theorem Emits.after {p : Io α} {f : α → Io β} {R : α → Prop} {ok : β → Prop} (hp : Silent p R)
    (hf : ∀ a, R a → Emits ok (f a)) : Emits ok (p >>= f) := by
  intro l hl
  refine wp_bind.2 (wp_mono (hp.framed l) ?_)
  rintro a l' ⟨ha, rfl⟩
  exact hf a ha _ hl

theorem Emits.call {c : Call} {k : Res c → Io α} {ok : α → Prop} (hc : ¬ c.Writes) (hk : ∀ r, Emits ok (k r)) :
    Emits ok (perform c >>= k) := fun l hl =>
  Emits.after (every_perform (f := .ret) hc fun _ => trivial) (fun r _ => hk r) l hl

/-- Where a write has failed, nothing is written after it. -/
theorem Emits.bind {p : Io α} {f : α → Io β} {R : α → Prop} {ok : β → Prop} (hp : Emits R p)
    (hf : ∀ a, R a → Emits ok (f a)) (hfail : ∀ a, ¬ R a → Silent (f a) fun b => ¬ ok b) : Emits ok (p >>= f) := by
  intro l hl
  refine wp_bind.2 (wp_mono (hp l hl) ?_)
  intro a l' ha
  by_cases h : R a
  · exact hf a h l' (ha h)
  · exact wp_mono ((hfail a h).framed l') fun b _ hb hok => absurd hok hb.1

/-- A handler: where it returns `0`, its packets are complete. -/
abbrev Answers (p : Io (Rc × Session)) : Prop := Emits (fun r => r.1 = .ok) p

theorem reply_answers {type : CmdType} {status : StatusCode} {msg : Bytes} :
    Answers (reply session type status msg) := by
  have hlen : (UInt32.ofNat msg.length + 1).toNat ≤ (msg ++ [0]).length := by
    rw [UInt32.toNat_add, UInt32.toNat_ofNat, List.length_append]
    have := Nat.mod_le msg.length (2 ^ 32)
    exact (Nat.mod_le _ _).trans (by simpa using this)
  intro l hl
  have hsend : framed (sendPacket type status (some (msg ++ [0])) (.ofNat msg.length + 1))
      (fun rc l' => rc = .ok → l'.Whole) l := sendPacket_framed hl hlen
  exact wp_bind.2 hsend

theorem recvPacket_silent (wait : Wait) : Silent (recvPacket wait) fun _ => True :=
  every_mono (recvPacket_calls wait) (fun c hc hw => by cases c <;> first | exact hc | exact hw) fun _ => id

theorem recvFollowPacket_silent : Silent (recvFollowPacket session) fun _ => True := by
  apply every_bind (recvPacket_silent _)
  rintro ⟨_ | _, packet⟩ _ <;> trivial

theorem handleCd_answers (arg : Bytes) : Answers (handleCd session arg) := by
  unfold handleCd
  split
  · exact reply_answers
  · refine .call id ?_
    intro dir
    cases dir with
    | none => exact reply_answers
    | some d => exact .call id fun _ => reply_answers

theorem handleLs_answers : Answers (handleLs session) := by
  unfold handleLs
  split
  · exact reply_answers
  · refine .call id ?_
    intro dir
    cases dir with
    | none => exact reply_answers
    | some d =>
      refine .after (R := fun _ => True) (every_iter (fun _ => True) trivial fun l _ => ?_) fun l _ => ?_
      · refine every_perform id ?_
        intro name
        cases name with
        | none => trivial
        | some name => cases hl : l.add name <;> simp only [hl] <;> trivial
      · cases l <;> exact .call id fun _ => reply_answers

theorem handleRm_answers (arg : Bytes) : Answers (handleRm session arg) := by
  unfold handleRm
  split
  · exact reply_answers
  · refine .call id ?_
    intro ok
    cases ok <;> exact reply_answers

theorem handleMkdir_answers (arg : Bytes) : Answers (handleMkdir session arg) := by
  unfold handleMkdir
  split
  · exact reply_answers
  · refine .call id ?_
    intro ok
    cases ok <;> exact reply_answers

theorem uploadFinish_answers {fd : Nat} {map : Option Nat} {writeOffset : UInt64} {success : Bool} :
    Answers (uploadFinish session fd map writeOffset success) := by
  have hmap : Silent (unmap map) fun _ => True := by
    cases map with
    | none => trivial
    | some m => exact ⟨id, fun _ _ _ => trivial⟩
  refine .after hmap fun _ _ => ?_
  cases success with
  | true => exact .call id fun _ => reply_answers
  | false => exact .call id fun _ => .call id fun _ => reply_answers

theorem receiveLoop_silent {totalSize writeOffset : UInt64} {map : Option Nat} :
    Silent (receiveLoop session totalSize map writeOffset) fun _ => True := by
  refine every_iter (fun _ => True) trivial ?_
  intro off _
  apply every_bind recvFollowPacket_silent
  rintro ⟨_ | _, session', packet⟩ _
  · simp only
    split
    · trivial
    split
    · trivial
    split
    · trivial
    · refine every_bind (R := fun _ => True) ?_ fun _ _ => trivial
      unfold copyBlock
      split
      · split
        · exact ⟨id, fun _ _ _ => trivial⟩
        · trivial
      · trivial
  · trivial

theorem uploadReceive_answers {fd : Nat} {totalSize writeOffset : UInt64} {map : Option Nat} :
    Answers (uploadReceive session fd totalSize map writeOffset) :=
  .after receiveLoop_silent fun _ _ => uploadFinish_answers

theorem uploadMapped_answers {fd : Nat} {totalSize writeOffset : UInt64} :
    Answers (uploadMapped session fd totalSize writeOffset) := by
  unfold uploadMapped
  split
  · refine .call id ?_
    intro ok
    cases ok with
    | false => exact .call id fun _ => reply_answers
    | true =>
      refine .call id ?_
      intro map
      cases map with
      | none => exact .call id fun _ => reply_answers
      | some m => exact uploadReceive_answers
  · exact uploadReceive_answers

/-- A stretch that only closes `fd` and gives up. -/
theorem giveUp_silent {fd : Nat} : Silent (Sys.close fd >>= fun _ => .ret (Rc.fail, session)) fun r => ¬ r.1 = .ok :=
  every_perform id fun _ => by simp

theorem uploadFrom_answers {fd : Nat} {totalSize writeOffset : UInt64} :
    Answers (uploadFrom session fd totalSize writeOffset) := by
  have hsend : Emits (· = .ok) (sendResumePacket .putsResp .ok writeOffset) :=
    fun l hl => sendPacket_framed hl (by rw [Option.getD_some, length_resumePayload]; decide)
  refine .bind hsend ?_ ?_
  · rintro _ rfl
    exact uploadMapped_answers
  · rintro (_ | _) h
    · exact absurd rfl h
    · exact giveUp_silent

theorem handlePuts_answers {packet : Packet} : Answers (handlePuts session packet) := by
  unfold handlePuts
  split
  · exact reply_answers
  split
  · exact reply_answers
  split
  · exact reply_answers
  · refine .call id ?_
    intro fd
    cases fd with
    | none => exact reply_answers
    | some fd =>
      refine .call id ?_
      intro st
      simp only
      split
      · refine .call id ?_
        intro ok
        cases ok with
        | false => exact .call id fun _ => reply_answers
        | true => exact uploadFrom_answers
      · exact uploadFrom_answers

theorem downloadFrom_answers {fd : Nat} {totalSize resumeOffset : UInt64} :
    Answers (downloadFrom session fd totalSize resumeOffset) := by
  refine .bind (R := (· = .ok)) ?_ ?_ ?_
  · intro l hl
    refine wp_loop (fun _ l' => l'.Whole) hl ?_
    intro off l' hl'
    split
    · refine wp_bind.2 (wp_mono (sendFileDataPacket_framed hl' ?_) ?_)
      · split
        · exact le_refl _
        · omega
      · rintro ⟨_ | _, off'⟩ l'' h
        · exact h rfl
        · simp
    · exact fun _ => hl'
  · rintro _ rfl
    exact .call id fun _ l hl => wp_bind.2 (sendPacket_framed hl (by simp))
  · rintro (_ | _) h
    · exact absurd rfl h
    · exact giveUp_silent

theorem handleGets_answers (arg : Bytes) : Answers (handleGets session arg) := by
  unfold handleGets
  split
  · exact reply_answers
  · refine .call id ?_
    intro fd
    cases fd with
    | none => exact reply_answers
    | some fd =>
      refine .call id ?_
      intro size
      cases size with
      | none => exact .call id fun _ => reply_answers
      | some size =>
        have hsend : Emits (· = .ok) (sendFileInfoPacket .getsResp .ok arg (.ofNat size)) :=
          fun l hl => sendPacket_framed hl (by rw [Option.getD_some, length_fileInfoPayload]; decide)
        refine .bind hsend ?_ ?_
        · rintro _ rfl
          refine .after recvFollowPacket_silent ?_
          rintro ⟨_ | _, session', packet⟩ _
          · simp only
            split
            · exact .call id fun _ => .ret _
            split
            · exact .call id fun _ => .ret _
            · exact downloadFrom_answers
          · exact .call id fun _ => .ret _
        · rintro (_ | _) h
          · exact absurd rfl h
          · exact giveUp_silent

theorem withArg_answers {packet : Packet} {missing : Bytes} {handler : Session → Bytes → Io (Rc × Session)}
    (hh : ∀ arg, Answers (handler session arg)) : Answers (withArg session packet missing handler) := by
  unfold withArg
  split
  · exact reply_answers
  · exact hh _

theorem dispatchCommand_answers {packet : Packet} : Answers (dispatchCommand session packet) := by
  unfold dispatchCommand
  split
  · exact reply_answers
  · exact handleLs_answers
  · exact withArg_answers handleCd_answers
  · exact withArg_answers handleRm_answers
  · exact withArg_answers handleMkdir_answers
  · exact handlePuts_answers
  · exact withArg_answers handleGets_answers
  · exact reply_answers

/-- The loop goes on with complete packets, or does not write again. -/
theorem handleRequest_framedWrites (session : Session) {l : Line} (hl : l.Whole) :
    framed (handleRequest session) (fun _ _ => True) l := by
  refine wp_loop (fun session l => session.shouldClose = false → l.Whole) (fun _ => hl) ?_
  intro session l hl
  unfold handleRequestRound
  split
  · trivial
  · rename_i hopen
    have hl := hl (by simpa using hopen)
    refine wp_bind.2 (wp_mono ((recvPacket_silent .request).framed l) ?_)
    rintro ⟨_ | _, packet⟩ l' ⟨-, rfl⟩
    · refine wp_bind.2 (wp_mono (dispatchCommand_answers _ hl) ?_)
      rintro ⟨rc, session'⟩ l' h
      simp only
      split
      · trivial
      · rename_i hgo
        intro hclose
        exact h (by simpa [hclose] using hgo)
    · trivial

end Handlers

/-! ## Every run -/

section Runs

variable {env : Env} {w : World} {session : Session} {c : Io Rc × World}

/-- The run as `line` sees it. -/
theorem handleRequest_line (hrun : Steps (kernel env) (handleRequest session, w) c) :
    ∃ l, Steps line (handleRequest session, ⟨[], false⟩) (c.1, l) ∧ c.2.proc.sent = w.proc.sent ++ l.out := by
  obtain ⟨p, u⟩ := c
  exact steps_sim (kernel_line w.proc.sent) hrun (v := ⟨[], false⟩) (List.append_nil _).symm

theorem whole_nil : Line.Whole ⟨[], false⟩ := ⟨rfl, [], by simp, rfl⟩

/-- What it has written goes on inside one packet. -/
theorem handleRequest_fits {q : Io Rc} {l : Line} (hline : Steps line (handleRequest session, ⟨[], false⟩) (q, l)) :
    Fits l.out [] := by
  have hstart : Fits [] [] := ⟨[], [], endPacket, by simp, endPacket_valid, rfl, List.nil_prefix⟩
  refine wp_keeps (I := fun l => Fits l.out []) (handleRequest_framedWrites session whole_nil) ?_ hstart hline
  intro _ _ _ _ hc hs hl
  exact hc.fits hs hl

/-- **The framing of the output**: in every run, whatever arrives and whatever any call answers, what
`handle_request` has written is complete packets and at most one that is cut off; and after a write
that failed, or took nothing, it writes no more. -/
theorem handleRequest_output (hrun : Steps (kernel env) (handleRequest session, w) c) :
    (∃ (ps : List Packet) (part : Bytes), (∀ p ∈ ps, p.Valid) ∧
      (∃ q : Packet, q.Valid ∧ part <+: q.wire ∧ part ≠ q.wire) ∧
      c.2.proc.sent = w.proc.sent ++ Packet.wires ps ++ part) ∧
    ∀ (e : Call) (k : Res e → Io Rc) (r : Res e) (v : World) (d : Io Rc × World), c.1 = .call e k →
      kernel env c.2 e r v → e.broken r = true → Steps (kernel env) (k r, v) d →
        d.2.proc.sent = c.2.proc.sent := by
  obtain ⟨p, u⟩ := c
  obtain ⟨l, hline, hsent⟩ := handleRequest_line hrun
  refine ⟨?_, ?_⟩
  · obtain ⟨ps, part, hps, hcut, hout⟩ := (handleRequest_fits hline).cut
    exact ⟨ps, part, hps, hcut, by rw [hsent, hout, List.append_assoc]⟩
  · rintro e k r v d rfl hk hbroken hafter
    obtain ⟨l₁, hstep, hsent₁⟩ := kernel_line w.proc.sent u e r v l hk hsent
    obtain ⟨hdead, bs, hw, hout⟩ := hstep
    have hl₁ : l₁.dead = true := by rw [hdead, hbroken, Bool.or_true]
    have hwp₁ := wp_steps (handleRequest_framedWrites session whole_nil) (hline.tail (.call ⟨hdead, bs, hw, hout⟩))
    obtain ⟨l₂, hline₂, hsent₂⟩ := steps_sim (kernel_line w.proc.sent) hafter hsent₁
    have hkeep : l₂ = l₁ := by
      refine wp_keeps hwp₁ (I := fun l => l = l₁) ?_ rfl hline₂
      rintro _ c r' l' hc hs rfl
      exact Call.Framed.still hc hs hl₁
    rw [hsent₂, hkeep, hout, hw.eq_nil hbroken, List.append_nil]
    exact hsent.symm

/-- A client that asks where it is, and takes three bytes of the answer. -/
theorem handleRequest_answersPart : ∃ c k, Steps (kernel (.quiet fun _ => True)) (handleRequest .start, ⟨fun _ => none, .init⟩) c ∧
    c.1 = .call (.send ((textPacket .ack .ok rootPath).header.wire.drop 3)) k ∧
    c.2.proc.sent = (textPacket .ack .ok rootPath).header.wire.take 3 := by
  have hp : (textPacket .pwd .ok []).Valid := textPacket_valid (by decide)
  have hR : Backward (fed (.quiet fun _ => True) (textPacket .pwd .ok []).wire) fun c => _ :=
    backward_kernel fun c : Io Rc × World => ∃ k,
      c.1 = .call (.send ((textPacket .ack .ok rootPath).header.wire.drop 3)) k ∧
        c.2.proc.sent = (textPacket .ack .ok rootPath).header.wire.take 3
  have hpwd : (textPacket .pwd .ok []).Is .pwd := Packet.of_is.2 rfl
  have hrun : ∃ c, Steps (kernel (.quiet fun _ => True)) (handleRequest .start, ⟨fun _ => none, .init⟩) c ∧ ∃ k,
      c.1 = .call (.send ((textPacket .ack .ok rootPath).header.wire.drop 3)) k ∧
        c.2.proc.sent = (textPacket .ack .ok rootPath).header.wire.take 3 := by
    refine hR.loop (run_request hR rfl hp (List.prefix_refl _) ?_)
    rw [dispatchCommand, ofCode_of_is hpwd]
    obtain ⟨k', hk'⟩ := reply_eq_header .start .ack .ok (show Session.start.currentPath.length < _ by decide)
    simp only [handlePwd]
    rw [hk', bind_assoc]
    exact run_sendPart hR (List.prefix_refl _) (by decide) (by decide) fun k => ⟨_, .refl, k, rfl, rfl⟩
  obtain ⟨c, hrun, k, h⟩ := hrun
  exact ⟨c, k, hrun, h⟩

/-- The next write fails. The three bytes are the start of a packet, and the last it writes. -/
theorem handleRequest_output_cut : ∃ (c : Io Rc × World) (buf : Bytes) (k : IoRes Nat → Io Rc),
    c.1 = .call (.send buf) k ∧ c.2.proc.sent.length = 3 ∧
    (∃ (ps : List Packet) (part : Bytes), (∀ p ∈ ps, p.Valid) ∧ (∃ q : Packet, q.Valid ∧ part <+: q.wire ∧ part ≠ q.wire) ∧
      c.2.proc.sent = Packet.wires ps ++ part) ∧
    kernel (.quiet fun _ => True) c.2 (.send buf) .fail c.2 ∧
    ∀ d, Steps (kernel (.quiet fun _ => True)) (k .fail, c.2) d → d.2.proc.sent = c.2.proc.sent := by
  obtain ⟨c, k, hrun, hc, hsent⟩ := handleRequest_answersPart
  obtain ⟨hcut, hlast⟩ := handleRequest_output hrun
  have hfail : kernel (.quiet fun _ => True) c.2 (.send ((textPacket .ack .ok rootPath).header.wire.drop 3)) .fail c.2 :=
    ⟨_, rfl, c.2, ⟨trivial, rfl⟩, rfl⟩
  have hlen : c.2.proc.sent.length = 3 := by
    rw [hsent]
    decide
  exact ⟨c, _, k, hc, hlen, hcut, hfail, fun d => hlast _ k _ _ d hc hfail rfl⟩

end Runs

end Server
end WindCloud
