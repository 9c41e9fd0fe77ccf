import WindCloud.Sharing
import WindCloud.UploadRun
import WindCloud.Visible
/-!
# Acknowledged uploads of one file

The same file `F` is uploaded to one path by any number of sessions. Each announces the length of the target as its
resume point, so what it relies on is that the target already holds that much of `F`; from there on it stores its own
blocks (`Relied`). Two things break this: a session that measures the target while another has
extended it, and a cut that takes away what another one relies on. `handlePuts_acksWhole` is what holds without them.
-/

namespace WindCloud

open Interaction Prog FileImage

/-- Complete packets, and at least the header of an `ACK` after them. -/
def Acking (x : Bytes) : Prop := ∃ pkts p, (∀ q ∈ pkts, Packet.Valid q) ∧ Packet.Valid p ∧ p.Is .ack ∧
  Packet.wires pkts ++ p.header.wire <+: x

/-- What is written of `ps` comes to an `ACK` only by one in `ps`. -/
theorem Acking.mem {x : Bytes} {ps : List Packet} (h : Acking x) (hx : x <+: Packet.wires ps)
    (hv : ∀ p ∈ ps, Packet.Valid p) : ∃ p ∈ ps, p.Is .ack := by
  obtain ⟨pkts, p, hpkts, -, hack, hp⟩ := h
  obtain ⟨cs, rfl, hcs⟩ := Packet.wire_code.all_prefix hpkts hv (hp.trans hx)
  cases cs with
  | nil =>
    have := hcs.length_le
    simp at this
  | cons q qs =>
    refine ⟨q, by simp, ?_⟩
    have hq : q.header.wire <+: List.flatMap Packet.wire (q :: qs) := by
      rw [List.flatMap_cons, Packet.wire, List.append_assoc]
      exact List.prefix_append _ _
    have heq : p.header.wire = q.header.wire := by
      exact (List.prefix_of_prefix_length_le hcs hq (by simp)).eq_of_length (by simp)
    have hhd : p.header = q.header := by rw [← TlvHeader.ofWire_wire p.header, heq, TlvHeader.ofWire_wire]
    rwa [Packet.Is, ← hhd]

theorem not_acking_of_forall {x : Bytes} (ps : List Packet) (hx : x <+: Packet.wires ps)
    (hv : ∀ p ∈ ps, Packet.Valid p) (hn : ∀ p ∈ ps, ¬ p.Is .ack) : ¬ Acking x := fun h => by
  obtain ⟨p, hp, hack⟩ := h.mem hx hv
  exact hn p hp hack

/-- The data in `r` is that of `F` from `off` on. -/
def Carries (F : Bytes) (off : Nat) (r : Bytes) : Prop := ∀ pkts tail,
  r = Packet.wires pkts ++ tail → (∀ p ∈ pkts, p.Valid ∧ p.Is .fileData) → payloads pkts <+: F.drop off

theorem Carries.before {F r r' : Bytes} {off : Nat} (h : Carries F off (r ++ r')) : Carries F off r := by
  intro pkts tail hr hv
  exact h pkts (tail ++ r') (by rw [hr, List.append_assoc]) hv

namespace Server

section Relied

variable {F file : Bytes} {total : UInt64} {t : List Event}

/-- What an upload that has made the calls `t` relies on. -/
structure Relied (F : Bytes) (total : UInt64) (t : List Event) (file : Bytes) : Prop where
  measured : ∀ fd st, (⟨.fstat fd, st⟩ : Event) ∈ t → resumePoint st ≤ total ∧ F.take (resumePoint st).toNat <+: file
  copied : ∀ m off data, (⟨.memcpy m off data, ()⟩ : Event) ∈ t →
    (∃ fd n, (⟨.ftruncate fd n .extend, true⟩ : Event) ∈ t) ∧ F.take (off + data.length) <+: file
  extended : (∃ fd n, (⟨.ftruncate fd n .extend, true⟩ : Event) ∈ t) → file.length = F.length

/-- It has not been cut. -/
def Uncut (t : List Event) : Prop := ∀ fd n r, (⟨.ftruncate fd n .cut, r⟩ : Event) ∉ t

/-- A resize to `n` leaves it what it relies on. -/
def LeftBy (F : Bytes) (t : List Event) (n : Int) : Prop :=
  (∀ fd st, (⟨.fstat fd, st⟩ : Event) ∈ t → (resumePoint st).toNat ≤ n) ∧
    ((∃ fd n, (⟨.ftruncate fd n .extend, true⟩ : Event) ∈ t) → F.length ≤ n)

theorem Relied.resize {n : Nat} (h : Relied F total t file) (hn : LeftBy F t n) (hle : n ≤ F.length) :
    Relied F total t (resize 0 n file) := by
  have hsame (hext : ∃ fd n, (⟨.ftruncate fd n .extend, true⟩ : Event) ∈ t) : FileImage.resize 0 n file = file := by
    have h₁ := h.extended hext
    have h₂ := hn.2 hext
    rw [show n = file.length by omega, resize_length]
  refine ⟨fun fd st hst => ?_, fun m off data hc => ?_, fun hext => ?_⟩
  · obtain ⟨hle, hp⟩ := h.measured fd st hst
    have hn := hn.1 fd st hst
    exact ⟨hle, prefix_resize_of_le hp (by rw [List.length_take]; omega)⟩
  · obtain ⟨hext, hp⟩ := h.copied m off data hc
    exact ⟨hext, by rwa [hsame hext]⟩
  · rw [hsame hext]
    exact h.extended hext

theorem Relied.store {off : Nat} {data : Bytes} (h : Relied F total t file) (hd : data <+: F.drop off) :
    Relied F total t (store file off data) where
  measured fd st hst := ⟨(h.measured fd st hst).1, take_prefix_store (h.measured fd st hst).2 hd⟩
  copied m off data hc := ⟨(h.copied m off data hc).1, take_prefix_store (h.copied m off data hc).2 hd⟩
  extended hext := by rw [length_store, h.extended hext]

/-- One more call. -/
theorem Relied.noted {c : Call} {r : Res c} (h : Relied F total t file)
    (hst : ∀ fd st, (⟨.fstat fd, st⟩ : Event) = ⟨c, r⟩ →
      resumePoint st ≤ total ∧ F.take (resumePoint st).toNat <+: file)
    (hcopy : ∀ m off data, (⟨.memcpy m off data, ()⟩ : Event) = ⟨c, r⟩ →
      (∃ fd n, (⟨.ftruncate fd n .extend, true⟩ : Event) ∈ t) ∧ F.take (off + data.length) <+: file)
    (hext : ∀ fd n, (⟨.ftruncate fd n .extend, true⟩ : Event) = ⟨c, r⟩ → file.length = F.length) :
    Relied F total (t ++ if c.traced then [⟨c, r⟩] else []) file := by
  refine ⟨fun fd st hmem => ?_, fun m off data hmem => ?_, fun ⟨fd, n, hmem⟩ => ?_⟩
  · rcases mem_noted hmem with hmem | heq
    · exact h.measured fd st hmem
    · exact hst fd st heq
  · have hcopied : (∃ fd n, (⟨.ftruncate fd n .extend, true⟩ : Event) ∈ t) ∧ F.take (off + data.length) <+: file := by
      rcases mem_noted hmem with hmem | heq
      · exact h.copied m off data hmem
      · exact hcopy m off data heq
    obtain ⟨⟨fd, n, hx⟩, hp⟩ := hcopied
    exact ⟨⟨fd, n, List.mem_append_left _ hx⟩, hp⟩
  · rcases mem_noted hmem with hmem | heq
    · exact h.extended ⟨fd, n, hmem⟩
    · exact hext fd n heq

end Relied

/-! ## Where a session stands -/

section Points

variable {env : Env} {b q : Proc} {path F file : Bytes} {total : UInt64} {t : List Event} {e : Call}

theorem PutsPoint.opened (hp : PutsPoint env b path total q e) (hc : e.Changes) (hne : e ≠ .openFile path .rdwrCreat)
    (ht : q.trace = b.trace ++ t) : Opened path t := by
  cases hp with
  | openFile => exact absurd rfl hne
  | @reset fd =>
    obtain rfl : _ = t := List.append_cancel_left ht
    exact ⟨fd, by simp [openedEvents]⟩
  | @extend fd =>
    obtain rfl : _ = t := List.append_cancel_left ht
    exact ⟨fd, open_mem_measured⟩
  | @memcpy u =>
    obtain rfl : u.trace path total = t := List.append_cancel_left ((Progress.proc_trace _).symm.trans ht)
    exact ⟨u.fd, by simp [Progress.trace, open_mem_measured]⟩
  | @cut u =>
    obtain rfl : _ = t := List.append_cancel_left ht
    exact ⟨u.fd, by simp [Progress.trace, open_mem_measured]⟩
  | _ => exact hc.elim

theorem PutsPoint.measures {fd : Nat} (hp : PutsPoint env b path total q (.fstat fd)) (ht : q.trace = b.trace ++ t) :
    q.fds fd = some ⟨path, 0⟩ ∧ Opened path t := by
  cases hp with
  | fstat =>
    obtain rfl : _ = t := List.append_cancel_left ht
    exact ⟨by simp, fd, by simp [openedEvents]⟩

/-- The blocks end where the last copy ended. -/
theorem copied_offset (m off : Nat) (pkts : List Packet) : payloads pkts = [] ∨ ∃ off' data,
    (⟨.memcpy m off' data, ()⟩ : Event) ∈ copyEvents (some m) off pkts ∧
      off' + data.length = off + (payloads pkts).length := by
  induction pkts generalizing off with
  | nil => exact .inl rfl
  | cons p ps ih =>
    rcases ih (off + p.data.length) with hnil | ⟨off', data, hmem, hend⟩
    · by_cases hp : p.data = []
      · exact .inl (by rw [payloads_cons, hp, hnil, List.append_nil])
      · exact .inr ⟨off, p.data, by simp [copyEvents, hp], by rw [payloads_cons, hnil, List.append_nil]⟩
    · refine .inr ⟨off', data, List.mem_append_right _ hmem, ?_⟩
      rw [hend, payloads_cons, List.length_append, Nat.add_assoc]

/-- What a session in its receive loop has of `F`. -/
theorem Relied.progress {u : Progress} {m : Nat} {t' : List Event} (hm : u.map = some m)
    (h : Relied F total (u.trace path total ++ t') file) :
    F.take (u.offset total) <+: file ∧ file.length = F.length := by
  have hext := h.extended ⟨u.fd, offT total, by simp [Progress.trace, mappedEvents, hm]⟩
  obtain ⟨hle, hstart⟩ := h.measured u.fd u.st (by simp [Progress.trace, fstat_mem_measured])
  refine ⟨?_, hext⟩
  rcases copied_offset m (startOffset total u.st).toNat u.pkts with hnil | ⟨off, data, hmem, hend⟩
  · rw [Progress.offset, Progress.data, hnil, List.length_nil, Nat.add_zero, startOffset, if_neg (UInt64.not_lt.2 hle)]
    exact hstart
  · rw [Progress.offset, Progress.data, ← hend]
    exact (h.copied m off data (by simp [Progress.trace, hm, hmem])).2

/-- The block that is copied is the next piece of `F`. -/
theorem PutsPoint.copies {m off : Nat} {data : Bytes} (hp : PutsPoint env b path total q (.memcpy m off data))
    (ht : q.trace = b.trace ++ t)
    (hdata : ∀ r s off, b.Since r s q → (resumePacket .putsResp off).wire <+: s → Carries F off.toNat r) :
    data <+: F.drop off ∧ off + data.length ≤ total.toNat ∧
      (∃ fd n, (⟨.ftruncate fd n .extend, true⟩ : Event) ∈ t) ∧ ∀ file, Relied F total t file → F.take off <+: file := by
  cases hp with
  | @memcpy u p m hu hm hne =>
    obtain rfl : u.trace path total = t := List.append_cancel_left ((Progress.proc_trace _).symm.trans ht)
    have hcarries := hdata _ _ _ ⟨Progress.proc_rcvd _, Progress.proc_sent _⟩ (List.prefix_refl _)
    have hpiece := hcarries _ [] (List.append_nil _).symm hu.blocks
    rw [payloads_append, payloads_cons, payloads_nil, List.append_nil] at hpiece
    have hfits := hu.fits
    rw [Progress.add_offset] at hfits
    refine ⟨?_, hfits, ⟨u.fd, offT total, by simp [Progress.trace, mappedEvents, hm]⟩, fun file h => ?_⟩
    · obtain ⟨x, hx⟩ := hpiece
      refine ⟨x, ?_⟩
      rw [Progress.offset, Progress.data, ← List.drop_drop, ← hx, List.append_assoc, List.drop_left]
    · rw [← List.append_nil (u.trace path total)] at h
      exact (h.progress hm).1

theorem PutsPoint.resizes_to {fd : Nat} {n : Int} {why : Resize} (hp : PutsPoint env b path total q (.ftruncate fd n why))
    (ht : q.trace = b.trace ++ t) (h : Relied F total t file) (hcut : why ≠ .cut) : n = offT total := by
  cases hp with
  | @reset fd st hfd hover =>
    obtain rfl : _ = t := List.append_cancel_left ht
    exact absurd (h.measured fd st (by simp)).1 (UInt64.not_le.2 hover)
  | extend => rfl
  | cut => exact absurd rfl hcut

theorem uncut_trace {u : Progress} : Uncut (u.trace path total) := fun fd n r h => by
  cases Progress.mem_trace h

/-- The acknowledgement is sent after the last block. -/
theorem PutsPoint.acks {buf r s : Bytes} (hp : PutsPoint env b path total q (.send buf)) (hs : b.Since r s q)
    (hack : Acking (s ++ buf)) (ht : q.trace = b.trace ++ t) : ∃ (u : Progress) (t' : List Event),
      t = u.trace path total ++ t' ∧ u.Ok b total ∧ u.offset total = total.toNat ∧ Uncut t := by
  have hsent (pre : Bytes) (h : b.sent ++ pre = q.sent) : s = pre := List.append_cancel_left (hs.sent.symm.trans h.symm)
  cases hp with
  | @resume fd st pre rest hfd hpre hne =>
    obtain rfl := hsent pre rfl
    exact absurd hack (not_acking_of_forall [putsResp total st] (by simpa using hpre) (by simp [putsResp_valid]) (by simp))
  | @replyEarly t e pre rest hv he hpre hne =>
    obtain rfl := hsent pre rfl
    exact absurd hack (not_acking_of_forall [e] (by simpa using hpre) (by simpa using hv)
      (by simpa using not_ack_of_error he))
  | @replyLate fd st c t e pre rest hf hc hv he hpre hne =>
    obtain rfl := hsent ((putsResp total st).wire ++ pre) rfl
    refine absurd hack (not_acking_of_forall [putsResp total st, e] ?_ (by simp [putsResp_valid, hv]) ?_)
    · simpa using hpre
    · simpa using not_ack_of_error he
  | @replyEnd u tail session session' success cut pre rest hu hstop hpre hne =>
    obtain rfl := hsent ((putsResp total u.st).wire ++ pre) rfl
    obtain rfl : _ = t := List.append_cancel_left ht
    cases success with
    | false =>
      refine absurd hack (not_acking_of_forall [putsResp total u.st, putsReply false] ?_
        (by simp [putsResp_valid, putsReply_valid]) ?_)
      · simpa using hpre
      · simp
    | true =>
      refine ⟨u, _, rfl, hu, hstop.full, fun fd n r h => ?_⟩
      rcases List.mem_append.1 h with h | h
      · exact uncut_trace fd n r h
      · rcases hm : u.map with _ | m <;> simp [closedEvents, unmappedEvents, hm] at h

end Points

/-! ## What one upload finds -/

section Gauged

variable {faults : Call → Prop} {env : Env} {b : Proc} {path C : Bytes} {total : UInt64} {session : Session}
  {packet : Packet} {fs : FS} {v v' : World} {c : Call} {r : Res c}

/-- The target holds `C` until it is measured, and `fstat` answers the length of `C`. -/
def Gauged (b : Proc) (path C : Bytes) (w : World) : Prop := ∃ t, w.proc.trace = b.trace ++ t ∧
  ((∀ fd st, (⟨.fstat fd, st⟩ : Event) ∉ t) → w.fs.bytes path = C ∧ (Opened path t → w.fs.Has path C)) ∧
  ∀ fd st, (⟨.fstat fd, st⟩ : Event) ∈ t → st = some C.length

theorem Gauged.start {fs : FS} : Gauged b path (fs.bytes path) ⟨fs, b⟩ :=
  ⟨[], (List.append_nil _).symm, fun _ => ⟨rfl, fun ⟨_, h⟩ => by simp at h⟩, by simp⟩

/-- The calls that change the target come after it has been measured. -/
theorem PutsPoint.gauged {q : Proc} {t : List Event} (hp : PutsPoint env b path total q c) (hc : c.Changes)
    (hopen : c ≠ .openFile path .rdwrCreat) (ht : q.trace = b.trace ++ t) : ∃ fd st, (⟨.fstat fd, st⟩ : Event) ∈ t := by
  cases hp with
  | openFile => exact absurd rfl hopen
  | @reset fd st =>
    obtain rfl : _ = t := List.append_cancel_left ht
    exact ⟨fd, st, by simp⟩
  | @extend fd st =>
    obtain rfl : _ = t := List.append_cancel_left ht
    exact ⟨fd, st, fstat_mem_measured⟩
  | @memcpy u =>
    rw [Progress.proc_trace] at ht
    obtain rfl : _ = t := List.append_cancel_left ht
    exact ⟨u.fd, u.st, by simp [Progress.trace, fstat_mem_measured]⟩
  | @cut u =>
    obtain rfl : _ = t := List.append_cancel_left ht
    exact ⟨u.fd, u.st, by simp [Progress.trace, fstat_mem_measured]⟩
  | _ => exact hc.elim

/-- It is measured once. -/
theorem PutsPoint.ungauged {q : Proc} {t : List Event} {fd : Nat} (hp : PutsPoint env b path total q (.fstat fd))
    (ht : q.trace = b.trace ++ t) (fd' : Nat) (st : Option Nat) : (⟨.fstat fd', st⟩ : Event) ∉ t := by
  cases hp with
  | fstat =>
    obtain rfl : _ = t := List.append_cancel_left ht
    simp [openedEvents]

theorem Gauged.step (h : Gauged b path C v) (hstat : ∀ fd, ¬ faults (.fstat fd))
    (hp : PutsPoint env b path total v.proc c) (hk : kernel (.quiet faults) v c r v') : Gauged b path C v' := by
  obtain ⟨t, ht, hbefore, hafter⟩ := h
  have ht' : v'.proc.trace = b.trace ++ (t ++ if c.traced then [⟨c, r⟩] else []) := by
    rw [kernel_traces hk, ht, List.append_assoc]
  by_cases hc : ∃ fd, c = .fstat fd
  · obtain ⟨fd, rfl⟩ := hc
    refine ⟨_, ht', fun hno => absurd (List.mem_append_right _ (List.mem_singleton_self _)) (hno fd r),
      fun fd' st hmem => ?_⟩
    rcases mem_noted hmem with hmem | he
    · exact hafter fd' st hmem
    · obtain ⟨hfd, hopen⟩ := hp.measures ht
      have hfile : v.fs.Has path C := (hbefore (hp.ungauged ht)).2 hopen
      cases he
      cases r with
      | none =>
        obtain ⟨fs, -, u, ⟨hf, -⟩, -⟩ := hk
        exact absurd hf (hstat fd)
      | some n => rw [(shows_has hfile).sizes hfd hk]
  · refine ⟨_, ht', fun hno => ?_, fun fd st hmem => ?_⟩
    · have hno' : ∀ fd st, (⟨.fstat fd, st⟩ : Event) ∉ t := fun fd st h => hno fd st (List.mem_append_left _ h)
      obtain ⟨hbytes, hhas⟩ := hbefore hno'
      by_cases hopen : c = .openFile path .rdwrCreat
      · subst hopen
        rcases kernel_create hk with ⟨rfl, hfs⟩ | ⟨fd, rfl, hfile⟩
        · rw [hfs]
          refine ⟨hbytes, fun ho => hhas ?_⟩
          rcases opened_noted ho with ho | ⟨fd, he⟩
          · exact ho
          · cases he
        · rw [hbytes] at hfile
          exact ⟨hfile.bytes, fun _ => hfile⟩
      · have hch : ¬ c.Changes := fun hch => by
          obtain ⟨fd, st, hmem⟩ := hp.gauged hch hopen ht
          exact hno' fd st hmem
        rw [kernel_still hk (Env.quiet_quiet _) hch]
        refine ⟨hbytes, fun ho => hhas ?_⟩
        rcases opened_noted ho with ho | ⟨fd, he⟩
        · exact ho
        · cases he
          exact absurd rfl hopen
    · rcases mem_noted hmem with hmem | he
      · exact hafter fd st hmem
      · cases he
        exact absurd ⟨fd, rfl⟩ hc

/-- **The answer of `fstat`** is the length of what was there. -/
theorem handlePuts_gauged {q : Io (Rc × Session)} (ht : uploadTarget session packet = some (path, total))
    (hstat : ∀ fd, ¬ faults (.fstat fd))
    (hrun : Steps (kernel (.quiet faults)) (handlePuts session packet, ⟨fs, b⟩) (q, v)) :
    Gauged b path (fs.bytes path) v :=
  wp_keeps (wp_handlePuts ht) (fun _ _ _ _ hp hk hg => hg.step hstat hp hk) .start hrun

end Gauged

section Sharing

variable {ι : Type} [DecidableEq ι] {faults : Call → Prop} {path F : Bytes} {total : UInt64}
  {c₀ c : Threads Call Res FS Proc ι (Rc × Session)} {ok : StepOk Call Res FS Proc ι (Rc × Session)}
  {i j : ι} {e : Call} {r : Res e} {k : Res e → Io (Rc × Session)} {s : FS} {l : Proc} {p : Io (Rc × Session)}

/-- Session `i` may still acknowledge. -/
def UnderWay (c₀ c : Threads Call Res FS Proc ι (Rc × Session)) (i : ι) : Prop :=
  (∀ a, c.prog i ≠ .ret a) ∧ Uncut (calls c₀ c i)

/-- Steps that find what they rely on and leave it to the others: a target that is measured is a start of `F`, and one
that is resized keeps what every other upload under way relies on. -/
def soundly (F path : Bytes) (c₀ : Threads Call Res FS Proc ι (Rc × Session)) :
    StepOk Call Res FS Proc ι (Rc × Session) := fun c j e r =>
  (∀ fd n, (⟨.fstat fd, some n⟩ : Event) = ⟨e, r⟩ → c.shared.bytes path <+: F) ∧
    ∀ fd n why, (⟨.ftruncate fd n why, true⟩ : Event) = ⟨e, r⟩ →
      ∀ i, i ≠ j → UnderWay c₀ c i → LeftBy F (calls c₀ c i) n

/-- What every session has received is from a client that uploads `F` from the offset announced to it. -/
def Clients (F : Bytes) (c₀ c : Threads Call Res FS Proc ι (Rc × Session)) : Prop := ∀ i r s off,
  (c₀.loc i).Since r s (c.loc i) → (resumePacket .putsResp off).wire <+: s → Carries F off.toNat r

structure Agrees (F path : Bytes) (total : UInt64) (c₀ c : Threads Call Res FS Proc ι (Rc × Session)) : Prop where
  opened : ∀ i, Opened path (calls c₀ c i) → c.shared.Has path (c.shared.bytes path)
  short : (c.shared.bytes path).length ≤ F.length
  relied : ∀ i, UnderWay c₀ c i → Relied F total (calls c₀ c i) (c.shared.bytes path)

theorem Clients.before (hs : kernel (.quiet faults) ⟨c.shared, c.loc j⟩ e r ⟨s, l⟩)
    (h : Clients F c₀ (c.put j s p l)) : Clients F c₀ c := by
  intro i r₁ s₁ off hsince hresp
  by_cases hi : i = j
  · subst hi
    obtain ⟨⟨r₂, hr₂⟩, s₂, hs₂⟩ := kernel_grows hs
    have hlater : (c₀.loc i).Since (r₁ ++ r₂) (s₁ ++ s₂) ((c.put i s p l).loc i) := by
      rw [Threads.put_loc_self]
      exact ⟨by rw [← List.append_assoc, ← hsince.rcvd]; exact hr₂.symm,
        by rw [← List.append_assoc, ← hsince.sent]; exact hs₂.symm⟩
    exact (h i _ _ off hlater (hresp.trans (List.prefix_append _ _))).before
  · exact h i r₁ s₁ off (by rwa [Threads.put_loc_ne hi]) hresp

/-- What a step does to what another upload relies on. -/
theorem Relied.across {t : List Event} {fs fs' : FS} (h : Relied F total t (fs.bytes path))
    (hstep : TargetStep path total fs fs' ⟨e, r⟩) (htotal : total.toNat = F.length)
    (hhas : e.Changes → e ≠ .openFile path .rdwrCreat → fs.Has path (fs.bytes path))
    (hleft : ∀ fd n why, (⟨.ftruncate fd n why, true⟩ : Event) = ⟨e, r⟩ → LeftBy F t n)
    (hpiece : ∀ m off data, e = .memcpy m off data → data <+: F.drop off) : Relied F total t (fs'.bytes path) := by
  cases hstep with
  | opened hfs => rwa [hfs.bytes]
  | @resized fd n why h0 hle hm =>
    have hl := hleft fd n why rfl
    have hn : (n.toNat : Int) = n := Int.toNat_of_nonneg h0
    rw [((hhas trivial (by simp)).modify hm).bytes]
    exact h.resize (by rwa [hn]) (by omega)
  | stored hm =>
    rw [((hhas trivial (by simp)).modify hm).bytes]
    exact h.store (hpiece _ _ _ rfl)
  | still _ heq => rwa [heq]

/-- What a session has measured. -/
theorem measured_next {fd : Nat} {st : Option Nat} {q : Proc} {w : World} (hfd : q.fds fd = some ⟨path, 0⟩)
    (hhas : s.Has path (s.bytes path)) (hk : kernel (.quiet faults) ⟨s, q⟩ (.fstat fd) st w)
    (hstart : ∀ n, st = some n → s.bytes path <+: F) (htotal : total.toNat = F.length) :
    resumePoint st ≤ total ∧ F.take (resumePoint st).toNat <+: s.bytes path := by
  cases st with
  | none => exact ⟨UInt64.le_iff_toNat_le.2 (Nat.zero_le _), List.nil_prefix⟩
  | some n =>
    obtain ⟨fs, hr, v, ⟨f, hf, hlt, hn, -⟩, -⟩ := hk
    obtain rfl : fs = s := hr
    obtain rfl : f = ⟨path, 0⟩ := Option.some.inj (hf.symm.trans hfd)
    obtain rfl : n = (fs.bytes path).length := hn _ hhas
    have hpre := hstart _ rfl
    have hnat := toNat_resumePoint (n := (fs.bytes path).length) (by omega)
    rw [UInt64.le_iff_toNat_le, hnat, htotal]
    exact ⟨hpre.length_le, by rw [← List.prefix_iff_eq_take.1 hpre]⟩

/-- What a step does to what the upload that makes it relies on. -/
theorem Relied.own {b q : Proc} {env : Env} {t : List Event} {fs fs' : FS} {w : World} (h : Relied F total t (fs.bytes path))
    (hpoint : PutsPoint env b path total q e) (htrace : q.trace = b.trace ++ t)
    (hstep : TargetStep path total fs fs' ⟨e, r⟩) (hs : kernel (.quiet faults) ⟨fs, q⟩ e r w)
    (htotal : total.toNat = F.length)
    (hopen : Opened path t → fs.Has path (fs.bytes path))
    (hmeasure : ∀ fd n, (⟨.fstat fd, some n⟩ : Event) = ⟨e, r⟩ → fs.bytes path <+: F)
    (hdata : ∀ r s off, b.Since r s q → (resumePacket .putsResp off).wire <+: s → Carries F off.toNat r)
    (hcut : ∀ fd n ok, (⟨.ftruncate fd n .cut, ok⟩ : Event) ≠ ⟨e, r⟩) :
    Relied F total (t ++ if e.traced then [⟨e, r⟩] else []) (fs'.bytes path) := by
  have hhas (hc : e.Changes) (hne : e ≠ .openFile path .rdwrCreat) := hopen (hpoint.opened hc hne htrace)
  refine (h.across hstep htotal hhas ?_ ?_).noted ?_ ?_ ?_
  · -- only the extension is left, and it is to the whole length of `F`
    rintro fd n why ⟨⟩
    obtain rfl := hpoint.resizes_to htrace h fun hw => hcut fd n true (by rw [hw])
    rw [offT_of_lt (offT_nonneg.1 hstep.nonneg)]
    refine ⟨fun fd st hst => ?_, fun _ => by omega⟩
    have := UInt64.le_iff_toNat_le.1 (h.measured fd st hst).1
    omega
  · rintro m off data rfl
    exact (hpoint.copies htrace hdata).1
  · rintro fd st ⟨⟩
    obtain ⟨hfd, ho⟩ := hpoint.measures htrace
    cases hstep with
    | still _ heq =>
      subst heq
      exact measured_next hfd (hopen ho) hs (fun n hn => hmeasure fd n (by rw [hn])) htotal
  · rintro m off data ⟨⟩
    obtain ⟨hpiece, hfits, hext, hstart⟩ := hpoint.copies htrace hdata
    cases hstep with
    | stored hm =>
      rw [((hhas trivial (by simp)).modify hm).bytes]
      exact ⟨hext, take_prefix_stored (hstart _ h) hpiece (by rw [h.extended hext]; omega)⟩
    | still hacts => exact absurd trivial hacts
  · rintro fd n ⟨⟩
    obtain rfl := hpoint.resizes_to htrace h (by simp)
    cases hstep with
    | resized h0 _ hm =>
      rw [((hhas trivial (by simp)).modify hm).bytes, length_resize, offT_of_lt (offT_nonneg.1 h0), Int.toNat_natCast,
        htotal]
    | still hacts => exact absurd trivial hacts

/-- What a step of one of the uploads keeps. -/
theorem Agrees.next (hup : Uploading path (fun _ => total) c₀) (htotal : total.toNat = F.length)
    (hrun : ParSteps (kernel (.quiet faults)) World.mk ok c₀ c) (hp : c.prog j = .call e k)
    (hs : kernel (.quiet faults) ⟨c.shared, c.loc j⟩ e r ⟨s, l⟩) (hok : soundly F path c₀ c j e r)
    (hdata : Clients F c₀ c) (h : Agrees F path total c₀ c) : Agrees F path total c₀ (c.put j s p l) := by
  have hpoint := hup.point hrun hp
  have htrace := trace_eq hrun j
  have hstep : TargetStep path total c.shared s ⟨e, r⟩ := targetStep hpoint hs
  refine ⟨opened_next hrun hs hstep h.opened, ?_, fun i hu => ?_⟩
  · apply hstep.length_le_size (by omega) h.short
    intro hc hne
    exact h.opened j (hpoint.opened hc hne htrace)
  · by_cases hi : i = j
    · subst hi
      have hcalls : calls c₀ (c.put i s p l) i = _ := calls_noted hrun hs
      obtain ⟨-, hu⟩ := hu
      rw [hcalls] at hu ⊢
      have hold : Relied F total (calls c₀ c i) (c.shared.bytes path) := by
        refine h.relied i ⟨fun a ha => ?_, fun fd n r hmem => hu fd n r (List.mem_append_left _ hmem)⟩
        rw [hp] at ha
        cases ha
      apply hold.own hpoint htrace hstep hs htotal (h.opened i) hok.1 (hdata i)
      rintro fd n ok ⟨⟩
      exact hu fd n ok (List.mem_append_right _ (by simp [Call.traced]))
    · rw [calls_ne hi]
      have hu' : UnderWay c₀ c i :=
        ⟨by simpa only [Threads.put_prog_ne hi] using hu.1, by simpa only [calls_ne hi] using hu.2⟩
      refine (h.relied i hu').across hstep htotal ?_ (fun fd n why he => hok.2 fd n why he i hi hu') ?_
      · intro hc hne
        exact h.opened j (hpoint.opened hc hne htrace)
      · rintro m off data rfl
        exact (hpoint.copies htrace (hdata j)).1

omit [DecidableEq ι] in
theorem Agrees.start (hstart : c.shared.bytes path <+: F) : Agrees F path total c c where
  opened i h := by simp [calls_self, Opened] at h
  short := hstart.length_le
  relied i _ := by
    rw [calls_self]
    refine ⟨fun _ _ h => by simp at h, fun _ _ _ h => by simp at h, ?_⟩
    rintro ⟨_, _, h⟩
    simp at h

theorem Agrees.run (hup : Uploading path (fun _ => total) c₀) (htotal : total.toNat = F.length)
    (hstart : c₀.shared.bytes path <+: F) (hrun : ParSteps (kernel (.quiet faults)) World.mk (soundly F path c₀) c₀ c) :
    Clients F c₀ c → Agrees F path total c₀ c := by
  refine Par.keeps (I := fun c => Clients F c₀ c → Agrees F path total c₀ c) (fun _ => .start hstart) ?_ ?_ hrun
  · intro c₁ i e k r s l hrun₁ hp hs hok h hdata
    have hdata₁ := hdata.before hs
    exact (h hdata₁).next hup htotal hrun₁ hp hs hok hdata₁
  · intro c₁ j p hgo h hdata
    have hloc (i : ι) : (c₁.put j c₁.shared p (c₁.loc j)).loc i = c₁.loc i := by
      by_cases hi : i = j
      · rw [hi, Threads.put_loc_self]
      · rw [Threads.put_loc_ne hi]
    have h₁ := h fun i r s off hs hresp => hdata i r s off (by rwa [hloc]) hresp
    refine ⟨fun i ho => h₁.opened i (by rwa [calls_loop] at ho), h₁.short, fun i hu => ?_⟩
    have hu₁ : UnderWay c₀ c₁ i := by
      refine ⟨fun a ha => ?_, by simpa only [calls_loop] using hu.2⟩
      by_cases hi : i = j
      · exact hgo a (hi ▸ ha)
      · exact hu.1 a (by rwa [Threads.put_prog_ne hi])
    rw [calls_loop]
    exact h₁.relied i hu₁

/-- **Acknowledged uploads are whole.** Any number of sessions upload the same `F` to one path that holds a start of
`F` or nothing, in any order of their steps; any call may fail. If every `fstat` finds a start of `F` and every `ftruncate`
leaves the other uploads what they rely on, then whenever a session sends an `ACK` the target holds `F`. -/
theorem handlePuts_acksWhole (hup : Uploading path (fun _ => total) c₀) (htotal : total.toNat = F.length)
    (hstart : c₀.shared.bytes path <+: F) (hdata : Clients F c₀ c)
    (hrun : ParSteps (kernel (.quiet faults)) World.mk (soundly F path c₀) c₀ c) {buf r s : Bytes}
    {k : IoRes Nat → Io (Rc × Session)} (hp : c.prog i = .call (.send buf) k) (hs : (c₀.loc i).Since r s (c.loc i))
    (hack : Acking (s ++ buf)) : c.shared.Has path F := by
  have h := Agrees.run hup htotal hstart hrun hdata
  obtain ⟨u, t', ht, hu, hfull, huncut⟩ := (hup.point hrun hp).acks hs hack (trace_eq hrun i)
  have hhas := h.opened i (ht ▸ ⟨u.fd, by simp [Progress.trace, open_mem_measured]⟩)
  have hrelied : Relied F total (u.trace path total ++ t') (c.shared.bytes path) := by
    rw [← ht]
    refine h.relied i ⟨fun a ha => ?_, huncut⟩
    rw [hp] at ha
    cases ha
  have hfile : F = c.shared.bytes path := by
    rcases hm : u.map with _ | m
    · -- there is nothing to upload
      have h0 : F.length = 0 := by rw [← htotal, hu.mapped.1 hm]; rfl
      have := h.short
      rw [List.length_eq_zero_iff.1 h0, List.length_eq_zero_iff.1 (show (c.shared.bytes path).length = 0 by omega)]
    · obtain ⟨hpre, hlen⟩ := hrelied.progress hm
      rw [hfull, htotal, List.take_length] at hpre
      exact hpre.eq_of_length hlen.symm
  exact hfile ▸ hhas

end Sharing

/-! ### Runs of two uploads of a byte -/

section Runs

variable {env : Env} {avail : Bytes} {α : Type} {R : Io α × World → Prop} {w : World} {session : Session}

/-- Up to the first call of a reply. -/
theorem run_replyCall (hR : Backward (fed env avail) R) {type : CmdType} {status : StatusCode} {msg : Bytes}
    {k : Rc × Session → Io α} (hlen : msg.length < maxPacketPayload.toNat)
    (h : ∀ k', R (.call (.send (textPacket type status msg).header.wire) k', w)) :
    R (reply session type status msg >>= k, w) := by
  obtain ⟨k', hk'⟩ := reply_eq_header session type status hlen
  rw [hk', bind_assoc]
  apply hR.iter
  simp only [TlvHeader.length_wire, List.drop_zero, perform_bind]
  exact h _

/-- The file is as long as announced, and nothing is sent. -/
theorem acks_run (faults : Call → Prop) (x : UInt8) :
    ∃ c, Steps (kernel (.quiet faults))
        (handlePuts .start (requestF 1), ⟨FS.put (fun _ => none) (lit "../tests/f") (byteFile x), .init⟩) c ∧
      (∃ k, c.1 = .call (.send (putsReply true).header.wire) k) ∧ c.2.proc.rcvd = endPacket.wire ∧
      c.2.proc.sent = (putsResp 1 (some 1)).wire ∧ c.2.fs.bytes (lit "../tests/f") = [x] ∧
      c.2.proc.trace = extendsThere ++ [⟨.mmap 0 1, some 0⟩, ⟨.munmap 0, ()⟩, ⟨.close 0, ()⟩] := by
  obtain ⟨fileName, virtualPath, hinfo, hname, hpath⟩ := uploadTarget_eq_some.1 (uploadTarget_requestF 1)
  unfold handlePuts
  simp only [hinfo, hpath, if_neg hname]
  have hR : Backward (fed (.quiet faults) endPacket.wire) fun c => _ :=
    backward_kernel fun c : Io (Rc × Session) × World =>
      (∃ k, c.1 = .call (.send (putsReply true).header.wire) k) ∧ c.2.proc.rcvd = endPacket.wire ∧
        c.2.proc.sent = (putsResp 1 (some 1)).wire ∧ c.2.fs.bytes (lit "../tests/f") = [x] ∧
        c.2.proc.trace = extendsThere ++ [⟨.mmap 0 1, some 0⟩, ⟨.munmap 0, ()⟩, ⟨.close 0, ()⟩]
  have hin : ([] : Bytes) <+: endPacket.wire := List.nil_prefix
  have hend : endPacket.Is .fileEnd := Packet.of_is.2 rfl
  apply run_open hR hin 0 rfl
  refine run_fstat hR hin (by simp [Proc.init]; rfl) rfl ?_
  apply run_sendResumePacket hR hin
  refine run_ftruncate (d := byteFile x) hR hin (by simp [Proc.init]; rfl) rfl (by decide) rfl ?_
  apply run_mmap hR hin 0 (by simp [Proc.init]; rfl) (by simp [Proc.init])
  apply hR.iter
  rw [bind_assoc]
  apply run_recvFollowPacket hR endPacket_valid (by simp [Proc.init])
  have hfull : (resumePoint (some (byteFile x).bytes.length) == 1) = true := rfl
  simp only [if_pos hend, pure_eq, ret_bind, unroll, uploadFinish, unmap, hfull, if_true]
  apply run_munmap hR (by simp [Proc.init])
  apply run_close hR (by simp [Proc.init])
  rw [← bind_ret (reply ..)]
  exact run_replyCall hR (by decide) fun k' =>
    ⟨_, .refl, ⟨k', rfl⟩, by simp [Proc.init], by simp [Proc.init]; rfl, by simp, by simp [Proc.init, extendsThere, offT]⟩

/-- The calls of an upload up to where its byte is stored. -/
def storedEvents : List Event :=
  [⟨.openFile (lit "../tests/f") .rdwrCreat, some 0⟩, ⟨.fstat 0, some 0⟩, ⟨.ftruncate 0 1 .extend, true⟩,
    ⟨.mmap 0 1, some 0⟩, ⟨.memcpy 0 0 [1], ()⟩]

/-- The byte is stored, and the end has not come. -/
theorem stores_run (faults : Call → Prop) :
    ∃ c, Steps (kernel (.quiet faults)) (handlePuts .start (requestF 1), ⟨fun _ => none, .init⟩) c ∧
      c.2.proc.rcvd = (dataPacket [1]).wire ∧ c.2.proc.sent = (putsResp 1 (some 0)).wire ∧
      c.2.proc.trace = storedEvents ∧ c.2.fs = FS.put (fun _ => none) (lit "../tests/f") (byteFile 1) := by
  obtain ⟨fileName, virtualPath, hinfo, hname, hpath⟩ := uploadTarget_eq_some.1 (uploadTarget_requestF 1)
  unfold handlePuts
  simp only [hinfo, hpath, if_neg hname]
  have hR : Backward (fed (.quiet faults) (dataPacket [1]).wire) fun c => _ :=
    backward_kernel fun c : Io (Rc × Session) × World =>
      c.2.proc.rcvd = (dataPacket [1]).wire ∧ c.2.proc.sent = (putsResp 1 (some 0)).wire ∧
      c.2.proc.trace = storedEvents ∧ c.2.fs = FS.put (fun _ => none) (lit "../tests/f") (byteFile 1)
  have hin : ([] : Bytes) <+: (dataPacket [1]).wire := List.nil_prefix
  apply run_create hR hin 0 rfl rfl
  refine run_fstat hR hin (by simp [Proc.init]; rfl) rfl ?_
  apply run_sendResumePacket hR hin
  refine run_ftruncate (c := .empty) (d := byteFile 0) hR hin (by simp [Proc.init]; rfl) rfl (by decide) rfl ?_
  apply run_mmap hR hin 0 (by simp [Proc.init]; rfl) (by simp [Proc.init])
  simp only
  rw [← bind_ret (uploadReceive ..)]
  refine run_takeBlock (D := [1]) (d := byteFile 1) hR _ (by simp [Proc.init]) (by simp; rfl) rfl (by simp) (by decide)
    (by decide) (by decide) fun p' hr hs _ ht => ⟨_, .refl, ?_, ?_, ?_, rfl⟩
  · simp [hr, Proc.init]
  · simp [hs, Proc.init]
    rfl
  · simp [ht, Proc.init, offT, storedEvents, Content.empty, resumePoint]

theorem carries_of_no_data {F r : Bytes} {off : Nat} (h : ∀ p : Packet, p.Valid → p.Is .fileData → ¬ p.wire <+: r) :
    Carries F off r := by
  intro pkts tail hr hv
  cases pkts with
  | nil => exact List.nil_prefix
  | cons p ps =>
    obtain ⟨hp, hd⟩ := hv p (by simp)
    refine absurd ?_ (h p hp hd)
    rw [hr, Packet.wires_cons, List.append_assoc]
    exact List.prefix_append _ _

theorem carries_nil {F : Bytes} {off : Nat} : Carries F off [] :=
  carries_of_no_data fun p _ _ h => p.wire_ne_nil (List.prefix_nil.1 h)

theorem carries_endPacket {F : Bytes} {off : Nat} : Carries F off endPacket.wire := by
  refine carries_of_no_data ?_
  intro p hp hd h
  obtain rfl := Packet.wire_code.word_prefix (y := []) hp endPacket_valid (by simpa using h)
  simp at hd

theorem acking_reply (total : UInt64) (st : Option Nat) :
    Acking ((putsResp total st).wire ++ (putsReply true).header.wire) :=
  ⟨[putsResp total st], putsReply true, by simp [putsResp_valid], putsReply_valid true, by simp, by simp⟩

/-- A block of `F` from the offset on. -/
theorem carries_dataPacket {F D : Bytes} {off : Nat} (hD : D <+: F.drop off) (hlen : D.length ≤ fileBlockSize) :
    Carries F off (dataPacket D).wire := by
  intro pkts tail hr hv
  cases pkts with
  | nil => exact List.nil_prefix
  | cons p ps =>
    rw [Packet.wires_cons, List.append_assoc] at hr
    obtain rfl : p = dataPacket D :=
      Packet.wire_code.word_prefix (y := []) (hv p (by simp)).1 (dataPacket_valid hlen) (by simp [hr])
    cases ps with
    | nil => simpa [payloads_cons, dataPacket] using hD
    | cons p' ps => simp [p'.wire_ne_nil] at hr

/-- A session acknowledges the zero that the other one has put there. -/
theorem handlePuts_acksZero :
    let c₀ := uploadsF (fun _ => none) fun _ : Bool => 1
    Uploading (lit "../tests/f") (fun _ => 1) c₀ ∧ ∃ c,
      ParSteps (kernel (.quiet fun _ => False)) World.mk (fun _ _ _ _ => True) c₀ c ∧ Clients [1] c₀ c ∧
      ∃ buf k r s, c.prog false = .call (.send buf) k ∧ (c₀.loc false).Since r s (c.loc false) ∧ Acking (s ++ buf) ∧
        ¬ c.shared.Has (lit "../tests/f") [1] := by
  intro c₀
  obtain ⟨⟨p, w⟩, hextends, hrcvd, hfs⟩ := extends_run fun _ => False
  obtain ⟨⟨_, w'⟩, hacks, ⟨k, rfl⟩, hrcvd', hsent', hfile, -⟩ := acks_run (fun _ => False) 0
  let c₁ := c₀.put true w.fs p w.proc
  let c₂ := c₁.put false w'.fs (.call (.send (putsReply true).header.wire) k) w'.proc
  have hprog₀ : c₀.prog true = handlePuts .start (requestF 1) := uploadsF_prog rfl
  have h₁ : ParSteps (kernel (.quiet fun _ => False)) World.mk (fun _ _ _ _ => True) c₀ c₁ :=
    runs_alone hprog₀ rfl rfl (fun _ _ _ => trivial) hextends
  obtain ⟨hprog, hloc⟩ : c₁.prog false = handlePuts .start (requestF 1) ∧ c₁.loc false = .init :=
    uploadsF_others (by simp) rfl
  have h₂ : ParSteps (kernel (.quiet fun _ => False)) World.mk (fun _ _ _ _ => True) c₁ c₂ :=
    runs_alone hprog hfs hloc (fun _ _ _ => trivial) hacks
  have hfalse : c₂.loc false = w'.proc := Threads.put_loc_self
  have htrue : c₂.loc true = w.proc := by rw [Threads.put_loc_ne (by simp), Threads.put_loc_self]
  refine ⟨uploading_uploadsF _ _, c₂, h₁.trans h₂, fun i r s off hs _ => ?_, _, k, endPacket.wire,
    (putsResp 1 (some 1)).wire, Threads.put_prog_self, ?_, acking_reply _ _, fun h => ?_⟩
  · cases i with
    | true =>
      obtain rfl : [] = r := hrcvd.symm.trans (htrue ▸ hs.rcvd)
      exact carries_nil
    | false =>
      obtain rfl : endPacket.wire = r := hrcvd'.symm.trans (hfalse ▸ hs.rcvd)
      exact carries_endPacket
  · rw [hfalse]
    exact ⟨hrcvd', hsent'⟩
  · have hbytes : w'.fs.bytes (lit "../tests/f") = [1] := h.bytes
    rw [hfile] at hbytes
    simp at hbytes

/-- Alone, a session measures what was there. -/
theorem handlePuts_measures {faults : Call → Prop} {session : Session} {packet : Packet} {path : Bytes}
    {total : UInt64} {fs : FS} {b : Proc} {fd : Nat} {k : Option Nat → Io (Rc × Session)} {v : World}
    (ht : uploadTarget session packet = some (path, total)) (hstat : ∀ fd, ¬ faults (.fstat fd))
    (hrun : Steps (kernel (.quiet faults)) (handlePuts session packet, ⟨fs, b⟩) (.call (.fstat fd) k, v)) :
    v.fs.bytes path = fs.bytes path := by
  obtain ⟨t, htrace, hbefore, -⟩ := handlePuts_gauged ht hstat hrun
  have hp := wp_check (wp_handlePuts ht) hrun
  exact (hbefore (PutsPoint.ungauged hp htrace)).1

theorem resumePacket_offset {off off' : UInt64}
    (h : (resumePacket .putsResp off).wire <+: (resumePacket .putsResp off').wire) : off = off' := by
  have hpacket := Packet.wire_code.word_prefix (y := []) (resumePacket_valid _ off) (resumePacket_valid _ off')
    (by simpa using h)
  have hload := congrArg (fun p => loadU64 p.data) hpacket
  simpa [resumePacket] using hload

/-- One session has stored its byte, and the other one, which finds it there, acknowledges it. -/
theorem handlePuts_acksWhole_both : ∃ c : Threads Call Res FS Proc Bool (Rc × Session),
    (c.loc true).trace = storedEvents ∧ (∃ k, c.prog false = .call (.send (putsReply true).header.wire) k) ∧
      c.shared.Has (lit "../tests/f") [1] := by
  obtain ⟨⟨p, w⟩, hstores, hrcvd, hsent, htrace, hfs⟩ := stores_run fun _ => False
  obtain ⟨⟨_, w'⟩, hacks, ⟨k, rfl⟩, hrcvd', hsent', -, htrace'⟩ := acks_run (fun _ => False) 1
  let c₀ := uploadsF (fun _ => none) fun _ : Bool => 1
  let c₁ := c₀.put true w.fs p w.proc
  let c₂ := c₁.put false w'.fs (.call (.send (putsReply true).header.wire) k) w'.proc
  have htrue : c₂.loc true = w.proc := by rw [Threads.put_loc_ne (by simp), Threads.put_loc_self]
  have hfalse : c₂.loc false = w'.proc := Threads.put_loc_self
  have hprog₀ : c₀.prog true = handlePuts .start (requestF 1) := uploadsF_prog rfl
  obtain ⟨hprog, hloc⟩ : c₁.prog false = handlePuts .start (requestF 1) ∧ c₁.loc false = .init :=
    uploadsF_others (by simp) rfl
  have hnone : c₀.shared.bytes (lit "../tests/f") = [] := rfl
  -- the first measures nothing, and there is nobody else yet
  have h₁ : ParSteps (kernel (.quiet fun _ => False)) World.mk (soundly [1] (lit "../tests/f") c₀) c₀ c₁ := by
    refine runs_alone hprog₀ rfl rfl (fun hsteps _ _ => ⟨?_, ?_⟩) hstores
    · rintro fd n ⟨⟩
      rw [Threads.put_shared, handlePuts_measures (uploadTarget_requestF 1) (fun _ => id) hsteps, hnone]
      exact List.nil_prefix
    · intro fd n why _ i hi _
      rw [calls_ne hi, calls_self]
      exact ⟨fun _ _ h => by simp at h, fun ⟨_, _, h⟩ => by simp at h⟩
  -- the second measures the byte, and keeps it
  have h₂ : ParSteps (kernel (.quiet fun _ => False)) World.mk (soundly [1] (lit "../tests/f") c₀) c₁ c₂ := by
    refine runs_alone hprog hfs hloc (fun hsteps hs hrest => ⟨?_, ?_⟩) hacks
    · rintro fd n ⟨⟩
      rw [Threads.put_shared, handlePuts_measures (uploadTarget_requestF 1) (fun _ => id) hsteps, FS.bytes_put]
      exact List.prefix_refl _
    · rintro fd n why ⟨⟩ i hi _
      obtain rfl : i = true := by simpa using hi
      have hmem := mem_through hs rfl hrest
      rw [htrace'] at hmem
      obtain ⟨-, rfl, -⟩ : fd = 0 ∧ n = 1 ∧ why = .extend := by simpa [extendsThere] using hmem
      have hcalls : calls c₀ c₁ true = storedEvents := by
        rw [calls, Threads.put_loc_self]
        exact htrace
      rw [calls_ne hi, hcalls]
      refine ⟨fun fd st hmem => ?_, fun _ => le_refl _⟩
      obtain ⟨-, rfl⟩ : fd = 0 ∧ st = some 0 := by simpa [storedEvents] using hmem
      decide
  have hdata : Clients [1] c₀ c₂ := by
    intro i r s off hs hresp
    cases i with
    | true =>
      rw [htrue] at hs
      obtain rfl : (dataPacket [1]).wire = r := hrcvd.symm.trans hs.rcvd
      obtain rfl : (putsResp 1 (some 0)).wire = s := hsent.symm.trans hs.sent
      obtain rfl := resumePacket_offset hresp
      exact carries_dataPacket (List.prefix_refl _) (by decide)
    | false =>
      rw [hfalse] at hs
      obtain rfl : endPacket.wire = r := hrcvd'.symm.trans hs.rcvd
      exact carries_endPacket
  have hhas := handlePuts_acksWhole (uploading_uploadsF _ _) rfl (by rw [hnone]; exact List.nil_prefix)
    hdata (h₁.trans h₂) Threads.put_prog_self (by rw [hfalse]; exact ⟨hrcvd', hsent'⟩) (acking_reply _ _)
  exact ⟨c₂, by rw [htrue, htrace], ⟨k, Threads.put_prog_self⟩, hhas⟩

end Runs

end Server
end WindCloud
