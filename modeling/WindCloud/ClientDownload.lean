import WindCloud.Client
import WindCloud.UploadSafety
/-!
# What the client's `handle_gets` writes

`Fetching` relates, at any moment, what the client has received, what it has sent and what its
local file holds; `DownloadEnd` is how it returns. From the moment the resume offset is sent the
file is only appended to (`Fetches.grows`). What is said of the file holds if nobody else touches
it and it can be measured (`Alone`); what is said of the streams always does.
-/

namespace WindCloud

open Interaction Prog FileImage Server

namespace Client

/-! ## The streams and the file -/

def downloadRequest (arg : Bytes) : Packet := .of .getsReq .ok (arg ++ [0])

/-- The size that `GETS_RESP` announces. -/
def announced (p : Packet) : UInt64 := loadU64 (p.data.drop pathMax)

/-- What the client asks for: the file, and its bytes from the offset on. -/
def asked (arg : Bytes) (p : Packet) (st : Option Nat) : List Packet :=
  [downloadRequest arg, resumePacket .resumePos (startOffset (announced p) st)]

/-- Nobody else touches the local file, and it can be measured. -/
def Alone (env : Env) : Prop := env.Quiet ∧ ∀ fd, ¬ env.faults (.fstat fd)

/-- The answer `p` to the request, and the measure `st` of the local file, which held `L`. -/
structure Located (env : Env) (L : Bytes) (p : Packet) (st : Option Nat) : Prop where
  valid : p.Valid
  resp : p.Is .getsResp
  len : p.header.dataLen = .ofNat fileInfoSize
  measured : Measured env st L
  size : ∀ n, st = some n → n < 2 ^ 63

/-- A download may have received `r` and sent `s` when the file system is `fs`. -/
inductive Fetching (env : Env) (arg L : Bytes) : Bytes → Bytes → FS → Prop
  | asking {r s : Bytes} {fs : FS} : s <+: (downloadRequest arg).wire → (Alone env → fs.bytes arg = L) →
      Fetching env arg L r s fs
  | resuming {p : Packet} {st : Option Nat} {s : Bytes} {fs : FS} : Located env L p st →
      s <+: Packet.wires (asked arg p st) → (Alone env → fs.Has arg (kept (announced p) st L)) →
      Fetching env arg L p.wire s fs
  | storing {p : Packet} {st : Option Nat} {pkts : List Packet} {tail Y : Bytes} {fs : FS} : Located env L p st →
      (∀ q ∈ pkts, Packet.Valid q ∧ q.Is .fileData) → Y <+: payloads pkts →
      (Alone env → fs.Has arg (kept (announced p) st L ++ Y)) →
      Fetching env arg L (p.wire ++ (Packet.wires pkts ++ tail)) (Packet.wires (asked arg p st)) fs

/-- The resume offset has been sent. -/
def Positioned (b : Proc) (arg : Bytes) (v : Proc) : Prop :=
  ∃ r offset, b.Since r (Packet.wires [downloadRequest arg, resumePacket .resumePos offset]) v

/-- The streams and the file after the call; from the resume offset on the file grows. -/
structure Fetches (env : Env) (b : Proc) (arg L : Bytes) (v : World) (c : Call) : Prop where
  after : ∀ x v', kernel env v c x v' → ∃ r s, b.Since r s v'.proc ∧ Fetching env arg L r s v'.fs
  grows : ∀ x v', kernel env v c x v' → Alone env → Positioned b arg v.proc → v.fs.bytes arg <+: v'.fs.bytes arg

/-- The calls whose failure ends a download after its start. -/
def Stops : Call → Prop
  | .send _ | .recv .. | .calloc _ | .openFile _ .rdwrCreat | .ftruncate _ _ .local | .lseek .. | .write .. => True
  | _ => False

/-- How `handle_gets` returns when it has received `r` and sent `s`. -/
inductive DownloadEnd (env : Env) (arg L : Bytes) : Rc → Bytes → Bytes → FS → Prop
  | refused {p : Packet} {fs : FS} : p.Valid → p.Is .error →
      DownloadEnd env arg L .fail p.wire (downloadRequest arg).wire fs
  | odd {p : Packet} {fs : FS} : p.Valid → ¬ p.Is .error →
      ¬ (p.Is .getsResp ∧ p.header.dataLen = .ofNat fileInfoSize) →
      DownloadEnd env arg L .fail p.wire (downloadRequest arg).wire fs
  | done {p e : Packet} {st : Option Nat} {pkts : List Packet} {fs : FS} : Located env L p st →
      (∀ q ∈ pkts, Packet.Valid q ∧ q.Is .fileData) → e.Valid → e.Is .fileEnd →
      (Alone env → fs.Has arg (kept (announced p) st L ++ payloads pkts)) →
      DownloadEnd env arg L .ok (Packet.wires (p :: (pkts ++ [e]))) (Packet.wires (asked arg p st)) fs
  | stopped {p e : Packet} {st : Option Nat} {pkts : List Packet} {fs : FS} : Located env L p st →
      (∀ q ∈ pkts, Packet.Valid q ∧ q.Is .fileData) → e.Valid → ¬ e.Is .fileEnd → ¬ e.Is .fileData →
      DownloadEnd env arg L .fail (Packet.wires (p :: (pkts ++ [e]))) (Packet.wires (asked arg p st)) fs
  | broken {c : Call} {r s : Bytes} {fs : FS} : env.faults c → Stops c → DownloadEnd env arg L .fail r s fs
  | garbled {ps : List Packet} {bs s : Bytes} {fs : FS} : (∀ p ∈ ps, Packet.Valid p) → bs.length = 20 →
      ¬ (TlvHeader.ofWire bs).Ok → DownloadEnd env arg L .fail (Packet.wires ps ++ bs) s fs

section Rules

variable {env : Env} {b : Proc} {arg L : Bytes} {v w : World} {c : Call} {r s rest : Bytes} {fs fs' : FS}
  {p : Packet} {st : Option Nat}

theorem downloadRequest_valid (h : arg.length < pathMax) : (downloadRequest arg).Valid :=
  Packet.of_valid _ _ (by
    have hm : pathMax ≤ maxPacketPayload.toNat := by decide
    rw [List.length_append]
    exact (Nat.succ_le_of_lt h).trans hm)

theorem Fetching.frame (h : Fetching env arg L r s fs) (hfs : Alone env → fs' = fs) : Fetching env arg L r s fs' := by
  cases h with
  | asking hs h => exact .asking hs fun ha => hfs ha ▸ h ha
  | resuming hl hs h => exact .resuming hl hs fun ha => hfs ha ▸ h ha
  | storing hl hp hY h => exact .storing hl hp hY fun ha => hfs ha ▸ h ha

/-- A call that leaves the files. -/
theorem Fetches.still (hc : ¬ c.Changes) (h : ∀ x v', kernel env v c x v' → ∃ r s, b.Since r s v'.proc ∧
    Fetching env arg L r s v.fs) : Fetches env b arg L v c where
  after x v' hk := by
    obtain ⟨r, s, hs, hf⟩ := h x v' hk
    exact ⟨r, s, hs, hf.frame fun ha => kernel_still hk ha.1 hc⟩
  grows x v' hk ha _ := by rw [kernel_still hk ha.1 hc]

theorem Fetches.idle (h : b.Since r s v.proc) (hf : Fetching env arg L r s v.fs) (hc : ¬ c.Changes)
    (hs : c.sends = some []) (hr : ∀ wait n, c ≠ .recv wait n) : Fetches env b arg L v c :=
  .still hc fun x v' hk => by
    obtain ⟨s', h', hpre⟩ := h.wrote hk hs hr
    obtain rfl := List.prefix_nil.1 hpre
    exact ⟨r, s, by simpa using h', hf⟩

theorem Fetches.send (h : b.Since r s v.proc) (hf : ∀ s', s' <+: rest → Fetching env arg L r (s ++ s') v.fs) :
    Fetches env b arg L v (.send rest) :=
  .still id fun x v' hk => by
    obtain ⟨s', h', hpre⟩ := h.wrote hk rfl (by simp)
    exact ⟨r, _, h', hf s' hpre⟩

theorem Fetches.recv {wait : Wait} {n : Nat} (h : b.Since r s v.proc)
    (hf : ∀ r', Fetching env arg L (r ++ r') s v.fs) : Fetches env b arg L v (.recv wait n) :=
  .still id fun x v' hk => by
    obtain ⟨r', s', h', hpre⟩ := h.step hk rfl
    obtain rfl := List.prefix_nil.1 hpre
    exact ⟨_, s, by simpa using h', hf r'⟩

/-- Before the offset is sent there is nothing to show of the file's growth. -/
theorem not_positioned (h : b.Since r (downloadRequest arg).wire v.proc) : ¬ Positioned b arg v.proc := by
  rintro ⟨r', offset, h'⟩
  have hs := List.append_cancel_left (h.sent.symm.trans h'.sent)
  simp [Packet.wire_ne_nil] at hs

theorem bytes_create (fs : FS) (path : Bytes) :
    FS.bytes (Function.update fs path (some ((fs path).getD (.reg .empty)))) path = fs.bytes path := by
  unfold FS.bytes
  rcases h : fs path with _ | c | _ <;> simp [Content.empty]

theorem Fetches.create (h : b.Since r (downloadRequest arg).wire v.proc) (hfile : Alone env → v.fs.bytes arg = L) :
    Fetches env b arg L v (.openFile arg .rdwrCreat) where
  after x v' hk := by
    obtain ⟨s', h', hpre⟩ := h.wrote hk rfl (by simp)
    obtain rfl := List.prefix_nil.1 hpre
    refine ⟨r, _, h', .asking (by simp) fun ha => ?_⟩
    obtain ⟨fs, hr, u, he, rfl⟩ := hk
    obtain rfl := ha.1 hr
    rcases x with _ | fd
    · obtain ⟨-, rfl⟩ := he
      exact hfile ha
    · obtain ⟨-, -, rfl⟩ := he
      exact (bytes_create _ _).trans (hfile ha)
  grows _ _ _ _ hp := absurd hp (not_positioned h)

theorem Fetches.reset {fd pos : Nat} (hl : Located env L p st) (hover : resumePoint st > announced p)
    (h : b.Since p.wire (downloadRequest arg).wire v.proc) (hfd : v.proc.fds fd = some ⟨arg, pos⟩)
    (hfile : Alone env → v.fs.Has arg L) : Fetches env b arg L v (.ftruncate fd 0 .local) where
  after x v' hk := by
    obtain ⟨s', h', hpre⟩ := h.wrote hk rfl (by simp)
    obtain rfl := List.prefix_nil.1 hpre
    rw [List.append_nil] at h'
    obtain ⟨fs, hr, u, he, rfl⟩ := hk
    rcases x with _ | _
    · obtain ⟨-, rfl⟩ := he
      refine ⟨_, _, h', .asking (List.prefix_refl _) fun ha => ?_⟩
      obtain rfl := ha.1 hr
      exact (hfile ha).bytes
    · obtain ⟨f, fs', hf, -, hm, rfl⟩ := he
      obtain rfl : f = ⟨arg, pos⟩ := Option.some.inj (hf.symm.trans hfd)
      refine ⟨_, _, h', .resuming hl (by simp [asked]) fun ha => ?_⟩
      obtain rfl := ha.1 hr
      simpa [Call.traced, kept, hover] using (hfile ha).modify hm
  grows _ _ _ _ hp := absurd hp (not_positioned h)

/-- A write at the end of the file appends a part of what it is given. -/
theorem write_appends {fd pos : Nat} {data C : Bytes} {x : IoRes Nat} {v' : World}
    (hk : kernel env v (.write fd data) x v') (hfd : v.proc.fds fd = some ⟨arg, pos⟩)
    (hfile : Alone env → v.fs.Has arg C ∧ pos = C.length) :
    ∃ d, d <+: data ∧ (Alone env → v'.fs.Has arg (C ++ d)) := by
  obtain ⟨fs, hr, u, he, rfl⟩ := hk
  rcases x with _ | _ | m
  · obtain rfl := he
    exact ⟨[], List.nil_prefix, fun ha => by simpa [Call.traced, ha.1 hr] using (hfile ha).1⟩
  · obtain ⟨-, rfl⟩ := he
    exact ⟨[], List.nil_prefix, fun ha => by simpa [Call.traced, ha.1 hr] using (hfile ha).1⟩
  · obtain ⟨f, fs', hf, -, -, hm, rfl⟩ := he
    obtain rfl : f = ⟨arg, pos⟩ := Option.some.inj (hf.symm.trans hfd)
    refine ⟨data.take m, List.take_prefix _ _, fun ha => ?_⟩
    obtain ⟨hC, rfl⟩ := hfile ha
    obtain rfl := ha.1 hr
    have h := hC.modify hm
    rwa [patch_length] at h

theorem Fetches.write {fd pos : Nat} {data C : Bytes} (h : b.Since r s v.proc) (hfd : v.proc.fds fd = some ⟨arg, pos⟩)
    (hfile : Alone env → v.fs.Has arg C ∧ pos = C.length)
    (hf : ∀ d fs, d <+: data → (Alone env → fs.Has arg (C ++ d)) → Fetching env arg L r s fs) :
    Fetches env b arg L v (.write fd data) where
  after x v' hk := by
    obtain ⟨d, hd, hfile'⟩ := write_appends hk hfd hfile
    obtain ⟨s', h', hpre⟩ := h.wrote hk rfl (by simp)
    obtain rfl := List.prefix_nil.1 hpre
    exact ⟨r, s, by simpa using h', hf d _ hd hfile'⟩
  grows x v' hk ha _ := by
    obtain ⟨d, -, hfile'⟩ := write_appends hk hfd hfile
    rw [(hfile ha).1.bytes, (hfile' ha).bytes]
    exact List.prefix_append _ _

/-! ## The functions -/

variable {pkts : List Packet} {q : Packet} {fd : Nat}

theorem wp_fetchPacket {type : CmdType} {status : StatusCode} {payload : Option Bytes} {len : UInt32}
    (data : Bytes) {Q : Rc → World → Prop} (hs : b.Since r s w.proc) (hp : payload.getD [] = data)
    (hlen : len = .ofNat data.length) (hmax : data.length ≤ maxPacketPayload.toNat)
    (hf : ∀ s' fs, env.rely w.fs fs → s' <+: (Packet.of type status data).wire → Fetching env arg L r (s ++ s') fs)
    (ok : ∀ fs, env.rely w.fs fs → Q .ok ⟨fs, w.proc.addSent (Packet.of type status data).wire⟩)
    (fail : ∀ fs pre, env.rely w.fs fs → pre <+: (Packet.of type status data).wire →
      (∃ c, env.faults c ∧ Stops c) → Q .fail ⟨fs, w.proc.addSent pre⟩) :
    wp (kernel env) (Fetches env b arg L) (sendPacket type status payload len) Q w := by
  refine wp_sendPacket hp hlen hmax ?_ ok ?_
  · intro fs pre rest hr hpre _
    refine .send hs.addSent ?_
    intro s' hs'
    rw [List.append_assoc]
    exact hf _ fs hr (((List.prefix_append_right_inj pre).2 hs').trans hpre)
  · intro fs pre rest hr hpre _ hfault
    exact fail fs pre hr ((List.prefix_append _ _).trans hpre) ⟨_, hfault, trivial⟩

theorem wp_fetchRecv {Q : Rc × Packet → World → Prop} (hs : b.Since r s w.proc)
    (hf : ∀ r' fs, env.rely w.fs fs → Fetching env arg L (r ++ r') s fs)
    (ok : ∀ fs p, env.rely w.fs fs → Packet.Valid p → Q (.ok, p) ⟨fs, w.proc.addRcvd p.wire⟩)
    (fail : ∀ fs bs p, env.rely w.fs fs → Broken env .reply bs → Q (.fail, p) ⟨fs, w.proc.addRcvd bs⟩) :
    wp (kernel env) (Fetches env b arg L) (recvPacket .reply) Q w := by
  refine wp_recvPacket ?_ ?_ ok fun fs bs p hr _ hb _ => fail fs bs p hr hb
  · intro fs bs n hr _
    exact .recv hs.addRcvd fun r' => by rw [List.append_assoc]; exact hf _ fs hr
  · intro fs bs n hr _
    exact .idle hs.addRcvd (hf bs fs hr) id rfl (by simp)

/-- What is stored of the data packets, when `Y` of their bytes have been written. -/
structure Storing (env : Env) (b : Proc) (arg L : Bytes) (fd : Nat) (p : Packet) (st : Option Nat)
    (pkts : List Packet) (Y : Bytes) (v : World) : Prop where
  located : Located env L p st
  packets : ∀ q ∈ pkts, Packet.Valid q ∧ q.Is .fileData
  stored : Y <+: payloads pkts
  since : b.Since (Packet.wires (p :: pkts)) (Packet.wires (asked arg p st)) v.proc
  file : Alone env → v.fs.Has arg (kept (announced p) st L ++ Y)
  fd : v.proc.fds fd = some ⟨arg, (startOffset (announced p) st).toNat + Y.length⟩

/-- The position in the file is its end. -/
theorem Located.kept_length (h : Located env L p st) (hL : L.length < 2 ^ 63) (ha : Alone env) :
    (kept (announced p) st L).length = (startOffset (announced p) st).toNat := by
  have hne : st ≠ none := fun hn => by
    obtain ⟨fd, hf⟩ := h.measured.fault hn
    exact ha.2 fd hf
  rcases resume_cases (announced p) (h.measured.size ha.1) hL with ⟨hn, -, -⟩ | ⟨-, -, hk, hs⟩ | ⟨-, -, hk, hs⟩
  · exact absurd hn hne
  · rw [hk, hs]
  · rw [hk, hs]
    rfl

theorem Storing.fetching {Y : Bytes} (h : Storing env b arg L fd p st pkts Y v) (tail : Bytes) (hfs : Alone env → fs = v.fs) :
    Fetching env arg L (Packet.wires (p :: pkts) ++ tail) (Packet.wires (asked arg p st)) fs := by
  have hf : Fetching env arg L (p.wire ++ (Packet.wires pkts ++ tail)) (Packet.wires (asked arg p st)) fs :=
    .storing h.located h.packets h.stored fun ha => hfs ha ▸ h.file ha
  rwa [Packet.wires_cons, List.append_assoc]

theorem Storing.note {Y : Bytes} {x : Res c} (h : Storing env b arg L fd p st pkts Y v) (hr : env.rely v.fs fs) :
    Storing env b arg L fd p st pkts Y ⟨fs, v.proc.note c x⟩ :=
  { h with since := h.since.note, file := fun ha => by rw [ha.1 hr]; exact h.file ha }

/-- One block is written. -/
theorem wp_writeN {Q : Rc → World → Prop} (hL : L.length < 2 ^ 63) (hq : q.Valid)
    (his : q.Is .fileData)
    (hw : Storing env b arg L fd p st pkts (payloads pkts) w)
    (ok : ∀ v, Storing env b arg L fd p st (pkts ++ [q]) (payloads (pkts ++ [q])) v → Q .ok v)
    (fail : ∀ v Y c, Storing env b arg L fd p st (pkts ++ [q]) Y v → env.faults c → Stops c → Q .fail v) :
    wp (kernel env) (Fetches env b arg L) (writeN fd q.data) Q ⟨w.fs, w.proc.addRcvd q.wire⟩ := by
  have hlen : (payloads (pkts ++ [q])).length = (payloads pkts).length + q.data.length := by simp
  have hpackets : ∀ q' ∈ pkts ++ [q], Packet.Valid q' ∧ q'.Is .fileData := forall_mem_snoc hw.packets ⟨hq, his⟩
  have hsince : b.Since (Packet.wires (p :: (pkts ++ [q]))) (Packet.wires (asked arg p st)) (w.proc.addRcvd q.wire) := by
    have h : b.Since _ _ (w.proc.addRcvd q.wire) := hw.since.addRcvd
    exact ⟨by simpa using h.rcvd, h.sent⟩
  refine wp_loop (fun total v => total ≤ q.data.length ∧
    Storing env b arg L fd p st (pkts ++ [q]) (payloads pkts ++ q.data.take total) v) ⟨by omega, ?_⟩ ?_
  · exact ⟨hw.located, hpackets, by simp, hsince, by simpa using hw.file, by simpa using hw.fd⟩
  rintro total v ⟨hle, hv⟩
  split
  · rename_i hlt
    have hstored {d : Bytes} (hd : d <+: q.data.drop total) :
        payloads pkts ++ (q.data.take total ++ d) <+: payloads (pkts ++ [q]) := by
      have h : q.data.take total ++ d <+: q.data.take total ++ q.data.drop total :=
        (List.prefix_append_right_inj _).2 hd
      rw [List.take_append_drop] at h
      simpa using (List.prefix_append_right_inj (payloads pkts)).2 h
    have hfile (ha : Alone env) : v.fs.Has arg (kept (announced p) st L ++ (payloads pkts ++ q.data.take total)) ∧
        (startOffset (announced p) st).toNat + (payloads pkts ++ q.data.take total).length =
          (kept (announced p) st L ++ (payloads pkts ++ q.data.take total)).length := by
      refine ⟨hv.file ha, ?_⟩
      rw [← hv.located.kept_length hL ha, ← List.length_append]
    refine wp_write (.write hv.since hv.fd hfile fun d fs hd hfs => ?_) ?_ ?_ ?_
    · have hf : Fetching env arg L (p.wire ++ (Packet.wires (pkts ++ [q]) ++ [])) (Packet.wires (asked arg p st)) fs :=
        .storing hv.located hpackets (hstored hd) (by simpa using hfs)
      simpa using hf
    · intro fs hr
      exact ⟨hle, hv.note hr⟩
    · intro fs hr hf
      exact fail _ _ _ (hv.note hr) hf trivial
    · intro fs fs' m f hr hf hm h0 hmod
      obtain rfl : f = ⟨arg, _⟩ := Option.some.inj (hf.symm.trans hv.fd)
      have hnext : payloads pkts ++ q.data.take (total + m) =
          payloads pkts ++ (q.data.take total ++ (q.data.drop total).take m) := by rw [List.take_add]
      rw [List.length_drop] at hm
      have hadd : Storing env b arg L fd p st (pkts ++ [q]) (payloads pkts ++ q.data.take (total + m)) ⟨fs',
          (v.proc.setFd fd (some ⟨arg, (startOffset (announced p) st).toNat + (payloads pkts ++
            q.data.take total).length + m⟩)).note (.write fd (q.data.drop total)) (.done m)⟩ := by
        refine ⟨hv.located, hpackets, ?_, hv.since.setFd, fun ha => ?_, ?_⟩
        · rw [hnext]
          exact hstored (List.take_prefix _ _)
        · obtain ⟨hC, hpos⟩ := hfile ha
          obtain rfl := ha.1 hr
          have h := hC.modify hmod
          rw [hpos, patch_length] at h
          rwa [hnext, ← List.append_assoc (payloads pkts), ← List.append_assoc (kept _ _ _)]
        · simp only [Proc.note_fds, Proc.setFd_fds, Function.update_self, List.length_append, List.length_take]
          congr 2
          omega
      rcases m with _ | m
      · exact fail _ _ _ hadd (h0 rfl) trivial
      · exact ⟨by omega, hadd⟩
  · obtain rfl : total = q.data.length := by omega
    exact ok v (by simpa using hv)

/-- The postcondition: one of the ways to return. -/
def Fetched (env : Env) (b : Proc) (arg L : Bytes) (rc : Rc) (v : World) : Prop :=
  ∃ r s, b.Since r s v.proc ∧ Fetching env arg L r s v.fs ∧ DownloadEnd env arg L rc r s v.fs

/-- A receive that failed, after the packets `ps`. -/
theorem DownloadEnd.of_broken {bs : Bytes} {ps : List Packet} (hv : ∀ p ∈ ps, Packet.Valid p)
    (h : Broken env .reply bs) : DownloadEnd env arg L .fail (Packet.wires ps ++ bs) s fs := by
  rcases h with ⟨n, h⟩ | ⟨n, h⟩ | ⟨hl, hbad⟩
  · exact .broken h trivial
  · exact .broken h trivial
  · exact .garbled hv hl hbad

theorem DownloadEnd.frame {rc : Rc} (h : DownloadEnd env arg L rc r s fs) (hfs : Alone env → fs' = fs) :
    DownloadEnd env arg L rc r s fs' := by
  cases h with
  | refused h he => exact .refused h he
  | odd h he hr => exact .odd h he hr
  | done hl hp h he hf => exact .done hl hp h he fun ha => hfs ha ▸ hf ha
  | stopped hl hp h he hd => exact .stopped hl hp h he hd
  | broken hf hs => exact .broken hf hs
  | garbled hv hl hb => exact .garbled hv hl hb

/-- `close(fd); return rc;` -/
theorem wp_closeFetched {rc : Rc} (h : Fetched env b arg L rc w) :
    wp (kernel env) (Fetches env b arg L) (do Sys.close fd; return rc) (Fetched env b arg L) w := by
  obtain ⟨r, s, hs, hf, hend⟩ := h
  refine wp_close (.idle hs hf id rfl (by simp)) ?_
  intro fs hr
  exact ⟨r, s, hs.setFd, hf.frame fun ha => ha.1 hr, hend.frame fun ha => ha.1 hr⟩

/-- The packet loop and the end. -/
theorem wp_receiveBlocks {localSize : UInt64} (hL : L.length < 2 ^ 63) (hw : Storing env b arg L fd p st [] [] w) :
    wp (kernel env) (Fetches env b arg L) (receiveBlocks fd localSize) (Fetched env b arg L) w := by
  refine wp_loop (fun _ v => ∃ pkts, Storing env b arg L fd p st pkts (payloads pkts) v) ⟨[], hw⟩ ?_
  rintro _ v ⟨pkts, hv⟩
  have hp : ∀ q ∈ p :: pkts, Packet.Valid q :=
    List.forall_mem_cons.2 ⟨hv.located.valid, fun q hq => (hv.packets q hq).1⟩
  refine wp_bind.2 (wp_fetchRecv hv.since (fun r' fs hr => hv.fetching r' fun ha => ha.1 hr) ?_ ?_)
  · intro fs q hr hq
    have hlen : q.data.take q.header.dataLen.toNat = q.data := by rw [← hq.length, List.take_length]
    have hsince : b.Since (Packet.wires (p :: (pkts ++ [q]))) (Packet.wires (asked arg p st)) (v.proc.addRcvd q.wire) := by
      have h : b.Since _ _ (v.proc.addRcvd q.wire) := hv.since.addRcvd
      exact ⟨by simpa using h.rcvd, h.sent⟩
    have hfetch : Fetching env arg L (Packet.wires (p :: (pkts ++ [q]))) (Packet.wires (asked arg p st)) fs := by
      simpa using hv.fetching q.wire fun ha => ha.1 hr
    simp only [hlen]
    split
    · rename_i hend
      refine ⟨_, _, hsince, hfetch, .done hv.located hv.packets hq hend fun ha => ?_⟩
      obtain rfl := ha.1 hr
      exact hv.file ha
    split
    · rename_i hend herr
      refine ⟨_, _, hsince, hfetch, .stopped hv.located hv.packets hq hend fun hd => ?_⟩
      have := herr.symm.trans hd
      simp at this
    split
    · rename_i hend herr hdata
      exact ⟨_, _, hsince, hfetch, .stopped hv.located hv.packets hq hend hdata⟩
    · rename_i hend herr hdata
      rw [not_not] at hdata
      have hv' : Storing env b arg L fd p st pkts (payloads pkts) ⟨fs, v.proc⟩ :=
        { hv with file := fun ha => by rw [ha.1 hr]; exact hv.file ha }
      refine wp_bind.2 (wp_writeN hL hq hdata hv' ?_ ?_)
      · intro v' h
        exact ⟨_, h⟩
      · intro v' Y c h hf hc
        refine ⟨_, _, h.since, ?_, .broken hf hc⟩
        simpa using h.fetching [] fun _ => rfl
  · intro fs bs q hr hb
    exact ⟨_, _, hv.since.addRcvd, hv.fetching bs fun ha => ha.1 hr, .of_broken hp hb⟩

theorem Located.offset_lt (h : Located env L p st) : (startOffset (announced p) st).toNat < 2 ^ 63 := by
  unfold startOffset
  split
  · decide
  · rcases st with _ | n
    · decide
    · have hn := h.size n rfl
      rwa [toNat_resumePoint (by omega)]

/-- From the offset on. -/
theorem wp_downloadTo (hL : L.length < 2 ^ 63) (hl : Located env L p st)
    (hs : b.Since p.wire (downloadRequest arg).wire w.proc) (hfd : w.proc.fds fd = some ⟨arg, 0⟩)
    (hfile : Alone env → w.fs.Has arg (kept (announced p) st L)) :
    wp (kernel env) (Fetches env b arg L) (downloadTo fd (startOffset (announced p) st)) (Fetched env b arg L) w := by
  have hresume {s' : Bytes} {fs : FS} (hfs : env.rely w.fs fs)
      (h : s' <+: (resumePacket .resumePos (startOffset (announced p) st)).wire) :
      Fetching env arg L p.wire ((downloadRequest arg).wire ++ s') fs := by
    refine .resuming hl ?_ fun ha => by rw [ha.1 hfs]; exact hfile ha
    simpa [asked] using h
  have hstart {fs : FS} (hfs : env.rely w.fs fs) : Fetching env arg L p.wire (downloadRequest arg).wire fs := by
    simpa using hresume hfs List.nil_prefix
  refine wp_lseek (.idle hs (hstart (env.refl _)) id rfl (by simp)) ?_ ?_
  · intro fs hr hf
    exact wp_closeFetched ⟨_, _, hs.note, hstart hr, .broken hf trivial⟩
  · intro fs f hr hf _
    obtain rfl : f = ⟨arg, 0⟩ := Option.some.inj (hf.symm.trans hfd)
    have hs₁ : b.Since p.wire (downloadRequest arg).wire ((w.proc.setFd fd (some ⟨arg,
        (offT (startOffset (announced p) st)).toNat⟩)).note (.lseek fd (offT (startOffset (announced p) st))) true) :=
      hs.setFd
    refine wp_bind.2 (wp_fetchPacket (resumePayload (startOffset (announced p) st)) hs₁ rfl (by simp)
      (by rw [length_resumePayload]; decide) (fun s' fs' hr' hs' => hresume (env.trans hr hr') hs') ?_ ?_)
    · intro fs' hr'
      have hr := env.trans hr hr'
      have hstoring : Storing env b arg L fd p st [] [] ⟨fs', (((w.proc.setFd fd (some ⟨arg,
          (offT (startOffset (announced p) st)).toNat⟩)).note (.lseek fd (offT (startOffset (announced p) st))) true)).addSent
            (resumePacket .resumePos (startOffset (announced p) st)).wire⟩ := by
        refine ⟨hl, by simp, List.nil_prefix, ?_, fun ha => ?_, ?_⟩
        · have h : b.Since _ _ (Proc.addSent _ (resumePacket .resumePos (startOffset (announced p) st)).wire) :=
            hs₁.addSent
          exact ⟨by simpa using h.rcvd, by simpa [asked] using h.sent⟩
        · rw [ha.1 hr, List.append_nil]
          exact hfile ha
        · simp [offT_of_lt hl.offset_lt]
      refine wp_bind.2 (wp_mono (wp_receiveBlocks hL hstoring) fun rc v hv => ?_)
      exact wp_closeFetched hv
    · intro fs' pre hr' hpre ⟨c, hf, hc⟩
      exact wp_closeFetched ⟨_, _, hs₁.addSent, hresume (env.trans hr hr') hpre, .broken hf hc⟩

/-- From the answer of `fstat` on. -/
theorem wp_locate (hL : L.length < 2 ^ 63) (hl : Located env L p st)
    (hs : b.Since p.wire (downloadRequest arg).wire w.proc) (hfd : w.proc.fds fd = some ⟨arg, 0⟩)
    (hfile : Alone env → w.fs.Has arg L) :
    wp (kernel env) (Fetches env b arg L)
      (if resumePoint st > announced p then do
        match ← Sys.ftruncate fd 0 .local with
        | false =>
          Sys.close fd
          return .fail
        | true => downloadTo fd 0
      else downloadTo fd (resumePoint st)) (Fetched env b arg L) w := by
  split
  · rename_i hover
    have hstart : startOffset (announced p) st = 0 := if_pos hover
    refine wp_ftruncate (.reset hl hover hs hfd hfile) ?_ ?_
    · intro fs hr hf
      refine wp_closeFetched ⟨_, _, hs.note, .asking (List.prefix_refl _) fun ha => ?_, .broken hf trivial⟩
      rw [ha.1 hr]
      exact (hfile ha).bytes
    · intro fs fs' f hr hf _ hm
      obtain rfl : f = ⟨arg, 0⟩ := Option.some.inj (hf.symm.trans hfd)
      simp only
      rw [← hstart]
      refine wp_downloadTo hL hl hs.note hfd ?_
      intro ha
      obtain rfl := ha.1 hr
      simpa [kept, hover] using (hfile ha).modify hm
  · rename_i hover
    have hstart : startOffset (announced p) st = resumePoint st := if_neg hover
    rw [← hstart]
    refine wp_downloadTo hL hl hs hfd ?_
    intro ha
    simpa [kept, hover] using hfile ha

/-- **What the client's `handle_gets` does**, at every call and at its end. -/
theorem wp_handleGets {req : CommandRequest} (hlen : req.arg.length < pathMax) :
    wp (kernel env) (Fetches env w.proc req.arg (w.fs.bytes req.arg)) (handleGets req)
      (Fetched env w.proc req.arg (w.fs.bytes req.arg)) w := by
  have hL := w.fs.bytes_lt req.arg
  have hask {s : Bytes} (r : Bytes) {fs : FS} (h : s <+: (downloadRequest req.arg).wire) (hfs : env.rely w.fs fs) :
      Fetching env req.arg (w.fs.bytes req.arg) r s fs := .asking h fun ha => by rw [ha.1 hfs]
  have hmax : (req.arg ++ [0]).length ≤ maxPacketPayload.toNat := by
    have hm : pathMax ≤ maxPacketPayload.toNat := by decide
    rw [List.length_append]
    exact (Nat.succ_le_of_lt hlen).trans hm
  refine wp_bind.2 (wp_fetchPacket (req.arg ++ [0]) (.refl _) rfl (by simp [UInt32.ofNat_add]) hmax
    (fun s' fs hr hs' => hask [] hs' hr) ?_ ?_)
  · intro fs hr
    have hs : w.proc.Since [] (downloadRequest req.arg).wire (w.proc.addSent (downloadRequest req.arg).wire) :=
      (Proc.Since.refl w.proc).addSent
    refine wp_bind.2 (wp_fetchRecv hs (fun r' fs' hr' => hask _ (List.prefix_refl _) (env.trans hr hr')) ?_ ?_)
    · intro fs₁ p hr₁ hp
      have hr₁ := env.trans hr hr₁
      have hs₁ : w.proc.Since p.wire (downloadRequest req.arg).wire
          ((w.proc.addSent (downloadRequest req.arg).wire).addRcvd p.wire) := hs.addRcvd
      have hstill {fs' : FS} (h : env.rely w.fs fs') := hask p.wire (List.prefix_refl _) h
      simp only
      split
      · rename_i herr
        exact ⟨_, _, hs₁, hstill hr₁, .refused hp herr⟩
      split
      · rename_i herr hresp
        exact ⟨_, _, hs₁, hstill hr₁, .odd hp herr (by tauto)⟩
      · rename_i herr hresp
        rw [not_or, not_not, not_not] at hresp
        refine wp_openCreat (.create hs₁ fun ha => by rw [ha.1 hr₁]) ?_ ?_
        · intro fs₂ hr₂ hf
          exact ⟨_, _, hs₁.note, hstill (env.trans hr₁ hr₂), .broken hf trivial⟩
        · intro fs₂ fs₃ fd hr₂ _ hhas hfree
          have hs₂ : w.proc.Since p.wire (downloadRequest req.arg).wire ((((w.proc.addSent
              (downloadRequest req.arg).wire).addRcvd p.wire).setFd fd (some ⟨req.arg, 0⟩)).note
                (.openFile req.arg .rdwrCreat) (some fd)) := hs₁.setFd
          have hfile (ha : Alone env) : fs₃.Has req.arg (w.fs.bytes req.arg) := ha.1 (env.trans hr₁ hr₂) ▸ hhas
          have hopened {fs : FS} (hfs : env.rely fs₃ fs) : Fetching env req.arg (w.fs.bytes req.arg) p.wire
              (downloadRequest req.arg).wire fs :=
            .asking (List.prefix_refl _) fun ha => by rw [ha.1 hfs]; exact (hfile ha).bytes
          refine wp_fstat (.idle hs₂ (hopened (env.refl _)) id rfl (by simp)) ?_ ?_
          · intro fs₄ hr₄ hf
            have hl : Located env (w.fs.bytes req.arg) p none :=
              ⟨hp, hresp.1, hresp.2, ⟨fun _ => ⟨fd, hf⟩, by simp⟩, by simp⟩
            exact wp_locate hL hl hs₂.note (by simp) fun ha => ha.1 hr₄ ▸ hfile ha
          · intro fs₄ n f hr₄ hf hlt hn
            obtain rfl : f = ⟨req.arg, 0⟩ := by simpa using hf.symm
            have hl : Located env (w.fs.bytes req.arg) p (some n) := by
              refine ⟨hp, hresp.1, hresp.2, ⟨by simp, fun hq n' h => ?_⟩, fun n' h => ?_⟩
              · obtain rfl := Option.some.inj h
                have hfile' : fs₄.Has req.arg (w.fs.bytes req.arg) := by
                  rw [hq hr₄]
                  exact hq (env.trans hr₁ hr₂) ▸ hhas
                exact hn _ hfile'
              · obtain rfl := Option.some.inj h
                exact hlt
            exact wp_locate hL hl hs₂.note (by simp) fun ha => ha.1 hr₄ ▸ hfile ha
    · intro fs₁ bs p hr₁ hb
      refine ⟨_, _, hs.addRcvd, hask _ (List.prefix_refl _) (env.trans hr hr₁), ?_⟩
      rw [← Packet.wires_nil]
      exact .of_broken (by simp) hb
  · intro fs pre hr hpre ⟨c, hf, hc⟩
    exact ⟨_, _, (Proc.Since.refl _).addSent, hask [] hpre hr, .broken hf hc⟩

end Rules
end Client
end WindCloud
