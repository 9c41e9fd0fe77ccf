import WindCloud.Lib.Par
import WindCloud.PathJail
import WindCloud.UploadSteps
/-!
# What others see of an upload

While a session uploads to a file any number of others may download it, and the server may stop
dead: what the file holds at that moment is what is served, and what a later upload resumes after.
Downloads change no file (`handleGets_reads`), so the uploading session makes its run as if it were alone
(`Par.solo`).

The extension before the mapping puts zeros into the file that nobody sent (`upload_showsZero`). Where it
adds nothing, the file is at every step made of what it held and of the data received (`MadeOf`).
-/

namespace WindCloud

open Interaction Prog FileImage

/-- `file` is made of the bytes of `C`, each where it was, and of the payloads of the `FILE_DATA` packets in `r`, laid
out from the offset that the `CMD_PUTS_RESP` in `s` announced. -/
def MadeOf (C r s file : Bytes) : Prop := ∃ pkts tail,
  r = Packet.wires pkts ++ tail ∧ (∀ p ∈ pkts, p.Valid ∧ p.Is .fileData) ∧
  ∀ i x, file[i]? = some x → C[i]? = some x ∨ ∃ off : UInt64, (resumePacket .putsResp off).wire <+: s ∧
    off.toNat ≤ i ∧ (payloads pkts)[i - off.toNat]? = some x

section MadeOf

variable {C r s file file' : Bytes}

theorem MadeOf.start : MadeOf C [] [] C := ⟨[], [], rfl, by simp, fun _ _ h => .inl h⟩

theorem MadeOf.grow (h : MadeOf C r s file) (r' s' : Bytes) : MadeOf C (r ++ r') (s ++ s') file := by
  obtain ⟨pkts, tail, rfl, hp, hfile⟩ := h
  refine ⟨pkts, tail ++ r', by rw [List.append_assoc], hp, fun i x hx => ?_⟩
  rcases hfile i x hx with h | ⟨off, hs, h⟩
  · exact .inl h
  · exact .inr ⟨off, hs.trans (List.prefix_append _ _), h⟩

/-- A file that is cut. -/
theorem MadeOf.take (h : MadeOf C r s file) (n : Nat) : MadeOf C r s (file.take n) := by
  obtain ⟨pkts, tail, hr, hp, hfile⟩ := h
  refine ⟨pkts, tail, hr, hp, fun i x hx => hfile i x ?_⟩
  rw [List.getElem?_take] at hx
  split at hx
  · exact hx
  · cases hx

theorem MadeOf.resize (h : MadeOf C r s file) {n : Nat} (hn : n ≤ file.length) : MadeOf C r s (resize 0 n file) := by
  rw [resize_of_le hn]
  exact h.take n

/-- A block that has been received goes to its place. -/
theorem MadeOf.store {pkts : List Packet} {p : Packet} {off : UInt64} (hv : ∀ q ∈ pkts ++ [p], q.Valid ∧ q.Is .fileData)
    (h : MadeOf C (Packet.wires (pkts ++ [p])) s file) (hs : (resumePacket .putsResp off).wire <+: s) :
    MadeOf C (Packet.wires (pkts ++ [p])) s (store file (off.toNat + (payloads pkts).length) p.data) := by
  obtain ⟨pkts₀, tail, hr, hv₀, hfile⟩ := h
  obtain ⟨cs, hcs, -⟩ : ∃ cs, pkts ++ [p] = pkts₀ ++ cs ∧ tail <+: Packet.wires cs :=
    Packet.wire_code.all_prefix (fun q hq => (hv₀ q hq).1) (fun q hq => (hv q hq).1) (hr ▸ List.prefix_refl _)
  refine ⟨pkts ++ [p], [], (List.append_nil _).symm, hv, fun i x hx => ?_⟩
  rw [getElem?_store] at hx
  split at hx
  · split at hx
    · rename_i hin
      refine .inr ⟨off, hs, by omega, ?_⟩
      rw [payloads_append, List.getElem?_append_right (by omega), payloads_cons, payloads_nil, List.append_nil]
      rwa [Nat.sub_sub]
    · rcases hfile i x hx with h | ⟨off', hs', hle, h⟩
      · exact .inl h
      · refine .inr ⟨off', hs', hle, ?_⟩
        obtain ⟨hlt, -⟩ := List.getElem?_eq_some_iff.1 h
        rw [hcs, payloads_append, List.getElem?_append_left hlt, h]
  · cases hx

end MadeOf

namespace Server

/-! ## Downloads change nothing -/

theorem unchanging_of_downloads {c : Call} (h : c.Downloads) : ¬ c.Changes := by
  cases c with
  | recv wait n => exact id
  | send buf => exact id
  | calloc n => exact id
  | close fd => exact id
  | sendfile fd off n => exact id
  | _ => cases h

theorem handleGets_reads (session : Session) (arg : Bytes) :
    every (fun c => ¬ c.Changes) (handleGets session arg) fun _ => True := by
  have hpeer {c : Call} (hc : c.ToPeer) : ¬ c.Changes := unchanging_of_downloads (.of_toPeer hc)
  have hreply {status : StatusCode} {msg : Bytes} :
      every (fun c => ¬ c.Changes) (reply session .error status msg) fun _ => True :=
    every_bind (every_mono (sendTextReply_calls ..) (fun _ => hpeer) fun _ => id) fun _ _ => trivial
  unfold handleGets
  split
  · exact hreply
  · refine every_perform id ?_
    intro fd
    cases fd with
    | none => exact hreply
    | some fd =>
      refine every_perform id ?_
      intro size
      cases size with
      | none => exact every_perform id fun _ => hreply
      | some size =>
        refine every_bind (every_mono (sendPacket_calls ..) (fun _ => hpeer) fun _ => id) fun rc _ => ?_
        cases rc with
        | fail => exact every_perform id fun _ => trivial
        | ok => exact every_mono (resumeDownload_downloads rfl) (fun _ => unchanging_of_downloads) fun _ _ => trivial

/-! ## The steps of the upload -/

section Steps

variable {b : Proc} {path C : Bytes} {total : UInt64} {t : List Event} {faults : Call → Prop}

/-- What holds at every moment of an upload that began in `b`. -/
structure Shown (b : Proc) (path C : Bytes) (total : UInt64) (w : World) : Prop where
  made : ∃ r s, b.Since r s w.proc ∧ MadeOf C r s (w.fs.bytes path)
  stage : ∃ t, w.proc.trace = b.trace ++ t ∧ (Opened path t → w.fs.Has path (w.fs.bytes path)) ∧
    (Extended t → (w.fs.bytes path).length = total.toNat)

/-- The steps that are allowed: an extension finds the target as long as announced. -/
def Unextended (path : Bytes) (fs : FS) : (c : Call) → Res c → Prop
  | .ftruncate _ n .extend, true => n ≤ (fs.bytes path).length
  | _, _ => True

theorem Shown.start {fs : FS} (b : Proc) (path : Bytes) (total : UInt64) : Shown b path (fs.bytes path) total ⟨fs, b⟩ where
  made := ⟨[], [], .refl b, .start⟩
  stage := ⟨[], (List.append_nil _).symm, fun ⟨_, h⟩ => by simp at h, fun ⟨⟨_, _, h⟩, _⟩ => by simp at h⟩

variable {v v' : World} {c : Call} {r : Res c}

/-- One step: what it may do to the target. -/
theorem Shown.step (h : Shown b path C total v) (hk : kernel (.quiet faults) v c r v')
    (hmade : ∀ r s, b.Since r s v.proc → MadeOf C r s (v.fs.bytes path) → MadeOf C r s (v'.fs.bytes path))
    (hstage : ∀ t, v.proc.trace = b.trace ++ t → (Opened path t → v.fs.Has path (v.fs.bytes path)) →
      (Extended t → (v.fs.bytes path).length = total.toNat) →
      (Opened path (t ++ if c.traced then [⟨c, r⟩] else []) → v'.fs.Has path (v'.fs.bytes path)) ∧
      (Extended (t ++ if c.traced then [⟨c, r⟩] else []) → (v'.fs.bytes path).length = total.toNat)) :
    Shown b path C total v' := by
  obtain ⟨⟨r₀, s₀, hs, hm⟩, t, ht, hopen, hext⟩ := h
  obtain ⟨⟨r', hr'⟩, s', hs'⟩ := kernel_grows hk
  refine ⟨⟨r₀ ++ r', s₀ ++ s', ⟨?_, ?_⟩, (hmade r₀ s₀ hs hm).grow r' s'⟩, _, ?_, hstage t ht hopen hext⟩
  · rw [← hr', hs.rcvd, List.append_assoc]
  · rw [← hs', hs.sent, List.append_assoc]
  · rw [kernel_traces hk, ht, List.append_assoc]

/-- A step that leaves the files, and neither opens the target nor extends it. -/
theorem Shown.same (h : Shown b path C total v) (hk : kernel (.quiet faults) v c r v') (hfs : v'.fs = v.fs)
    (ho : ∀ fd, (⟨.openFile path .rdwrCreat, some fd⟩ : Event) ≠ ⟨c, r⟩)
    (he : ∀ fd n, (⟨.ftruncate fd n .extend, true⟩ : Event) ≠ ⟨c, r⟩) :
    Shown b path C total v' := by
  refine h.step hk (fun _ _ _ hm => hfs ▸ hm) fun t _ hopen hext => ⟨fun h => ?_, fun h => ?_⟩
  · rw [hfs]
    rcases opened_noted h with h | ⟨fd, h⟩
    · exact hopen h
    · exact absurd h (ho fd)
  · rw [hfs]
    rcases extended_noted h with h | ⟨fd, n, h⟩
    · exact hext h
    · exact absurd h (he fd n)

theorem Shown.still (h : Shown b path C total v) (hk : kernel (.quiet faults) v c r v') (hc : ¬ c.Changes) :
    Shown b path C total v' := by
  refine h.same hk (kernel_still hk (Env.quiet_quiet _) hc) ?_ ?_
  · rintro fd ⟨⟩
    exact hc trivial
  · rintro fd n ⟨⟩
    exact hc trivial

/-- A resize that lengthens nothing. -/
theorem Shown.resize {fd : Nat} {n : Int} {why : Resize} {ok : Bool} (h : Shown b path C total v)
    (hk : kernel (.quiet faults) v (.ftruncate fd n why) ok v') (hfd : v.proc.fds fd = some ⟨path, 0⟩)
    (hopen : ∀ t, v.proc.trace = b.trace ++ t → Opened path t)
    (hle : ok = true → 0 ≤ n → n ≤ (v.fs.bytes path).length)
    (hlen : ok = true → 0 ≤ n → ∀ t, v.proc.trace = b.trace ++ t →
      Extended (t ++ [⟨.ftruncate fd n why, true⟩]) → n.toNat = total.toNat) : Shown b path C total v' := by
  rcases kernel_ftruncate hk hfd with ⟨rfl, hfs⟩ | ⟨rfl, hn, hm⟩
  · exact h.same hk hfs (by simp) (by simp)
  · have hto (t : List Event) (ht : v.proc.trace = b.trace ++ t) (ho : Opened path t → v.fs.Has path (v.fs.bytes path)) :
        v'.fs.Has path (FileImage.resize 0 n.toNat (v.fs.bytes path)) := (ho (hopen t ht)).modify hm
    obtain ⟨t, ht, ho, -⟩ := h.stage
    refine h.step hk (fun r s _ hmade => ?_) fun t' ht' ho' _ => ⟨fun _ => ?_, fun he => ?_⟩
    · rw [(hto t ht ho).bytes]
      exact hmade.resize (by have := hle rfl hn; omega)
    · rw [(hto t' ht' ho').bytes]
      exact hto t' ht' ho'
    · rw [(hto t' ht' ho').bytes, length_resize]
      exact hlen rfl hn t' ht' he

/-- The mapped target has been extended and not been cut. -/
theorem extended_trace {u : Progress} {m : Nat} (hm : u.map = some m) {t' : List Event}
    (ht' : ∀ fd n r, (⟨.ftruncate fd n .cut, r⟩ : Event) ∉ t') : Extended (u.trace path total ++ t') := by
  refine ⟨⟨u.fd, offT total, ?_⟩, fun fd n r h => ?_⟩
  · simp [Progress.trace, mappedEvents, hm]
  · rcases List.mem_append.1 h with h | h
    · cases Progress.mem_trace h
    · exact ht' fd n r h

/-- What a step of the upload keeps. -/
theorem Shown.next (h : Shown b path C total v) (hp : PutsPoint (.quiet faults) b path total v.proc c)
    (hk : kernel (.quiet faults) v c r v') (hok : Unextended path v.fs c r) : Shown b path C total v' := by
  by_cases hc : c.Changes
  swap
  · exact h.still hk hc
  obtain ⟨fs, q⟩ := v
  cases hp with
  | openFile =>
    have hopen : v'.fs.bytes path = FS.bytes fs path ∧ ∀ fd, r = some fd → v'.fs.Has path (FS.bytes fs path) := by
      rcases kernel_create hk with ⟨rfl, hfs⟩ | ⟨fd, rfl, hhas⟩
      · exact ⟨congrArg (FS.bytes · path) hfs, by simp⟩
      · exact ⟨hhas.bytes, fun _ _ => hhas⟩
    refine h.step hk (fun _ _ _ hm => hopen.1 ▸ hm) fun t ht _ hext => ⟨fun ho => ?_, fun he => ?_⟩
    · obtain rfl : t = [] := List.self_eq_append_right.1 ht
      obtain ⟨fd, ho⟩ := ho
      rw [hopen.1]
      exact hopen.2 fd (by simpa [Call.traced, eq_comm] using ho)
    · rw [hopen.1]
      rcases extended_noted he with he | ⟨_, _, he⟩
      · exact hext he
      · cases he
  | @reset fd st hfd hover =>
    refine h.resize hk (by simp) (fun t ht => ?_) (fun _ _ => by simp) fun _ _ t ht he => ?_
    · obtain rfl : _ = t := List.append_cancel_left ht
      exact ⟨fd, by simp [openedEvents]⟩
    · obtain rfl : _ = t := List.append_cancel_left ht
      obtain ⟨⟨fd', n, he⟩, -⟩ := he
      simp [openedEvents] at he
  | @extend fd st hfd hpos =>
    refine h.resize hk (by simp) (fun t ht => ?_) (fun hr _ => ?_) fun _ hn t ht he => ?_
    · obtain rfl : _ = t := List.append_cancel_left ht
      exact ⟨fd, open_mem_measured⟩
    · subst hr
      exact hok
    · rw [offT_of_lt (offT_nonneg.1 hn), Int.toNat_natCast]
  | @memcpy u p m hu hm hne =>
    have hst : FS.Modify fs path (store · (u.offset total) p.data) v'.fs := kernel_memcpy hk (Progress.proc_maps _ hm)
    have hopen (t : List Event) (ht : (u.proc b path total (Packet.wires (u.pkts ++ [p]))).trace = b.trace ++ t) :
        Opened path t := by
      obtain rfl : u.trace path total = t := List.append_cancel_left ((Progress.proc_trace _).symm.trans ht)
      exact ⟨u.fd, by simp [Progress.trace, open_mem_measured]⟩
    have hto {t : List Event} (ht) (ho : Opened path t → FS.Has fs path (FS.bytes fs path)) :
        v'.fs.Has path (store (FS.bytes fs path) (u.offset total) p.data) := (ho (hopen t ht)).modify hst
    obtain ⟨t, ht, ho, -⟩ := h.stage
    refine h.step hk (fun r s hs hmade => ?_) fun t' ht' ho' hext => ⟨fun _ => ?_, fun he => ?_⟩
    · obtain rfl : Packet.wires (u.pkts ++ [p]) = r := List.append_cancel_left ((Progress.proc_rcvd _).symm.trans hs.rcvd)
      obtain rfl : (putsResp total u.st).wire = s := List.append_cancel_left ((Progress.proc_sent _).symm.trans hs.sent)
      rw [(hto ht ho).bytes]
      exact MadeOf.store hu.blocks hmade (List.prefix_refl _)
    · rw [(hto ht' ho').bytes]
      exact hto ht' ho'
    · rw [(hto ht' ho').bytes, length_store]
      rcases extended_noted he with he | ⟨_, _, he⟩
      · exact hext he
      · simp at he
  | @cut u tail session session' hu hstop =>
    have htrace {t : List Event} (ht : _ = b.trace ++ t) : u.trace path total ++ unmappedEvents u.map = t :=
      List.append_cancel_left ht
    refine h.resize hk (by simp) (fun t ht => ?_) (fun _ hn => ?_) fun _ _ t ht he => ?_
    · exact ⟨u.fd, by simp [← htrace ht, Progress.trace, open_mem_measured]⟩
    · -- a mapped target still has the announced size
      have hoff := hu.toNat_offset
      rw [offT_of_lt (offT_nonneg.1 hn), hoff]
      have hfits := hu.fits
      rcases hm : u.map with _ | m
      · have h0 := hu.mapped.1 hm
        subst h0
        simp at hfits
        omega
      · obtain ⟨t, ht, -, hext⟩ := h.stage
        have he : Extended t := by
          rw [← htrace ht, hm]
          exact extended_trace hm (by simp [unmappedEvents])
        have hlen : (FS.bytes fs path).length = total.toNat := hext he
        change _ ≤ ((FS.bytes fs path).length : Int)
        omega
    · exact absurd (List.mem_append_right _ (List.mem_singleton_self _)) (he.2 _ _ _)
  | _ => exact hc.elim

end Steps

/-! ## Every moment of an upload -/

/-- What a call on the target may answer to `q`, when its contents are `file`. -/
structure Shows (faults : Call → Prop) (path file : Bytes) (w : World) : Prop where
  sends : ∀ {fd pos off n m w'}, w.proc.fds fd = some ⟨path, pos⟩ →
    kernel (.quiet faults) w (.sendfile fd off n) (.done m) w' →
      ∃ bs, w'.proc.sent = w.proc.sent ++ bs ∧ bs <+: file.drop off.toNat
  sizes : ∀ {fd pos n w'}, w.proc.fds fd = some ⟨path, pos⟩ →
    kernel (.quiet faults) w (.fstat fd) (some n) w' → n = file.length

theorem shows_has {faults : Call → Prop} {path file : Bytes} {w : World} (h : w.fs.Has path file) :
    Shows faults path file w where
  sends := by
    rintro fd pos off n m w' hfd ⟨fs, hr, v, ⟨f, bs, hf, -, -, -, -, hbs, rfl⟩, rfl⟩
    obtain rfl : fs = w.fs := hr
    obtain rfl : f = ⟨path, pos⟩ := Option.some.inj (hf.symm.trans hfd)
    exact ⟨bs, rfl, (hbs file h).1⟩
  sizes := by
    rintro fd pos n w' hfd ⟨fs, hr, v, ⟨f, hf, -, hn, -⟩, rfl⟩
    obtain rfl : fs = w.fs := hr
    obtain rfl : f = ⟨path, pos⟩ := Option.some.inj (hf.symm.trans hfd)
    exact hn file h

section Upload

variable {ι : Type} [DecidableEq ι] {faults : Call → Prop} {session : Session} {packet : Packet} {path : Bytes}
  {total : UInt64} {up : ι} {c₀ c : Threads Call Res FS Proc ι (Rc × Session)}

/-- Runs in which an extension adds nothing to the target. -/
def unextended (path : Bytes) : StepOk Call Res FS Proc ι (Rc × Session) := fun c _ e r => Unextended path c.shared e r

/-- The other sessions change no file. -/
theorem gets_still (hgets : ∀ i, i ≠ up → ∃ session arg, c₀.prog i = handleGets session arg)
    {ok : StepOk Call Res FS Proc ι (Rc × Session)} (hrun : ParSteps (kernel (.quiet faults)) World.mk ok c₀ c)
    {i : ι} (hi : i ≠ up) {e : Call} {k : Res e → Io (Rc × Session)} (hp : c.prog i = .call e k) : ¬ e.Changes := by
  obtain ⟨session, arg, h⟩ := hgets i hi
  have hreads : every (fun c => ¬ c.Changes) (c₀.prog i) fun _ => True := h ▸ handleGets_reads session arg
  have := Par.every_thread hreads hrun hp
  exact this

/-- **What others see of an upload.** One session runs `handle_puts` for the target `path` with the announced size
`total`, all others run `handle_gets`, in any order of their steps; any call may fail. If no extension lengthens the
target then at every moment the target is made of what it held and of the data received so far, and that is what is
sent and what is resumed after. -/
theorem handlePuts_showsStored (ht : uploadTarget session packet = some (path, total))
    (hup : c₀.prog up = handlePuts session packet)
    (hgets : ∀ i, i ≠ up → ∃ session arg, c₀.prog i = handleGets session arg)
    (hrun : ParSteps (kernel (.quiet faults)) World.mk (unextended path) c₀ c) :
    (∃ r s, (c₀.loc up).Since r s (c.loc up) ∧ MadeOf (c₀.shared.bytes path) r s (c.shared.bytes path)) ∧
      ∀ file, c.shared.Has path file → file = c.shared.bytes path ∧ ∀ q, Shows faults path file ⟨c.shared, q⟩ := by
  refine ⟨?_, fun file h => ⟨h.bytes.symm, fun q => shows_has h⟩⟩
  let sem : Sem Call Res World := fun v e r v' => kernel (.quiet faults) v e r v' ∧ Unextended path v.fs e r
  have hsolo : Steps sem (c₀.prog up, ⟨c₀.shared, c₀.loc up⟩) (c.prog up, ⟨c.shared, c.loc up⟩) :=
    Par.solo (fun _ hok hs => ⟨hs, hok⟩)
      (fun hr hi hp hs => kernel_still hs (Env.quiet_quiet _) (gets_still hgets hr hi hp)) hrun
  rw [hup] at hsolo
  have hputs : wp (kernel (.quiet faults)) (fun v e => PutsPoint (.quiet faults) (c₀.loc up) path total v.proc e)
      (handlePuts session packet) (PutsEnd (.quiet faults) (c₀.loc up) path total session (c₀.shared.bytes path))
      ⟨c₀.shared, c₀.loc up⟩ := wp_handlePuts ht
  have hkept : Shown (c₀.loc up) path (c₀.shared.bytes path) total ⟨c.shared, c.loc up⟩ := by
    refine wp_keeps (wp_weaken hputs (fun _ _ _ _ hs => hs.1) fun _ _ hp => hp) ?_ (.start ..) hsolo
    intro v e r v' hp hs hv
    exact hv.next hp hs.1 hs.2
  exact hkept.made

/-! ### Runs of two sessions -/

/-- One session uploads a byte to a target that is not there, another one downloads it. -/
def putsAndGets : Threads Call Res FS Proc Bool (Rc × Session) where
  shared _ := none
  prog
    | true => handlePuts .start (requestF 1)
    | false => handleGets .start (lit "f")
  loc _ := .init

/-- The same where the target has the announced size already. -/
def putsAndGetsThere : Threads Call Res FS Proc Bool (Rc × Session) :=
  { putsAndGets with shared := FS.put (fun _ => none) (lit "../tests/f") (byteFile 7) }

/-- The download has measured the file. -/
theorem measures_run (faults : Call → Prop) :
    ∃ c, Steps (kernel (.quiet faults))
        (handleGets .start (lit "f"), ⟨FS.put (fun _ => none) (lit "../tests/f") (byteFile 7), .init⟩) c ∧
      c.2.proc.trace = [⟨.openFile (lit "../tests/f") .rdonly, some 0⟩, ⟨.fstat 0, some 1⟩] ∧
      c.2.fs = FS.put (fun _ => none) (lit "../tests/f") (byteFile 7) := by
  have hpath : resolveTargetPath Session.start.currentPath (lit "f") pathMax pathMax = some (lit "/f", lit "../tests/f") := by
    decide
  have hR : Backward (fed (.quiet faults) []) fun c => _ := backward_kernel fun c : Io (Rc × Session) × World =>
    c.2.proc.trace = [⟨.openFile (lit "../tests/f") .rdonly, some 0⟩, ⟨.fstat 0, some 1⟩] ∧
      c.2.fs = FS.put (fun _ => none) (lit "../tests/f") (byteFile 7)
  have hin : ([] : Bytes) <+: [] := List.prefix_refl _
  unfold handleGets
  simp only [hpath]
  apply run_openRead hR hin 0 (by simp) rfl
  refine run_fstat hR hin (by simp [Proc.init]; rfl) rfl ?_
  exact ⟨_, .refl, by simp [Proc.init], rfl⟩

/-- The upload has extended the target, and the download has measured it. -/
theorem handlePuts_showsStored_extended : ∃ c : Threads Call Res FS Proc Bool (Rc × Session),
    (c.loc true).trace = extendsThere ∧ (⟨.fstat 0, some 1⟩ : Event) ∈ (c.loc false).trace ∧
      ∃ r s, (putsAndGetsThere.loc true).Since r s (c.loc true) ∧
        MadeOf [7] r s (c.shared.bytes (lit "../tests/f")) := by
  obtain ⟨⟨p, w⟩, hextends, htrace, hfs⟩ := extendsThere_run (fun _ => False) 7
  obtain ⟨⟨p', w'⟩, hmeasures, htrace', -⟩ := measures_run fun _ => False
  let c₁ := putsAndGetsThere.put true w.fs p w.proc
  have hup : putsAndGetsThere.prog true = handlePuts .start (requestF 1) := by simp only [putsAndGetsThere, putsAndGets]
  have hdown : putsAndGetsThere.prog false = handleGets .start (lit "f") := by simp only [putsAndGetsThere, putsAndGets]
  have hbytes : putsAndGetsThere.shared.bytes (lit "../tests/f") = [7] := FS.bytes_put ..
  have h₁ : ParSteps (kernel (.quiet fun _ => False)) World.mk (unextended (lit "../tests/f")) putsAndGetsThere c₁ := by
    refine runs_alone hup rfl rfl ?_ hextends
    intro s l e k r v hsteps hs hrest
    show Unextended (lit "../tests/f") s e r
    unfold Unextended
    split
    · rename_i fd n
      -- the calls before are those of `extendsThere`
      obtain ⟨t, ht, hsame⟩ := handlePuts_unacted (uploadTarget_requestF 1) hsteps
      obtain ⟨events, hev⟩ := trace_through hs rfl hrest
      rw [htrace, ht, show (putsAndGetsThere.loc true).trace = [] from rfl, List.nil_append] at hev
      obtain ⟨rfl, rfl⟩ := before_extension hev
      have hfile := (hsame (by simp [extendsThere, Event.Acts])).trans hbytes
      show _ ≤ (((s.bytes (lit "../tests/f")).length : Nat) : Int)
      rw [hfile]
      decide
    · trivial
  have h₂ : ParSteps (kernel (.quiet fun _ => False)) World.mk (unextended (lit "../tests/f")) c₁
      (c₁.put false w'.fs p' w'.proc) := by
    refine runs_alone (q := handleGets .start (lit "f")) ?_ hfs ?_ ?_ hmeasures
    · exact (Threads.put_prog_ne (by simp)).trans hdown
    · exact Threads.put_loc_ne (by simp)
    · rintro s l e k r v - hs hrest
      show Unextended (lit "../tests/f") s e r
      unfold Unextended
      split
      · rename_i fd n
        have hmem := mem_through hs rfl hrest
        rw [htrace'] at hmem
        simp at hmem
      · trivial
  have hgets (i : Bool) (hi : i ≠ true) : ∃ session arg, putsAndGetsThere.prog i = handleGets session arg := by
    obtain rfl : i = false := by simpa using hi
    exact ⟨.start, lit "f", hdown⟩
  obtain ⟨⟨r, s, hsince, hmade⟩, -⟩ := handlePuts_showsStored (uploadTarget_requestF 1) hup hgets (h₁.trans h₂)
  rw [hbytes] at hmade
  refine ⟨_, ?_, ?_, r, s, hsince, hmade⟩
  · rw [Threads.put_loc_ne (by simp), Threads.put_loc_self, htrace]
  · rw [Threads.put_loc_self, htrace']
    simp

/-- The target shows a zero that nobody sent. -/
theorem handlePuts_showsZero :
    ∃ c, ParSteps (kernel (.quiet fun _ => False)) World.mk (fun _ _ _ _ => True) putsAndGets c ∧
      c.shared.bytes (lit "../tests/f") = [0] ∧
      ¬ ∃ r s, (putsAndGets.loc true).Since r s (c.loc true) ∧
        MadeOf (putsAndGets.shared.bytes (lit "../tests/f")) r s (c.shared.bytes (lit "../tests/f")) := by
  obtain ⟨⟨p, w⟩, hrun, hrcvd, hfs⟩ := extends_run fun _ => False
  have hfile : w.fs.bytes (lit "../tests/f") = [0] := (congrArg (FS.bytes · _) hfs).trans (FS.bytes_put ..)
  have hprog : putsAndGets.prog true = handlePuts .start (requestF 1) := by simp only [putsAndGets]
  have hpar : ParSteps (kernel (.quiet fun _ => False)) World.mk (fun _ _ _ _ => True) putsAndGets
      (putsAndGets.put true w.fs p w.proc) := runs_alone hprog rfl rfl (fun _ _ _ => trivial) hrun
  refine ⟨_, hpar, hfile, ?_⟩
  rintro ⟨r, s, hs, pkts, tail, rfl, -, hmade⟩
  have hnil : pkts = [] := by
    have : [] = Proc.init.rcvd ++ _ := hrcvd.symm.trans (by simpa [putsAndGets] using hs.rcvd)
    cases pkts with
    | nil => rfl
    | cons p ps => simp [p.wire_ne_nil] at this
  have hzero : (w.fs.bytes (lit "../tests/f"))[0]? = some 0 := congrArg (·[0]?) hfile
  rcases hmade 0 0 hzero with h | ⟨off, -, -, h⟩
  · cases h
  · simp [hnil] at h

end Upload

end Server
end WindCloud
