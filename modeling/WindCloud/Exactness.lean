import WindCloud.DownloadRun
/-!
# Downloads are exact and crash-safe

From the moment the resume offset is sent the local file is what was kept of it and a piece of the
server's file that only grows; a successful download has all of the rest. So after any number of
interrupted downloads, a successful one leaves the server's file (`download_exact`).
-/

namespace WindCloud

open Interaction Prog Server Resumable

/-- Nothing is sent after the resume offset. -/
theorem Client.Positioned.step {env : Env} {b : Proc} {arg L : Bytes} {v v' : World} {c : Call} {x : Res c}
    (h : Client.Positioned b arg v.proc) (hf : Client.Fetches env b arg L v c) (hk : kernel env v c x v') :
    Client.Positioned b arg v'.proc := by
  obtain ⟨r, offset, hs⟩ := h
  obtain ⟨r', s', hs', hfetch⟩ := hf.after x v' hk
  obtain ⟨offset', hpre⟩ := hfetch.sent
  have hgrow := (kernel_grows hk).2
  rw [hs.sent, hs'.sent, List.prefix_append_right_inj] at hgrow
  have hlen : (Packet.wires [downloadRequest arg, resumePacket .resumePos offset]).length =
      (Packet.wires [downloadRequest arg, resumePacket .resumePos offset']).length := by
    simp [Packet.wire_length, resumePacket]
  obtain rfl := hpre.eq_of_length_le (hlen ▸ hgrow.length_le)
  exact ⟨r', offset', hs'⟩

/-- A download attempt of `S` to the local file `arg`, from the contents `L` to `L'`, left at any step. -/
def DownloadAttempt (arg S L L' : Bytes) : Prop :=
  ∃ (faultsC : Call → Prop) (envS : Env) (req : CommandRequest) (session : Session) (path : Bytes)
    (wc ws wc' ws' : World) (p : Io Rc) (q : Io (Session ⊕ Rc)), req.arg = arg ∧ (∀ fd, ¬ faultsC (.fstat fd)) ∧
    (∀ {fs fs'}, envS.rely fs fs' → fs.Has path S → fs'.Has path S) ∧ DownloadSetup req session path S wc ws ∧
    DuplexSteps (side (.quiet faultsC)) (side envS)
      ((Client.handleGets req, wc), (handleRequestRound session, ws)) ((p, wc'), (q, ws')) ∧
    wc.fs.bytes arg = L ∧ wc'.fs.bytes arg = L'

theorem DownloadAttempt.resumed {arg S L L' : Bytes} (h : DownloadAttempt arg S L L') : ∃ done, Resumed S L L' done := by
  obtain ⟨_, _, _, _, _, _, _, _, _, _, _, rfl, hfstat, hkeep, hset, hrun, rfl, rfl⟩ := h
  exact ⟨_, (download_resumed hfstat hkeep hset hrun).1⟩

section Exact

variable {faultsC : Call → Prop} {envS : Env} {req : CommandRequest} {session : Session} {path S : Bytes}
  {wc ws wc₁ ws₁ wc₂ ws₂ : World} {p₁ p₂ : Io Rc} {q₁ q₂ : Io (Session ⊕ Rc)}

/-- **Resumable download is exact and crash-safe.** At any two moments of a run from `RESUME_POS` on the local
file is what was kept and `m` bytes of the server's file after it, where `m` does not decrease; success means
all of them; and after any number of attempts from an absent file, a start of `S` or a longer file, success
means that the local file is `S`. -/
theorem download_exact (hfstat : ∀ fd, ¬ faultsC (.fstat fd))
    (hkeep : ∀ {fs fs'}, envS.rely fs fs' → fs.Has path S → fs'.Has path S)
    (hset : DownloadSetup req session path S wc ws)
    (hrun₁ : DuplexSteps (side (.quiet faultsC)) (side envS)
      ((Client.handleGets req, wc), (handleRequestRound session, ws)) ((p₁, wc₁), (q₁, ws₁)))
    (hrun₂ : DuplexSteps (side (.quiet faultsC)) (side envS) ((p₁, wc₁), (q₁, ws₁)) ((p₂, wc₂), (q₂, ws₂))) :
    let L := wc.fs.bytes req.arg
    let k := start S L
    (Client.Positioned wc.proc req.arg wc₁.proc → ∃ m₁ m₂, m₁ ≤ m₂ ∧ m₂ ≤ S.length - k ∧
      wc₁.fs.Has req.arg (L.take k ++ (S.drop k).take m₁) ∧ wc₂.fs.Has req.arg (L.take k ++ (S.drop k).take m₂)) ∧
    (p₂ = .ret .ok → wc₂.fs.Has req.arg (L.take k ++ S.drop k)) ∧
    ∀ L₀, L₀ <+: S ∨ S.length < L₀.length → Relation.ReflTransGen (DownloadAttempt req.arg S) L₀ L →
      p₂ = .ret .ok → wc₂.fs.Has req.arg S := by
  intro L k
  obtain ⟨hres, hall, hpos₂⟩ := download_resumed hfstat hkeep hset (hrun₁.trans hrun₂)
  obtain ⟨-, -, hpos₁⟩ := download_resumed hfstat hkeep hset hrun₁
  have hk : L.take k = base S L := (base_eq_take S L).symm
  refine ⟨fun hpos => ?_, fun hret => ?_, fun L₀ h0 hbefore hret => ?_⟩
  · -- from the first moment on the file has grown
    have h₁ : wc.proc.rcvd <+: ws.proc.sent := by rw [hset.inStep.2]
    have h₂ : ws.proc.rcvd <+: wc.proc.sent := by rw [hset.inStep.1]
    obtain ⟨hclient₁, -, hcausal⟩ := Duplex.reach hrun₁ ⟨h₁, h₂⟩
    have hclient₂ := (Duplex.reach hrun₂ hcausal).1
    have hwp : wp (kernel (.quiet faultsC)) _ (Client.handleGets req) _ wc := Client.wp_handleGets hset.short
    have hgrow : Client.Positioned wc.proc req.arg wc₂.proc ∧ wc₁.fs.bytes req.arg <+: wc₂.fs.bytes req.arg :=
      wp_keeps (I := fun v => Client.Positioned wc.proc req.arg v.proc ∧ wc₁.fs.bytes req.arg <+: v.fs.bytes req.arg)
        (wp_steps hwp hclient₁)
        (fun _ _ x v' hf hk h => ⟨h.1.step hf hk, h.2.trans (hf.grows x v' hk ⟨Env.quiet_quiet _, hfstat⟩ h.1)⟩)
        ⟨hpos, List.prefix_refl _⟩ hclient₂
    obtain ⟨Y₁, hY₁, hfile₁⟩ := hpos₁ hpos
    obtain ⟨Y₂, hY₂, hfile₂⟩ := hpos₂ hgrow.1
    have hle : Y₁.length ≤ Y₂.length := by
      have h := hgrow.2.length_le
      rw [hfile₁.bytes, hfile₂.bytes, List.length_append, List.length_append] at h
      omega
    refine ⟨Y₁.length, Y₂.length, hle, ?_, ?_, ?_⟩
    · have h := hY₂.length_le
      rwa [List.length_drop] at h
    · rwa [hk, ← List.prefix_iff_eq_take.1 hY₁]
    · rwa [hk, ← List.prefix_iff_eq_take.1 hY₂]
  · have h := hall hret
    rwa [result, length_base, ← hk] at h
  · have hmono : Relation.ReflTransGen (fun C C' => ∃ done, Resumed S C C' done) L₀ L :=
      Relation.ReflTransGen.mono (fun _ _ h => DownloadAttempt.resumed h) _ _ hbefore
    have h := hall hret
    rwa [← hres.complete hret, converges_exact h0 hmono hres hret] at h

/-- A download that is left when a byte of two is written. -/
theorem attempt_half : DownloadAttempt getsF.arg oneTwo.bytes noBytes.bytes one.bytes := by
  obtain ⟨_, _, _, _, hrun, hhalf⟩ := download_half
  exact ⟨_, _, _, _, _, _, _, _, _, _, _, rfl, fun _ => id, fun h hfs => h ▸ hfs, setup_getsF (FS.put_has ..) ⟨rfl, rfl⟩,
    hrun, FS.bytes_put .., hhalf.bytes⟩

/-- It is taken up, and goes through. -/
theorem download_exact_again : ∃ wc' : World, wc'.fs.Has getsF.arg [1, 2] := by
  obtain ⟨wc', ws', hrun, -⟩ := download_runs (F := oneTwo) (C := one) (.quiet fun _ => False) (.quiet fun _ => False)
    (fun _ => none) (fun _ => none) (by decide) (by decide)
  have hset : DownloadSetup getsF .start targetF oneTwo.bytes ⟨FS.put (fun _ => none) getsF.arg one, .init⟩
      ⟨FS.put (fun _ => none) targetF oneTwo, .init⟩ := setup_getsF (FS.put_has ..) ⟨rfl, rfl⟩
  obtain ⟨-, -, h⟩ := download_exact (by simp) (fun h hfs => h ▸ hfs) hset .refl hrun
  have hnone : noBytes.bytes <+: oneTwo.bytes := List.nil_prefix
  exact ⟨wc', h noBytes.bytes (.inl hnone) (.single (by simpa using attempt_half)) rfl⟩

end Exact
end WindCloud
