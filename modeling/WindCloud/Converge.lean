import WindCloud.UploadRun
/-!
# Repeated uploads converge

An attempt is a run of both sides that the server has finished; its connection may have been cut
anywhere. Attempts compose by what they leave in the target, so the laws of resumed transfers
give what any number of them leave (`upload_converges`), and what an acknowledged one stores
whatever the target held before (`upload_stores`).
-/

namespace WindCloud

open Interaction Prog Server Resumable

/-! ## Attempts -/

/-- An upload attempt of `F` to `path` from the contents `C` to `C'`, finished on the server. Only
the connection fails there; on the client anything may. -/
def UploadAttempt (F path C C' : Bytes) : Prop :=
  ∃ (faultsC faultsS : Call → Prop) (req : CommandRequest) (session : Session) (wc ws wc' ws' : World) (p : Io Rc)
    (r : Session ⊕ Rc), (∀ c, faultsS c → c.Net) ∧ UploadSetup req session path F wc ws ∧
    DuplexSteps (side (.quiet faultsC)) (side (.quiet faultsS))
      ((Client.handlePuts req, wc), (Server.handleRequestRound session, ws)) ((p, wc'), (.ret r, ws')) ∧
    ws.fs.bytes path = C ∧ ws'.fs.bytes path = C'

theorem UploadAttempt.resumed {F path C C' : Bytes} (h : UploadAttempt F path C C') :
    ∃ done, Resumed F C C' done := by
  obtain ⟨_, _, _, _, _, _, _, _, _, _, hnet, hset, hrun, rfl, rfl⟩ := h
  obtain ⟨s, -, hres, -⟩ := upload_resumed hnet hset hrun
  exact ⟨Acked s, hres⟩

/-- An attempt that is cut after the first byte of two. -/
theorem attempt_cut : UploadAttempt oneTwo.bytes targetF noBytes.bytes one.bytes := by
  have hset : UploadSetup putsF .start targetF oneTwo.bytes ⟨FS.put (fun _ => none) putsF.arg oneTwo, .init⟩
      ⟨FS.put (fun _ => none) targetF noBytes, .init⟩ := setup_putsF (FS.put_has ..) ⟨rfl, rfl⟩
  have hrun : ∃ x, DuplexSteps (side (.quiet fun _ => False)) (side (.quiet Call.Net))
      ((Client.handlePuts putsF, ⟨FS.put (fun _ => none) putsF.arg oneTwo, .init⟩),
        (handleRequestRound .start, ⟨FS.put (fun _ => none) targetF noBytes, .init⟩)) x ∧
      ((∃ r, x.2.1 = .ret r) ∧ x.2.2.fs.Has targetF one.bytes) := by
    refine upload_opens (F := oneTwo) (C := noBytes) (by decide) ?_
    intro pc ps hrc hrs _ _ hfc hfs hmap
    have hread : pc.rcvd <+: ps.sent := by rw [hrc]
    rw [← bind_ret (Client.uploadFrom _ _ _), Client.uploadFrom, bind_assoc]
    apply run_lseek (Duplex.backward_left _) hread hfc (by decide)
    simp only
    rw [bind_assoc]
    -- the client reads a byte and sends it, the server takes it and hears no more
    refine Client.run_sendBlock (D := [1]) (Duplex.backward_left _) hread (by simp; rfl)
      (List.prefix_append [1] [2]) (by simp) (by decide) fun pc' _ hs _ => ?_
    have hsent : pc'.sent = ps.rcvd ++ (dataPacket [1]).wire := by
      rw [hs, hrs]
      rfl
    have hblock : ps.rcvd ++ (dataPacket [1]).wire <+: pc'.sent := hsent ▸ List.prefix_refl _
    have hin : ps.rcvd <+: pc'.sent := (List.prefix_append _ _).trans hblock
    refine run_uploadExtended (d := ⟨[0, 0], by decide⟩) (Duplex.backward_right _) hin hfs rfl hmap (by decide) (by decide)
      (by decide) fun ps₁ hr₁ _ hfds hm => ?_
    refine run_takeBlock (D := [1]) (d := ⟨[1, 0], by decide⟩) (Duplex.backward_right _) _ (hr₁ ▸ hblock) hm rfl
      (by simp) (by decide) (by decide) (by decide) fun ps₂ hr₂ _ hfds₂ _ => ?_
    refine run_uploadCut (d := one) (Duplex.backward_right _) (by rwa [hr₂, hr₁]) trivial (by rw [hfds₂, hfds, hfs]) rfl
      (by decide) (by decide) fun _ => ?_
    exact ⟨_, .refl, ⟨_, rfl⟩, FS.put_has ..⟩
  obtain ⟨⟨⟨p, wc'⟩, _, ws'⟩, hrun, ⟨r, rfl⟩, hhas⟩ := hrun
  exact ⟨_, _, _, _, _, _, _, _, _, _, fun _ h => h, hset, hrun, FS.bytes_put .., hhas.bytes⟩

section Converge

variable {faultsC faultsS : Call → Prop} {req : CommandRequest} {session : Session} {path F : Bytes}
  {wc ws wc' ws' : World} {p : Io Rc} {r : Session ⊕ Rc}

/-- **Resumable upload converges.** After any number of attempts on a target that was absent or held a
start of `F`, and one more: the target holds a start of `F`, no shorter than before, and all of `F`
if the server acknowledged the upload. -/
theorem upload_converges {C₀ : Bytes} (h0 : C₀ <+: F)
    (hbefore : Relation.ReflTransGen (UploadAttempt F path) C₀ (ws.fs.bytes path))
    (hnet : ∀ c, faultsS c → c.Net) (hset : UploadSetup req session path F wc ws)
    (hrun : DuplexSteps (side (.quiet faultsC)) (side (.quiet faultsS))
      ((Client.handlePuts req, wc), (Server.handleRequestRound session, ws)) ((p, wc'), (.ret r, ws'))) :
    ws'.fs.bytes path <+: F ∧ (ws.fs.bytes path).length ≤ (ws'.fs.bytes path).length ∧
      ∃ s, ws'.proc.sent = ws.proc.sent ++ s ∧ (Acked s → ws'.fs.Has path F) := by
  obtain ⟨s, hs, hres, hhas⟩ := upload_resumed hnet hset hrun
  have hmono : Relation.ReflTransGen (fun C C' => ∃ done, Resumed F C C' done) C₀ (ws.fs.bytes path) :=
    Relation.ReflTransGen.mono (fun _ _ h => UploadAttempt.resumed h) _ _ hbefore
  obtain ⟨hpre, hlen, hall⟩ := converges h0 hmono hres
  refine ⟨hpre, hlen, s, hs, fun hack => ?_⟩
  have h := hhas hack
  rwa [← h.bytes, hall hack] at h

/-- An attempt that is cut after a byte, and one that takes it up. -/
theorem upload_converges_again : ∃ ws' : World, Acked ws'.proc.sent ∧ ws'.fs.Has targetF [1, 2] := by
  obtain ⟨_, ws', hrun, hack, -⟩ := upload_runs (F := oneTwo) (C := one) (.quiet fun _ => False) (.quiet Call.Net)
    (fun _ => none) (fun _ => none) (by decide) (by decide) (by decide)
  have hnone : noBytes.bytes <+: oneTwo.bytes := List.nil_prefix
  obtain ⟨-, -, s, hs, h⟩ := upload_converges hnone (.single (by simpa using attempt_cut)) (fun _ h => h)
    (setup_putsF (F := oneTwo) (FS.put_has ..) ⟨rfl, rfl⟩) hrun
  obtain rfl : ws'.proc.sent = s := hs
  exact ⟨ws', hack, h hack⟩

/-- **What an acknowledged upload stores**, whatever the target held: the client's file from the target's
old length on, after the old contents if they were no longer than it. -/
theorem upload_stores (hnet : ∀ c, faultsS c → c.Net) (hset : UploadSetup req session path F wc ws)
    (hrun : DuplexSteps (side (.quiet faultsC)) (side (.quiet faultsS))
      ((Client.handlePuts req, wc), (Server.handleRequestRound session, ws)) ((p, wc'), (.ret r, ws'))) :
    ∃ s, ws'.proc.sent = ws.proc.sent ++ s ∧ (Acked s → ws'.fs.Has path (result F (ws.fs.bytes path)) ∧
      (ws'.fs.Has path F ↔ F.length < (ws.fs.bytes path).length ∨ ws.fs.bytes path <+: F)) := by
  obtain ⟨s, hs, -, hhas⟩ := upload_resumed hnet hset hrun
  refine ⟨s, hs, fun hack => ⟨hhas hack, ?_⟩⟩
  rw [← result_eq_iff]
  exact ⟨(hhas hack).unique, fun h => h ▸ hhas hack⟩

/-- Where the target held something else of the same length, nothing is stored, and it is acknowledged. -/
theorem upload_storesNothing : ∃ wc' ws',
    DuplexSteps (side (.quiet fun _ => False)) (side (.quiet fun _ => False))
      ((Client.handlePuts putsF, ⟨FS.put (fun _ => none) putsF.arg two, .init⟩),
        (handleRequestRound .start, ⟨FS.put (fun _ => none) targetF one, .init⟩))
      ((.ret .ok, wc'), (.ret (.inl .start), ws')) ∧
      Acked ws'.proc.sent ∧ ¬ ws'.fs.Has targetF [2] := by
  obtain ⟨wc', ws', hrun, hack, hhas, -⟩ := upload_runs (F := two) (C := one) (.quiet fun _ => False)
    (.quiet fun _ => False) (fun _ => none) (fun _ => none) (by decide) (by decide) (by decide)
  refine ⟨wc', ws', hrun, hack, fun h => ?_⟩
  exact absurd (h.unique hhas) (by decide)

theorem upload_stores_one : ∃ ws' : World, Acked ws'.proc.sent ∧ ws'.fs.Has targetF [1] ∧
    (ws'.fs.Has targetF [2] ↔ ([2] : Bytes).length < ([1] : Bytes).length ∨ ([1] : Bytes) <+: [2]) := by
  obtain ⟨_, ws', hrun, hack, -⟩ := upload_runs (F := two) (C := one) (.quiet fun _ => False)
    (.quiet fun _ => False) (fun _ => none) (fun _ => none) (by decide) (by decide) (by decide)
  obtain ⟨s, hs, h⟩ := upload_stores (by simp) (setup_putsF (F := two) (FS.put_has ..) ⟨rfl, rfl⟩) hrun
  obtain rfl : ws'.proc.sent = s := hs
  have h := h hack
  rw [FS.bytes_put] at h
  exact ⟨ws', hack, h⟩

end Converge
end WindCloud
