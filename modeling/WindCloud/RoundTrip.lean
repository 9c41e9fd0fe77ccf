import WindCloud.Converge
import WindCloud.Exactness
import WindCloud.Locality
/-!
# Upload and download give back the file

The two transfers meet in the target file alone. What an acknowledged upload stores is the client's file, and what a
successful download gives is the server's, each after any number of attempts that were cut; so together they are the
identity (`upload_download`). A target or a local file that is neither a start of the file nor longer than it is where
this fails: the resumption takes any contents of the right length for its own.
-/

namespace WindCloud

open Interaction Prog Server Resumable

/-- A download of whatever `path` holds: `DownloadSetup` without the file. -/
structure DownloadAsk (req : CommandRequest) (session : Session) (path : Bytes) (wc ws : World) : Prop where
  arg : 0 ∉ req.arg
  nonempty : req.arg ≠ []
  short : req.arg.length < pathMax
  isOpen : session.shouldClose = false
  target : ∀ v p, resolveTargetPath session.currentPath req.arg pathMax pathMax = some (v, p) → p = path
  inStep : wc.proc.sent = ws.proc.rcvd ∧ ws.proc.sent = wc.proc.rcvd

section RoundTrip

variable {faultsC faultsS faultsD : Call → Prop} {envS : Env} {req reqD : CommandRequest} {session sessionD : Session}
  {path F C₀ L₀ s : Bytes} {wc ws wc' ws' wd wt wd' wt' : World} {p : Io Rc} {r : Session ⊕ Rc} {q : Io (Session ⊕ Rc)}

theorem DownloadAsk.setup (h : DownloadAsk req session path wc ws) (hfile : ws.fs.Has path F) :
    DownloadSetup req session path F wc ws :=
  ⟨hfile, h.arg, h.nonempty, h.short, h.isOpen, h.target, h.inStep⟩

/-- What an acknowledged upload stores after any number of others. -/
theorem stored_of_acked (h0 : C₀ <+: F ∨ F.length < C₀.length)
    (hbefore : Relation.ReflTransGen (UploadAttempt F path) C₀ (ws.fs.bytes path)) (hnet : ∀ c, faultsS c → c.Net)
    (hset : UploadSetup req session path F wc ws)
    (hrun : DuplexSteps (side (.quiet faultsC)) (side (.quiet faultsS))
      ((Client.handlePuts req, wc), (handleRequestRound session, ws)) ((p, wc'), (.ret r, ws')))
    (hsent : ws'.proc.sent = ws.proc.sent ++ s) (hack : Acked s) : ws'.fs.Has path F := by
  obtain ⟨s', hs', hres, hhas⟩ := upload_resumed hnet hset hrun
  obtain rfl : s' = s := List.append_cancel_left (hs'.symm.trans hsent)
  have hmono : Relation.ReflTransGen (fun C C' => ∃ done, Resumed F C C' done) C₀ (ws.fs.bytes path) :=
    Relation.ReflTransGen.mono (fun _ _ h => UploadAttempt.resumed h) _ _ hbefore
  have hfile := hhas hack
  rwa [← hfile.bytes, converges_exact h0 hmono hres hack] at hfile

/-- What a successful download gives after any number of others. -/
theorem fetched_of_ok (h0 : L₀ <+: F ∨ F.length < L₀.length)
    (hbefore : Relation.ReflTransGen (DownloadAttempt reqD.arg F) L₀ (wd.fs.bytes reqD.arg))
    (hfstat : ∀ fd, ¬ faultsD (.fstat fd))
    (hkeep : ∀ {fs fs'}, envS.rely fs fs' → fs.Has path F → fs'.Has path F)
    (hset : DownloadSetup reqD sessionD path F wd wt)
    (hrun : DuplexSteps (side (.quiet faultsD)) (side envS)
      ((Client.handleGets reqD, wd), (handleRequestRound sessionD, wt)) ((.ret .ok, wd'), (q, wt'))) :
    wd'.fs.Has reqD.arg F := by
  obtain ⟨hres, hall, -⟩ := download_resumed hfstat hkeep hset hrun
  have hmono : Relation.ReflTransGen (fun L L' => ∃ done, Resumed F L L' done) L₀ (wd.fs.bytes reqD.arg) :=
    Relation.ReflTransGen.mono (fun _ _ h => DownloadAttempt.resumed h) _ _ hbefore
  have hfile := hall rfl
  rwa [← hres.complete rfl, converges_exact h0 hmono hres rfl] at hfile

/-- **Round trip**: an upload that is acknowledged and a later download of the same target that reports success give the
downloading client the file of the uploading one, whichever clients, sessions and names they are, and however often either
transfer was cut and taken up again, if the target and the local file began absent, as a start of the file or longer than
it, and nobody changed the target in between. While it stores, nothing but its connection fails the server, and it is done
with one attempt before the next begins; the downloading client's `fstat` works. -/
theorem upload_download (hC₀ : C₀ <+: F ∨ F.length < C₀.length) (hL₀ : L₀ <+: F ∨ F.length < L₀.length)
    (huploads : Relation.ReflTransGen (UploadAttempt F path) C₀ (ws.fs.bytes path)) (hnet : ∀ c, faultsS c → c.Net)
    (hset : UploadSetup req session path F wc ws)
    (hup : DuplexSteps (side (.quiet faultsC)) (side (.quiet faultsS))
      ((Client.handlePuts req, wc), (handleRequestRound session, ws)) ((p, wc'), (.ret r, ws')))
    (hsent : ws'.proc.sent = ws.proc.sent ++ s) (hack : Acked s) (hleft : wt.fs path = ws'.fs path)
    (hdownloads : Relation.ReflTransGen (DownloadAttempt reqD.arg F) L₀ (wd.fs.bytes reqD.arg))
    (hfstat : ∀ fd, ¬ faultsD (.fstat fd)) (hkeep : ∀ {fs fs'}, envS.rely fs fs' → fs.Has path F → fs'.Has path F)
    (hask : DownloadAsk reqD sessionD path wd wt)
    (hdown : DuplexSteps (side (.quiet faultsD)) (side envS)
      ((Client.handleGets reqD, wd), (handleRequestRound sessionD, wt)) ((.ret .ok, wd'), (q, wt'))) :
    wd'.fs.Has reqD.arg F := by
  have hstored := stored_of_acked hC₀ huploads hnet hset hup hsent hack
  have hfile : wt.fs.Has path F := (FS.Has.congr hleft).2 hstored
  exact fetched_of_ok hL₀ hdownloads hfstat hkeep (hask.setup hfile) hdown

/-- Two bytes there and back, a byte at a time. -/
theorem upload_download_two : ∃ wc ws' wd' : World, wc.fs.Has putsF.arg [1, 2] ∧ Acked ws'.proc.sent ∧
    wd'.fs.Has getsF.arg [1, 2] := by
  obtain ⟨_, ws', hup, hack, hstored, -⟩ := upload_runs (F := oneTwo) (C := one) (.quiet fun _ => False)
    (.quiet fun _ => False) (fun _ => none) (fun _ => none) (by decide) (by decide) (by decide)
  obtain ⟨wd', _, hdown, -⟩ := download_runs (F := oneTwo) (C := one) (.quiet fun _ => False) (.quiet fun _ => False)
    (fun _ => none) ws'.fs (by decide) (by decide)
  have hleft : (ws'.fs.put targetF oneTwo) targetF = ws'.fs targetF := by
    obtain ⟨⟨bytes, lt⟩, hc, hbytes⟩ := hstored
    obtain rfl : bytes = [1, 2] := hbytes
    rw [hc]
    simp [FS.put, oneTwo]
  have hask : DownloadAsk getsF .start targetF ⟨FS.put (fun _ => none) getsF.arg one, .init⟩
      ⟨ws'.fs.put targetF oneTwo, .init⟩ := by
    have h : DownloadSetup getsF .start targetF oneTwo.bytes ⟨FS.put (fun _ => none) getsF.arg one, .init⟩
      ⟨ws'.fs.put targetF oneTwo, .init⟩ := setup_getsF (FS.put_has ..) ⟨rfl, rfl⟩
    exact ⟨h.arg, h.nonempty, h.short, h.isOpen, h.target, h.inStep⟩
  have hnone : noBytes.bytes <+: oneTwo.bytes := List.nil_prefix
  have hkeep {fs fs' : FS} (h : (Env.quiet fun _ => False).rely fs fs') (hfs : fs.Has targetF oneTwo.bytes) :
      fs'.Has targetF oneTwo.bytes := (h : fs' = fs) ▸ hfs
  -- the first attempts are cut after a byte
  have hfetched : wd'.fs.Has getsF.arg oneTwo.bytes :=
    upload_download (.inl hnone) (.inl hnone) (.single (by simpa using attempt_cut)) (by simp)
      (setup_putsF (F := oneTwo) (FS.put_has ..) ⟨rfl, rfl⟩) hup rfl hack hleft (.single (by simpa using attempt_half))
      (by simp) hkeep hask hdown
  exact ⟨⟨FS.put (fun _ => none) putsF.arg oneTwo, .init⟩, ws', wd', FS.put_has .., hack, hfetched⟩

end RoundTrip
end WindCloud
