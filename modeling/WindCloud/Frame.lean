import WindCloud.CurrentPath
import WindCloud.Footprint
import WindCloud.ServerStream
import WindCloud.Visible
/-!
# What a request may change

A request is about one path (`requestPath`): what its argument, its file name or, for `ls`, the current directory
resolves to. Whatever arrives and whichever call fails, nothing is changed anywhere else, and only an `rm`, a `mkdir`
or a `puts` changes anything, each in its own way (`Changed`). Since every request gives back what it opened, no
handle reaches from one request into the next.

All of it holds with any number of sessions over one file system: `changes_requested` is about every step of theirs. A
descriptor goes by its path in it (`Kernel`): a `puts` that is under way while another session removes its target, and
makes it again, goes on with the new file.
-/

namespace WindCloud

open Interaction Prog FileImage

/-- The request that makes such a change. -/
def Call.change : Call → Option CmdType
  | .remove _ => some .rm
  | .mkdir _ => some .mkdir
  | .openFile _ .rdwrCreat | .ftruncate .. | .write .. | .memcpy .. => some .putsReq
  | _ => none

/-- What a request does to the node it is about. -/
def Changed (before after : Option Node) : CmdType → Prop
  | .rm => before ≠ none ∧ after = none
  | .mkdir => before = none ∧ after = some .dir
  | .putsReq => before ≠ some .dir ∧ ∃ c, after = some (.reg c)
  | _ => False

section Effects

variable {faults : Call → Prop} {path q : Bytes} {fs fs' : FS} {w w' : World} {c : Call} {r : Res c}

theorem FS.Modify.changed {g : Bytes → Bytes} (h : fs.Modify path g fs') (hq : fs' q ≠ fs q) :
    Changed (fs q) (fs' q) .putsReq := by
  obtain rfl : q = path := by
    by_contra hne
    exact hq (h.elsewhere hne)
  unfold FS.Modify at h
  split at h
  · rename_i c hc
    obtain ⟨c', -, rfl⟩ := h
    exact ⟨by simp [hc], c', by simp⟩
  · exact absurd (by rw [h]) hq

theorem effect_changed (he : Effect faults w c r w') (hq : w'.fs q ≠ w.fs q) :
    ∃ type, c.change = some type ∧ Changed (w.fs q) (w'.fs q) type := by
  have henv : Effect (Env.quiet faults).faults w c r w' := he
  have hch : c.Changes := by
    by_contra hch
    exact hq (by rw [effect_still henv hch])
  have hat : c.touches w.proc = some q := by
    by_contra hne
    exact hq (effect_elsewhere he hne)
  cases c with
  | remove p =>
    obtain rfl : p = q := Option.some.inj hat
    cases r with
    | false => exact absurd (by rw [he.2]) hq
    | true =>
      obtain ⟨hne, rfl⟩ := he
      exact ⟨.rm, rfl, hne, by simp⟩
  | mkdir p =>
    obtain rfl : p = q := Option.some.inj hat
    cases r with
    | false => exact absurd (by rw [he.2]) hq
    | true =>
      obtain ⟨hnone, rfl⟩ := he
      exact ⟨.mkdir, rfl, hnone, by simp⟩
  | openFile p mode =>
    obtain rfl : p = q := Option.some.inj hat
    cases mode with
    | rdonly => cases hch
    | rdwrCreat =>
      cases r with
      | none => exact absurd (by rw [he.2]) hq
      | some fd =>
        obtain ⟨hdir, -, rfl⟩ := he
        refine ⟨.putsReq, rfl, hdir, ?_⟩
        rcases hnode : w.fs p with _ | ⟨c⟩ | _
        · exact ⟨.empty, by simp⟩
        · exact ⟨c, by simp⟩
        · exact absurd hnode hdir
  | ftruncate fd len why =>
    cases r with
    | false => exact absurd (by rw [he.2]) hq
    | true =>
      obtain ⟨f, fs, -, -, hm, rfl⟩ := he
      exact ⟨.putsReq, rfl, hm.changed hq⟩
  | write fd buf =>
    rcases r with _ | _ | m
    · exact absurd (by rw [he]) hq
    · exact absurd (by rw [he.2]) hq
    · obtain ⟨f, fs, -, -, -, hm, rfl⟩ := he
      exact ⟨.putsReq, rfl, hm.changed hq⟩
  | memcpy m off data =>
    obtain ⟨mp, fs, -, hm, rfl⟩ := he
    exact ⟨.putsReq, rfl, hm.changed hq⟩
  | _ => cases hch

theorem kernel_changed (hk : kernel (.quiet faults) w c r w') (hq : w'.fs q ≠ w.fs q) :
    ∃ type, c.change = some type ∧ Changed (w.fs q) (w'.fs q) type := by
  obtain ⟨_, rfl, v, he, rfl⟩ := hk
  have hfs : (if c.traced then ⟨v.fs, v.proc.note c r⟩ else v : World).fs = v.fs := by split <;> rfl
  have hv : Effect faults w c r v := he
  rw [hfs] at hq ⊢
  exact effect_changed hv hq

end Effects

namespace Server

/-- The path an argument resolves to. -/
def namedPath (session : Session) (arg : Bytes) : Option Bytes :=
  (resolveTargetPath session.currentPath arg pathMax pathMax).map Prod.snd

/-- The path a request is about. -/
def requestPath (session : Session) (packet : Packet) : Option Bytes :=
  match CmdType.ofCode packet.header.cmdType with
  | some .ls => buildRealPath session.currentPath pathMax
  | some .cd | some .rm | some .mkdir | some .getsReq =>
    (copyStringPayload packet pathMax false).bind (namedPath session)
  | some .putsReq => (uploadTarget session packet).map Prod.fst
  | _ => none

/-- A call about `target`, which changes no more than a request of this type may. -/
structure Attends (target : Option Bytes) (type : Option CmdType) (c : Call) : Prop where
  names : c.Names {q | target = some q}
  change : ∀ t, c.change = some t → type = some t

section Handlers

variable {session : Session} {target : Option Bytes} {type : Option CmdType} {path : Bytes} {packet : Packet}

/-- A handler that keeps to its target. -/
abbrev Minds (target : Option Bytes) (type : Option CmdType) (p : Io (Rc × Session)) : Prop :=
  every (Attends target type) p fun _ => True

theorem Attends.of_toPeer {c : Call} (h : c.ToPeer) : Attends target type c := by
  cases c with
  | send buf => exact ⟨nofun, nofun⟩
  | _ => cases h

/-- Calls on handles. -/
theorem Attends.of_transfers {c : Call} (h : c.Transfers) : Attends target (some .putsReq) c := by
  cases c with
  | openFile path mode => cases h
  | opendir path => cases h
  | remove path => cases h
  | mkdir path => cases h
  | write fd buf => cases h
  | ftruncate | memcpy => exact ⟨nofun, fun _ => id⟩
  | _ => exact ⟨nofun, nofun⟩

theorem Attends.of_downloads {c : Call} (h : c.Downloads) : Attends target type c := by
  cases c with
  | recv | send | calloc | close | sendfile => exact ⟨nofun, nofun⟩
  | _ => cases h

theorem reply_minds {t : CmdType} {status : StatusCode} {msg : Bytes} : Minds target type (reply session t status msg) :=
  every_bind (every_mono (sendTextReply_calls ..) (fun _ => .of_toPeer) fun _ => id) fun _ _ => trivial

/-- A call that names nothing and changes nothing. -/
theorem still_minds {c : Call} {k : Res c → Io (Rc × Session)} (hp : c.path? = none) (hc : c.change = none)
    (hk : ∀ r, Minds target type (k r)) : Minds target type (perform c >>= k) :=
  every_perform ⟨fun q hq => by simp [hp] at hq, fun t ht => by simp [hc] at ht⟩ hk

/-- The call that names the target. -/
theorem names_minds {c : Call} {k : Res c → Io (Rc × Session)} (hp : c.path? = some path)
    (hc : ∀ t, c.change = some t → type = some t) (hk : ∀ r, Minds (some path) type (k r)) :
    Minds (some path) type (perform c >>= k) :=
  every_perform ⟨fun _ hq => hp.symm.trans hq, hc⟩ hk

theorem handleLs_minds : Minds (buildRealPath session.currentPath pathMax) type (handleLs session) := by
  unfold handleLs
  split
  · exact reply_minds
  · rename_i realPath hb
    rw [hb]
    refine names_minds rfl nofun ?_
    intro dir
    cases dir with
    | none => exact reply_minds
    | some d =>
      refine every_bind (R := fun _ => True) (every_iter (fun _ => True) trivial fun l _ => ?_) fun l _ => ?_
      · refine every_perform ⟨nofun, nofun⟩ ?_
        intro name
        cases name with
        | none => trivial
        | some name => cases hl : l.add name <;> simp only [hl] <;> trivial
      · cases l <;> exact still_minds rfl rfl fun _ => reply_minds

theorem handleCd_minds (arg : Bytes) : Minds (namedPath session arg) type (handleCd session arg) := by
  unfold handleCd namedPath
  split
  · exact reply_minds
  · rename_i hres
    rw [hres]
    refine names_minds rfl nofun ?_
    intro dir
    cases dir with
    | none => exact reply_minds
    | some d => exact still_minds rfl rfl fun _ => reply_minds

theorem handleRm_minds (arg : Bytes) : Minds (namedPath session arg) (some .rm) (handleRm session arg) := by
  unfold handleRm namedPath
  split
  · exact reply_minds
  · rename_i hres
    rw [hres]
    refine names_minds rfl (fun _ => id) ?_
    intro ok
    cases ok <;> exact reply_minds

theorem handleMkdir_minds (arg : Bytes) : Minds (namedPath session arg) (some .mkdir) (handleMkdir session arg) := by
  unfold handleMkdir namedPath
  split
  · exact reply_minds
  · rename_i hres
    rw [hres]
    refine names_minds rfl (fun _ => id) ?_
    intro ok
    cases ok <;> exact reply_minds

theorem uploadFrom_minds {fd : Nat} {totalSize writeOffset : UInt64} :
    Minds target (some .putsReq) (uploadFrom session fd totalSize writeOffset) :=
  every_mono (uploadFrom_moves rfl) (fun _ => .of_transfers) fun _ _ => trivial

theorem handlePuts_minds : Minds ((uploadTarget session packet).map Prod.fst) (some .putsReq) (handlePuts session packet) := by
  rcases ht : uploadTarget session packet with _ | ⟨path, total⟩
  · obtain ⟨msg, -, hmsg⟩ := handlePuts_refused ht
    rw [hmsg]
    exact reply_minds
  · obtain ⟨fileName, virtualPath, hinfo, hname, hpath⟩ := uploadTarget_eq_some.1 ht
    unfold handlePuts
    simp only [hinfo, if_neg hname, hpath]
    refine names_minds rfl (fun _ => id) ?_
    intro fd
    cases fd with
    | none => exact reply_minds
    | some fd =>
      refine still_minds rfl rfl ?_
      intro st
      simp only
      split
      · refine every_perform ⟨nofun, fun _ => id⟩ ?_
        intro ok
        cases ok with
        | false => exact still_minds rfl rfl fun _ => reply_minds
        | true => exact uploadFrom_minds
      · exact uploadFrom_minds

theorem handleGets_minds (arg : Bytes) : Minds (namedPath session arg) type (handleGets session arg) := by
  unfold handleGets namedPath
  split
  · exact reply_minds
  · rename_i hres
    rw [hres]
    refine names_minds rfl nofun ?_
    intro fd
    cases fd with
    | none => exact reply_minds
    | some fd =>
      refine still_minds rfl rfl ?_
      intro size
      cases size with
      | none => exact still_minds rfl rfl fun _ => reply_minds
      | some size =>
        refine every_bind (every_mono (sendPacket_calls ..) (fun _ => .of_toPeer) fun _ => id) ?_
        intro rc _
        cases rc with
        | fail => exact still_minds rfl rfl fun _ => trivial
        | ok => exact every_mono (resumeDownload_downloads rfl) (fun _ => .of_downloads) fun _ _ => trivial

theorem withArg_minds {missing : Bytes} {handler : Session → Bytes → Io (Rc × Session)}
    (h : ∀ arg, Minds (namedPath session arg) type (handler session arg)) :
    Minds ((copyStringPayload packet pathMax false).bind (namedPath session)) type
      (withArg session packet missing handler) := by
  unfold withArg
  split
  · exact reply_minds
  · rename_i arg harg
    rw [harg]
    exact h arg

/-- **One request** keeps to the path it is about, and changes what its type may change. -/
theorem dispatchCommand_minds :
    Minds (requestPath session packet) (CmdType.ofCode packet.header.cmdType) (dispatchCommand session packet) := by
  unfold dispatchCommand requestPath
  generalize CmdType.ofCode packet.header.cmdType = type
  rcases type with _ | type
  · exact reply_minds
  cases type with
  | ls => exact handleLs_minds
  | cd => exact withArg_minds handleCd_minds
  | rm => exact withArg_minds handleRm_minds
  | mkdir => exact withArg_minds handleMkdir_minds
  | putsReq => exact handlePuts_minds
  | getsReq => exact withArg_minds handleGets_minds
  | _ => exact reply_minds

end Handlers

/-! ## Runs -/

section Runs

variable {env : Env} {w v : World} {reqs : List Request} {session : Session} {packet : Packet} {cur : Option Packet}
  {c : Io Rc × World} {e : Call} {k : Res e → Io Rc}

theorem dispatchCommand_returns : Returns [] (dispatchCommand session packet) := by
  have hwith {missing : Bytes} {handler : Session → Bytes → Io (Rc × Session)}
      (h : ∀ arg, Returns [] (handler session arg)) : Returns [] (withArg session packet missing handler) := by
    unfold withArg
    split
    · exact reply_returns
    · exact h _
  unfold dispatchCommand
  split
  · exact reply_returns
  · exact handleLs_returns
  · exact hwith handleCd_returns
  · exact hwith handleRm_returns
  · exact hwith handleMkdir_returns
  · exact handlePuts_returns
  · exact hwith handleGets_returns
  · exact reply_returns

theorem recvPacket_handles {wait : Wait} {x : Rc × Packet} (h : Steps (kernel env) (recvPacket wait, w) (.ret x, v)) :
    v.proc.handles = w.proc.handles :=
  Handling.Frees.returns (fun w : World => w.proc.handles) (Handling.Frees.of_every (recvPacket_idle wait)) kernel_handling h

/-- Between two requests nothing is open. -/
theorem Served.handles (h : Served env w reqs session v) : v.proc.handles = w.proc.handles := by
  induction h with
  | start => rfl
  | next _ hserve _ ih =>
    obtain ⟨-, v₁, hrecv, hdis, -⟩ := hserve
    have hd := Handling.Frees.returns (fun w : World => w.proc.handles) dispatchCommand_returns kernel_handling hdis
    exact hd.trans ((recvPacket_handles hrecv).trans ih)

/-- The calls of a connection are those that read a request, and those that serve one. -/
theorem Amid.calls (h : Amid env w reqs session cur c) (hc : c.1 = .call e k) :
    cur = none ∧ e.FromPeer ∨ ∃ packet v v₁ k', cur = some packet ∧ Served env w reqs session v ∧
      Steps (kernel env) (recvPacket .request, v) (.ret (.ok, packet), v₁) ∧
      Steps (kernel env) (dispatchCommand session packet, v₁) (.call e k', c.2) := by
  cases h with
  | head h => cases hc
  | ended h => cases hc
  | failed h => cases hc
  | @reading _ _ _ v' p h hopen hrun hp =>
    cases p with
    | ret x => exact absurd rfl (hp x)
    | loop body s k' => cases hc
    | call e' k' =>
      obtain ⟨rfl, -⟩ := Prog.call.inj hc
      exact .inl ⟨rfl, every_check (recvPacket_calls .request) hrun⟩
  | @serving _ _ packet v v₁ v' p h hopen hrecv hrun hp =>
    cases p with
    | ret x => exact absurd rfl (hp x)
    | loop body s k' => cases hc
    | call e' k' =>
      obtain ⟨rfl, -⟩ := Prog.call.inj hc
      exact .inr ⟨packet, v, v₁, k', rfl, h, hrecv, hrun⟩

/-- A call of a connection that touches a path serves a request about it. -/
theorem Amid.attends (h : Amid env w reqs session cur c) (hbare : w.proc.handles = ∅) (hc : c.1 = .call e k) {q : Bytes}
    (hq : e.touches c.2.proc = some q) : ∃ packet, cur = some packet ∧ requestPath session packet = some q ∧
      ∀ type, e.change = some type → packet.Is type := by
  rcases h.calls hc with ⟨-, hpeer⟩ | ⟨packet, v, v₁, k', rfl, hserved, hrecv, hrun⟩
  · cases e with
    | recv | calloc => cases hq
    | _ => cases hpeer
  · have hstart : OnlyIn {q | requestPath session packet = some q} v₁.proc :=
      .of_bare ((recvPacket_handles hrecv).trans (hserved.handles.trans hbare))
    have hwp : wp (kernel env) (fun _ => Attends (requestPath session packet) (CmdType.ofCode packet.header.cmdType))
        (dispatchCommand session packet) (fun _ _ => True) v₁ :=
      wp_mono (every_wp (I := fun _ => True) dispatchCommand_minds trivial (fun _ _ hc _ => hc)
        fun _ _ _ _ _ _ _ => trivial) fun _ _ _ => trivial
    have honly : OnlyIn {q | requestPath session packet = some q} c.2.proc :=
      wp_keeps (I := fun u => OnlyIn _ u.proc) hwp (fun _ _ _ _ hc hk h => h.kernel hk hc.names) hstart hrun
    obtain ⟨hnames, hchange⟩ := every_check dispatchCommand_minds hrun
    exact ⟨packet, rfl, honly.touches hnames hq, fun type ht => CmdType.ofCode_eq (hchange type ht)⟩

end Runs

section Sessions

variable {ι : Type} [DecidableEq ι] {faults : Call → Prop}

/-- A session among others stands somewhere in its loop. -/
theorem amid_of_parSteps {sem : Sem Call Res World} {ok : StepOk Call Res FS Proc ι Rc}
    {c₀ c : Threads Call Res FS Proc ι Rc} {i : ι} (hsem : ∀ w e r w', sem w e r w' → kernel (.quiet faults) w e r w')
    (hstart : c₀.prog i = handleRequest .start) (hrun : ParSteps sem World.mk ok c₀ c) :
    ∃ fs reqs session cur, Amid (.busy faults) ⟨c₀.shared, c₀.loc i⟩ reqs session cur (c.prog i, ⟨fs, c.loc i⟩) := by
  obtain ⟨fs, hsteps⟩ :
      ∃ s, Steps (kernel (.busy faults)) (c₀.prog i, ⟨c₀.shared, c₀.loc i⟩) (c.prog i, ⟨s, c.loc i⟩) := by
    refine Par.thread ?_ hrun i
    intro s s₁ l e r w h
    obtain ⟨fs, -, v, he, rfl⟩ := hsem _ _ _ _ h
    exact ⟨fs, trivial, v, he, rfl⟩
  rw [hstart] at hsteps
  obtain ⟨reqs, session, cur, hamid⟩ := amid_of_steps hsteps
  exact ⟨fs, reqs, session, cur, hamid⟩

/-- **Nothing changes unasked**: with any number of sessions at work on one tree, in any order, whatever they receive
and whichever call fails, a step that changes the node at `q` is made for an `rm`, a `mkdir` or a `puts` that one of them
is serving and that is about `q`; and it does what that request is for. -/
theorem changes_requested {ok : StepOk Call Res FS Proc ι Rc} {c₀ c c' : Threads Call Res FS Proc ι Rc} {q : Bytes}
    (hstart : ∀ i, c₀.prog i = handleRequest .start ∧ (c₀.loc i).handles = ∅)
    (hrun : ParSteps (kernel (.quiet faults)) World.mk ok c₀ c) (hstep : ParStep (kernel (.quiet faults)) World.mk ok c c')
    (hne : c'.shared q ≠ c.shared q) :
    ∃ i fs reqs session packet type, Amid (.busy faults) ⟨c₀.shared, c₀.loc i⟩ reqs session (some packet)
        (c.prog i, ⟨fs, c.loc i⟩) ∧ (∀ j, j ≠ i → c'.prog j = c.prog j ∧ c'.loc j = c.loc j) ∧
      packet.Is type ∧ requestPath session packet = some q ∧ Changed (c.shared q) (c'.shared q) type := by
  cases hstep with
  | loop hp => exact absurd rfl hne
  | @call _ i e k r s l hp hk hok =>
    obtain ⟨fs, reqs, session, cur, hamid⟩ := amid_of_parSteps (fun _ _ _ _ h => h) (hstart i).1 hrun
    obtain ⟨type, htype, hchanged⟩ := kernel_changed hk hne
    have htouch : e.touches (c.loc i) = some q := (kernel_elsewhere hk hne).1
    obtain ⟨packet, rfl, hpath, his⟩ := hamid.attends (hstart i).2 hp htouch
    exact ⟨i, fs, reqs, session, packet, type, hamid, fun j hj => ⟨Threads.put_prog_ne hj, Threads.put_loc_ne hj⟩,
      his type htype, hpath, hchanged⟩

/-! ### Two sessions -/

section TwoSessions

/-- Two sessions that begin on an empty tree. -/
def twoSessions : Threads Call Res FS Proc Bool Rc := ⟨fun _ => none, fun _ => handleRequest .start, fun _ => .init⟩

theorem twoSessions_bare (i : Bool) : twoSessions.prog i = handleRequest .start ∧ (twoSessions.loc i).handles = ∅ :=
  ⟨rfl, init_handles⟩

/-- One of them is asked for a directory, and is about to make it. -/
theorem handleRequest_makesDir : ∃ c, Steps (kernel (.quiet fun _ => False))
    (handleRequest .start, ⟨fun _ => none, .init⟩) c ∧ c.2.fs = (fun _ => none) ∧
      ∃ k, c.1 = .call (.mkdir (lit "../tests/a")) k := by
  have hp : (textPacket .mkdir .ok (lit "a")).Valid := textPacket_valid (by decide)
  have hR : Backward (fed (.quiet fun _ => False) (textPacket .mkdir .ok (lit "a")).wire) fun c => _ :=
    backward_kernel fun c : Io Rc × World => c.2.fs = (fun _ => none) ∧ ∃ k, c.1 = .call (.mkdir (lit "../tests/a")) k
  refine hR.loop (run_request hR rfl hp (List.prefix_refl _) ⟨_, .refl, rfl, ?_⟩)
  have harg : copyStringPayload (textPacket .mkdir .ok (lit "a")) pathMax false = some (lit "a") := by decide
  have hpath : resolveTargetPath rootPath (lit "a") pathMax pathMax = some (lit "/a", lit "../tests/a") := by decide
  have hmkdir : (textPacket .mkdir .ok (lit "a")).Is .mkdir := Packet.of_is.2 rfl
  rw [dispatchCommand, ofCode_of_is hmkdir]
  simp only [withArg, harg, handleMkdir, hpath, Session.start]
  exact ⟨_, rfl⟩

/-- The directory it makes is one it was asked for. -/
theorem changes_requested_mkdir : ∃ c c' : Threads Call Res FS Proc Bool Rc,
    ParSteps (kernel (.quiet fun _ => False)) World.mk (fun _ _ _ _ => True) twoSessions c ∧
      ParStep (kernel (.quiet fun _ => False)) World.mk (fun _ _ _ _ => True) c c' ∧
      ∃ packet session type, packet.Is type ∧ requestPath session packet = some (lit "../tests/a") ∧
        Changed (c.shared (lit "../tests/a")) (c'.shared (lit "../tests/a")) type := by
  obtain ⟨⟨p, fs, l⟩, hrun, hfs, k, hp⟩ := handleRequest_makesDir
  obtain rfl : fs = fun _ => none := hfs
  have h₁ : ParSteps (kernel (.quiet fun _ => False)) World.mk (fun _ _ _ _ => True) twoSessions
      (twoSessions.put true (fun _ => none) p l) :=
    runs_alone (d := (p, ⟨fun _ => none, l⟩)) rfl rfl rfl (fun _ _ _ => trivial) hrun
  have h₂ : ParStep (kernel (.quiet fun _ => False)) World.mk (fun _ _ _ _ => True)
      (twoSessions.put true (fun _ => none) p l) _ :=
    .call (r := true) (s := Function.update (fun _ => none) (lit "../tests/a") (some .dir))
      (l := l.note (.mkdir (lit "../tests/a")) true)
      (Threads.put_prog_self.trans hp) (by
        rw [Threads.put_loc_self, Threads.put_shared]
        exact ⟨_, rfl, ⟨_, l⟩, ⟨rfl, rfl⟩, rfl⟩) trivial
  obtain ⟨-, -, -, session, packet, type, -, -, his, hpath, hchanged⟩ :=
    changes_requested (q := lit "../tests/a") twoSessions_bare h₁ h₂ (by simp)
  exact ⟨_, _, h₁, h₂, packet, session, type, his, hpath, hchanged⟩

end TwoSessions

end Sessions
end Server
end WindCloud
