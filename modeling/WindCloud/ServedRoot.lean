import WindCloud.CurrentPath
/-!
# The served root

`handle_rm` removes what its argument resolves to, and an argument may resolve to the virtual root:
`.`, `..` at the root, `a/..`. What is then handed to `remove` is the base directory itself, which
goes if it is empty. That is the only way: a worker comes to remove the base directory exactly when
it serves an `rm` that leads to the root (`AsksRoot`).
-/

namespace WindCloud

open Interaction Prog

theorem normalizeVirtualPath_of_resolve {currentPath arg virtualPath : Bytes}
    (h : resolveTargetPath currentPath arg pathMax pathMax = some (virtualPath, serverBaseDir)) :
    normalizeVirtualPath currentPath arg pathMax = some rootPath := by
  unfold resolveTargetPath at h
  split at h
  · cases h
  rename_i hn
  split at h
  · cases h
  rename_i hb
  obtain ⟨rfl, rfl⟩ := Prod.mk.inj (Option.some.inj h)
  obtain ⟨v, rfl, -⟩ := normalizeVirtualPath_render hn
  have htail : v.tail = [] := List.append_right_eq_self.1 (buildRealPath_render hb).symm
  have hnames : v.names = [] := by
    rw [VPath.tail, List.flatMap_eq_nil_iff] at htail
    exact List.eq_nil_iff_forall_not_mem.2 fun c hc => List.cons_ne_nil _ _ (htail c hc)
  rw [hn, VPath.render_eq_root.2 hnames]

theorem resolveTargetPath_root {currentPath arg : Bytes} (h : normalizeVirtualPath currentPath arg pathMax = some rootPath) :
    resolveTargetPath currentPath arg pathMax pathMax = some (rootPath, serverBaseDir) := by
  have hb : buildRealPath rootPath pathMax = some serverBaseDir := by decide
  simp only [resolveTargetPath, h, hb]

namespace Server

/-- An `rm` that leads to the virtual root. -/
def AsksRoot (session : Session) (packet : Packet) : Prop :=
  packet.Is .rm ∧ ∃ arg, copyStringPayload packet pathMax false = some arg ∧
    normalizeVirtualPath session.currentPath arg pathMax = some rootPath

variable {env : Env} {w v' : World} {session : Session} {packet : Packet} {reqs : List Request} {cur : Option Packet}
  {c : Io Rc × World}

/-- The calls of `recv_packet`. -/
theorem recvPacket_removes (wait : Wait) : every (fun c => ∀ path, c ≠ .remove path) (recvPacket wait) fun _ => True :=
  every_mono (recvPacket_spares wait) (fun _ hc => hc.2) fun _ => id

/-- A path is removed for an `rm` of it. -/
theorem Amid.removes {path : Bytes} {k : Bool → Io Rc} (h : Amid env w reqs session cur c)
    (hc : c.1 = .call (.remove path) k) : ∃ packet, cur = some packet ∧ Removes session packet path := by
  have hat := h.at_stack.1
  cases h with
  | head h => cases hc
  | ended h => cases hc
  | failed h => cases hc
  | @reading _ _ _ v' p h hopen hrun hp =>
    cases p with
    | ret x => exact absurd rfl (hp x)
    | loop body s k' => cases hc
    | call e k' =>
      obtain ⟨rfl, -⟩ := Prog.call.inj hc
      exact absurd rfl (every_check (recvPacket_removes .request) hrun path)
  | @serving _ _ packet _ _ v' p h hopen hrecv hrun hp =>
    cases p with
    | ret x => exact absurd rfl (hp x)
    | loop body s k' => cases hc
    | call e k' =>
      obtain ⟨rfl, -⟩ := Prog.call.inj hc
      exact ⟨packet, rfl, (every_check (dispatchCommand_allowed ⟨_, hat.path⟩) hrun).2 path rfl⟩

/-- Only a request that leads to the root removes the base directory. -/
theorem Amid.asksRoot {k : Bool → Io Rc} (h : Amid env w reqs session cur c)
    (hc : c.1 = .call (.remove serverBaseDir) k) : ∃ packet, cur = some packet ∧ AsksRoot session packet := by
  obtain ⟨packet, hcur, hrm, arg, virtualPath, harg, hres⟩ := h.removes hc
  exact ⟨packet, hcur, hrm, arg, harg, normalizeVirtualPath_of_resolve hres⟩

theorem not_asksRoot {path : Bytes} (h : Removes session packet path) (hne : path ≠ serverBaseDir) :
    ¬ AsksRoot session packet := by
  rintro ⟨-, arg, harg, hnorm⟩
  obtain ⟨-, arg', virtualPath, harg', hres⟩ := h
  obtain rfl := Option.some.inj (harg.symm.trans harg')
  rw [resolveTargetPath_root hnorm] at hres
  exact hne (Prod.mk.inj (Option.some.inj hres)).2.symm

/-- An `rm` that resolves goes straight to `remove`. -/
theorem dispatchCommand_rm {arg virtualPath path : Bytes} (hrm : packet.Is .rm)
    (harg : copyStringPayload packet pathMax false = some arg)
    (hres : resolveTargetPath session.currentPath arg pathMax pathMax = some (virtualPath, path)) :
    ∃ k, dispatchCommand session packet = .call (.remove path) k := by
  rw [dispatchCommand, ofCode_of_is hrm]
  simp only [withArg, harg, handleRm, hres]
  exact ⟨_, rfl⟩

/-- The run that has served `reqs`. -/
theorem Served.steps {v : World} (h : Served env w reqs session v) :
    Steps (kernel env) (handleRequest .start, w) (handleRequest session, v) := by
  induction h with
  | start => exact .refl
  | @next reqs v v' r rc h hserve hgo ih =>
    obtain ⟨hopen, v₁, hrecv, hdis, -⟩ := hserve
    refine ih.trans (steps_loop_inl ?_ .refl)
    rw [handleRequestRound_eq hopen]
    refine steps_trans_bind hrecv (steps_trans_bind hdis ?_)
    have hstay : ¬ (rc ≠ .ok ∧ ¬ r.next.shouldClose) := fun hs => hgo.elim hs.1 hs.2
    rw [afterCommand_eq, if_neg hstay]

/-- A request that leads to the root can remove it. -/
theorem Amid.removesRoot (h : Amid env w reqs session (some packet) c) (hroot : AsksRoot session packet) :
    ∃ c' k, Steps (kernel env) (handleRequest .start, w) c' ∧ c'.1 = .call (.remove serverBaseDir) k := by
  cases h with
  | @serving _ _ _ v v₁ v' p h hopen hrecv hrun hp =>
    obtain ⟨hrm, arg, harg, hnorm⟩ := hroot
    obtain ⟨k, hk⟩ := dispatchCommand_rm hrm harg (resolveTargetPath_root hnorm)
    have hround : Steps (kernel env) (handleRequestRound session, v)
        (dispatchCommand session packet >>= afterCommand, v₁) := by
      rw [handleRequestRound_eq hopen]
      exact steps_trans_bind hrecv .refl
    refine ⟨_, fun r => k r >>= afterCommand >>= afterRound,
      h.steps.trans (.head .loop (steps_bind afterRound hround)), ?_⟩
    rw [hk]
    rfl

/-- **The served root**: while the request in service is not an `rm` that leads to the virtual root,
the worker does not hand the base directory to `remove`; while it is one, the worker can. -/
theorem handleRequest_keepsRoot (hrun : Steps (kernel env) (handleRequest .start, w) c) :
    ∃ reqs session cur, Amid env w reqs session cur c ∧
      ((∀ packet ∈ cur, ¬ AsksRoot session packet) → ∀ k, c.1 ≠ .call (.remove serverBaseDir) k) ∧
      ∀ packet ∈ cur, AsksRoot session packet →
        ∃ c' k, Steps (kernel env) (handleRequest .start, w) c' ∧ c'.1 = .call (.remove serverBaseDir) k := by
  obtain ⟨reqs, session, cur, hamid⟩ := amid_of_steps hrun
  refine ⟨reqs, session, cur, hamid, ?_, ?_⟩
  · intro hreq k hc
    obtain ⟨packet, rfl, hroot⟩ := hamid.asksRoot hc
    exact hreq packet rfl hroot
  · rintro packet hcur hroot
    obtain rfl : cur = some packet := hcur
    exact hamid.removesRoot hroot

/-- The first request of a client is an `rm`. -/
theorem handleRequest_removes (env : Env) (fs : FS) (arg : Bytes) {virtualPath path : Bytes}
    (hlen : arg.length < maxPacketPayload.toNat)
    (harg : copyStringPayload (textPacket .rm .ok arg) pathMax false = some arg)
    (hres : resolveTargetPath rootPath arg pathMax pathMax = some (virtualPath, path)) :
    ∃ v k, Steps (kernel env) (handleRequest .start, ⟨fs, .init⟩) (.call (.remove path) k, ⟨fs, v⟩) := by
  have hp : (textPacket .rm .ok arg).Valid := textPacket_valid hlen
  have hrm : (textPacket .rm .ok arg).Is .rm := Packet.of_is.2 rfl
  have hstart : resolveTargetPath Session.start.currentPath arg pathMax pathMax = some (virtualPath, path) := hres
  obtain ⟨k, hk⟩ := dispatchCommand_rm hrm harg hstart
  have hR : Backward (fed env (textPacket .rm .ok arg).wire) fun c => _ :=
    backward_kernel fun c : Io Rc × World => ∃ v k, c = (.call (.remove path) k, ⟨fs, v⟩)
  have hreach : ∃ c, Steps (kernel env) (handleRequest .start, ⟨fs, .init⟩) c ∧
      ∃ v k, c = (.call (.remove path) k, ⟨fs, v⟩) := by
    refine hR.loop (run_request hR rfl hp (List.prefix_refl _) ?_)
    rw [hk]
    exact ⟨_, .refl, _, _, rfl⟩
  obtain ⟨_, hrun, v, k, rfl⟩ := hreach
  exact ⟨v, k, hrun⟩

/-- A client that asks to remove `a`: its request does not lead to the root. -/
theorem handleRequest_keepsRoot_name : ∃ (c : Io Rc × World) (reqs : List Request) (session : Session) (packet : Packet),
    Amid (.quiet fun _ => False) ⟨fun _ => none, .init⟩ reqs session (some packet) c ∧
      Removes session packet (lit "../tests/a") ∧ ¬ AsksRoot session packet ∧
      ∀ k, c.1 ≠ .call (.remove serverBaseDir) k := by
  obtain ⟨v, k, hrun⟩ := handleRequest_removes (.quiet fun _ => False) (fun _ => none) (lit "a")
    (by decide) (by decide) (show _ = some (lit "/a", lit "../tests/a") by decide)
  obtain ⟨reqs, session, cur, hamid, hkeep, -⟩ := handleRequest_keepsRoot hrun
  obtain ⟨packet, rfl, hremoves⟩ := hamid.removes rfl
  have hother := not_asksRoot hremoves (by decide)
  refine ⟨_, reqs, session, packet, hamid, hremoves, hother, hkeep ?_⟩
  rintro _ ⟨⟩
  exact hother

/-- A client that asks to remove `.`, in the root, where there is nothing else: the root is gone. -/
theorem handleRequest_removesRoot : ∃ c k c', Steps (kernel (.quiet fun _ => False))
    (handleRequest .start, ⟨fun path => if path = serverBaseDir then some .dir else none, .init⟩) c ∧
      c.1 = .call (.remove serverBaseDir) k ∧ Prog.Step (kernel (.quiet fun _ => False)) c c' ∧
      c'.2.fs serverBaseDir = none := by
  obtain ⟨v, k, hrun⟩ := handleRequest_removes (.quiet fun _ => False)
    (fun path => if path = serverBaseDir then some .dir else none) (lit ".")
    (by decide) (by decide) (show _ = some (rootPath, serverBaseDir) by decide)
  refine ⟨_, k, (k true, ⟨_, v.note (.remove serverBaseDir) true⟩), hrun, rfl,
    .call ⟨_, rfl, ⟨_, v⟩, ⟨?_, rfl⟩, rfl⟩, ?_⟩
  · simp
  · simp

end Server
end WindCloud
