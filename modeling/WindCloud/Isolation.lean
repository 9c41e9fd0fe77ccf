import WindCloud.Frame
import WindCloud.Tree
import WindCloud.Upload
/-!
# Sessions in parts of their own

Any number of sessions work on one tree at once. If what their requests are about lies in parts of the tree that do not
meet, each a union of whole subtrees, then no session can tell that the others are there (`sessions_isolated`): all it
was answered and all it has written it could have been answered and have written alone, and its part would look the
same. What a session does in its part does depend on the directories above it, and these no other session can touch.
-/

namespace WindCloud

open Interaction Prog

namespace Server

variable {ι : Type} [DecidableEq ι] {faults : Call → Prop}

/-- Every request in service is about a path in its session's zone. -/
def InService (zone : ι → Set Bytes) (c₀ c : Threads Call Res FS Proc ι Rc) : Prop :=
  ∀ i fs reqs session packet, Amid (.busy fun _ => True) ⟨c₀.shared, c₀.loc i⟩ reqs session (some packet)
    (c.prog i, ⟨fs, c.loc i⟩) → ∀ q, requestPath session packet = some q → q ∈ zone i

/-- **Sessions do not notice each other** while their requests are about parts of the tree that do not meet: each makes
the run it could have made alone, with the same answers, the same bytes on its connection, and the same contents in its
part. -/
theorem sessions_isolated {zone : ι → Set Bytes} {c₀ c : Threads Call Res FS Proc ι Rc}
    (hstart : ∀ i, c₀.prog i = handleRequest .start ∧ (c₀.loc i).handles = ∅)
    (hzone : Pairwise fun i j => Disjoint (zone i) (zone j)) (hclosed : ∀ i, Closed (zone i))
    (hrun : ParSteps (tree faults) World.mk (fun c _ _ _ => InService zone c₀ c) c₀ c) (i : ι) :
    ∃ fs, Steps (tree faults) (handleRequest .start, ⟨c₀.shared, c₀.loc i⟩) (c.prog i, ⟨fs, c.loc i⟩) ∧
      ∀ q ∈ zone i, c.shared q = fs q := by
  rw [← (hstart i).1]
  refine isolated hzone hclosed (Par.strengthen ?_ hrun) i
  intro c₁ j e k r hrun₁ hp hserve q hq
  obtain ⟨fs, reqs, session, cur, hamid⟩ := amid_of_parSteps (fun _ _ _ _ h => h.quiet) (hstart j).1 hrun₁
  obtain ⟨packet, rfl, hpath, -⟩ := hamid.attends (hstart j).2 hp hq
  exact hserve j fs reqs session packet hamid q hpath

/-! ### Two sessions, each with a directory to make -/

section TwoSessions

variable {env : Env} {w v : World} {reqs : List Request} {session : Session} {packet p : Packet} {c : Io Rc × World}

/-- A session that has served a request has received it. -/
theorem Served.received (h : Served env w reqs session v) :
    session = .start ∧ v = w ∨ ∃ q, Packet.Valid q ∧ w.proc.rcvd ++ q.wire <+: v.proc.rcvd := by
  induction h with
  | start => exact .inl ⟨rfl, rfl⟩
  | @next reqs v v' r rc h hserve hgo ih =>
    obtain ⟨-, v₁, hrecv, hdis, -⟩ := hserve
    have hgrow := (steps_grow hdis).1
    rcases recvPacket_result hrecv with ⟨fs, -, -, hvalid, rfl⟩ | ⟨_, _, _, hfail, -⟩
    · rcases ih with ⟨-, rfl⟩ | ⟨q, hq, hpre⟩
      · exact .inr ⟨r.packet, hvalid, hgrow⟩
      · exact .inr ⟨q, hq, hpre.trans ((List.prefix_append _ _).trans hgrow)⟩
    · cases hfail

/-- Where no more than one packet was received, that one is being served, and it is the first. -/
theorem Amid.first (h : Amid env w reqs session (some packet) c) (h0 : w.proc.rcvd = []) (hp : p.Valid)
    (hrcvd : c.2.proc.rcvd <+: p.wire) : session = .start ∧ packet = p := by
  cases h with
  | @serving _ _ _ v v₁ v' _ h hopen hrecv hrun =>
    rcases recvPacket_result hrecv with ⟨fs, -, -, hvalid, rfl⟩ | ⟨_, _, _, hfail, -⟩
    · have hall : v.proc.rcvd ++ packet.wire <+: p.wire := (steps_grow hrun).1.trans hrcvd
      rcases h.received with ⟨hs, rfl⟩ | ⟨q, hq, hpre⟩
      · rw [h0, List.nil_append] at hall
        exact ⟨hs, hvalid.eq_of_prefix hp hall⟩
      · -- a packet before it would fill what was received
        rw [h0, List.nil_append] at hpre
        obtain rfl := hq.eq_of_prefix hp (hpre.trans ((List.prefix_append _ _).trans hall))
        have hlen := hall.length_le
        rw [List.length_append] at hlen
        have hne := List.length_pos_iff.2 packet.wire_ne_nil
        have := hpre.length_le
        omega
    · cases hfail

/-- Two sessions that begin on a bare tree. -/
def bareSessions : Threads Call Res FS Proc Bool Rc := ⟨bareTree, fun _ => handleRequest .start, fun _ => .init⟩

/-- What each of them is asked for: a directory of this name. -/
def askedName (i : Bool) : Bytes := if i then lit "a" else lit "b"

def askedPacket (i : Bool) : Packet := textPacket .mkdir .ok (askedName i)

def askedPath (i : Bool) : Bytes := serverBaseDir ++ slash :: askedName i

/-- The subtree of a path. -/
def subtree (path : Bytes) : Set Bytes := {q | path ++ [slash] <+: q ++ [slash]}

theorem subtree_closed {path : Bytes} (hne : path ≠ []) : Closed (subtree path) := by
  intro q hq
  by_cases h : slash ∈ q
  · exact List.IsPrefix.trans hq ((parent_append_slash h).trans (List.prefix_append q [slash]))
  · -- nothing is above a path without a slash
    have hq : path ++ [slash] <+: parent q ++ [slash] := hq
    exact absurd (by simpa [parent_of_notMem h] using hq.length_le) hne

theorem askedPacket_valid (i : Bool) : (askedPacket i).Valid := textPacket_valid (by cases i <;> decide)

theorem requestPath_asked (i : Bool) : requestPath .start (askedPacket i) = some (askedPath i) := by
  have his : (askedPacket i).Is .mkdir := Packet.of_is.2 rfl
  rw [requestPath, ofCode_of_is his]
  cases i <;> decide

theorem subtrees_disjoint : Pairwise fun i j => Disjoint (subtree (askedPath i)) (subtree (askedPath j)) := by
  intro i j hij
  rw [Set.disjoint_left]
  intro q hi hj
  have hlen : (askedPath i ++ [slash]).length = (askedPath j ++ [slash]).length := by cases i <;> cases j <;> rfl
  have hsame : askedPath i ++ [slash] = askedPath j ++ [slash] :=
    (List.prefix_of_prefix_length_le hi hj hlen.le).eq_of_length hlen
  revert hsame
  cases i <;> cases j <;> first | exact absurd rfl hij | decide

/-- While no session has received more than what it is asked, all requests are in their zones. -/
theorem asked_inService {c : Threads Call Res FS Proc Bool Rc} (h : ∀ i, (c.loc i).rcvd <+: (askedPacket i).wire) :
    InService (fun i => subtree (askedPath i)) bareSessions c := by
  intro i fs reqs session packet hamid q hq
  obtain ⟨rfl, rfl⟩ := hamid.first rfl (askedPacket_valid i) (h i)
  obtain rfl := Option.some.inj ((requestPath_asked i).symm.trans hq)
  exact List.prefix_refl _

/-- One of them makes its directory. -/
theorem handleRequest_makesAsked (i : Bool) {fs : FS} (hroot : fs serverBaseDir = some .dir)
    (hnone : fs (askedPath i) = none) :
    ∃ p, Steps (fun w c r w' => tree (fun _ => False) w c r w' ∧ w'.proc.rcvd <+: (askedPacket i).wire)
      (handleRequest .start, ⟨fs, .init⟩)
      (p, ⟨Function.update fs (askedPath i) (some .dir),
        (Proc.init.addRcvd (askedPacket i).wire).note (.mkdir (askedPath i)) true⟩) := by
  have his : (askedPacket i).Is .mkdir := Packet.of_is.2 rfl
  have harg : copyStringPayload (askedPacket i) pathMax false = some (askedName i) := by cases i <;> decide
  have hpath : resolveTargetPath rootPath (askedName i) pathMax pathMax = some (slash :: askedName i, askedPath i) := by
    cases i <;> decide
  have hunder : fs.Under (askedPath i) := by
    have hpar : parent (askedPath i) = serverBaseDir := parent_append _ (by cases i <;> decide)
    rw [FS.Under, hpar, hroot]
  have hmkdir : tree (fun _ => False) ⟨fs, Proc.init.addRcvd (askedPacket i).wire⟩ (.mkdir (askedPath i)) true
      ⟨Function.update fs (askedPath i) (some .dir),
        (Proc.init.addRcvd (askedPacket i).wire).note (.mkdir (askedPath i)) true⟩ :=
    ⟨⟨fs, rfl, ⟨_, _⟩, ⟨hnone, rfl⟩, rfl⟩, fun _ => ⟨hunder, hnone⟩, fun _ _ h => by cases h⟩
  suffices h : ∃ p, Steps (fun w c r w' => tree (fun _ => False) w c r w' ∧ w'.proc.rcvd <+: (askedPacket i).wire)
      (afterPacket .start (.ok, askedPacket i) >>= unroll handleRequestRound .ret,
        ⟨fs, Proc.init.addRcvd (askedPacket i).wire⟩)
      (p, ⟨Function.update fs (askedPath i) (some .dir),
        (Proc.init.addRcvd (askedPacket i).wire).note (.mkdir (askedPath i)) true⟩) by
    obtain ⟨p, h⟩ := h
    refine ⟨p, .head .loop ?_⟩
    rw [handleRequestRound_eq rfl, bind_assoc]
    exact steps_trans_bind (tree_reads (w := ⟨fs, .init⟩) (askedPacket_valid i)) h
  simp only [afterPacket, dispatchCommand, ofCode_of_is his, withArg, harg, handleMkdir, Session.start, hpath]
  exact ⟨_, .single (.call ⟨hmkdir, List.prefix_refl _⟩)⟩

/-- The same among the others. -/
theorem asked_parSteps (i : Bool) {c : Threads Call Res FS Proc Bool Rc} (hprog : c.prog i = handleRequest .start)
    (hloc : c.loc i = .init) (hroot : c.shared serverBaseDir = some .dir) (hnone : c.shared (askedPath i) = none)
    (hrcvd : ∀ j, (c.loc j).rcvd <+: (askedPacket j).wire) :
    ∃ p, ParSteps (tree fun _ => False) World.mk
      (fun c _ _ _ => InService (fun i => subtree (askedPath i)) bareSessions c) c
      (c.put i (Function.update c.shared (askedPath i) (some .dir)) p
        ((Proc.init.addRcvd (askedPacket i).wire).note (.mkdir (askedPath i)) true)) := by
  obtain ⟨p, hrun⟩ := handleRequest_makesAsked i hroot hnone
  rw [← hprog, ← hloc] at hrun
  -- whatever it receives on the way is part of its packet
  have hok {s : FS} {l : Proc} {e : Call} {k : Res e → Io Rc} {r : Res e} {w' : World}
      (hr : Steps (fun w c r w' => tree (fun _ => False) w c r w' ∧ w'.proc.rcvd <+: (askedPacket i).wire)
        (c.prog i, ⟨c.shared, c.loc i⟩) (.call e k, ⟨s, l⟩))
      (hs : tree (fun _ => False) ⟨s, l⟩ e r w' ∧ w'.proc.rcvd <+: (askedPacket i).wire) :
      tree (fun _ => False) ⟨s, l⟩ e r w' ∧
        InService (fun i => subtree (askedPath i)) bareSessions (c.put i s (.call e k) l) := by
    refine ⟨hs.1, asked_inService fun j => ?_⟩
    by_cases hj : j = i
    · subst hj
      rw [Threads.put_loc_self]
      exact (kernel_grows hs.1.step).1.trans hs.2
    · rw [Threads.put_loc_ne hj]
      exact hrcvd j
  obtain ⟨s, l, hw, hpar⟩ : ∃ s l, World.mk s l = ⟨Function.update c.shared (askedPath i) (some .dir), _⟩ ∧
      ParSteps (tree fun _ => False) World.mk (fun c _ _ _ => InService (fun i => subtree (askedPath i)) bareSessions c) c
        (c.put i s p l) :=
      Par.run (fun w => ⟨w.fs, w.proc, rfl⟩) (fun hr hs _ => hok hr hs) hrun
  obtain ⟨rfl, rfl⟩ := World.mk.inj hw
  exact ⟨p, hloc ▸ hpar⟩

/-- Both make their directories; either would have made its own alone. -/
theorem sessions_isolated_mkdir : ∃ c : Threads Call Res FS Proc Bool Rc,
    (∀ i, c.shared (askedPath i) = some .dir) ∧
      ∀ i, ∃ fs, Steps (tree fun _ => False) (handleRequest .start, ⟨bareTree, .init⟩) (c.prog i, ⟨fs, c.loc i⟩) ∧
        fs (askedPath i) = some .dir := by
  have hbase : bareTree serverBaseDir = some .dir := if_pos (.inr rfl)
  have hfree (i : Bool) : bareTree (askedPath i) = none := if_neg (by cases i <;> decide)
  have hne : askedPath false ≠ askedPath true := by decide
  obtain ⟨p, h₁⟩ : ∃ p, ParSteps (tree fun _ => False) World.mk
      (fun c _ _ _ => InService (fun i => subtree (askedPath i)) bareSessions c) bareSessions
      (bareSessions.put true (Function.update bareTree (askedPath true) (some .dir)) p
        ((Proc.init.addRcvd (askedPacket true).wire).note (.mkdir (askedPath true)) true)) :=
    asked_parSteps true rfl rfl hbase (hfree true) fun _ => List.nil_prefix
  generalize hc : bareSessions.put true (Function.update bareTree (askedPath true) (some .dir)) p
    ((Proc.init.addRcvd (askedPacket true).wire).note (.mkdir (askedPath true)) true) = c at h₁
  have hprog : c.prog false = handleRequest .start := by rw [← hc, Threads.put_prog_ne (by decide)]; rfl
  have hloc : c.loc false = .init := by rw [← hc, Threads.put_loc_ne (by decide)]; rfl
  have hrcvd (j : Bool) : (c.loc j).rcvd <+: (askedPacket j).wire := by
    cases j with
    | true => rw [← hc, Threads.put_loc_self]; exact List.prefix_refl _
    | false => rw [hloc]; exact List.nil_prefix
  have hshared : c.shared = Function.update bareTree (askedPath true) (some .dir) := by rw [← hc]; rfl
  obtain ⟨q, h₂⟩ := asked_parSteps false hprog hloc (by rw [hshared, Function.update_of_ne (by decide), hbase])
    (by rw [hshared, Function.update_of_ne hne, hfree]) hrcvd
  have hmade (i : Bool) : (c.put false (Function.update c.shared (askedPath false) (some .dir)) q
      ((Proc.init.addRcvd (askedPacket false).wire).note (.mkdir (askedPath false)) true)).shared (askedPath i) =
        some .dir := by
    rw [Threads.put_shared, hshared]
    cases i with
    | false => exact Function.update_self ..
    | true => rw [Function.update_of_ne hne.symm, Function.update_self]
  refine ⟨_, hmade, fun i => ?_⟩
  obtain ⟨fs, hsteps, hsame⟩ := sessions_isolated (fun _ => ⟨rfl, init_handles⟩) subtrees_disjoint
    (fun i => subtree_closed (by cases i <;> decide)) (h₁.trans h₂) i
  exact ⟨fs, hsteps, (hsame _ (List.prefix_refl _)).symm.trans (hmade i)⟩

end TwoSessions
end Server
end WindCloud
