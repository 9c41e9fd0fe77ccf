import WindCloud.PathJail
import WindCloud.Requests
/-!
# The current directory

`current_path` is a string that `handle_cd` cuts up, joins and prints again. Over a whole session it
is a stack of names: the root, walked down the arguments of the `cd` requests that went through
(`currentStack`). A `cd` goes through when its argument resolves and its `opendir` succeeds, which the
calls made for the request show. What resolves has room for the base directory in front, so no
buffer on the way ever cuts it.
-/

namespace WindCloud

open Interaction Prog

/-- An `opendir` that found its directory. -/
def Event.opened : Event → Bool
  | ⟨.opendir _, dir⟩ => dir.isSome
  | _ => false

/-- The argument of a `cd` that went through. -/
def Request.cdArg (r : Request) : Option Bytes :=
  if r.packet.Is .cd ∧ r.events.any Event.opened then copyStringPayload r.packet pathMax false else none

/-- Where the requests lead from the root. -/
def currentStack (reqs : List Request) : VPath := (reqs.filterMap Request.cdArg).foldl VPath.walk .root

/-- `current_path` prints `v`, and has room for the base directory in front. -/
structure Session.At (session : Session) (v : VPath) : Prop where
  path : session.currentPath = v.render
  room : v.render.length < pathMax - serverBaseDir.length

theorem buildRealPath_room {v : VPath} {path : Bytes} (h : buildRealPath v.render pathMax = some path) :
    v.render.length < pathMax - serverBaseDir.length := by
  unfold buildRealPath at h
  by_cases hr : v.render = rootPath
  · rw [hr]
    decide
  · simp only [if_neg hr, List.length_append] at h
    split at h
    · cases h
    · omega

theorem VPath.buildRealPath_ne_none {v : VPath} (h : v.render.length < pathMax - serverBaseDir.length) :
    buildRealPath v.render pathMax ≠ none := by
  unfold buildRealPath
  by_cases hr : v.render = rootPath
  · simp only [if_pos hr]
    decide
  · simp only [if_neg hr, List.length_append]
    rw [if_neg (by omega)]
    simp

/-- What resolves is where the argument leads. -/
theorem Session.At.resolve {session : Session} {v : VPath} {arg virtualPath realPath : Bytes} (h : session.At v)
    (hres : resolveTargetPath session.currentPath arg pathMax pathMax = some (virtualPath, realPath)) :
    Session.At { session with currentPath := truncate pathMax virtualPath } (v.walk arg) := by
  unfold resolveTargetPath at hres
  split at hres
  · cases hres
  rename_i hn
  split at hres
  · cases hres
  rename_i hb
  obtain ⟨rfl, rfl⟩ := Prod.mk.inj (Option.some.inj hres)
  rw [h.path] at hn
  obtain ⟨rfl, hlen⟩ := normalizeVirtualPath_walk hn
  exact ⟨truncate_eq hlen, buildRealPath_room hb⟩

namespace Server

variable {env : Env} {w v' : World} {session : Session} {c : Io Rc × World}

/-- What `handle_cd` leaves, and what shows of it. -/
def CdDone (session : Session) (arg : Bytes) (events : List Event) (next : Session) : Prop :=
  if events.any Event.opened then ∃ virtualPath realPath,
    resolveTargetPath session.currentPath arg pathMax pathMax = some (virtualPath, realPath) ∧
      next.currentPath = truncate pathMax virtualPath
  else next.currentPath = session.currentPath

/-- A text reply makes no call on files. -/
theorem wp_reply_trace {type : CmdType} {status : StatusCode} {msg : Bytes}
    (hlen : msg.length < maxPacketPayload.toNat) : wp (kernel env) (fun _ _ => True)
    (reply session type status msg) (fun r v => v.proc.trace = w.proc.trace ∧ r.2 = session) w :=
  wp_reply hlen (fun _ _ _ _ _ _ => trivial) (fun _ _ => ⟨rfl, rfl⟩) fun _ _ _ _ _ _ _ => ⟨rfl, rfl⟩

theorem wp_handleCd (arg : Bytes) : wp (kernel env) (fun _ _ => True) (handleCd session arg)
    (fun r v => ∃ events, v.proc.trace = w.proc.trace ++ events ∧ CdDone session arg events r.2) w := by
  unfold handleCd
  split
  · apply wp_mono (wp_reply_trace (by decide))
    rintro ⟨rc, _⟩ v ⟨ht, rfl⟩
    exact ⟨[], by rw [ht, List.append_nil], rfl⟩
  · rename_i nextVirtual realPath hres
    refine wp_opendir trivial ?_ ?_
    · intro fs hr hf
      apply wp_mono (wp_reply_trace (by decide))
      rintro ⟨rc, _⟩ v ⟨ht, rfl⟩
      exact ⟨_, ht, rfl⟩
    · intro fs d names hr hd
      refine wp_closedir trivial fun fs' hr' => wp_mono (wp_reply_trace (by decide)) ?_
      rintro ⟨rc, _⟩ v ⟨ht, rfl⟩
      refine ⟨[⟨.opendir realPath, some d⟩, ⟨.closedir d, ()⟩], ?_, ?_⟩
      · rw [ht]
        simp
      · exact ⟨_, _, hres, rfl⟩

/-- One request: where it leads. -/
theorem Serves.stack {v : World} {r : Request} {rc : Rc} {u : VPath} (hserve : Serves env v r rc v')
    (h : r.session.At u) :
    r.next.At (r.cdArg.elim u u.walk) ∧ (r.cdArg = none → r.next.currentPath = r.session.currentPath) := by
  obtain ⟨-, v₁, -, hdis, hev⟩ := hserve
  have stay (hnext : r.next.currentPath = r.session.currentPath) : r.next.At u := ⟨hnext.trans h.path, h.room⟩
  by_cases hcd : r.packet.Is .cd
  · rw [dispatchCommand, ofCode_of_is hcd] at hdis
    simp only [withArg] at hdis
    rcases harg : copyStringPayload r.packet pathMax false with _ | arg
    · have hnone : r.cdArg = none := by simp [Request.cdArg, harg]
      have hnext : r.next.currentPath = r.session.currentPath := by
        simp only [harg] at hdis
        exact congrArg Session.currentPath (wp_result (wp_reply_trace (by decide)) hdis).2
      rw [hnone]
      exact ⟨stay hnext, fun _ => hnext⟩
    · simp only [harg] at hdis
      obtain ⟨events, htrace, hdone⟩ := wp_result (wp_handleCd arg) hdis
      obtain rfl : r.events = events := List.append_cancel_left (hev.symm.trans htrace)
      by_cases hopen : r.events.any Event.opened
      · rw [CdDone, if_pos hopen] at hdone
        obtain ⟨virtualPath, realPath, hres, hnext⟩ := hdone
        have hsome : r.cdArg = some arg := by rw [Request.cdArg, if_pos ⟨hcd, hopen⟩, harg]
        have hat := h.resolve hres
        rw [hsome]
        exact ⟨⟨hnext.trans hat.path, hat.room⟩, fun hn => by cases hn⟩
      · rw [CdDone, if_neg hopen] at hdone
        have hnone : r.cdArg = none := by simp [Request.cdArg, hopen]
        rw [hnone]
        exact ⟨stay hdone, fun _ => hdone⟩
  · have hnone : r.cdArg = none := by simp [Request.cdArg, hcd]
    have hnext := (every_result (dispatchCommand_allowed ⟨u, h.path⟩) hdis).2 hcd
    rw [hnone]
    exact ⟨stay hnext, fun _ => hnext⟩

/-- One request more. -/
theorem snoc_at_stack {reqs : List Request} {v : World} {r : Request} {rc : Rc}
    (h : r.session.At (currentStack reqs)) (hkeep : ∀ r ∈ reqs, r.cdArg = none → r.next.currentPath = r.session.currentPath)
    (hserve : Serves env v r rc v') :
    r.next.At (currentStack (reqs ++ [r])) ∧
      ∀ r' ∈ reqs ++ [r], r'.cdArg = none → r'.next.currentPath = r'.session.currentPath := by
  obtain ⟨hat, hr⟩ := hserve.stack h
  refine ⟨?_, ?_⟩
  · cases harg : r.cdArg <;> simpa [currentStack, harg] using hat
  · simpa [or_imp, forall_and] using ⟨hkeep, hr⟩

/-- The session after the requests that were served stands where their `cd`s lead. -/
theorem Served.at_stack {reqs : List Request} {v : World} (h : Served env w reqs session v) :
    session.At (currentStack reqs) ∧ ∀ r ∈ reqs, r.cdArg = none → r.next.currentPath = r.session.currentPath := by
  induction h with
  | start => exact ⟨⟨rfl, by decide⟩, by simp⟩
  | @next reqs _ _ r rc _ hserve _ ih => exact snoc_at_stack ih.1 ih.2 hserve

theorem Amid.at_stack {reqs : List Request} {cur : Option Packet} (h : Amid env w reqs session cur c) :
    session.At (currentStack reqs) ∧ ∀ r ∈ reqs, r.cdArg = none → r.next.currentPath = r.session.currentPath := by
  cases h with
  | head h => exact h.at_stack
  | reading h => exact h.at_stack
  | serving h => exact h.at_stack
  | ended h => exact h.at_stack
  | failed h hserve => exact snoc_at_stack h.at_stack.1 h.at_stack.2 hserve

/-- **The current directory**: at every moment of every connection, `current_path` prints the root
walked down the arguments of the `cd`s that went through so far; any other request left it as it
was. It is short enough never to be cut when it is copied, and to be listed. -/
theorem handleRequest_currentPath (h : Steps (kernel env) (handleRequest .start, w) c) :
    ∃ reqs session cur, Amid env w reqs session cur c ∧
      session.currentPath = ((reqs.filterMap Request.cdArg).foldl VPath.walk .root).render ∧
      (∀ r ∈ reqs, r.cdArg = none → r.next.currentPath = r.session.currentPath) ∧
      session.currentPath.length < pathMax - serverBaseDir.length ∧
      truncate pathMax session.currentPath = session.currentPath ∧
      buildRealPath session.currentPath pathMax ≠ none := by
  obtain ⟨reqs, session, cur, hamid⟩ := amid_of_steps h
  obtain ⟨hat, hkeep⟩ := hamid.at_stack
  refine ⟨reqs, session, cur, hamid, hat.path, hkeep, ?_, ?_, ?_⟩
  · rw [hat.path]
    exact hat.room
  · exact truncate_eq (by rw [hat.path]; have := hat.room; omega)
  · rw [hat.path]
    exact VPath.buildRealPath_ne_none hat.room

/-- A client that goes down to `a`, which is there. -/
theorem handleRequest_goesDown : ∃ c, Steps (kernel (.quiet fun _ => False))
    (handleRequest .start, ⟨fun path => if path = lit "../tests/a" then some .dir else none, .init⟩) c ∧
      c.1 = handleRequest ⟨lit "/a", false⟩ := by
  have hp : (textPacket .cd .ok (lit "a")).Valid := textPacket_valid (by decide)
  have hR : Backward (fed (.quiet fun _ => False) (textPacket .cd .ok (lit "a")).wire) fun c => _ :=
    backward_kernel fun c : Io Rc × World => c.1 = handleRequest ⟨lit "/a", false⟩
  refine hR.loop (run_request hR rfl hp (List.prefix_refl _) ?_)
  have harg : copyStringPayload (textPacket .cd .ok (lit "a")) pathMax false = some (lit "a") := by decide
  have hpath : resolveTargetPath rootPath (lit "a") pathMax pathMax = some (lit "/a", lit "../tests/a") := by decide
  have hcd : (textPacket .cd .ok (lit "a")).Is .cd := Packet.of_is.2 rfl
  rw [dispatchCommand, ofCode_of_is hcd]
  simp only [withArg, harg, handleCd, hpath, Session.start]
  refine run_call hR (c := .opendir (lit "../tests/a")) (r := some 0) ⟨[], by simp, rfl, rfl⟩ (List.prefix_refl _) ?_
  refine run_call hR (c := .closedir 0) (r := ()) rfl (List.prefix_refl _) ?_
  refine run_reply hR (by decide) (List.prefix_refl _) ⟨_, .refl, ?_⟩
  have htrunc : truncate pathMax (lit "/a") = lit "/a" := truncate_eq (by decide)
  rw [htrunc]
  rfl

/-- What is said of `current_path` there. -/
theorem handleRequest_currentPath_goesDown : ∃ c reqs session cur, c.1 = handleRequest ⟨lit "/a", false⟩ ∧
    Amid (.quiet fun _ => False) ⟨fun path => if path = lit "../tests/a" then some .dir else none, .init⟩
      reqs session cur c ∧
    session.currentPath = ((reqs.filterMap Request.cdArg).foldl VPath.walk .root).render := by
  obtain ⟨c, hrun, hc⟩ := handleRequest_goesDown
  obtain ⟨reqs, session, cur, hamid, hpath, -⟩ := handleRequest_currentPath hrun
  exact ⟨c, reqs, session, cur, hc, hamid, hpath⟩

end Server
end WindCloud
