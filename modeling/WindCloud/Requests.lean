import WindCloud.Server
/-!
# The requests of a connection

A run of `handle_request` is a run through requests: each is read by `recv_packet` at the top of
the loop and served by `dispatch_command`. `Served` lists the requests a worker is done with and
`Amid` says where in the loop a run stands; every run of a worker stands somewhere
(`amid_of_steps`).
-/

namespace WindCloud

open Interaction Prog

/-- A request that has been served: the session and the packet it was dispatched with, the calls
on files that were made for it, and the session after it. -/
structure Request where
  session : Session
  packet : Packet
  events : List Event
  next : Session

namespace Server

/-- What follows a received packet. -/
def afterPacket (session : Session) : Rc × Packet → Io (Session ⊕ Rc)
  | (.fail, _) => .ret (.inr .ok)
  | (.ok, packet) => dispatchCommand session packet >>= afterCommand

/-- What follows a round. -/
def afterRound : Session ⊕ Rc → Io Rc := unroll handleRequestRound .ret

/-- A packet is read in `v` and served: the request `r`, with the `int` the handler returns. -/
structure Serves (env : Env) (v : World) (r : Request) (rc : Rc) (v' : World) : Prop where
  isOpen : r.session.shouldClose = false
  run : ∃ v₁, Steps (kernel env) (recvPacket .request, v) (.ret (.ok, r.packet), v₁) ∧
    Steps (kernel env) (dispatchCommand r.session r.packet, v₁) (.ret (rc, r.next), v') ∧
    v'.proc.trace = v₁.proc.trace ++ r.events

/-- The loop is left in `v'` without another request: the session is closing, or no packet came. -/
def Departs (env : Env) (session : Session) (v v' : World) : Prop :=
  session.shouldClose = true ∧ v' = v ∨
    session.shouldClose = false ∧ ∃ packet, Steps (kernel env) (recvPacket .request, v) (.ret (.fail, packet), v')

/-- A worker that began in `w` has served `reqs` and goes on with `session`. -/
inductive Served (env : Env) (w : World) : List Request → Session → World → Prop
  | start : Served env w [] .start w
  | next {reqs : List Request} {v v' : World} {r : Request} {rc : Rc} (h : Served env w reqs r.session v)
      (hserve : Serves env v r rc v') (hgo : rc = .ok ∨ r.next.shouldClose = true) :
      Served env w (reqs ++ [r]) r.next v'

/-- Where a run stands: the requests it is done with, its session, and the packet it is serving. -/
inductive Amid (env : Env) (w : World) : List Request → Session → Option Packet → Io Rc × World → Prop
  | head {reqs : List Request} {session : Session} {v : World} (h : Served env w reqs session v) :
      Amid env w reqs session none (handleRequest session, v)
  | reading {reqs : List Request} {session : Session} {v v' : World} {p : Io (Rc × Packet)}
      (h : Served env w reqs session v) (hopen : session.shouldClose = false)
      (hrun : Steps (kernel env) (recvPacket .request, v) (p, v')) (hp : ∀ x, p ≠ .ret x) :
      Amid env w reqs session none (p >>= afterPacket session >>= afterRound, v')
  | serving {reqs : List Request} {session : Session} {packet : Packet} {v v₁ v' : World} {p : Io (Rc × Session)}
      (h : Served env w reqs session v) (hopen : session.shouldClose = false)
      (hrecv : Steps (kernel env) (recvPacket .request, v) (.ret (.ok, packet), v₁))
      (hrun : Steps (kernel env) (dispatchCommand session packet, v₁) (p, v')) (hp : ∀ x, p ≠ .ret x) :
      Amid env w reqs session (some packet) (p >>= afterCommand >>= afterRound, v')
  | ended {reqs : List Request} {session : Session} {v v' : World} (h : Served env w reqs session v)
      (hend : Departs env session v v') : Amid env w reqs session none (.ret .ok, v')
  /-- The handler failed, and does not close the session. -/
  | failed {reqs : List Request} {v v' : World} {r : Request} (h : Served env w reqs r.session v)
      (hserve : Serves env v r .fail v') (hnext : r.next.shouldClose = false) :
      Amid env w (reqs ++ [r]) r.next none (.ret .ok, v')

section Runs

variable {env : Env} {w v v' : World} {reqs : List Request} {session session' : Session} {c : Io Rc × World}

theorem handleRequestRound_eq (h : session.shouldClose = false) :
    handleRequestRound session = recvPacket .request >>= afterPacket session := by
  rw [handleRequestRound_of_open h]
  rfl

theorem afterCommand_eq (r : Rc × Session) :
    afterCommand r = .ret (if r.1 ≠ .ok ∧ ¬ r.2.shouldClose then .inr .ok else .inl r.2) := by
  unfold afterCommand
  split <;> rfl

/-- A round that comes to its end has served a request, or had none to serve. -/
theorem served_round {x : Session ⊕ Rc} (h : Steps (kernel env) (handleRequestRound session, v) (.ret x, v')) :
    Departs env session v v' ∧ x = .inr .ok ∨ ∃ r rc, r.session = session ∧ Serves env v r rc v' ∧
      ((rc = .ok ∨ r.next.shouldClose = true) ∧ x = .inl r.next ∨
        rc = .fail ∧ r.next.shouldClose = false ∧ x = .inr .ok) := by
  by_cases hopen : session.shouldClose = false
  · rw [handleRequestRound_eq hopen] at h
    obtain ⟨⟨rc, packet⟩, v₁, hrecv, h⟩ := steps_bind_ret h
    cases rc with
    | fail =>
      cases steps_ret h
      exact .inl ⟨.inr ⟨hopen, packet, hrecv⟩, rfl⟩
    | ok =>
      obtain ⟨⟨rc, next⟩, v₂, hdis, h⟩ := steps_bind_ret h
      obtain ⟨events, hev⟩ := trace_grows hdis
      rw [afterCommand_eq] at h
      obtain ⟨hx, rfl⟩ := Prod.mk.inj (steps_ret h)
      refine .inr ⟨⟨session, packet, events, next⟩, rc, rfl, ⟨hopen, v₁, hrecv, hdis, hev⟩, ?_⟩
      cases rc <;> cases hnext : next.shouldClose <;> simp_all
  · have hclose : session.shouldClose = true := by simpa using hopen
    rw [handleRequestRound, if_pos hclose] at h
    cases steps_ret h
    exact .inl ⟨.inl ⟨hclose, rfl⟩, rfl⟩

theorem served_of_rounds (h : Rounds (kernel env) handleRequestRound (.start, w) (session, v)) :
    ∃ reqs, Served env w reqs session v := by
  generalize hc : (session, v) = c at h
  induction h generalizing session v with
  | refl =>
    cases hc
    exact ⟨[], .start⟩
  | @tail b _ _ hs ih =>
    subst hc
    obtain ⟨reqs, hreqs⟩ := ih rfl
    obtain ⟨s, u⟩ := b
    rcases served_round hs with ⟨-, hx⟩ | ⟨r, rc, rfl, hserve, ⟨hgo, hx⟩ | ⟨-, -, hx⟩⟩
    · cases hx
    · obtain rfl := Sum.inl.inj hx
      exact ⟨reqs ++ [r], .next hreqs hserve hgo⟩
    · cases hx

/-- While a request is served, and when it just has been. -/
theorem amid_of_dispatch {packet : Packet} {v₁ : World} {p : Io (Rc × Session)} (h : Served env w reqs session v)
    (hopen : session.shouldClose = false)
    (hrecv : Steps (kernel env) (recvPacket .request, v) (.ret (.ok, packet), v₁))
    (hrun : Steps (kernel env) (dispatchCommand session packet, v₁) (p, v')) :
    ∃ reqs session cur, Amid env w reqs session cur (p >>= afterCommand >>= afterRound, v') := by
  by_cases hp : ∃ x, p = .ret x
  · obtain ⟨⟨rc, next⟩, rfl⟩ := hp
    obtain ⟨events, hev⟩ := trace_grows hrun
    have hserve : Serves env v ⟨session, packet, events, next⟩ rc v' := ⟨hopen, v₁, hrecv, hrun, hev⟩
    rw [ret_bind, afterCommand_eq]
    split
    · rename_i hstop
      have hrc : rc = .fail := by
        cases rc with
        | ok => exact absurd rfl hstop.1
        | fail => rfl
      subst hrc
      exact ⟨_, next, none, .failed h hserve (by simpa using hstop.2)⟩
    · rename_i hgo
      refine ⟨_, next, none, .head (.next h hserve ?_)⟩
      cases rc with
      | ok => exact .inl rfl
      | fail => exact .inr (by simpa using hgo)
  · rw [not_exists] at hp
    exact ⟨reqs, session, some packet, .serving h hopen hrecv hrun hp⟩

/-- **Every run of a worker stands somewhere** in its loop. -/
theorem amid_of_steps (h : Steps (kernel env) (handleRequest .start, w) c) :
    ∃ reqs session cur, Amid env w reqs session cur c := by
  obtain ⟨q, v'⟩ := c
  obtain ⟨session, v, hr, hcase⟩ := steps_loop_cases h
  obtain ⟨reqs, hs⟩ := served_of_rounds hr
  rcases hcase with ⟨rfl, rfl⟩ | ⟨p, hp, rfl⟩ | ⟨x, u, hx, hret⟩
  · exact ⟨reqs, session, none, .head hs⟩
  · by_cases hopen : session.shouldClose = false
    · rw [handleRequestRound_eq hopen] at hp
      rcases steps_bind_cases hp with ⟨p', rfl, hp'⟩ | ⟨⟨rc, packet⟩, v₁, hrecv, hp⟩
      · by_cases hret : ∃ x, p' = .ret x
        · obtain ⟨⟨rc, packet⟩, rfl⟩ := hret
          cases rc with
          | fail => exact ⟨reqs, session, none, .ended hs (.inr ⟨hopen, packet, hp'⟩)⟩
          | ok => exact amid_of_dispatch hs hopen hp' .refl
        · rw [not_exists] at hret
          exact ⟨reqs, session, none, .reading hs hopen hp' hret⟩
      · cases rc with
        | fail =>
          cases steps_ret hp
          exact ⟨reqs, session, none, .ended hs (.inr ⟨hopen, packet, hrecv⟩)⟩
        | ok =>
          rcases steps_bind_cases hp with ⟨p', rfl, hp'⟩ | ⟨⟨rc, next⟩, v₂, hdis, hp⟩
          · exact amid_of_dispatch hs hopen hrecv hp'
          · rw [afterCommand_eq] at hp
            obtain ⟨rfl, rfl⟩ := Prod.mk.inj (steps_ret hp)
            rw [← afterCommand_eq (rc, next)]
            exact amid_of_dispatch hs hopen hrecv hdis
    · have hclose : session.shouldClose = true := by simpa using hopen
      rw [handleRequestRound, if_pos hclose] at hp
      cases steps_ret hp
      exact ⟨reqs, session, none, .ended hs (.inl ⟨hclose, rfl⟩)⟩
  · cases steps_ret hret
    rcases served_round hx with ⟨hend, hx⟩ | ⟨r, rc, rfl, hserve, ⟨-, hx⟩ | ⟨rfl, hnext, hx⟩⟩
    · obtain rfl := Sum.inr.inj hx
      exact ⟨reqs, session, none, .ended hs hend⟩
    · cases hx
    · obtain rfl := Sum.inr.inj hx
      exact ⟨reqs ++ [r], r.next, none, .failed hs hserve hnext⟩

end Runs
end Server
end WindCloud
