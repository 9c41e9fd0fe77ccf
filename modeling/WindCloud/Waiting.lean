import WindCloud.Requests
import WindCloud.Termination
import WindCloud.ServerStream
import WindCloud.Upload
import WindCloud.Lib.Unfold
/-!
# Where the server waits for a request

`handle_request` is at its top, up to steps without a call (`AtTop`), or will make no call again (`Gone`). What
matters of an exchange is which streams the client ends it with: from these `Settles` says how far the server has
come, and that is back at the top, with both streams read to their ends, or gone (`handleRequest_settles`).
-/

namespace WindCloud

open Interaction Prog

/-- `recv_n` starts with a `recv`: an interruption brings it back to its start, and without bytes it fails. -/
theorem recvN_waits {α : Type} (wait : Wait) {len : Nat} (hlen : 0 < len) (f : Option Bytes → Io α) :
    ∃ k, Unfolds (recvN wait len >>= f) (.call (.recv wait len) k) ∧ k .intr = recvN wait len >>= f ∧
      k .fail = f none ∧ k (.done []) = f none := by
  refine ⟨?k, .loop ?start, ?again, ?fail, ?none⟩
  case start =>
    simp only [List.length_nil, if_pos hlen]
    exact .refl _
  case again => rfl
  case fail => rfl
  case none => rfl

namespace Server

/-- `handle_request` is at its top in `session`, up to steps without a call. -/
def AtTop (session : Session) (q : Io Rc) : Prop :=
  session.shouldClose = false ∧ (Unfolds q (handleRequest session) ∨ Unfolds (handleRequest session) q)

/-- `handle_request` has returned, or does so without another call. -/
def Gone (q : Io Rc) : Prop := ∃ rc, Unfolds q (.ret rc)

section Top

variable {env : Env} {session : Session} {p q : Io Rc} {v w : World}

/-- The first thing it does is to wait for a request. -/
theorem handleRequest_waits (hopen : session.shouldClose = false) :
    ∃ k, Unfolds (handleRequest session) (.call (.recv .request 20) k) ∧ Unfolds (handleRequest session) (k .intr) ∧
      Gone (k .fail) ∧ Gone (k (.done [])) := by
  obtain ⟨k, hk, hintr, hfail, hnone⟩ := recvN_waits .request (show 0 < 20 by decide) _
  refine ⟨k, .loop ?_, .loop ?_, ⟨.ok, ?_⟩, .ok, ?_⟩
  · rw [handleRequestRound_of_open hopen]
    exact hk
  · rw [handleRequestRound_of_open hopen, hintr]
    exact .refl _
  · rw [hfail]
    exact .refl _
  · rw [hnone]
    exact .refl _

theorem Gone.steps (h : Gone q) (hrun : Steps (kernel env) (q, v) (p, w)) : Gone p := by
  obtain ⟨rc, h⟩ := h
  rcases h.steps_cases hrun with ⟨h, -⟩ | h
  · exact ⟨rc, h⟩
  · obtain ⟨rfl, -⟩ := Prod.mk.inj (steps_ret h)
    exact ⟨rc, .refl _⟩

/-- With a call to make it is not gone. -/
theorem not_gone {e : Call} {k : Res e → Io Rc} (h : Unfolds q (.call e k)) : ¬ Gone q := by
  rintro ⟨rc, hret⟩
  have := (h.to_ret hret).of_call
  cases this

/-- Where it waits for a follow-up packet it is not at the top. -/
theorem not_atTop {n : Nat} {k : Res (.recv .follow n) → Io Rc} (h : Unfolds q (.call (.recv .follow n) k)) :
    ¬ AtTop session q := by
  rintro ⟨hopen, hq⟩
  obtain ⟨k₀, hcall, -⟩ := handleRequest_waits hopen
  rcases hq with hq | hq
  · cases h.call_unique (hq.trans hcall)
  · cases (hq.trans h).call_unique hcall

/-- The receive loop of an upload waits for one. -/
theorem uploadReceive_waits {α : Type} {fd : Nat} {totalSize writeOffset : UInt64} {map : Option Nat}
    (f : Rc × Session → Io α) :
    ∃ k, Unfolds (uploadReceive session fd totalSize map writeOffset >>= f) (.call (.recv .follow 20) k) := by
  obtain ⟨k, hk, -⟩ := recvN_waits .follow (show 0 < 20 by decide) _
  refine ⟨k, .loop ?_⟩
  simp only [recvFollowPacket, recvPacket, bind_assoc]
  exact hk

/-- Whatever it does without receiving anything, it does not leave the place where it waits, except for good. -/
theorem handleRequest_unmoved (hopen : session.shouldClose = false)
    (hrun : Steps (kernel env) (handleRequest session, v) (q, w)) (hr : w.proc.rcvd = v.proc.rcvd) :
    Unfolds (handleRequest session) q ∨ Gone q := by
  obtain ⟨k₀, hcall, hintr, hfail, hnone⟩ := handleRequest_waits hopen
  generalize hd : (q, w) = d at hrun
  induction hrun generalizing q w with
  | refl =>
    cases hd
    exact .inl (.refl _)
  | @tail b _ hprev hs ih =>
    subst hd
    obtain ⟨q₁, v₁⟩ := b
    have hmid : v₁.proc.rcvd = v.proc.rcvd := by
      have h₁ := (steps_grow hprev).1
      have h₂ := (steps_grow (.single hs)).1
      rw [hr] at h₂
      exact (h₁.eq_of_length_le h₂.length_le).symm
    rcases ih hmid rfl with hq₁ | hgone
    · cases hs with
      | loop => exact .inl (hq₁.trans (.loop (.refl _)))
      | @call _ e k _ _ x hk =>
        -- the call is the one it waits in
        have heq := (hq₁.to_call hcall).of_call
        cases heq
        obtain ⟨fs, -, u, he, rfl⟩ := hk
        rcases x with _ | _ | bs
        · exact .inl hintr
        · exact .inr hfail
        · rcases bs with _ | ⟨b, bs⟩
          · exact .inr hnone
          · obtain ⟨-, -, rfl⟩ := he
            have := congrArg List.length hr
            simp [hmid] at this
    · exact .inr (hgone.steps (.single hs))

/-! ## The request and its service -/

/-- `packet` is received in `v`, and nothing else; `v₁` is the state after it. -/
structure Received (env : Env) (v : World) (packet : Packet) (v₁ : World) : Prop where
  run : Steps (kernel env) (recvPacket .request, v) (.ret (.ok, packet), v₁)
  valid : packet.Valid
  since : v.proc.Since packet.wire [] v₁.proc

theorem received_of_recv {packet : Packet} {v₁ : World}
    (h : Steps (kernel env) (recvPacket .request, v) (.ret (.ok, packet), v₁)) : Received env v packet v₁ := by
  rcases recvPacket_result h with ⟨fs, -, -, hp, rfl⟩ | ⟨_, _, -, hrc, -⟩
  · exact ⟨h, hp, (Proc.Since.refl _).addRcvd⟩
  · cases hrc

/-- The server is serving `packet`, or has served it and gone on from the state `u`. -/
inductive Serving (env : Env) (session : Session) (packet : Packet) (v₁ : World) : Io Rc × World → Prop
  | during {p : Io (Rc × Session)} {w : World} (h : Steps (kernel env) (dispatchCommand session packet, v₁) (p, w)) :
      Serving env session packet v₁ (p >>= afterCommand >>= afterRound, w)
  | past {x : Rc × Session} {u w : World} {q : Io Rc}
      (h : Steps (kernel env) (dispatchCommand session packet, v₁) (.ret x, u))
      (hrest : Steps (kernel env) (afterCommand x >>= afterRound, u) (q, w)) : Serving env session packet v₁ (q, w)

/-- **Where the server stands** after a start at the top: it has sent nothing, or a request has come. -/
theorem handleRequest_stands (hopen : session.shouldClose = false)
    (hrun : Steps (kernel env) (handleRequest session, v) (q, w)) :
    (∃ r, v.proc.Since r [] w.proc) ∨ ∃ packet v₁, Received env v packet v₁ ∧ Serving env session packet v₁ (q, w) := by
  rcases Relation.ReflTransGen.cases_head hrun with heq | ⟨c, hs, hrun⟩
  · obtain ⟨-, rfl⟩ := Prod.mk.inj heq
    exact .inl ⟨[], .refl _⟩
  have hc : c = (handleRequestRound session >>= afterRound, v) := by
    cases hs
    rfl
  rw [hc, handleRequestRound_eq hopen, bind_assoc] at hrun
  rcases steps_bind_cases hrun with ⟨p, -, hrecv⟩ | ⟨⟨rc, packet⟩, v₁, hrecv, hrest⟩
  · exact .inl (recvPacket_sends hrecv)
  cases rc with
  | fail =>
    obtain ⟨r, hr⟩ := recvPacket_sends hrecv
    obtain ⟨-, rfl⟩ := Prod.mk.inj (steps_ret hrest)
    exact .inl ⟨r, hr⟩
  | ok =>
    refine .inr ⟨packet, v₁, received_of_recv hrecv, ?_⟩
    rw [afterPacket, bind_assoc] at hrest
    rcases steps_bind_cases hrest with ⟨p, rfl, hserve⟩ | ⟨x, u, hserve, hafter⟩
    · rw [← bind_assoc]
      exact .during hserve
    · exact .past hserve hafter

/-- A session that is closing ends without another call. -/
theorem handleRequest_closing (hclose : session.shouldClose = true) : Unfolds (handleRequest session) (.ret .ok) := by
  refine .loop ?_
  rw [handleRequestRound, if_pos hclose]
  exact .refl _

/-- A command that failed, or closes the session, is the last. -/
theorem gone_of_after {x : Rc × Session} {u : World} (hx : ¬ (x.1 = .ok ∧ x.2.shouldClose = false))
    (h : Around (kernel env) (afterCommand x >>= afterRound, u) (q, w)) : Gone q := by
  rw [afterCommand_eq] at h
  split at h
  · exact ⟨_, h.of_ret.1⟩
  · rename_i hgo
    have hclose : x.2.shouldClose = true := by
      rcases hrc : x.1 <;> rcases hc : x.2.shouldClose <;> simp_all
    exact ⟨_, (h.unfolds (handleRequest_closing hclose)).of_ret.1⟩

/-- One that succeeded and leaves it open is not. -/
theorem afterCommand_ok {x : Rc × Session} (hrc : x.1 = .ok) : afterCommand x >>= afterRound = handleRequest x.2 := by
  rw [afterCommand_eq, if_neg (by simp [hrc])]
  rfl

/-! ## A command whose last reply is out -/

/-- A run gets along with as many interruptions as there are in it. -/
theorem steps_limited {α : Type} {avail : Bytes} {p r : Io α} {w w' : World} (h : Steps (kernel env) (p, w) (r, w'))
    (hin : w'.proc.rcvd <+: avail) : ∃ n, Steps (limited env.failing avail) (p, w, n) (r, w', 0) := by
  generalize hc : (p, w) = c at h
  induction h using Relation.ReflTransGen.head_induction_on generalizing p w with
  | refl =>
    cases hc
    exact ⟨0, .refl⟩
  | @head b c' hs hrest ih =>
    subst hc
    obtain ⟨p₁, w₁⟩ := c'
    obtain ⟨n, hn⟩ := ih rfl
    cases hs with
    | loop => exact ⟨n, .head .loop hn⟩
    | @call _ e k _ _ x hk =>
      have hfed : fed env.failing avail w e x w₁ := fed_failing ⟨hk, (steps_grow hrest).1.trans hin⟩
      by_cases hx : Stalled e x
      · exact ⟨n + 1, .head (.call (v := (w₁, n)) ⟨hfed, fun _ => rfl, fun h => absurd hx h⟩) hn⟩
      · exact ⟨n, .head (.call (v := (w₁, n)) ⟨hfed, fun h => absurd h hx, fun _ => rfl⟩) hn⟩

/-- When the last packet of the exchange is out, the handler returns without another call. -/
theorem dispatchCommand_ended {M W : Bytes → Bytes → Prop} {packet : Packet} {v₁ : World} {p : Io (Rc × Session)}
    {r s : Bytes} (hwp : wp (kernel env) (Follows env v₁.proc M) (dispatchCommand session packet)
      (Finishes v₁.proc session W) v₁) (hrun : Steps (kernel env) (dispatchCommand session packet, v₁) (p, w))
    (hs : v₁.proc.Since r s w.proc) (hend : Ended s) : ∃ x, Unfolds p (.ret x) := by
  have hfail : ∀ c, env.failing.faults c := fun _ => trivial
  obtain ⟨n, hn⟩ := steps_limited hrun (List.prefix_refl _)
  have hconcludes : Concludes env.failing w.proc.rcvd (dispatchCommand session packet) := dispatchCommand_concludes hfail
  have hends := twp_steps (hconcludes (v₁, n) (steps_grow hrun).1) hn
  obtain ⟨q, hq, ⟨x, rfl⟩ | ⟨e, k, rfl⟩⟩ := Unfolds.exists_of_twp hends
  · exact ⟨x, hq⟩
  · obtain ⟨r', s', hs', hgoing⟩ := (wp_check hwp (hrun.trans (hq.steps w))).going
    obtain rfl : s = s' := List.append_cancel_left (hs.sent.symm.trans hs'.sent)
    exact absurd hend hgoing

theorem around_grows (h : Around (kernel env) (p, v) (q, w)) :
    v.proc.rcvd <+: w.proc.rcvd ∧ v.proc.sent <+: w.proc.sent := by
  rcases h with ⟨-, hw⟩ | h
  · obtain rfl : w = v := hw
    exact ⟨List.prefix_refl _, List.prefix_refl _⟩
  · exact steps_grow h

/-- A server that is at the top and receives nothing sends nothing. -/
theorem around_sends {r s : Bytes} (hopen : session.shouldClose = false)
    (h : Around (kernel env) (handleRequest session, v) (q, w)) (hs : v.proc.Since r s w.proc) (hr : r = []) : s = [] := by
  rcases h with ⟨-, hw⟩ | h
  · obtain rfl : w = v := hw
    simpa using hs.sent
  rcases handleRequest_stands hopen h with ⟨r', hs'⟩ | ⟨packet, v₁, hrecv, hserve⟩
  · exact List.append_cancel_left (hs.sent.symm.trans hs'.sent)
  · -- it has received the request
    have hgrow : v₁.proc.rcvd <+: w.proc.rcvd := by
      cases hserve with
      | during h => exact (steps_grow h).1
      | past h hrest => exact (steps_grow h).1.trans (steps_grow hrest).1
    rw [hs.rcvd, hr, List.append_nil, hrecv.since.rcvd] at hgrow
    have := hgrow.length_le
    simp [Packet.wire_length] at this

/-- What the streams of an exchange say: the client has written `sc` and read `rc`, the server has read `rs` and written
`ss`, and the request is `P`. While `P` is served `M` holds of the server's streams, and `W` when it has been. -/
structure Settles (M W : Bytes → Bytes → Prop) (P : Packet) (rc sc rs ss : Bytes) : Prop where
  answered : rc ≠ []
  first : ∀ packet : Packet, packet.Valid → packet.wire <+: sc → packet = P
  during : ∀ r, M r ss → rs = P.wire ++ r → Ended ss
  past : ∀ r s r' s', W r s → rs = P.wire ++ r ++ r' → ss = s ++ s' → (r' = [] → s' = []) → sc = P.wire ++ r ∧ rc = s

/-- **An exchange that the client has come to the end of** leaves the server at the top, or gone. -/
theorem handleRequest_settles {M W : Bytes → Bytes → Prop} {P : Packet} {rc sc rs ss : Bytes}
    (hopen : session.shouldClose = false) (haround : Around (kernel env) (handleRequest session, v) (q, w))
    (hsince : v.proc.Since rs ss w.proc) (hrs : rs <+: sc) (hrc : rc <+: ss) (hset : Settles M W P rc sc rs ss)
    (hM : M [] []) (hwp : ∀ v₁, wp (kernel env) (Follows env v₁.proc M) (dispatchCommand session P)
      (Finishes v₁.proc session W) v₁) :
    Gone q ∨ ∃ v₁ x u, Received env v P v₁ ∧ Steps (kernel env) (dispatchCommand session P, v₁) (.ret x, u) ∧
      x.1 = .ok ∧ x.2.shouldClose = false ∧ (session.currentPath.length < pathMax → x.2.currentPath.length < pathMax) ∧
      v.proc.Since sc rc u.proc ∧ Around (kernel env) (handleRequest x.2, u) (q, w) := by
  -- the server has sent something, so it has received the request
  have hss : ss ≠ [] := by
    rintro rfl
    exact hset.answered (List.prefix_nil.1 hrc)
  have hserving : ∃ packet v₁, Received env v packet v₁ ∧ Serving env session packet v₁ (q, w) := by
    rcases haround with ⟨-, hw⟩ | h
    · obtain rfl : w = v := hw
      exact absurd (by simpa using hsince.sent) hss
    rcases handleRequest_stands hopen h with ⟨r, hs⟩ | h
    · exact absurd (List.append_cancel_left (hsince.sent.symm.trans hs.sent)) hss
    · exact h
  obtain ⟨packet, v₁, hrecv, hserve⟩ := hserving
  have hstreams {u : World} (h : v₁.proc.rcvd <+: u.proc.rcvd ∧ v₁.proc.sent <+: u.proc.sent) :
      ∃ r s, v₁.proc.Since r s u.proc ∧ v.proc.Since (packet.wire ++ r) s u.proc := by
    obtain ⟨⟨r, hr⟩, s, hs⟩ := h
    refine ⟨r, s, ⟨hr.symm, hs.symm⟩, ?_, ?_⟩
    · rw [← hr, hrecv.since.rcvd, List.append_assoc]
    · rw [← hs, hrecv.since.sent, List.append_nil]
  have hgrow : v₁.proc.rcvd <+: w.proc.rcvd ∧ v₁.proc.sent <+: w.proc.sent := by
    cases hserve with
    | during h => exact steps_grow h
    | past h hrest => exact ⟨(steps_grow h).1.trans (steps_grow hrest).1, (steps_grow h).2.trans (steps_grow hrest).2⟩
  obtain ⟨r, s, hs₁, hs⟩ := hstreams hgrow
  obtain rfl : rs = packet.wire ++ r := List.append_cancel_left (hsince.rcvd.symm.trans hs.rcvd)
  obtain rfl : ss = s := List.append_cancel_left (hsince.sent.symm.trans hs.sent)
  obtain rfl := hset.first packet hrecv.valid ((List.prefix_append _ _).trans hrs)
  -- its service has come to an end
  obtain ⟨x, u, hrun, hafter⟩ : ∃ x u, Steps (kernel env) (dispatchCommand session packet, v₁) (.ret x, u) ∧
      Around (kernel env) (afterCommand x >>= afterRound, u) (q, w) := by
    cases hserve with
    | @during p _ h =>
      obtain ⟨r', s', hs', hm⟩ := Follows.steps (hwp v₁) ⟨[], [], .refl _, hM⟩ h
      obtain rfl : r = r' := List.append_cancel_left (hs₁.rcvd.symm.trans hs'.rcvd)
      obtain rfl : ss = s' := List.append_cancel_left (hs₁.sent.symm.trans hs'.sent)
      obtain ⟨x, hx⟩ := dispatchCommand_ended (hwp v₁) h hs₁ (hset.during r hm rfl)
      exact ⟨x, w, h.trans (hx.steps w), .inl ⟨(hx.bind afterCommand).bind afterRound, rfl⟩⟩
    | @past x u _ _ h hrest => exact ⟨x, u, h, .inr hrest⟩
  by_cases hx : x.1 = .ok ∧ x.2.shouldClose = false
  · have hfin := wp_result (hwp v₁) hrun
    obtain ⟨r₁, s₁, hs₂, hw⟩ := hfin.served hx.1 hx.2
    rw [afterCommand_ok hx.1] at hafter
    -- what it has received and sent since
    obtain ⟨⟨r', hr'⟩, s', hs'⟩ := around_grows hafter
    have hidle := around_sends hx.2 hafter ⟨hr'.symm, hs'.symm⟩
    have hrs' : packet.wire ++ r = packet.wire ++ r₁ ++ r' := by
      rw [hs₂.rcvd, hs₁.rcvd] at hr'
      rw [List.append_assoc, ← List.append_cancel_left (hr'.symm.trans (List.append_assoc ..))]
    have hss' : ss = s₁ ++ s' := by
      rw [hs₂.sent, hs₁.sent] at hs'
      exact List.append_cancel_left (hs'.symm.trans (List.append_assoc ..))
    obtain ⟨rfl, rfl⟩ := hset.past r₁ s₁ r' s' hw hrs' hss' hidle
    refine .inr ⟨v₁, x, u, hrecv, hrun, hx.1, hx.2, hfin.short, ⟨?_, ?_⟩, hafter⟩
    · rw [hs₂.rcvd, hrecv.since.rcvd, List.append_assoc]
    · rw [hs₂.sent, hrecv.since.sent, List.append_nil]
  · exact .inl (gone_of_after hx hafter)

end Top
end Server
end WindCloud
