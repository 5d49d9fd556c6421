import Uvx.Client.Mode

/-!
# Reconnecting

A client that is neither connected nor on the way to it reconnects at a heartbeat, as long as its last
connection has been reported closed (`CanReconnect`). This fails after a heartbeat whose
`uv_tcp_connect` fails at once, and only then (`never_stuck`): no callback follows, and
`connection_closed` has been reset (`stuck`).
-/

namespace Uvx.Client

open Net

variable {m m' : Mode} {s s' : State} {e : Event} {es : List Event} {uv : AddrParser}
  {ip : List UInt8} {port ret : ℤ}

/-- A connect or close callback is to come, or the next heartbeat is delivered or reconnects. -/
def CanReconnect (s : State) : Prop :=
  s.connecting = true ∨ s.uvserver = true ∨ s.phase = .closing ∨ s.connectionClosed = true

/-- In a callback after which the client closes its handle, or notes that it has been closed. -/
def Ending (s : State) : Prop :=
  s.stack = [.onConnFail] ∨ s.stack = [.onConnClosing] ∨ s.stack = [.onConnClose]

/-- A heartbeat that reconnects has its `uv_tcp_connect` accepted. -/
def ReconnectStarts (s : State) : Event → Prop
  | .heartbeat ret => s.uvserver = false → s.connectionClosed = true → 0 ≤ ret
  | _ => True

instance (s : State) (e : Event) : Decidable (ReconnectStarts s e) :=
  match e with
  | .heartbeat _ => inferInstanceAs (Decidable (_ → _ → _))
  | .connect _ | .read _ | .closed | .user _ | .returned => .isTrue trivial

theorem Rep.canReconnect (h : Rep m s) (hm : m ≠ .lost) : CanReconnect s ∨ Ending s := by
  unfold CanReconnect Ending
  rw [h.connecting_eq, h.uvserver_eq, h.phase_eq, h.connectionClosed_eq]
  have hstack := h.stack
  cases m with
  | connecting => exact Or.inl (Or.inl rfl)
  | lost => exact absurd rfl hm
  | failing => exact Or.inr (hstack.imp_right Or.inl)
  | opened => exact Or.inl (Or.inr (Or.inl rfl))
  | closing up => exact Or.inl (Or.inr (Or.inr (Or.inl rfl)))
  | ending up =>
    cases up with
    | true => exact Or.inl (Or.inr (Or.inl rfl))
    | false => exact Or.inr (Or.inr (Or.inr hstack))
  | closed => exact Or.inl (Or.inr (Or.inr (Or.inr rfl)))

theorem Rep.not_canReconnect (h : Rep .lost s) : ¬ CanReconnect s := by
  unfold CanReconnect
  rw [h.connecting_eq, h.uvserver_eq, h.phase_eq, h.connectionClosed_eq]
  decide

theorem Mode.afterClose_ne_lost (hm : m ≠ .lost) : m.afterClose ≠ .lost := by
  cases m with
  | lost => exact absurd rfl hm
  | _ => simp [Mode.afterClose]

/-- A client gets lost in no other way. -/
theorem Next.ne_lost (h : Next s m e m' s') (hr : Rep m s) (hm : m ≠ .lost)
    (hstarts : ReconnectStarts s e) : m' ≠ .lost := by
  cases h with
  | reconnected ret =>
    rw [if_pos (hstarts hr.uvserver_eq hr.connectionClosed_eq)]
    simp
  | disconnected => exact Mode.afterClose_ne_lost hm
  | quiet | sent | announced | received | beat | returned => exact hm
  | accepted | refused | closed | failed | ended => simp

theorem uvxClientConnect_snd (uv : AddrParser) (ip : List UInt8) (port ret : ℤ) :
    (uvxClientConnect uv ip port ret).2 = if 0 ≤ ret then 1 else 0 := rfl

/-- What a heartbeat does for a client that was not stuck. -/
theorem Rep.canReconnect_heartbeat (h : Rep m s) (hm : m ≠ .lost) (hstep : Step s (.heartbeat ret) s') :
    CanReconnect s' ↔ ReconnectStarts s (.heartbeat ret) := by
  obtain ⟨⟨hstack, -⟩, hs⟩ := hstep
  obtain rfl := Option.some_inj.mp hs
  unfold uvxOnHeartbeatTimer
  split
  · next huv =>
    refine iff_of_true (Or.inr (Or.inl huv)) ?_
    intro hno
    rw [huv] at hno
    exact absurd hno (by decide)
  · next huv =>
    split
    · next hclosed =>
      have hmode := hclosed
      rw [h.connectionClosed_eq] at hmode
      obtain rfl := of_decide_eq_true hmode
      have hnew := h.reconnect ret
      rcases Int.lt_or_le ret 0 with hneg | hpos
      · -- `connection_closed` has been reset, and no callback will set it again
        rw [if_neg (Int.not_le.mpr hneg)] at hnew
        refine iff_of_false hnew.not_canReconnect ?_
        intro hstarts
        exact absurd (hstarts h.uvserver_eq hclosed) (Int.not_le.mpr hneg)
      · rw [if_pos hpos] at hnew
        exact iff_of_true (Or.inl hnew.connecting_eq) fun _ _ => hpos
    · next hclosed =>
      -- the heartbeat does nothing, and between handlers nothing is ending
      refine iff_of_true ?_ fun _ hc => absurd hc hclosed
      refine (h.canReconnect hm).resolve_right ?_
      intro hend
      rw [Ending, hstack] at hend
      simp at hend

/-- The client after a run in which every reconnect started. -/
theorem exec_ne_lost (hret : (uvxClientConnect uv ip port ret).2 = 1)
    (hrun : Exec (Guarded Step ReconnectStarts) (uvxClientConnect uv ip port ret).1 es s) :
    ∃ m, Rep m s ∧ m ≠ .lost := by
  apply hrun.invariant (I := fun s => ∃ m, Rep m s ∧ m ≠ .lost)
  · have hpos : 0 ≤ ret := by
      rcases Int.lt_or_le ret 0 with hneg | hpos
      · rw [uvxClientConnect_snd, if_neg (Int.not_le.mpr hneg)] at hret
        exact absurd hret (by decide)
      · exact hpos
    refine ⟨_, Rep.start uv ip port ret, ?_⟩
    rw [if_pos hpos]
    simp
  · rintro s e s' ⟨m, h, hm⟩ ⟨hstep, hstarts⟩
    obtain ⟨m', hnext, h'⟩ := h.next hstep
    exact ⟨m', h', hnext.ne_lost h hm hstarts⟩

/-- **A client is not stuck** while every reconnect starts, and it is stuck as soon as one does not.
In the middle of a handler the same holds once the handler has ended. -/
theorem never_stuck (hret : (uvxClientConnect uv ip port ret).2 = 1)
    (hrun : Exec (Guarded Step ReconnectStarts) (uvxClientConnect uv ip port ret).1 es s) :
    (CanReconnect s ∨ Ending s) ∧
      ∀ r s', Step s (.heartbeat r) s' → (CanReconnect s' ↔ ReconnectStarts s (.heartbeat r)) := by
  obtain ⟨m, h, hm⟩ := exec_ne_lost hret hrun
  exact ⟨h.canReconnect hm, fun r s' hstep => h.canReconnect_heartbeat hm hstep⟩

/-- The client reconnects after its connection has been closed by the server. -/
theorem never_stuck_reconnected :
    ∃ s : State, s.attempts.length = 2 ∧ s.connecting = true ∧ (CanReconnect s ∨ Ending s) := by
  let es : List Event := [.connect 0, .returned, .read 5, .returned, .read (-4095), .returned,
    .closed, .returned, .heartbeat 0]
  have hrun : ∃ s, runEvents ReconnectStarts es (uvxClientConnect plainParser [] 80 0).1 = some s ∧
      s.attempts.length = 2 ∧ s.connecting = true := by decide +kernel
  obtain ⟨s, hs, hlen, hconn⟩ := hrun
  exact ⟨s, hlen, hconn, (never_stuck rfl (exec_of_runEvents hs)).1⟩

/-- The first connect request fails, and at the next heartbeat `uv_tcp_connect` fails at once: nothing
more will happen. -/
theorem stuck :
    (uvxClientConnect plainParser [] 80 0).2 = 1 ∧
      ∃ es s, Event.user .shutdown ∉ es ∧ Exec Step (uvxClientConnect plainParser [] 80 0).1 es s ∧
        s.stack = [] ∧ ¬ CanReconnect s := by
  let es : List Event := [.connect (-111), .returned, .returned, .closed, .returned,
    .heartbeat (-101)]
  have hrun : ∃ s, runEvents (fun _ _ => True) es (uvxClientConnect plainParser [] 80 0).1 = some s ∧
      s.stack = [] ∧ s.connecting = false ∧ s.uvserver = false ∧ s.phase = .initialised ∧
      s.connectionClosed = false := by decide +kernel
  obtain ⟨s, hs, hstack, hconn, huv, hphase, hclosed⟩ := hrun
  refine ⟨rfl, es, s, by decide, (exec_of_runEvents hs).unguarded, hstack, ?_⟩
  rw [CanReconnect, hconn, huv, hphase, hclosed]
  decide

end Uvx.Client
