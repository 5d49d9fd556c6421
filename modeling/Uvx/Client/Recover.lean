import Uvx.Client.Reconnect
import Uvx.Client.Shutdown

/-!
# The way back to a connection

From wherever a client has got that is not stuck, a few more events connect it again, and they come by
themselves if user code makes no calls and the server can be reached (`recovers`): each of them brings
the client nearer to a connection, and until it has one there is always one more (`Toward`). The heartbeat
timer is taken to repeat, as it does from an interval of one millisecond on.
-/

namespace Uvx.Client

open Net

variable {m : Mode} {s s' : State} {e : Event} {es es' : List Event} {uv : AddrParser}
  {ip : List UInt8} {port ret : ℤ}

/-- Without a connection, an event on the way to one: what is outstanding completes, a connect request
with success, callbacks return, and a heartbeat starts the next attempt. -/
def Toward (s : State) (e : Event) : Prop :=
  s.phase ≠ .connected ∧
    match e with
    | .connect status => status = 0
    | .heartbeat ret => s.connectionClosed = true ∧ 0 ≤ ret
    | .read _ | .user _ => False
    | .closed | .returned => True

instance (s : State) (e : Event) : Decidable (Toward s e) :=
  match e with
  | .connect status => inferInstanceAs (Decidable (s.phase ≠ .connected ∧ status = 0))
  | .heartbeat ret =>
    inferInstanceAs (Decidable (s.phase ≠ .connected ∧ s.connectionClosed = true ∧ 0 ≤ ret))
  | .read _ | .user _ => inferInstanceAs (Decidable (s.phase ≠ .connected ∧ False))
  | .closed | .returned => inferInstanceAs (Decidable (s.phase ≠ .connected ∧ True))

/-- How far it is to a connection, from a client that is not stuck. -/
def distance (s : State) : ℕ :=
  match s.phase with
  | .connected => 0
  | .initialised => if s.connecting then 1 else if s.stack = [.onConnFail] then 6 else 5
  | .closing => s.stack.length + 4
  | .closed => s.stack.length + 2

theorem distance_le (s : State) : distance s ≤ s.stack.length + 6 := by
  rw [distance]
  split
  · exact Nat.zero_le _
  · split
    · omega
    · split <;> omega
  · omega
  · omega

/-! ## Each step brings the client nearer -/

theorem Rep.distance_returned (h : Rep m s) (hconn : s.phase ≠ .connected)
    (hstep : Step s .returned s') : distance s' < distance s := by
  obtain ⟨hne, hs⟩ := hstep
  obtain ⟨cb, stack, hstack⟩ := List.exists_cons_of_ne_nil hne
  rw [handle, hstack] at hs
  obtain rfl := Option.some_inj.mp hs
  have hm := h.stack
  rw [hstack] at hm
  -- while the handle is closing or closed, the stack gets shorter
  have hdown : cb ≠ .onConnFail → s.phase = .closing ∨ s.phase = .closed →
      distance (resume cb { s with stack := stack }) < distance s := by
    intro hcb hphase
    obtain ⟨hphase', hstack'⟩ := phase_resume (s := { s with stack := stack }) hcb hphase
    rw [distance, distance, hphase', hstack', hstack]
    rcases hphase with hphase | hphase <;> simp [hphase]
  have hphase := h.phase_eq
  cases m with
  | connecting | lost | closed => exact absurd hm (List.cons_ne_nil _ _)
  | opened => exact absurd hphase hconn
  | failing =>
    have hreq : s.connecting = false := h.connecting_eq
    rcases hm with hm | hm
    · obtain ⟨rfl, rfl⟩ := List.cons_eq_cons.mp hm
      simp [distance, resume, uvxClientClose, State.call, State.record, hphase, Mode.phase, hreq,
        hstack]
    · obtain ⟨rfl, rfl⟩ := List.cons_eq_cons.mp hm
      simp [distance, resume, uvClose, State.record, hphase, Mode.phase, hreq, hstack]
  | closing up =>
    refine hdown ?_ (Or.inl hphase)
    cases up with
    | true => exact (hm cb List.mem_cons_self).1
    | false => exact absurd hm (List.cons_ne_nil _ _)
  | ending up =>
    refine hdown ?_ (Or.inr hphase)
    rintro rfl
    cases up with
    | true =>
      obtain ⟨k, hk⟩ := hm
      cases k <;> cases hk
    | false => cases hm

theorem Rep.distance_lt (h : Rep m s) (hstep : Step s e s') (ht : Toward s e) :
    distance s' < distance s := by
  obtain ⟨hconn, ht⟩ := ht
  cases e with
  | connect status =>
    obtain ⟨⟨-, hreq, hinit⟩, hs⟩ := hstep
    obtain rfl : status = 0 := ht
    obtain rfl := Option.some_inj.mp hs
    simp [distance, uvOnConnect, State.call, State.record, hinit rfl, hreq]
  | read nread => exact ht.elim
  | closed =>
    obtain ⟨⟨hstack, hphase, -⟩, hs⟩ := hstep
    obtain rfl := Option.some_inj.mp hs
    simp [distance, uvxAfterCloseClient, State.call, State.record, hphase, hstack]
  | heartbeat ret =>
    obtain ⟨⟨hstack, -⟩, hs⟩ := hstep
    obtain ⟨hclosed, hpos⟩ := ht
    have hmode := hclosed
    rw [h.connectionClosed_eq] at hmode
    obtain rfl := of_decide_eq_true hmode
    have huv : s.uvserver = false := h.uvserver_eq
    have hphase : s.phase = .closed := h.phase_eq
    rw [handle, uvxOnHeartbeatTimer, huv, if_neg Bool.false_ne_true, if_pos hclosed] at hs
    obtain rfl := Option.some_inj.mp hs
    have hnew := h.reconnect ret
    rw [if_pos hpos] at hnew
    rw [distance, distance, hnew.phase_eq, hnew.connecting_eq, hphase, hstack]
    exact Nat.lt_succ_self 1
  | user call => exact ht.elim
  | returned => exact h.distance_returned hconn hstep

/-! ## There is always a step -/

theorem Rep.exists_toward (h : Rep m s) (hm : m ≠ .lost) (htimer : s.timer = true)
    (hconn : s.phase ≠ .connected) : ∃ e s', Guarded Step Toward s e s' := by
  by_cases hstack : s.stack = []
  · have hm' := h.stack
    rw [hstack] at hm'
    have hreq := h.connecting_eq
    have hphase := h.phase_eq
    cases m with
    | lost => exact absurd rfl hm
    | opened => exact absurd hphase hconn
    | failing => exact absurd hm' (by simp [Mode.Stack])
    | ending up => cases up <;> exact absurd hm' (by simp [Mode.Stack])
    | connecting =>
      exact ⟨.connect 0, _, ⟨⟨hstack, hreq, fun _ => hphase⟩, rfl⟩, hconn, rfl⟩
    | closing up => exact ⟨.closed, _, ⟨⟨hstack, hphase, hreq⟩, rfl⟩, hconn, trivial⟩
    | closed =>
      exact ⟨.heartbeat 0, _, ⟨⟨hstack, htimer⟩, rfl⟩, hconn, h.connectionClosed_eq, Int.le_refl 0⟩
  · obtain ⟨cb, stack, hs⟩ := List.exists_cons_of_ne_nil hstack
    have hrun : handle .returned s = some (resume cb { s with stack := stack }) := by
      rw [handle, hs]
    exact ⟨.returned, _, ⟨hstack, hrun⟩, hconn, trivial⟩

/-- On the way nobody stops the timer. -/
theorem timer_of_toward (hstep : Step s e s') (ht : Toward s e) : s'.timer = s.timer := by
  obtain ⟨-, hs⟩ := hstep
  obtain ⟨-, ht⟩ := ht
  cases e with
  | connect status =>
    obtain rfl : status = 0 := ht
    obtain rfl := Option.some_inj.mp hs
    rfl
  | read nread => exact ht.elim
  | closed =>
    obtain rfl := Option.some_inj.mp hs
    rfl
  | heartbeat ret =>
    rw [handle, uvxOnHeartbeatTimer, if_pos ht.1] at hs
    obtain rfl := Option.some_inj.mp hs
    split
    · rfl
    · unfold uvxClientReconnect uvTcpConnect
      split <;> rfl
  | user call => exact ht.elim
  | returned =>
    rw [handle] at hs
    split at hs
    · obtain rfl := Option.some_inj.mp hs
      rfl
    · obtain rfl := Option.some_inj.mp hs
      exact timer_resume ..

theorem reconnectStarts_of_toward (ht : Toward s e) : ReconnectStarts s e := by
  cases e with
  | heartbeat ret => exact fun _ _ => ht.2.2
  | connect | read | closed | user | returned => trivial

theorem closesOnce_of_toward (ht : Toward s e) : ClosesOnce s e := by
  cases e with
  | user call => exact ht.2.elim
  | connect | read | closed | heartbeat | returned => trivial

/-- **The client recovers.** From a client that is not stuck and has not been shut down, whose connections
have been closed once each, the events that lead towards a connection are at most six more than there are
callbacks running; as long as it has no connection, one of them may happen; and none of them closes a
handle that is not open. -/
theorem recovers (hret : (uvxClientConnect uv ip port ret).2 = 1)
    (hrun : Exec (Guarded Step fun s e => ReconnectStarts s e ∧ ClosesOnce s e)
      (uvxClientConnect uv ip port ret).1 es s)
    (htimer : s.timer = true) (hway : Exec (Guarded Step Toward) s es' s') :
    es'.length ≤ s.stack.length + 6 ∧
      ((s'.uvserver = true ∧ s'.phase = .connected) ∨ ∃ e s'', Guarded Step Toward s' e s'') ∧
      ∀ att ∈ s'.attempts, ∀ x ∈ att, x.ClosesOpen := by
  obtain ⟨m, h, hm⟩ := exec_ne_lost hret (hrun.mono fun _ _ _ hstep => ⟨hstep.1, hstep.2.1⟩)
  obtain ⟨n, hle, ⟨m', h', hm'⟩, htimer', -⟩ := hway.length_le_of_potential
    (I := fun n s => (∃ m, Rep m s ∧ m ≠ .lost) ∧ s.timer = true ∧ distance s = n)
    ⟨⟨m, h, hm⟩, htimer, rfl⟩ <| by
      rintro n s e s' ⟨⟨m, h, hm⟩, htimer, rfl⟩ ⟨hstep, ht⟩
      obtain ⟨m', hnext, h'⟩ := h.next hstep
      exact ⟨_, h.distance_lt hstep ht,
        ⟨m', h', hnext.ne_lost h hm (reconnectStarts_of_toward ht)⟩,
        (timer_of_toward hstep ht).trans htimer, rfl⟩
  refine ⟨Nat.le_trans (Nat.le_of_add_right_le hle) (distance_le s), ?_, ?_⟩
  · by_cases hconn : s'.phase = .connected
    · refine Or.inl ⟨?_, hconn⟩
      -- only an open connection is connected
      have hphase := h'.phase_eq.symm.trans hconn
      cases m' with
      | opened => exact h'.uvserver_eq
      | _ => exact absurd hphase (by simp [Mode.phase])
    · exact Or.inr (h'.exists_toward hm' htimer' hconn)
  · -- the way continues the run
    have hclosed : ClosedOnce s := exec_closedOnce (hrun.mono fun _ _ _ hstep => ⟨hstep.1, hstep.2.2⟩)
    have hclosed' : ClosedOnce s' := hway.invariant hclosed fun _ _ _ hc hstep =>
      hc.step ⟨hstep.1, closesOnce_of_toward hstep.2⟩
    obtain ⟨-, -, -, hopen⟩ := hclosed'
    exact hopen

/-- The client disconnects in the middle of `on_recv`, and gets back in five more events. -/
theorem recovers_disconnected :
    ∃ s s', Exec (Guarded Step Toward) s
        [.returned, .closed, .returned, .heartbeat 0, .connect 0] s' ∧
      (s'.uvserver = true ∧ s'.phase = .connected ∨ ∃ e s'', Guarded Step Toward s' e s'') ∧
      ∀ att ∈ s'.attempts, ∀ x ∈ att, x.ClosesOpen := by
  let es : List Event := [.connect 0, .returned, .read 5, .user .disconnect, .returned]
  let es' : List Event := [.returned, .closed, .returned, .heartbeat 0, .connect 0]
  have hrun : ∃ s, runEvents (fun s e => ReconnectStarts s e ∧ ClosesOnce s e) es
      (uvxClientConnect plainParser [] 80 0).1 = some s ∧
      s.timer = true ∧ (runEvents Toward es' s).isSome := by decide +kernel
  obtain ⟨s, hs, htimer, hway⟩ := hrun
  obtain ⟨s', hs'⟩ := Option.isSome_iff_exists.mp hway
  have hexec := exec_of_runEvents hs'
  exact ⟨s, s', hexec, (recovers rfl (exec_of_runEvents hs) htimer hexec).2⟩

end Uvx.Client
