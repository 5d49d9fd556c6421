import Uvx.Client.CloseOnce

/-!
# Shutting the client down

`uvx_client_shutdown` stops the timer and closes the connection, if `uvserver` is set. This ends the
client unless its handle has been initialised and nothing will close it: while a request to connect is
outstanding, which then succeeds as if nothing had happened, and after `uv_tcp_connect` has failed at
once; or unless the connection is being closed already with `uvserver` still set, and is then closed
again (`shutdown_ends_iff`).
-/

namespace Uvx.Client

open Net

variable {m m' : Mode} {s s₁ s' : State} {e : Event} {es : List Event} {uv : AddrParser}
  {ip : List UInt8} {port ret : ℤ}

/-- The client in `s'` has ended since `s`: nothing has been started and no handle closed that was not
open, the handles of the earlier attempts have been closed, and that of the current one is closed or being
closed, if not by a handler that is still running, and nothing is active. -/
structure Ended (s s' : State) : Prop where
  attempts : ∃ new, s'.attempts = s.attempts.modifyHead (· ++ new) ∧
    ∀ x ∈ new, ¬ x.Starts ∧ x.ClosesOpen
  earlier : ∀ att ∈ s'.attempts.tail, closeEntry ∈ att
  current : s'.phase = .closing ∨ s'.phase = .closed ∨
    .onConnFail ∈ s'.stack ∨ .onConnClosing ∈ s'.stack
  timer : s'.timer = false
  connecting : s'.connecting = false
  reading : s'.reading = true → s'.stack ≠ []

/-- Between handlers only the close callback is still to come. -/
theorem Ended.eq_closed (h : Ended s s') (hstack : s'.stack = []) (hen : Enabled s' e)
    (he : ∀ call, e ≠ .user call) : e = .closed := by
  cases e with
  | closed => rfl
  | connect status => exact absurd (h.connecting.symm.trans hen.2.1) (by decide)
  | read nread => exact absurd hstack (h.reading hen.2)
  | heartbeat ret => exact absurd (h.timer.symm.trans hen.2) (by decide)
  | user call => exact absurd rfl (he call)
  | returned => exact absurd hstack hen

/-! ## The earlier attempts -/

/-- The handles of the earlier attempts have been closed, and that of the current one if it seems
so. -/
structure Reported (m : Mode) (attempts : List (List Entry)) : Prop where
  nonempty : attempts ≠ []
  earlier : ∀ att ∈ attempts.tail, closeEntry ∈ att
  current : m.phase = .closed → ∀ att ∈ attempts.head?, closeEntry ∈ att

theorem Next.reported (h : Next s m e m' s') (hrep : Reported m s.attempts) :
    Reported m' s'.attempts := by
  obtain ⟨cur, past, hl⟩ := List.exists_cons_of_ne_nil hrep.nonempty
  obtain ⟨-, hearlier, hcurrent⟩ := hrep
  rw [hl] at hearlier hcurrent
  rcases h.adds with ⟨new, hadds⟩ | ⟨rfl, hopen, -, addr, ret, hattempts⟩
  · rw [hadds.attempts_eq, hl, List.modifyHead_cons]
    refine ⟨List.cons_ne_nil _ _, hearlier, fun hm att hatt => ?_⟩
    obtain rfl := Option.some_inj.mp hatt
    rcases hadds.closed hm with hm | hnew
    · exact List.mem_append_left _ (hcurrent hm cur rfl)
    · exact List.mem_append_right _ hnew
  · rw [hattempts, hl]
    refine ⟨List.cons_ne_nil _ _, fun att hatt => ?_, fun hm => absurd hm hopen⟩
    rcases List.mem_cons.mp hatt with rfl | hatt
    · exact hcurrent rfl _ rfl
    · exact hearlier att hatt

/-- The client after any run. -/
theorem exec_reported (hrun : Exec Step (uvxClientConnect uv ip port ret).1 es s) :
    ∃ m, Rep m s ∧ Reported m s.attempts := by
  apply hrun.invariant (I := fun s => ∃ m, Rep m s ∧ Reported m s.attempts)
  · refine ⟨_, Rep.start uv ip port ret, ?_⟩
    rw [attempts_uvxClientConnect]
    refine ⟨List.cons_ne_nil _ _, fun _ hatt => absurd hatt List.not_mem_nil, ?_⟩
    intro hm
    split at hm <;> exact absurd hm (by simp [Mode.phase])
  · rintro s e s' ⟨m, h, hrep⟩ hstep
    obtain ⟨m', hnext, h'⟩ := h.next hstep
    exact ⟨m', h', hnext.reported hrep⟩

/-! ## After the shutdown -/

theorem timer_uvxClientDisconnect (s : State) : (uvxClientDisconnect s).timer = s.timer := by
  unfold uvxClientDisconnect
  split
  · rfl
  · rfl

theorem timer_resume (cb : Callback) (s : State) : (resume cb s).timer = s.timer := by
  cases cb with
  | onConnOk =>
    show (uvReadStart s).timer = _
    unfold uvReadStart
    split
    · rfl
    · rfl
  | onConnClosing =>
    show (uvClose s).timer = _
    simp only [uvClose]
    split
    · rfl
    · rfl
  | onConnFail | onRecv | onConnClose | onHeartbeat => rfl

/-- Nothing starts the timer again. -/
theorem timer_of_step (hstep : Step s e s') (h : s.timer = false) : s'.timer = false := by
  obtain ⟨hen, hs⟩ := hstep
  cases e with
  | connect status =>
    rw [handle] at hs
    obtain rfl := Option.some_inj.mp hs
    unfold uvOnConnect
    split
    · exact h
    · exact h
  | read nread =>
    rw [handle, uvxOnClientRead] at hs
    split at hs
    · split at hs
      · obtain rfl := Option.some_inj.mp hs
        exact h
      · cases hs
    · split at hs
      · obtain rfl := Option.some_inj.mp hs
        exact h
      · obtain rfl := Option.some_inj.mp hs
        exact h
  | closed =>
    obtain rfl := Option.some_inj.mp hs
    exact h
  | heartbeat ret => exact absurd (h.symm.trans hen.2) (by decide)
  | user call =>
    cases call with
    | send status =>
      obtain rfl := Option.some_inj.mp hs
      unfold uvxClientSend
      split
      · exact h
      · exact h
    | disconnect =>
      obtain rfl := Option.some_inj.mp hs
      rw [timer_uvxClientDisconnect]
      exact h
    | shutdown => exact absurd (h.symm.trans hen) (by decide)
  | returned =>
    rw [handle] at hs
    split at hs
    · obtain rfl := Option.some_inj.mp hs
      exact h
    · obtain rfl := Option.some_inj.mp hs
      rw [timer_resume]
      exact h

/-- The handle is closed, or it will be. -/
def Mode.Ends (m : Mode) (stack : List Callback) : Prop :=
  match m with
  | connecting | lost => False
  | opened => .onConnClosing ∈ stack
  | failing | closing _ | ending _ | closed => True

theorem Next.ends (h : Next s m e m' s') (hen : Enabled s e) (htimer : s.timer = false)
    (hends : m.Ends s.stack) : m'.Ends s'.stack := by
  cases h with
  | quiet | sent => exact hends
  | announced =>
    cases m with
    | opened => exact List.mem_cons_self
    | _ => exact hends
  | accepted | refused => exact absurd hends id
  | received hn hs =>
    rw [hs] at hends
    exact absurd hends List.not_mem_nil
  | beat | reconnected => exact absurd (htimer.symm.trans hen.2) (by decide)
  | closed | failed | ended => trivial
  | returned reading hs hcb =>
    rw [hs] at hends
    cases m with
    | opened =>
      refine (List.mem_cons.mp hends).resolve_left ?_
      rcases hcb with rfl | rfl | ⟨i, rfl⟩ <;> simp
    | _ => exact hends
  | disconnected =>
    cases m with
    | connecting | lost => exact absurd hends id
    | _ => trivial

/-- What holds in `s'` after the client was shut down in `s`. -/
structure ShutDown (s s' : State) : Prop where
  mode : ∃ m, Rep m s' ∧ Reported m s'.attempts ∧ m.Ends s'.stack ∧ m.Single s'.stack
  timer : s'.timer = false
  attempts : ∃ new, s'.attempts = s.attempts.modifyHead (· ++ new) ∧
    ∀ x ∈ new, ¬ x.Starts ∧ x.ClosesOpen

theorem ShutDown.step (h : ShutDown s s₁) (hstep : Step s₁ e s') (hclose : ClosesOnce s₁ e) :
    ShutDown s s' := by
  obtain ⟨m, hr, hrep, hends, hsingle⟩ := h.mode
  obtain ⟨m', hnext, hr'⟩ := hr.next hstep
  refine ⟨⟨m', hr', hnext.reported hrep, hnext.ends hstep.1 h.timer hends,
    hnext.single hr hsingle hstep.1 hclose⟩, timer_of_step hstep h.timer, ?_⟩
  obtain ⟨new, hattempts, hnew⟩ := h.attempts
  rcases hnext.adds with ⟨new', hadds⟩ | ⟨-, -, ⟨r, rfl⟩, -⟩
  · refine ⟨new ++ new', ?_, ?_⟩
    · rw [hadds.attempts_eq, hattempts, modifyHead_append]
    · intro x hx
      rcases List.mem_append.mp hx with hx | hx
      · exact hnew x hx
      · refine ⟨hadds.starts ?_ x hx, hadds.closesOpen hr hsingle hx⟩
        rintro rfl
        exact hends
  · exact absurd (h.timer.symm.trans hstep.1.2) (by decide)

theorem ShutDown.ended (h : ShutDown s s') : Ended s s' := by
  obtain ⟨m, hr, hrep, hends, -⟩ := h.mode
  refine ⟨h.attempts, hrep.earlier, ?_, h.timer, ?_, ?_⟩
  · cases m with
    | connecting | lost => exact absurd hends id
    | failing =>
      rcases hr.stack with hs | hs
      · exact Or.inr (Or.inr (Or.inl (by rw [hs]; exact List.mem_cons_self)))
      · exact Or.inr (Or.inr (Or.inr (by rw [hs]; exact List.mem_cons_self)))
    | opened => exact Or.inr (Or.inr (Or.inr hends))
    | closing up => exact Or.inl hr.phase_eq
    | ending up | closed => exact Or.inr (Or.inl hr.phase_eq)
  · rw [hr.connecting_eq, decide_eq_false_iff_not]
    rintro rfl
    exact hends
  · intro hread hstack
    obtain rfl := hr.reading hread
    rw [hstack] at hends
    exact absurd hends List.not_mem_nil

/-- The handle is not left as `uv_tcp_init` has made it, and the connection is not being closed. -/
def Closable (s : State) : Prop := (s.phase = .initialised → s.stack ≠ []) ∧ Intact s

theorem ShutDown.start (hr : Rep m s) (hrep : Reported m s.attempts) (hclosable : Closable s)
    (hstep : Step s (.user .shutdown) s₁) : ShutDown s s₁ := by
  obtain ⟨-, hs⟩ := hstep
  obtain rfl := Option.some_inj.mp hs
  obtain ⟨hinit, hintact⟩ := hclosable
  have htimer : (uvxClientShutdown s).timer = false := timer_uvxClientDisconnect _
  have huv := hr.uvserver_eq
  cases hm : m.uvserver with
  | true =>
    -- the end of the connection is announced, for the first time
    obtain ⟨rfl, hnot⟩ := hr.eq_opened hm hintact
    have hcall : uvxClientShutdown s = { s with timer := false }.call .onConnClosing :=
      if_pos (huv.trans hm)
    rw [hcall]
    refine ⟨⟨.opened, hr.announce hm false hr.reading, ?_, List.mem_cons_self, ?_⟩, rfl, _, rfl, ?_⟩
    · exact (Next.announced false s.reading hm (Or.inr (Or.inl rfl))).reported hrep
    · show (Callback.onConnClosing :: s.stack).count .onConnClosing ≤ 1
      exact Nat.le_of_eq (by rw [List.count_cons_self, List.count_eq_zero.mpr hnot])
    · intro x hx
      obtain rfl := List.mem_singleton.mp hx
      exact ⟨by simp [Entry.Starts], fun hc => by cases hc⟩
  | false =>
    -- only the timer is stopped
    have hquiet : uvxClientShutdown s = { s with timer := false } :=
      if_neg (by rw [huv, hm]; exact Bool.false_ne_true)
    rw [hquiet]
    refine ⟨⟨m, hr.congr rfl rfl rfl rfl hr.reading hr.stack, hrep, ?_, hr.single hm⟩, rfl, [],
      (modifyHead_append_nil _).symm, fun _ hx => absurd hx List.not_mem_nil⟩
    cases m with
    | opened => cases hm
    | connecting | lost => exact absurd hr.stack (hinit hr.phase_eq)
    | failing | closing | ending | closed => trivial

/-- Where the connection is being closed, announcing its end once more leads to a client that has not
ended. -/
theorem Rep.not_ended (hr : Rep m s') (hnot : ¬ Intact s') (timer : Bool) {new : List Entry}
    (hne : s.attempts ≠ []) (hnew : s'.attempts = s.attempts.modifyHead (· ++ new)) :
    ∃ es s'', Exec (Guarded Step ClosesOnce) ({ s' with timer := timer }.call .onConnClosing) es s'' ∧
      ¬ Ended s s'' := by
  obtain ⟨es, s'', new', hrun, hs'', x, hx, hopen⟩ := hr.closed_again hnot timer
  refine ⟨es, s'', hrun, fun hended => ?_⟩
  obtain ⟨all, hall, hclose⟩ := hended.attempts
  obtain ⟨cur, past, hl⟩ := List.exists_cons_of_ne_nil hne
  rw [hs'', hnew, modifyHead_append, hl, List.modifyHead_cons, List.modifyHead_cons] at hall
  have heq := List.append_cancel_left (List.cons_eq_cons.mp hall).1
  exact hopen (hclose x (heq ▸ List.mem_append_right _ hx)).2

/-- **A client that is shut down ends** exactly when its handle is not left initialised and its connection
is not being closed already: when it is connected, or is closing or closed with `uvserver` not set, or the
client is about to close it after `on_conn_fail`. It has then ended in every run that follows in which
user code does not close the connection once more; and where user code does, it comes to a client that has
not ended. -/
theorem shutdown_ends_iff (hrun : Exec Step (uvxClientConnect uv ip port ret).1 es s)
    (hstep : Step s (.user .shutdown) s₁) :
    ((∀ es' s', Exec (Guarded Step ClosesOnce) s₁ es' s' → Ended s s') ↔ Closable s) ∧
      (Closable s → ∀ es' s', Exec (Guarded Step ClosesOnce) s₁ es' s' → ¬ Intact s' →
        ∃ es'' s'', Exec Step s' (.user .disconnect :: es'') s'' ∧ ¬ Ended s s'') := by
  obtain ⟨m, hr, hrep⟩ := exec_reported hrun
  have hafter : Closable s → ∀ es' s', Exec (Guarded Step ClosesOnce) s₁ es' s' → ShutDown s s' := by
    intro hclosable es' s' hrun'
    exact hrun'.invariant (ShutDown.start hr hrep hclosable hstep)
      fun s e s' h hstep => h.step hstep.1 hstep.2
  refine ⟨⟨fun hall => ⟨?_, ?_⟩, fun hclosable es' s' hrun' => (hafter hclosable es' s' hrun').ended⟩, ?_⟩
  · -- right after the call nothing has changed but the timer
    intro hphase hstack
    have hcurrent := (hall [] s₁ .nil).current
    have huv : s.uvserver = false := by
      rw [hr.uvserver_eq]
      have hm := hr.phase_eq.symm.trans hphase
      cases m with
      | connecting | lost | failing => rfl
      | _ => exact absurd hm (by simp [Mode.phase])
    obtain ⟨-, hs⟩ := hstep
    obtain rfl := Option.some_inj.mp hs
    rw [uvxClientShutdown, uvxClientDisconnect, if_neg (by simp [huv])] at hcurrent
    simp [hphase, hstack] at hcurrent
  · -- the connection is closed again when the callbacks have returned
    refine Decidable.byContradiction fun hnot => ?_
    have huv : s.uvserver = true := (Classical.not_imp.mp hnot).1
    obtain ⟨-, hs⟩ := hstep
    obtain rfl := Option.some_inj.mp hs
    have hcall : uvxClientShutdown s = { s with timer := false }.call .onConnClosing := if_pos huv
    obtain ⟨es', s', hrun', hended⟩ :=
      hr.not_ended hnot false hrep.nonempty (modifyHead_append_nil _).symm
    exact hended (hall es' s' (hcall ▸ hrun'))
  · intro hclosable es' s' hrun' hnot
    obtain ⟨⟨m', hr', -, -, -⟩, -, new, hnew, -⟩ := hafter hclosable es' s' hrun'
    have huv : s'.uvserver = true := (Classical.not_imp.mp hnot).1
    obtain ⟨es'', s'', hrun'', hended⟩ := hr'.not_ended hnot s'.timer hrep.nonempty hnew
    exact ⟨es'', s'', .cons ⟨trivial, congrArg some (if_pos huv)⟩ hrun''.unguarded, hended⟩

/-- While the connection is established, it is closed. -/
theorem shutdown_ends_iff_connected :
    ∃ s s₁ s' : State, s.phase = .connected ∧ Step s (.user .shutdown) s₁ ∧
      Exec (Guarded Step ClosesOnce) s₁ [.returned, .closed, .returned] s' ∧ Ended s s' ∧
        s'.stack = [] ∧ s'.phase = .closed := by
  have hrun : ∃ s, runEvents (fun _ _ => True) [.connect 0, .returned]
      (uvxClientConnect plainParser [] 80 0).1 = some s ∧ s.phase = .connected ∧ Intact s ∧
        Enabled s (.user .shutdown) ∧ ∃ s', runEvents ClosesOnce [.returned, .closed, .returned]
          (uvxClientShutdown s) = some s' ∧ s'.stack = [] ∧ s'.phase = .closed := by
    decide +kernel
  obtain ⟨s, hs, hphase, hintact, hen, s', hs', hstack, hclosed⟩ := hrun
  have hstep : Step s (.user .shutdown) (uvxClientShutdown s) := ⟨hen, rfl⟩
  have hrun' := exec_of_runEvents hs'
  refine ⟨s, _, s', hphase, hstep, hrun', ?_, hstack, hclosed⟩
  obtain ⟨hends, -⟩ := shutdown_ends_iff (exec_of_runEvents hs).unguarded hstep
  refine hends.mpr ⟨fun hc => ?_, hintact⟩ _ s' hrun'
  exact absurd (hphase.symm.trans hc) (by decide)

/-- While the request to connect is outstanding, it is not called off: the connection is established
and read from, with nothing left to close it. -/
theorem not_ended_connecting :
    ∃ s', Exec Step (uvxClientConnect plainParser [] 80 0).1 [.user .shutdown, .connect 0, .returned]
        s' ∧ s'.stack = [] ∧ s'.phase = .connected ∧ s'.reading = true ∧ s'.timer = false ∧
      ¬ Ended (uvxClientConnect plainParser [] 80 0).1 s' := by
  have hrun : ∃ s', runEvents (fun _ _ => True) [.user .shutdown, .connect 0, .returned]
      (uvxClientConnect plainParser [] 80 0).1 = some s' ∧ s'.stack = [] ∧ s'.phase = .connected ∧
        s'.reading = true ∧ s'.timer = false := by decide +kernel
  obtain ⟨s', hs', hstack, hphase, hreading, htimer⟩ := hrun
  refine ⟨s', (exec_of_runEvents hs').unguarded, hstack, hphase, hreading, htimer, ?_⟩
  intro hend
  exact hend.reading hreading hstack

end Uvx.Client
