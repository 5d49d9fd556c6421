import Uvx.Client.Mode

/-!
# Closing a connection once

`uv_close` of a handle that is closing or closed is an error in libuv: where the model notes it and goes
on, a real run ends. It does not come to that if user code closes a connection only as long as nobody else
has (`ClosesOnce`): every `uv_close` then finds its handle open (`exec_closedOnce`). A connection that is
closed all the same is closed again by the time that the callbacks have returned (`Rep.closed_again`).
-/

namespace Uvx.Client

open Net

variable {m m' : Mode} {s s' : State} {e : Event} {es : List Event} {uv : AddrParser}
  {ip : List UInt8} {port ret : ℤ}

/-- If `uvserver` is set, the connection is there, and its end has not been announced. -/
def Intact (s : State) : Prop :=
  s.uvserver = true → s.phase = .connected ∧ .onConnClosing ∉ s.stack

instance (s : State) : Decidable (Intact s) :=
  inferInstanceAs (Decidable (s.uvserver = true → s.phase = .connected ∧ .onConnClosing ∉ s.stack))

/-- User code does not close a connection that is being closed. -/
def ClosesOnce (s : State) : Event → Prop
  | .user .disconnect | .user .shutdown => Intact s
  | _ => True

instance (s : State) (e : Event) : Decidable (ClosesOnce s e) :=
  match e with
  | .user .disconnect | .user .shutdown => inferInstanceAs (Decidable (Intact s))
  | .connect _ | .read _ | .closed | .heartbeat _ | .user (.send _) | .returned => .isTrue trivial

/-- If this is a `uv_close`, the handle is open. -/
def Entry.ClosesOpen (x : Entry) : Prop :=
  x.action = .uvClose → x.phase = .initialised ∨ x.phase = .connected

/-! ## What a step adds to the attempts -/

/-- A connection is established, or one is asked for. -/
def Entry.Starts (x : Entry) : Prop :=
  x.action = .callback .onConnOk ∨ ∃ addr ret, x.action = .tcpConnect addr ret

/-- `on_conn_close` is called. -/
def closeEntry : Entry := ⟨.callback .onConnClose, .closed⟩

theorem modifyHead_append_nil (l : List (List Entry)) : l.modifyHead (· ++ []) = l := by
  cases l with
  | nil => rfl
  | cons cur past => rw [List.modifyHead_cons, List.append_nil]

theorem modifyHead_append (l : List (List Entry)) (new new' : List Entry) :
    (l.modifyHead (· ++ new)).modifyHead (· ++ new') = l.modifyHead (· ++ (new ++ new')) := by
  cases l with
  | nil => rfl
  | cons cur past => rw [List.modifyHead_cons, List.modifyHead_cons, List.modifyHead_cons,
      List.append_assoc]

/-- Entries are added to the current attempt. -/
structure Adds (m m' : Mode) (s : State) (attempts : List (List Entry)) (new : List Entry) : Prop where
  attempts_eq : attempts = s.attempts.modifyHead (· ++ new)
  starts : m ≠ .connecting → ∀ x ∈ new, ¬ x.Starts
  closed : m'.phase = .closed → m.phase = .closed ∨ closeEntry ∈ new
  closes : ∀ x ∈ new, x.action = .uvClose → x.phase = s.phase ∧ s.stack.head? = some .onConnClosing

theorem Adds.none (hm : m'.phase = .closed → m.phase = .closed) : Adds m m' s s.attempts [] :=
  ⟨(modifyHead_append_nil _).symm, fun _ _ hx => absurd hx List.not_mem_nil, fun h => Or.inl (hm h),
    fun _ hx => absurd hx List.not_mem_nil⟩

theorem Adds.one {x : Entry} (hx : m ≠ .connecting → ¬ x.Starts)
    (hm : m'.phase = .closed → m.phase = .closed ∨ x = closeEntry)
    (hclose : x.action = .uvClose → x.phase = s.phase ∧ s.stack.head? = some .onConnClosing) :
    Adds m m' s (s.attempts.modifyHead (· ++ [x])) [x] := by
  refine ⟨rfl, ?_, fun h => (hm h).imp_right fun hx => List.mem_singleton.mpr hx.symm, ?_⟩
  · intro hne y hy
    obtain rfl := List.mem_singleton.mp hy
    exact hx hne
  · intro y hy
    obtain rfl := List.mem_singleton.mp hy
    exact hclose

/-- A callback is called. -/
theorem Adds.callback {cb : Callback} {ph : Phase} (hcb : m ≠ .connecting → cb ≠ .onConnOk)
    (hm : m'.phase = .closed → m.phase = .closed ∨ ⟨.callback cb, ph⟩ = closeEntry) :
    Adds m m' s (s.attempts.modifyHead (· ++ [⟨.callback cb, ph⟩])) [⟨.callback cb, ph⟩] := by
  refine .one (fun hne => ?_) hm fun hc => by cases hc
  rintro (hc | ⟨addr, ret, hc⟩)
  · exact hcb hne (Action.callback.inj hc)
  · cases hc

/-- The current attempt goes on, or a heartbeat starts another one. -/
theorem Next.adds (h : Next s m e m' s') :
    (∃ new, Adds m m' s s'.attempts new) ∨
      (m = .closed ∧ m'.phase ≠ .closed ∧ (∃ r, e = .heartbeat r) ∧
        ∃ addr ret, s'.attempts = [⟨.tcpConnect addr ret, .initialised⟩] :: s.attempts) := by
  cases h with
  | quiet => exact Or.inl ⟨_, .none id⟩
  | sent =>
    exact Or.inl ⟨_, .one (fun _ => by simp [Entry.Starts]) Or.inl fun hc => by cases hc⟩
  | announced => exact Or.inl ⟨_, .callback (fun _ => by simp) Or.inl⟩
  | accepted => exact Or.inl ⟨_, .callback (fun h => absurd rfl h) (by simp [Mode.phase])⟩
  | refused => exact Or.inl ⟨_, .callback (fun h => absurd rfl h) (by simp [Mode.phase])⟩
  | received => exact Or.inl ⟨_, .callback (fun _ => by simp) Or.inl⟩
  | beat => exact Or.inl ⟨_, .callback (fun _ => by simp) Or.inl⟩
  | reconnected ret =>
    refine Or.inr ⟨rfl, ?_, ⟨ret, rfl⟩, _, _, attempts_uvxClientReconnect ret s⟩
    split
    · simp [Mode.phase]
    · simp [Mode.phase]
  | closed => exact Or.inl ⟨_, .callback (fun _ => by simp) fun _ => Or.inr rfl⟩
  | returned => exact Or.inl ⟨_, .none id⟩
  | failed => exact Or.inl ⟨_, .callback (fun _ => by simp) Or.inl⟩
  | disconnected hs =>
    rw [attempts_uvClose]
    refine Or.inl ⟨_, .one (fun _ => by simp [Entry.Starts]) (fun hm => Or.inl ?_)
      fun _ => ⟨rfl, by rw [hs]; rfl⟩⟩
    cases m with
    | failing | opened => exact absurd hm (by simp [Mode.afterClose, Mode.phase])
    | _ => exact hm
  | ended => exact Or.inl ⟨_, .none fun _ => rfl⟩

/-! ## One announcement -/

/-- The `uv_close` that is announced on the stack is the only one of the attempt. -/
def Mode.Single (m : Mode) (stack : List Callback) : Prop :=
  match m with
  | opened => stack.count .onConnClosing ≤ 1
  | failing => True
  | connecting | lost | closing _ | ending _ | closed => .onConnClosing ∉ stack

theorem Mode.single_of_not_mem {stack : List Callback} (h : .onConnClosing ∉ stack) :
    m.Single stack := by
  cases m with
  | opened =>
    rw [Mode.Single, List.count_eq_zero.mpr h]
    exact Nat.zero_le 1
  | failing => trivial
  | _ => exact h

/-- While `uvserver` is not set, the client alone closes. -/
theorem Rep.single (h : Rep m s) (hm : m.uvserver = false) : m.Single s.stack := by
  have hstack := h.stack
  cases m with
  | opened => cases hm
  | failing => trivial
  | connecting | lost | closed =>
    have hnil : s.stack = [] := hstack
    rw [hnil]
    exact List.not_mem_nil
  | closing up =>
    obtain rfl : up = false := hm
    have hnil : s.stack = [] := hstack
    rw [hnil]
    exact List.not_mem_nil
  | ending up =>
    obtain rfl : up = false := hm
    have hone : s.stack = [.onConnClose] := hstack
    rw [hone]
    exact List.not_mem_cons_of_ne_of_not_mem (by simp) List.not_mem_nil

/-- A connection that is intact is in one mode. -/
theorem Rep.eq_opened (h : Rep m s) (hm : m.uvserver = true) (hintact : Intact s) :
    m = .opened ∧ .onConnClosing ∉ s.stack := by
  obtain ⟨hphase, hstack⟩ := hintact (h.uvserver_eq.trans hm)
  refine ⟨?_, hstack⟩
  rw [h.phase_eq] at hphase
  cases m with
  | opened => rfl
  | _ => exact absurd hphase (by simp [Mode.phase])

/-- A `uv_close` that is the only one finds its handle open. -/
theorem Adds.closesOpen {attempts : List (List Entry)} {new : List Entry} {x : Entry}
    (h : Adds m m' s attempts new) (hr : Rep m s) (hsingle : m.Single s.stack) (hx : x ∈ new) :
    x.ClosesOpen := by
  intro haction
  obtain ⟨hphase, hhead⟩ := h.closes x hx haction
  have hmem : .onConnClosing ∈ s.stack := List.mem_of_mem_head? hhead
  rw [hphase, hr.phase_eq]
  cases m with
  | opened => exact Or.inr rfl
  | failing => exact Or.inl rfl
  | _ => exact absurd hmem hsingle

/-- A step keeps the announced `uv_close` the only one. -/
theorem Next.single (h : Next s m e m' s') (hr : Rep m s) (hsingle : m.Single s.stack)
    (hen : Enabled s e) (hclose : ClosesOnce s e) : m'.Single s'.stack := by
  -- a callback about something else is called
  have hcall : ∀ cb, cb ≠ .onConnClosing → ∀ m₁ : Mode, m₁.Single [cb] := fun cb hcb m₁ =>
    Mode.single_of_not_mem (List.not_mem_cons_of_ne_of_not_mem hcb.symm List.not_mem_nil)
  cases h with
  | quiet | sent => exact hsingle
  | announced timer reading hm he =>
    have hopened : m = .opened ∧ .onConnClosing ∉ s.stack := by
      rcases he with rfl | rfl | ⟨nread, -, rfl⟩
      · exact hr.eq_opened hm hclose
      · exact hr.eq_opened hm hclose
      · rw [hen.1]
        exact ⟨hr.reading hen.2, List.not_mem_nil⟩
    obtain ⟨rfl, hnot⟩ := hopened
    show (Callback.onConnClosing :: s.stack).count .onConnClosing ≤ 1
    exact Nat.le_of_eq (by rw [List.count_cons_self, List.count_eq_zero.mpr hnot])
  | accepted hs =>
    show Mode.Single _ (Callback.onConnOk :: s.stack)
    rw [hs]
    exact hcall _ (by simp) _
  | refused => trivial
  | received _ hs =>
    show Mode.Single _ (Callback.onRecv :: s.stack)
    rw [hs]
    exact hcall _ (by simp) _
  | beat _ _ hs =>
    show Mode.Single _ (Callback.onHeartbeat _ :: s.stack)
    rw [hs]
    exact hcall _ (by simp) _
  | reconnected ret =>
    rw [stack_uvxClientReconnect]
    split
    · exact hsingle
    · exact hsingle
  | closed up =>
    show .onConnClosing ∉ Callback.onConnClose :: s.stack
    exact List.not_mem_cons_of_ne_of_not_mem (by simp) hsingle
  | returned reading hs =>
    rw [hs] at hsingle
    cases m with
    | opened => exact Nat.le_trans List.count_le_count_cons hsingle
    | failing => trivial
    | _ => exact fun hmem => hsingle (List.mem_cons_of_mem _ hmem)
  | failed => trivial
  | disconnected hs =>
    rw [stack_uvClose]
    have hstack := hr.stack
    rw [hs] at hsingle hstack
    cases m with
    | opened =>
      have hle := hsingle
      rw [Mode.Single, List.count_cons_self] at hle
      exact List.count_eq_zero.mp (Nat.le_zero.mp (Nat.le_of_succ_le_succ hle))
    | failing =>
      rcases hstack with hstack | hstack
      · cases hstack
      · rw [(List.cons_eq_cons.mp hstack).2]
        exact List.not_mem_nil
    | _ => exact absurd List.mem_cons_self hsingle
  | ended => exact List.not_mem_nil

/-- A step keeps it so that every `uv_close` finds its handle open. -/
theorem Next.closesOpen (h : Next s m e m' s') (hr : Rep m s) (hsingle : m.Single s.stack)
    (hopen : ∀ att ∈ s.attempts, ∀ x ∈ att, x.ClosesOpen) :
    ∀ att ∈ s'.attempts, ∀ x ∈ att, x.ClosesOpen := by
  rcases h.adds with ⟨new, hadds⟩ | ⟨-, -, -, addr, ret, hattempts⟩
  · rw [hadds.attempts_eq]
    cases hl : s.attempts with
    | nil =>
      intro att hatt
      exact absurd hatt List.not_mem_nil
    | cons cur past =>
      rw [hl] at hopen
      rw [List.modifyHead_cons]
      intro att hatt x hx
      rcases List.mem_cons.mp hatt with rfl | hatt
      · rcases List.mem_append.mp hx with hx | hx
        · exact hopen cur List.mem_cons_self x hx
        · exact hadds.closesOpen hr hsingle hx
      · exact hopen att (List.mem_cons_of_mem _ hatt) x hx
  · rw [hattempts]
    intro att hatt x hx
    rcases List.mem_cons.mp hatt with rfl | hatt
    · obtain rfl := List.mem_singleton.mp hx
      intro hc
      cases hc
    · exact hopen att hatt x hx

/-! ## Closing again -/

/-- While the handle is closing or closed, a callback that returns leaves it so. -/
theorem phase_resume {cb : Callback} (hcb : cb ≠ .onConnFail)
    (h : s.phase = .closing ∨ s.phase = .closed) :
    (resume cb s).phase = s.phase ∧ (resume cb s).stack = s.stack := by
  have hopen : ¬ (s.phase = .initialised ∨ s.phase = .connected) := by
    rcases h with h | h <;> simp [h]
  have hconnected : s.phase ≠ .connected := fun hc => hopen (Or.inr hc)
  cases cb with
  | onConnOk => simp [resume, uvReadStart, hconnected]
  | onConnFail => exact absurd rfl hcb
  | onConnClosing => simp [resume, uvClose, State.record, hopen]
  | onRecv | onConnClose | onHeartbeat index => exact ⟨rfl, rfl⟩

/-- A callback that does not announce an end adds nothing to the attempts when it returns. -/
theorem attempts_resume {cb : Callback} (hfail : cb ≠ .onConnFail) (hclosing : cb ≠ .onConnClosing) :
    (resume cb s).attempts = s.attempts := by
  cases cb with
  | onConnOk =>
    show (uvReadStart s).attempts = _
    unfold uvReadStart
    split
    · rfl
    · rfl
  | onConnFail => exact absurd rfl hfail
  | onConnClosing => exact absurd rfl hclosing
  | onRecv | onConnClose | onHeartbeat index => rfl

theorem step_returned {cb : Callback} {stack : List Callback} (h : s.stack = cb :: stack) :
    Guarded Step ClosesOnce s .returned (resume cb { s with stack := stack }) := by
  refine ⟨⟨?_, ?_⟩, trivial⟩
  · show s.stack ≠ []
    rw [h]
    exact List.cons_ne_nil _ _
  · rw [handle, h]

/-- What is announced on a handle that is closing or closed comes about when the callbacks return. -/
theorem closed_again_of_mem (hphase : s.phase = .closing ∨ s.phase = .closed)
    (hfail : .onConnFail ∉ s.stack) (hmem : .onConnClosing ∈ s.stack) :
    ∃ es s', Exec (Guarded Step ClosesOnce) s es s' ∧
      s'.attempts = s.attempts.modifyHead (· ++ [⟨.uvClose, s.phase⟩]) := by
  induction hstack : s.stack generalizing s with
  | nil =>
    rw [hstack] at hmem
    exact absurd hmem List.not_mem_nil
  | cons cb stack ih =>
    rw [hstack] at hfail hmem
    have hstep := step_returned hstack
    by_cases hcb : cb = .onConnClosing
    · subst hcb
      refine ⟨_, _, .snoc .nil hstep, ?_⟩
      show (uvClose _).attempts = _
      rw [attempts_uvClose]
      rfl
    · have hne : cb ≠ .onConnFail := fun hc => hfail (hc ▸ List.mem_cons_self)
      obtain ⟨hphase', hstack'⟩ := phase_resume (s := { s with stack := stack }) hne hphase
      have hattempts := attempts_resume (s := { s with stack := stack }) hne hcb
      have hmem' : .onConnClosing ∈ stack :=
        (List.mem_cons.mp hmem).resolve_left fun hc => hcb hc.symm
      obtain ⟨es, s', hrun, hs'⟩ := ih (s := resume cb { s with stack := stack })
        (by rw [hphase']; exact hphase)
        (by rw [hstack']; exact fun hc => hfail (List.mem_cons_of_mem _ hc))
        (by rw [hstack']; exact hmem') hstack'
      rw [hphase', hattempts] at hs'
      exact ⟨_, s', .cons hstep hrun, hs'⟩

theorem phase_uvClose (h : s.phase = .connected) : (uvClose s).phase = .closing := by
  simp only [uvClose]
  split
  · rfl
  · next hno => exact absurd (Or.inr h) hno

theorem Entry.not_closesOpen {ph : Phase} (h : ph = .closing ∨ ph = .closed) :
    ¬ (⟨.uvClose, ph⟩ : Entry).ClosesOpen := by
  intro hopen
  rcases h with rfl | rfl
  · exact absurd (hopen rfl) (by decide)
  · exact absurd (hopen rfl) (by decide)

/-- **A connection that is not intact is closed again** once its end has been announced once more. -/
theorem Rep.closed_again (h : Rep m s) (hnot : ¬ Intact s) (timer : Bool) :
    ∃ es s' new, Exec (Guarded Step ClosesOnce) ({ s with timer := timer }.call .onConnClosing) es s' ∧
      s'.attempts = s.attempts.modifyHead (· ++ new) ∧ ∃ x ∈ new, ¬ x.ClosesOpen := by
  obtain ⟨huv, hnot⟩ := Classical.not_imp.mp hnot
  have hm : m.uvserver = true := h.uvserver_eq.symm.trans huv
  have hstack := h.stack
  generalize ht : { s with timer := timer }.call .onConnClosing = t
  have hphase : t.phase = s.phase := ht ▸ rfl
  have htop : t.stack = .onConnClosing :: s.stack := ht ▸ rfl
  have hattempts : t.attempts = s.attempts.modifyHead (· ++ [⟨.callback .onConnClosing, s.phase⟩]) :=
    ht ▸ rfl
  -- on a handle that is closing or closed it is enough that the callbacks return
  have hagain : s.phase = .closing ∨ s.phase = .closed → .onConnFail ∉ s.stack →
      ∃ es s' new, Exec (Guarded Step ClosesOnce) t es s' ∧
        s'.attempts = s.attempts.modifyHead (· ++ new) ∧ ∃ x ∈ new, ¬ x.ClosesOpen := by
    intro hclosing hfail
    obtain ⟨es, s', hrun, hs'⟩ := closed_again_of_mem (hphase ▸ hclosing)
      (by rw [htop]; exact List.not_mem_cons_of_ne_of_not_mem (by simp) hfail)
      (by rw [htop]; exact List.mem_cons_self)
    rw [hattempts, modifyHead_append, hphase] at hs'
    exact ⟨es, s', _, hrun, hs', _, by simp, Entry.not_closesOpen hclosing⟩
  cases m with
  | opened =>
    have hmem : .onConnClosing ∈ s.stack :=
      Decidable.byContradiction fun hc => hnot ⟨h.phase_eq, hc⟩
    have hconnected : t.phase = .connected := hphase.trans h.phase_eq
    -- the handle is closed for the first time
    have hstep : Guarded Step ClosesOnce t .returned (uvClose { t with stack := s.stack }) :=
      step_returned htop
    have hclosing : (uvClose { t with stack := s.stack }).phase = .closing := phase_uvClose hconnected
    have hadded : (uvClose { t with stack := s.stack }).attempts
        = s.attempts.modifyHead (· ++ [⟨.callback .onConnClosing, s.phase⟩, ⟨.uvClose, t.phase⟩]) := by
      rw [attempts_uvClose, State.record]
      dsimp only
      rw [hattempts, modifyHead_append]
      rfl
    obtain ⟨es, s', hrun, hs'⟩ := closed_again_of_mem (Or.inl hclosing)
      (by rw [stack_uvClose]; exact fun hc => (hstack _ hc).1 rfl)
      (by rw [stack_uvClose]; exact hmem)
    rw [hadded, modifyHead_append, hclosing] at hs'
    exact ⟨_, s', _, .cons hstep hrun, hs', _, by simp, Entry.not_closesOpen (Or.inl rfl)⟩
  | closing up =>
    obtain rfl : up = true := hm
    exact hagain (Or.inl h.phase_eq) fun hc => (hstack _ hc).1 rfl
  | ending up =>
    obtain rfl : up = true := hm
    refine hagain (Or.inr h.phase_eq) ?_
    obtain ⟨k, hk⟩ := hstack
    rw [hk]
    simp
  | connecting | lost | failing | closed => exact absurd hm (by decide)

/-! ## Runs -/

/-- No connection has been closed twice, and none is about to be. -/
def ClosedOnce (s : State) : Prop :=
  ∃ m, Rep m s ∧ m.Single s.stack ∧ ∀ att ∈ s.attempts, ∀ x ∈ att, x.ClosesOpen

theorem ClosedOnce.step (h : ClosedOnce s) (hstep : Guarded Step ClosesOnce s e s') :
    ClosedOnce s' := by
  obtain ⟨m, hr, hsingle, hopen⟩ := h
  obtain ⟨m', hnext, hr'⟩ := hr.next hstep.1
  exact ⟨m', hr', hnext.single hr hsingle hstep.1.1 hstep.2, hnext.closesOpen hr hsingle hopen⟩

theorem closedOnce_start (uv : AddrParser) (ip : List UInt8) (port ret : ℤ) :
    ClosedOnce (uvxClientConnect uv ip port ret).1 := by
  refine ⟨_, Rep.start uv ip port ret, (Rep.start uv ip port ret).single ?_, ?_⟩
  · split <;> rfl
  · rw [attempts_uvxClientConnect]
    intro att hatt x hx
    obtain rfl := List.mem_singleton.mp hatt
    obtain rfl := List.mem_singleton.mp hx
    intro hc
    cases hc

/-- **No connection is closed twice** in a run in which user code closes none that is being closed. -/
theorem exec_closedOnce
    (hrun : Exec (Guarded Step ClosesOnce) (uvxClientConnect uv ip port ret).1 es s) : ClosedOnce s :=
  hrun.invariant (closedOnce_start uv ip port ret) fun _ _ _ => ClosedOnce.step

end Uvx.Client
