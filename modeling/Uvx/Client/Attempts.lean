import Uvx.Client.Mode

/-!
# One attempt after the other

The handle and the request to connect are used again in every attempt. As long as user code closes no
connection twice, an attempt starts only when the handle of the one before has been closed, and its
callbacks come in order (`attempts_in_order`).
-/

namespace Uvx.Client

open Net

variable {m m' : Mode} {s s' : State} {e : Event} {es : List Event} {uv : AddrParser}
  {ip : List UInt8} {port ret : ℤ} {stack stack' l begun : List Callback}
  {attempts : List (List Entry)}

/-- User code closes a connection only once, and not while it is being closed anyway. -/
def NoRepeat (s : State) : Event → Prop
  | .user .disconnect | .user .shutdown =>
    s.uvserver = true → s.phase = .connected ∧ .onConnClosing ∉ s.stack
  | _ => True

instance (s : State) (e : Event) : Decidable (NoRepeat s e) :=
  match e with
  | .user .disconnect | .user .shutdown => inferInstanceAs (Decidable (_ → _ ∧ _))
  | .connect _ | .read _ | .closed | .heartbeat _ | .user (.send _) | .returned => .isTrue trivial

/-- The callback that is called, unless it is about a heartbeat. -/
def Entry.callback? (e : Entry) : Option Callback :=
  match e.action with
  | .callback (.onHeartbeat _) => none
  | .callback cb => some cb
  | .tcpConnect _ _ | .uvWrite | .uvClose => none

/-- The callbacks of an attempt without those about heartbeats. -/
def callbacks (att : List Entry) : List Callback := att.filterMap Entry.callback?

/-- The callbacks of an attempt that fails, or of one that establishes a connection. -/
def InOrder (l : List Callback) : Prop :=
  l <+: [.onConnFail, .onConnClosing, .onConnClose] ∨
    ∃ n, l <+: .onConnOk :: .replicate n .onRecv ++ [.onConnClosing, .onConnClose]

/-! ## What has been heard in a mode -/

/-- The callbacks before the end of an attempt. -/
def Begins : Bool → List Callback → Prop
  | true, l => ∃ n, l = .onConnOk :: .replicate n .onRecv
  | false, l => l = [.onConnFail]

namespace Mode

def Begun (m : Mode) (l : List Callback) : Prop :=
  match m with
  | connecting | lost => l = []
  | failing => Begins false l
  | opened => Begins true l
  | closing up | ending up => Begins up l
  | closed => ∃ up, Begins up l

/-- The callbacks about the end of an attempt so far. -/
def ended (m : Mode) (stack : List Callback) : List Callback :=
  match m with
  | connecting | lost => []
  | failing | opened => .replicate (stack.count .onConnClosing) .onConnClosing
  | closing _ => [.onConnClosing]
  | ending _ | closed => [.onConnClosing, .onConnClose]

/-- How often `on_conn_closing` may be running. -/
def announcements : Mode → ℕ
  | failing | opened => 1
  | _ => 0

end Mode

structure Heard (m : Mode) (stack l : List Callback) : Prop where
  split : ∃ begun, m.Begun begun ∧ l = begun ++ m.ended stack
  count_le : stack.count .onConnClosing ≤ m.announcements

/-- The attempts so far: the earlier ones are over. -/
def History (m : Mode) (stack : List Callback) (attempts : List (List Entry)) : Prop :=
  ∃ cur past, attempts = cur :: past ∧ Heard m stack (callbacks cur) ∧
    ∀ att ∈ past, ∃ stack, Heard .closed stack (callbacks att)

theorem Begins.inOrder (up : Bool) (h : Begins up begun)
    (hl : l <+: [.onConnClosing, .onConnClose]) : InOrder (begun ++ l) := by
  cases up with
  | true =>
    obtain ⟨n, rfl⟩ := h
    exact Or.inr ⟨n, (List.prefix_append_right_inj _).mpr hl⟩
  | false =>
    obtain rfl := h
    exact Or.inl ((List.prefix_append_right_inj [.onConnFail]).mpr hl)

theorem Heard.ended_prefix (h : Heard m stack l) :
    m.ended stack <+: [.onConnClosing, .onConnClose] := by
  have hcount := h.count_le
  have hone : ∀ k ≤ 1, List.replicate k Callback.onConnClosing <+: [.onConnClosing, .onConnClose] := by
    decide
  cases m with
  | connecting | lost => exact List.nil_prefix
  | failing | opened => exact hone _ hcount
  | closing up => exact ⟨[.onConnClose], rfl⟩
  | ending up | closed => exact List.prefix_refl _

theorem Heard.inOrder (h : Heard m stack l) : InOrder l := by
  have hended := h.ended_prefix
  obtain ⟨begun, hbegun, rfl⟩ := h.split
  cases m with
  | connecting | lost =>
    obtain rfl : begun = [] := hbegun
    exact Or.inl List.nil_prefix
  | failing => exact Begins.inOrder false hbegun hended
  | opened => exact Begins.inOrder true hbegun hended
  | closing up | ending up => exact Begins.inOrder up hbegun hended
  | closed =>
    obtain ⟨up, hbegun⟩ := hbegun
    exact Begins.inOrder up hbegun hended

theorem Heard.getLast? (h : Heard .closed stack l) : l.getLast? = some .onConnClose := by
  obtain ⟨begun, -, rfl⟩ := h.split
  rw [Mode.ended, List.getLast?_append]
  rfl

/-! ## The steps -/

theorem callbacks_append (att : List Entry) (e : Entry) :
    callbacks (att ++ [e]) = callbacks att ++ e.callback?.toList := by
  rw [callbacks, List.filterMap_append]
  cases h : e.callback? with
  | none => simp [callbacks, h]
  | some cb => simp [callbacks, h]

namespace History

theorem change (h : History m stack attempts) (hstep : ∀ l, Heard m stack l → Heard m' stack' l) :
    History m' stack' attempts := by
  obtain ⟨cur, past, rfl, hcur, hpast⟩ := h
  exact ⟨cur, past, rfl, hstep _ hcur, hpast⟩

/-- An entry is added to the current attempt. -/
theorem record (h : History m stack attempts) (e : Entry)
    (hstep : ∀ l, Heard m stack l → Heard m' stack' (l ++ e.callback?.toList)) :
    History m' stack' (attempts.modifyHead (· ++ [e])) := by
  obtain ⟨cur, past, rfl, hcur, hpast⟩ := h
  refine ⟨cur ++ [e], past, rfl, ?_, hpast⟩
  rw [callbacks_append]
  exact hstep _ hcur

/-- The entry is no callback about the connection. -/
theorem silent (h : History m stack attempts) {e : Entry} (he : e.callback? = none)
    (hstep : ∀ l, Heard m stack l → Heard m' stack' l) :
    History m' stack' (attempts.modifyHead (· ++ [e])) := by
  refine h.record e ?_
  intro l hl
  rw [he, Option.toList_none, List.append_nil]
  exact hstep l hl

end History

namespace Heard

/-- Only `on_conn_closing` on the stack matters. -/
theorem congr (h : Heard m stack l)
    (hcount : stack'.count .onConnClosing = stack.count .onConnClosing) : Heard m stack' l := by
  obtain ⟨begun, hbegun, hl⟩ := h.split
  refine ⟨⟨begun, hbegun, ?_⟩, by rw [hcount]; exact h.count_le⟩
  rw [hl]
  cases m with
  | failing | opened => rw [Mode.ended, Mode.ended, hcount]
  | _ => rfl

/-- A new attempt, of which nothing has been heard. -/
theorem init (hzero : stack.count .onConnClosing = 0) (ret : ℤ) :
    Heard (if 0 ≤ ret then .connecting else .lost) stack [] := by
  split
  · exact ⟨⟨[], rfl, rfl⟩, Nat.le_of_eq hzero⟩
  · exact ⟨⟨[], rfl, rfl⟩, Nat.le_of_eq hzero⟩

/-- The connect callback is the first one. -/
theorem started {cb : Callback} (h : Heard .connecting stack l) (hcb : cb ≠ .onConnClosing)
    (hm : m = .failing ∨ m = .opened) (hbegun : m.Begun [cb]) :
    Heard m (cb :: stack) (l ++ [cb]) := by
  obtain ⟨begun, rfl, rfl⟩ := h.split
  have hzero : (cb :: stack).count .onConnClosing = 0 := by
    rw [List.count_cons_of_ne hcb]
    exact Nat.le_zero.mp h.count_le
  refine ⟨⟨[cb], hbegun, ?_⟩, ?_⟩
  · rcases hm with rfl | rfl
    all_goals
      rw [Mode.ended, Mode.ended, hzero]
      rfl
  · rw [hzero]
    exact Nat.zero_le _

theorem received (h : Heard .opened [] l) : Heard .opened [.onRecv] (l ++ [.onRecv]) := by
  obtain ⟨begun, ⟨n, rfl⟩, rfl⟩ := h.split
  refine ⟨⟨_, ⟨n + 1, rfl⟩, ?_⟩, Nat.zero_le 1⟩
  rw [List.replicate_succ']
  simp [Mode.ended]

/-- `on_conn_closing` is called for the first time. -/
theorem announced (h : Heard m stack l) (hm : m = .failing ∨ m = .opened)
    (hzero : stack.count .onConnClosing = 0)
    (hone : stack'.count .onConnClosing = 1) : Heard m stack' (l ++ [.onConnClosing]) := by
  obtain ⟨begun, hbegun, rfl⟩ := h.split
  rcases hm with rfl | rfl
  all_goals
    refine ⟨⟨begun, hbegun, ?_⟩, Nat.le_of_eq hone⟩
    rw [Mode.ended, Mode.ended, hzero, hone]
    simp

/-- It returns, and the handle is closed. -/
theorem disconnected (h : Heard m (.onConnClosing :: stack) l) : Heard m.afterClose stack l := by
  obtain ⟨begun, hbegun, rfl⟩ := h.split
  have hcount := h.count_le
  rw [List.count_cons_self] at hcount
  cases m with
  | failing | opened =>
    have hzero : stack.count .onConnClosing = 0 := Nat.le_zero.mp (Nat.le_of_succ_le_succ hcount)
    refine ⟨⟨begun, hbegun, ?_⟩, Nat.le_of_eq hzero⟩
    rw [Mode.ended, List.count_cons_self, hzero]
    rfl
  | connecting | lost | closing | ending | closed =>
    exact absurd hcount (Nat.not_succ_le_zero _)

theorem closed {up : Bool} (h : Heard (.closing up) stack l) :
    Heard (.ending up) (.onConnClose :: stack) (l ++ [.onConnClose]) := by
  obtain ⟨begun, hbegun, rfl⟩ := h.split
  refine ⟨⟨begun, hbegun, ?_⟩, ?_⟩
  · rw [List.append_assoc]
    rfl
  · rw [List.count_cons_of_ne (by simp)]
    exact h.count_le

theorem finished {up : Bool} (h : Heard (.ending up) stack l) : Heard .closed [] l := by
  obtain ⟨begun, hbegun, rfl⟩ := h.split
  exact ⟨⟨begun, ⟨up, hbegun⟩, rfl⟩, Nat.le_refl 0⟩

end Heard

/-- A step in which user code closes nothing twice. -/
theorem Next.history (h : Next s m e m' s') (hr : Rep m s) (hen : Enabled s e)
    (hno : NoRepeat s e) (hist : History m s.stack s.attempts) :
    History m' s'.stack s'.attempts := by
  cases h with
  | quiet => exact hist
  | sent => exact hist.silent rfl fun _ hl => hl
  | announced timer reading hm he =>
    -- the connection is open, and nobody has announced its end
    have hopened : m = .opened ∧ .onConnClosing ∉ s.stack := by
      have hcalled : s.phase = .connected ∧ .onConnClosing ∉ s.stack →
          m = .opened ∧ .onConnClosing ∉ s.stack := by
        refine fun hc => ⟨?_, hc.2⟩
        have hphase := hr.phase_eq.symm.trans hc.1
        cases m with
        | opened => rfl
        | _ => exact absurd hphase (by simp [Mode.phase])
      rcases he with rfl | rfl | ⟨nread, -, rfl⟩
      · exact hcalled (hno (hr.uvserver_eq.trans hm))
      · exact hcalled (hno (hr.uvserver_eq.trans hm))
      · exact ⟨hr.reading hen.2, by rw [hen.1]; exact List.not_mem_nil⟩
    obtain ⟨rfl, hnot⟩ := hopened
    have hzero := List.count_eq_zero.mpr hnot
    refine hist.record _ fun l hl => hl.announced (Or.inr rfl) hzero ?_
    show (Callback.onConnClosing :: s.stack).count .onConnClosing = 1
    rw [List.count_cons_self, hzero]
  | accepted => exact hist.record _ fun _ hl => hl.started (by simp) (Or.inr rfl) ⟨0, rfl⟩
  | refused => exact hist.record _ fun _ hl => hl.started (by simp) (Or.inl rfl) rfl
  | received hn hs =>
    rw [hs] at hist
    refine hist.record _ ?_
    intro l hl
    show Heard .opened (.onRecv :: s.stack) _
    rw [hs]
    exact hl.received
  | beat => exact hist.silent rfl fun _ hl => hl.congr (List.count_cons_of_ne (by simp))
  | reconnected ret =>
    rw [attempts_uvxClientReconnect, stack_uvxClientReconnect]
    obtain ⟨cur, past, hattempts, hcur, hpast⟩ := hist
    rw [hattempts]
    refine ⟨_, cur :: past, rfl, .init (Nat.le_zero.mp hcur.count_le) ret, ?_⟩
    intro att hatt
    rcases List.mem_cons.mp hatt with rfl | hatt
    · exact ⟨s.stack, hcur⟩
    · exact hpast att hatt
  | closed up => exact hist.record _ fun l hl => hl.closed
  | returned reading hs hcb =>
    refine hist.change fun l hl => hl.congr ?_
    rw [hs, List.count_cons_of_ne]
    rcases hcb with rfl | rfl | ⟨i, rfl⟩ <;> simp
  | failed hs =>
    refine hist.record _ fun l hl => hl.announced (Or.inl rfl) ?_ rfl
    rw [hs]
    rfl
  | disconnected hs =>
    rw [hs] at hist
    rw [attempts_uvClose, stack_uvClose]
    exact hist.silent rfl fun _ hl => hl.disconnected
  | ended => exact hist.change fun l hl => hl.finished

/-! ## Runs -/

/-- The client after a run in which user code closes nothing twice. -/
theorem exec_history
    (hrun : Exec (Guarded Step NoRepeat) (uvxClientConnect uv ip port ret).1 es s) :
    ∃ m, Rep m s ∧ History m s.stack s.attempts := by
  apply hrun.invariant (I := fun s => ∃ m, Rep m s ∧ History m s.stack s.attempts)
  · refine ⟨_, Rep.start uv ip port ret, ?_⟩
    have hstack : (uvxClientConnect uv ip port ret).1.stack = [] := stack_uvxClientReconnect ret _
    rw [attempts_uvxClientConnect, hstack]
    exact ⟨_, [], rfl, .init rfl ret, fun _ hatt => absurd hatt List.not_mem_nil⟩
  · rintro s e s' ⟨m, h, hist⟩ ⟨hstep, hno⟩
    obtain ⟨m', hnext, h'⟩ := h.next hstep
    exact ⟨m', h', hnext.history h hstep.1 hno hist⟩

/-- **One attempt after the other**: the callbacks of each come in order, the earlier attempts are
over, and a heartbeat starts another one only when the handle has been closed and no request is
outstanding. -/
theorem attempts_in_order
    (hrun : Exec (Guarded Step NoRepeat) (uvxClientConnect uv ip port ret).1 es s) :
    (∀ att ∈ s.attempts, InOrder (callbacks att)) ∧
      (∀ att ∈ s.attempts.tail, (callbacks att).getLast? = some .onConnClose) ∧
      ∀ r s', Step s (.heartbeat r) s' → s'.attempts.length ≠ s.attempts.length →
        s.phase = .closed ∧ s.connecting = false ∧
          ∀ att ∈ s.attempts.head?, (callbacks att).getLast? = some .onConnClose := by
  obtain ⟨m, h, cur, past, hattempts, hcur, hpast⟩ := exec_history hrun
  refine ⟨?_, ?_, ?_⟩
  · intro att hatt
    rw [hattempts] at hatt
    rcases List.mem_cons.mp hatt with rfl | hatt
    · exact hcur.inOrder
    · obtain ⟨stack, hover⟩ := hpast att hatt
      exact hover.inOrder
  · intro att hatt
    rw [hattempts] at hatt
    obtain ⟨stack, hover⟩ := hpast att hatt
    exact hover.getLast?
  · intro r s' hstep hnew
    obtain ⟨m', hnext, -⟩ := h.next hstep
    cases hnext with
    | reconnected =>
      refine ⟨h.phase_eq, h.connecting_eq, ?_⟩
      intro att hatt
      rw [hattempts] at hatt
      obtain rfl := Option.some_inj.mp hatt
      exact hcur.getLast?
    | quiet => exact absurd rfl hnew
    | beat =>
      refine absurd ?_ hnew
      simp [State.call, State.record]
    | announced timer reading hm he =>
      rcases he with he | he | ⟨nread, -, he⟩
      all_goals cases he

/-- The server closes the connection, the second attempt fails, and user code closes the third
connection. -/
theorem attempts_in_order_three :
    ∃ s : State, s.attempts.map callbacks =
        [[.onConnOk, .onConnClosing], [.onConnFail, .onConnClosing, .onConnClose],
          [.onConnOk, .onRecv, .onRecv, .onConnClosing, .onConnClose]] ∧
      ∀ att ∈ s.attempts, InOrder (callbacks att) := by
  let es : List Event := [.connect 0, .returned, .read 5, .returned, .heartbeat 0, .returned,
    .read 3, .returned, .read (-4095), .returned, .closed, .returned, .heartbeat 0,
    .connect (-111), .returned, .returned, .closed, .returned, .heartbeat 0, .connect 0,
    .user .disconnect, .returned, .returned, .heartbeat 0]
  have hrun : ∃ s, runEvents NoRepeat es (uvxClientConnect plainParser [] 80 0).1 = some s ∧
      s.attempts.map callbacks =
        [[.onConnOk, .onConnClosing], [.onConnFail, .onConnClosing, .onConnClose],
          [.onConnOk, .onRecv, .onRecv, .onConnClosing, .onConnClose]] := by decide +kernel
  obtain ⟨s, hs, hcallbacks⟩ := hrun
  exact ⟨s, hcallbacks, (attempts_in_order (exec_of_runEvents hs)).1⟩

end Uvx.Client
