import Uvx.Client.Mode

/-!
# `uvserver` and the connection

`uvserver` is the only guard of `uvx_client_send`, `uvx_client_disconnect`, `uvx_client_shutdown` and
the heartbeat. It stands for a usable connection as long as no connection that was established is
closed (`uvserver_usable`): from `uv_close` on until the close callback it does not, and then
`uv_close` is repeated, and data and heartbeats go to a handle that is closing (`not_usable`).
-/

namespace Uvx.Client

open Net

variable {m m' : Mode} {s s' : State} {e : Event} {es : List Event} {uv : AddrParser}
  {ip : List UInt8} {port ret : ℤ} {att : List Entry}

/-- An established connection is not closed, neither by user code nor for a read error. -/
def KeepsOpen (s : State) : Event → Prop
  | .user .disconnect | .user .shutdown => s.uvserver = false
  | .read nread => 0 ≤ nread
  | _ => True

instance (s : State) (e : Event) : Decidable (KeepsOpen s e) :=
  match e with
  | .user .disconnect | .user .shutdown => inferInstanceAs (Decidable (s.uvserver = false))
  | .read nread => inferInstanceAs (Decidable (0 ≤ nread))
  | .connect _ | .closed | .heartbeat _ | .user (.send _) | .returned => .isTrue trivial

/-- How often `uv_close` has been called. -/
def closes (att : List Entry) : ℕ := att.countP fun e => e.action = .uvClose

/-- In an attempt `uv_close` is called once at most, and data is sent and heartbeats are delivered
only while it is connected. -/
structure Sound (att : List Entry) : Prop where
  closes_le : closes att ≤ 1
  writes : ∀ e ∈ att, e.action = .uvWrite → e.phase = .connected
  beats : ∀ e ∈ att, ∀ index, e.action = .callback (.onHeartbeat index) → e.phase = .connected

/-- An entry that is no `uv_close` and, if it needs the connection, finds it. -/
def Entry.Harmless (e : Entry) : Prop :=
  e.action ≠ .uvClose ∧
    ((e.action = .uvWrite ∨ ∃ index, e.action = .callback (.onHeartbeat index)) →
      e.phase = .connected)

theorem closes_append (att : List Entry) (e : Entry) :
    closes (att ++ [e]) = closes att + if e.action = .uvClose then 1 else 0 := by
  rw [closes, List.countP_append, List.countP_singleton]
  simp [closes]

theorem closes_harmless {e : Entry} (he : e.Harmless) : closes (att ++ [e]) = closes att := by
  rw [closes_append, if_neg he.1]
  rfl

theorem Sound.nil : Sound [] :=
  ⟨Nat.zero_le _, fun _ h => absurd h List.not_mem_nil, fun _ h => absurd h List.not_mem_nil⟩

theorem Sound.snoc (h : Sound att) {e : Entry} (he : e.Harmless) : Sound (att ++ [e]) := by
  refine ⟨?_, ?_, ?_⟩
  · rw [closes_harmless he]
    exact h.closes_le
  · intro e' he' hw
    rcases List.mem_append.mp he' with he' | he'
    · exact h.writes e' he' hw
    · obtain rfl := List.mem_singleton.mp he'
      exact he.2 (Or.inl hw)
  · intro e' he' index hb
    rcases List.mem_append.mp he' with he' | he'
    · exact h.beats e' he' index hb
    · obtain rfl := List.mem_singleton.mp he'
      exact he.2 (Or.inr ⟨index, hb⟩)

/-- The first `uv_close` of an attempt. -/
theorem Sound.close (h : Sound att) (hzero : closes att = 0) (ph : Phase) :
    Sound (att ++ [⟨.uvClose, ph⟩]) := by
  refine ⟨?_, ?_, ?_⟩
  · simp [closes_append, hzero]
  · intro e he hw
    rcases List.mem_append.mp he with he | he
    · exact h.writes e he hw
    · obtain rfl := List.mem_singleton.mp he
      exact absurd hw (by simp)
  · intro e he index hb
    rcases List.mem_append.mp he with he | he
    · exact h.beats e he index hb
    · obtain rfl := List.mem_singleton.mp he
      exact absurd hb (by simp)

/-! ## Clients that keep their connections open -/

/-- `uv_close` has not been called since `uv_tcp_init`. -/
def Mode.Unclosed (m : Mode) : Prop := m.phase = .initialised ∨ m.phase = .connected

/-- The attempts so far are sound, and the current one shows whether its handle has been closed. -/
structure Attempts (m : Mode) (attempts : List (List Entry)) : Prop where
  sound : ∀ att ∈ attempts, Sound att
  unclosed : m.Unclosed → ∀ att ∈ attempts.head?, closes att = 0

/-- No established connection is being closed. -/
structure Open (m : Mode) (stack : List Callback) : Prop where
  mode : m ≠ .closing true ∧ m ≠ .ending true
  stack : m = .opened → .onConnClosing ∉ stack

namespace Attempts

variable {l : List (List Entry)}

theorem change (h : Attempts m l) (hm : m'.Unclosed → m.Unclosed) : Attempts m' l :=
  ⟨h.sound, fun hm' => h.unclosed (hm hm')⟩

theorem record (h : Attempts m l) {e : Entry} (he : e.Harmless) (hm : m'.Unclosed → m.Unclosed) :
    Attempts m' (l.modifyHead (· ++ [e])) := by
  cases l with
  | nil => exact h.change hm
  | cons cur past =>
    rw [List.modifyHead_cons]
    refine ⟨?_, ?_⟩
    · intro att hatt
      rcases List.mem_cons.mp hatt with rfl | hatt
      · exact (h.sound cur (by simp)).snoc he
      · exact h.sound att (List.mem_cons_of_mem _ hatt)
    · intro hm' att hatt
      obtain rfl := Option.some_inj.mp hatt
      rw [closes_harmless he]
      exact h.unclosed (hm hm') cur rfl

theorem close (h : Attempts m l) (hm : m.Unclosed) (hm' : ¬ m'.Unclosed) (ph : Phase) :
    Attempts m' (l.modifyHead (· ++ [⟨.uvClose, ph⟩])) := by
  cases l with
  | nil => exact ⟨h.sound, fun hc => absurd hc hm'⟩
  | cons cur past =>
    rw [List.modifyHead_cons]
    refine ⟨?_, fun hc => absurd hc hm'⟩
    intro att hatt
    rcases List.mem_cons.mp hatt with rfl | hatt
    · exact (h.sound cur (by simp)).close (h.unclosed hm cur rfl) ph
    · exact h.sound att (List.mem_cons_of_mem _ hatt)

/-- A new attempt. -/
theorem init (h : Attempts m l) : Attempts m' ([] :: l) := by
  refine ⟨?_, ?_⟩
  · intro att hatt
    rcases List.mem_cons.mp hatt with rfl | hatt
    · exact .nil
    · exact h.sound att hatt
  · intro _ att hatt
    obtain rfl := Option.some_inj.mp hatt
    rfl

end Attempts

/-- Callbacks about the connection need not find it connected. -/
theorem Entry.harmless_callback {cb : Callback} (h : ∀ index, cb ≠ .onHeartbeat index) (ph : Phase) :
    (⟨.callback cb, ph⟩ : Entry).Harmless := by
  refine ⟨by simp, ?_⟩
  intro hc
  rcases hc with hc | ⟨index, hc⟩
  · exact absurd hc (by simp)
  · exact absurd (Action.callback.inj hc) (h index)

theorem attempts_reconnect (h : Attempts m s.attempts) (ret : ℤ) :
    Attempts m' (uvxClientReconnect ret s).1.attempts := by
  have hnew : Attempts m' ((([] : List Entry) :: s.attempts).modifyHead
      (· ++ [⟨.tcpConnect s.serverAddr ret, .initialised⟩])) :=
    h.init.record ⟨by simp, fun hc => by simp at hc⟩ id
  rw [attempts_uvxClientReconnect]
  exact hnew

theorem Open.of_ne (h : m ≠ .opened) (hm : m ≠ .closing true ∧ m ≠ .ending true)
    (stack : List Callback) : Open m stack :=
  ⟨hm, fun hc => absurd hc h⟩

/-- `uvserver` is set in one mode only. -/
theorem Open.eq_opened {stack : List Callback} (h : Open m stack) (hm : m.uvserver = true) :
    m = .opened := by
  cases m with
  | opened => rfl
  | closing up => exact absurd (congrArg Mode.closing hm) h.mode.1
  | ending up => exact absurd (congrArg Mode.ending hm) h.mode.2
  | _ => exact absurd hm (by decide)

/-- A step that keeps connections open. -/
theorem Next.usable (h : Next s m e m' s') (hr : Rep m s) (hopen : Open m s.stack)
    (hatt : Attempts m s.attempts) (hkeep : KeepsOpen s e) :
    Open m' s'.stack ∧ Attempts m' s'.attempts := by
  cases h with
  | quiet => exact ⟨hopen, hatt⟩
  | sent status hm =>
    -- `uvserver` is set, so the handle is connected
    obtain rfl := hopen.eq_opened hm
    exact ⟨hopen, hatt.record ⟨by simp, fun _ => hr.phase_eq⟩ id⟩
  | announced timer reading hm he =>
    -- what the run does not do
    exfalso
    have huv : s.uvserver = true := hr.uvserver_eq.trans hm
    rcases he with rfl | rfl | ⟨nread, hn, rfl⟩
    · exact absurd (huv.symm.trans hkeep) (by decide)
    · exact absurd (huv.symm.trans hkeep) (by decide)
    · exact absurd hkeep (Int.not_le.mpr hn)
  | accepted hs =>
    refine ⟨⟨by simp, fun _ => ?_⟩, hatt.record (Entry.harmless_callback (by simp) _)
      fun _ => Or.inl rfl⟩
    show .onConnClosing ∉ Callback.onConnOk :: s.stack
    rw [hs]
    simp
  | refused =>
    exact ⟨.of_ne (by simp) (by simp) _, hatt.record (Entry.harmless_callback (by simp) _)
      fun _ => Or.inl rfl⟩
  | received hn hs =>
    refine ⟨⟨by simp, ?_⟩, hatt.record (Entry.harmless_callback (by simp) _) id⟩
    intro _
    show .onConnClosing ∉ Callback.onRecv :: s.stack
    rw [hs]
    simp
  | beat ret hm hs =>
    obtain rfl := hopen.eq_opened hm
    refine ⟨⟨by simp, ?_⟩, hatt.record ⟨by simp, fun _ => hr.phase_eq⟩ id⟩
    intro _
    show .onConnClosing ∉ Callback.onHeartbeat _ :: s.stack
    rw [hs]
    simp
  | reconnected ret =>
    refine ⟨?_, attempts_reconnect hatt ret⟩
    split
    · exact .of_ne (by simp) (by simp) _
    · exact .of_ne (by simp) (by simp) _
  | closed up =>
    cases up with
    | true => exact absurd rfl hopen.mode.1
    | false =>
      exact ⟨.of_ne (by simp) (by simp) _, hatt.record (Entry.harmless_callback (by simp) _)
        fun hm => absurd hm (by simp [Mode.Unclosed, Mode.phase])⟩
  | returned reading hs =>
    refine ⟨⟨hopen.mode, ?_⟩, hatt⟩
    intro hm
    have hnot := hopen.stack hm
    rw [hs] at hnot
    exact fun hmem => hnot (List.mem_cons_of_mem _ hmem)
  | failed =>
    exact ⟨.of_ne (by simp) (by simp) _, hatt.record (Entry.harmless_callback (by simp) _) id⟩
  | disconnected hs =>
    have hstack := hr.stack
    rw [hs] at hstack
    cases m with
    | opened => exact absurd (by rw [hs]; simp) (hopen.stack rfl)
    | failing =>
      -- the one `uv_close` of an attempt that failed
      refine ⟨.of_ne (by simp [Mode.afterClose]) (by simp [Mode.afterClose]) _, ?_⟩
      rw [attempts_uvClose]
      exact hatt.close (Or.inl rfl) (by simp [Mode.afterClose, Mode.Unclosed, Mode.phase]) _
    | closing up =>
      cases up with
      | true => exact absurd rfl hopen.mode.1
      | false => exact absurd hstack (by simp [Mode.Stack])
    | ending up =>
      cases up with
      | true => exact absurd rfl hopen.mode.2
      | false => exact absurd hstack (by simp [Mode.Stack])
    | connecting | lost | closed => exact absurd hstack (by simp [Mode.Stack])
  | ended up =>
    exact ⟨.of_ne (by simp) (by simp) _,
      hatt.change fun hm => absurd hm (by simp [Mode.Unclosed, Mode.phase])⟩

/-- The client after a run that keeps its connections open. -/
theorem exec_usable
    (hrun : Exec (Guarded Step KeepsOpen) (uvxClientConnect uv ip port ret).1 es s) :
    ∃ m, Rep m s ∧ Open m s.stack ∧ Attempts m s.attempts := by
  apply hrun.invariant (I := fun s => ∃ m, Rep m s ∧ Open m s.stack ∧ Attempts m s.attempts)
  · refine ⟨_, Rep.start uv ip port ret, ?_, ?_⟩
    · split
      · exact .of_ne (by simp) (by simp) _
      · exact .of_ne (by simp) (by simp) _
    · exact attempts_reconnect (m := .connecting)
        ⟨fun _ h => absurd h List.not_mem_nil, fun _ _ h => absurd h (by simp)⟩ ret
  · rintro s e s' ⟨m, h, hopen, hatt⟩ ⟨hstep, hkeep⟩
    obtain ⟨m', hnext, h'⟩ := h.next hstep
    exact ⟨m', h', hnext.usable h hopen hatt hkeep⟩

/-- An established connection is closed by first announcing it. -/
theorem Rep.announced {s₁ : State} (h : Rep .opened s) (hstep : Step s e s₁)
    (hkeep : ¬ KeepsOpen s e) :
    s₁.phase = .connected ∧ s₁.uvserver = true ∧ s₁.stack = .onConnClosing :: s.stack := by
  have huv : s.uvserver = true := h.uvserver_eq
  obtain ⟨-, hs⟩ := hstep
  cases e with
  | user call =>
    cases call with
    | send => exact absurd trivial hkeep
    | disconnect =>
      obtain rfl := Option.some_inj.mp hs
      rw [uvxClientDisconnect, if_pos huv]
      exact ⟨h.phase_eq, huv, rfl⟩
    | shutdown =>
      obtain rfl := Option.some_inj.mp hs
      rw [uvxClientShutdown, uvxClientDisconnect, if_pos huv]
      exact ⟨h.phase_eq, huv, rfl⟩
  | read nread =>
    have hn : nread < 0 := Int.not_le.mp hkeep
    rw [handle, uvxOnClientRead, if_neg (Int.not_lt.mpr (Int.le_of_lt hn)), if_pos hn] at hs
    obtain rfl := Option.some_inj.mp hs
    exact ⟨h.phase_eq, huv, rfl⟩
  | connect | closed | heartbeat | returned => exact absurd trivial hkeep

/-- When `on_conn_closing` returns, the handle of an established connection is closed. -/
theorem close_of_returned {stack : List Callback} (hphase : s.phase = .connected)
    (hs : s.stack = .onConnClosing :: stack) (hret : Step s .returned s') :
    s'.phase = .closing ∧ s'.uvserver = s.uvserver := by
  obtain ⟨-, hret⟩ := hret
  rw [handle, hs] at hret
  obtain rfl := Option.some_inj.mp hret
  simp only [resume, uvClose]
  split
  · exact ⟨rfl, rfl⟩
  · next hno => exact absurd (Or.inr hphase) hno

/-- **`uvserver` stands for a usable connection** as long as no established connection is closed;
once one is closed it does not. -/
theorem uvserver_usable
    (hrun : Exec (Guarded Step KeepsOpen) (uvxClientConnect uv ip port ret).1 es s) :
    (s.uvserver = true → s.phase = .connected) ∧ (∀ att ∈ s.attempts, Sound att) ∧
      ∀ e s₁ s₂, Step s e s₁ → ¬ KeepsOpen s e → Step s₁ .returned s₂ →
        s₂.uvserver = true ∧ s₂.phase = .closing := by
  obtain ⟨m, h, hopen, hatt⟩ := exec_usable hrun
  have hopened : s.uvserver = true → m = .opened := fun huv =>
    hopen.eq_opened (h.uvserver_eq.symm.trans huv)
  refine ⟨?_, hatt.sound, ?_⟩
  · intro huv
    rw [h.phase_eq, hopened huv]
    rfl
  · intro e s₁ s₂ hstep hkeep hret
    have hm : m = .opened := by
      cases e with
      | user call =>
        cases call with
        | send => exact absurd trivial hkeep
        | disconnect | shutdown => exact hopened (by simpa [KeepsOpen] using hkeep)
      | read nread => exact h.reading hstep.1.2
      | connect | closed | heartbeat | returned => exact absurd trivial hkeep
    subst hm
    obtain ⟨hphase, huv, hs⟩ := h.announced hstep hkeep
    obtain ⟨hclosing, huv'⟩ := close_of_returned hphase hs hret
    exact ⟨huv'.trans huv, hclosing⟩

/-- A connection refused, and another one on which data comes and goes. -/
theorem uvserver_usable_second :
    ∃ s : State, s.attempts.length = 2 ∧ s.uvserver = true ∧ s.phase = .connected ∧
      ∀ att ∈ s.attempts, Sound att := by
  let es : List Event := [.connect (-111), .returned, .returned, .closed, .returned, .heartbeat 0,
    .connect 0, .user (.send 0), .returned, .read 5, .user (.send 0), .returned, .heartbeat 0,
    .returned]
  have hrun : ∃ s, runEvents KeepsOpen es (uvxClientConnect plainParser [] 80 0).1 = some s ∧
      s.attempts.length = 2 ∧ s.uvserver = true := by decide +kernel
  obtain ⟨s, hs, hlen, huv⟩ := hrun
  obtain ⟨hphase, hsound, -⟩ := uvserver_usable (exec_of_runEvents hs)
  exact ⟨s, hlen, huv, hphase huv, hsound⟩

/-- After `uvx_client_disconnect` the handle is closing with `uvserver` still set: `uv_close` is
called again, and data and a heartbeat go to the handle that is closing. -/
theorem not_usable :
    ∃ es s, Exec Step (uvxClientConnect plainParser [] 80 0).1 es s ∧ s.stack = [] ∧
      s.uvserver = true ∧ s.phase = .closing ∧ ∃ att ∈ s.attempts, closes att = 2 ∧
        ⟨.uvWrite, .closing⟩ ∈ att ∧ ⟨.callback (.onHeartbeat 0), .closing⟩ ∈ att := by
  let es : List Event := [.connect 0, .returned, .user .disconnect, .returned, .user (.send 0),
    .heartbeat 0, .returned, .user .disconnect, .returned]
  have hrun : ∃ s, runEvents (fun _ _ => True) es (uvxClientConnect plainParser [] 80 0).1 = some s ∧
      s.stack = [] ∧ s.uvserver = true ∧ s.phase = .closing ∧ ∃ att ∈ s.attempts, closes att = 2 ∧
        ⟨.uvWrite, .closing⟩ ∈ att ∧ ⟨.callback (.onHeartbeat 0), .closing⟩ ∈ att := by
    decide +kernel
  obtain ⟨s, hs, hrest⟩ := hrun
  exact ⟨es, s, (exec_of_runEvents hs).unguarded, hrest⟩

end Uvx.Client
