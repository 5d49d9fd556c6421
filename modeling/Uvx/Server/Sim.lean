import Uvx.Server.Tracks

/-!
# The server follows its list of connections

`Sim t s a`: the state `s` is that of the abstract server `a`, and the keys of its table `t` are the
connections of `a` in their order. Each operation of the handlers on a connection is followed
by a change of the same connection in `a`. User code may shut the server down where this is clear
(`ClearShutdown`), which leaves a state without connections (`Down`).
-/

namespace Uvx.Server

open LinkHash

/-- The state `s` with the table `t` is that of `a`. -/
structure Sim (t : LhTable) (s : State) (a : Spec) : Prop where
  tracks : Tracks s a
  conns : s.conns = some t
  holds : Holds t (a.links.map Link.ptr)

/-- The server has been shut down and has no connections. -/
structure Down (s : State) (a : Spec) : Prop where
  tracks : Tracks s a
  owned : a.owned = []
  conns : s.conns = none
  timer : s.timer = false
  listening : s.listening = false

/-- The faults of a table of size `n` that cannot be used or doubled. -/
def Excused (n : ℕ) (fault : Fault) : Prop :=
  (n = 0 ∧ fault = .table .divByZero) ∨ (2 ^ 30 ≤ n ∧ fault = .table .abort)

/-- The heartbeat handler goes on with the sweep. -/
def Config.sweeps (config : Config) : Prop :=
  config.timeoutOn = true ∧ 0 < config.connTimeout

/-- User code shuts the server down only while it has no connection, and from `on_heartbeat` only
when no sweep follows. -/
def ClearShutdown (config : Config) (user : User) : Prop :=
  ∀ s t cb, s.conns = some t → .shutdown ∈ user.calls s cb →
    t.count = 0 ∧ ∀ index, cb = .onHeartbeat index → ¬ config.sweeps

/-- User code that shuts the server down in some callback. -/
def User.Shuts (user : User) : Prop :=
  ∃ s cb, .shutdown ∈ user.calls s cb

variable {t : LhTable} {s s' : State} {a : Spec} {l : Link} {config : Config} {user : User}
  {E : Fault → Prop}

theorem Sim.of_tracks (h : Sim t s a) (h' : Tracks s' a) (hsame : SameBut s s') : Sim t s' a :=
  ⟨h', hsame.conns_eq.trans h.conns, h.holds⟩

theorem Down.of_tracks (h : Down s a) (h' : Tracks s' a) (hsame : SameBut s s') : Down s' a :=
  ⟨h', h.owned, hsame.conns_eq.trans h.conns, hsame.timer_eq.trans h.timer,
    hsame.listening_eq.trans h.listening⟩

/-! ## User code -/

theorem userCall_shutdown_eq_of_none (h : s.conns = none) :
    userCall .shutdown s = .ok ((), s) := by
  simp [userCall, h, run_bind, run_get, run_pure, Except.bind]

theorem userCall_shutdown_eq_of_some {t : LhTable} (h : s.conns = some t) :
    userCall .shutdown s = .ok ((), { s with
      timer := false, conns := none, listening := false, bound := none }) := by
  simp [userCall, uvxServerShutdown, conns, h, run_bind, run_get, run_modify, run_pure, Except.bind]

/-- Calls other than a shutdown. -/
theorem Sim.userCall (h : Sim t s a) {call : UserCall} (hcall : call ≠ .shutdown) :
    Wp (userCall call) E (fun _ s' => Sim t s' a) s := by
  cases call with
  | connRef conn up =>
    exact (userRef_spec h.tracks conn up E).mono fun _ s' ⟨h', hsame⟩ => h.of_tracks h' hsame
  | shutdown => exact absurd rfl hcall

theorem Down.userCall (h : Down s a) (call : UserCall) :
    Wp (userCall call) E (fun _ s' => Down s' a) s := by
  cases call with
  | connRef conn up =>
    exact (userRef_spec h.tracks conn up E).mono fun _ s' ⟨h', hsame⟩ => h.of_tracks h' hsame
  | shutdown => exact Wp.of_ok (userCall_shutdown_eq_of_none h.conns) h

/-- Shutting down without connections. -/
theorem Sim.shutdown (h : Sim t s a) (howned : a.owned = []) :
    Wp (Server.userCall .shutdown) E (fun _ s' => Down s' a) s := by
  exact Wp.of_ok (userCall_shutdown_eq_of_some h.conns)
    ⟨h.tracks.frame h.tracks.now_eq rfl rfl rfl rfl rfl, howned, rfl, rfl, rfl⟩

/-- User code runs once more. -/
theorem Sim.turn (h : Sim t s a) : Sim t { s with turn := s.turn + 1 } a := by
  exact h.of_tracks (h.tracks.frame h.tracks.now_eq rfl rfl rfl rfl rfl) ⟨rfl, rfl, rfl⟩

/-- Callbacks about connections do not shut the server down. -/
theorem Sim.callback_conn (h : Sim t s a) (hu : ClearShutdown config user) (hlinks : a.links ≠ [])
    (cb : ConnCallback) (conn : Ptr) :
    Wp (callback user (.conn cb conn)) E (fun _ s' => Sim t s' a) s := by
  unfold callback
  refine Wp.bind (Wp.modify (Wp.bind (Wp.get ?_)))
  refine Wp.forM (fun call hcall s' hs' => hs'.userCall ?_) h.turn
  rintro rfl
  have hcount := (hu _ t _ h.turn.conns hcall).1
  rw [h.holds.count_eq, List.length_map] at hcount
  exact hlinks (List.length_eq_zero_iff.mp (by omega))

/-- The heartbeat callback may. -/
theorem Sim.callback_heartbeat (h : Sim t s a) (hu : ClearShutdown config user)
    (hloose : a.loose = none) (index : UInt32) :
    Wp (callback user (.onHeartbeat index)) E
      (fun _ s' => Sim t s' a ∨ (Down s' a ∧ ¬ config.sweeps ∧ user.Shuts)) s := by
  unfold callback
  refine Wp.bind (Wp.modify (Wp.bind (Wp.get ?_)))
  by_cases hcall : .shutdown ∈ user.calls { s with turn := s.turn + 1 } (.onHeartbeat index)
  · -- a shutdown is among the calls, so the table is empty
    obtain ⟨hcount, hsweep⟩ := hu _ t _ h.turn.conns hcall
    rw [h.holds.count_eq, List.length_map] at hcount
    have howned : a.owned = [] := by
      rw [Spec.owned, hloose, List.length_eq_zero_iff.mp (show a.links.length = 0 by omega)]; rfl
    refine (Wp.forM (I := fun s' => Sim t s' a ∨ Down s' a) (fun call _ s' hs' => ?_)
      (Or.inl h.turn)).mono fun _ s' hs' => hs'.imp_right fun hd => ⟨hd, hsweep index rfl, _, _, hcall⟩
    rcases hs' with hs' | hs'
    · by_cases hsd : call = .shutdown
      · rw [hsd]
        exact (hs'.shutdown howned).mono fun _ _ hd => Or.inr hd
      · exact (hs'.userCall hsd).mono fun _ _ hs => Or.inl hs
    · exact (hs'.userCall call).mono fun _ _ hd => Or.inr hd
  · refine (Wp.forM (I := fun s' => Sim t s' a) (fun call hc s' hs' => hs'.userCall ?_)
      h.turn).mono fun _ s' hs' => Or.inl hs'
    rintro rfl
    exact hcall hc

/-! ## Operations on a connection in the table -/

/-- The abstract server `a` with the connection `l` at its place. -/
def Spec.put (a : Spec) (xs : List Link) (l : Link) (ys : List Link) : Spec :=
  { a with links := xs ++ l :: ys, loose := none }

variable {xs ys : List Link}

theorem Spec.owned_put (a : Spec) (xs : List Link) (l : Link) (ys : List Link) :
    (a.put xs l ys).owned = xs ++ l :: ys :=
  List.append_nil _

theorem Spec.mem_put : l ∈ (a.put xs l ys).owned := by
  simp [Spec.owned_put]

theorem Sim.touch (h : Sim t s a) (hl : l ∈ a.owned) :
    Wp (touch user l.ptr) E (fun c s' => Sim t s' a ∧ s'.heap l.ptr = some c ∧
      c.lastCommTime = l.time ∧ c.serial = l.serial ∧ c.refcount = s'.held l.ptr + 1) s :=
  (touch_spec user h.tracks hl E).mono fun _ _ ⟨h', hsame, hc⟩ => ⟨h.of_tracks h' hsame, hc⟩

/-- One connection changes, and the table stays as it is. -/
theorem Sim.change (h : Sim t s (a.put xs l ys)) {l' : Link} (hptr : l'.ptr = l.ptr)
    (hserial : l'.serial = l.serial) (hnow : s'.now = s.now) (hacc : s'.accepted = s.accepted)
    (hconns : s'.conns = s.conns) (hl' : Owns s' l')
    (hat : ∀ p, p ≠ l.ptr → s'.handle p = s.handle p ∧ s'.heap p = s.heap p ∧ s'.held p = s.held p)
    (htrace : ∀ n, n ≠ l.serial → s'.trace n = s.trace n) : Sim t s' (a.put xs l' ys) := by
  refine ⟨h.tracks.change (Spec.owned_put ..) (Spec.owned_put ..) rfl rfl rfl hptr hserial hnow hacc
    hl' hat htrace, hconns.trans h.conns, ?_⟩
  have hkeys : (a.put xs l' ys).links.map Link.ptr = (a.put xs l ys).links.map Link.ptr := by
    simp [Spec.put, hptr]
  rw [hkeys]
  exact h.holds

theorem Sim.record (h : Sim t s (a.put xs l ys)) (act : Action) :
    Wp (record l.serial act) E (fun _ s' => Sim t s' (a.put xs (l.noted [act]) ys)) s := by
  refine Wp.modify ?_
  have hl := h.tracks.owns l Spec.mem_put
  refine h.change rfl rfl rfl rfl rfl ⟨hl.isKey, hl.handle_eq, ?_, hl.conn⟩
    (fun p _ => ⟨rfl, rfl, rfl⟩) fun n hn => Function.update_of_ne hn _ _
  simp only [Link.noted, Function.update_self, hl.trace_eq]

theorem Sim.setHandle (h : Sim t s (a.put xs l ys)) (hd : Handle) :
    Sim t { s with handle := Function.update s.handle l.ptr hd }
      (a.put xs { l with handle := hd } ys) := by
  have hl := h.tracks.owns l Spec.mem_put
  exact h.change rfl rfl rfl rfl rfl ⟨hl.isKey, Function.update_self .., hl.trace_eq, hl.conn⟩
    (fun p hp => ⟨Function.update_of_ne hp _ _, rfl, rfl⟩) fun _ _ => rfl

theorem Sim.setLastCommTime (h : Sim t s (a.put xs l ys)) (time : UInt64) :
    Wp (setLastCommTime user l.ptr time) E
      (fun _ s' => Sim t s' (a.put xs { l with time := time } ys)) s := by
  unfold Server.setLastCommTime
  refine Wp.seq (h.touch Spec.mem_put) fun c s₁ ⟨h₁, hc, _, hserial, href⟩ => Wp.modify ?_
  have hl := h₁.tracks.owns l Spec.mem_put
  refine h₁.change rfl rfl rfl rfl rfl
    ⟨hl.isKey, hl.handle_eq, hl.trace_eq, ?_⟩
    (fun p hp => ⟨rfl, Function.update_of_ne hp _ _, rfl⟩) fun _ _ => rfl
  exact ⟨_, Function.update_self .., rfl, hserial, href⟩

theorem Sim.uvReadStart (h : Sim t s (a.put xs l ys)) (hidle : l.handle = .idle) :
    Wp (uvReadStart user l.ptr) E
      (fun _ s' => Sim t s' (a.put xs { l with handle := .reading } ys)) s := by
  unfold Server.uvReadStart
  refine Wp.seq (h.touch Spec.mem_put) fun c s₁ ⟨h₁, _⟩ => Wp.modify ?_
  rw [if_pos ((h₁.tracks.owns l Spec.mem_put).handle_eq.trans hidle)]
  exact h₁.setHandle .reading

theorem Sim.uvReadStop (h : Sim t s (a.put xs l ys)) :
    Wp (uvReadStop user l.ptr) E (fun _ s' => ∃ hd,
      Sim t s' (a.put xs { l with handle := hd } ys)) s := by
  unfold Server.uvReadStop
  refine Wp.seq (h.touch Spec.mem_put) fun c s₁ ⟨h₁, _⟩ => Wp.modify ?_
  split
  · exact ⟨.idle, h₁.setHandle .idle⟩
  · exact ⟨l.handle, h₁⟩

theorem Sim.notify (h : Sim t s (a.put xs l ys)) (hu : ClearShutdown config user)
    (cb : ConnCallback) :
    Wp (notify user cb l.ptr) E
      (fun _ s' => Sim t s' (a.put xs (l.noted [.callback cb]) ys)) s := by
  unfold Server.notify
  apply Wp.seq (h.touch Spec.mem_put)
  rintro c s₁ ⟨h₁, _, _, hserial, _⟩
  rw [hserial]
  exact Wp.seq (h₁.record _) fun _ s₂ h₂ => h₂.callback_conn hu (by simp [Spec.put]) cb l.ptr

theorem Sim.uvClose (h : Sim t s (a.put xs l ys)) :
    Wp (uvClose user l.ptr) E (fun _ s' =>
      Sim t s' (a.put xs { l.noted [.uvClose] with handle := .closing } ys)) s := by
  unfold Server.uvClose
  apply Wp.seq (h.touch Spec.mem_put)
  rintro c s₁ ⟨h₁, _, _, hserial, _⟩
  rw [hserial]
  exact Wp.seq (h₁.record _) fun _ s₂ h₂ => Wp.modify (h₂.setHandle .closing)

/-- **Disconnecting** one connection. -/
theorem Sim.disconnect (h : Sim t s (a.put xs l ys)) (hu : ClearShutdown config user) :
    Wp (uvDisconnectClient user l.ptr) E
      (fun _ s' => Sim t s' (a.put xs l.disconnected ys)) s := by
  unfold uvDisconnectClient
  apply Wp.seq h.uvReadStop
  rintro _ s₁ ⟨hd, h₁⟩
  apply Wp.seq (h₁.notify hu .onConnClosing)
  intro _ s₂ h₂
  refine h₂.uvClose.mono ?_
  intro _ s₃ h₃
  simpa [Link.disconnected, Link.noted] using h₃

end Uvx.Server
