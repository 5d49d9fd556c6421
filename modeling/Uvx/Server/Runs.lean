import Uvx.Server.Step

/-!
# Runs from `uvx_server_start` on

A run without shutdown ends in a state of the abstract server after the same events (`exec_sim`). A
server shut down while it had no connection stays without (`Down.step`).
-/

namespace Uvx.Server

open LinkHash

variable {t : LhTable} {s s' : State} {a : Spec} {config : Config} {user : User} {es : List Event}
  {uv : Libuv} {now : UInt64} {ip : List UInt8} {port : ℤ} {ret : ℤ}

/-- Computed runs are runs. -/
theorem exec_of_runEvents {P : State → Event → Prop} [∀ s e, Decidable (P s e)]
    (h : runEvents config user P es s = some s') :
    Exec (Guarded (Step config user) P) s es s' := by
  induction es generalizing s with
  | nil => obtain rfl := Option.some_inj.mp h; exact .nil
  | cons e es ih =>
    rw [runEvents] at h
    split at h
    · next he =>
      cases hrun : handle config user e s with
      | ok r =>
        rw [hrun] at h
        exact .cons ⟨⟨he.1, hrun⟩, he.2⟩ (ih h)
      | error fault => rw [hrun] at h; exact absurd h (by simp)
    · exact absurd h (by simp)

/-- A server without connections. -/
def Spec.init (now : UInt64) : Spec := ⟨now, 0, [], none, []⟩

/-- The abstract server after the events `es`. -/
def Spec.run (config : Config) (now : UInt64) (es : List Event) : Spec :=
  es.foldl (Spec.step config) (.init now)

theorem Spec.run_append (config : Config) (now : UInt64) (es : List Event) (e : Event) :
    Spec.run config now (es ++ [e]) = (Spec.run config now es).step config e := by
  rw [Spec.run, List.foldl_append]; rfl

theorem Spec.loose_step (config : Config) (a : Spec) (e : Event) :
    (a.step config e).loose = a.loose := by
  cases e with
  | connection status conn accepted => rw [step]; split <;> rfl
  | read conn nread =>
    rw [step]
    split
    · rfl
    · split <;> rfl
  | closed conn => rfl
  | heartbeat => rw [step]; split <;> rfl
  | advance now => rfl
  | user call => rfl

theorem Spec.loose_run (config : Config) (now : UInt64) (es : List Event) :
    (Spec.run config now es).loose = none := by
  induction es using List.reverseRecOn with
  | nil => rfl
  | append_singleton es e ih => rw [Spec.run_append, Spec.loose_step, ih]

/-- `uvx_server_start` makes a table of the configured size. -/
theorem start_sim {s₀ : State} (h : uvxServerStart uv now ip port config = .ok (s₀, ret)) :
    ∃ t, Sim t s₀ (.init now) ∧ (t.size : ℤ) = config.connCount.toInt := by
  unfold uvxServerStart lhKptrTableNew at h
  rcases Int.lt_or_le config.connCount.toInt 0 with hneg | hpos
  · rw [lhTableNew, if_pos hneg] at h
    exact absurd h (by simp [bind, Except.bind, Except.mapError, throw, throwThe, MonadExceptOf.throw])
  · obtain ⟨t, ht, hholds, hsize, -⟩ :=
      lhTableNew_spec hpos (by have := config.connCount.toInt_lt; omega) lhPtrHash
    rw [ht] at h
    obtain ⟨rfl, -⟩ := Prod.mk.inj (Except.ok.inj h)
    refine ⟨t, ⟨?_, rfl, hholds⟩, by rw [hsize]; omega⟩
    have hall : (Spec.init now).all = [] := rfl
    exact ⟨rfl, rfl, List.nodup_nil, List.nodup_nil,
      fun _ hl => absurd (hall ▸ hl) List.not_mem_nil, fun _ hn => absurd hn (Nat.not_lt_zero _),
      fun _ _ => rfl,
      fun _ hl => absurd hl List.not_mem_nil, fun _ hl => absurd hl List.not_mem_nil,
      fun p _ => ⟨rfl, Or.inl ⟨rfl, rfl⟩⟩⟩

/-- A run in which the server is not shut down. -/
structure NoShutdown (user : User) (es : List Event) : Prop where
  events : Event.user .shutdown ∉ es
  calls : ¬ user.Shuts

theorem NoShutdown.forall_ne (h : NoShutdown user es) : ∀ e ∈ es, e ≠ .user .shutdown :=
  fun _ he hne => h.events (hne ▸ he)

theorem clearShutdown_of_not_shuts (config : Config) (h : ¬ user.Shuts) : ClearShutdown config user :=
  fun s _ cb _ hcall => absurd ⟨s, cb, hcall⟩ h

/-- A step that does not shut the server down. -/
theorem Sim.step (h : Sim t s a) (hloose : a.loose = none) (hu : ¬ user.Shuts) {e : Event}
    (he : e ≠ .user .shutdown) (hstep : Step config user s e s') :
    ∃ t', t.size ≤ t'.size ∧ Sim t' s' (a.step config e) :=
  ((h.handle_spec hloose (clearShutdown_of_not_shuts config hu) hstep.1 fun hc => absurd hc he).ok
    hstep.2).resolve_right fun hd => hd.2.elim he hu

/-- A handler ends as long as the table has a cell and can be doubled. -/
theorem Sim.exists_ok (h : Sim t s a) (hloose : a.loose = none) (hu : ¬ user.Shuts)
    (hpos : 1 ≤ t.size) (hlt : t.size < 2 ^ 30) {e : Event} (he : Enabled s e)
    (hne : e ≠ .user .shutdown) : ∃ s', handle config user e s = .ok ((), s') := by
  obtain ⟨_, s', hs', -⟩ := (h.handle_spec hloose (clearShutdown_of_not_shuts config hu) he
    fun hc => absurd hc hne).exists_ok fun fault hf => by
      rcases hf with ⟨hz, -⟩ | ⟨hbig, -⟩ <;> omega
  exact ⟨s', hs'⟩

/-- **A run** without shutdown leads where the abstract server goes. -/
theorem exec_sim {s₀ : State} (hstart : uvxServerStart uv now ip port config = .ok (s₀, ret))
    (hns : NoShutdown user es) (hrun : Exec (Step config user) s₀ es s) :
    ∃ t, Sim t s (.run config now es) ∧ config.connCount.toInt ≤ t.size := by
  obtain ⟨t₀, h₀, hsize₀⟩ := start_sim hstart
  refine hrun.invariant_of_forall
    (I := fun es s => ∃ t, Sim t s (.run config now es) ∧ config.connCount.toInt ≤ t.size)
    hns.forall_ne ⟨t₀, h₀, hsize₀.ge⟩ ?_
  rintro es s e s' ⟨t, h, hsize⟩ he hstep
  obtain ⟨t', hsize', h'⟩ := h.step (Spec.loose_run ..) hns.calls he hstep
  exact ⟨t', Spec.run_append .. ▸ h', by omega⟩

/-- What holds of the events of a run, by induction on the run. -/
theorem exec_induction {s₀ : State} {step : State → Event → State → Prop} {I : List Event → Prop}
    (hstart : uvxServerStart uv now ip port config = .ok (s₀, ret)) (hns : NoShutdown user es)
    (hrun : Exec step s₀ es s) (hsub : ∀ s e s', step s e s' → Step config user s e s')
    (h₀ : I []) (hstep : ∀ es t s e s', Sim t s (.run config now es) → I es → step s e s' →
      I (es ++ [e])) : I es := by
  induction hrun with
  | nil => exact h₀
  | snoc hrun ha ih =>
    have hns' : NoShutdown user _ := ⟨fun hmem => hns.events (List.mem_append_left _ hmem), hns.calls⟩
    obtain ⟨t, h, -⟩ := exec_sim hstart hns' (hrun.mono hsub)
    exact hstep _ t _ _ _ h (ih hns') ha

/-- **After the shutdown** of a server without connections there are none, and no handler runs but
for reference calls. -/
theorem Down.step (h : Down s a) {e : Event} (he : Enabled s e) (E : Fault → Prop) :
    Wp (handle config user e) E (fun _ s' => ∃ a', Down s' a') s := by
  have hunused : ∀ p, s.handle p = .unused := fun p =>
    (h.tracks.foreign p (by rw [h.owned]; simp)).handle_eq
  cases e with
  | connection => exact absurd (h.listening.symm.trans he.1) (by simp)
  | read conn => exact absurd ((hunused conn).symm.trans he) (by simp)
  | closed conn => exact absurd ((hunused conn).symm.trans he) (by simp)
  | heartbeat => exact absurd (h.timer.symm.trans he) (by simp)
  | advance now =>
    exact Wp.modify ⟨{ a with now := now }, h.tracks.frame rfl rfl rfl rfl rfl rfl, h.owned,
      h.conns, h.timer, h.listening⟩
  | user call => exact (h.userCall call).mono fun _ _ h' => ⟨a, h'⟩

/-! ## Computed runs -/

/-- A libuv whose calls succeed. -/
def plainLibuv : Libuv where
  toAddrParser := Net.plainParser
  tcpBind _ := 0
  listen _ _ := 0

/-- User code that makes no calls. -/
def quietUser : User where
  calls _ _ := []
  threads _ := []

/-- The default times, with a table of two cells. -/
def smallConfig : Config where
  connCount := 2
  connBacklog := 128
  timeoutOn := true
  connTimeout := 180000
  heartbeatInterval := 60000
  connExtraSize := 0
  connExtraSize_nonneg := Config.noExtra

/-- The state after the events from `uvx_server_start` on. -/
def runFrom (config : Config) (user : User) (P : State → Event → Prop)
    [∀ s e, Decidable (P s e)] (es : List Event) : Option State :=
  match uvxServerStart plainLibuv 0 [] 0 config with
  | .ok (s, _) => runEvents config user P es s
  | .error _ => none

theorem exec_of_runFrom {P : State → Event → Prop} [∀ s e, Decidable (P s e)]
    (h : runFrom config user P es = some s) :
    ∃ s₀ ret, uvxServerStart plainLibuv 0 [] 0 config = .ok (s₀, ret) ∧
      Exec (Guarded (Step config user) P) s₀ es s := by
  unfold runFrom at h
  cases hstart : uvxServerStart plainLibuv 0 [] 0 config with
  | ok r =>
    rw [hstart] at h
    exact ⟨r.1, r.2, rfl, exec_of_runEvents h⟩
  | error fault =>
    rw [hstart] at h
    exact absurd h (by simp)

/-- What has stopped a handler. -/
def faultOf (r : Except Fault (Unit × State)) : Option Fault :=
  match r with
  | .ok _ => none
  | .error fault => some fault

theorem faultOf_eq_some {r : Except Fault (Unit × State)} {fault : Fault} :
    faultOf r = some fault ↔ r = .error fault := by
  cases r with
  | ok r => simp [faultOf]
  | error fault' => simp [faultOf]

theorem noShutdown_quietUser (h : Event.user .shutdown ∉ es) : NoShutdown quietUser es :=
  ⟨h, fun ⟨_, _, hcall⟩ => absurd hcall List.not_mem_nil⟩

end Uvx.Server
