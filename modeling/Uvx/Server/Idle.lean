import Uvx.Server.Sweep

/-!
# When a silent peer is disconnected

What the times of the server come to for its peers. The events of a run tell when each peer was last
heard from and when the server last swept (`clock`). The server closes an open connection exactly on a
read error, or in a sweep that comes more than the timeout after the peer was last heard from; no peer of
an open connection is silent for longer than the timeout and the time since the last sweep, or since the
start of the server before the first one (`idle_connections`). Sweeps may close a connection that is
closing already, which has no effect on the open ones.
-/

namespace Uvx.Server

open LinkHash

variable {t : LhTable} {s s' : State} {a : Spec} {l m : Link} {config : Config} {user : User}
  {es : List Event} {uv : Libuv} {now : UInt64} {ip : List UInt8} {port : ℤ} {ret : ℤ} {e : Event}

/-- What the events tell: the time, when there was news of the connection at each address, and when
the timer last ran. -/
structure Clock where
  now : UInt64
  heardAt : Ptr → UInt64
  sweptAt : UInt64

def Clock.tick (c : Clock) : Event → Clock
  | .connection status conn _ =>
    if status = 0 then { c with heardAt := Function.update c.heardAt conn c.now } else c
  | .read conn nread =>
    if 0 < nread then { c with heardAt := Function.update c.heardAt conn c.now } else c
  | .heartbeat => { c with sweptAt := c.now }
  | .advance now => { c with now := now }
  | _ => c

/-- The clock after the events, from a start at `now`. -/
def clock (now : UInt64) (es : List Event) : Clock := es.foldl Clock.tick ⟨now, fun _ => now, now⟩

theorem clock_append (now : UInt64) (es : List Event) (e : Event) :
    clock now (es ++ [e]) = (clock now es).tick e := List.foldl_concat ..

variable {c : Clock}

/-! ## The times of the connections -/

/-- The open connections have the times at which there was news of them. -/
structure Spec.Heard (a : Spec) (c : Clock) : Prop where
  now_eq : c.now = a.now
  time_eq : ∀ l ∈ a.links, l.handle ≠ .closing → l.time = c.heardAt l.ptr

theorem Spec.Heard.of_closed (h : a.Heard c) {links : List Link}
    (hmem : ∀ m ∈ links, m ∈ a.links ∨ ∃ l ∈ a.links, m = l.disconnected) :
    Spec.Heard { a with links := links } c := by
  refine ⟨h.now_eq, fun m hm hopen => ?_⟩
  rcases hmem m hm with hm | ⟨l, -, rfl⟩
  · exact h.time_eq m hm hopen
  · exact absurd rfl hopen

/-- There is news of a connection that goes to the end of the list. -/
theorem Spec.Heard.push (h : a.Heard c) {links : List Link} {conn : Ptr} {accepted : ℕ}
    (hsub : links ⊆ a.links) (hne : ∀ l ∈ links, l.ptr ≠ conn) (hptr : m.ptr = conn)
    (htime : m.handle ≠ .closing → m.time = a.now) :
    Spec.Heard { a with accepted := accepted, links := links ++ [m] }
      { c with heardAt := Function.update c.heardAt conn c.now } := by
  refine ⟨h.now_eq, fun l hl hopen => ?_⟩
  rcases List.mem_append.mp hl with hl | hl
  · show l.time = Function.update c.heardAt conn c.now l.ptr
    rw [Function.update_of_ne (hne l hl)]
    exact h.time_eq l (hsub hl) hopen
  · obtain rfl := List.mem_singleton.mp hl
    show l.time = Function.update c.heardAt conn c.now l.ptr
    rw [hptr, Function.update_self, htime hopen, h.now_eq]

/-- A new connection gets memory that no connection in the table has. -/
theorem Sim.ptr_ne (h : Sim t s a) (hl : l ∈ a.links) {conn : Ptr} (hfree : s.heap conn = none) :
    l.ptr ≠ conn := by
  rintro rfl
  obtain ⟨c, hc, -⟩ := (h.tracks.owns l (List.mem_append_left _ hl)).conn
  rw [hfree] at hc
  cases hc

theorem ptr_ne_of_mem_without {conn : Ptr} {links : List Link} (hl : l ∈ Spec.without conn links) :
    l.ptr ≠ conn := by
  simpa using (List.mem_filter.mp hl).2

theorem Sim.heard_step (h : Sim t s a) (hloose : a.loose = none) (ha : a.Heard c)
    (he : Enabled s e) : (a.step config e).Heard (c.tick e) := by
  cases e with
  | connection status conn accepted =>
    rw [Spec.step, Clock.tick]
    split
    · refine ha.push (List.Subset.refl _) (fun l hl => h.ptr_ne hl he.2.1) ?_ fun hopen => ?_
      · rw [Link.accept]
        split <;> rfl
      · rw [Link.accept] at hopen ⊢
        split
        · rfl
        · next hfail =>
          rw [if_neg hfail] at hopen
          exact absurd rfl hopen
    · exact ha
  | read conn nread =>
    obtain ⟨xs, l, ys, -, hl, rfl, -, hfind, -⟩ := h.exists_put hloose he (by simp)
    rw [Spec.step, Clock.tick, hfind]
    split
    · exact ha.push (List.filter_subset_self _) (fun m hm => ptr_ne_of_mem_without hm) rfl
        fun _ => rfl
    · split
      · exact ha.of_closed fun m hm => Spec.mem_change hm
      · exact ha
  | closed conn =>
    exact ⟨ha.now_eq, fun m hm => ha.time_eq m (List.mem_of_mem_filter hm)⟩
  | heartbeat =>
    have hswept : a.Heard (c.tick .heartbeat) := ⟨ha.now_eq, ha.time_eq⟩
    rw [Spec.step]
    split
    · exact hswept.of_closed fun m hm => Spec.mem_sweep hm
    · exact hswept
  | advance now => exact ⟨rfl, ha.time_eq⟩
  | user call => exact ha

/-! ## Who is closed -/

/-- The event closes the open connection `l`. -/
def Closes (config : Config) (a : Spec) (l : Link) : Event → Prop
  | .read conn nread => conn = l.ptr ∧ nread < 0
  | .heartbeat => config.sweeps ∧ expired config a.now l.time = true
  | _ => False

/-- Links are told apart by their pointers. -/
theorem Sim.nodup_links (h : Sim t s a) (hloose : a.loose = none) : a.links.Nodup := by
  have hptrs := h.tracks.ptrs
  rw [Spec.owned, hloose, Option.toList_none, List.append_nil] at hptrs
  exact hptrs.of_map _

/-- The others stay in the table, as they are. -/
theorem Sim.stays (h : Sim t s a) (hloose : a.loose = none) (hl : l ∈ a.links)
    (hopen : l.handle ≠ .closing) (he : Enabled s e) (hnot : ¬ Closes config a l e) :
    ∃ m ∈ (a.step config e).links, m.ptr = l.ptr ∧ m.handle = l.handle := by
  cases e with
  | connection status conn accepted =>
    rw [Spec.step]
    split
    · exact ⟨l, List.mem_append_left _ hl, rfl, rfl⟩
    · exact ⟨l, hl, rfl, rfl⟩
  | read conn nread =>
    obtain ⟨xs, k, ys, ha, -, rfl, -, hfind, hwithout, hchange⟩ := h.exists_put hloose he (by simp)
    rw [Spec.step, hfind, hwithout, hchange]
    have hlinks : a.links = xs ++ k :: ys := by rw [ha]; rfl
    rw [hlinks, List.mem_append, List.mem_cons] at hl
    split
    · -- the connection that is read goes to the end
      rcases hl with hl | rfl | hl
      · exact ⟨l, by simp [hl], rfl, rfl⟩
      · exact ⟨l.received a.now, by simp, rfl, rfl⟩
      · exact ⟨l, by simp [hl], rfl, rfl⟩
    · split
      · next hneg =>
        rcases hl with hl | rfl | hl
        · exact ⟨l, by simp [hl], rfl, rfl⟩
        · exact absurd ⟨rfl, hneg⟩ hnot
        · exact ⟨l, by simp [hl], rfl, rfl⟩
      · exact ⟨l, by rw [hlinks]; simpa using hl, rfl, rfl⟩
  | closed conn =>
    refine ⟨l, List.mem_filter.mpr ⟨hl, ?_⟩, rfl, rfl⟩
    have hhandle := (h.tracks.owns l (List.mem_append_left _ hl)).handle_eq
    rw [decide_eq_true_iff]
    rintro rfl
    exact hopen (hhandle.symm.trans he)
  | heartbeat =>
    rw [Spec.step]
    split
    · next hon =>
      rw [Spec.sweep_eq]
      exact ⟨l, List.mem_append_right _ (mem_dropWhile hl fun hexp => hnot ⟨hon, hexp⟩), rfl, rfl⟩
    · exact ⟨l, hl, rfl, rfl⟩
  | advance now => exact ⟨l, hl, rfl, rfl⟩
  | user call => exact ⟨l, hl, rfl, rfl⟩

/-- The connection that the event closes. -/
theorem Spec.Timely.closes (ha : a.Timely) (hl : l ∈ a.links) (hopen : l.handle ≠ .closing)
    (hcloses : Closes config a l e) :
    l.disconnected ∈ (a.step config e).links := by
  cases e with
  | read conn nread =>
    obtain ⟨rfl, hneg⟩ := hcloses
    rw [Spec.step, if_neg (by omega), if_pos hneg]
    exact List.mem_map.mpr ⟨l, hl, if_pos rfl⟩
  | heartbeat =>
    obtain ⟨hon, hexp⟩ := hcloses
    have hsweeps : config.timeoutOn = true ∧ 0 < config.connTimeout := hon
    rw [Spec.step, if_pos hsweeps, Spec.sweep_eq]
    exact List.mem_append_left _ (List.mem_map_of_mem (ha.mem_takeWhile hl hopen hexp))
  | connection => cases hcloses
  | closed => cases hcloses
  | advance => cases hcloses
  | user => cases hcloses

/-! ## How long a connection is silent -/

/-- A connection that a sweep leaves open is not expired. -/
theorem Spec.Timely.not_expired (ha : a.Timely) (hnodup : a.links.Nodup)
    (hm : m ∈ sweep (fun l => expired config a.now l.time) a.links) (hopen : m.handle ≠ .closing) :
    m ∈ a.links ∧ ¬ expired config a.now m.time = true := by
  rw [Spec.sweep_eq, List.mem_append] at hm
  have hdrop : m ∈ a.links.dropWhile fun l => expired config a.now l.time := by
    refine hm.resolve_left fun htake => ?_
    obtain ⟨l, -, rfl⟩ := List.mem_map.mp htake
    exact hopen rfl
  have hmem : m ∈ a.links := (List.dropWhile_sublist _).subset hdrop
  refine ⟨hmem, fun hexp => ?_⟩
  have htake := ha.mem_takeWhile hmem hopen hexp
  rw [← List.takeWhile_append_dropWhile (p := fun l => expired config a.now l.time) (l := a.links)]
    at hnodup
  exact (List.nodup_append.mp hnodup).2.2 _ htake _ hdrop rfl

/-- At the last sweep no connection that is open was silent for longer than the timeout. -/
structure Spec.Swept (config : Config) (a : Spec) (c : Clock) : Prop where
  swept_le : c.sweptAt ≤ a.now
  time_ge : ∀ l ∈ a.links, l.handle ≠ .closing →
    (c.sweptAt.toNat : ℤ) ≤ l.time.toNat + config.connTimeout

/-- There is news of a connection that goes to the end of the list. -/
theorem Spec.Swept.push (h : a.Swept config c) (hpos : 0 < config.connTimeout) {links : List Link}
    {accepted : ℕ} {heardAt : Ptr → UInt64} (hsub : links ⊆ a.links)
    (htime : m.handle ≠ .closing → m.time = a.now) :
    Spec.Swept config { a with accepted := accepted, links := links ++ [m] }
      { c with heardAt := heardAt } := by
  refine ⟨h.swept_le, fun l hl hopen => ?_⟩
  rcases List.mem_append.mp hl with hl | hl
  · exact h.time_ge l (hsub hl) hopen
  · obtain rfl := List.mem_singleton.mp hl
    have hle := UInt64.le_iff_toNat_le.mp h.swept_le
    rw [htime hopen]
    dsimp only
    omega

theorem Spec.Swept.of_closed (h : a.Swept config c) {links : List Link}
    (hmem : ∀ m ∈ links, m ∈ a.links ∨ ∃ l ∈ a.links, m = l.disconnected) :
    Spec.Swept config { a with links := links } c := by
  refine ⟨h.swept_le, fun m hm hopen => ?_⟩
  rcases hmem m hm with hm | ⟨l, -, rfl⟩
  · exact h.time_ge m hm hopen
  · exact absurd rfl hopen

theorem Sim.swept_step (h : Sim t s a) (hloose : a.loose = none) (hon : config.timeoutOn = true)
    (hpos : 0 < config.connTimeout) (htimely : a.Timely) (hnow : c.now = a.now)
    (ha : a.Swept config c) (he : Enabled s e) : (a.step config e).Swept config (c.tick e) := by
  cases e with
  | connection status conn accepted =>
    rw [Spec.step, Clock.tick]
    split
    · refine ha.push hpos (List.Subset.refl _) fun hopen => ?_
      rw [Link.accept] at hopen ⊢
      split
      · rfl
      · next hfail =>
        rw [if_neg hfail] at hopen
        exact absurd rfl hopen
    · exact ha
  | read conn nread =>
    obtain ⟨xs, l, ys, -, hl, rfl, -, hfind, -⟩ := h.exists_put hloose he (by simp)
    rw [Spec.step, Clock.tick, hfind]
    split
    · exact ha.push hpos (List.filter_subset_self _) fun _ => rfl
    · split
      · exact ha.of_closed fun m hm => Spec.mem_change hm
      · exact ha
  | closed conn =>
    exact ⟨ha.swept_le, fun m hm => ha.time_ge m (List.mem_of_mem_filter hm)⟩
  | heartbeat =>
    rw [Spec.step, if_pos ⟨hon, hpos⟩]
    refine ⟨?_, fun m hm hopen => ?_⟩
    · show c.now ≤ a.now
      rw [hnow]
      exact UInt64.le_refl _
    · obtain ⟨hmem, hexp⟩ := htimely.not_expired (h.nodup_links hloose) hm hopen
      rw [expired_iff (htimely.time_le m hmem)] at hexp
      show (c.now.toNat : ℤ) ≤ _
      rw [hnow]
      omega
  | advance now =>
    have hle : a.now ≤ now := h.tracks.now_eq ▸ he
    exact ⟨UInt64.le_trans ha.swept_le hle, ha.time_ge⟩
  | user call => exact ha

/-! ## Runs -/

/-- The server, its list and the clock in a run. -/
theorem exec_clock {s₀ : State} (hon : config.timeoutOn = true) (hpos : 0 < config.connTimeout)
    (hstart : uvxServerStart uv now ip port config = .ok (s₀, ret)) (hns : NoShutdown user es)
    (hrun : Exec (Step config user) s₀ es s) :
    (Spec.run config now es).Timely ∧ (Spec.run config now es).Heard (clock now es) ∧
      (Spec.run config now es).Swept config (clock now es) := by
  refine exec_induction (I := fun es => (Spec.run config now es).Timely ∧
    (Spec.run config now es).Heard (clock now es) ∧
    (Spec.run config now es).Swept config (clock now es)) hstart hns hrun (fun _ _ _ h => h) ?_ ?_
  · have hnone : ∀ l : Link, l ∈ (Spec.run config now []).links → False := fun _ hl =>
      List.not_mem_nil hl
    exact ⟨Spec.timely_init now, ⟨rfl, fun l hl => (hnone l hl).elim⟩,
      ⟨UInt64.le_refl _, fun l hl => (hnone l hl).elim⟩⟩
  · rintro es t s e s' h ⟨htimely, hheard, hswept⟩ hstep
    have hloose := Spec.loose_run config now es
    rw [Spec.run_append, clock_append]
    exact ⟨h.timely_step hloose htimely hstep.1, h.heard_step hloose hheard hstep.1,
      h.swept_step hloose hon hpos htimely hheard.now_eq hswept hstep.1⟩

/-- The open connections are those of the list that are not closing. -/
theorem Sim.isOpen_iff (h : Sim t s a) (hloose : a.loose = none) (ha : a.Timely) {p : Ptr} :
    IsOpen s p ↔ ∃ l ∈ a.links, l.ptr = p ∧ l.handle ≠ .closing := by
  constructor
  · intro hp
    obtain ⟨l, hl, rfl⟩ := h.mem_links hloose hp.ne_unused
    refine ⟨l, hl, rfl, ?_⟩
    rw [← (h.tracks.owns l (List.mem_append_left _ hl)).handle_eq]
    rcases hp with hp | hp <;> rw [hp] <;> simp
  · rintro ⟨l, hl, rfl, hopen⟩
    rw [IsOpen, (h.tracks.owns l (List.mem_append_left _ hl)).handle_eq]
    exact Or.inr ((ha.handle l hl).resolve_right hopen)

/-- What closes a connection, in terms of the events. -/
theorem Spec.Timely.closes_iff (ha : a.Timely) (hheard : a.Heard c) (hon : config.timeoutOn = true)
    (hpos : 0 < config.connTimeout) (hl : l ∈ a.links) (hopen : l.handle ≠ .closing) :
    Closes config a l e ↔ (∃ nread < 0, e = .read l.ptr nread) ∨
      (e = .heartbeat ∧ config.connTimeout < (a.now.toNat : ℤ) - (c.heardAt l.ptr).toNat) := by
  rw [← hheard.time_eq l hl hopen, ← expired_iff (ha.time_le l hl)]
  cases e with
  | read conn nread =>
    constructor
    · rintro ⟨rfl, hneg⟩
      exact .inl ⟨nread, hneg, rfl⟩
    · rintro (⟨n, hneg, heq⟩ | ⟨heq, -⟩)
      · obtain ⟨rfl, rfl⟩ := Event.read.inj heq
        exact ⟨rfl, hneg⟩
      · cases heq
  | heartbeat =>
    constructor
    · exact fun h => .inr ⟨rfl, h.2⟩
    · rintro (⟨n, -, heq⟩ | ⟨-, hexp⟩)
      · cases heq
      · exact ⟨⟨hon, hpos⟩, hexp⟩
  | connection => simp [Closes]
  | closed => simp [Closes]
  | advance => simp [Closes]
  | user => simp [Closes]

/-- **Silent peers are disconnected**, and only they. In every run without shutdown an event closes an
open connection if and only if it is a read error of this connection, or a sweep when the peer has
been silent for longer than the timeout; and no peer of an open connection is silent for longer than
the timeout and the time since the last sweep. -/
theorem idle_connections {s₀ : State} (hon : config.timeoutOn = true) (hpos : 0 < config.connTimeout)
    (hstart : uvxServerStart uv now ip port config = .ok (s₀, ret)) (hns : NoShutdown user es)
    (hrun : Exec (Step config user) s₀ es s) :
    (∀ e s', e ≠ .user .shutdown → Step config user s e s' → ∀ p, IsOpen s p →
      (¬ IsOpen s' p ↔ (∃ nread < 0, e = .read p nread) ∨ (e = .heartbeat ∧
        config.connTimeout < (s.now.toNat : ℤ) - ((clock now es).heardAt p).toNat))) ∧
    ∀ p, IsOpen s p → (s.now.toNat : ℤ) - ((clock now es).heardAt p).toNat
      ≤ config.connTimeout + ((s.now.toNat : ℤ) - (clock now es).sweptAt.toNat) := by
  obtain ⟨t, h, -⟩ := exec_sim hstart hns hrun
  have hloose := Spec.loose_run config now es
  obtain ⟨htimely, hheard, hswept⟩ := exec_clock hon hpos hstart hns hrun
  have hnow : s.now = (Spec.run config now es).now := h.tracks.now_eq
  refine ⟨fun e s' hne hstep p hp => ?_, fun p hp => ?_⟩
  · obtain ⟨t', -, h'⟩ := h.step hloose hns.calls hne hstep
    have hloose' := (Spec.loose_step config (Spec.run config now es) e).trans hloose
    have htimely' : ((Spec.run config now es).step config e).Timely :=
      h.timely_step hloose htimely hstep.1
    obtain ⟨l, hl, rfl, hopen⟩ := (h.isOpen_iff hloose htimely).mp hp
    rw [hnow, ← htimely.closes_iff hheard hon hpos hl hopen]
    constructor
    · intro hclosed
      by_contra hnot
      obtain ⟨m, hm, hptr, hhandle⟩ := h.stays hloose hl hopen hstep.1 hnot
      exact hclosed ((h'.isOpen_iff hloose' htimely').mpr ⟨m, hm, hptr, hhandle ▸ hopen⟩)
    · intro hcloses hopen'
      have hown := h'.tracks.owns _ (List.mem_append_left _ (htimely.closes hl hopen hcloses))
      have hclosing : s'.handle l.ptr = .closing := hown.handle_eq
      rcases hopen' with hidle | hreading
      · cases hidle.symm.trans hclosing
      · cases hreading.symm.trans hclosing
  · obtain ⟨l, hl, rfl, hopen⟩ := (h.isOpen_iff hloose htimely).mp hp
    have hge := hswept.time_ge l hl hopen
    rw [← hheard.time_eq l hl hopen]
    omega

/-- `uvx_server_default_config`, without the name and the logs. -/
def uvxServerDefaultConfig : Config where
  connCount := 1024
  connBacklog := 128
  timeoutOn := true
  connTimeout := 180000
  heartbeatInterval := 60000
  connExtraSize := 0
  connExtraSize_nonneg := Config.noExtra

/-- The defaults are such that the results about runs apply to them. -/
theorem uvxServerDefaultConfig_sound :
    1 ≤ uvxServerDefaultConfig.connCount.toInt ∧ uvxServerDefaultConfig.connCount.toInt < 2 ^ 30 ∧
      uvxServerDefaultConfig.sweeps ∧ 0 < uvxServerDefaultConfig.heartbeatInterval :=
  ⟨by decide, by decide, ⟨rfl, by decide⟩, by decide⟩

/-- Of two connections the one that has been silent for longer than 180 seconds is closed. -/
theorem idle_connections_two : ∃ s s', Step smallConfig quietUser s .heartbeat s' ∧
    IsOpen s 0x1000 ∧ ¬ IsOpen s' 0x1000 ∧ IsOpen s' 0x2000 := by
  let es : List Event := [.connection 0 0x1000 0, .advance 100000, .connection 0 0x2000 0,
    .read 0x2000 7, .advance 180001]
  have hrun : ∃ s, runFrom smallConfig quietUser (fun _ _ => True) es = some s ∧
      s.now = 180001 ∧ Enabled s .heartbeat ∧ IsOpen s 0x1000 ∧ IsOpen s 0x2000 ∧
      (handle smallConfig quietUser .heartbeat s).toOption.isSome := by decide +kernel
  obtain ⟨s, hs, hnow, henabled, hopen₁, hopen₂, hends⟩ := hrun
  obtain ⟨s₀, ret, hstart, hexec⟩ := exec_of_runFrom hs
  obtain ⟨s', hstep⟩ : ∃ s', Step smallConfig quietUser s .heartbeat s' := by
    cases hhandle : handle smallConfig quietUser .heartbeat s with
    | ok r => exact ⟨r.2, henabled, hhandle⟩
    | error fault =>
      rw [hhandle] at hends
      cases hends
  obtain ⟨hcloses, -⟩ := idle_connections rfl (by decide) hstart (noShutdown_quietUser (by decide))
    hexec.unguarded
  have hexpired := hcloses _ _ (by decide) hstep
  refine ⟨s, s', hstep, hopen₁, (hexpired _ hopen₁).mpr (.inr ⟨rfl, ?_⟩), ?_⟩
  · rw [hnow]
    decide
  · by_contra hclosed
    rcases (hexpired _ hopen₂).mp hclosed with ⟨n, -, heq⟩ | ⟨-, hlong⟩
    · cases heq
    · rw [hnow] at hlong
      exact absurd hlong (by decide)

end Uvx.Server
