import Uvx.Server.Connections

/-!
# The life of a connection

As long as no sweep reaches a connection that is closing already (`SweepClear`), each connection is
announced, served, closed once and taken out in this order (`Orderly`). Its memory is freed with the
last reference, which is never before it has left the table (`life_cycle`, `closed_once`).
-/

namespace Uvx.Server

open LinkHash

variable {t : LhTable} {s s' : State} {a : Spec} {l : Link} {config : Config} {user : User}
  {es : List Event} {uv : Libuv} {now : UInt64} {ip : List UInt8} {port : ℤ} {ret : ℤ}

/-- What has happened to a connection in the table whose handle is closed at most once. -/
inductive Orderly : Handle → List Action → Prop
  | served (n : ℕ) :
      Orderly .reading (.callback .onConnOk :: .replicate n (.callback .onRecv))
  | closing (n : ℕ) :
      Orderly .closing (.callback .onConnOk :: .replicate n (.callback .onRecv)
        ++ [.callback .onConnClosing, .uvClose])
  | failed : Orderly .closing [.callback .onConnFail, .uvClose]

/-- The same of all connections. -/
structure Spec.Orderly (a : Spec) : Prop where
  links : ∀ l ∈ a.links, Server.Orderly l.handle l.trace
  gone : ∀ l ∈ a.gone, ∃ tr, Server.Orderly .closing tr ∧
    l.trace = tr ++ [.callback .onConnClose, .removed]

/-- The sweep of a heartbeat reaches no connection that is closing: none of the expired connections
at the front of the list. -/
def SweepClear (config : Config) (s : State) (e : Event) : Prop :=
  e = .heartbeat → config.sweeps → ∀ t ∈ s.conns,
    ∀ p ∈ t.keys.takeWhile fun p =>
      expired config s.now (((s.heap p).map Conn.lastCommTime).getD 0),
      s.handle p ≠ .closing

instance (config : Config) (s : State) (e : Event) : Decidable (SweepClear config s e) :=
  haveI (t : LhTable) : Decidable (∀ p ∈ t.keys.takeWhile fun p =>
      expired config s.now (((s.heap p).map Conn.lastCommTime).getD 0), s.handle p ≠ .closing) :=
    List.decidableBAll _ _
  inferInstanceAs (Decidable (_ → (_ ∧ _) → ∀ t ∈ s.conns, _))

/-- The close callbacks come before the next heartbeat. -/
def ClosedFirst (s : State) (e : Event) : Prop :=
  e = .heartbeat → ∀ p, s.handle p ≠ .closing

theorem SweepClear.of_closedFirst {e : Event} (h : ClosedFirst s e) : SweepClear config s e :=
  fun he _ _ _ p _ => h he p

/-! ## Steps -/

theorem Orderly.received {tr : List Action} (h : Orderly .reading tr) :
    Orderly .reading (tr ++ [.callback .onRecv]) := by
  cases h with
  | served n =>
    rw [List.cons_append, ← List.replicate_succ']
    exact .served (n + 1)

theorem Orderly.disconnected (h : Orderly l.handle l.trace) (hl : l.handle = .reading) :
    Orderly l.disconnected.handle l.disconnected.trace := by
  rw [hl] at h
  show Orderly .closing (l.trace ++ [.callback .onConnClosing, .uvClose])
  generalize l.trace = tr at h
  cases h with
  | served n => exact .closing n

theorem Orderly.reading_or_closing {hd : Handle} {tr : List Action} (h : Orderly hd tr) :
    hd = .reading ∨ hd = .closing := by
  cases h with
  | served => exact Or.inl rfl
  | closing => exact Or.inr rfl
  | failed => exact Or.inr rfl

/-- A sweep that reaches open connections only. -/
theorem Spec.orderly_sweep {expired : Link → Bool} {links : List Link}
    (h : ∀ l ∈ links, Server.Orderly l.handle l.trace)
    (hclear : ∀ l ∈ links.takeWhile expired, l.handle ≠ .closing) :
    ∀ l ∈ sweep expired links, Server.Orderly l.handle l.trace := by
  induction links with
  | nil => exact h
  | cons l links ih =>
    rw [sweep]
    split
    · next hexp =>
      rw [List.takeWhile_cons, if_pos hexp] at hclear
      intro m hm
      rcases List.mem_cons.mp hm with rfl | hm
      · have hl := h l (by simp)
        exact hl.disconnected (hl.reading_or_closing.resolve_right (hclear l (by simp)))
      · exact ih (fun m hm => h m (List.mem_cons_of_mem _ hm))
          (fun m hm => hclear m (List.mem_cons_of_mem _ hm)) m hm
    · exact h

theorem takeWhile_congr {p q : Link → Bool} {links : List Link} (h : ∀ l ∈ links, p l = q l) :
    links.takeWhile p = links.takeWhile q := by
  induction links with
  | nil => rfl
  | cons l links ih =>
    rw [List.takeWhile_cons, List.takeWhile_cons, h l (by simp),
      ih fun m hm => h m (List.mem_cons_of_mem _ hm)]

/-- What `SweepClear` means for the abstract server. -/
theorem Sim.sweepClear (h : Sim t s a) (hclear : SweepClear config s .heartbeat)
    (hsweeps : config.sweeps) :
    ∀ l ∈ a.links.takeWhile fun l => expired config a.now l.time, l.handle ≠ .closing := by
  have howns : ∀ l ∈ a.links, Owns s l := fun l hl => h.tracks.owns l (List.mem_append_left _ hl)
  have hkeys := hclear rfl hsweeps t h.conns
  rw [h.holds.keys_eq, List.takeWhile_map, show s.now = a.now from h.tracks.now_eq] at hkeys
  intro l hl
  rw [← (howns l ((List.takeWhile_prefix _).subset hl)).handle_eq]
  apply hkeys
  refine List.mem_map_of_mem ?_
  convert hl using 1
  refine takeWhile_congr ?_
  intro m hm
  obtain ⟨c, hc, htime, -⟩ := (howns m hm).conn
  simp only [Function.comp_apply, hc, Option.map_some, Option.getD_some, htime]

theorem Spec.orderly_init (now : UInt64) : (Spec.init now).Orderly :=
  ⟨fun _ h => absurd h List.not_mem_nil, fun _ h => absurd h List.not_mem_nil⟩

/-- Every step keeps the order of what happens to a connection. -/
theorem Sim.orderly_step (h : Sim t s a) (hloose : a.loose = none) (ha : a.Orderly) {e : Event}
    (he : Enabled s e) (hclear : SweepClear config s e) : (a.step config e).Orderly := by
  cases e with
  | connection status conn accepted =>
    rw [Spec.step]
    split
    · refine ⟨?_, ha.gone⟩
      intro l hl
      rcases List.mem_append.mp hl with hl | hl
      · exact ha.links l hl
      · rw [List.mem_singleton.mp hl, Link.accept]
        split
        · exact .served 0
        · exact .failed
    · exact ha
  | read conn nread =>
    obtain ⟨xs, l, ys, -, hl, rfl, hreading, hfind, -⟩ := h.exists_put hloose he (by simp)
    have horderly := ha.links l hl
    rw [Spec.step, hfind]
    split
    · refine ⟨?_, ha.gone⟩
      intro m hm
      rcases List.mem_append.mp hm with hm | hm
      · exact ha.links m (List.mem_of_mem_filter hm)
      · rw [List.mem_singleton.mp hm]
        show Server.Orderly l.handle (l.trace ++ [.callback .onRecv])
        rw [hreading] at horderly ⊢
        exact horderly.received
    · split
      · refine ⟨?_, ha.gone⟩
        intro m hm
        rw [Spec.change] at hm
        obtain ⟨m', hm', rfl⟩ := List.mem_map.mp hm
        split
        · next hptr =>
          rw [h.tracks.eq_of_ptr (List.mem_append_left _ hm') (List.mem_append_left _ hl) hptr]
          exact horderly.disconnected hreading
        · exact ha.links m' hm'
      · exact ha
  | closed conn =>
    obtain ⟨xs, l, ys, -, hl, rfl, hclosing, hfind, -⟩ := h.exists_put hloose he (by simp)
    rw [Spec.step, hfind]
    refine ⟨fun m hm => ha.links m (List.mem_of_mem_filter hm), ?_⟩
    intro m hm
    rcases List.mem_append.mp hm with hm | hm
    · exact ha.gone m hm
    · -- the connection itself, now given up
      rw [List.mem_singleton.mp hm]
      exact ⟨l.trace, hclosing ▸ ha.links l hl, rfl⟩
  | heartbeat =>
    rw [Spec.step]
    split
    · next hsweeps => exact ⟨Spec.orderly_sweep ha.links (h.sweepClear hclear hsweeps), ha.gone⟩
    · exact ha
  | advance now => exact ⟨ha.links, ha.gone⟩
  | user call => exact ha

/-- Along a run whose sweeps are clear, connections live in order. -/
theorem exec_orderly {s₀ : State} (hstart : uvxServerStart uv now ip port config = .ok (s₀, ret))
    (hns : NoShutdown user es)
    (hrun : Exec (Guarded (Step config user) (SweepClear config)) s₀ es s) :
    (Spec.run config now es).Orderly := by
  apply exec_induction hstart hns hrun fun _ _ _ hstep => hstep.1
  · exact Spec.orderly_init now
  · intro es t s e s' h ih hstep
    rw [Spec.run_append]
    exact h.orderly_step (Spec.loose_run ..) ih hstep.1.1 hstep.2

/-! ## What has happened to one connection -/

/-- What may have happened to a connection so far. -/
inductive Lived : List Action → Prop
  | unborn : Lived []
  | present {hd : Handle} {tr : List Action} (h : Orderly hd tr) : Lived tr
  | removed {tr : List Action} (h : Orderly .closing tr) :
      Lived (tr ++ [.callback .onConnClose, .removed])
  | freed {tr : List Action} (h : Orderly .closing tr) :
      Lived (tr ++ [.callback .onConnClose, .removed] ++ [.freed])

/-- The callbacks among the actions. -/
def callbacksOf (tr : List Action) : List ConnCallback :=
  tr.filterMap fun
    | .callback cb => some cb
    | _ => none

/-- The callbacks of a connection that was accepted, and received data `n` times. -/
def servedLife (n : ℕ) : List ConnCallback :=
  .onConnOk :: .replicate n .onRecv ++ [.onConnClosing, .onConnClose]

/-- The callbacks of a connection whose accept failed. -/
def failedLife : List ConnCallback := [.onConnFail, .onConnClose]

/-- A prefix of a full life. -/
def LifePrefix (cbs : List ConnCallback) : Prop :=
  cbs <+: failedLife ∨ ∃ n, cbs <+: servedLife n

theorem callbacksOf_append (tr tr' : List Action) :
    callbacksOf (tr ++ tr') = callbacksOf tr ++ callbacksOf tr' :=
  List.filterMap_append

theorem callbacksOf_served (n : ℕ) :
    callbacksOf (.callback .onConnOk :: .replicate n (.callback .onRecv))
      = .onConnOk :: .replicate n .onRecv := by
  refine congrArg (List.cons _) ?_
  exact List.filterMap_replicate_of_some rfl

theorem Orderly.callbacksOf_close {tr : List Action} (h : Orderly .closing tr) :
    callbacksOf tr ++ [.onConnClose] = failedLife ∨
      ∃ n, callbacksOf tr ++ [.onConnClose] = servedLife n := by
  cases h with
  | closing n =>
    refine Or.inr ⟨n, ?_⟩
    rw [callbacksOf_append, callbacksOf_served, List.append_assoc]
    rfl
  | failed => exact Or.inl rfl

theorem Orderly.lifePrefix {hd : Handle} {tr : List Action} (h : Orderly hd tr) :
    LifePrefix (callbacksOf tr) := by
  have hclosing : ∀ {tr}, Orderly .closing tr → LifePrefix (callbacksOf tr) := fun h =>
    h.callbacksOf_close.imp (fun he => ⟨_, he⟩) fun ⟨n, he⟩ => ⟨n, _, he⟩
  cases h with
  | served n =>
    rw [callbacksOf_served]
    exact Or.inr ⟨n, _, rfl⟩
  | closing n => exact hclosing (.closing n)
  | failed => exact hclosing .failed

theorem Lived.lifePrefix {tr : List Action} (h : Lived tr) : LifePrefix (callbacksOf tr) := by
  have hclose : ∀ {tr}, Orderly .closing tr → LifePrefix (callbacksOf tr ++ [.onConnClose]) :=
    fun h => h.callbacksOf_close.imp (fun he => ⟨[], by rw [he, List.append_nil]⟩)
      fun ⟨n, he⟩ => ⟨n, [], by rw [he, List.append_nil]⟩
  cases h with
  | unborn => exact Or.inl (List.nil_prefix)
  | present h => exact h.lifePrefix
  | removed h =>
    rw [callbacksOf_append]
    exact hclose h
  | freed h =>
    rw [callbacksOf_append, callbacksOf_append, List.append_assoc]
    exact hclose h

/-- A connection that the server has not given up is closed at most once, and not freed. -/
theorem Orderly.count {hd : Handle} {tr : List Action} (h : Orderly hd tr) :
    tr.count .uvClose ≤ 1 ∧ tr.count (.callback .onConnClosing) ≤ 1 ∧ tr.count .freed = 0 := by
  cases h with
  | served n => simp [List.count_replicate]
  | closing n => simp [List.count_replicate]
  | failed => decide

theorem Lived.count {tr : List Action} (h : Lived tr) :
    tr.count .uvClose ≤ 1 ∧ tr.count (.callback .onConnClosing) ≤ 1 := by
  cases h with
  | unborn => decide
  | present h => exact ⟨h.count.1, h.count.2.1⟩
  | removed h =>
    obtain ⟨h₁, h₂, -⟩ := h.count
    rw [List.count_append, List.count_append]
    exact ⟨h₁, h₂⟩
  | freed h =>
    obtain ⟨h₁, h₂, -⟩ := h.count
    rw [List.count_append, List.count_append, List.count_append, List.count_append]
    exact ⟨h₁, h₂⟩

/-- Memory is freed once, after the close callback and the removal from the table. -/
theorem Lived.freed_last {tr : List Action} (h : Lived tr) (hf : .freed ∈ tr) :
    tr.count .freed = 1 ∧ [.callback .onConnClose, .removed, .freed] <:+ tr := by
  cases h with
  | unborn => exact absurd hf List.not_mem_nil
  | present h => exact absurd hf (List.count_eq_zero.mp h.count.2.2)
  | removed h =>
    rw [List.mem_append] at hf
    exact absurd (hf.resolve_left (List.count_eq_zero.mp h.count.2.2)) (by decide)
  | @freed tr h =>
    refine ⟨?_, tr, by rw [List.append_assoc]; rfl⟩
    rw [List.count_append, List.count_append, h.count.2.2]
    rfl

section Along

variable (h : Sim t s a) (hloose : a.loose = none)
include h

theorem Sim.serial_lt {p : Ptr} {c : Conn} (hc : s.heap p = some c) : c.serial < s.accepted := by
  rw [show s.accepted = a.accepted from h.tracks.accepted_eq]
  by_cases hp : p ∈ a.owned.map Link.ptr
  · obtain ⟨l, hl, rfl⟩ := List.mem_map.mp hp
    rw [((h.tracks.owns l hl).of_some hc).2.1]
    exact h.tracks.serial_lt l (Tracks.mem_all_of_owned hl)
  · obtain ⟨-, -, g, hg, -, hgs⟩ := (h.tracks.foreign p hp).of_some hc
    rw [← hgs]
    exact h.tracks.serial_lt g (List.mem_append_right _ hg)
include hloose

/-- A connection that there has been is in the table, or the server has dropped it. -/
theorem Sim.mem_links_or_gone {n : ℕ} (hn : n < s.accepted) :
    ∃ l, l.serial = n ∧ (l ∈ a.links ∨ l ∈ a.gone) := by
  rw [show s.accepted = a.accepted from h.tracks.accepted_eq] at hn
  obtain ⟨l, hl, hserial⟩ := List.mem_map.mp (h.tracks.cover n hn)
  refine ⟨l, hserial, ?_⟩
  rwa [Spec.all, Spec.owned, hloose, Option.toList_none, List.append_nil, List.mem_append] at hl

/-- What the state has noted about a connection. -/
theorem Sim.lived (ha : a.Orderly) (n : ℕ) : Lived (s.trace n) := by
  rcases Nat.lt_or_ge n s.accepted with hn | hn
  · obtain ⟨l, rfl, hl | hl⟩ := h.mem_links_or_gone hloose hn
    · rw [(h.tracks.owns l (List.mem_append_left _ hl)).trace_eq]
      exact .present (ha.links l hl)
    · obtain ⟨tr, htr, hl'⟩ := ha.gone l hl
      rcases h.tracks.dropped l hl with ⟨-, ht⟩ | ⟨-, ht⟩
      · rw [ht, hl']
        exact .removed htr
      · rw [ht, hl']
        exact .freed htr
  · rw [show s.accepted = a.accepted from h.tracks.accepted_eq] at hn
    rw [h.tracks.fresh n hn]
    exact .unborn

/-- A connection has been freed when its memory is not there any more, and never before. -/
theorem Sim.freed_iff (ha : a.Orderly) {n : ℕ} (hn : n < s.accepted) :
    .freed ∈ s.trace n ↔ ∀ p c, s.heap p = some c → c.serial ≠ n := by
  obtain ⟨l, rfl, hl | hl⟩ := h.mem_links_or_gone hloose hn
  · have hown := h.tracks.owns l (List.mem_append_left _ hl)
    obtain ⟨c, hc, -, hserial, -⟩ := hown.conn
    refine iff_of_false ?_ fun hall => hall _ c hc hserial
    rw [hown.trace_eq]
    exact List.count_eq_zero.mp (ha.links l hl).count.2.2
  · obtain ⟨tr, htr, hl'⟩ := ha.gone l hl
    rcases h.tracks.dropped l hl with ⟨⟨c, hc, hserial⟩, ht⟩ | ⟨hdead, ht⟩
    · refine iff_of_false ?_ fun hall => hall _ c hc hserial
      rw [ht, hl', List.mem_append]
      exact fun hf => hf.elim (List.count_eq_zero.mp htr.count.2.2) (by decide)
    · refine iff_of_true (by rw [ht]; simp) ?_
      intro p c hc hserial
      -- memory with this serial number would be that of the connection itself
      by_cases hp : p ∈ a.owned.map Link.ptr
      · obtain ⟨m, hm, rfl⟩ := List.mem_map.mp hp
        exact h.tracks.serial_ne hm hl
          (hserial.symm.trans ((h.tracks.owns m hm).of_some hc).2.1)
      · obtain ⟨-, -, g, hg, hgp, hgs⟩ := (h.tracks.foreign p hp).of_some hc
        have hgl : g = l := h.tracks.eq_of_serial (List.mem_append_right _ hg)
          (List.mem_append_right _ hl) (hgs.trans hserial)
        exact hdead ⟨c, by rw [← hgl, hgp, hc], hserial⟩

/-- The references of a connection: those of user code, and the server's own while the connection is
in the table. -/
theorem Sim.refcount_eq {p : Ptr} {c : Conn} (hc : s.heap p = some c) :
    c.refcount = s.held p + (if p ∈ t.keys then 1 else 0) ∧ 0 < c.refcount := by
  have hkeys : t.keys = a.owned.map Link.ptr := by
    rw [h.holds.keys_eq, Spec.owned, hloose, Option.toList_none, List.append_nil]
  rw [hkeys]
  rcases h.tracks.refcount hc with ⟨hp, href⟩ | ⟨hp, href, hpos⟩
  · rw [if_pos hp]
    omega
  · rw [if_neg hp]
    omega

end Along

/-! ## Whole runs -/

/-- **Each handle is closed once.** In a run whose sweeps reach no connection that is closing, no
`uv_close` and no `on_conn_closing` is repeated. -/
theorem closed_once {s₀ : State} (hstart : uvxServerStart uv now ip port config = .ok (s₀, ret))
    (hns : NoShutdown user es)
    (hrun : Exec (Guarded (Step config user) (SweepClear config)) s₀ es s) (n : ℕ) :
    (s.trace n).count .uvClose ≤ 1 ∧ (s.trace n).count (.callback .onConnClosing) ≤ 1 := by
  obtain ⟨t, h, -⟩ := exec_sim hstart hns hrun.unguarded
  exact (h.lived (Spec.loose_run ..) (exec_orderly hstart hns hrun) n).count

/-- A connection closed by a sweep, and taken out afterwards. -/
theorem closed_once_silent :
    ∃ s : State, s.trace 0 = [.callback .onConnOk, .callback .onConnClosing, .uvClose,
        .callback .onConnClose, .removed, .freed] ∧
      (s.trace 0).count .uvClose ≤ 1 ∧ (s.trace 0).count (.callback .onConnClosing) ≤ 1 := by
  let es : List Event := [.connection 0 0x1000 0, .heartbeat, .advance 180001, .heartbeat,
    .closed 0x1000, .heartbeat]
  have hrun : ∃ s, runFrom smallConfig quietUser (SweepClear smallConfig) es = some s ∧
      s.trace 0 = [.callback .onConnOk, .callback .onConnClosing, .uvClose,
        .callback .onConnClose, .removed, .freed] := by decide +kernel
  obtain ⟨s, hs, htrace⟩ := hrun
  obtain ⟨s₀, ret, hstart, hexec⟩ := exec_of_runFrom hs
  exact ⟨s, htrace, closed_once hstart (noShutdown_quietUser (by decide)) hexec 0⟩

/-- Two heartbeats before the close callback: the second sweep closes the connection once more. -/
theorem not_closed_once :
    ∃ s₀ ret es s, uvxServerStart plainLibuv 0 [] 0 smallConfig = .ok (s₀, ret) ∧
      NoShutdown quietUser es ∧ Exec (Step smallConfig quietUser) s₀ es s ∧
      (s.trace 0).count .uvClose = 2 ∧ (s.trace 0).count (.callback .onConnClosing) = 2 := by
  let es : List Event := [.connection 0 0x1000 0, .advance 180001, .heartbeat, .heartbeat]
  have hrun : ∃ s, runFrom smallConfig quietUser (fun _ _ => True) es = some s ∧
      (s.trace 0).count .uvClose = 2 ∧ (s.trace 0).count (.callback .onConnClosing) = 2 := by
    decide +kernel
  obtain ⟨s, hs, hcount⟩ := hrun
  obtain ⟨s₀, ret, hstart, hexec⟩ := exec_of_runFrom hs
  exact ⟨s₀, ret, es, s, hstart, noShutdown_quietUser (by decide), hexec.unguarded, hcount⟩

/-- What holds of the connections of the server between its handlers. -/
structure LifeCycle (config : Config) (user : User) (s : State) : Prop where
  callbacks : ∀ n, LifePrefix (callbacksOf (s.trace n))
  freed_last : ∀ n, .freed ∈ s.trace n →
    (s.trace n).count .freed = 1 ∧ [.callback .onConnClose, .removed, .freed] <:+ s.trace n
  freed_iff : ∀ n < s.accepted, .freed ∈ s.trace n ↔ ∀ p c, s.heap p = some c → c.serial ≠ n
  refcount : ∀ p c, s.heap p = some c → 0 < c.refcount ∧
    ∃ t, s.conns = some t ∧ c.refcount = s.held p + (if p ∈ t.keys then 1 else 0)
  /-- A reference call frees the connection if and only if it brings the count to zero. -/
  connRef : ∀ p c ref, s.heap p = some c → ref = 1 ∨ ref = -1 →
    ∃ s', uvxServerConnRef p ref s = .ok ((), s') ∧ (s'.heap p = none ↔ c.refcount + ref = 0) ∧
      (.freed ∈ s'.trace c.serial ↔ c.refcount + ref = 0)
  held : ∀ p, 0 < s.held p → (s.heap p).isSome
  /-- No handler, and no reference call in it, uses a connection that has been freed. -/
  handlers : ∀ e p, Enabled s e → e ≠ .user .shutdown →
    handle config user e s ≠ .error (.connFreed p)

/-- **The life of a connection** in a run where close callbacks come before the next heartbeat. Its
callbacks come in order. Its memory is freed once, with the last reference and after it has left the
table, and is not used after that. -/
theorem life_cycle {s₀ : State}
    (hstart : uvxServerStart uv now ip port config = .ok (s₀, ret)) (hns : NoShutdown user es)
    (hrun : Exec (Guarded (Step config user) ClosedFirst) s₀ es s) : LifeCycle config user s := by
  have hclear : Exec (Guarded (Step config user) (SweepClear config)) s₀ es s :=
    hrun.mono fun _ _ _ hstep => ⟨hstep.1, .of_closedFirst hstep.2⟩
  obtain ⟨t, h, -⟩ := exec_sim hstart hns hrun.unguarded
  have hloose := Spec.loose_run config now es
  have ha := exec_orderly hstart hns hclear
  have hlived := h.lived hloose ha
  refine ⟨fun n => (hlived n).lifePrefix, fun n hf => (hlived n).freed_last hf,
    fun n hn => h.freed_iff hloose ha hn, fun p c hc => ?_, fun p c ref hc href => ?_,
    fun p hp => ?_, fun e p he hne hrun' => ?_⟩
  · obtain ⟨href, hpos⟩ := h.refcount_eq hloose hc
    exact ⟨hpos, t, h.conns, href⟩
  · refine ⟨_, uvxServerConnRef_eq hc href, ?_⟩
    have hnot : .freed ∉ s.trace c.serial := fun hf =>
      (h.freed_iff hloose ha (h.serial_lt hc)).mp hf p c hc rfl
    split
    · next hz => exact ⟨iff_of_true (Function.update_self ..) hz, iff_of_true (by simp) hz⟩
    · next hz => exact ⟨iff_of_false (by simp) hz, iff_of_false hnot hz⟩
  · obtain ⟨c, hc⟩ := h.tracks.exists_conn hp
    rw [hc]
    rfl
  · have hspec := h.handle_spec hloose (clearShutdown_of_not_shuts config hns.calls) he
      fun hc => absurd hc hne
    rcases hspec.error hrun' with ⟨-, hf⟩ | ⟨-, hf⟩ <;> simp at hf

/-- User code keeps a reference beyond the close callback, and gives it back later. -/
theorem life_cycle_kept :
    ∃ s, (s.trace 0 = [.callback .onConnOk, .callback .onRecv, .callback .onConnClosing, .uvClose,
        .callback .onConnClose, .removed, .freed]) ∧ LifeCycle smallConfig quietUser s := by
  let es : List Event := [.connection 0 0x1000 0, .user (.connRef 0x1000 true), .read 0x1000 7,
    .read 0x1000 (-1), .closed 0x1000, .user (.connRef 0x1000 false)]
  have hrun : ∃ s, runFrom smallConfig quietUser (fun _ e => e ≠ .heartbeat) es = some s ∧
      s.trace 0 = [.callback .onConnOk, .callback .onRecv, .callback .onConnClosing, .uvClose,
        .callback .onConnClose, .removed, .freed] := by decide +kernel
  obtain ⟨s, hs, htrace⟩ := hrun
  obtain ⟨s₀, ret, hstart, hexec⟩ := exec_of_runFrom hs
  exact ⟨s, htrace, life_cycle hstart (noShutdown_quietUser (by decide))
    (hexec.mono fun _ _ _ hstep => ⟨hstep.1, fun he => absurd he hstep.2⟩)⟩

end Uvx.Server
