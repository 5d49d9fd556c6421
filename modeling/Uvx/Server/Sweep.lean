import Mathlib.Data.List.TakeWhile
import Uvx.Server.Runs

/-!
# The sweep stops early and misses nothing

`_uvx_check_timeout_clients` stops at the first connection that is not expired. This agrees with a
scan of all connections because the list is ordered by the time of the last communication, up to the
connections whose accept failed: their time is zero, and they are closing from the start
(`Spec.Timely`).
-/

namespace Uvx.Server

open LinkHash

variable {t : LhTable} {s s' : State} {a : Spec} {l : Link} {config : Config} {user : User}
  {es : List Event} {uv : Libuv} {now : UInt64} {ip : List UInt8} {port : ℤ} {ret : ℤ}

/-- `m` may stand behind `l`: its last communication was not earlier, or it was never accepted. -/
def Link.Before (l m : Link) : Prop :=
  l.time ≤ m.time ∨ (m.handle = .closing ∧ m.time = 0)

/-- The connections are ordered by time. -/
structure Spec.Timely (a : Spec) : Prop where
  ordered : a.links.Pairwise Link.Before
  time_le : ∀ l ∈ a.links, l.time ≤ a.now
  handle : ∀ l ∈ a.links, l.handle = .reading ∨ l.handle = .closing
  failed : ∀ l ∈ a.links, .callback .onConnFail ∈ l.trace → l.handle = .closing ∧ l.time = 0

/-! ## Closing keeps the order -/

theorem Link.Before.disconnected_left {m : Link} (h : l.Before m) : l.disconnected.Before m := h

theorem Link.Before.disconnected_right {m : Link} (h : l.Before m) : l.Before m.disconnected :=
  h.imp_right fun hm => ⟨rfl, hm.2⟩

theorem Link.failed_disconnected
    (h : .callback .onConnFail ∈ l.trace → l.handle = .closing ∧ l.time = 0)
    (hmem : .callback .onConnFail ∈ l.disconnected.trace) :
    l.disconnected.handle = .closing ∧ l.disconnected.time = 0 := by
  rw [Link.disconnected, Link.noted, List.mem_append] at hmem
  refine ⟨rfl, (h (hmem.resolve_right ?_)).2⟩
  decide

theorem Spec.mem_sweep {expired : Link → Bool} {links : List Link} {m : Link}
    (h : m ∈ sweep expired links) : m ∈ links ∨ ∃ l ∈ links, m = l.disconnected := by
  induction links with
  | nil => exact Or.inl h
  | cons l links ih =>
    rw [sweep] at h
    split at h
    · rcases List.mem_cons.mp h with rfl | h
      · exact Or.inr ⟨l, by simp, rfl⟩
      · rcases ih h with h | ⟨l', hl', rfl⟩
        · exact Or.inl (List.mem_cons_of_mem _ h)
        · exact Or.inr ⟨l', List.mem_cons_of_mem _ hl', rfl⟩
    · exact Or.inl h

theorem Spec.mem_change {conn : Ptr} {links : List Link} {m : Link}
    (h : m ∈ change conn Link.disconnected links) :
    m ∈ links ∨ ∃ l ∈ links, m = l.disconnected := by
  rw [change] at h
  obtain ⟨l, hl, rfl⟩ := List.mem_map.mp h
  split
  · exact Or.inr ⟨l, hl, rfl⟩
  · exact Or.inl hl

theorem Spec.pairwise_sweep {expired : Link → Bool} {links : List Link}
    (h : links.Pairwise Link.Before) : (sweep expired links).Pairwise Link.Before := by
  induction links with
  | nil => exact List.Pairwise.nil
  | cons l links ih =>
    rw [List.pairwise_cons] at h
    rw [sweep]
    split
    · refine List.pairwise_cons.mpr ⟨fun m hm => ?_, ih h.2⟩
      rcases mem_sweep hm with hm | ⟨m', hm', rfl⟩
      · exact (h.1 m hm).disconnected_left
      · exact (h.1 m' hm').disconnected_right.disconnected_left
    · exact List.pairwise_cons.mpr h

theorem Spec.pairwise_change {conn : Ptr} {links : List Link} (h : links.Pairwise Link.Before) :
    (change conn Link.disconnected links).Pairwise Link.Before := by
  rw [change, List.pairwise_map]
  refine h.imp fun {l m} hlm => ?_
  split <;> split
  · exact hlm.disconnected_right.disconnected_left
  · exact hlm.disconnected_left
  · exact hlm.disconnected_right
  · exact hlm

/-- Closing connections keeps the order. -/
theorem Spec.Timely.of_closed (h : a.Timely) {links : List Link}
    (hordered : links.Pairwise Link.Before)
    (hmem : ∀ m ∈ links, m ∈ a.links ∨ ∃ l ∈ a.links, m = l.disconnected) :
    Spec.Timely { a with links := links } := by
  refine ⟨hordered, fun m hm => ?_, fun m hm => ?_, fun m hm hf => ?_⟩
  · rcases hmem m hm with hm | ⟨l, hl, rfl⟩
    · exact h.time_le m hm
    · exact h.time_le l hl
  · rcases hmem m hm with hm | ⟨l, hl, rfl⟩
    · exact h.handle m hm
    · exact Or.inr rfl
  · rcases hmem m hm with hm | ⟨l, hl, rfl⟩
    · exact h.failed m hm hf
    · exact Link.failed_disconnected (h.failed l hl) hf

/-- A connection with the present time goes last. -/
theorem Spec.Timely.push (h : a.Timely) {links : List Link} (hlinks : links.Sublist a.links)
    (acc : ℕ) (gone : List Link) (htime : l.time = a.now ∨ (l.handle = .closing ∧ l.time = 0))
    (hhandle : l.handle = .reading ∨ l.handle = .closing)
    (hfailed : .callback .onConnFail ∈ l.trace → l.handle = .closing ∧ l.time = 0) :
    Spec.Timely { a with accepted := acc, links := links ++ [l], gone := gone } := by
  have hmem : ∀ m ∈ links, m ∈ a.links := fun m hm => hlinks.subset hm
  have hle : l.time ≤ a.now := by
    rcases htime with ht | ⟨-, ht⟩
    · rw [ht]; exact UInt64.le_refl _
    · rw [ht]; exact UInt64.zero_le
  refine ⟨?_, fun m hm => ?_, fun m hm => ?_, fun m hm hf => ?_⟩
  · rw [List.pairwise_append]
    refine ⟨h.ordered.sublist hlinks, List.pairwise_singleton _ _, fun m hm m' hm' => ?_⟩
    obtain rfl := List.mem_singleton.mp hm'
    exact htime.imp_left fun ht => by rw [ht]; exact h.time_le m (hmem m hm)
  all_goals
    rcases List.mem_append.mp hm with hm | hm
    · first
      | exact h.time_le m (hmem m hm)
      | exact h.handle m (hmem m hm)
      | exact h.failed m (hmem m hm) hf
    · obtain rfl := List.mem_singleton.mp hm
      first
      | exact hle
      | exact hhandle
      | exact hfailed hf

/-! ## Steps -/

theorem Spec.timely_init (now : UInt64) : (Spec.init now).Timely :=
  ⟨List.Pairwise.nil, fun _ h => absurd h List.not_mem_nil, fun _ h => absurd h List.not_mem_nil,
    fun _ h => absurd h List.not_mem_nil⟩

/-- Every event keeps the order. -/
theorem Sim.timely_step (h : Sim t s a) (hloose : a.loose = none) (ha : a.Timely) {e : Event}
    (he : Enabled s e) : (a.step config e).Timely := by
  cases e with
  | connection status conn accepted =>
    rw [Spec.step]
    split
    · refine ha.push (List.Sublist.refl _) _ a.gone ?_ ?_ ?_
      · rw [Link.accept]; split
        · exact Or.inl rfl
        · exact Or.inr ⟨rfl, rfl⟩
      · rw [Link.accept]; split
        · exact Or.inl rfl
        · exact Or.inr rfl
      · rw [Link.accept]; split
        · intro hmem; simp at hmem
        · intro _; exact ⟨rfl, rfl⟩
    · exact ha
  | read conn nread =>
    obtain ⟨xs, l, ys, -, hl, rfl, hreading, hfind, -⟩ := h.exists_put hloose he (by simp)
    -- data comes only from connections that were accepted
    have hnf : .callback .onConnFail ∉ l.trace := fun hmem => by
      rw [(ha.failed l hl hmem).1] at hreading
      exact absurd hreading (by decide)
    rw [Spec.step, hfind]
    split
    · refine ha.push List.filter_sublist _ a.gone (Or.inl rfl) (Or.inl hreading) fun hmem => ?_
      have hmem' : .callback .onConnFail ∈ l.trace ++ [.callback .onRecv] := hmem
      rw [List.mem_append] at hmem'
      exact hmem'.elim (fun hmem => absurd hmem hnf) fun hmem => absurd hmem (by decide)
    · split
      · exact ha.of_closed (Spec.pairwise_change ha.ordered) fun m hm => Spec.mem_change hm
      · exact ha
  | closed conn =>
    have hmem : ∀ m ∈ Spec.without conn a.links, m ∈ a.links := fun m hm =>
      List.mem_of_mem_filter hm
    exact ⟨ha.ordered.sublist List.filter_sublist, fun m hm => ha.time_le m (hmem m hm),
      fun m hm => ha.handle m (hmem m hm), fun m hm => ha.failed m (hmem m hm)⟩
  | heartbeat =>
    rw [Spec.step]
    split
    · exact ha.of_closed (Spec.pairwise_sweep ha.ordered) fun m hm => Spec.mem_sweep hm
    · exact ha
  | advance now =>
    have hle : a.now ≤ now := h.tracks.now_eq ▸ he
    exact ⟨ha.ordered, fun m hm => UInt64.le_trans (ha.time_le m hm) hle, ha.handle, ha.failed⟩
  | user call => exact ha

/-- The connections are ordered along every run without shutdown. -/
theorem exec_timely {s₀ : State} (hstart : uvxServerStart uv now ip port config = .ok (s₀, ret))
    (hns : NoShutdown user es) (hrun : Exec (Step config user) s₀ es s) :
    (Spec.run config now es).Timely := by
  apply exec_induction hstart hns hrun fun _ _ _ hstep => hstep
  · exact Spec.timely_init now
  · intro es t s e s' h ih hstep
    rw [Spec.run_append]
    exact h.timely_step (Spec.loose_run ..) ih hstep.1

/-! ## The sweep as a scan -/

theorem expired_iff {time : UInt64} (h : time ≤ now) :
    expired config now time = true ↔ config.connTimeout < (now.toNat : ℤ) - time.toNat := by
  have := UInt64.le_iff_toNat_le.mp h
  rw [expired, decide_eq_true_iff, UInt64.toNat_sub_of_le _ _ h]
  omega

theorem mem_dropWhile {p : Link → Bool} {links : List Link} (hl : l ∈ links) (hp : ¬ p l = true) :
    l ∈ links.dropWhile p := by
  rw [← List.takeWhile_append_dropWhile (p := p) (l := links), List.mem_append] at hl
  exact hl.resolve_left fun hm => hp (List.mem_takeWhile_imp hm)

theorem Spec.sweep_eq (expired : Link → Bool) (links : List Link) :
    sweep expired links
      = (links.takeWhile expired).map Link.disconnected ++ links.dropWhile expired := by
  induction links with
  | nil => rfl
  | cons l links ih =>
    rw [sweep, List.takeWhile_cons, List.dropWhile_cons]
    split
    · rw [ih, List.map_cons, List.cons_append]
    · rfl

/-- An open connection that is expired stands behind none that is not. -/
theorem Spec.Timely.mem_takeWhile (ha : a.Timely) (hl : l ∈ a.links) (hopen : l.handle ≠ .closing)
    (hexp : expired config a.now l.time = true) :
    l ∈ a.links.takeWhile fun l => expired config a.now l.time := by
  by_contra hnot
  have hsplit := List.takeWhile_append_dropWhile (p := fun l => expired config a.now l.time)
    (l := a.links)
  have hdrop : l ∈ a.links.dropWhile fun l => expired config a.now l.time := by
    rw [← hsplit, List.mem_append] at hl
    exact hl.resolve_left hnot
  cases hd : a.links.dropWhile fun l => expired config a.now l.time with
  | nil => rw [hd] at hdrop; exact absurd hdrop List.not_mem_nil
  | cons m rest =>
    -- `m` is where the sweep stops
    have hm : ¬ expired config a.now m.time = true := by
      have := List.head_dropWhile_not (fun l => expired config a.now l.time) (l := a.links)
        (by rw [hd]; simp)
      simpa [hd] using this
    rw [hd] at hdrop hsplit
    rcases List.mem_cons.mp hdrop with rfl | hrest
    · exact hm hexp
    · have hord := ha.ordered
      rw [← hsplit, List.pairwise_append, List.pairwise_cons] at hord
      have hle : m.time ≤ l.time :=
        (hord.2.1.1 l hrest).resolve_right fun hc => hopen hc.1
      have hml : m ∈ a.links := by rw [← hsplit]; simp
      rw [expired_iff (ha.time_le l hl)] at hexp
      rw [expired_iff (ha.time_le m hml)] at hm
      have := UInt64.le_iff_toNat_le.mp hle
      omega

/-! ## Whole runs -/

/-- A connection on which `uv_close` has not been called. -/
def IsOpen (s : State) (p : Ptr) : Prop := s.handle p = .idle ∨ s.handle p = .reading

instance (s : State) (p : Ptr) : Decidable (IsOpen s p) :=
  inferInstanceAs (Decidable (_ ∨ _))

def lastCommTime (s : State) (p : Ptr) : UInt64 := ((s.heap p).map Conn.lastCommTime).getD 0

/-- The open connections among `ks` are linked in the order of their last communication; those whose
accept failed are closing, with time 0. -/
structure OrderedByTime (s : State) (ks : List Ptr) : Prop where
  linked : ∀ p, IsOpen s p → p ∈ ks
  sorted : (ks.filter fun p => IsOpen s p).Pairwise fun p q => lastCommTime s p ≤ lastCommTime s q
  failed : ∀ p ∈ ks, ∀ c, s.heap p = some c → .callback .onConnFail ∈ s.trace c.serial →
    s.handle p = .closing ∧ c.lastCommTime = 0

theorem Sim.mem_links (h : Sim t s a) (hloose : a.loose = none) {p : Ptr}
    (hp : s.handle p ≠ .unused) : ∃ l ∈ a.links, l.ptr = p := by
  obtain ⟨xs, l, ys, -, hl, hptr, -⟩ := h.exists_put hloose rfl hp
  exact ⟨l, hl, hptr⟩

theorem IsOpen.ne_unused {p : Ptr} (h : IsOpen s p) : s.handle p ≠ .unused := by
  rcases h with h | h <;> rw [h] <;> simp

theorem Sim.orderedByTime (h : Sim t s a) (hloose : a.loose = none) (ha : a.Timely) :
    OrderedByTime s t.keys := by
  rw [h.holds.keys_eq]
  have howns : ∀ l ∈ a.links, Owns s l := fun l hl => h.tracks.owns l (List.mem_append_left _ hl)
  have htime : ∀ l ∈ a.links, lastCommTime s l.ptr = l.time := fun l hl => by
    obtain ⟨c, hc, ht, -⟩ := (howns l hl).conn
    rw [lastCommTime, hc, ← ht]; rfl
  refine ⟨fun p hp => ?_, ?_, fun p hp c hc hf => ?_⟩
  · obtain ⟨l, hl, rfl⟩ := h.mem_links hloose hp.ne_unused
    exact List.mem_map_of_mem hl
  · rw [List.filter_map, List.pairwise_map]
    refine (ha.ordered.sublist List.filter_sublist).imp_of_mem fun {l m} hl hm hlm => ?_
    rw [htime l (List.mem_of_mem_filter hl), htime m (List.mem_of_mem_filter hm)]
    refine hlm.resolve_right fun hc => ?_
    have hopen : IsOpen s m.ptr := by simpa using (List.mem_filter.mp hm).2
    rw [IsOpen, (howns m (List.mem_of_mem_filter hm)).handle_eq, hc.1] at hopen
    simp at hopen
  · obtain ⟨l, hl, rfl⟩ := List.mem_map.mp hp
    obtain ⟨ht, hserial, -⟩ := (howns l hl).of_some hc
    rw [hserial, (howns l hl).trace_eq] at hf
    rw [(howns l hl).handle_eq, ht]
    exact ha.failed l hl hf

/-- What a sweep does to the open connections. -/
theorem Sim.sweep_spec (h : Sim t s a) (hloose : a.loose = none) (ha : a.Timely)
    (hu : ¬ user.Shuts) (hpos : 0 < config.connTimeout) :
    ∃ s', Server.uvxCheckTimeoutClients config user s = .ok ((), s') ∧ ∀ p, IsOpen s p →
      ∃ c, s.heap p = some c ∧ c.lastCommTime ≤ s.now ∧
        (s'.handle p = .closing ↔
          config.connTimeout < (s.now.toNat : ℤ) - c.lastCommTime.toNat) := by
  obtain ⟨_, s', hs', h'⟩ := (h.uvxCheckTimeoutClients (E := fun _ => False) hloose
    (clearShutdown_of_not_shuts config hu) hpos).exists_ok fun _ hf => hf
  refine ⟨s', hs', fun p hp => ?_⟩
  obtain ⟨l, hl, rfl⟩ := h.mem_links hloose hp.ne_unused
  have hown := h.tracks.owns l (List.mem_append_left _ hl)
  obtain ⟨c, hc, ht, -⟩ := hown.conn
  have hnow : s.now = a.now := h.tracks.now_eq
  have hopen : l.handle ≠ .closing := by
    rw [← hown.handle_eq]
    rcases hp with hp | hp <;> rw [hp] <;> simp
  refine ⟨c, hc, by rw [ht, hnow]; exact ha.time_le l hl, ?_⟩
  rw [ht, hnow, ← expired_iff (ha.time_le l hl)]
  have howns' : ∀ m ∈ Spec.sweep (fun l => expired config a.now l.time) a.links, Owns s' m :=
    fun m hm => h'.tracks.owns m (List.mem_append_left _ hm)
  rw [Spec.sweep_eq] at howns'
  constructor
  · intro hclosing
    by_contra hexp
    -- not met by the sweep
    have hdrop := mem_dropWhile (p := fun l => expired config a.now l.time) hl hexp
    have := (howns' l (List.mem_append_right _ hdrop)).handle_eq
    exact hopen (this.symm.trans hclosing)
  · intro hexp
    have hmem := ha.mem_takeWhile hl hopen hexp
    exact (howns' l.disconnected (List.mem_append_left _ (List.mem_map_of_mem hmem))).handle_eq

/-- **The sweep agrees with a full scan.** In every run without shutdown the open connections are
linked in the order of their last communication, and whenever `_uvx_check_timeout_clients` is called,
it closes exactly those open connections whose last communication is longer ago than the timeout. -/
theorem sweep_agrees {s₀ : State} (hon : config.timeoutOn = true) (hpos : 0 < config.connTimeout)
    (hstart : uvxServerStart uv now ip port config = .ok (s₀, ret)) (hns : NoShutdown user es)
    (hrun : Exec (Step config user) s₀ es s) :
    (∃ t, s.conns = some t ∧ OrderedByTime s t.keys) ∧
      ∃ s₁, heartbeatCallback user s = .ok ((), s₁) ∧
        uvOnHeartbeatTimer config user s = uvxCheckTimeoutClients config user s₁ ∧
        ∃ s₂, uvxCheckTimeoutClients config user s₁ = .ok ((), s₂) ∧ ∀ p, IsOpen s₁ p →
          ∃ c, s₁.heap p = some c ∧ c.lastCommTime ≤ s₁.now ∧
            (s₂.handle p = .closing ↔
              config.connTimeout < (s₁.now.toNat : ℤ) - c.lastCommTime.toNat) := by
  obtain ⟨t, h, -⟩ := exec_sim hstart hns hrun
  have hloose := Spec.loose_run config now es
  have ha := exec_timely hstart hns hrun
  refine ⟨⟨t, h.conns, h.orderedByTime hloose ha⟩, ?_⟩
  obtain ⟨_, s₁, hs₁, h₁⟩ := (h.heartbeatCallback (E := fun _ => False) hloose
    (clearShutdown_of_not_shuts config hns.calls)).exists_ok fun _ hf => hf
  have h₁ := h₁.resolve_right fun hd => hns.calls hd.2.2
  refine ⟨s₁, hs₁, ?_, h₁.sweep_spec hloose ha hns.calls hpos⟩
  unfold uvOnHeartbeatTimer
  rw [if_pos hon]
  simp only [run_bind, hs₁, Except.bind]

/-- The connection silent for longer than 180 seconds is closed, and the other one is not. -/
theorem sweep_agrees_silent :
    ∃ s₁ s₂, uvxCheckTimeoutClients smallConfig quietUser s₁ = .ok ((), s₂) ∧
      IsOpen s₁ 0x1000 ∧ s₂.handle 0x1000 = .closing ∧
      IsOpen s₁ 0x2000 ∧ s₂.handle 0x2000 ≠ .closing := by
  let es : List Event := [.connection 0 0x1000 0, .connection 0 0x3000 1, .advance 5,
    .connection 0 0x2000 0, .advance 180001]
  have hrun : ∃ s, runFrom smallConfig quietUser (fun _ _ => True) es = some s ∧
      ((s.heap 0x1000).map Conn.lastCommTime, (s.heap 0x2000).map Conn.lastCommTime) =
        (some 0, some 5) ∧ s.now = 180001 ∧ IsOpen s 0x1000 ∧ IsOpen s 0x2000 := by decide +kernel
  obtain ⟨s, hs, htimes, hnow, hopen₁, hopen₂⟩ := hrun
  obtain ⟨s₀, ret, hstart, hexec⟩ := exec_of_runFrom hs
  obtain ⟨-, s₁, hs₁, -, s₂, hs₂, hclosed⟩ := sweep_agrees rfl (by decide) hstart
    (noShutdown_quietUser (by decide)) hexec.unguarded
  obtain ⟨-, rfl⟩ := Prod.mk.inj (Except.ok.inj hs₁)
  obtain ⟨ht₁, ht₂⟩ := Prod.mk.inj htimes
  refine ⟨_, s₂, hs₂, hopen₁, ?_, hopen₂, ?_⟩
  · obtain ⟨c, hc, -, hiff⟩ := hclosed 0x1000 hopen₁
    rw [show s.heap 0x1000 = some c from hc] at ht₁
    rw [hiff, Option.some_inj.mp ht₁]
    show (180000 : ℤ) < s.now.toNat - _
    rw [hnow]
    decide
  · obtain ⟨c, hc, -, hiff⟩ := hclosed 0x2000 hopen₂
    rw [show s.heap 0x2000 = some c from hc] at ht₂
    rw [ne_eq, hiff, Option.some_inj.mp ht₂]
    show ¬ (180000 : ℤ) < s.now.toNat - _
    rw [hnow]
    decide

end Uvx.Server
