import Uvx.Common.Exec
import Uvx.Server.Handlers

/-!
# The handlers as steps of the abstract server

Every handler ends as the abstract server says (`Sim.handle_spec`). It is stopped only by a table that
has no cell or cannot be doubled.
-/

namespace Uvx.Server

open LinkHash

variable {t : LhTable} {s s' : State} {a : Spec} {l : Link} {config : Config} {user : User}
  {E : Fault → Prop} {xs ys : List Link}

/-! ## The sweep -/

theorem foreachSafe_none {β : Type} (body : Ptr → β → M (ForInStep β)) (fuel : ℕ) (b : β) :
    foreachSafe body fuel none b = pure b := by
  cases fuel <;> rfl

/-- The body of the sweep. -/
theorem Sim.checkTimeout (h : Sim t s (a.put xs l ys)) (hu : ClearShutdown config user) :
    Wp (Server.checkTimeout config user l.ptr ()) E (fun r s' =>
      if expired config a.now l.time then
        r = .yield () ∧ Sim t s' (a.put xs l.disconnected ys)
      else r = .done () ∧ Sim t s' (a.put xs l ys)) s := by
  unfold Server.checkTimeout
  refine Wp.seq (h.touch Spec.mem_put) fun c s₁ ⟨h₁, _, htime, _⟩ => Wp.bind (Wp.get ?_)
  rw [show s₁.now = a.now from h₁.tracks.now_eq, htime]
  split
  · exact Wp.seq (h₁.disconnect hu) fun _ s₂ h₂ => Wp.pure ⟨rfl, h₂⟩
  · exact Wp.pure ⟨rfl, h₁⟩

/-- The loop of the sweep, from the connections `rest` on. -/
theorem Sim.foreachSafe_sweep (hu : ClearShutdown config user) {slots : List ℕ}
    (hrepr : Repr t slots) {done rest : List Link} {sdone srest : List ℕ}
    (hslots : slots = sdone ++ srest) (hkeys : srest.map t.key = rest.map Link.ptr) {fuel : ℕ}
    (hfuel : rest.length ≤ fuel) (h : Sim t s { a with links := done ++ rest, loose := none }) :
    Wp (foreachSafe (Server.checkTimeout config user) fuel srest.head? ()) E
      (fun _ s' => Sim t s' { a with
        links := done ++ Spec.sweep (fun l => expired config a.now l.time) rest
        loose := none }) s := by
  induction rest generalizing done sdone srest fuel s with
  | nil =>
    rw [List.map_nil, List.map_eq_nil_iff] at hkeys
    rw [hkeys, List.head?_nil, foreachSafe_none]
    exact Wp.pure h
  | cons l rest ih =>
    obtain ⟨n, srest, rfl⟩ : ∃ n srest', srest = n :: srest' := by
      cases srest with
      | nil => simp at hkeys
      | cons n srest => exact ⟨n, srest, rfl⟩
    obtain ⟨hn, hkeys⟩ := List.cons_eq_cons.mp hkeys
    have hnext : t.next n = srest.head? := hrepr.threads.next_eq sdone n srest hslots
    cases fuel with
    | zero => simp at hfuel
    | succ fuel =>
      rw [List.head?_cons, foreachSafe]
      apply Wp.seq h.conns_spec
      rintro _ _ ⟨ht, hs⟩
      rw [ht, hs, hn, hnext]
      have hput : Sim t s (a.put done l rest) := h
      apply Wp.seq (hput.checkTimeout hu)
      intro r s₂ h₂
      rw [Spec.sweep]
      by_cases hexp : expired config a.now l.time = true
      · -- the connection is closed, and the sweep goes on with the next one
        rw [if_pos hexp] at h₂ ⊢
        obtain ⟨rfl, h₂⟩ := h₂
        have hslots' : slots = sdone ++ [n] ++ srest := by rw [hslots]; simp
        have h₂' : Sim t s₂ { a with links := done ++ [l.disconnected] ++ rest, loose := none } := by
          simpa [Spec.put] using h₂
        have := ih hslots' hkeys (Nat.le_of_succ_le_succ hfuel) h₂'
        simpa using this
      · rw [if_neg hexp] at h₂ ⊢
        obtain ⟨rfl, h₂⟩ := h₂
        exact Wp.pure h₂

/-- **The sweep.** -/
theorem Sim.uvxCheckTimeoutClients (h : Sim t s a) (hloose : a.loose = none)
    (hu : ClearShutdown config user) (hpos : 0 < config.connTimeout) :
    Wp (uvxCheckTimeoutClients config user) E (fun _ s' => Sim t s' { a with
      links := Spec.sweep (fun l => expired config a.now l.time) a.links }) s := by
  obtain ⟨slots, hrepr, hkeys⟩ := h.holds
  unfold Server.uvxCheckTimeoutClients
  rw [if_neg (by omega)]
  apply Wp.seq h.conns_spec
  rintro _ _ ⟨ht, hs⟩
  have hlen : a.links.length ≤ t.size := by
    have := h.holds.length_le
    rwa [List.length_map] at this
  have h' : Sim t s { a with links := [] ++ a.links, loose := none } := hloose ▸ h
  rw [ht, hs, show t.head = slots.head? from hrepr.threads.head_eq]
  have := Sim.foreachSafe_sweep (E := E) hu hrepr (List.nil_append _).symm hkeys hlen h'
  rw [← hloose] at this
  exact this

/-! ## Finding a connection -/

theorem Spec.find_put (hnodup : ((xs ++ l :: ys).map Link.ptr).Nodup) (ha : a.links = xs ++ l :: ys) :
    a.find l.ptr = some l ∧ Spec.without l.ptr a.links = xs ++ ys ∧
      ∀ f, Spec.change l.ptr f a.links = xs ++ f l :: ys := by
  rw [List.map_append, List.map_cons, List.nodup_middle, List.nodup_cons, ← List.map_append] at hnodup
  have hne : ∀ m ∈ xs ++ ys, m.ptr ≠ l.ptr := fun m hm he =>
    hnodup.1 (he ▸ List.mem_map_of_mem hm)
  have hxs : ∀ m ∈ xs, m.ptr ≠ l.ptr := fun m hm => hne m (List.mem_append_left _ hm)
  have hys : ∀ m ∈ ys, m.ptr ≠ l.ptr := fun m hm => hne m (List.mem_append_right _ hm)
  refine ⟨?_, ?_, ?_⟩
  · rw [Spec.find, ha, List.find?_append, List.find?_eq_none.mpr (by simpa using hxs)]
    simp
  · rw [Spec.without, ha, List.filter_append, List.filter_cons_of_neg (by simp),
      List.filter_eq_self.mpr (by simpa using hxs), List.filter_eq_self.mpr (by simpa using hys)]
  · intro f
    have hmap : ∀ zs : List Link, (∀ m ∈ zs, m.ptr ≠ l.ptr) →
        zs.map (fun m => if m.ptr = l.ptr then f m else m) = zs := fun zs hzs =>
      (List.map_congr_left fun m hm => if_neg (hzs m hm)).trans (List.map_id' zs)
    rw [Spec.change, ha, List.map_append, List.map_cons, if_pos rfl, hmap xs hxs, hmap ys hys]

/-- A handle in use is that of a connection in the table. -/
theorem Sim.exists_put (h : Sim t s a) (hloose : a.loose = none) {p : Ptr} {hd : Handle}
    (hp : s.handle p = hd) (hne : hd ≠ .unused) :
    ∃ xs l ys, a = a.put xs l ys ∧ l ∈ a.links ∧ l.ptr = p ∧ l.handle = hd ∧
      a.find p = some l ∧ Spec.without p a.links = xs ++ ys ∧
      ∀ f, Spec.change p f a.links = xs ++ f l :: ys := by
  by_cases hmem : p ∈ a.owned.map Link.ptr
  · obtain ⟨l, hl, rfl⟩ := List.mem_map.mp hmem
    have howned : a.owned = a.links := by rw [Spec.owned, hloose]; exact List.append_nil _
    obtain ⟨xs, ys, hxs⟩ := List.append_of_mem (howned ▸ hl)
    have hnodup := h.tracks.ptrs
    rw [howned, hxs] at hnodup
    refine ⟨xs, l, ys, ?_, howned ▸ hl, rfl, (h.tracks.owns l hl).handle_eq.symm.trans hp,
      Spec.find_put hnodup hxs⟩
    rw [Spec.put, ← hxs, ← hloose]
  · exact absurd (hp.symm.trans (h.tracks.foreign p hmem).handle_eq) hne

/-! ## Steps -/

/-- The server is shut down by this event, or may be shut down by user code in a callback. -/
def Shuts (user : User) (e : Event) : Prop :=
  e = .user .shutdown ∨ user.Shuts

/-- The server is shut down between handlers only while it has no connection. -/
def ClearEvent (s : State) (e : Event) : Prop :=
  e = .user .shutdown → ∀ t ∈ s.conns, t.count = 0

instance (s : State) (e : Event) : Decidable (ClearEvent s e) :=
  inferInstanceAs (Decidable (_ → _))

theorem Sim.heartbeatCallback (h : Sim t s a) (hloose : a.loose = none)
    (hu : ClearShutdown config user) :
    Wp (heartbeatCallback user) E
      (fun _ s' => Sim t s' a ∨ (Down s' a ∧ ¬ config.sweeps ∧ user.Shuts)) s := by
  unfold Server.heartbeatCallback
  refine Wp.bind (Wp.get (Wp.bind (Wp.modify ?_)))
  refine Sim.callback_heartbeat (t := t) ?_ hu hloose _
  exact h.of_tracks (h.tracks.frame h.tracks.now_eq rfl rfl rfl rfl rfl) ⟨rfl, rfl, rfl⟩

theorem Sim.uvOnHeartbeatTimer (h : Sim t s a) (hloose : a.loose = none)
    (hu : ClearShutdown config user) :
    Wp (uvOnHeartbeatTimer config user) E
      (fun _ s' => Sim t s' (a.step config .heartbeat) ∨ (Down s' a ∧ user.Shuts)) s := by
  unfold Server.uvOnHeartbeatTimer
  apply Wp.seq (h.heartbeatCallback hloose hu)
  intro _ s₁ h₁
  rw [Spec.step]
  by_cases hon : config.timeoutOn = true
  · rw [if_pos hon]
    rcases Int.lt_or_le 0 config.connTimeout with hpos | hpos
    · rw [if_pos ⟨hon, hpos⟩]
      -- user code has not shut the server down in the callback, as the sweep follows
      rcases h₁ with h₁ | ⟨-, hsweep, -⟩
      · exact (h₁.uvxCheckTimeoutClients hloose hu hpos).mono fun _ _ h₂ => Or.inl h₂
      · exact absurd ⟨hon, hpos⟩ hsweep
    · rw [if_neg fun hc => absurd hc.2 (by omega)]
      unfold Server.uvxCheckTimeoutClients
      rw [if_pos hpos]
      exact Wp.pure (h₁.imp_right fun hd => ⟨hd.1, hd.2.2⟩)
  · rw [if_neg hon, if_neg fun hc => hon hc.1]
    exact Wp.pure (h₁.imp_right fun hd => ⟨hd.1, hd.2.2⟩)

/-- **A handler** changes the list of connections as the abstract server does. -/
theorem Sim.handle_spec (h : Sim t s a) (hloose : a.loose = none) (hu : ClearShutdown config user)
    {e : Event} (he : Enabled s e) (hclear : ClearEvent s e) :
    Wp (handle config user e) (Excused t.size) (fun _ s' =>
      (∃ t', t.size ≤ t'.size ∧ Sim t' s' (a.step config e)) ∨ (Down s' a ∧ Shuts user e)) s := by
  cases e with
  | connection status conn accepted =>
    obtain ⟨-, hp, hk₁, hk₂⟩ := he
    show Wp (Server.uvxOnConnection config user status conn accepted) _ _ s
    rw [Spec.step]
    by_cases hst : status = 0
    · rw [if_pos hst, hst]
      have hkey : IsKey conn := fun hv => hv.elim hk₁ hk₂
      refine (h.uvxOnConnection hloose hu hp hkey accepted).mono fun _ s' ⟨t', hsize, h'⟩ =>
        Or.inl ⟨t', hsize, ?_⟩
      rw [hloose]
      exact h'
    · rw [if_neg hst]
      unfold Server.uvxOnConnection
      rw [if_neg hst]
      exact Wp.pure (Or.inl ⟨t, Nat.le_refl _, h⟩)
  | read conn nread =>
    obtain ⟨xs, l, ys, ha, -, rfl, -, hfind, hwithout, hchange⟩ :=
      h.exists_put hloose he (by simp)
    show Wp (Server.uvxOnRead user l.ptr nread) _ _ s
    rw [Spec.step, hfind, hwithout, hchange]
    have hput : Sim t s (a.put xs l ys) := ha ▸ h
    -- a read error, nothing read, or data
    rcases Int.lt_trichotomy nread 0 with hn | hn | hn
    · rw [if_neg (by omega), if_pos hn]
      refine (hput.uvxOnRead_error hu hn).mono fun _ s' h' => Or.inl ⟨t, Nat.le_refl _, ?_⟩
      rw [hloose]; exact h'
    · rw [if_neg (by omega), if_neg (by omega), hn]
      exact (hput.uvxOnRead_zero Spec.mem_put).mono fun _ s' h' =>
        Or.inl ⟨t, Nat.le_refl _, ha.symm ▸ h'⟩
    · rw [if_pos hn]
      refine (hput.uvxOnRead_data hu hn).mono fun _ s' ⟨t', hsize, h'⟩ => Or.inl ⟨t', hsize, ?_⟩
      rw [hloose]; exact h'
  | closed conn =>
    obtain ⟨xs, l, ys, ha, -, rfl, -, hfind, hwithout, -⟩ := h.exists_put hloose he (by simp)
    have hput : Sim t s (a.put xs l ys) := ha ▸ h
    refine Wp.bind (Wp.modify ?_)
    refine ((hput.setHandle .unused).uvAfterCloseConnection hu rfl).mono
      fun _ s' ⟨t', hsize, h'⟩ => Or.inl ⟨t', Nat.le_of_eq hsize.symm, ?_⟩
    rw [Spec.step, hfind, hwithout, hloose]
    exact h'
  | heartbeat =>
    exact (h.uvOnHeartbeatTimer hloose hu).mono fun _ s' h' => h'.imp
      (fun h' => ⟨t, Nat.le_refl _, h'⟩) fun hd => ⟨hd.1, Or.inr hd.2⟩
  | advance now =>
    exact Wp.modify (Or.inl ⟨t, Nat.le_refl _,
      ⟨h.tracks.frame rfl rfl rfl rfl rfl rfl, h.conns, h.holds⟩⟩)
  | user call =>
    by_cases hcall : call = .shutdown
    · subst hcall
      have hcount := hclear rfl t h.conns
      rw [h.holds.count_eq, List.length_map] at hcount
      have howned : a.owned = [] := by
        rw [Spec.owned, hloose, List.length_eq_zero_iff.mp (show a.links.length = 0 by omega)]; rfl
      exact (h.shutdown howned).mono fun _ _ hd => Or.inr ⟨hd, Or.inl rfl⟩
    · exact (h.userCall hcall).mono fun _ _ h' => Or.inl ⟨t, Nat.le_refl _, h'⟩

end Uvx.Server
