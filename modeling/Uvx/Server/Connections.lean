import Uvx.Server.Runs

/-!
# The table as the ordered set of the connections

Along a run without shutdown the list of the table is the one that the events alone prescribe: an
accepted connection goes last, data moves its connection to the end, and a close callback takes it
out. Iterating the connections visits exactly this list, and no assertion fails (`table_exact`).
-/

namespace Uvx.Server

open LinkHash

variable {t : LhTable} {s s' : State} {a : Spec} {config : Config} {user : User} {es : List Event}
  {uv : Libuv} {now : UInt64} {ip : List UInt8} {port : ℤ} {ret : ℤ}

/-- What an event does to the connections, by the event alone. -/
def reorder (conns : List Ptr) : Event → List Ptr
  | .connection status conn _ => if status = 0 then conns ++ [conn] else conns
  | .read conn nread => if 0 < nread then conns.erase conn ++ [conn] else conns
  | .closed conn => conns.erase conn
  | .heartbeat | .advance _ | .user _ => conns

/-- The connections inserted and not yet removed, by their latest insertion. -/
def reference (es : List Event) : List Ptr := es.foldl reorder []

theorem reference_append (es : List Event) (e : Event) :
    reference (es ++ [e]) = reorder (reference es) e := by
  rw [reference, List.foldl_append]; rfl

theorem Spec.map_ptr_change {f : Link → Link} (hf : ∀ l, (f l).ptr = l.ptr) (conn : Ptr)
    (links : List Link) : (change conn f links).map Link.ptr = links.map Link.ptr := by
  rw [change, List.map_map]
  refine List.map_congr_left ?_
  intro l _
  simp only [Function.comp_apply]
  split
  · exact hf l
  · rfl

theorem Spec.map_ptr_sweep (expired : Link → Bool) (links : List Link) :
    (sweep expired links).map Link.ptr = links.map Link.ptr := by
  induction links with
  | nil => rfl
  | cons l links ih =>
    rw [sweep]
    split
    · rw [List.map_cons, ih, List.map_cons]; rfl
    · rfl

theorem map_ptr_erase {xs ys : List Link} {l : Link}
    (hnodup : ((xs ++ l :: ys).map Link.ptr).Nodup) :
    ((xs ++ l :: ys).map Link.ptr).erase l.ptr = (xs ++ ys).map Link.ptr := by
  rw [List.map_append, List.map_cons] at hnodup ⊢
  have hl : l.ptr ∉ xs.map Link.ptr := fun hmem =>
    (List.nodup_append.mp hnodup).2.2 _ hmem _ (by simp) rfl
  rw [List.erase_append_right _ hl, List.erase_cons_head, List.map_append]

/-- The abstract server orders its connections as the events prescribe. -/
theorem Sim.map_ptr_step (h : Sim t s a) (hloose : a.loose = none) {e : Event}
    (he : Enabled s e) : (a.step config e).links.map Link.ptr = reorder (a.links.map Link.ptr) e := by
  cases e with
  | connection status conn accepted =>
    rw [Spec.step, reorder]
    split
    · rw [List.map_append, List.map_singleton, Link.accept]
      split <;> rfl
    · rfl
  | read conn nread =>
    obtain ⟨xs, l, ys, ha, -, rfl, -, hfind, hwithout, -⟩ := h.exists_put hloose he (by simp)
    have hlinks : a.links = xs ++ l :: ys := congrArg Spec.links ha
    have hnodup := h.holds.nodup
    rw [hlinks] at hnodup
    rw [Spec.step, reorder, hfind, hwithout]
    split
    · rw [hlinks, map_ptr_erase hnodup, List.map_append]
      rfl
    · split
      · exact Spec.map_ptr_change (f := Link.disconnected) (fun _ => rfl) _ _
      · rfl
  | closed conn =>
    obtain ⟨xs, l, ys, ha, -, rfl, -, -, hwithout, -⟩ := h.exists_put hloose he (by simp)
    have hlinks : a.links = xs ++ l :: ys := congrArg Spec.links ha
    have hnodup := h.holds.nodup
    rw [hlinks] at hnodup
    rw [Spec.step, reorder, hwithout, hlinks, map_ptr_erase hnodup]
  | heartbeat =>
    rw [Spec.step, reorder]
    split
    · exact Spec.map_ptr_sweep _ _
    · rfl
  | advance now => rfl
  | user call => rfl

/-- The connections of the abstract server are those of the events. -/
theorem map_ptr_run {s₀ : State} (hstart : uvxServerStart uv now ip port config = .ok (s₀, ret))
    (hns : NoShutdown user es) (hrun : Exec (Step config user) s₀ es s) :
    (Spec.run config now es).links.map Link.ptr = reference es := by
  apply exec_induction hstart hns hrun fun _ _ _ hstep => hstep
  · rfl
  · intro es t s e s' h ih hstep
    rw [Spec.run_append, reference_append, h.map_ptr_step (Spec.loose_run ..) hstep.1, ih]

/-! ## Iterating -/

/-- A loop over the list whose body never breaks and leaves the table alone is a loop over the keys. -/
theorem foreachSafe_yield {β : Type} {onIterConn : Ptr → β → M β}
    (hkeep : ∀ conn b s b' s', onIterConn conn b s = .ok (b', s') → s'.conns = s.conns)
    {slots : List ℕ} (hrepr : Repr t slots) {sdone srest : List ℕ} (hslots : slots = sdone ++ srest)
    {fuel : ℕ} (hfuel : srest.length ≤ fuel) (hs : s.conns = some t) (b : β) :
    foreachSafe (fun conn b => ForInStep.yield <$> onIterConn conn b) fuel srest.head? b s
      = (srest.map t.key).foldlM (fun b conn => onIterConn conn b) b s := by
  induction srest generalizing sdone fuel s b with
  | nil => rw [List.head?_nil, foreachSafe_none]; rfl
  | cons n srest ih =>
    cases fuel with
    | zero => simp at hfuel
    | succ fuel =>
      have hnext : t.next n = srest.head? := hrepr.threads.next_eq sdone n srest hslots
      have hslots' : slots = sdone ++ [n] ++ srest := by rw [hslots]; simp
      rw [List.head?_cons, foreachSafe, List.map_cons, List.foldlM_cons]
      simp only [run_bind, run_map, conns_eq hs, Except.bind]
      cases hbody : onIterConn (t.key n) b s with
      | error fault => rfl
      | ok r =>
        have hs' : r.2.conns = some t := (hkeep _ _ _ _ _ hbody).trans hs
        rw [hnext]
        exact ih hslots' (Nat.le_of_succ_le_succ hfuel) hs' r.1

/-- `uvx_server_iter_conns` -/
theorem uvxServerIterConns_eq {β : Type} {onIterConn : Ptr → β → M β}
    (hkeep : ∀ conn b s b' s', onIterConn conn b s = .ok (b', s') → s'.conns = s.conns)
    {ks : List Ptr} (hs : s.conns = some t) (hholds : Holds t ks) (b : β) :
    uvxServerIterConns onIterConn b s =
      (do
        let b ← ks.foldlM (fun b conn => onIterConn conn b) b
        pure (b, (ks.length : ℤ))) s := by
  have hcount := hholds.count_eq
  obtain ⟨slots, hrepr, rfl⟩ := hholds
  have hloop := foreachSafe_yield hkeep hrepr (List.nil_append _).symm hrepr.length_le hs b
  rw [← show t.head = slots.head? from hrepr.threads.head_eq] at hloop
  have hfold : ∀ ks b s b' s', List.foldlM (fun b conn => onIterConn conn b) b ks s = .ok (b', s') →
      s'.conns = s.conns := by
    intro ks
    induction ks with
    | nil =>
      intro b s b' s' h
      obtain ⟨-, rfl⟩ := Prod.mk.inj (Except.ok.inj h)
      rfl
    | cons k ks ih =>
      intro b s b' s' h
      rw [List.foldlM_cons] at h
      cases hbody : onIterConn k b s with
      | error fault => simp [run_bind, hbody, Except.bind] at h
      | ok r =>
        simp only [run_bind, hbody, Except.bind] at h
        exact (ih _ _ _ _ h).trans (hkeep _ _ _ _ _ hbody)
  unfold uvxServerIterConns
  simp only [run_bind, conns_eq hs, Except.bind, hloop]
  cases hrun : List.foldlM (fun b conn => onIterConn conn b) b (slots.map t.key) s with
  | error fault => rfl
  | ok r =>
    have hs' : r.2.conns = some t := (hfold _ _ _ _ _ hrun).trans hs
    simp only [conns_eq hs', hcount]

/-! ## Whole runs -/

/-- **The table is exact.** After every run without shutdown the list of the table has each
connection inserted and not yet removed once, by its latest insertion; the iteration visits them in
this order and returns their number; and every handler that may run next ends, past its assertions. -/
theorem table_exact {s₀ : State} (hcount : 1 ≤ config.connCount.toInt)
    (hstart : uvxServerStart uv now ip port config = .ok (s₀, ret)) (hns : NoShutdown user es)
    (hrun : Exec (Step config user) s₀ es s) (hsize : ∀ t, s.conns = some t → t.size < 2 ^ 30) :
    (∃ t, s.conns = some t ∧ t.keys = reference es) ∧ (reference es).Nodup ∧
      (∀ (β : Type) (onIterConn : Ptr → β → M β) (userdata : β),
        (∀ conn b s b' s', onIterConn conn b s = .ok (b', s') → s'.conns = s.conns) →
        uvxServerIterConns onIterConn userdata s =
          (do
            let b ← (reference es).foldlM (fun b conn => onIterConn conn b) userdata
            pure (b, ((reference es).length : ℤ))) s) ∧
      ∀ e, Enabled s e → e ≠ .user .shutdown → ∃ s', handle config user e s = .ok ((), s') := by
  obtain ⟨t, h, hle⟩ := exec_sim hstart hns hrun
  have hholds := h.holds
  rw [map_ptr_run hstart hns hrun] at hholds
  refine ⟨⟨t, h.conns, hholds.keys_eq⟩, hholds.nodup, fun β onIterConn userdata hkeep =>
    uvxServerIterConns_eq hkeep h.conns hholds userdata, fun e he hne => ?_⟩
  exact h.exists_ok (Spec.loose_run ..) hns.calls (by omega) (hsize t h.conns) he hne

/-- The table is doubled for the third connection, and data moves the first one to the end. -/
theorem table_exact_resized :
    ∃ s, (∃ t, s.conns = some t ∧ t.keys = [0x2000, 0x1000] ∧ t.size = 4) ∧
      uvxServerIterConns (fun conn ks => pure (ks ++ [conn])) [] s
        = (do pure ([0x2000, 0x1000], 2) : M (List Ptr × ℤ)) s := by
  let es : List Event := [.connection 0 0x1000 0, .connection 0 0x2000 0, .connection 0 0x3000 1,
    .read 0x1000 7, .closed 0x3000]
  have hrun : ∃ s, runFrom smallConfig quietUser (fun _ _ => True) es = some s ∧
      (s.conns.map fun t => t.size) = some 4 := by decide +kernel
  obtain ⟨s, hs, hsize⟩ := hrun
  obtain ⟨s₀, ret, hstart, hexec⟩ := exec_of_runFrom hs
  have hsize' : ∀ t, s.conns = some t → t.size = 4 := fun t ht => by
    rw [ht] at hsize
    exact Option.some_inj.mp hsize
  obtain ⟨⟨t, ht, hkeys⟩, -, hiter, -⟩ := table_exact (by decide) hstart
    (noShutdown_quietUser (by decide)) hexec.unguarded fun t ht => by rw [hsize' t ht]; decide
  refine ⟨s, ⟨t, ht, hkeys, hsize' t ht⟩, hiter _ _ _ ?_⟩
  intro conn b s b' s' h
  obtain ⟨-, rfl⟩ := Prod.mk.inj (Except.ok.inj h)
  rfl

end Uvx.Server
