import Uvx.Server.Sim

/-!
# The handlers follow the abstract server

A connection enters the table, moves to its end or leaves it while the server has a reference on it;
each handler then does to the list of connections what `Spec.step` says (`handle_spec`).
-/

namespace Uvx.Server

open LinkHash

variable {t : LhTable} {s s' : State} {a : Spec} {l : Link} {config : Config} {user : User}
  {E : Fault → Prop} {xs ys : List Link}

/-! ## Entering and leaving the table -/

/-- The order of the connections does not matter for the memory. -/
theorem Tracks.perm (h : Tracks s a) {a' : Spec} (howned : a'.owned.Perm a.owned)
    (hgone : a'.gone = a.gone) (hnow : a'.now = a.now) (hacc : a'.accepted = a.accepted) :
    Tracks s a' := by
  have hall : a'.all.Perm a.all := by
    rw [Spec.all, Spec.all, hgone]
    exact howned.append_right _
  refine ⟨hnow ▸ h.now_eq, hacc ▸ h.accepted_eq, (howned.map _).nodup_iff.mpr h.ptrs,
    (hall.map _).nodup_iff.mpr h.serials, fun l hl => ?_,
    fun n hn => (hall.map _).mem_iff.mpr (h.cover n (hacc ▸ hn)), fun n hn => h.fresh n (hacc ▸ hn),
    fun l hl => h.owns l (howned.mem_iff.mp hl), fun g hg => h.dropped g (hgone ▸ hg),
    fun p hp => ?_⟩
  · rw [hacc]
    exact h.serial_lt l (hall.mem_iff.mp hl)
  · rw [hgone]
    exact h.foreign p fun hmem => hp ((howned.map _).mem_iff.mpr hmem)

/-- The table is not part of the memory of the connections. -/
theorem Tracks.setConns (h : Tracks s a) (t : Option LhTable) :
    Tracks { s with conns := t } a :=
  h.frame h.now_eq rfl rfl rfl rfl rfl

theorem conns_eq (h : s.conns = some t) : conns s = .ok (t, s) := by
  simp [conns, h, run_bind, run_get, run_pure, Except.bind]

theorem Sim.conns_spec (h : Sim t s a) :
    Wp Server.conns E (fun t' s' => t' = t ∧ s' = s) s :=
  Wp.of_ok (conns_eq h.conns) ⟨rfl, rfl⟩

/-- A connection in the table is deleted. -/
theorem Sim.tableDelete (h : Sim t s (a.put xs l ys)) :
    Wp (tableDelete l.ptr) E (fun r s' => r = 0 ∧ ∃ t', t'.size = t.size ∧
      Sim t' s' { a with links := xs ++ ys, loose := some l }) s := by
  have hholds := h.holds
  have hkeys : (a.put xs l ys).links.map Link.ptr
      = xs.map Link.ptr ++ l.ptr :: ys.map Link.ptr := by simp [Spec.put]
  rw [hkeys] at hholds
  obtain ⟨t', hdel, hholds', hsize⟩ := hholds.delete (k := l.ptr) (by simp)
  have hl : l.ptr ∉ xs.map Link.ptr := fun hmem =>
    (List.nodup_append.mp hholds.nodup).2.2 _ hmem _ (by simp) rfl
  rw [List.erase_append_right _ hl, List.erase_cons_head] at hholds'
  unfold Server.tableDelete
  apply Wp.seq h.conns_spec
  rintro _ _ ⟨ht, hs⟩
  rw [ht, hs, hdel]
  refine Wp.bind (Wp.pure (Wp.bind (Wp.modify (Wp.pure ⟨rfl, t', hsize, ?_, rfl, ?_⟩))))
  · refine (h.tracks.setConns _).perm ?_ rfl rfl rfl
    rw [Spec.owned_put]
    show ((xs ++ ys) ++ [l]).Perm _
    rw [List.append_assoc]
    exact List.perm_append_left_iff xs |>.mpr (List.perm_append_singleton l ys)
  · simpa using hholds'

/-- A connection of the server is put last in the table. -/
theorem Sim.tableInsert {links : List Link}
    (h : Sim t s { a with links := links, loose := some l }) :
    Wp (tableInsert l.ptr) (Excused t.size) (fun _ s' => ∃ t', t.size ≤ t'.size ∧
      Sim t' s' (a.put links l [])) s := by
  have hptrs := h.tracks.ptrs
  have howned : Spec.owned { a with links := links, loose := some l } = links ++ [l] := rfl
  rw [howned, List.map_append, List.nodup_append] at hptrs
  have hmem : l.ptr ∉ links.map Link.ptr := fun hmem =>
    hptrs.2.2 _ hmem _ (by simp) rfl
  have hkey : IsKey l.ptr := (h.tracks.owns l (by simp [howned])).isKey
  unfold Server.tableInsert
  apply Wp.seq h.conns_spec
  rintro _ _ ⟨ht, hs⟩
  rw [ht, hs]
  rcases h.holds.insert hkey hmem l.ptr with ⟨t', hins, hholds, hsize⟩ | ⟨hz, hins⟩ | ⟨hbig, hins⟩
  · rw [hins]
    refine Wp.bind (Wp.pure (Wp.modify ⟨t', hsize, ?_, rfl, ?_⟩))
    · refine (h.tracks.setConns _).perm ?_ rfl rfl rfl
      rw [Spec.owned_put, howned]
    · simpa [Spec.put] using hholds
  · rw [hins]
    exact Wp.bind (Wp.of_error rfl (Or.inl ⟨hz, rfl⟩))
  · rw [hins]
    exact Wp.bind (Wp.of_error rfl (Or.inr ⟨hbig, rfl⟩))

/-- What `uvx_server_conn_ref(conn, -1)` of the server leaves at `p`. -/
def State.unref (s : State) (p : Ptr) (c : Conn) : State :=
  if s.held p = 0 then s.dropRef p c
  else { s with heap := Function.update s.heap p (some { c with refcount := c.refcount + -1 }) }

section Fields

variable (s : State) (p q : Ptr) (c : Conn) (n : ℕ)

theorem heap_unref : (s.unref p c).heap q =
    if q = p then (if s.held p = 0 then none else some { c with refcount := c.refcount + -1 })
    else s.heap q := by
  unfold State.unref
  split
  · exact heap_dropRef ..
  · exact Function.update_apply ..

theorem held_unref : (s.unref p c).held q = s.held q := by
  unfold State.unref
  split
  · next h =>
    rw [held_dropRef]
    split
    · next hq => rw [hq, h]
    · rfl
  · rfl

theorem trace_unref : (s.unref p c).trace n =
    if n = c.serial ∧ s.held p = 0 then s.trace n ++ [.freed] else s.trace n := by
  unfold State.unref
  split
  · next h =>
    rw [trace_dropRef]
    by_cases hn : n = c.serial
    · rw [if_pos hn, if_pos ⟨hn, h⟩, hn]
    · rw [if_neg hn, if_neg fun hc => hn hc.1]
  · next h => rw [if_neg fun hc => h hc.2]

theorem handle_unref : (s.unref p c).handle q = s.handle q := by
  unfold State.unref
  split <;> rfl

end Fields

theorem sameBut_unref (s : State) (p : Ptr) (c : Conn) : SameBut s (s.unref p c) := by
  unfold State.unref
  split <;> exact ⟨rfl, rfl, rfl⟩

/-- The connection on which the reference is dropped is freed or not, as its trace says. -/
theorem Dropped.unref_self {c : Conn} (hserial : c.serial = l.serial)
    (htrace : s.trace l.serial = l.trace) : Dropped (s.unref l.ptr c) l := by
  by_cases hheld : s.held l.ptr = 0
  · refine Or.inr ⟨?_, by rw [trace_unref, if_pos ⟨hserial.symm, hheld⟩, htrace]⟩
    rintro ⟨c', hc', -⟩
    rw [heap_unref, if_pos rfl, if_pos hheld] at hc'
    exact absurd hc' (by simp)
  · refine Or.inl ⟨⟨{ c with refcount := c.refcount + -1 }, ?_, hserial⟩, ?_⟩
    · rw [heap_unref, if_pos rfl, if_neg hheld]
    · rw [trace_unref, if_neg fun h => hheld h.2, htrace]

/-- Its memory is free or held by user code alone. -/
theorem Foreign.unref_self {gone : List Link} {c : Conn} (hhandle : s.handle l.ptr = .unused)
    (hserial : c.serial = l.serial) (href : c.refcount = s.held l.ptr + 1) (hl : l ∈ gone) :
    Foreign (s.unref l.ptr c) gone l.ptr := by
  refine ⟨(handle_unref ..).trans hhandle, ?_⟩
  rw [heap_unref, held_unref, if_pos rfl]
  by_cases hheld : s.held l.ptr = 0
  · exact Or.inl ⟨if_pos hheld, hheld⟩
  · refine Or.inr ⟨_, if_neg hheld, ?_, Nat.pos_of_ne_zero hheld, l, hl, rfl, hserial.symm⟩
    simp only
    omega

theorem Foreign.mono {gone gone' : List Link} {p : Ptr} (h : Foreign s gone p)
    (hsub : ∀ g ∈ gone, g ∈ gone') : Foreign s gone' p := by
  refine ⟨h.handle_eq, h.heap.imp_right ?_⟩
  rintro ⟨c, hc, href, hpos, g, hg, hgp⟩
  exact ⟨c, hc, href, hpos, g, hsub g hg, hgp⟩

/-- Other connections that have been dropped do not notice. -/
theorem Tracks.dropped_unref (h : Tracks s a) (hl : l ∈ a.owned) {c : Conn}
    (hserial : c.serial = l.serial) {g : Link} (hg : g ∈ a.gone) : Dropped (s.unref l.ptr c) g := by
  have hne := h.serial_ne hl hg
  have htrace : (s.unref l.ptr c).trace g.serial = s.trace g.serial := by
    rw [trace_unref, if_neg]
    rintro ⟨he, -⟩
    exact hne (he.trans hserial)
  refine (h.dropped g hg).congr ?_ htrace
  by_cases hp : g.ptr = l.ptr
  · -- the address is in use again, so `g` is freed already
    refine iff_of_false ?_ (h.not_live hl hg hp)
    rintro ⟨c', hc', hs⟩
    rw [heap_unref, if_pos hp] at hc'
    split at hc'
    · exact absurd hc' (by simp)
    · rw [← Option.some_inj.mp hc'] at hs
      exact hne (hs.symm.trans hserial)
  · rw [Live, Live, heap_unref, if_neg hp]

/-- The server drops its reference on a connection that is not in the table. -/
theorem Tracks.unref {links : List Link} {c : Conn}
    (h : Tracks s { a with links := links, loose := some l }) (hl : l.handle = .unused)
    (hc : s.heap l.ptr = some c) :
    Tracks (s.unref l.ptr c) { a with links := links, loose := none, gone := a.gone ++ [l] } := by
  have howned : Spec.owned { a with links := links, loose := some l } = links ++ [l] := rfl
  have howned' : Spec.owned
      { a with links := links, loose := none, gone := a.gone ++ [l] } = links := List.append_nil _
  have hall : (Spec.all { a with links := links, loose := none, gone := a.gone ++ [l] }).Perm
      (Spec.all { a with links := links, loose := some l }) := by
    rw [Spec.all, Spec.all, howned, howned', List.append_assoc]
    exact List.perm_append_left_iff links |>.mpr List.perm_append_comm
  have hmem : l ∈ Spec.owned { a with links := links, loose := some l } := by simp [howned]
  have hown := h.owns l hmem
  obtain ⟨-, hserial, href⟩ := hown.of_some hc
  have hptrs := h.ptrs
  rw [howned, List.map_append, List.nodup_append] at hptrs
  have hne : ∀ m ∈ links, m.ptr ≠ l.ptr := fun m hm =>
    hptrs.2.2 _ (List.mem_map_of_mem hm) _ (by simp)
  have htrace : ∀ n, n ≠ l.serial → (s.unref l.ptr c).trace n = s.trace n := fun n hn => by
    rw [trace_unref, if_neg]; rintro ⟨rfl, -⟩; exact hn hserial
  have hheap : ∀ p, p ≠ l.ptr → (s.unref l.ptr c).heap p = s.heap p := fun p hp => by
    rw [heap_unref, if_neg hp]
  refine ⟨?_, ?_, ?_, (hall.map _).nodup_iff.mpr h.serials,
    fun m hm => h.serial_lt m (hall.mem_iff.mp hm),
    fun n hn => (hall.map _).mem_iff.mpr (h.cover n hn), fun n hn => ?_, fun m hm => ?_,
    fun g hg => ?_, fun p hp => ?_⟩
  · unfold State.unref
    split <;> exact h.now_eq
  · unfold State.unref
    split <;> exact h.accepted_eq
  · rw [howned']; exact hptrs.1
  · have := h.serial_lt l (Tracks.mem_all_of_owned hmem)
    simp only at hn this
    rw [htrace n (by omega)]
    exact h.fresh n hn
  · -- the connections that stay
    rw [howned'] at hm
    have hm' : m ∈ Spec.owned { a with links := links, loose := some l } := List.mem_append_left _ hm
    refine (h.owns m hm').congr (handle_unref ..) (htrace _ fun he => hne m hm ?_)
      (hheap _ (hne m hm)) (held_unref ..)
    rw [h.eq_of_serial (Tracks.mem_all_of_owned hm') (Tracks.mem_all_of_owned hmem) he]
  · rcases List.mem_append.mp hg with hg | hg
    · exact h.dropped_unref hmem hserial hg
    · obtain rfl := List.mem_singleton.mp hg
      exact .unref_self hserial hown.trace_eq
  · rw [howned'] at hp
    by_cases hpl : p = l.ptr
    · subst hpl
      exact .unref_self (hown.handle_eq.trans hl) hserial href (by simp)
    · refine ((h.foreign p ?_).congr (handle_unref ..) (hheap p hpl) (held_unref ..)).mono
        fun g hg => List.mem_append_left _ hg
      rw [howned, List.map_append, List.mem_append, List.map_singleton, List.mem_singleton]
      exact fun hmem => hmem.elim hp hpl

/-- The server drops its reference on a connection that has left the table. -/
theorem Sim.release {links : List Link}
    (h : Sim t s { a with links := links, loose := some l }) (hl : l.handle = .unused) :
    Wp (uvxServerConnRef l.ptr (-1)) E
      (fun _ s' => Sim t s' { a with links := links, loose := none, gone := a.gone ++ [l] }) s := by
  obtain ⟨c, hc, -, -, href⟩ := (h.tracks.owns l (List.mem_append_right _ (by simp))).conn
  have hrun : uvxServerConnRef l.ptr (-1) s = .ok ((), s.unref l.ptr c) := by
    rw [uvxServerConnRef_eq hc (Or.inr rfl), State.unref]
    by_cases hheld : s.held l.ptr = 0
    · rw [if_pos (show c.refcount + -1 = 0 by omega), if_pos hheld, State.dropRef]
      congr 2
      rw [← hheld, Function.update_eq_self]
    · rw [if_neg (show ¬ c.refcount + -1 = 0 by omega), if_neg hheld]
  exact Wp.of_ok hrun ⟨h.tracks.unref hl hc, (sameBut_unref ..).conns_eq.trans h.conns, h.holds⟩

/-- The memory for a new connection. -/
def State.alloc (s : State) (p : Ptr) : State :=
  { s with
    heap := Function.update s.heap p (some ⟨0, 1, s.accepted⟩)
    accepted := s.accepted + 1 }

/-- The connection it is for. -/
def Link.fresh (p : Ptr) (serial : ℕ) : Link := ⟨p, serial, 0, .unused, []⟩

theorem heap_alloc (s : State) (p q : Ptr) :
    (s.alloc p).heap q = if q = p then some ⟨0, 1, s.accepted⟩ else s.heap q :=
  Function.update_apply ..

/-- A connection gets memory. -/
theorem Sim.alloc (h : Sim t s a) (hloose : a.loose = none) {p : Ptr} (hp : s.heap p = none)
    (hkey : IsKey p) :
    Sim t (s.alloc p)
      { a with accepted := a.accepted + 1, loose := some (.fresh p a.accepted) } := by
  have ht := h.tracks
  have howned : a.owned = a.links := by rw [Spec.owned, hloose]; exact List.append_nil _
  have hfree : p ∉ a.owned.map Link.ptr := fun hmem => by
    obtain ⟨l, hl, rfl⟩ := List.mem_map.mp hmem
    obtain ⟨c, hc, -⟩ := (ht.owns l hl).conn
    rw [hp] at hc
    exact absurd hc (by simp)
  have hheld : s.held p = 0 := by
    rcases (ht.foreign p hfree).heap with ⟨-, hz⟩ | ⟨c, hc, -⟩
    · exact hz
    · rw [hp] at hc; exact absurd hc (by simp)
  have howned' : Spec.owned
      { a with accepted := a.accepted + 1, loose := some (.fresh p a.accepted) }
        = a.owned ++ [.fresh p a.accepted] := by rw [howned]; rfl
  have hall : (Spec.all
      { a with accepted := a.accepted + 1, loose := some (.fresh p a.accepted) }).Perm
        (.fresh p a.accepted :: a.all) := by
    rw [Spec.all, Spec.all, howned', List.append_assoc]
    exact List.perm_middle
  refine ⟨⟨ht.now_eq, congrArg (· + 1) ht.accepted_eq, ?_, (hall.map _).nodup_iff.mpr ?_,
    fun m hm => ?_, fun n hn => (hall.map _).mem_iff.mpr ?_,
    fun n hn => ht.fresh n (Nat.le_of_succ_le hn), fun m hm => ?_, fun g hg => ?_,
    fun q hq => ?_⟩, h.conns, h.holds⟩
  · -- the address is that of no connection of the server
    rw [howned', List.map_append, List.nodup_append]
    refine ⟨ht.ptrs, List.nodup_singleton _, fun q hq r hr he => hfree ?_⟩
    rw [List.map_singleton, List.mem_singleton] at hr
    have hqp : q = p := he.trans hr
    exact hqp ▸ hq
  · -- and the serial number is new
    rw [List.map_cons, List.nodup_cons]
    refine ⟨?_, ht.serials⟩
    intro hmem
    obtain ⟨m, hm, he⟩ := List.mem_map.mp hmem
    have := ht.serial_lt m hm
    rw [he] at this
    exact Nat.lt_irrefl _ this
  · rcases List.mem_cons.mp (hall.mem_iff.mp hm) with rfl | hm
    · exact Nat.lt_succ_self _
    · exact Nat.lt_succ_of_lt (ht.serial_lt m hm)
  · rw [List.map_cons, List.mem_cons]
    exact (Nat.lt_succ_iff_lt_or_eq.mp hn).symm.imp_right (ht.cover n)
  · rw [howned', List.mem_append, List.mem_singleton] at hm
    rcases hm with hm | rfl
    · have hmp : m.ptr ≠ p := fun he => hfree (he ▸ List.mem_map_of_mem hm)
      exact (ht.owns m hm).congr rfl rfl (by rw [heap_alloc, if_neg hmp]) rfl
    · refine ⟨hkey, (ht.foreign p hfree).handle_eq, ht.fresh _ (Nat.le_refl _), ⟨0, 1, s.accepted⟩,
        ?_, rfl, ht.accepted_eq, ?_⟩
      · rw [heap_alloc]; exact if_pos rfl
      · show (1 : ℤ) = s.held p + 1
        rw [hheld]; rfl
  · refine (ht.dropped g hg).congr ?_ rfl
    rw [Live, Live, heap_alloc]
    by_cases hgp : g.ptr = p
    · -- the memory of `g` is used again, for a connection with another serial number
      rw [if_pos hgp, hgp, hp]
      refine iff_of_false ?_ (by simp)
      rintro ⟨c, hc, hs⟩
      have := ht.serial_lt g (List.mem_append_right _ hg)
      rw [← hs, ← Option.some_inj.mp hc, ← ht.accepted_eq] at this
      exact Nat.lt_irrefl _ this
    · rw [if_neg hgp]
  · rw [howned', List.map_append, List.mem_append, List.map_singleton, List.mem_singleton] at hq
    have hqp : q ≠ p := fun he => hq (Or.inr he)
    exact (ht.foreign q fun hmem => hq (Or.inl hmem)).congr rfl
      (by rw [heap_alloc, if_neg hqp]) rfl

/-! ## The handlers -/

theorem check_of {b : Prop} [Decidable b] (hb : b) : check b s = .ok ((), s) := by
  unfold check
  rw [if_pos hb]
  rfl

theorem Sim.check_spec (h : Sim t s a) {b : Prop} [Decidable b] (hb : b) :
    Wp (check b) E (fun _ s' => Sim t s' a) s := Wp.of_ok (check_of hb) h

/-- `uvx__on_read` of data. -/
theorem Sim.uvxOnRead_data (h : Sim t s (a.put xs l ys)) (hu : ClearShutdown config user)
    {nread : ℤ} (hn : 0 < nread) :
    Wp (uvxOnRead user l.ptr nread) (Excused t.size) (fun _ s' => ∃ t', t.size ≤ t'.size ∧
      Sim t' s' (a.put (xs ++ ys) (l.received a.now) [])) s := by
  unfold uvxOnRead
  apply Wp.seq (h.touch Spec.mem_put)
  rintro c s₁ ⟨h₁, _⟩
  rw [if_pos hn]
  refine Wp.bind (Wp.get ?_)
  rw [show s₁.now = a.now from h₁.tracks.now_eq]
  apply Wp.seq (h₁.setLastCommTime a.now)
  intro _ s₂ h₂
  apply Wp.seq h₂.tableDelete
  rintro n s₃ ⟨hz, t₃, hsize, h₃⟩
  apply Wp.seq (h₃.check_spec hz)
  intro _ s₄ h₄
  rw [← hsize]
  apply Wp.seq (h₄.tableInsert (l := { l with time := a.now }))
  rintro _ s₅ ⟨t₅, hsize₅, h₅⟩
  exact (h₅.notify hu .onRecv).mono fun _ s₆ h₆ => ⟨t₅, hsize₅, h₆⟩

/-- `uvx__on_read` of an error. -/
theorem Sim.uvxOnRead_error (h : Sim t s (a.put xs l ys)) (hu : ClearShutdown config user)
    {nread : ℤ} (hn : nread < 0) :
    Wp (uvxOnRead user l.ptr nread) E (fun _ s' => Sim t s' (a.put xs l.disconnected ys)) s := by
  unfold uvxOnRead
  apply Wp.seq (h.touch Spec.mem_put)
  rintro c s₁ ⟨h₁, _⟩
  rw [if_neg (by omega), if_pos hn]
  exact h₁.disconnect hu

/-- `uvx__on_read` of nothing. -/
theorem Sim.uvxOnRead_zero (h : Sim t s a) (hl : l ∈ a.owned) :
    Wp (uvxOnRead user l.ptr 0) E (fun _ s' => Sim t s' a) s := by
  unfold uvxOnRead
  apply Wp.seq (h.touch hl)
  rintro c s₁ ⟨h₁, _⟩
  rw [if_neg (Int.lt_irrefl 0), if_neg (Int.lt_irrefl 0)]
  exact Wp.pure h₁

/-- A connection out of the table gets another trace. -/
theorem Sim.record_loose {links : List Link}
    (h : Sim t s { a with links := links, loose := some l }) (act : Action) :
    Wp (Server.record l.serial act) E
      (fun _ s' => Sim t s' { a with links := links, loose := some (l.noted [act]) }) s := by
  refine Wp.modify ⟨?_, h.conns, h.holds⟩
  have hl := h.tracks.owns l (List.mem_append_right _ (by simp))
  refine h.tracks.change rfl rfl rfl rfl rfl rfl rfl rfl rfl
    ⟨hl.isKey, hl.handle_eq, ?_, hl.conn⟩ (fun p _ => ⟨rfl, rfl, rfl⟩)
    fun n hn => Function.update_of_ne hn _ _
  simp only [Link.noted, Function.update_self, hl.trace_eq]

/-- `_uv_after_close_connection` -/
theorem Sim.uvAfterCloseConnection (h : Sim t s (a.put xs l ys)) (hu : ClearShutdown config user)
    (hl : l.handle = .unused) :
    Wp (uvAfterCloseConnection user l.ptr) E (fun _ s' => ∃ t', t'.size = t.size ∧ Sim t' s'
      { a with links := xs ++ ys, loose := none, gone := a.gone ++ [l.removed] }) s := by
  unfold Server.uvAfterCloseConnection
  apply Wp.seq (h.touch Spec.mem_put)
  rintro c s₁ ⟨h₁, _, _, hserial, _⟩
  rw [hserial]
  apply Wp.seq (h₁.notify hu .onConnClose)
  intro _ s₂ h₂
  apply Wp.seq h₂.tableDelete
  rintro n s₃ ⟨hz, t₃, hsize, h₃⟩
  apply Wp.seq (h₃.check_spec hz)
  intro _ s₄ h₄
  apply Wp.seq (h₄.record_loose .removed)
  intro _ s₅ h₅
  refine Wp.seq (h₅.touch (l := (l.noted [.callback .onConnClose]).noted [.removed])
    (List.mem_append_right _ (by simp))) fun c s₆ ⟨h₆, _⟩ => ?_
  refine (h₆.release hl).mono fun _ s₇ h₇ => ⟨t₃, hsize, ?_⟩
  have hremoved : (l.noted [.callback .onConnClose]).noted [.removed] = l.removed := by
    simp [Link.noted, Link.removed, hl]
  rwa [hremoved] at h₇

/-- `uvx__on_connection` -/
theorem Sim.uvxOnConnection (h : Sim t s a) (hloose : a.loose = none)
    (hu : ClearShutdown config user) {p : Ptr} (hp : s.heap p = none) (hkey : IsKey p)
    (accepted : ℤ) :
    Wp (uvxOnConnection config user 0 p accepted) (Excused t.size) (fun _ s' => ∃ t', t.size ≤ t'.size ∧
      Sim t' s' ({ a with accepted := a.accepted + 1 }.put a.links
        (.accept p a.accepted a.now (accepted = 0)) [])) s := by
  unfold Server.uvxOnConnection
  rw [if_pos rfl]
  refine Wp.bind (Wp.of_ok (check_of config.connExtraSize_nonneg) (Wp.bind (Wp.modify ?_)))
  have h₁ : Sim t (s.alloc p) _ := h.alloc hloose hp hkey
  have hmem : p ∉ a.links.map Link.ptr := fun hmem => by
    obtain ⟨l, hl, rfl⟩ := List.mem_map.mp hmem
    obtain ⟨c, hc, -⟩ := (h.tracks.owns l (List.mem_append_left _ hl)).conn
    rw [hp] at hc
    exact absurd hc (by simp)
  have hlookup : Wp (tableLookup p) (Excused t.size)
      (fun e s' => e = none ∧ s' = s.alloc p) (s.alloc p) := by
    unfold tableLookup
    apply Wp.seq h₁.conns_spec
    rintro _ _ ⟨ht, hs⟩
    rw [ht, hs]
    rcases Nat.eq_zero_or_pos t.size with hz | hpos
    · refine Wp.of_error ?_ (Or.inl ⟨hz, rfl⟩)
      unfold lhTableLookupEntry
      rw [homeSlot_of_zero hz]; rfl
    · rw [h.holds.lookup_of_notMem hpos hkey hmem]
      exact Wp.pure ⟨rfl, rfl⟩
  apply Wp.seq hlookup
  rintro e _ ⟨he, hs⟩
  rw [hs]
  apply Wp.seq (h₁.check_spec he)
  intro _ s₂ h₂
  refine Wp.seq (h₂.tableInsert (a := { a with accepted := a.accepted + 1 })
    (l := .fresh p a.accepted)) fun _ s₃ ⟨t₃, hsize, h₃⟩ => Wp.bind (Wp.modify ?_)
  have h₄ : Sim t₃ _ ({ a with accepted := a.accepted + 1 }.put a.links
    ⟨p, a.accepted, 0, .idle, []⟩ []) := h₃.setHandle .idle
  by_cases hacc : accepted = 0
  · rw [if_pos hacc]
    refine Wp.bind (Wp.get ?_)
    apply Wp.seq (h₄.setLastCommTime s₃.now)
    intro _ s₅ h₅
    apply Wp.seq (h₅.notify hu .onConnOk)
    intro _ s₆ h₆
    refine (h₆.uvReadStart rfl).mono fun _ s₇ h₇ => ⟨t₃, hsize, ?_⟩
    rw [show s₃.now = a.now from h₃.tracks.now_eq] at h₇
    rw [Link.accept, if_pos (decide_eq_true hacc)]
    exact h₇
  · rw [if_neg hacc]
    apply Wp.seq (h₄.notify hu .onConnFail)
    intro _ s₅ h₅
    refine h₅.uvClose.mono fun _ s₆ h₆ => ⟨t₃, hsize, ?_⟩
    rw [Link.accept, if_neg (by simpa using hacc)]
    exact h₆

end Uvx.Server
