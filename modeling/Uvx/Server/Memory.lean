import Uvx.Server.Life
import Uvx.Server.Sweep

/-!
# Every connection is accounted for

In every run without shutdown in which no sweep reaches a connection that is closing already, a
connection that has been accepted is in the table, or held by user code alone, or freed. Its handle is
in use as long as it is in the table and closed once at most, its memory is there as long as somebody
has a reference on it, and it is taken out and freed once at most (`accounted_for`).
-/

namespace Uvx.Server

open LinkHash

variable {t : LhTable} {s s' : State} {a : Spec} {l : Link} {config : Config} {user : User}
  {es : List Event} {uv : Libuv} {now : UInt64} {ip : List UInt8} {port : ℤ} {ret : ℤ}

/-- A connection whose handle is in use, and which has not been taken out of the table. -/
structure Link.Present (l : Link) : Prop where
  handle_ne : l.handle ≠ .unused
  removed : .removed ∉ l.trace
  freed : .freed ∉ l.trace

/-- A connection taken out of the table once. -/
structure Link.Past (l : Link) : Prop where
  removed : l.trace.count .removed = 1
  freed : .freed ∉ l.trace

/-- The connections in the table are there, and the others have left it. -/
structure Spec.Counted (a : Spec) : Prop where
  links : ∀ l ∈ a.links, l.Present
  gone : ∀ l ∈ a.gone, l.Past

/-! ## Steps -/

theorem Link.Present.noted (h : l.Present) (as : List Action) (hremoved : .removed ∉ as)
    (hfreed : .freed ∉ as) : (l.noted as).Present := by
  refine ⟨h.handle_ne, fun hmem => ?_, fun hmem => ?_⟩
  · exact (List.mem_append.mp hmem).elim h.removed hremoved
  · exact (List.mem_append.mp hmem).elim h.freed hfreed

theorem Link.Present.disconnected (h : l.Present) : l.disconnected.Present := by
  obtain ⟨-, hremoved, hfreed⟩ :=
    h.noted [.callback .onConnClosing, .uvClose] (by decide) (by decide)
  exact ⟨by simp [Link.disconnected], hremoved, hfreed⟩

theorem Link.present_accept (conn : Ptr) (serial : ℕ) (now : UInt64) (ok : Bool) :
    (Link.accept conn serial now ok).Present := by
  cases ok with
  | true => exact ⟨by simp [Link.accept], by simp [Link.accept], by simp [Link.accept]⟩
  | false => exact ⟨by simp [Link.accept], by simp [Link.accept], by simp [Link.accept]⟩

theorem Link.Present.past (h : l.Present) : l.removed.Past := by
  refine ⟨?_, fun hmem => (List.mem_append.mp hmem).elim h.freed (by decide)⟩
  show List.count Action.removed (l.trace ++ [.callback .onConnClose, .removed]) = 1
  rw [List.count_append, List.count_eq_zero.mpr h.removed]
  rfl

/-- Closing connections in the table. -/
theorem Spec.Counted.of_closed (h : a.Counted) {links : List Link}
    (hmem : ∀ m ∈ links, m ∈ a.links ∨ ∃ l ∈ a.links, m = l.disconnected) :
    Spec.Counted { a with links := links } := by
  refine ⟨?_, h.gone⟩
  intro m hm
  rcases hmem m hm with hm | ⟨l, hl, rfl⟩
  · exact h.links m hm
  · exact (h.links l hl).disconnected

/-- Connections leave the table by their close callback only. -/
theorem Sim.counted_step (h : Sim t s a) (hloose : a.loose = none) (ha : a.Counted) {e : Event}
    (he : Enabled s e) : (a.step config e).Counted := by
  cases e with
  | connection status conn accepted =>
    rw [Spec.step]
    split
    · refine ⟨?_, ha.gone⟩
      intro m hm
      rcases List.mem_append.mp hm with hm | hm
      · exact ha.links m hm
      · rw [List.mem_singleton.mp hm]
        exact Link.present_accept ..
    · exact ha
  | read conn nread =>
    obtain ⟨xs, l, ys, -, hl, rfl, -, hfind, -⟩ := h.exists_put hloose he (by simp)
    rw [Spec.step, hfind]
    split
    · refine ⟨?_, ha.gone⟩
      intro m hm
      rcases List.mem_append.mp hm with hm | hm
      · exact ha.links m (List.mem_of_mem_filter hm)
      · rw [List.mem_singleton.mp hm]
        obtain ⟨hhandle, hremoved, hfreed⟩ :=
          (ha.links l hl).noted [.callback .onRecv] (by decide) (by decide)
        exact ⟨hhandle, hremoved, hfreed⟩
    · split
      · exact ha.of_closed fun m hm => Spec.mem_change hm
      · exact ha
  | closed conn =>
    obtain ⟨xs, l, ys, -, hl, rfl, -, hfind, -⟩ := h.exists_put hloose he (by simp)
    rw [Spec.step, hfind]
    refine ⟨fun m hm => ha.links m (List.mem_of_mem_filter hm), ?_⟩
    intro m hm
    rcases List.mem_append.mp hm with hm | hm
    · exact ha.gone m hm
    · rw [List.mem_singleton.mp hm]
      exact (ha.links l hl).past
  | heartbeat =>
    rw [Spec.step]
    split
    · exact ha.of_closed fun m hm => Spec.mem_sweep hm
    · exact ha
  | advance now => exact ⟨ha.links, ha.gone⟩
  | user call => exact ha

theorem exec_counted {s₀ : State} (hstart : uvxServerStart uv now ip port config = .ok (s₀, ret))
    (hns : NoShutdown user es) (hrun : Exec (Step config user) s₀ es s) :
    (Spec.run config now es).Counted := by
  apply exec_induction hstart hns hrun fun _ _ _ hstep => hstep
  · exact ⟨fun _ h => absurd h List.not_mem_nil, fun _ h => absurd h List.not_mem_nil⟩
  · intro es t s e s' h ih hstep
    rw [Spec.run_append]
    exact h.counted_step (Spec.loose_run ..) ih hstep.1

/-! ## Where a connection is -/

section Along

variable (h : Sim t s a) (hloose : a.loose = none)
include h

/-- Memory belongs to a connection in the table or to one that has left it. -/
theorem Sim.exists_link {p : Ptr} {c : Conn} (hc : s.heap p = some c) :
    ∃ l ∈ a.all, l.ptr = p ∧ l.serial = c.serial := by
  by_cases hp : p ∈ a.owned.map Link.ptr
  · obtain ⟨l, hl, rfl⟩ := List.mem_map.mp hp
    exact ⟨l, Tracks.mem_all_of_owned hl, rfl, ((h.tracks.owns l hl).of_some hc).2.1.symm⟩
  · obtain ⟨-, -, g, hg, hgp, hgs⟩ := (h.tracks.foreign p hp).of_some hc
    exact ⟨g, List.mem_append_right _ hg, hgp, hgs⟩

/-- The memory of a connection is where the connection is. -/
theorem Sim.live_iff (hl : l ∈ a.all) :
    Live s l ↔ ∃ p c, s.heap p = some c ∧ c.serial = l.serial := by
  refine ⟨fun ⟨c, hc, hserial⟩ => ⟨l.ptr, c, hc, hserial⟩, ?_⟩
  rintro ⟨p, c, hc, hserial⟩
  obtain ⟨m, hm, hmp, hms⟩ := h.exists_link hc
  obtain rfl : m = l := h.tracks.eq_of_serial hm hl (hms.trans hserial)
  exact ⟨c, hmp ▸ hc, hserial⟩

/-- Two blocks of memory belong to two connections. -/
theorem Sim.eq_of_conn_serial {p q : Ptr} {c c' : Conn} (hc : s.heap p = some c)
    (hc' : s.heap q = some c') (he : c.serial = c'.serial) : p = q := by
  obtain ⟨l, hl, rfl, hls⟩ := h.exists_link hc
  obtain ⟨m, hm, rfl, hms⟩ := h.exists_link hc'
  rw [h.tracks.eq_of_serial hl hm (hls.trans (he.trans hms.symm))]

variable (ha : a.Counted) {n : ℕ} (hn : n < s.accepted)
include hloose

theorem Sim.mem_keys_iff {p : Ptr} : p ∈ t.keys ↔ p ∈ a.owned.map Link.ptr := by
  rw [h.holds.keys_eq, Spec.owned, hloose, Option.toList_none, List.append_nil]

/-- Memory is there as long as somebody has a reference on it. -/
theorem Sim.isSome_heap_iff (p : Ptr) :
    (s.heap p).isSome ↔ p ∈ t.keys ∨ 0 < s.held p := by
  rw [h.mem_keys_iff hloose]
  refine ⟨fun hp => ?_, ?_⟩
  · obtain ⟨c, hc⟩ := Option.isSome_iff_exists.mp hp
    exact (h.tracks.refcount hc).imp And.left fun hp => hp.2.2
  · rintro (hp | hp)
    · obtain ⟨l, hl, rfl⟩ := List.mem_map.mp hp
      obtain ⟨c, hc, -⟩ := (h.tracks.owns l hl).conn
      exact Option.isSome_iff_exists.mpr ⟨c, hc⟩
    · exact Option.isSome_iff_exists.mpr (h.tracks.exists_conn hp)

include ha

/-- Handles are in use as long as their connections are in the table. -/
theorem Sim.handle_ne_iff (p : Ptr) : s.handle p ≠ .unused ↔ p ∈ t.keys := by
  rw [h.mem_keys_iff hloose]
  refine ⟨fun hp => ?_, fun hp => ?_⟩
  · by_contra hout
    exact hp (h.tracks.foreign p hout).handle_eq
  · obtain ⟨l, hl, rfl⟩ := List.mem_map.mp hp
    rw [(h.tracks.owns l hl).handle_eq]
    rw [Spec.owned, hloose, Option.toList_none, List.append_nil] at hl
    exact (ha.links l hl).handle_ne

include hn

/-- What has been noted about a connection tells where it is. -/
theorem Sim.place :
    (∃ l ∈ a.links, l.serial = n ∧ Live s l ∧ .removed ∉ s.trace n ∧ .freed ∉ s.trace n) ∨
    ∃ l ∈ a.gone, l.serial = n ∧ (s.trace n).count .removed = 1 ∧
      ((Live s l ∧ .freed ∉ s.trace n) ∨
        (¬ Live s l ∧ (s.trace n).count .freed = 1 ∧ [.freed] <:+ s.trace n)) := by
  obtain ⟨l, rfl, hl | hl⟩ := h.mem_links_or_gone hloose hn
  · have hown := h.tracks.owns l (List.mem_append_left _ hl)
    obtain ⟨c, hc, -, hserial, -⟩ := hown.conn
    rw [hown.trace_eq]
    exact Or.inl ⟨l, hl, rfl, ⟨c, hc, hserial⟩, (ha.links l hl).removed, (ha.links l hl).freed⟩
  · obtain ⟨hremoved, hfreed⟩ := ha.gone l hl
    refine Or.inr ⟨l, hl, rfl, ?_⟩
    rcases h.tracks.dropped l hl with ⟨hlive, htrace⟩ | ⟨hdead, htrace⟩
    · rw [htrace]
      exact ⟨hremoved, Or.inl ⟨hlive, hfreed⟩⟩
    · rw [htrace, List.count_append, List.count_append, hremoved, List.count_eq_zero.mpr hfreed]
      exact ⟨rfl, Or.inr ⟨hdead, rfl, l.trace, rfl⟩⟩

theorem Sim.removed_notMem_iff : .removed ∉ s.trace n ↔ n ∈ a.links.map Link.serial := by
  rcases h.place hloose ha hn with ⟨l, hl, rfl, -, hremoved, -⟩ | ⟨l, hl, rfl, hremoved, -⟩
  · exact iff_of_true hremoved (List.mem_map_of_mem hl)
  · refine iff_of_false (fun hmem => ?_) fun hmem => ?_
    · rw [List.count_eq_zero.mpr hmem] at hremoved
      exact absurd hremoved (by decide)
    · obtain ⟨m, hm, he⟩ := List.mem_map.mp hmem
      exact h.tracks.serial_ne (List.mem_append_left _ hm) hl he.symm

theorem Sim.freed_notMem_iff :
    .freed ∉ s.trace n ↔ ∃ p c, s.heap p = some c ∧ c.serial = n := by
  rcases h.place hloose ha hn with ⟨l, hl, rfl, hlive, -, hfreed⟩ | ⟨l, hl, rfl, -, hcases⟩
  · rw [← h.live_iff (List.mem_append_left _ (List.mem_append_left _ hl))]
    exact iff_of_true hfreed hlive
  · rw [← h.live_iff (List.mem_append_right _ hl)]
    rcases hcases with ⟨hlive, hfreed⟩ | ⟨hdead, -, hlast⟩
    · exact iff_of_true hfreed hlive
    · exact iff_of_false (fun hmem => hmem (hlast.subset (by simp))) hdead

end Along

/-! ## Runs -/

/-- Where the connections are that have been accepted. -/
structure Accounted (s : State) (t : LhTable) : Prop where
  heap_iff : ∀ p, (s.heap p).isSome ↔ p ∈ t.keys ∨ 0 < s.held p
  refcount : ∀ p c, s.heap p = some c → c.refcount = s.held p + (if p ∈ t.keys then 1 else 0)
  handle_iff : ∀ p, s.handle p ≠ .unused ↔ p ∈ t.keys
  /-- The connections that have not been taken out are those in the table. -/
  count_eq : t.count = (List.range s.accepted).countP fun n => .removed ∉ s.trace n
  /-- Those not freed have memory, each its own. -/
  freed_iff : ∀ n < s.accepted, .freed ∉ s.trace n ↔ ∃ p c, s.heap p = some c ∧ c.serial = n
  serials : ∀ p q c c', s.heap p = some c → s.heap q = some c' → c.serial = c'.serial → p = q
  removed_once : ∀ n, (s.trace n).count .removed ≤ 1
  /-- Memory is freed once, after the connection has been taken out, and nothing happens to the
  connection any more. -/
  freed_last : ∀ n, .freed ∈ s.trace n →
    (s.trace n).count .freed = 1 ∧ .removed ∈ s.trace n ∧ [.freed] <:+ s.trace n
  /-- Without connections and references all memory has been freed. -/
  no_leak : t.count = 0 → (∀ p, s.held p = 0) →
    (∀ p, s.heap p = none) ∧ ∀ n < s.accepted, .freed ∈ s.trace n

theorem Sim.accounted (h : Sim t s a) (hloose : a.loose = none) (ha : a.Counted) :
    Accounted s t := by
  have hheap := h.isSome_heap_iff hloose
  have hfreed : ∀ n < s.accepted, .freed ∉ s.trace n ↔ ∃ p c, s.heap p = some c ∧ c.serial = n :=
    fun n hn => h.freed_notMem_iff hloose ha hn
  have hunborn : ∀ n, ¬ n < s.accepted → s.trace n = [] := fun n hn =>
    h.tracks.fresh n (h.tracks.accepted_eq ▸ Nat.le_of_not_lt hn)
  refine ⟨hheap, fun p c hc => (h.refcount_eq hloose hc).1, h.handle_ne_iff hloose ha, ?_, hfreed,
    fun p q c c' hc hc' he => h.eq_of_conn_serial hc hc' he, fun n => ?_, fun n hmem => ?_, ?_⟩
  · -- the serial numbers in the table are those without a removal
    have hperm : (a.links.map Link.serial).Perm
        ((List.range s.accepted).filter fun n => .removed ∉ s.trace n) := by
      refine (List.perm_ext_iff_of_nodup ?_ (List.nodup_range.filter _)).mpr fun n => ?_
      · have hnodup := h.tracks.serials
        rw [Spec.all, Spec.owned, hloose, Option.toList_none, List.append_nil, List.map_append]
          at hnodup
        exact (List.nodup_append.mp hnodup).1
      · rw [List.mem_filter, List.mem_range, decide_eq_true_iff]
        refine ⟨fun hmem => ?_, fun hmem => (h.removed_notMem_iff hloose ha hmem.1).mp hmem.2⟩
        obtain ⟨l, hl, rfl⟩ := List.mem_map.mp hmem
        have hlt := h.tracks.serial_lt l (List.mem_append_left _ (List.mem_append_left _ hl))
        rw [← h.tracks.accepted_eq] at hlt
        exact ⟨hlt, (h.removed_notMem_iff hloose ha hlt).mpr hmem⟩
    have hlen := hperm.length_eq
    rw [List.length_map, ← List.countP_eq_length_filter] at hlen
    rw [h.holds.count_eq, List.length_map, hlen]
  · by_cases hn : n < s.accepted
    · rcases h.place hloose ha hn with ⟨l, -, -, -, hremoved, -⟩ | ⟨l, -, -, hremoved, -⟩
      · rw [List.count_eq_zero.mpr hremoved]
        exact Nat.zero_le 1
      · exact hremoved.le
    · rw [hunborn n hn]
      exact Nat.zero_le 1
  · by_cases hn : n < s.accepted
    · rcases h.place hloose ha hn with ⟨l, -, -, -, -, hnot⟩ | ⟨l, -, -, hremoved, hcases⟩
      · exact absurd hmem hnot
      · rcases hcases with ⟨-, hnot⟩ | ⟨-, hcount, hlast⟩
        · exact absurd hmem hnot
        · exact ⟨hcount, List.count_pos_iff.mp (hremoved ▸ Nat.one_pos), hlast⟩
    · rw [hunborn n hn] at hmem
      exact absurd hmem List.not_mem_nil
  · intro hcount hheld
    have hkeys : t.keys = [] := by
      rw [h.holds.count_eq] at hcount
      rw [h.holds.keys_eq]
      exact List.length_eq_zero_iff.mp (Int.ofNat_eq_zero.mp hcount)
    have hnone : ∀ p, s.heap p = none := by
      intro p
      rw [← Option.not_isSome_iff_eq_none, hheap p, hkeys, hheld p]
      simp
    refine ⟨hnone, fun n hn => ?_⟩
    by_contra hnot
    obtain ⟨p, c, hc, -⟩ := (hfreed n hn).mp hnot
    rw [hnone p] at hc
    exact absurd hc (by simp)

/-- **Every connection is accounted for** in every run without shutdown in which no sweep reaches a
connection that is closing already. -/
theorem accounted_for {s₀ : State} (hstart : uvxServerStart uv now ip port config = .ok (s₀, ret))
    (hns : NoShutdown user es)
    (hrun : Exec (Guarded (Step config user) (SweepClear config)) s₀ es s) :
    ∃ t, s.conns = some t ∧ Accounted s t ∧ ∀ n, (s.trace n).count .uvClose ≤ 1 := by
  obtain ⟨t, h, -⟩ := exec_sim hstart hns hrun.unguarded
  have hloose := Spec.loose_run config now es
  exact ⟨t, h.conns, h.accounted hloose (exec_counted hstart hns hrun.unguarded),
    fun n => (h.lived hloose (exec_orderly hstart hns hrun) n).count.1⟩

/-- A sweep closes a connection on which user code has a reference beyond its removal, while another
one, accepted later, stays. -/
theorem accounted_for_late :
    ∃ s : State, s.trace 0 = [.callback .onConnOk, .callback .onConnClosing, .uvClose,
        .callback .onConnClose, .removed, .freed] ∧ s.trace 1 = [.callback .onConnOk] ∧
      ∃ t, s.conns = some t ∧ Accounted s t ∧ ∀ n, (s.trace n).count .uvClose ≤ 1 := by
  let es : List Event := [.connection 0 0x1000 0, .user (.connRef 0x1000 true), .advance 180001,
    .connection 0 0x2000 0, .heartbeat, .closed 0x1000, .heartbeat,
    .user (.connRef 0x1000 false)]
  have hrun : ∃ s, runFrom smallConfig quietUser (SweepClear smallConfig) es = some s ∧
      s.trace 0 = [.callback .onConnOk, .callback .onConnClosing, .uvClose,
        .callback .onConnClose, .removed, .freed] ∧ s.trace 1 = [.callback .onConnOk] := by
    decide +kernel
  obtain ⟨s, hs, htrace, htrace'⟩ := hrun
  obtain ⟨s₀, ret, hstart, hexec⟩ := exec_of_runFrom hs
  exact ⟨s, htrace, htrace', accounted_for hstart (noShutdown_quietUser (by decide)) hexec⟩

end Uvx.Server
