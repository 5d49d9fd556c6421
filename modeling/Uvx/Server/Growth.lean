import Uvx.LinkHash.Growth
import Uvx.Server.Life

/-!
# The table grows with the connections

The handlers reach the table through one deletion and one insertion at most, so that it is doubled
only when it is too full for the connections there are (`handle_moves`). Its size is thus bounded by
the largest number of connections at one time (`size_fitting`), and as long as this number does not
come near `2 ^ 30` and no sweep reaches a connection that is closing, no handler is stopped
(`never_stopped`).
-/

namespace Uvx.Server

open LinkHash

variable {α β : Type} {R R' R'' : LhTable → LhTable → Prop} {m : M α} {t : LhTable} {s s' : State}
  {config : Config} {user : User} {es : List Event} {uv : Libuv} {now : UInt64} {ip : List UInt8}
  {port : ℤ} {ret : ℤ}

/-! ## What a program does to the table -/

/-- Where `m` ends with a table, it has begun with one, and `R` holds of the two. -/
def Moves (R : LhTable → LhTable → Prop) (m : M α) : Prop :=
  ∀ s a s' t', m s = .ok (a, s') → s'.conns = some t' → ∃ t, s.conns = some t ∧ R t t'

/-- `m` leaves the table alone, unless it shuts the server down. -/
abbrev Calm (m : M α) : Prop := Moves (· = ·) m

theorem Moves.mono (h : Moves R m) (hR : ∀ t t', R t t' → R' t t') : Moves R' m := by
  intro s a s' t' hm ht'
  obtain ⟨t, ht, hr⟩ := h s a s' t' hm ht'
  exact ⟨t, ht, hR t t' hr⟩

theorem Moves.comp {f : α → M β} (h : Moves R m) (hf : ∀ a, Moves R' (f a))
    (hR : ∀ t t' t'', R t t' → R' t' t'' → R'' t t'') : Moves R'' (m >>= f) := by
  intro s b s'' t'' hm ht''
  rw [run_bind] at hm
  cases hrun : m s with
  | error fault =>
    rw [hrun] at hm
    cases hm
  | ok r =>
    rw [hrun] at hm
    obtain ⟨t', ht', hr'⟩ := hf r.1 r.2 b s'' t'' hm ht''
    obtain ⟨t, ht, hr⟩ := h s r.1 r.2 t' hrun ht'
    exact ⟨t, ht, hR t t' t'' hr hr'⟩

/-- First a part that leaves the table alone. -/
theorem Calm.bind {f : α → M β} (h : Calm m) (hf : ∀ a, Moves R (f a)) : Moves R (m >>= f) :=
  h.comp hf fun _ _ _ he hr => he ▸ hr

/-- Then one. -/
theorem Moves.calm {f : α → M β} (h : Moves R m) (hf : ∀ a, Calm (f a)) : Moves R (m >>= f) :=
  h.comp hf fun _ _ _ hr he => he ▸ hr

theorem calm_pure (a : α) : Calm (pure a : M α) := by
  intro s b s' t' hm ht'
  obtain ⟨-, rfl⟩ := Prod.mk.inj (Except.ok.inj hm)
  exact ⟨t', ht', rfl⟩

theorem calm_get : Calm (get : M State) := by
  intro s b s' t' hm ht'
  obtain ⟨-, rfl⟩ := Prod.mk.inj (Except.ok.inj hm)
  exact ⟨t', ht', rfl⟩

theorem moves_throw (fault : Fault) : Moves R (throw fault : M α) := by
  intro s a s' t' hm
  cases hm

theorem calm_modify {f : State → State} (hf : ∀ s, (f s).conns = s.conns ∨ (f s).conns = none) :
    Calm (modify f : M Unit) := by
  intro s b s' t' hm ht'
  obtain ⟨-, rfl⟩ := Prod.mk.inj (Except.ok.inj hm)
  refine ⟨t', ?_, rfl⟩
  rcases hf s with h | h
  · rw [← h, ht']
  · exact absurd (h.symm.trans ht') (by simp)

theorem Calm.forM {f : α → M Unit} (hf : ∀ a, Calm (f a)) (l : List α) : Calm (l.forM f) := by
  induction l with
  | nil => exact calm_pure ()
  | cons a l ih => exact (hf a).bind fun _ => ih

theorem Moves.ite {b : Prop} [Decidable b] {m' : M α} (h : Moves R m) (h' : Moves R m') :
    Moves R (if b then m else m') := by
  split
  · exact h
  · exact h'

/-! ## The parts of the handlers -/

theorem calm_conns : Calm conns := by
  refine calm_get.bind fun s => ?_
  split
  · exact calm_pure _
  · exact moves_throw _

theorem calm_tableCall (r : Except LhFault α) : Calm (tableCall r) := by
  cases r with
  | ok a => exact calm_pure a
  | error fault => exact moves_throw _

theorem calm_check (b : Prop) [Decidable b] : Calm (check b) :=
  (calm_pure ()).ite (moves_throw _)

theorem calm_deref (conn : Ptr) : Calm (deref conn) := by
  refine calm_get.bind fun s => ?_
  split
  · exact calm_pure _
  · exact moves_throw _

theorem calm_record (serial : ℕ) (a : Action) : Calm (record serial a) :=
  calm_modify fun _ => Or.inl rfl

theorem calm_connRef (conn : Ptr) (ref : ℤ) : Calm (uvxServerConnRef conn ref) := by
  refine (calm_check _).bind fun _ => (calm_deref conn).bind fun c => Moves.ite ?_ ?_
  · exact Calm.bind (calm_modify fun _ => Or.inl rfl) fun _ => calm_record _ _
  · exact calm_modify fun _ => Or.inl rfl

theorem userRef_eq (conn : Ptr) (up : Bool) (s : State) : userRef conn up s =
    if up then
      if (s.heap conn).isSome then
        uvxServerConnRef conn 1 { s with held := Function.update s.held conn (s.held conn + 1) }
      else .ok ((), s)
    else if 0 < s.held conn then
      uvxServerConnRef conn (-1) { s with held := Function.update s.held conn (s.held conn - 1) }
    else .ok ((), s) := by
  unfold userRef
  rw [run_bind, run_get]
  dsimp only [Except.bind]
  cases up with
  | true => cases s.heap conn <;> rfl
  | false => by_cases h : 0 < s.held conn <;> simp [h, run_bind, run_set, run_pure, Except.bind]

theorem calm_userRef (conn : Ptr) (up : Bool) : Calm (userRef conn up) := by
  intro s b s' t' hm ht'
  rw [userRef_eq] at hm
  have hsame : (Except.ok ((), s) : Except Fault (Unit × State)) = .ok (b, s') →
      ∃ t, s.conns = some t ∧ t = t' := fun h => calm_pure () s b s' t' h ht'
  split_ifs at hm
  · have hheld := calm_connRef conn 1 _ b s' t' hm ht'
    exact hheld
  · exact hsame hm
  · have hheld := calm_connRef conn (-1) _ b s' t' hm ht'
    exact hheld
  · exact hsame hm

theorem calm_touch (conn : Ptr) : Calm (touch user conn) :=
  Calm.bind (calm_modify fun _ => Or.inl rfl) fun _ => calm_get.bind fun _ =>
    (Calm.forM (fun _ => calm_userRef _ _) _).bind fun _ => calm_deref conn

theorem calm_setLastCommTime (conn : Ptr) (time : UInt64) :
    Calm (setLastCommTime user conn time) :=
  (calm_touch conn).bind fun _ => calm_modify fun _ => Or.inl rfl

theorem calm_uvReadStart (conn : Ptr) : Calm (uvReadStart user conn) :=
  (calm_touch conn).bind fun _ => calm_modify fun _ => by split <;> exact Or.inl rfl

theorem calm_uvReadStop (conn : Ptr) : Calm (uvReadStop user conn) :=
  (calm_touch conn).bind fun _ => calm_modify fun _ => by split <;> exact Or.inl rfl

theorem calm_uvClose (conn : Ptr) : Calm (uvClose user conn) :=
  (calm_touch conn).bind fun _ => (calm_record _ _).bind fun _ => calm_modify fun _ => Or.inl rfl

theorem calm_userCall (call : UserCall) : Calm (userCall call) := by
  cases call with
  | connRef conn up => exact calm_userRef conn up
  | shutdown =>
    refine calm_get.bind fun s => Moves.ite ?_ (calm_pure ())
    refine Calm.bind ?_ fun _ => calm_pure ()
    exact Calm.bind (calm_modify fun _ => Or.inl rfl) fun _ => calm_conns.bind fun _ =>
      Calm.bind (calm_modify fun _ => Or.inr rfl) fun _ =>
        Calm.bind (calm_modify fun _ => Or.inl rfl) fun _ => calm_pure 0

theorem calm_callback (cb : Callback) : Calm (callback user cb) :=
  Calm.bind (calm_modify fun _ => Or.inl rfl) fun _ =>
    calm_get.bind fun _ => Calm.forM calm_userCall _

theorem calm_notify (cb : ConnCallback) (conn : Ptr) : Calm (notify user cb conn) :=
  (calm_touch conn).bind fun _ => (calm_record _ _).bind fun _ => calm_callback _

theorem calm_disconnect (conn : Ptr) : Calm (uvDisconnectClient user conn) :=
  (calm_uvReadStop conn).bind fun _ => (calm_notify _ conn).bind fun _ => calm_uvClose conn

theorem calm_foreachSafe {body : Ptr → β → M (ForInStep β)} (hbody : ∀ conn b, Calm (body conn b))
    (fuel : ℕ) (ent : Option ℕ) (b : β) : Calm (foreachSafe body fuel ent b) := by
  induction fuel generalizing ent b with
  | zero =>
    cases ent with
    | none => exact calm_pure b
    | some n => exact moves_throw _
  | succ fuel ih =>
    cases ent with
    | none => exact calm_pure b
    | some n =>
      refine calm_conns.bind fun t => (hbody _ b).bind fun r => ?_
      cases r with
      | done b => exact calm_pure b
      | yield b => exact ih (t.next n) b

theorem calm_checkTimeout (conn : Ptr) (b : Unit) : Calm (checkTimeout config user conn b) :=
  (calm_touch conn).bind fun _ => calm_get.bind fun _ =>
    ((calm_disconnect conn).bind fun _ => calm_pure _).ite (calm_pure _)

theorem calm_uvxCheckTimeoutClients : Calm (uvxCheckTimeoutClients config user) :=
  (calm_pure ()).ite (calm_conns.bind fun _ => calm_foreachSafe calm_checkTimeout _ _ ())

theorem calm_uvOnHeartbeatTimer : Calm (uvOnHeartbeatTimer config user) := by
  refine Calm.bind ?_ fun _ => calm_uvxCheckTimeoutClients.ite (calm_pure ())
  exact calm_get.bind fun _ => Calm.bind (calm_modify fun _ => Or.inl rfl) fun _ => calm_callback _

/-! ## The table -/

/-- A program that begins with looking at the table. -/
theorem moves_conns {f : LhTable → M α}
    (hf : ∀ t s a s' t', f t s = .ok (a, s') → s'.conns = some t' → R t t') :
    Moves R (conns >>= f) := by
  intro s a s' t' hm ht'
  cases hs : s.conns with
  | none =>
    simp only [conns, hs, run_bind, run_get, Except.bind] at hm
    cases hm
  | some t =>
    rw [run_bind, conns_eq hs] at hm
    exact ⟨t, rfl, hf t s a s' t' hm ht'⟩

theorem moves_tableDelete (conn : Ptr) : Moves Shrunk (tableDelete conn) := by
  refine moves_conns ?_
  intro t s n s' t' hm ht'
  cases hdel : lhTableDelete t conn with
  | error fault =>
    rw [hdel] at hm
    cases hm
  | ok r =>
    rw [hdel] at hm
    obtain ⟨-, rfl⟩ := Prod.mk.inj (Except.ok.inj hm)
    obtain rfl := Option.some_inj.mp ht'
    exact shrunk_delete hdel

/-- A table whose size is an `int` grows as `lh_table_insert` says. -/
def GrownIn (t t' : LhTable) : Prop :=
  t.size < 2 ^ 31 → Grown t t'

theorem moves_tableInsert (conn : Ptr) : Moves GrownIn (tableInsert conn) := by
  refine moves_conns ?_
  intro t s n s' t' hm ht' hlt
  cases hins : lhTableInsert t conn conn with
  | error fault =>
    rw [hins] at hm
    cases hm
  | ok t₁ =>
    rw [hins] at hm
    obtain ⟨-, rfl⟩ := Prod.mk.inj (Except.ok.inj hm)
    obtain rfl := Option.some_inj.mp ht'
    exact grown_of_insert hlt hins

theorem calm_tableLookup (conn : Ptr) : Calm (tableLookup conn) :=
  calm_conns.bind fun _ => calm_tableCall _

theorem Calm.grownIn (h : Calm m) : Moves GrownIn m :=
  h.mono fun _ _ he _ => Or.inl (congrArg LhTable.size he).symm

/-- **A handler** doubles the table only when it is too full. -/
theorem handle_moves (e : Event) : Moves GrownIn (handle config user e) := by
  cases e with
  | connection status conn accepted =>
    refine Moves.ite ?_ (calm_pure ()).grownIn
    refine (calm_check _).bind fun _ => Calm.bind (calm_modify fun _ => Or.inl rfl) fun _ =>
      (calm_tableLookup conn).bind fun _ => (calm_check _).bind fun _ =>
        (moves_tableInsert conn).calm fun _ =>
          Calm.bind (calm_modify fun _ => Or.inl rfl) fun _ => Moves.ite ?_ ?_
    · exact calm_get.bind fun _ => (calm_setLastCommTime conn _).bind fun _ =>
        (calm_notify _ conn).bind fun _ => calm_uvReadStart conn
    · exact (calm_notify _ conn).bind fun _ => calm_uvClose conn
  | read conn nread =>
    refine (calm_touch conn).bind fun _ => Moves.ite ?_ (Calm.grownIn ?_)
    · -- the deletion comes before the insertion, and does not make the table fuller
      refine calm_get.bind fun _ => (calm_setLastCommTime conn _).bind fun _ => ?_
      refine (moves_tableDelete conn).comp (fun _ => (calm_check _).bind fun _ =>
        (moves_tableInsert conn).calm fun _ => calm_notify _ conn) ?_
      exact fun t t' t'' hdel hins hlt => hdel.grown (hins (hdel.size_eq ▸ hlt))
    · exact (calm_disconnect conn).ite (calm_pure ())
  | closed conn =>
    refine Calm.bind (calm_modify fun _ => Or.inl rfl) fun _ => ?_
    refine (calm_touch conn).bind fun _ => (calm_notify _ conn).bind fun _ => ?_
    refine (moves_tableDelete conn).comp (fun _ => (calm_check _).bind fun _ =>
      (calm_record _ _).bind fun _ => (calm_touch conn).bind fun _ => calm_connRef conn _) ?_
    rintro t t' t'' hdel rfl -
    exact Or.inl hdel.size_eq
  | heartbeat => exact calm_uvOnHeartbeatTimer.grownIn
  | advance now => exact Calm.grownIn (calm_modify fun _ => Or.inl rfl)
  | user call => exact (calm_userCall call).grownIn

/-! ## Runs -/

/-- The largest number of connections that events make of `conns`. -/
def peakFrom (conns : List Ptr) : List Event → ℕ
  | [] => conns.length
  | e :: es => max conns.length (peakFrom (reorder conns e) es)

/-- The largest number of connections in the table between two events. -/
def peak (es : List Event) : ℕ := peakFrom [] es

theorem length_foldl_le_peakFrom (conns : List Ptr) (es : List Event) :
    (es.foldl reorder conns).length ≤ peakFrom conns es := by
  induction es generalizing conns with
  | nil => exact Nat.le_refl _
  | cons e es ih => exact Nat.le_trans (ih _) (Nat.le_max_right _ _)

theorem length_reference_le_peak (es : List Event) : (reference es).length ≤ peak es :=
  length_foldl_le_peakFrom [] es

theorem peakFrom_le_append (conns : List Ptr) (es : List Event) (e : Event) :
    peakFrom conns es ≤ peakFrom conns (es ++ [e]) := by
  induction es generalizing conns with
  | nil => exact Nat.le_max_left _ _
  | cons e' es ih =>
    have := ih (reorder conns e')
    rw [List.cons_append, peakFrom, peakFrom]
    omega

/-- The size `size` comes from the configured one by doublings, no more of them than the connections
there have been require. -/
structure Fitting (config : Config) (es : List Event) (size : ℕ) : Prop where
  doubled : ∃ k : ℕ, (size : ℤ) = config.connCount.toInt * 2 ^ k
  le_peak : 66 * (size : ℤ) ≤ max (66 * config.connCount.toInt) (200 * peak es)

/-- A table that is too full is doubled. -/
theorem Fitting.grown {t' : LhTable} (h : Fitting config es t.size)
    (hcount : t.count = (reference es).length) (hgrown : Grown t t') (e : Event) :
    Fitting config (es ++ [e]) t'.size := by
  have hpeak : peak es ≤ peak (es ++ [e]) := peakFrom_le_append [] es e
  have hle := h.le_peak
  rcases hgrown with hsize | ⟨hheavy, hsize⟩
  · rw [hsize]
    exact ⟨h.doubled, by omega⟩
  · obtain ⟨k, hk⟩ := h.doubled
    have hnow := length_reference_le_peak es
    rw [Heavy] at hheavy
    refine ⟨⟨k + 1, ?_⟩, by omega⟩
    rw [hsize, pow_succ, ← mul_assoc, ← hk, Int.mul_comm (t.size : ℤ)]
    rfl

/-- **The size of the table** fits the connections there have been. -/
theorem size_fitting {s₀ : State} (hstart : uvxServerStart uv now ip port config = .ok (s₀, ret))
    (hns : NoShutdown user es) (hrun : Exec (Step config user) s₀ es s) :
    ∃ t, Sim t s (.run config now es) ∧ (Spec.run config now es).links.map Link.ptr = reference es ∧
      Fitting config es t.size := by
  obtain ⟨t₀, h₀, hsize₀⟩ := start_sim hstart
  refine hrun.invariant_of_forall (I := fun es s => ∃ t, Sim t s (.run config now es) ∧
    (Spec.run config now es).links.map Link.ptr = reference es ∧ Fitting config es t.size)
    hns.forall_ne ⟨t₀, h₀, rfl, ⟨0, ?_⟩, ?_⟩ ?_
  · rw [hsize₀, pow_zero, mul_one]
  · rw [hsize₀]
    exact le_max_left _ _
  · rintro es s e s' ⟨t, h, hptrs, hfit⟩ he hstep
    have hloose := Spec.loose_run config now es
    obtain ⟨t', -, h'⟩ := h.step hloose hns.calls he hstep
    obtain ⟨t₁, ht₁, hgrown⟩ := handle_moves e s () s' t' hstep.2 h'.conns
    obtain rfl : t = t₁ := Option.some_inj.mp (h.conns.symm.trans ht₁)
    have hcount := h.holds.count_eq
    rw [hptrs] at hcount
    refine ⟨t', Spec.run_append .. ▸ h', ?_, hfit.grown hcount (hgrown h.holds.size_lt) e⟩
    rw [Spec.run_append, reference_append, h.map_ptr_step hloose hstep.1, hptrs]

/-- **No handler is stopped** as long as no sweep reaches a connection that is closing already and
there have never been about 350 million connections at one time: the table has a cell and can be
doubled, its size stays in proportion to the most connections there have been, and no handle is
closed twice. -/
theorem never_stopped {s₀ : State} (hpos : 1 ≤ config.connCount.toInt)
    (hlt : config.connCount.toInt < 2 ^ 30) (hpeak : 200 * peak es < 66 * 2 ^ 30)
    (hstart : uvxServerStart uv now ip port config = .ok (s₀, ret)) (hns : NoShutdown user es)
    (hrun : Exec (Guarded (Step config user) (SweepClear config)) s₀ es s) :
    (∃ t, s.conns = some t ∧ t.keys = reference es ∧ Fitting config es t.size) ∧
      (∀ n, (s.trace n).count .uvClose ≤ 1) ∧
      ∀ e, Enabled s e → SweepClear config s e → e ≠ .user .shutdown →
        ∃ s', handle config user e s = .ok ((), s') ∧ ∀ n, (s'.trace n).count .uvClose ≤ 1 := by
  obtain ⟨t, h, hptrs, hfit⟩ := size_fitting hstart hns hrun.unguarded
  have hloose := Spec.loose_run config now es
  have ha := exec_orderly hstart hns hrun
  refine ⟨⟨t, h.conns, by rw [h.holds.keys_eq, hptrs], hfit⟩,
    fun n => (h.lived hloose ha n).count.1, ?_⟩
  intro e he hclear hne
  obtain ⟨k, hk⟩ := hfit.doubled
  have hle := hfit.le_peak
  have hsize : 1 ≤ (t.size : ℤ) := by
    rw [hk]
    exact Int.mul_pos hpos (Int.pow_pos (by decide))
  obtain ⟨s', hs'⟩ := h.exists_ok hloose hns.calls (by omega) (by omega) he hne
  obtain ⟨t', -, h'⟩ := h.step hloose hns.calls hne ⟨he, hs'⟩
  have hloose' := (Spec.loose_step config _ e).trans hloose
  exact ⟨s', hs', fun n => (h'.lived hloose' (h.orderly_step hloose ha he hclear) n).count.1⟩

/-- The third connection doubles the table, which stays as it is when the connection goes. -/
theorem never_stopped_doubled :
    ∃ s, (∃ t, s.conns = some t ∧ t.size = 4 ∧ Fitting smallConfig
        [.connection 0 0x1000 0, .connection 0 0x2000 0, .connection 0 0x3000 1, .closed 0x3000]
        t.size) ∧
      ∃ s', handle smallConfig quietUser (.read 0x1000 7) s = .ok ((), s') := by
  let es : List Event :=
    [.connection 0 0x1000 0, .connection 0 0x2000 0, .connection 0 0x3000 1, .closed 0x3000]
  have hrun : ∃ s, runFrom smallConfig quietUser (SweepClear smallConfig) es = some s ∧
      (s.conns.map fun t => t.size) = some 4 ∧ Enabled s (.read 0x1000 7) := by decide +kernel
  obtain ⟨s, hs, hsize, henabled⟩ := hrun
  obtain ⟨s₀, ret, hstart, hexec⟩ := exec_of_runFrom hs
  obtain ⟨⟨t, ht, -, hfit⟩, -, hends⟩ := never_stopped (by decide) (by decide) (by decide +kernel)
    hstart (noShutdown_quietUser (by decide)) hexec
  rw [ht] at hsize
  obtain ⟨s', hs', -⟩ := hends _ henabled nofun (by decide)
  exact ⟨s, ⟨t, ht, Option.some_inj.mp hsize, hfit⟩, s', hs'⟩

end Uvx.Server
