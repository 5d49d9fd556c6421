import Mathlib.Algebra.Ring.Int.Defs
import Mathlib.Algebra.Ring.Nat
import Mathlib.Data.Multiset.AddSub

/-!
# References counted on several threads

`uvx_server_conn_ref` may be called by every thread that has a reference on the connection. Here its
accesses to the connection (taking `refmutex`, reading and writing the count, comparing it, giving
`refmutex` back, destroying it, `free`) are single steps, and those of the threads interleave. Between
the steps the connection is in one of five phases (`Phase`), in which nothing undefined can be next
but one reference more than an `int` can count (`Phase.step`).
-/

namespace Uvx.Server.Threads

variable {ι : Type*}

/-- What libuv knows of `refmutex`. -/
inductive Mutex (ι : Type*)
  | unlocked
  | locked (i : ι)
  | destroyed

/-- What is undefined. -/
inductive Fault
  /-- The connection is used after `free`. -/
  | connFreed
  /-- A destroyed mutex is taken, a locked one destroyed, or one given back that another has. -/
  | mutex
  /-- The count leaves `int`. -/
  | overflow
  | assertion
deriving DecidableEq

/-- The fields of `uvx_server_conn_t` that the threads share. -/
structure Shared (ι : Type*) where
  refcount : ℤ
  refmutex : Mutex ι

/-- Where a thread is in `uvx_server_conn_ref(conn, ref)`. -/
inductive Point
  /-- In no call. -/
  | out
  | lock (ref : ℤ)
  | load (ref : ℤ)
  /-- The thread has read `n`. -/
  | store (ref n : ℤ)
  | compare
  | unlock
  /-- Before the `uv_mutex_unlock` of the branch that ends with `free`. -/
  | unlockLast
  | destroy
  | free
deriving DecidableEq

structure State (ι : Type*) where
  conn : Option (Shared ι)
  point : ι → Point
  /-- The threads that have a reference, each as often as it has one. -/
  holders : Multiset ι
  /-- The calls whose reference has been counted, in this order. -/
  log : List (ι × ℤ)

/-- A connection accepted by thread `i`, as `uvx__on_connection` makes it. -/
def init (i : ι) : State ι := ⟨some ⟨1, .unlocked⟩, fun _ => .out, {i}, []⟩

inductive Action (ι : Type*)
  /-- A call of `uvx_server_conn_ref(conn, ref)`. -/
  | call (i : ι) (ref : ℤ)
  /-- The next step of a call. -/
  | step (i : ι)
  /-- A reference is handed over. -/
  | pass (i j : ι)
  /-- The connection is used by a thread that has a reference. -/
  | use (i : ι)

/-- Thread `i` waits for a mutex that is locked. -/
def State.blocked (s : State ι) (i : ι) : Bool :=
  match s.point i, s.conn with
  | .lock _, some ⟨_, .locked _⟩ => true
  | _, _ => false

/-- Thread `i` may do something with its references. -/
def State.Free (s : State ι) (i : ι) : Prop := s.point i = .out ∧ i ∈ s.holders

/-- Threads call, use and hand over with a reference of their own, and count one up or down. -/
def Enabled (s : State ι) : Action ι → Prop
  | .call i ref => s.Free i ∧ (ref = 1 ∨ ref = -1)
  | .step i => s.point i ≠ .out ∧ s.blocked i = false
  | .pass i _ => s.Free i
  | .use i => s.Free i

section Steps

variable [DecidableEq ι]

instance (s : State ι) (a : Action ι) : Decidable (Enabled s a) :=
  match a with
  | .call i ref => inferInstanceAs
      (Decidable ((s.point i = .out ∧ i ∈ s.holders) ∧ (ref = 1 ∨ ref = -1)))
  | .step i => inferInstanceAs (Decidable (s.point i ≠ .out ∧ s.blocked i = false))
  | .pass i _ => inferInstanceAs (Decidable (s.point i = .out ∧ i ∈ s.holders))
  | .use i => inferInstanceAs (Decidable (s.point i = .out ∧ i ∈ s.holders))

def State.goto (s : State ι) (i : ι) (p : Point) : State ι :=
  { s with point := Function.update s.point i p }

def deref (s : State ι) : Except Fault (Shared ι) :=
  match s.conn with
  | some c => pure c
  | none => throw .connFreed

/-- `uv_mutex_unlock` -/
def uvMutexUnlock (i : ι) (c : Shared ι) : Except Fault (Shared ι) :=
  match c.refmutex with
  | .locked j => if j = i then pure { c with refmutex := .unlocked } else throw .mutex
  | _ => throw .mutex

/-- The next step of thread `i` in `uvx_server_conn_ref`. -/
def advance (i : ι) (s : State ι) : Except Fault (State ι) := do
  match s.point i with
  | .out => pure s
  | .lock ref =>
    let c ← deref s
    match c.refmutex with
    | .unlocked => pure { s.goto i (.load ref) with conn := some { c with refmutex := .locked i } }
    | _ => throw .mutex
  | .load ref =>
    let c ← deref s
    pure (s.goto i (.store ref c.refcount))
  | .store ref n =>
    let c ← deref s
    if n + ref < -2 ^ 31 ∨ 2 ^ 31 ≤ n + ref then throw .overflow
    pure { s.goto i .compare with
      conn := some { c with refcount := n + ref }
      holders := if ref = 1 then i ::ₘ s.holders else s.holders.erase i
      log := s.log ++ [(i, ref)] }
  | .compare =>
    let c ← deref s
    pure (s.goto i (if c.refcount = 0 then .unlockLast else .unlock))
  | .unlock =>
    let c ← uvMutexUnlock i (← deref s)
    pure { s.goto i .out with conn := some c }
  | .unlockLast =>
    let c ← uvMutexUnlock i (← deref s)
    pure { s.goto i .destroy with conn := some c }
  | .destroy =>
    let c ← deref s
    match c.refmutex with
    | .unlocked => pure { s.goto i .free with conn := some { c with refmutex := .destroyed } }
    | _ => throw .mutex
  | .free =>
    let _ ← deref s
    pure { s.goto i .out with conn := none }

def handle : Action ι → State ι → Except Fault (State ι)
  | .call i ref, s =>
    if ref = 1 ∨ ref = -1 then pure (s.goto i (.lock ref)) else throw .assertion
  | .step i, s => advance i s
  | .pass i j, s => pure { s with holders := j ::ₘ s.holders.erase i }
  | .use _, s => do
    let _ ← deref s
    pure s

def Step (s : State ι) (a : Action ι) (s' : State ι) : Prop := Enabled s a ∧ handle a s = .ok s'

/-- The state after the actions, if each may happen and does not fault. -/
def runActions : List (Action ι) → State ι → Option (State ι)
  | [], s => some s
  | a :: as, s =>
    if Enabled s a then
      match handle a s with
      | .ok s' => runActions as s'
      | .error _ => none
    else none

end Steps

variable {s s' : State ι} {i j : ι} {ref : ℤ} {p : Point} {a : Action ι}

/-! ## What holds between the steps -/

/-- Thread `i` may count its reference up or down. -/
structure State.Counts (s : State ι) (i : ι) (ref : ℤ) : Prop where
  mem : i ∈ s.holders
  ref_eq : ref = 1 ∨ ref = -1

/-- Thread `i` is in no call, or wants the mutex. -/
def State.Waits (s : State ι) (i : ι) : Prop :=
  s.point i = .out ∨ ∃ ref, s.point i = .lock ref ∧ s.Counts i ref

/-- Where thread `i` may be while it has the mutex. -/
inductive State.Inside (s : State ι) (i : ι) : Point → Prop
  | load {ref : ℤ} (h : s.Counts i ref) : s.Inside i (.load ref)
  | store {ref : ℤ} (h : s.Counts i ref) : s.Inside i (.store ref s.holders.card)
  | compare : s.Inside i .compare
  | unlock (h : s.holders ≠ 0) : s.Inside i .unlock
  | unlockLast (h : s.holders = 0) : s.Inside i .unlockLast

/-- The life of a connection: the mutex is free or has been taken by one thread, until the thread that
has counted the last reference down is alone with it. -/
inductive Phase (s : State ι) : Prop
  | shared (hconn : s.conn = some ⟨s.holders.card, .unlocked⟩) (hheld : s.holders ≠ 0)
      (hwait : ∀ j, s.Waits j)
  | inside {i : ι} {p : Point} (hconn : s.conn = some ⟨s.holders.card, .locked i⟩)
      (hp : s.point i = p) (hin : s.Inside i p) (hwait : ∀ j, j ≠ i → s.Waits j)
  | destroying {i : ι} (hconn : s.conn = some ⟨0, .unlocked⟩) (hheld : s.holders = 0)
      (hp : s.point i = .destroy) (hout : ∀ j, j ≠ i → s.point j = .out)
  | freeing {i : ι} (hconn : s.conn = some ⟨0, .destroyed⟩) (hheld : s.holders = 0)
      (hp : s.point i = .free) (hout : ∀ j, j ≠ i → s.point j = .out)
  | gone (hconn : s.conn = none) (hheld : s.holders = 0) (hout : ∀ j, s.point j = .out)

/-- What another thread may do does not change if the references stay that it has. -/
theorem State.Waits.congr (h : s.Waits j) (hp : s'.point j = s.point j)
    (hmem : j ∈ s.holders → j ∈ s'.holders) : s'.Waits j := by
  rcases h with hout | ⟨ref, hlock, hcounts⟩
  · exact .inl (hp.trans hout)
  · exact .inr ⟨ref, hp.trans hlock, hmem hcounts.mem, hcounts.ref_eq⟩

theorem ne_zero_of_mem (h : i ∈ s.holders) : s.holders ≠ 0 := by
  intro he
  rw [he] at h
  exact Multiset.notMem_zero i h

/-- Without references no thread wants the mutex. -/
theorem State.Waits.out (h : s.Waits j) (hheld : s.holders = 0) : s.point j = .out := by
  rcases h with hout | ⟨ref, -, hcounts⟩
  · exact hout
  · exact absurd hheld (ne_zero_of_mem hcounts.mem)

theorem State.Free.ne (h : s.Free j) (hp : s.point i = p) (hin : s.Inside i p) : j ≠ i := by
  rintro rfl
  rw [h.1] at hp
  subst hp
  cases hin

/-- Handing references over does not change where a thread may be that keeps its own. -/
theorem State.Inside.congr (h : s.Inside i p) (hcard : s'.holders.card = s.holders.card)
    (hmem : i ∈ s.holders → i ∈ s'.holders) : s'.Inside i p := by
  have hzero : s'.holders = 0 ↔ s.holders = 0 := by
    rw [← Multiset.card_eq_zero, hcard, Multiset.card_eq_zero]
  cases h with
  | load h => exact .load ⟨hmem h.mem, h.ref_eq⟩
  | store h =>
    rw [← hcard]
    exact .store ⟨hmem h.mem, h.ref_eq⟩
  | compare => exact .compare
  | unlock h => exact .unlock (mt hzero.mp h)
  | unlockLast h => exact .unlockLast (hzero.mpr h)

theorem Phase.exists_conn (h : Phase s) (hheld : s.holders ≠ 0) : ∃ c, s.conn = some c := by
  cases h with
  | shared hconn => exact ⟨_, hconn⟩
  | inside hconn => exact ⟨_, hconn⟩
  | destroying hconn => exact ⟨_, hconn⟩
  | freeing hconn => exact ⟨_, hconn⟩
  | gone _ he => exact absurd he hheld

/-- Where the threads with references may be does not change if each keeps those that it uses. -/
theorem Phase.congr (h : Phase s) (hheld : s.holders ≠ 0) (hconn : s'.conn = s.conn)
    (hcard : s'.holders.card = s.holders.card) (hwait : ∀ j, s.Waits j → s'.Waits j)
    (hinside : ∀ j p, s.point j = p → s.Inside j p →
      s'.point j = p ∧ (j ∈ s.holders → j ∈ s'.holders)) :
    Phase s' := by
  cases h with
  | shared hc _ hw =>
    refine .shared (by rw [hconn, hc, hcard]) (fun he => hheld ?_) fun j => hwait j (hw j)
    rwa [← Multiset.card_eq_zero, hcard, Multiset.card_eq_zero] at he
  | @inside k p hc hp hin hw =>
    obtain ⟨hp', hmem⟩ := hinside k p hp hin
    exact .inside (by rw [hconn, hc, hcard]) hp' (hin.congr hcard hmem) fun j hj => hwait j (hw j hj)
  | destroying _ he => exact absurd he hheld
  | freeing _ he => exact absurd he hheld
  | gone _ he => exact absurd he hheld

theorem phase_init (i : ι) : Phase (init i) :=
  .shared rfl (Multiset.singleton_ne_zero i) fun _ => .inl rfl

/-- As long as a call has not ended, one of the threads has a step to make. -/
theorem Phase.exists_step (h : Phase s) (hi : s.point i ≠ .out) :
    ∃ j, s.point j ≠ .out ∧ s.blocked j = false := by
  cases h with
  | shared hconn =>
    refine ⟨i, hi, ?_⟩
    rw [State.blocked, hconn]
    split
    · next he => cases he
    · rfl
  | @inside k p hconn hp hin => exact ⟨k, by cases hin <;> simp [State.blocked, hp]⟩
  | @destroying k _ _ hp => exact ⟨k, by simp [State.blocked, hp]⟩
  | @freeing k _ _ hp => exact ⟨k, by simp [State.blocked, hp]⟩
  | gone _ _ hout => exact absurd (hout i) hi

section Interleaving

variable [DecidableEq ι]

@[simp] theorem State.goto_point_self (s : State ι) (i : ι) (p : Point) : (s.goto i p).point i = p :=
  Function.update_self ..

theorem State.goto_point_of_ne (h : j ≠ i) (p : Point) : (s.goto i p).point j = s.point j :=
  Function.update_of_ne h ..

/-- The references after thread `i` has counted. -/
def State.recount (s : State ι) (i : ι) (ref : ℤ) : Multiset ι :=
  if ref = 1 then i ::ₘ s.holders else s.holders.erase i

theorem State.Counts.card_recount (h : s.Counts i ref) :
    ((s.recount i ref).card : ℤ) = s.holders.card + ref := by
  rcases h.ref_eq with rfl | rfl
  · rw [recount, if_pos rfl, Multiset.card_cons]
    rfl
  · rw [recount, if_neg (by decide), Multiset.card_erase_of_mem h.mem, Nat.pred_eq_sub_one]
    have hpos := Multiset.card_pos_iff_exists_mem.mpr ⟨i, h.mem⟩
    omega

/-- The other threads keep their references. -/
theorem State.mem_recount (hne : j ≠ i) (hmem : j ∈ s.holders) : j ∈ s.recount i ref := by
  rw [recount]
  split_ifs
  · exact Multiset.mem_cons_of_mem hmem
  · exact (Multiset.mem_erase_of_ne hne).mpr hmem

/-! ## The calls -/

/-- The call that thread makes whose reference has not been counted. -/
def pending : Point → List ℤ
  | .lock ref => [ref]
  | .load ref => [ref]
  | .store ref _ => [ref]
  | _ => []

/-- The calls of thread `i`: those counted, and the one that is not. -/
def State.made (s : State ι) (i : ι) : List ℤ :=
  s.log.filterMap (fun x => if x.1 = i then some x.2 else none) ++ pending (s.point i)

/-- The calls that thread `i` has made. -/
def called (i : ι) (as : List (Action ι)) : List ℤ :=
  as.filterMap fun
    | .call j ref => if j = i then some ref else none
    | _ => none

/-- What a step does to the references. -/
inductive Counting (s s' : State ι) : Prop
  | same (hlog : s'.log = s.log) (hcard : s'.holders.card = s.holders.card)
  | counted {i : ι} {ref : ℤ} (h : s.Counts i ref) (hlog : s'.log = s.log ++ [(i, ref)])
      (hheld : s'.holders = s.recount i ref)

/-- What holds after a step, if it does before. -/
structure Kept (s : State ι) (a : Action ι) (s' : State ι) : Prop where
  phase : Phase s'
  made : ∀ i, s'.made i = s.made i ++ called i [a]
  counting : Counting s s'

/-- What comes of an action: it does not fault, unless the count would leave `int`. -/
def Comes (s : State ι) (a : Action ι) (r : Except Fault (State ι)) : Prop :=
  (∃ s', r = .ok s' ∧ Kept s a s') ∨ r = .error .overflow ∧ 2 ^ 31 - 1 ≤ s.holders.card

theorem Comes.kept {r : Except Fault (State ι)} (h : Comes s a r) (hr : r = .ok s') : Kept s a s' := by
  subst hr
  rcases h with ⟨s₁, hs₁, hkept⟩ | ⟨hfault, -⟩
  · exact Except.ok.inj hs₁ ▸ hkept
  · cases hfault

/-- A step of thread `i` that counts nothing. -/
theorem Kept.quiet {conn : Option (Shared ι)} (h : Phase { s.goto i p with conn := conn })
    (hp : pending p = pending (s.point i)) : Kept s (.step i) { s.goto i p with conn := conn } := by
  refine ⟨h, fun j => ?_, .same rfl rfl⟩
  have hcalled : called j [Action.step i] = [] := rfl
  rw [hcalled, List.append_nil, State.made, State.made]
  congr 1
  by_cases hj : j = i
  · subst hj
    rw [← hp]
    exact congrArg pending (s.goto_point_self j p)
  · exact congrArg pending (State.goto_point_of_ne hj p)

/-- The step of thread `i` that counts. -/
theorem State.made_counted (hp : pending (s.point i) = [ref]) (hpoint : s'.point i = .compare)
    (hne : ∀ j, j ≠ i → s'.point j = s.point j) (hlog : s'.log = s.log ++ [(i, ref)]) (j : ι) :
    s'.made j = s.made j := by
  rw [made, made, hlog, List.filterMap_append, List.append_assoc]
  congr 1
  by_cases hj : j = i
  · subst hj
    rw [hp, hpoint]
    simp [pending]
  · simp [hne j hj, Ne.symm hj]

theorem uvMutexUnlock_self (i : ι) (n : ℤ) :
    uvMutexUnlock i ⟨n, .locked i⟩ = .ok ⟨n, .unlocked⟩ := if_pos rfl

/-- A step of the thread that has the mutex. -/
theorem State.Inside.advance (hconn : s.conn = some ⟨s.holders.card, .locked i⟩) (hp : s.point i = p)
    (hin : s.Inside i p) (hwait : ∀ j, j ≠ i → s.Waits j) : Comes s (.step i) (advance i s) := by
  have hquiet : ∀ q, pending q = pending p → s.Inside i q →
      Kept s (.step i) { s.goto i q with conn := s.conn } := by
    intro q hq hin'
    refine .quiet (.inside hconn (goto_point_self ..) (hin'.congr rfl id) fun j hj => ?_) (hp ▸ hq)
    exact (hwait j hj).congr (goto_point_of_ne hj q) id
  cases hin with
  | @load ref hcounts =>
    refine .inl ⟨s.goto i (.store ref s.holders.card), ?_, hquiet _ rfl (.store hcounts)⟩
    simp only [Threads.advance, hp, deref, hconn]
    rfl
  | @store ref hcounts =>
    have hcard := hcounts.card_recount
    by_cases hbound : (s.holders.card : ℤ) + ref < -2 ^ 31 ∨ 2 ^ 31 ≤ (s.holders.card : ℤ) + ref
    · refine .inr ⟨?_, by rcases hcounts.ref_eq with rfl | rfl <;> omega⟩
      simp only [Threads.advance, hp, deref, hconn, if_pos hbound]
      rfl
    refine .inl ⟨{ s.goto i .compare with
      conn := some ⟨s.holders.card + ref, .locked i⟩
      holders := s.recount i ref
      log := s.log ++ [(i, ref)] }, ?_, ?_, fun j => ?_, .counted hcounts rfl rfl⟩
    · simp only [Threads.advance, hp, deref, hconn, if_neg hbound]
      rfl
    · refine .inside ?_ (goto_point_self ..) .compare fun j hj => ?_
      · rw [← hcard]
      · exact (hwait j hj).congr (goto_point_of_ne hj _) (mem_recount hj)
    · refine Eq.trans (made_counted (i := i) ?_ ?_ ?_ rfl j) (List.append_nil _).symm
      · rw [hp]
        rfl
      · exact goto_point_self ..
      · exact fun j hj => goto_point_of_ne hj _
  | compare =>
    have hzero : (s.holders.card : ℤ) = 0 ↔ s.holders = 0 := by
      rw [← Multiset.card_eq_zero]
      omega
    by_cases hheld : s.holders = 0
    · refine .inl ⟨s.goto i .unlockLast, ?_, hquiet _ rfl (.unlockLast hheld)⟩
      simp only [Threads.advance, hp, deref, hconn]
      exact congrArg (fun q => Except.ok (s.goto i q)) (if_pos (hzero.mpr hheld))
    · refine .inl ⟨s.goto i .unlock, ?_, hquiet _ rfl (.unlock hheld)⟩
      simp only [Threads.advance, hp, deref, hconn]
      exact congrArg (fun q => Except.ok (s.goto i q)) (if_neg (mt hzero.mp hheld))
  | unlock hheld =>
    refine .inl ⟨{ s.goto i .out with conn := some ⟨s.holders.card, .unlocked⟩ }, ?_, ?_⟩
    · simp only [Threads.advance, hp, deref, hconn]
      show (uvMutexUnlock i ⟨s.holders.card, .locked i⟩ >>= _) = _
      rw [uvMutexUnlock_self]
      rfl
    · refine .quiet (.shared rfl hheld fun j => ?_) (by rw [hp]; rfl)
      by_cases hj : j = i
      · exact .inl (hj ▸ goto_point_self ..)
      · exact (hwait j hj).congr (goto_point_of_ne hj _) id
  | unlockLast hheld =>
    refine .inl ⟨{ s.goto i .destroy with conn := some ⟨0, .unlocked⟩ }, ?_, ?_⟩
    · rw [hheld] at hconn
      simp only [Threads.advance, hp, deref, hconn]
      show (uvMutexUnlock i ⟨0, .locked i⟩ >>= _) = _
      rw [uvMutexUnlock_self]
      rfl
    · refine .quiet (.destroying rfl hheld (goto_point_self ..) fun j hj => ?_) (by rw [hp]; rfl)
      exact (goto_point_of_ne hj _).trans ((hwait j hj).out hheld)

/-- The next step of a call ends, unless the thread has to wait. -/
theorem Phase.advance (h : Phase s) (hpoint : s.point i ≠ .out) (hblocked : s.blocked i = false) :
    Comes s (.step i) (advance i s) := by
  cases h with
  | shared hconn hheld hwait =>
    -- the thread takes the mutex
    obtain ⟨ref, hp, hcounts⟩ := (hwait i).resolve_left hpoint
    refine .inl ⟨{ s.goto i (.load ref) with conn := some ⟨s.holders.card, .locked i⟩ }, ?_, ?_⟩
    · simp only [Threads.advance, hp, deref, hconn]
      rfl
    · refine .quiet ?_ (by rw [hp]; rfl)
      exact .inside rfl (s.goto_point_self i _) (.load ⟨hcounts.mem, hcounts.ref_eq⟩) fun j hj =>
        (hwait j).congr (State.goto_point_of_ne hj _) id
  | @inside k p hconn hp hin hwait =>
    by_cases hi : i = k
    · subst hi
      exact hin.advance hconn hp hwait
    · obtain ⟨ref, hlock, -⟩ := (hwait i hi).resolve_left hpoint
      simp [State.blocked, hlock, hconn] at hblocked
  | @destroying k hconn hheld hp hout =>
    obtain rfl : i = k := by_contra fun hi => hpoint (hout i hi)
    refine .inl ⟨{ s.goto i .free with conn := some ⟨0, .destroyed⟩ }, ?_, ?_⟩
    · simp only [Threads.advance, hp, deref, hconn]
      rfl
    · refine .quiet ?_ (by rw [hp]; rfl)
      exact .freeing rfl hheld (s.goto_point_self i _) fun j hj =>
        (State.goto_point_of_ne hj _).trans (hout j hj)
  | @freeing k hconn hheld hp hout =>
    obtain rfl : i = k := by_contra fun hi => hpoint (hout i hi)
    refine .inl ⟨{ s.goto i .out with conn := none }, ?_, ?_⟩
    · simp only [Threads.advance, hp, deref, hconn]
      rfl
    · refine .quiet (.gone rfl hheld fun j => ?_) (by rw [hp]; rfl)
      by_cases hj : j = i
      · exact hj ▸ s.goto_point_self i _
      · exact (State.goto_point_of_ne hj _).trans (hout j hj)
  | gone _ _ hout => exact absurd (hout i) hpoint

/-- A call begins. -/
theorem Phase.call (h : Phase s) (hfree : s.Free i) (href : ref = 1 ∨ ref = -1) :
    Kept s (.call i ref) (s.goto i (.lock ref)) := by
  refine ⟨h.congr (ne_zero_of_mem hfree.2) rfl rfl (fun j hj => ?_) (fun j p hp hin => ?_),
    fun j => ?_, .same rfl rfl⟩
  · by_cases hji : j = i
    · subst hji
      exact .inr ⟨ref, s.goto_point_self j _, hfree.2, href⟩
    · exact hj.congr (State.goto_point_of_ne hji _) id
  · exact ⟨(State.goto_point_of_ne (hfree.ne hp hin).symm _).trans hp, id⟩
  · by_cases hj : j = i
    · subst hj
      have hcalled : called j [Action.call j ref] = [ref] := by simp [called]
      rw [hcalled, State.made, State.made, s.goto_point_self, hfree.1]
      simp [State.goto, pending]
    · have hcalled : called j [Action.call i ref] = [] := by simp [called, Ne.symm hj]
      rw [hcalled, List.append_nil, State.made, State.made, State.goto_point_of_ne hj]
      rfl

/-- A reference is handed over. -/
theorem Phase.pass (h : Phase s) (hfree : s.Free i) (j : ι) :
    Kept s (.pass i j) { s with holders := j ::ₘ s.holders.erase i } := by
  have hcard : (j ::ₘ s.holders.erase i).card = s.holders.card := by
    rw [Multiset.card_cons, Multiset.card_erase_add_one hfree.2]
  have hmem : ∀ k, k ≠ i → k ∈ s.holders → k ∈ j ::ₘ s.holders.erase i := fun k hk hmem =>
    Multiset.mem_cons_of_mem ((Multiset.mem_erase_of_ne hk).mpr hmem)
  refine ⟨h.congr (ne_zero_of_mem hfree.2) rfl hcard (fun k hk => ?_) (fun k p hp hin => ?_),
    fun k => (List.append_nil _).symm, .same rfl hcard⟩
  · by_cases hki : k = i
    · exact .inl (hki ▸ hfree.1)
    · exact hk.congr rfl (hmem k hki)
  · exact ⟨hp, hmem k (hfree.ne hp hin).symm⟩

/-- **No step faults** as long as the references can be counted, and what holds before it holds after
it. -/
theorem Phase.step (h : Phase s) (he : Enabled s a) : Comes s a (handle a s) := by
  cases a with
  | call i ref => exact .inl ⟨_, if_pos he.2, h.call he.1 he.2⟩
  | step i => exact h.advance he.1 he.2
  | pass i j => exact .inl ⟨_, rfl, h.pass he j⟩
  | use i =>
    obtain ⟨c, hc⟩ := h.exists_conn (ne_zero_of_mem he.2)
    refine .inl ⟨s, ?_, h, fun k => (List.append_nil _).symm, .same rfl rfl⟩
    simp only [handle, deref, hc]
    rfl

end Interleaving

end Uvx.Server.Threads
