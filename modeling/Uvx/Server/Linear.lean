import Uvx.Common.Exec
import Uvx.Server.Threads
import Uvx.Server.Tracks

/-!
# The calls of several threads, one after the other

In every interleaving of the threads the calls of `uvx_server_conn_ref` have the effect of
`uvxServerConnRef` made for one call after the other, in the order in which they write the count, and
nothing is undefined before there are as many references as an `int` can count (`linearizable`).
-/

namespace Uvx.Server.Threads

variable {ι : Type*} [DecidableEq ι] {s s' : State ι} {i : ι} {ref : ℤ} {a : Action ι}

/-! ## Runs -/

/-- Computed runs are runs. -/
theorem exec_of_runActions {as : List (Action ι)} (h : runActions as s = some s') :
    Exec Step s as s' := by
  induction as generalizing s with
  | nil =>
    obtain rfl := Option.some_inj.mp h
    exact .nil
  | cons a as ih =>
    rw [runActions] at h
    split at h
    · next he =>
      cases hrun : handle a s with
      | ok s₁ =>
        rw [hrun] at h
        exact .cons ⟨he, hrun⟩ (ih h)
      | error fault =>
        rw [hrun] at h
        cases h
    · cases h

/-- What every step keeps holds in a run. -/
theorem exec_induction {I : List (Action ι) → State ι → Prop} {as : List (Action ι)}
    (hrun : Exec Step s as s') (h₀ : Phase s) (hI : I [] s)
    (hstep : ∀ as s a s', I as s → Kept s a s' → I (as ++ [a]) s') : Phase s' ∧ I as s' := by
  refine hrun.invariant_actions (I := fun as s' => Phase s' ∧ I as s') ⟨h₀, hI⟩ ?_
  rintro as s₁ a s₂ ⟨h₁, hI₁⟩ ⟨he, hok⟩
  have hkept := (h₁.step he).kept hok
  exact ⟨hkept.phase, hstep _ _ _ _ hI₁ hkept⟩

/-! ## One call after the other -/

open Server (Ptr Conn M)

/-- The calls made one after the other. -/
def serve (conn : Ptr) (calls : List (ι × ℤ)) : M Unit :=
  calls.forM fun call => uvxServerConnRef conn call.2

/-- The server with `n` references on the connection. -/
def withRefs (S : Server.State) (conn : Ptr) (c : Conn) (n : ℕ) : Server.State :=
  if n = 0 then
    { S with
      heap := Function.update S.heap conn none
      trace := Function.update S.trace c.serial (S.trace c.serial ++ [.freed]) }
  else { S with heap := Function.update S.heap conn (some { c with refcount := n }) }

variable {S : Server.State} {conn : Ptr} {c : Conn}

theorem heap_withRefs (S : Server.State) (conn : Ptr) (c : Conn) (n : ℕ) :
    (withRefs S conn c n).heap conn = if n = 0 then none else some { c with refcount := n } := by
  rw [withRefs]
  split_ifs <;> exact Function.update_self ..

theorem withRefs_one (hc : S.heap conn = some c) (hone : c.refcount = 1) :
    withRefs S conn c 1 = S := by
  have hsame : ({ c with refcount := ((1 : ℕ) : ℤ) } : Conn) = c := by
    rw [Int.natCast_one, ← hone]
  rw [withRefs, if_neg one_ne_zero, hsame, ← hc, Function.update_eq_self]

/-- A call of `uvx_server_conn_ref` by a thread that has one of `n` references. -/
theorem uvxServerConnRef_withRefs {n m : ℕ} (hn : n ≠ 0) (href : ref = 1 ∨ ref = -1)
    (hm : (m : ℤ) = n + ref) :
    uvxServerConnRef conn ref (withRefs S conn c n) = .ok ((), withRefs S conn c m) := by
  have hheap := heap_withRefs S conn c n
  rw [if_neg hn] at hheap
  rw [uvxServerConnRef_eq hheap href, withRefs, if_neg hn, withRefs]
  dsimp only
  rw [← hm]
  by_cases hzero : m = 0
  · rw [if_pos (by omega), if_pos hzero, Function.update_idem]
  · rw [if_neg (by omega), if_neg hzero, Function.update_idem]

omit [DecidableEq ι] in
/-- One call more. -/
theorem serve_concat {S' S'' : Server.State} {log : List (ι × ℤ)}
    (h : serve conn log S = .ok ((), S')) (href : uvxServerConnRef conn ref S' = .ok ((), S'')) (i : ι) :
    serve conn (log ++ [(i, ref)]) S = .ok ((), S'') := by
  have happend : serve conn (log ++ [(i, ref)]) =
      serve conn log >>= fun _ => serve conn [(i, ref)] := List.forM_append
  have hsingle : serve conn [(i, ref)] = uvxServerConnRef conn ref >>= fun _ => pure () := rfl
  rw [happend, run_bind, h, hsingle]
  show Except.bind (uvxServerConnRef conn ref S') _ = _
  rw [href]
  rfl

/-- What a run of the threads has come to, with the calls `as` and from a server `S` on. -/
structure Linear (S : Server.State) (conn : Ptr) (c : Conn) (as : List (Action ι)) (s : State ι) :
    Prop where
  /-- No step is undefined, and no assertion fails, as long as there are not so many references that
  one more would take the count out of `int`. -/
  step : ∀ a, Enabled s a →
    (∃ s', handle a s = .ok s') ∨ handle a s = .error .overflow ∧ 2 ^ 31 - 1 ≤ s.holders.card
  /-- The threads never all wait. -/
  progress : ∀ i, s.point i ≠ .out → ∃ j, s.point j ≠ .out ∧ Enabled s (.step j)
  /-- Each call is counted once, or the thread is on the way to count it. -/
  made : ∀ i, s.made i = called i as
  /-- The calls counted, made one after the other. -/
  served : serve conn s.log S = .ok ((), withRefs S conn c s.holders.card)
  /-- When all calls have ended, the connection is what it is then. -/
  agree : (∀ i, s.point i = .out) →
    s.conn.map Shared.refcount = ((withRefs S conn c s.holders.card).heap conn).map Conn.refcount
  /-- What has been counted has been counted before what will be. -/
  later : ∀ bs s', Exec Step s bs s' → s.log <+: s'.log

/-- **The threads' calls are atomic.** In every interleaving of their steps the connection is not used
after `free`, nor `refmutex` after it has been destroyed, and each call takes effect at once at some
moment between its beginning and its end. -/
theorem linearizable {as : List (Action ι)} (hrun : Exec Step (init i) as s)
    (hc : S.heap conn = some c) (hone : c.refcount = 1) :
    Linear S conn c as s := by
  have hinv : Phase s ∧ (∀ j, s.made j = called j as) ∧
      serve conn s.log S = .ok ((), withRefs S conn c s.holders.card) := by
    refine exec_induction (I := fun as s => (∀ j, s.made j = called j as) ∧
      serve conn s.log S = .ok ((), withRefs S conn c s.holders.card)) hrun (phase_init i) ?_ ?_
    · rw [init, Multiset.card_singleton, withRefs_one hc hone]
      exact ⟨fun _ => rfl, rfl⟩
    · rintro as s a s' ⟨hmade, hserved⟩ hkept
      refine ⟨fun j => ?_, ?_⟩
      · rw [hkept.made, hmade, called, called, called, List.filterMap_append]
      · cases hkept.counting with
        | same hlog hcard => rw [hlog, hcard, hserved]
        | counted hcounts hlog hheld =>
          rw [hlog, hheld]
          have hne := mt Multiset.card_eq_zero.mp (ne_zero_of_mem hcounts.mem)
          exact serve_concat hserved
            (uvxServerConnRef_withRefs hne hcounts.ref_eq hcounts.card_recount) _
  obtain ⟨h, hmade, hserved⟩ := hinv
  refine ⟨fun a ha => ?_, fun j hj => ?_, hmade, hserved, fun hout => ?_, fun bs s' hrun' => ?_⟩
  · rcases h.step ha with ⟨s', hs', -⟩ | hfault
    · exact .inl ⟨s', hs'⟩
    · exact .inr hfault
  · obtain ⟨k, hk, hblocked⟩ := h.exists_step hj
    exact ⟨k, hk, hk, hblocked⟩
  · rw [heap_withRefs]
    cases h with
    | shared hconn hheld =>
      rw [hconn, if_neg (mt Multiset.card_eq_zero.mp hheld)]
      rfl
    | inside _ hp hin =>
      rw [hout] at hp
      subst hp
      cases hin
    | destroying _ _ hp => cases (hout _).symm.trans hp
    | freeing _ _ hp => cases (hout _).symm.trans hp
    | gone hconn hheld =>
      rw [hconn, hheld]
      rfl
  · refine (exec_induction (I := fun _ t => s.log <+: t.log) hrun' h (List.prefix_refl _) ?_).2
    rintro _ s₁ a s₂ hpre hkept
    cases hkept.counting with
    | same hlog => exact hlog ▸ hpre
    | counted _ hlog => exact hlog ▸ hpre.trans (List.prefix_append _ _)

/-- The loop thread `false` takes a second reference and hands it to `true`. Both give theirs back at
the same time, and `false` has to wait for the mutex. -/
theorem linearizable_two : ∃ s : State Bool, s.conn = none ∧
    s.log = [(false, 1), (true, -1), (false, -1)] ∧ ∃ S c, Linear S 0 c
      ([.call false 1] ++ List.replicate 5 (.step false) ++ [.pass false true, .call true (-1),
        .step true, .call false (-1)] ++ List.replicate 4 (.step true)
        ++ List.replicate 7 (.step false)) s := by
  let as : List (Action Bool) := [.call false 1] ++ List.replicate 5 (.step false) ++
    [.pass false true, .call true (-1), .step true, .call false (-1)] ++
    List.replicate 4 (.step true) ++ List.replicate 7 (.step false)
  have hrun : (runActions as (init false)).map (fun s => (s.conn.isNone, s.log))
      = some (true, [(false, 1), (true, -1), (false, -1)]) := by decide +kernel
  obtain ⟨s, hs, heq⟩ := Option.map_eq_some_iff.mp hrun
  obtain ⟨hconn, hlog⟩ := Prod.ext_iff.mp heq
  refine ⟨s, Option.isNone_iff_eq_none.mp hconn, hlog,
    ⟨0, none, 0, true, none, true, [], fun _ => some ⟨0, 1, 0⟩, fun _ => .idle, fun _ => 0, 1,
      fun _ => [], 0⟩,
    ⟨0, 1, 0⟩, ?_⟩
  exact linearizable (exec_of_runActions hs) rfl rfl

end Uvx.Server.Threads
