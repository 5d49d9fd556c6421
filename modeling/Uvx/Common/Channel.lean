import Mathlib

/-!
# A channel that loses, repeats and reorders

The messages sent are numbered, and a delivery names the number of its message, so that every number may
be delivered never, once or several times, and in any order. What arrives depends on the numbers alone
(`received`).
-/

/-- A channel: the messages sent, and the numbers of the messages delivered, both in order. -/
structure Channel (α : Type*) where
  sent : List α
  delivered : List ℕ

namespace Channel

variable {α β : Type*} {c : Channel α} {k : ℕ}

def empty : Channel α := ⟨[], []⟩

/-- Send some messages. -/
def send (c : Channel α) (l : List α) : Channel α := { c with sent := c.sent ++ l }

/-- Deliver message number `k`. -/
def deliver (c : Channel α) (k : ℕ) : Channel α := { c with delivered := c.delivered ++ [k] }

/-- What has arrived, in order of arrival. -/
def received (c : Channel α) : List α := c.delivered.filterMap fun k => c.sent[k]?

/-- Only what has been sent is delivered. -/
def Sound (c : Channel α) : Prop := ∀ k ∈ c.delivered, k < c.sent.length

theorem sound_empty : (empty : Channel α).Sound := fun _ hk => absurd hk List.not_mem_nil

theorem Sound.send (h : c.Sound) (l : List α) : (c.send l).Sound := by
  intro k hk
  have hlt := h k hk
  show k < (c.sent ++ l).length
  rw [List.length_append]
  omega

theorem Sound.deliver (h : c.Sound) (hk : k < c.sent.length) : (c.deliver k).Sound := by
  intro j hj
  rcases List.mem_append.mp hj with hj | hj
  · exact h j hj
  · obtain rfl := List.mem_singleton.mp hj
    exact hk

/-- Sending does not change what has arrived. -/
theorem Sound.received_send (h : c.Sound) (l : List α) : (c.send l).received = c.received := by
  refine List.filterMap_congr ?_
  intro k hk
  exact List.getElem?_append_left (h k hk)

theorem received_deliver (c : Channel α) (k : ℕ) :
    (c.deliver k).received = c.received ++ (c.sent[k]?).toList := by
  have hsingle : [k].filterMap (fun k => c.sent[k]?) = (c.sent[k]?).toList := by
    cases hk : c.sent[k]? with
    | none => exact List.filterMap_cons_none hk
    | some a => exact List.filterMap_cons_some hk
  rw [← hsingle]
  exact List.filterMap_append

/-! ## What arrives -/

/-- Nothing arrives that has not been sent. -/
theorem received_subset (c : Channel α) : c.received ⊆ c.sent := by
  intro a ha
  obtain ⟨k, -, hk⟩ := List.mem_filterMap.mp ha
  exact List.mem_of_getElem? hk

/-- In an increasing list of indices no element is picked twice, and the order is kept. -/
theorem filterMap_getElem?_sublist {ks : List ℕ} (l : List α) (h : ks.Pairwise (· < ·)) :
    (ks.filterMap fun k => l[k]?).Sublist l := by
  induction l generalizing ks with
  | nil => simp
  | cons a l ih =>
    -- an increasing list of positive indices is one of indices into the tail
    have htail : ∀ ks : List ℕ, ks.Pairwise (· < ·) → (∀ k ∈ ks, 0 < k) →
        (ks.filterMap fun k => (a :: l)[k]?).Sublist l := by
      intro ks hks hpos
      have hpred : ks.filterMap (fun k => (a :: l)[k]?) = (ks.map Nat.pred).filterMap (l[·]?) := by
        rw [List.filterMap_map]
        refine List.filterMap_congr ?_
        intro k hk
        obtain ⟨j, rfl⟩ := Nat.exists_eq_succ_of_ne_zero (hpos k hk).ne'
        rfl
      rw [hpred]
      refine ih ((List.pairwise_map).mpr (hks.imp_of_mem ?_))
      intro i j hi hj hij
      have := hpos i hi
      simp only [Nat.pred_eq_sub_one]
      omega
    cases ks with
    | nil => simp
    | cons k ks =>
      obtain ⟨hk, hks⟩ := List.pairwise_cons.mp h
      rcases Nat.eq_zero_or_pos k with rfl | hpos
      · rw [List.filterMap_cons_some (by rfl)]
        exact (htail ks hks hk).cons_cons a
      · refine (htail (k :: ks) h ?_).cons a
        intro j hj
        rcases List.mem_cons.mp hj with rfl | hj
        · exact hpos
        · exact hpos.trans (hk j hj)

/-- Without overtaking and repetition the messages arrive in their order, if they arrive. -/
theorem received_sublist (h : c.delivered.Pairwise (· < ·)) : c.received.Sublist c.sent :=
  filterMap_getElem?_sublist c.sent h

/-- Without repetition no message arrives more often than it was sent. -/
theorem received_subperm (h : c.delivered.Nodup) : c.received.Subperm c.sent := by
  -- sorted, the deliveries do not overtake
  have hperm : (c.delivered.mergeSort).Perm c.delivered := List.mergeSort_perm _ _
  have hsorted : (c.delivered.mergeSort).Pairwise (· < ·) := by
    have hle := List.pairwise_mergeSort' (· ≤ ·) c.delivered
    have hne := hperm.nodup_iff.mpr h
    exact (hle.and hne).imp fun hij => Nat.lt_of_le_of_ne hij.1 hij.2
  exact ((hperm.filterMap _).symm.subperm).trans (filterMap_getElem?_sublist c.sent hsorted).subperm

theorem filterMap_getElem?_range (l : List α) :
    (List.range l.length).filterMap (fun k => l[k]?) = l := by
  induction l using List.reverseRecOn with
  | nil => rfl
  | append_singleton l a ih =>
    have hfront : (List.range l.length).filterMap (fun k => (l ++ [a])[k]?)
        = (List.range l.length).filterMap (fun k => l[k]?) := by
      refine List.filterMap_congr ?_
      intro k hk
      exact List.getElem?_append_left (List.mem_range.mp hk)
    rw [List.length_append, List.length_singleton, List.range_succ, List.filterMap_append, hfront, ih,
      List.filterMap_cons_some List.getElem?_concat_length, List.filterMap_nil]

/-- If each message is delivered once, all arrive. -/
theorem received_perm (h : c.delivered.Perm (List.range c.sent.length)) :
    c.received.Perm c.sent := by
  have hperm := h.filterMap fun k => c.sent[k]?
  rwa [filterMap_getElem?_range] at hperm

/-- If moreover they do not overtake each other, they arrive in their order. -/
theorem received_eq (h : c.delivered = List.range c.sent.length) : c.received = c.sent := by
  rw [received, h, filterMap_getElem?_range]

end Channel
