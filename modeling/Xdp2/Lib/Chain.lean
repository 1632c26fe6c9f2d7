import Mathlib.Algebra.BigOperators.Group.Finset.Basic
import Mathlib.Tactic.Ring

/-!
# Chains of queues

Elements move from the front of a queue to the end of the next one. What lies in the queues stays
the same list (`flow`), and the way the elements still have to go gets shorter (`weight`). Queues
have capacities. In a `Pass` each queue from a number on gets the chance to move elements, and if
there are any, something moves (`Pass.weight_lt`), although a queue may be blocked by the next.
-/

namespace Chain

variable {α : Type*}

/-- `k` elements go from the queue `i` to the next one. -/
def move (i k : Nat) (q : Nat → List α) : Nat → List α := fun j =>
  if j = i then (q i).drop k else if j = i + 1 then q (i + 1) ++ (q i).take k else q j

theorem eq_move (hfrom : q' i = (q i).drop k) (hto : q' (i + 1) = q (i + 1) ++ (q i).take k)
    (hother : ∀ j, j ≠ i → j ≠ i + 1 → q' j = q j) : q' = move i k q := by
  funext j
  rw [move]
  split
  · rename_i heq
    rw [heq, hfrom]
  · split
    · rename_i heq
      rw [heq, hto]
    · exact hother j (by assumption) (by assumption)

/-- All that lies in the queues up to `n`, the queue `n` first. -/
def flow (q : Nat → List α) : Nat → List α
  | 0 => q 0
  | n + 1 => q (n + 1) ++ flow q n

/-- The number of moves that are needed to have everything in the queue `n`. -/
def weight (q : Nat → List α) (n : Nat) : Nat := ∑ j ∈ Finset.range n, (flow q j).length

theorem flow_congr (h : ∀ j, j ≤ n → q' j = q j) : flow q' n = flow q n := by
  induction n with
  | zero => exact h 0 le_rfl
  | succ n ih => rw [flow, flow, h _ le_rfl, ih fun j hj => h j (Nat.le_succ_of_le hj)]

theorem flow_move_of_lt (h : j < i) : flow (move i k q) j = flow q j :=
  flow_congr fun m hm => by rw [move, if_neg (by omega), if_neg (by omega)]

theorem flow_move_self (hk : k ≤ (q i).length) : flow q i = (q i).take k ++ flow (move i k q) i := by
  have hself : move i k q i = (q i).drop k := if_pos rfl
  cases i with
  | zero => rw [flow, flow, hself, List.take_append_drop]
  | succ i =>
    rw [flow, flow, hself, flow_move_of_lt (Nat.lt_succ_self i), ← List.append_assoc,
      List.take_append_drop]

theorem flow_move_of_gt (hk : k ≤ (q i).length) (h : i < j) :
    flow (move i k q) j = flow q j := by
  induction j with
  | zero => omega
  | succ j ih =>
    rw [flow, flow]
    rcases Nat.lt_or_ge i j with hlt | hge
    · rw [ih hlt, move, if_neg (by omega), if_neg (by omega)]
    · obtain rfl : j = i := by omega
      rw [move, if_neg (by omega), if_pos rfl, flow_move_self hk, List.append_assoc]

theorem weight_move (hk : k ≤ (q i).length) (h : i < n) :
    weight (move i k q) n + k = weight q n := by
  induction n with
  | zero => omega
  | succ n ih =>
    rw [weight, weight, Finset.sum_range_succ, Finset.sum_range_succ]
    rcases Nat.lt_or_ge i n with hlt | hge
    · have := ih hlt
      rw [weight, weight] at this
      rw [flow_move_of_gt hk hlt]
      omega
    · obtain rfl : n = i := by omega
      have hsum : ∑ j ∈ Finset.range n, (flow (move n k q) j).length =
          ∑ j ∈ Finset.range n, (flow q j).length :=
        Finset.sum_congr rfl fun j hj => by rw [flow_move_of_lt (Finset.mem_range.mp hj)]
      rw [hsum, flow_move_self hk, List.length_append, List.length_take]
      omega

theorem flow_of_nil (h : ∀ j, 0 < j → j ≤ n → q j = []) : flow q n = q 0 := by
  induction n with
  | zero => rfl
  | succ n ih =>
    rw [flow, h (n + 1) (Nat.succ_pos n) le_rfl, ih fun j hj hle => h j hj (by omega),
      List.nil_append]

theorem weight_of_nil (h : ∀ j, 0 < j → j ≤ n → q j = []) : weight q n = n * (q 0).length := by
  have hsum : ∀ j ∈ Finset.range n, (flow q j).length = (q 0).length := by
    intro j hj
    rw [Finset.mem_range] at hj
    rw [flow_of_nil fun m hm hle => h m hm (by omega)]
  rw [weight, Finset.sum_congr rfl hsum, Finset.sum_const, Finset.card_range, Nat.nsmul_eq_mul]

theorem length_le_flow (h : j ≤ n) : (q j).length ≤ (flow q n).length := by
  induction n with
  | zero => rw [Nat.le_zero.mp h, flow]
  | succ n ih =>
    rw [flow, List.length_append]
    rcases Nat.lt_or_ge n j with hlt | hge
    · obtain rfl : j = n + 1 := by omega
      omega
    · have := ih hge
      omega

/-! ## Passes -/

section
variable (cap : Nat → Nat)

/-- The queue `i` gets the chance to move elements. -/
def Moves (i : Nat) (q q' : Nat → List α) : Prop :=
  ∃ k, k ≤ (q i).length ∧ q' = move i k q ∧
    (q i ≠ [] → (q (i + 1)).length < cap (i + 1) → 0 < k)

/-- The queues from a number on, up to `n`, get the chance in turn. -/
inductive Pass (n : Nat) : Nat → (Nat → List α) → (Nat → List α) → Prop
  | done (q : Nat → List α) : Pass n n q q
  | step {i : Nat} {q q' q'' : Nat → List α} : i < n → Moves cap i q q' → Pass n (i + 1) q' q'' →
      Pass n i q q''

end

theorem move_zero : move i 0 q = q :=
  (eq_move (List.drop_zero).symm (by rw [List.take_zero, List.append_nil]) fun _ _ _ => rfl).symm

theorem Moves.refl_of_nil (h : q i = []) : Moves cap i q q :=
  ⟨0, Nat.zero_le _, move_zero.symm, fun hne => absurd h hne⟩

theorem Moves.eq_of_nil (h : Moves cap i q q') (hnil : q i = []) : q' = q := by
  obtain ⟨k, hk, rfl, -⟩ := h
  rw [hnil, List.length_nil, Nat.le_zero] at hk
  rw [hk, move_zero]

theorem Pass.trans (h : Pass cap m i q q') (h' : Pass cap n m q' q'') (hle : m ≤ n) :
    Pass cap n i q q'' := by
  induction h with
  | done => exact h'
  | step hlt hmoves _ ih => exact .step (by omega) hmoves (ih h')

theorem Pass.single (h : Moves cap i q q') : Pass cap (i + 1) i q q' :=
  .step (Nat.lt_succ_self i) h (.done q')

theorem Pass.flow_eq (h : Pass cap n i q q') : flow q' n = flow q n := by
  induction h with
  | done => rfl
  | step hlt hmoves _ ih =>
    obtain ⟨k, hk, rfl, -⟩ := hmoves
    rw [ih, flow_move_of_gt hk hlt]

theorem Pass.weight_le (h : Pass cap n i q q') : weight q' n ≤ weight q n := by
  induction h with
  | done => exact le_rfl
  | step hlt hmoves _ ih =>
    obtain ⟨k, hk, rfl, -⟩ := hmoves
    have := weight_move hk hlt
    omega

theorem Pass.before (h : Pass cap n i q q') (hj : j < i) : q' j = q j := by
  induction h with
  | done => rfl
  | step _ hmoves _ ih =>
    obtain ⟨k, -, rfl, -⟩ := hmoves
    rw [ih (by omega), move, if_neg (by omega), if_neg (by omega)]

theorem Pass.weight_lt (h : Pass cap n i q q') (hcap : ∀ j, 0 < j → j < n → 0 < cap j)
    (hroom : (flow q n).length ≤ cap n) (hsome : ∃ m, i ≤ m ∧ m < n ∧ q m ≠ []) :
    weight q' n < weight q n := by
  induction h with
  | done =>
    obtain ⟨m, hle, hlt, -⟩ := hsome
    omega
  | @step i q q1 q2 hlt hmoves hpass ih =>
    obtain ⟨k, hk, rfl, hpos⟩ := hmoves
    have hweight := weight_move hk hlt
    rcases Nat.eq_zero_or_pos k with rfl | hk'
    · -- nothing moved: there is something to move at a later queue
      have hsome' : ∃ m, i + 1 ≤ m ∧ m < n ∧ move i 0 q m ≠ [] := by
        rw [move_zero]
        obtain ⟨m, hle, hmn, hne⟩ := hsome
        rcases Nat.lt_or_ge i m with him | hge
        · exact ⟨m, him, hmn, hne⟩
        · obtain rfl : m = i := by omega
          have hfull : cap (m + 1) ≤ (q (m + 1)).length := by
            by_contra hroom'
            exact absurd (hpos hne (not_le.mp hroom')) (lt_irrefl 0)
          rcases Nat.lt_or_ge (m + 1) n with hmn' | hge'
          · refine ⟨m + 1, le_rfl, hmn', ?_⟩
            have := hcap (m + 1) (Nat.succ_pos m) hmn'
            exact List.ne_nil_of_length_pos (show 0 < (q (m + 1)).length by omega)
          · obtain rfl : n = m + 1 := by omega
            have hlen := length_le_flow (q := q) (le_refl m)
            have := List.length_pos_of_ne_nil hne
            rw [flow, List.length_append] at hroom
            omega
      have := ih (by rwa [flow_move_of_gt hk hlt]) hsome'
      omega
    · have := hpass.weight_le
      omega

end Chain
