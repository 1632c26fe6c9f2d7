import Xdp2.Pvbuf.AllocSpec

/-!
# The search for a smaller pvbuf

Where there is no pvbuf of the size asked for, `___xdp2_pvbuf_alloc` follows links to smaller sizes
down to size zero (`pvbufSizeBelow_cases`). Size zero links to itself: if it is set up and all on
the way are in use, the search does not end. And a size above the largest set up links past it.
`pvbuf_alloc_iff` says when the function returns, and with nothing only if no such pvbuf is free.
-/

namespace Xdp2

open StateError

/-- `___xdp2_pvbuf_alloc` with `smaller_pvbuf_size` null, for at most `turns` turns of its loop. -/
def pvbufAllocTurns (c : MgrConfig) (turns pvbuf_size : Nat) : PvM (Option Pvbuf) := do
  match ← pvbufAlloc pvbuf_size with
  | some pv => return some pv
  | none => pvbufAllocSmaller c turns (c.smallerSize pvbuf_size)

/-- The largest size that is set up. -/
def MgrConfig.largestSize (c : MgrConfig) : Nat := c.pvbufSizeBelow 16

/-- The sizes that the function tries: the size itself, those below it and below the largest one, and
zero. -/
def MgrConfig.Tried (c : MgrConfig) (size i : Nat) : Prop :=
  i = size ∨ i = 0 ∨ i < min size c.largestSize

/-- The function returns, and it returns nothing only if nothing is free of the size or of a smaller
one. -/
def AllocServes (c : MgrConfig) (st : PvSt) (size : Nat) : Prop :=
  ∃ N r st', (∀ turns, N ≤ turns → (pvbufAllocTurns c turns size).run st = .ok r st') ∧
    (r = none → ∀ i ≤ size, st.mgr.pvbuf_free i = [])

/-! ## The links -/

section
variable {c : MgrConfig}

theorem MgrConfig.pvbufSizeBelow_cases (c : MgrConfig) (size : Nat) :
    c.pvbufSizeBelow size < size ∧ c.pvbuf_max_objs (c.pvbufSizeBelow size) ≠ 0 ∨
      c.pvbufSizeBelow size = 0 ∧ ∀ i < size, c.pvbuf_max_objs i = 0 := by
  rw [MgrConfig.pvbufSizeBelow]
  cases hfind : (List.range size).reverse.find? fun i => c.pvbuf_max_objs i ≠ 0 with
  | none =>
    refine .inr ⟨rfl, fun i hi => ?_⟩
    have hno := List.find?_eq_none.mp hfind i (List.mem_reverse.mpr (List.mem_range.mpr hi))
    simpa using hno
  | some i =>
    have hmem := List.mem_range.mp (List.mem_reverse.mp (List.mem_of_find?_eq_some hfind))
    exact .inl ⟨hmem, by simpa using List.find?_some hfind⟩

theorem MgrConfig.le_pvbufSizeBelow (hi : i < size) (hset : c.pvbuf_max_objs i ≠ 0) :
    i ≤ c.pvbufSizeBelow size := by
  induction size with
  | zero => cases hi
  | succ size ih =>
    have hstep : c.pvbufSizeBelow (size + 1) =
        if c.pvbuf_max_objs size ≠ 0 then size else c.pvbufSizeBelow size := by
      rw [MgrConfig.pvbufSizeBelow, List.range_succ, List.reverse_append, List.reverse_singleton,
        List.singleton_append, List.find?_cons]
      by_cases hobjs : c.pvbuf_max_objs size ≠ 0
      · simp [hobjs]
      · simp [hobjs, MgrConfig.pvbufSizeBelow]
    rw [hstep]
    split
    · omega
    · rename_i hobjs
      have hne : i ≠ size := fun h => hobjs (h ▸ hset)
      exact ih (by omega)

end

/-! ## The loop -/

section
variable {c : MgrConfig} {st : PvSt}

/-- A size that the loop can be at: none above the largest, and set up unless it is zero. -/
structure MgrConfig.Link (c : MgrConfig) (j : Nat) : Prop where
  lt : j < 16
  le : j ≤ c.largestSize
  set_up : c.pvbuf_max_objs j ≠ 0 ∨ j = 0

theorem MgrConfig.link_smaller (c : MgrConfig) (size : Nat) : c.Link (c.smallerSize size) := by
  have hle := c.smallerSize_le size
  have hbelow := c.pvbufSizeBelow_le (min size c.largestSize)
  have hcases := c.pvbufSizeBelow_cases (min size c.largestSize)
  refine ⟨by omega, ?_, ?_⟩
  · rw [MgrConfig.smallerSize]
    exact hbelow.trans (by omega)
  · exact hcases.imp And.right And.left

theorem MgrConfig.le_smallerSize (hfree : ∀ i, ∀ z ∈ st.mgr.pvbuf_free i, z < c.pvbuf_max_objs i)
    (hi : i < min size c.largestSize) (hne : st.mgr.pvbuf_free i ≠ []) :
    i ≤ c.smallerSize size := by
  obtain ⟨z, hz⟩ := List.exists_mem_of_ne_nil _ hne
  have := hfree i z hz
  exact MgrConfig.le_pvbufSizeBelow hi (by omega)

theorem pvbufAlloc_empty (hj : j < 16) (hempty : st.mgr.pvbuf_free j = []) :
    (pvbufAlloc j).run st = .ok none st := by
  rw [pvbufAlloc, run_bind_ok (assert_run (decide_eq_true hj) _ st), run_bind_ok (run_get st), hempty]
  rfl

theorem pvbufAlloc_found (hj : j < 16)
    (hfree : ∀ i, ∀ z ∈ st.mgr.pvbuf_free i, z < c.pvbuf_max_objs i)
    (hne : st.mgr.pvbuf_free j ≠ []) :
    ∃ pv st', (pvbufAlloc j).run st = .ok (some pv) st' := by
  obtain ⟨r, st', hrun, ⟨-, hempty, -⟩ | ⟨new, -, -, rfl, -⟩⟩ := pvbufAlloc_cases hj (hfree j)
  · exact absurd hempty hne
  · exact ⟨new, st', hrun⟩

theorem pvbufAllocSmaller_turn (hj : j < 16) (hset : c.pvbuf_max_objs j ≠ 0)
    (hempty : st.mgr.pvbuf_free j = []) :
    (pvbufAllocSmaller c (turns + 1) j).run st =
      (pvbufAllocSmaller c turns (c.smallerSize j)).run st := by
  rw [pvbufAllocSmaller, if_neg hset, run_bind_ok (pvbufAlloc_empty hj hempty)]

theorem pvbufAllocSmaller_found
    (hfree : ∀ i, ∀ z ∈ st.mgr.pvbuf_free i, z < c.pvbuf_max_objs i) (hj : c.Link j)
    (hsome : ∃ i ≤ j, st.mgr.pvbuf_free i ≠ []) :
    ∃ N pv st', ∀ turns, N ≤ turns → (pvbufAllocSmaller c turns j).run st = .ok (some pv) st' := by
  induction j using Nat.strong_induction_on with
  | _ j ih =>
    obtain ⟨i, hi, hne⟩ := hsome
    obtain ⟨z, hz⟩ := List.exists_mem_of_ne_nil _ hne
    have hset : c.pvbuf_max_objs j ≠ 0 := by
      rcases hj.set_up with h | rfl
      · exact h
      · obtain rfl : i = 0 := by omega
        have := hfree 0 z hz
        omega
    have hsucc : ∀ {turns}, 1 ≤ turns → ∃ t, turns = t + 1 := fun h =>
      ⟨_, (Nat.sub_add_cancel h).symm⟩
    by_cases hempty : st.mgr.pvbuf_free j = []
    · have hlt : i < j := lt_of_le_of_ne hi fun h => hne (h ▸ hempty)
      have hnext := c.smallerSize_le j
      have hle := MgrConfig.le_smallerSize hfree
        (show i < min j c.largestSize by have := hj.le; omega) hne
      obtain ⟨N, pv, st', hrun⟩ := ih _ (by omega) (c.link_smaller j) ⟨i, hle, hne⟩
      refine ⟨N + 1, pv, st', fun turns hturns => ?_⟩
      obtain ⟨turns, rfl⟩ := hsucc (show 1 ≤ turns by omega)
      rw [pvbufAllocSmaller_turn hj.lt hset hempty]
      exact hrun turns (by omega)
    · obtain ⟨pv, st', hrun⟩ := pvbufAlloc_found hj.lt hfree hempty
      refine ⟨1, pv, st', fun turns hturns => ?_⟩
      obtain ⟨turns, rfl⟩ := hsucc hturns
      rw [pvbufAllocSmaller, if_neg hset, run_bind_ok hrun]
      rfl

theorem pvbufAllocSmaller_none (hzero : c.pvbuf_max_objs 0 = 0) (hj : c.Link j)
    (hempty : ∀ i ≤ j, st.mgr.pvbuf_free i = []) :
    ∃ N, ∀ turns, N ≤ turns → (pvbufAllocSmaller c turns j).run st = .ok none st := by
  induction j using Nat.strong_induction_on with
  | _ j ih =>
    have hsucc : ∀ {turns}, 1 ≤ turns → ∃ t, turns = t + 1 := fun h =>
      ⟨_, (Nat.sub_add_cancel h).symm⟩
    by_cases hset : c.pvbuf_max_objs j = 0
    · refine ⟨1, fun turns hturns => ?_⟩
      obtain ⟨turns, rfl⟩ := hsucc hturns
      rw [pvbufAllocSmaller, if_pos hset]
      rfl
    · have hpos : j ≠ 0 := fun h => hset (h ▸ hzero)
      have hnext := c.smallerSize_le j
      obtain ⟨N, hrun⟩ := ih _ (by omega) (c.link_smaller j) fun i hi => hempty i (by omega)
      refine ⟨N + 1, fun turns hturns => ?_⟩
      obtain ⟨turns, rfl⟩ := hsucc (show 1 ≤ turns by omega)
      rw [pvbufAllocSmaller_turn hj.lt hset (hempty j le_rfl)]
      exact hrun turns (by omega)

theorem pvbufAllocSmaller_endless (hzero : c.pvbuf_max_objs 0 ≠ 0) (hj : c.Link j)
    (hempty : ∀ i ≤ j, st.mgr.pvbuf_free i = []) (turns : Nat) :
    (pvbufAllocSmaller c turns j).run st = .error .fuel st := by
  induction turns generalizing j with
  | zero => rfl
  | succ turns ih =>
    have hset : c.pvbuf_max_objs j ≠ 0 := hj.set_up.elim id fun h => h ▸ hzero
    have hnext := c.smallerSize_le j
    rw [pvbufAllocSmaller_turn hj.lt hset (hempty j le_rfl)]
    exact ih (c.link_smaller j) fun i hi => hempty i (by omega)

end

section
variable {c : MgrConfig} {st : PvSt}

theorem pvbufAllocTurns_loop (hsize : size < 16) (hempty : st.mgr.pvbuf_free size = [])
    (turns : Nat) : (pvbufAllocTurns c turns size).run st =
      (pvbufAllocSmaller c turns (c.smallerSize size)).run st := by
  rw [pvbufAllocTurns, run_bind_ok (pvbufAlloc_empty hsize hempty)]

theorem allocServes_of_tried (hsize : size < 16)
    (hfree : ∀ i, ∀ z ∈ st.mgr.pvbuf_free i, z < c.pvbuf_max_objs i) (htried : c.Tried size i)
    (hne : st.mgr.pvbuf_free i ≠ []) : AllocServes c st size := by
  by_cases hempty : st.mgr.pvbuf_free size = []
  · have hle : i ≤ c.smallerSize size := by
      rcases htried with rfl | rfl | hlt
      · exact absurd hempty hne
      · exact Nat.zero_le _
      · exact MgrConfig.le_smallerSize hfree hlt hne
    obtain ⟨N, pv, st', hrun⟩ :=
      pvbufAllocSmaller_found hfree (c.link_smaller size) ⟨i, hle, hne⟩
    refine ⟨N, some pv, st', fun turns hturns => ?_, (fun h => by cases h)⟩
    rw [pvbufAllocTurns_loop hsize hempty]
    exact hrun turns hturns
  · obtain ⟨pv, st', hrun⟩ := pvbufAlloc_found hsize hfree hempty
    refine ⟨0, some pv, st', fun turns _ => ?_, (fun h => by cases h)⟩
    rw [pvbufAllocTurns, run_bind_ok hrun]
    rfl

theorem MgrConfig.tried_of_le (hi : i ≤ c.smallerSize size) : c.Tried size i := by
  rcases c.pvbufSizeBelow_cases (min size c.largestSize) with ⟨hlt, -⟩ | ⟨hzero, -⟩
  · exact .inr (.inr (lt_of_le_of_lt hi hlt))
  · exact .inr (.inl (Nat.le_zero.mp (hi.trans hzero.le)))

theorem empty_of_tried (hsize : size < 16)
    (hfree : ∀ i, ∀ z ∈ st.mgr.pvbuf_free i, z < c.pvbuf_max_objs i)
    (htried : ∀ i, c.Tried size i → st.mgr.pvbuf_free i = [])
    (hlargest : c.largestSize < size → st.mgr.pvbuf_free c.largestSize = []) :
    ∀ i ≤ size, st.mgr.pvbuf_free i = [] := by
  intro i hi
  rcases hi.eq_or_lt with rfl | hlt
  · exact htried i (.inl rfl)
  · by_cases hmin : i < min size c.largestSize
    · exact htried i (.inr (.inr hmin))
    · by_cases heq : i = c.largestSize
      · subst heq
        exact hlargest hlt
      · -- a size above the largest one is not set up
        refine List.eq_nil_iff_forall_not_mem.mpr fun z hz => ?_
        have hset := hfree i z hz
        have hle : i ≤ c.largestSize := MgrConfig.le_pvbufSizeBelow (by omega) (by omega)
        omega

end

/-- **When the search for a pvbuf serves**: some size that it tries has a free pvbuf, or size zero is
not set up and the largest size, if it is below the one asked for, has none free. -/
theorem pvbuf_alloc_iff (c : MgrConfig) (st : PvSt) (size : Nat) (hsize : size < 16)
    (hfree : ∀ i, ∀ z ∈ st.mgr.pvbuf_free i, z < c.pvbuf_max_objs i) :
    AllocServes c st size ↔
      (∃ i, c.Tried size i ∧ st.mgr.pvbuf_free i ≠ []) ∨
        c.pvbuf_max_objs 0 = 0 ∧
          (c.largestSize < size → st.mgr.pvbuf_free c.largestSize = []) := by
  by_cases htried : ∃ i, c.Tried size i ∧ st.mgr.pvbuf_free i ≠ []
  · obtain ⟨i, hi, hne⟩ := htried
    exact iff_of_true (allocServes_of_tried hsize hfree hi hne) (.inl ⟨i, hi, hne⟩)
  · have hempty : ∀ i, c.Tried size i → st.mgr.pvbuf_free i = [] := by
      intro i hi
      by_contra hne
      exact htried ⟨i, hi, hne⟩
    have hbelow : ∀ i ≤ c.smallerSize size, st.mgr.pvbuf_free i = [] := fun i hi =>
      hempty i (MgrConfig.tried_of_le hi)
    have hloop := pvbufAllocTurns_loop (c := c) hsize (hempty size (.inl rfl))
    rw [or_iff_right htried]
    by_cases hzero : c.pvbuf_max_objs 0 = 0
    · obtain ⟨N, hnone⟩ := pvbufAllocSmaller_none hzero (c.link_smaller size) hbelow
      rw [and_iff_right hzero]
      constructor
      · rintro ⟨N', r, st', hrun, hall⟩ hlt
        have hsame := hrun (max N N') (le_max_right _ _)
        rw [hloop, hnone _ (le_max_left _ _)] at hsame
        cases hsame
        exact hall rfl _ hlt.le
      · intro hlargest
        refine ⟨N, none, st, fun turns hturns => ?_, fun _ =>
          empty_of_tried hsize hfree hempty hlargest⟩
        rw [hloop]
        exact hnone turns hturns
    · refine iff_of_false ?_ fun h => hzero h.1
      rintro ⟨N, r, st', hrun, -⟩
      have hend := hrun N le_rfl
      rw [hloop, pvbufAllocSmaller_endless hzero (c.link_smaller size) hbelow] at hend
      cases hend

/-- A manager with one pvbuf of each of the given sizes. -/
def oneEach (sizes : List Nat) : MgrConfig where
  pbuf_max_objs _ := 0
  pvbuf_max_objs i := if i ∈ sizes then 1 else 0
  pvbuf_max_objs_le _ := by split <;> decide
  default_pvbuf_size := 0
  default_pvbuf_size_lt := zero_lt_pvbuf_sizes

/-- The pvbufs of the given sizes are free. -/
def oneEachFree (sizes : List Nat) : PvSt where
  mgr :=
    { mem := ⟨fun _ _ => 0, fun _ _ => 0, fun _ _ => 0⟩
      refcnt := fun _ _ => 0
      pbuf_free := fun _ => []
      pvbuf_free := fun i => if i ∈ sizes then [0] else [] }

theorem oneEachFree_lt (hsub : free ⊆ sizes) :
    ∀ i, ∀ z ∈ (oneEachFree free).mgr.pvbuf_free i, z < (oneEach sizes).pvbuf_max_objs i := by
  intro i z hz
  simp only [oneEachFree, oneEach] at hz ⊢
  split at hz
  · rename_i hi
    rw [if_pos (hsub hi), List.mem_singleton.mp hz]
    exact Nat.one_pos
  · cases hz

/-- Size three has nothing free, size one has. -/
theorem pvbuf_alloc_iff_smaller : AllocServes (oneEach [1, 3]) (oneEachFree [1]) 3 :=
  (pvbuf_alloc_iff _ _ 3 (by decide) (oneEachFree_lt (by decide))).mpr
    (.inl ⟨1, by unfold MgrConfig.Tried; decide, by decide⟩)

/-- Size five is above the largest size three, which has a free pvbuf, and nothing is returned. And
with size zero set up and nothing free the search does not end. -/
theorem pvbuf_alloc_misses :
    (pvbufAllocEmpty (oneEach [3]) 5).run (oneEachFree [3]) = .ok none (oneEachFree [3]) ∧
    ∀ turns, (pvbufAllocTurns (oneEach [0]) turns 0).run (oneEachFree []) =
      .error .fuel (oneEachFree []) := by
  refine ⟨?_, fun turns => ?_⟩
  · rfl
  · rw [pvbufAllocTurns_loop (by decide) (by decide)]
    exact pvbufAllocSmaller_endless (by decide) (MgrConfig.link_smaller _ _) (fun i _ => rfl) turns

end Xdp2
