import Xdp2.Pvbuf.Ops

/-!
# Compression keeps the contents

`__xdp2_pvbuf_check_single` and `__xdp2_pvbuf_try_iovec_uplevel`: a sub-pvbuf with a single slot in
use gives way to what stands there, and a pvbuf whose only slot in use holds a sub-pvbuf takes over
its slots. The leaves stay the same, and the object of the sub-pvbuf is freed.
-/

namespace Xdp2

open BitWord StateError

/-! ## A single slot in use -/

theorem eq_gaps_of_used (h : used (entrySlots es) = []) :
    es = gaps es.length :=
  eq_gaps_of_isNull fun x hx => by simpa using List.filter_eq_nil_iff.mp h x hx

theorem IovEntry.used_slots {e : IovEntry} (he : e ≠ .gap) : used e.slots = e.slots :=
  List.filter_eq_self.mpr fun x hx => by rw [IovEntry.isNull_eq_false he hx]; rfl

theorem Slots.single {es : List IovEntry} (h : Slots pv (entrySlots es))
    (hw : weight pv.iovec_map = 1) :
    ∃ e x k, es = gaps (find pv.iovec_map) ++ [e] ++ gaps k ∧ e ≠ .gap ∧ e.slots = [x] ∧
      pv.get (find pv.iovec_map) = x ∧ find pv.iovec_map < pv.num := by
  rw [h.weight_eq] at hw
  rcases find_cases pv.iovec_map with ⟨-, hq⟩ | ⟨-, hnone⟩
  · obtain ⟨e, es', heq, hne⟩ := Slots.first (p := 0) h hq
    obtain rfl : es = gaps (find pv.iovec_map) ++ e :: es' := heq
    have hcount := hw
    simp only [entrySlots_append, entrySlots_cons, used_append, List.length_append,
      IovEntry.used_slots hne] at hcount
    have hpos := e.slots_length_pos
    obtain ⟨x, hx⟩ := List.length_eq_one_iff.mp (show e.slots.length = 1 by omega)
    have hgaps : es' = gaps es'.length :=
      eq_gaps_of_used (List.eq_nil_of_length_eq_zero (by omega))
    rw [← List.singleton_append, ← List.append_assoc, entrySlots_mid, hx] at h
    have hlen := h.length
    simp only [List.length_append, entrySlots_gaps, List.length_replicate,
      List.length_singleton] at hlen
    refine ⟨e, x, es'.length, ?_, hne, hx, h.get_at (by simp), by omega⟩
    rw [← hgaps, List.append_assoc, List.singleton_append]
  · rw [← List.nil_append es] at h
    rw [h.none_from fun k _ => hnone k, entrySlots_gaps, used_replicate] at hw
    cases hw

theorem checkSingle_spec (hok : (IovEntry.sub data_length sub).Ok (Wf depth))
    (hown : Owns c mem st.mgr (segRefs sub.segs ++ refs) (sub.objs ++ objs)) :
    Returns (checkSingle c (.pvbuf data_length sub)) st fun x st' => ∃ e : IovEntry,
      e.slots = [x] ∧ e ≠ .gap ∧ e.Ok (Wf depth) ∧ e.segs = sub.segs ∧ st'.out = st.out ∧
      Owns c mem st'.mgr (segRefs e.segs ++ refs) (e.objs ++ objs) := by
  have hmem : sub.obj ∈ sub.objs ++ objs := List.mem_append_left _ hok.1.obj_mem_objs
  rw [checkSingle]
  refine .step (paddrToAddr_run hown hmem st) ?_
  by_cases hw : weight sub.iovec_map = 1
  · rw [if_neg (not_not.mpr hw)]
    cases depth with
    | zero => exact hok.1.elim
    | succ depth =>
      obtain ⟨es, hs, hes⟩ := hok.1
      obtain ⟨e, x, k, rfl, hne, hx, hget, hlt⟩ := hs.single hw
      have hsegs : sub.segs = e.segs := by simp [hs.segs_eq]
      have hobjs : sub.objs = sub.obj :: e.objs := by simp [hs.objs_eq]
      refine .step (assert_run (decide_eq_true hlt) _ st) ?_
      rw [hsegs, hobjs, List.cons_append] at hown
      refine (objAllocFree_spec hown).bind fun _ st' ⟨hout, hown'⟩ => .pure ⟨e, ?_, hne, ?_⟩
      · rw [hx, hget]
      · exact ⟨(hes e (by simp)).mono fun _ => Wf.succ, hsegs.symm, hout, hown'⟩
  · rw [if_pos hw]
    exact .pure ⟨.sub data_length sub, rfl, nofun, hok, rfl, rfl, hown⟩

/-! ## An array going up -/

/-- Whether an entry is a free slot. -/
def IovEntry.isGap : IovEntry → Bool
  | gap => true
  | _ => false

section
variable (es : List IovEntry)

theorem used_entrySlots : used (entrySlots es) = entrySlots (es.filter fun e => !e.isGap) := by
  induction es with
  | nil => rfl
  | cons e es ih =>
    rw [entrySlots_cons, used_append, ih]
    match e with
    | .gap | .sub _ _ | .seg (.pbuf _) | .seg (.short _) | .seg (.long _ _) => rfl

@[simp] theorem entrySegs_filter : entrySegs (es.filter fun e => !e.isGap) = entrySegs es := by
  induction es with
  | nil => rfl
  | cons e es ih =>
    rw [entrySegs_cons, ← ih]
    cases e <;> rfl

@[simp] theorem entryObjs_filter : entryObjs (es.filter fun e => !e.isGap) = entryObjs es := by
  induction es with
  | nil => rfl
  | cons e es ih =>
    rw [entryObjs_cons, ← ih]
    cases e <;> rfl

end

/-- The loop of `__xdp2_pvbuf_try_iovec_uplevel`: the slots in use of the sub-pvbuf are moved to the
front of the empty array. -/
theorem uplevelLoop_spec (hold : Slots old (entrySlots es))
    (hpv : Slots pv (List.replicate pv.num .null)) (hle : old.num ≤ pv.num) :
    Returns (forBits .fuel (fun u => u.old_pvbuf.iovec_map) uplevelBody 0 ⟨pv, old, 0⟩) st
      fun u st' => st' = st ∧ u.pvbuf.obj = pv.obj ∧ u.old_pvbuf.obj = old.obj ∧
        ∃ k, Slots u.pvbuf (entrySlots ((es.filter fun e => !e.isGap) ++ gaps k)) := by
  have hused : (used (entrySlots es)).length ≤ pv.num :=
    (List.length_filter_le _ _).trans (hold.length.trans_le hle)
  -- `done` has gone up, the slots from the position on are to come
  refine forBits_rule
    (I := fun p u st' => st' = st ∧ u.pvbuf.obj = pv.obj ∧ u.old_pvbuf.obj = old.obj ∧
      ∃ done rest k, Slots u.old_pvbuf (List.replicate p .null ++ rest) ∧
        Slots u.pvbuf (done ++ List.replicate k .null) ∧ done.length = u.j ∧
        done ++ used rest = used (entrySlots es))
    ?_ ?_ (by decide) ⟨rfl, rfl, rfl, [], entrySlots es, pv.num, hold, hpv, rfl, rfl⟩
  · rintro p q u st' ⟨rfl, hobj, hobj', done, rest, k, hold', hpv', hj, heq⟩ hq
    obtain ⟨x, l, rfl, hx⟩ := hold'.first_slot List.length_replicate hq
    rw [← List.append_assoc, List.replicate_append_replicate, Nat.add_sub_cancel' hq.le] at hold'
    rw [used_append, used_replicate, List.nil_append, used_cons hx] at heq
    have hlen := hpv'.length
    rw [PvbufOf.num_eq_of_obj hobj, List.length_append, List.length_replicate] at hlen
    have hroom := congrArg List.length heq
    rw [List.length_append, List.length_cons] at hroom
    obtain ⟨k, rfl⟩ : ∃ k', k = k' + 1 := ⟨k - 1, by omega⟩
    rw [List.replicate_succ] at hpv'
    have hget : u.old_pvbuf.get q = x := hold'.get_at List.length_replicate
    rw [uplevelBody, hget]
    refine .step (iovecMapSet_run _ (hpv'.lt hj) st') ?_
    refine .step (iovecClearEnt_run _ (hold'.lt List.length_replicate) st') (.pure ⟨Nat.le_refl q, rfl, ?_⟩)
    refine ⟨hobj, hobj', done ++ [x], l, k, ?_, ?_, by simp [hj], by simpa using heq⟩
    · simpa [List.replicate_succ'] using hold'.clear List.length_replicate
    · simpa using hpv'.put hj hx
  · rintro p u _ ⟨rfl, hobj, hobj', done, rest, k, hold', hpv', -, heq⟩ hnone
    rw [used_eq_nil (hold'.null_from (by simpa using hnone)), List.append_nil] at heq
    rw [heq] at hpv'
    refine ⟨rfl, hobj, hobj', k, ?_⟩
    rw [entrySlots_append, entrySlots_gaps, ← used_entrySlots]
    exact hpv'

/-- **Taking up the array of an only sub-pvbuf keeps the leaves.** -/
theorem tryIovecUplevel_spec (h : Holds c mem (Wf depth) st.mgr pv es refs objs) :
    Returns (tryIovecUplevel c pv) st fun pv' st' => ∃ es', pv'.obj = pv.obj ∧
      entrySegs es' = entrySegs es ∧ st'.out = st.out ∧
      Holds c mem (Wf depth) st'.mgr pv' es' refs objs := by
  rw [tryIovecUplevel]
  by_cases hw : weight pv.iovec_map = 1
  · rw [if_neg (not_not.mpr hw)]
    obtain ⟨e, x, k, rfl, hne, hx, hget, hlt⟩ := h.slots.single hw
    refine .step (assert_run (decide_eq_true hlt) _ st) ?_
    rw [hget]
    match e, hne, x, hx with
    | .seg (.pbuf a), _, _, rfl => exact .pure ⟨_, rfl, rfl, rfl, h⟩
    | .seg (.short a), _, _, rfl => exact .pure ⟨_, rfl, rfl, rfl, h⟩
    | .sub data_length old, _, _, rfl =>
      dsimp only
      split
      · exact .pure ⟨_, rfl, rfl, rfl, h⟩
      · rename_i hle
        have hok : (IovEntry.sub data_length old).Ok (Wf depth) := h.ok _ (by simp)
        have hown := h.focus_sub
        refine .step (paddrToAddr_run hown (List.mem_append_left _ hok.1.obj_mem_objs) st) ?_
        have hs := h.slots
        rw [entrySlots_mid, IovEntry.slots, List.singleton_append] at hs
        refine .step (iovecClearEnt_run pv (hs.lt (by simp)) st) ?_
        cases depth with
        | zero => exact hok.1.elim
        | succ depth =>
          obtain ⟨es, hold, hes⟩ := hok.1
          have hpv : Slots (pv.clear (find pv.iovec_map)) (List.replicate pv.num .null) := by
            have hclear := hs.clear (i := find pv.iovec_map) (by simp)
            rw [entrySlots_gaps, entrySlots_gaps, ← List.replicate_succ,
              List.replicate_append_replicate] at hclear
            have hlen : find pv.iovec_map + (k + 1) = pv.num :=
              List.length_replicate.symm.trans hclear.length
            rwa [← hlen]
          refine (uplevelLoop_spec hold hpv (Nat.le_of_not_lt hle)).bind ?_
          rintro u st ⟨rfl, hobj, hobj', k', hs'⟩
          have hown' : Owns c mem st.mgr (segRefs (entrySegs es) ++ refs)
              (u.old_pvbuf.obj :: (entryObjs es ++ (pv.obj :: objs))) := by
            simpa [hold.segs_eq, hold.objs_eq, outerRefs, outerObjs, hobj'] using hown
          refine (objAllocFree_spec hown').bind ?_
          rintro _ st' ⟨hout, hown''⟩
          refine .pure ⟨_, hobj, ?_, hout, hs', ?_, ?_⟩
          · simp [hold.segs_eq, IovEntry.segs]
          · intro e he
            rcases List.mem_append.mp he with he | he
            · exact (hes e (List.mem_filter.mp he).1).mono fun _ => Wf.succ
            · exact forall_ok_gaps k' e he
          · have hperm := hown''.perm (List.Perm.refl _) List.perm_middle
            simpa [hobj] using hperm
  · rw [if_pos hw]
    exact .pure ⟨es, rfl, rfl, rfl, h⟩

end Xdp2
