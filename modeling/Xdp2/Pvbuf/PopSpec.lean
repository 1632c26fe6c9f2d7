import Xdp2.Pvbuf.PopEntry

/-!
# What popping does

The invariant of the loops of `__xdp2_pvbuf_pop_hdrs` and `__xdp2_pvbuf_pop_trailers`: the slots
passed are free, and as many bytes have been taken from that end as are no longer to be dropped
(`Taken`). Each level assumes `PopSpec` of the level below.
-/

namespace Xdp2

open BitWord StateError ListEnd

variable {st : PvSt} {pv : Pvbuf}

/-! ## The bytes of a packet taken from one end -/

/-- Of the bytes `B`, of which `n` are to go, all but `left` have been taken and copied behind `out`;
`rest` is what the packet still has. -/
def Taken (side : Side) (copy : Bool) (B : List UInt8) (n : Nat) (out : List UInt8) (left : Nat)
    (out' rest : List UInt8) : Prop :=
  ∃ k, Progress side B k rest ∧ k ≤ n ∧ left = n - k ∧ out' = emit side copy out (part side k B)

theorem Taken.zero : Taken side copy B n out n out B :=
  ⟨0, Progress.zero side B, Nat.zero_le n, rfl, by rw [part_zero, emit_nil]⟩

theorem Taken.step (h : Taken side copy B n out left out' (join side a b)) :
    Taken side copy B n out (left - a.length) (emit side copy out' (part side left a))
      (join side (keep side left a) b) := by
  obtain ⟨k, hprog, hk, rfl, rfl⟩ := h
  obtain ⟨hprog', hpart⟩ := hprog.step (n - k)
  refine ⟨_, hprog', by omega, by omega, ?_⟩
  rw [hpart, emit_emit]

theorem Taken.done (h : Taken side copy B n out left out' rest) (hend : left = 0 ∨ rest = []) :
    rest = keep side n B ∧ n - left = min n B.length ∧ out' = emit side copy out (part side n B) := by
  obtain ⟨k, ⟨hle, rfl⟩, hk, rfl, rfl⟩ := h
  rcases hend with hleft | hrest
  · obtain rfl : k = n := by omega
    exact ⟨rfl, by omega, rfl⟩
  · have hlen := congrArg List.length hrest
    rw [length_keep, List.length_nil] at hlen
    obtain rfl : k = B.length := by omega
    refine ⟨?_, by omega, ?_⟩
    · rw [keep_of_le side (Nat.le_refl _), keep_of_le side hk]
    · rw [part_of_le side (Nat.le_refl _), part_of_le side hk]

/-! ## The end of the loops -/

/-- The state when the loop is left. -/
def LoopDone (c : MgrConfig) (mem : Mem) (P : Pvbuf → Prop) (side : Side) (copy : Bool)
    (refs : List Ref) (objs : List (Nat × Nat)) (pv : Pvbuf) (n : Nat) (st : PvSt) (p : Popping)
    (st' : PvSt) : Prop :=
  p.pvbuf.obj = pv.obj ∧ ∃ es, Holds c mem P st'.mgr p.pvbuf es refs objs ∧
    Taken side copy (pv.contents mem) n st.out p.num_drop_bytes st'.out
      (segBytes mem (entrySegs es)) ∧
    (p.num_drop_bytes = 0 ∨ segBytes mem (entrySegs es) = []) ∧
    segRefs (entrySegs es) ⊆ segRefs pv.segs

theorem popEnd_spec (compress : Bool)
    (h : LoopDone c mem (Wf depth) side copy refs objs pv n st0 p st) :
    Returns (popEnd c compress n p) st
      (Popped c mem (Wf (depth + 1)) side copy refs objs pv n st0) := by
  obtain ⟨hobj, es, hh, htaken, hend, hkept⟩ := h
  obtain ⟨hrest, hdropped, hout⟩ := htaken.done hend
  -- whether the array goes up or not, the leaves stay
  have hpost : ∀ {pv' : Pvbuf} {st' : PvSt} {es' : List IovEntry}, pv'.obj = p.pvbuf.obj →
      entrySegs es' = entrySegs es → st'.out = st.out →
      Holds c mem (Wf depth) st'.mgr pv' es' refs objs →
      Popped c mem (Wf (depth + 1)) side copy refs objs pv n st0 (pv', n - p.num_drop_bytes) st' := by
    intro pv' st' es' hobj' hsegs hout' hh'
    refine ⟨hh'.wf, hobj'.trans hobj, hdropped, ?_, hout'.trans hout, hh'.owns_segs, ?_⟩
    · rw [PvbufOf.contents, hh'.slots.segs_eq, hsegs, hrest]
    · rwa [hh'.slots.segs_eq, hsegs]
  rw [popEnd]
  cases compress with
  | true =>
    refine (tryIovecUplevel_spec hh).bind ?_
    rintro pv' st' ⟨es', hobj', hsegs, hout', hh'⟩
    exact .pure (hpost hobj' hsegs hout' hh')
  | false => exact .pure (hpost rfl rfl rfl hh)

/-! ## Headers -/

theorem entries_of_width_one (h : (entrySlots es).length = 1) :
    ∃ e, es = [e] ∧ e.slots.length = 1 := by
  match es with
  | [] => cases h
  | [e] => exact ⟨e, rfl, by simpa using h⟩
  | e :: e' :: es =>
    have hpos := e.slots_length_pos
    have hpos' := e'.slots_length_pos
    simp only [entrySlots_cons, List.length_append] at h
    omega

theorem checkSingleAt_spec (h : Holds c mem (Wf depth) st.mgr pv (es1 ++ [e] ++ es2) refs objs)
    (hi : (entrySlots es1).length = i) (hwidth : e.slots.length = 1) :
    Returns (checkSingleAt c compress pv i) st fun pv' st' => ∃ e' : IovEntry,
      pv'.obj = pv.obj ∧ e'.slots.length = 1 ∧ e'.segs = e.segs ∧ (e = .gap → e' = .gap) ∧
      st'.out = st.out ∧ Holds c mem (Wf depth) st'.mgr pv' (es1 ++ [e'] ++ es2) refs objs := by
  rw [checkSingleAt]
  split
  · rename_i hcond
    have hs := h.slots
    rw [entrySlots_mid] at hs
    obtain ⟨x, hx⟩ := List.length_eq_one_iff.mp hwidth
    rw [hx, List.singleton_append] at hs
    have htag := hcond.2
    rw [hs.get_at hi] at htag ⊢
    match e, x, hx with
    | .sub data_length sub, _, rfl =>
      refine (checkSingle_spec (h.ok _ (by simp)) h.focus_sub).bind ?_
      rintro y st' ⟨e', hy, hne, hok, hsegs, hout, hown⟩
      refine .pure ⟨e', rfl, by rw [hy]; rfl, hsegs, nofun, hout, h.refill rfl ?_ ?_ ?_⟩
      · rw [entrySlots_mid, hy]
        exact hs.set hi (IovEntry.isNull_eq_false hne (by rw [hy]; exact List.mem_cons_self)).symm
      · intro e'' he''
        obtain rfl := List.mem_singleton.mp he''
        exact hok
      · simpa using hown
    | .gap, _, rfl | .seg (.pbuf a), _, rfl | .seg (.short a), _, rfl => cases htag
  · exact .pure ⟨e, rfl, hwidth, rfl, id, rfl, h⟩

theorem popHdrsBody_spec (hpop : PopSpec c mem (Wf depth) .front copy f.pop)
    (hfree : FreeSpec c mem (Wf depth) f.free) (he : e ≠ .gap)
    (h : Holds c mem (Wf depth) st.mgr p.pvbuf (es1 ++ [e] ++ es2) refs objs)
    (hi : (entrySlots es1).length = i) :
    Returns (popHdrsBody c f compress copy i p) st fun r st' => ∃ pv' left es,
      r = Popping.turn (i + e.slots.length - 1) ⟨pv', left⟩ ∧
      PopAt c mem (Wf depth) .front copy refs objs es1 es2 p.pvbuf e p.num_drop_bytes st es
        (pv', left) st' := by
  have hs := h.slots
  rw [entrySlots_mid] at hs
  rw [popHdrsBody]
  refine .step (assert_run (by rw [hs.get_isNull he hi]; rfl) _ st) ?_
  match e, he with
  | .sub data_length sub, _ =>
    rw [h.sub_slots.get_at hi]
    refine (popFromPvbufIovec_spec hpop hfree h hi).bind ?_
    rintro ⟨pv', left⟩ st' ⟨es, hat⟩
    obtain ⟨e, rfl, hwidth⟩ := entries_of_width_one hat.width
    refine (checkSingleAt_spec hat.holds hi hwidth).bind ?_
    rintro pv'' st'' ⟨e', hobj, hwidth', hsegs, hgap, hout, h'⟩
    refine .pure ⟨pv'', left, [e'], rfl, h', hobj.trans hat.obj, ?_, hat.left, ?_,
      hout.trans hat.out, fun hleft => ?_, by simpa [hsegs] using hat.kept⟩
    · rw [entrySlots_cons, entrySlots_nil, List.append_nil]
      exact hwidth'
    · rw [← hat.contents]
      simp [hsegs]
    · rw [hgap (List.singleton_inj.mp (hat.free hleft))]
      rfl
  | .seg (.pbuf a), _ =>
    rw [hs.get_at (x := .pbuf a) hi]
    refine (popFromPaddrIovec_spec h hi).bind ?_
    rintro ⟨pv', left⟩ st' ⟨es, hat⟩
    exact .pure ⟨pv', left, es, rfl, hat⟩
  | .seg (.short a), _ =>
    rw [hs.get_at (x := .short a) hi]
    refine (popFromPaddrIovec_spec h hi).bind ?_
    rintro ⟨pv', left⟩ st' ⟨es, hat⟩
    exact .pure ⟨pv', left, es, rfl, hat⟩
  | .seg (.long a b), _ =>
    rw [hs.get_at (x := .long a) hi]
    refine (popFromPaddrIovec_spec h hi).bind ?_
    rintro ⟨pv', left⟩ st' ⟨es, hat⟩
    exact .pure ⟨pv', left, es, rfl, hat⟩

theorem PopAt.taken {es1 es2 es : List IovEntry} {e : IovEntry} {st0 st' : PvSt} {B : List UInt8}
    {left : Nat} {r : Pvbuf × Nat} {rest : List UInt8}
    (h : PopAt c mem P side copy refs objs es1 es2 pv e left st es r st')
    (htaken : Taken side copy B n st0.out left st.out (join side (e.contents mem) rest)) :
    Taken side copy B n st0.out r.2 st'.out (join side (segBytes mem (entrySegs es)) rest) := by
  rw [h.left, h.out, h.contents]
  exact htaken.step

theorem popHdrs_loop (hpop : PopSpec c mem (Wf depth) .front copy f.pop)
    (hfree : FreeSpec c mem (Wf depth) f.free) (h : Holds c mem (Wf depth) st.mgr pv es refs objs) :
    Returns (forBits .fuel (fun p => p.pvbuf.iovec_map) (popHdrsBody c f compress copy) 0 ⟨pv, n⟩) st
      fun p st' => LoopDone c mem (Wf depth) .front copy refs objs pv n st p st' ∧
        ((p.pvbuf.get 0).isNull = true ∨
          (popHdrsBody c f compress copy 0 ⟨pv, n⟩).run st = .ok (.done p) st') := by
  have hstart : Taken .front copy (pv.contents mem) n st.out n st.out
      (segBytes mem (entrySegs es)) := by
    rw [PvbufOf.contents, ← h.slots.segs_eq]
    exact Taken.zero
  have hzero : ∀ {p : Popping} {m : Mgr} {i : Nat} {es : List IovEntry}, 0 < i →
      Holds c mem (Wf depth) m p.pvbuf (gaps i ++ es) refs objs → (p.pvbuf.get 0).isNull = true := by
    intro p m i es hi h
    obtain ⟨i, rfl⟩ : ∃ i', i = i' + 1 := ⟨i - 1, by omega⟩
    have hs : Slots p.pvbuf ([] ++ .null :: entrySlots (gaps i ++ es)) := h.slots
    rw [hs.get_at (i := 0) rfl]
    rfl
  refine forBits_rule
    (I := fun i p st' => p.pvbuf.obj = pv.obj ∧ (i = 0 → p = ⟨pv, n⟩ ∧ st' = st) ∧ ∃ es,
      Holds c mem (Wf depth) st'.mgr p.pvbuf (gaps i ++ es) refs objs ∧
      Taken .front copy (pv.contents mem) n st.out p.num_drop_bytes st'.out
        (segBytes mem (entrySegs es)) ∧ segRefs (entrySegs es) ⊆ segRefs pv.segs)
    ?_ ?_ (by decide) ⟨rfl, fun _ => ⟨rfl, rfl⟩, es, h, hstart, by rw [h.slots.segs_eq]; exact .refl _⟩
  · rintro i q p st' ⟨hobj, hfirst, es, h, htaken, hkept⟩ hq
    obtain ⟨e, es2, heq, hne⟩ := h.slots.first hq
    have hrefs := congrArg (fun l => segRefs (entrySegs l)) heq
    simp only [entrySegs_append, entrySegs_gaps, List.nil_append, entrySegs_cons,
      segRefs_append] at hrefs
    rw [hrefs] at hkept
    obtain ⟨hkept, hkept'⟩ := List.append_subset.mp hkept
    have hbytes := congrArg (fun l => segBytes mem (entrySegs l)) heq
    simp only [entrySegs_append, entrySegs_gaps, List.nil_append, entrySegs_cons,
      segBytes_append] at hbytes
    rw [hbytes] at htaken
    rw [heq, ← List.singleton_append, ← List.append_assoc] at h
    refine (popHdrsBody_spec hpop hfree hne h (by simp)).with_run.mono ?_
    rintro _ st'' ⟨hrun, pv', left, es', rfl, hat⟩
    have htaken' := hat.taken htaken
    have hpos := e.slots_length_pos
    have hle := hq.le
    rw [Popping.turn] at hrun ⊢
    split
    · rename_i hleft
      rw [if_pos hleft] at hrun
      refine ⟨⟨hat.obj.trans hobj, _, hat.holds, by simpa [join] using htaken', .inl hleft, ?_⟩, ?_⟩
      · simp only [entrySegs_append, entrySegs_gaps, List.nil_append, segRefs_append]
        exact List.append_subset.mpr ⟨List.Subset.trans hat.kept hkept, hkept'⟩
      by_cases hz : q = 0
      · obtain ⟨rfl, rfl⟩ := hfirst (by omega)
        rw [hz] at hrun
        exact .inr hrun
      · have hh := hat.holds
        rw [List.append_assoc] at hh
        exact .inl (hzero (p := ⟨pv', left⟩) (Nat.pos_of_ne_zero hz) hh)
    · rename_i hleft
      have hh := hat.holds
      rw [hat.free hleft, gaps, gaps, List.replicate_append_replicate] at hh
      rw [hat.free hleft] at htaken'
      refine ⟨by omega, hat.obj.trans hobj, fun hz => by omega, es2, ?_, by simpa using htaken',
        hkept'⟩
      rwa [Nat.sub_add_cancel (by omega)]
  · rintro i p st' ⟨hobj, -, es, h, htaken, hkept⟩ hnone
    have hgaps : es = gaps es.length := h.slots.none_from (by simpa using hnone)
    have hall : gaps i ++ es = gaps (i + es.length) ++ [] := by
      rw [List.append_nil, hgaps, gaps, gaps, List.replicate_append_replicate, List.length_replicate]
      rfl
    refine ⟨⟨hobj, _, h, by simpa using htaken, .inr ?_, by simpa using hkept⟩, .inl ?_⟩
    · rw [hgaps]
      simp
    · have hlen := h.slots.length
      have hnum := p.pvbuf.le_num
      rw [hall] at h hlen
      refine hzero ?_ h
      simp only [List.append_nil, entrySlots_gaps, List.length_replicate] at hlen
      omega

/-- **Popping headers takes the first bytes.** -/
theorem popHdrs_spec (compress copy : Bool) (depth : Nat) :
    PopSpec c mem (Wf depth) .front copy (popHdrs c compress copy depth) := by
  induction depth with
  | zero => exact fun _ _ _ _ _ hwf => hwf.elim
  | succ depth ih =>
    intro pv n st refs objs hwf hown
    have hmem : pv.obj ∈ pv.objs ++ objs := List.mem_append_left _ hwf.obj_mem_objs
    rw [popHdrs]
    refine .step (paddrToAddr_run hown hmem st) ?_
    split
    · rename_i hn
      subst hn
      exact .pure ⟨hwf, rfl, by simp, by simp, by simp [emit_nil], hown, .refl _⟩
    · obtain ⟨es, h⟩ := Holds.of_wf hwf hown
      exact (popHdrs_loop ih (pvbufFree_spec depth) h).bind fun p st' hdone => popEnd_spec _ hdone.1

/-! ## Trailers -/

theorem popTrailersBody_spec (hpop : PopSpec c mem (Wf depth) .back copy f.pop)
    (hfree : FreeSpec c mem (Wf depth) f.free) (he : e ≠ .gap)
    (h : Holds c mem (Wf depth) st.mgr p.pvbuf (es1 ++ [e] ++ es2) refs objs)
    (hq : q + 1 = (entrySlots es1).length + e.slots.length) :
    Returns (popTrailersBody c f compress copy q p) st fun r st' => ∃ pv' left es,
      r = Popping.turn (entrySlots es1).length ⟨pv', left⟩ ∧
      PopAt c mem (Wf depth) .back copy refs objs es1 es2 p.pvbuf e p.num_drop_bytes st es
        (pv', left) st' := by
  have hs := h.slots
  rw [entrySlots_mid] at hs
  rw [popTrailersBody]
  match e, he with
  | .sub data_length sub, _ =>
    obtain rfl : q = (entrySlots es1).length := Nat.succ.inj hq
    rw [h.sub_slots.get_at rfl]
    refine .step (assert_run rfl _ st) ((popFromPvbufIovec_spec hpop hfree h rfl).bind ?_)
    rintro ⟨pv', left⟩ st' ⟨es, hat⟩
    exact .pure ⟨pv', left, es, rfl, hat⟩
  | .seg (.pbuf a), _ =>
    obtain rfl : q = (entrySlots es1).length := Nat.succ.inj hq
    rw [hs.get_at (x := .pbuf a) rfl]
    refine .step (assert_run rfl _ st) ((popTrailersFromPaddrIovec_spec h rfl).bind ?_)
    rintro ⟨pv', left⟩ st' ⟨es, hat⟩
    exact .pure ⟨pv', left, es, rfl, hat⟩
  | .seg (.short a), _ =>
    obtain rfl : q = (entrySlots es1).length := Nat.succ.inj hq
    rw [hs.get_at (x := .short a) rfl]
    refine .step (assert_run rfl _ st) ((popTrailersFromPaddrIovec_spec h rfl).bind ?_)
    rintro ⟨pv', left⟩ st' ⟨es, hat⟩
    exact .pure ⟨pv', left, es, rfl, hat⟩
  | .seg (.long a b), _ =>
    -- the slot is that of the second word
    obtain rfl : q = (entrySlots es1).length + 1 := Nat.succ.inj hq
    rw [hs.get_succ (x := .long a) (y := .long2 b) rfl]
    refine .step (assert_run rfl _ st) ((popTrailersFromPaddrIovec_spec h rfl).bind ?_)
    rintro ⟨pv', left⟩ st' ⟨es, hat⟩
    exact .pure ⟨pv', left, es, rfl, hat⟩

/-- The loop for trailers. The last slot is free at the end, unless the first turn was the last one. -/
theorem popTrailers_loop (hpop : PopSpec c mem (Wf depth) .back copy f.pop)
    (hfree : FreeSpec c mem (Wf depth) f.free) (h : Holds c mem (Wf depth) st.mgr pv es refs objs) :
    Returns (forBitsRev .fuel (fun p => p.pvbuf.iovec_map) (popTrailersBody c f compress copy)
        (pv.num - 1) ⟨pv, n⟩) st
      fun p st' => LoopDone c mem (Wf depth) .back copy refs objs pv n st p st' ∧
        ((p.pvbuf.get (pv.num - 1)).isNull = true ∨
          (popTrailersBody c f compress copy (pv.num - 1) ⟨pv, n⟩).run st = .ok (.done p) st') := by
  have hstart : Taken .back copy (pv.contents mem) n st.out n st.out
      (segBytes mem (entrySegs es)) := by
    rw [PvbufOf.contents, ← h.slots.segs_eq]
    exact Taken.zero
  have hnum := pv.le_num
  have hnum' := pv.num_le
  have hlen := h.slots.length
  have hlast : ∀ {p : Popping} {m : Mgr} {k : Nat} {es : List IovEntry}, 0 < k → p.pvbuf.obj = pv.obj →
      Holds c mem (Wf depth) m p.pvbuf (es ++ gaps k) refs objs →
      (p.pvbuf.get (pv.num - 1)).isNull = true := by
    intro p m k es hk hobj h
    obtain ⟨k, rfl⟩ : ∃ k', k = k' + 1 := ⟨k - 1, by omega⟩
    have hs := h.slots
    have hlen := hs.length
    rw [PvbufOf.num_eq_of_obj hobj] at hlen
    rw [gaps_succ', ← List.append_assoc, entrySlots_append] at hs hlen
    rw [List.length_append] at hlen
    have hend : (entrySlots [IovEntry.gap]).length = 1 := rfl
    rw [Slots.get_end (x := .null) hs (by omega)]
    rfl
  refine forBitsRev_rule
    (I := fun i p st' => p.pvbuf.obj = pv.obj ∧ (i = pv.num → p = ⟨pv, n⟩ ∧ st' = st) ∧
      ∃ es k, i = (entrySlots es).length ∧
      Holds c mem (Wf depth) st'.mgr p.pvbuf (es ++ gaps k) refs objs ∧
      Taken .back copy (pv.contents mem) n st.out p.num_drop_bytes st'.out
        (segBytes mem (entrySegs es)) ∧ segRefs (entrySegs es) ⊆ segRefs pv.segs)
    ?_ ?_ (by omega)
    ⟨rfl, fun _ => ⟨rfl, rfl⟩, es, 0, by omega, by simpa [gaps] using h, hstart,
      by rw [h.slots.segs_eq]; exact .refl _⟩
  · rintro i q p st' ⟨hobj, hfirst, es, k, rfl, h, htaken, hkept⟩ hq
    obtain ⟨es1, e, k', rfl, hne, hpos⟩ := h.slots.last hq
    simp only [entrySegs_append, entrySegs_gaps, List.append_nil, entrySegs_cons,
      segRefs_append] at hkept
    obtain ⟨hkept', hkept⟩ := List.append_subset.mp hkept
    have heq : es1 ++ e :: gaps k' ++ gaps k = es1 ++ [e] ++ gaps (k' + k) := by simp [gaps]
    simp only [entrySegs_append, entrySegs_gaps, List.append_nil, entrySegs_cons,
      segBytes_append] at htaken
    rw [heq] at h
    have hfull := h.slots.length
    rw [PvbufOf.num_eq_of_obj hobj, entrySlots_append, entrySlots_append, entrySlots_gaps,
      List.length_append, List.length_append, List.length_replicate] at hfull
    simp only [entrySlots_cons, entrySlots_nil, List.append_nil] at hfull
    refine (popTrailersBody_spec hpop hfree hne h hpos).with_run.mono ?_
    rintro _ st'' ⟨hrun, pv', left, es', rfl, hat⟩
    have htaken' := hat.taken htaken
    have hpos' := e.slots_length_pos
    rw [Popping.turn] at hrun ⊢
    split
    · rename_i hleft
      rw [if_pos hleft] at hrun
      refine ⟨⟨hat.obj.trans hobj, _, hat.holds, by simpa [join] using htaken', .inl hleft, ?_⟩, ?_⟩
      · simp only [entrySegs_append, entrySegs_gaps, List.append_nil, segRefs_append]
        exact List.append_subset.mpr ⟨hkept', List.Subset.trans hat.kept hkept⟩
      by_cases hz : k' + k = 0
      · obtain ⟨rfl, rfl⟩ := hfirst (by
          simp only [entrySlots_append, entrySlots_cons, entrySlots_gaps, List.length_append,
            List.length_replicate]
          omega)
        obtain rfl : q = pv.num - 1 := by omega
        exact .inr hrun
      · exact .inl (hlast (p := ⟨pv', left⟩) (Nat.pos_of_ne_zero hz) (hat.obj.trans hobj) hat.holds)
    · rename_i hleft
      have hh := hat.holds
      rw [hat.free hleft, List.append_assoc, gaps, gaps, List.replicate_append_replicate] at hh
      rw [hat.free hleft] at htaken'
      exact ⟨by omega, hat.obj.trans hobj, fun hz => by omega, es1, _, rfl, hh, by simpa using htaken',
        hkept'⟩
  · rintro i p st' ⟨hobj, -, es, k, rfl, h, htaken, hkept⟩ hnone
    have hgaps : es = gaps es.length := h.slots.none_below hnone
    have hall : es ++ gaps k = [] ++ gaps (es.length + k) := by
      rw [List.nil_append, hgaps, gaps, gaps, List.replicate_append_replicate, List.length_replicate]
      rfl
    refine ⟨⟨hobj, _, h, by simpa using htaken, .inr ?_, by simpa using hkept⟩, .inl ?_⟩
    · rw [hgaps]
      simp
    · have hfull := h.slots.length
      rw [PvbufOf.num_eq_of_obj hobj] at hfull
      rw [hall] at h hfull
      refine hlast ?_ hobj h
      simp only [List.nil_append, entrySlots_gaps, List.length_replicate] at hfull
      omega

/-- **Popping trailers takes the last bytes.** -/
theorem popTrailers_spec (compress copy : Bool) (depth : Nat) :
    PopSpec c mem (Wf depth) .back copy (popTrailers c compress copy depth) := by
  induction depth with
  | zero => exact fun _ _ _ _ _ hwf => hwf.elim
  | succ depth ih =>
    intro pv n st refs objs hwf hown
    have hmem : pv.obj ∈ pv.objs ++ objs := List.mem_append_left _ hwf.obj_mem_objs
    rw [popTrailers]
    refine .step (paddrToAddr_run hown hmem st) ?_
    split
    · rename_i hn
      subst hn
      exact .pure ⟨hwf, rfl, by simp, by simp, by simp [emit_nil], hown, .refl _⟩
    · obtain ⟨es, h⟩ := Holds.of_wf hwf hown
      exact (popTrailers_loop ih (pvbufFree_spec depth) h).bind fun p st' hdone => popEnd_spec _ hdone.1

/-! ## Packets in memory -/

theorem Wf.fits : ∀ {depth : Nat} {pv : Pvbuf}, Wf depth pv → ∀ s ∈ pv.segs, s.Fits := by
  intro depth
  induction depth with
  | zero => exact fun hwf => hwf.elim
  | succ depth ih =>
    rintro pv ⟨es, hs, hok⟩ s hmem
    rw [hs.segs_eq] at hmem
    obtain ⟨e, he, hse⟩ := List.mem_flatMap.mp hmem
    have hoke := hok e he
    cases e with
    | gap => cases hse
    | sub data_length sub => exact ih hoke.1 s hse
    | seg t =>
      obtain rfl := List.mem_singleton.mp hse
      exact hoke

theorem Owns.segBytes_eq (h : Owns c mem m (segRefs segs ++ refs) objs) (hfit : ∀ s ∈ segs, s.Fits) :
    segBytes m.mem segs = segBytes mem segs := by
  induction segs generalizing refs with
  | nil => rfl
  | cons s segs ih =>
    rw [segRefs_cons, List.append_assoc] at h
    have hrest : Owns c mem m (segRefs segs ++ (s.refs ++ refs)) objs :=
      h.perm (List.perm_iff_count.mpr fun r => by simp only [List.count_append]; omega)
        (List.Perm.refl _)
    rw [segBytes_cons, segBytes_cons, h.bytes_eq (hfit s List.mem_cons_self),
      ih hrest fun t ht => hfit t (List.mem_cons_of_mem s ht)]

theorem Owns.contents_eq (h : Owns c mem m (segRefs pv.segs ++ refs) objs) (hwf : Wf depth pv) :
    pv.contents m.mem = pv.contents mem :=
  h.segBytes_eq hwf.fits

section
variable (compress copy : Bool) (n : Nat) (hwf : Wf depth pv)
  (hown : Owns c mem st.mgr (segRefs pv.segs ++ refs) (pv.objs ++ objs))

include hwf hown

/-- **`__xdp2_pvbuf_pop_hdrs` takes the first bytes of the packet.** For every well-formed packet in
a manager that keeps its books, the call returns. It gives the number of bytes dropped, leaves a
well-formed packet with the bytes behind them, and copies them if asked to; all else that is held
stays as it was. -/
theorem popHdrs_contents :
    ∃ pv' st', (popHdrs c compress copy depth pv n).run st =
        .ok (pv', min n (pv.contents st.mgr.mem).length) st' ∧
      Wf depth pv' ∧ pv'.obj = pv.obj ∧
      pv'.contents st'.mgr.mem = (pv.contents st.mgr.mem).drop n ∧
      st'.out = (if copy then st.out ++ (pv.contents st.mgr.mem).take n else st.out) ∧
      Owns c mem st'.mgr (segRefs pv'.segs ++ refs) (pv'.objs ++ objs) := by
  obtain ⟨⟨pv', dropped⟩, st', hrun, h⟩ := popHdrs_spec compress copy depth (n := n) hwf hown
  refine ⟨pv', st', ?_, h.wf, h.obj, ?_, ?_, h.owns⟩
  · rw [hrun, hown.contents_eq hwf, ← h.dropped]
  · rw [h.owns.contents_eq h.wf, hown.contents_eq hwf]
    exact h.contents
  · rw [hown.contents_eq hwf]
    exact h.out

/-- **`__xdp2_pvbuf_pop_trailers` takes the last bytes of the packet**, and copies them before what
is there. -/
theorem popTrailers_contents :
    ∃ pv' st', (popTrailers c compress copy depth pv n).run st =
        .ok (pv', min n (pv.contents st.mgr.mem).length) st' ∧
      Wf depth pv' ∧ pv'.obj = pv.obj ∧
      pv'.contents st'.mgr.mem =
        (pv.contents st.mgr.mem).take ((pv.contents st.mgr.mem).length - n) ∧
      st'.out = (if copy then
          (pv.contents st.mgr.mem).drop ((pv.contents st.mgr.mem).length - n) ++ st.out
        else st.out) ∧
      Owns c mem st'.mgr (segRefs pv'.segs ++ refs) (pv'.objs ++ objs) := by
  obtain ⟨⟨pv', dropped⟩, st', hrun, h⟩ := popTrailers_spec compress copy depth (n := n) hwf hown
  refine ⟨pv', st', ?_, h.wf, h.obj, ?_, ?_, h.owns⟩
  · rw [hrun, hown.contents_eq hwf, ← h.dropped]
  · rw [h.owns.contents_eq h.wf, hown.contents_eq hwf]
    exact h.contents
  · rw [hown.contents_eq hwf]
    exact h.out

end

/-! ## A packet with every kind of paddr -/

/-- A manager with one pbuf of the smallest size and three of the smallest pvbufs. -/
def smallConfig : MgrConfig where
  pbuf_max_objs b := if b = 0 then 1 else 0
  pvbuf_max_objs size := if size = 0 then 3 else 0
  pvbuf_max_objs_le size := by split <;> decide
  default_pvbuf_size := 0
  default_pvbuf_size_lt := zero_lt_pvbuf_sizes

/-- The sub-pvbuf: three bytes at a long address and two at a short one. -/
def mixedSub : Pvbuf where
  pvbuf_size := 0
  index := 1
  iovec_map := 0b111
  iovec := [.long ⟨3, 0, 5⟩, .long2 ⟨16⟩, .short ⟨.two, 32, 1⟩, .null, .null, .null, .null]

/-- The packet: four bytes of a single-reference pbuf and a sub-pvbuf of unknown length. -/
def mixedPacket : Pvbuf where
  pvbuf_size := 0
  index := 0
  iovec_map := 0b101
  iovec := [.pbuf ⟨true, 0, 8, 4⟩, .null, .pvbuf 0 mixedSub, .null, .null, .null, .null]

/-- Every byte of the memory is the last byte of its offset. One pvbuf is free. -/
def smallState : PvSt where
  mgr := {
    mem := ⟨fun _ o => UInt8.ofNat o, fun _ o => UInt8.ofNat o, fun _ o => UInt8.ofNat o⟩
    refcnt := fun _ _ => 0
    pbuf_free := fun _ => []
    pvbuf_free := fun size => if size = 0 then [2] else [] }

theorem mixedSub_wf : Wf 1 mixedSub := by
  refine ⟨[.seg (.long ⟨3, 0, 5⟩ ⟨16⟩), .seg (.short ⟨.two, 32, 1⟩), .gap, .gap, .gap, .gap],
    Slots.of_lt rfl rfl (by decide), ?_⟩
  intro e he
  simp only [List.mem_cons, List.not_mem_nil, or_false] at he
  rcases he with rfl | rfl | rfl | rfl | rfl | rfl
  · show _ ≤ _; decide
  · show _ ≤ _; decide
  all_goals trivial

theorem mixedPacket_wf : Wf 2 mixedPacket := by
  refine ⟨[.seg (.pbuf ⟨true, 0, 8, 4⟩), .gap, .sub 0 mixedSub, .gap, .gap, .gap, .gap],
    Slots.of_lt rfl rfl (by decide), ?_⟩
  intro e he
  simp only [List.mem_cons, List.not_mem_nil, or_false] at he
  rcases he with rfl | rfl | rfl | rfl | rfl | rfl | rfl
  · show _ ≤ _; decide
  · trivial
  · exact ⟨mixedSub_wf, .inl rfl⟩
  all_goals trivial

theorem mixedPacket_owns : Owns smallConfig smallState.mgr.mem smallState.mgr
    (segRefs mixedPacket.segs ++ []) (mixedPacket.objs ++ []) := by
  have hrefs : segRefs mixedPacket.segs ++ [] = [⟨0, 0, true⟩] := by decide
  have hobjs : mixedPacket.objs ++ [] = [(0, 0), (0, 1)] := by decide
  rw [hrefs, hobjs]
  constructor
  · intro b z
    simp [smallState]
  · intro b z hmem
    cases List.mem_singleton.mp hmem
    decide
  · intro r hmem
    cases List.mem_singleton.mp hmem
    decide
  · intro b z
    refine (if_neg ?_).symm
    rintro ⟨hlt, hnot⟩
    by_cases hb : b = 0
    · subst hb
      obtain rfl : z = 0 := Nat.lt_one_iff.mp hlt
      exact hnot true List.mem_cons_self
    · simp [smallConfig, hb] at hlt
  · intro size i
    by_cases hsize : size = 0
    · subst hsize
      match i with
      | 0 | 1 | 2 => rfl
      | i + 3 => simp [smallState, smallConfig]
    · have hne : ∀ j, ((0, j) == (size, i)) = false := fun j => by simp [Ne.symm hsize]
      simp [smallState, smallConfig, hsize, List.count_cons, hne]
  · rfl
  · rfl
  · exact fun _ _ _ _ => rfl

/-- Six bytes go: the pbuf, and two bytes of the long address. -/
theorem popHdrs_mixedPacket :
    ∃ pv' st', (popHdrs smallConfig true true 2 mixedPacket 6).run smallState = .ok (pv', 6) st' ∧
      pv'.contents st'.mgr.mem = [18, 32, 33] ∧ st'.out = [8, 9, 10, 11, 16, 17] := by
  obtain ⟨pv', st', hrun, -, -, hrest, hout, -⟩ :=
    popHdrs_contents true true 6 mixedPacket_wf mixedPacket_owns
  exact ⟨pv', st', hrun, hrest, hout⟩

/-- Three trailers go: the short address, and a byte of the long one. -/
theorem popTrailers_mixedPacket :
    ∃ pv' st', (popTrailers smallConfig true true 2 mixedPacket 3).run smallState =
        .ok (pv', 3) st' ∧
      pv'.contents st'.mgr.mem = [8, 9, 10, 11, 16, 17] ∧ st'.out = [18, 32, 33] := by
  obtain ⟨pv', st', hrun, -, -, hrest, hout, -⟩ :=
    popTrailers_contents true true 3 mixedPacket_wf mixedPacket_owns
  exact ⟨pv', st', hrun, hrest, hout⟩

end Xdp2
