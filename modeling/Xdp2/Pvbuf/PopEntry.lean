import Xdp2.Pvbuf.Trim

/-!
# Popping from one entry

What the functions for one iovec do, at either end (`Side`). `PopSpec` is what popping from a whole
pvbuf has to do, assumed here of the recursive call; `PopAt` is what popping from one entry does.
-/

namespace Xdp2

open BitWord StateError ListEnd

variable {c : MgrConfig} {mem : Mem} {refs : List Ref} {objs : List (Nat × Nat)} {st : PvSt} {pv : Pvbuf}
  {side : Side} {copy : Bool}

/-! ## Bytes taken -/

/-- The bytes written so far and those popped next, if they are copied. -/
def emit (side : Side) (copy : Bool) (out bytes : List UInt8) : List UInt8 :=
  if copy then join side out bytes else out

theorem emit_emit (out a b : List UInt8) :
    emit side copy (emit side copy out a) b = emit side copy out (join side a b) := by
  cases copy
  · rfl
  · exact join_assoc side out a b

theorem emit_nil (out : List UInt8) : emit side copy out [] = out := by
  cases copy
  · rfl
  · exact join_nil side out

theorem copyOut_run (copy : Bool) (bytes : List UInt8) (st : PvSt) :
    (copyOut copy bytes).run st = .ok () { st with out := emit .front copy st.out bytes } := by
  cases copy <;> rfl

theorem copyOutBelow_run (copy : Bool) (bytes : List UInt8) (st : PvSt) :
    (copyOutBelow copy bytes).run st = .ok () { st with out := emit .back copy st.out bytes } := by
  cases copy <;> rfl

/-- Popping `n` bytes from a pvbuf of `P`: as many of them as there are go, and are copied. -/
structure Popped (c : MgrConfig) (mem : Mem) (P : Pvbuf → Prop) (side : Side) (copy : Bool)
    (refs : List Ref) (objs : List (Nat × Nat)) (pv : Pvbuf) (n : Nat) (st : PvSt)
    (r : Pvbuf × Nat) (st' : PvSt) : Prop where
  wf : P r.1
  obj : r.1.obj = pv.obj
  dropped : r.2 = min n (pv.contents mem).length
  contents : r.1.contents mem = keep side n (pv.contents mem)
  out : st'.out = emit side copy st.out (part side n (pv.contents mem))
  owns : Owns c mem st'.mgr (segRefs r.1.segs ++ refs) (r.1.objs ++ objs)
  kept : segRefs r.1.segs ⊆ segRefs pv.segs

/-- What popping from a pvbuf of `P` has to do. -/
def PopSpec (c : MgrConfig) (mem : Mem) (P : Pvbuf → Prop) (side : Side) (copy : Bool)
    (pop : Pvbuf → Nat → PvM (Pvbuf × Nat)) : Prop :=
  ∀ ⦃pv : Pvbuf⦄ ⦃n : Nat⦄ ⦃st : PvSt⦄ ⦃refs : List Ref⦄ ⦃objs : List (Nat × Nat)⦄, P pv →
    Owns c mem st.mgr (segRefs pv.segs ++ refs) (pv.objs ++ objs) →
    Returns (pop pv n) st (Popped c mem P side copy refs objs pv n st)

/-- The contents of an entry. -/
def IovEntry.contents (mem : Mem) (e : IovEntry) : List UInt8 := segBytes mem e.segs

/-- Popping `n` bytes from the entry `e` between `es1` and `es2`: other entries, of as many slots,
have taken its place, free ones if bytes are left to pop. -/
structure PopAt (c : MgrConfig) (mem : Mem) (P : Pvbuf → Prop) (side : Side) (copy : Bool)
    (refs : List Ref) (objs : List (Nat × Nat)) (es1 es2 : List IovEntry) (pv : Pvbuf)
    (e : IovEntry) (n : Nat) (st : PvSt) (es : List IovEntry) (r : Pvbuf × Nat) (st' : PvSt) :
    Prop where
  holds : Holds c mem P st'.mgr r.1 (es1 ++ es ++ es2) refs objs
  obj : r.1.obj = pv.obj
  width : (entrySlots es).length = e.slots.length
  left : r.2 = n - (e.contents mem).length
  contents : segBytes mem (entrySegs es) = keep side n (e.contents mem)
  out : st'.out = emit side copy st.out (part side n (e.contents mem))
  free : r.2 ≠ 0 → es = gaps e.slots.length
  kept : segRefs (entrySegs es) ⊆ segRefs e.segs

section
variable {es1 es2 : List IovEntry} {i n : Nat}

/-! ## Leaves -/

theorem IovEntry.contents_seg (s : Seg) : (IovEntry.seg s).contents mem = s.bytes mem := by
  simp [IovEntry.contents, IovEntry.segs]

theorem popWhole (side : Side) (copy : Bool)
    (h : Holds c mem P st.mgr pv (es1 ++ [.seg s] ++ es2) refs objs)
    (hi : (entrySlots es1).length = i) (hn : s.len ≤ n) :
    Returns (paddrFreeIovec c pv i) { st with out := emit side copy st.out (s.bytes mem) }
      fun pv' st' => ∃ es,
        PopAt c mem P side copy refs objs es1 es2 pv (.seg s) n st es (pv', n - s.len) st' := by
  have hs := h.slots
  rw [entrySlots_mid] at hs
  have hfree : Returns (paddrFreeIovec c pv i)
      { st with out := emit side copy st.out (s.bytes mem) } _ :=
    paddrFreeIovec_spec hs hi h.focus_seg
  refine hfree.mono ?_
  rintro pv' st' ⟨hobj, hs', hout, hown⟩
  have hlen : (s.bytes mem).length ≤ n := by rwa [Seg.length_bytes]
  refine ⟨gaps (IovEntry.seg s).slots.length, h.clear hs' hobj hown, hobj, ?_, ?_, ?_, ?_,
    fun _ => rfl, by simp⟩
  · simp
  · rw [IovEntry.contents_seg, Seg.length_bytes]
  · rw [IovEntry.contents_seg, keep_of_le side hlen, entrySegs_gaps, segBytes_nil]
  · rw [hout, IovEntry.contents_seg, part_of_le side hlen]

theorem popPart (side : Side) (copy : Bool)
    (h : Holds c mem P st.mgr pv (es1 ++ [.seg s] ++ es2) refs objs) (hn : n < s.len)
    (ht : Trim s off (s.len - n) t) (hbytes : t.bytes mem = keep side n (s.bytes mem))
    (hobj : pv'.obj = pv.obj)
    (hs : Slots pv' (entrySlots es1 ++ ((IovEntry.seg t).slots ++ entrySlots es2))) :
    PopAt c mem P side copy refs objs es1 es2 pv (.seg s) n st [.seg t] (pv', 0)
      { st with out := emit side copy st.out (part side n (s.bytes mem)) } := by
  refine ⟨h.refill hobj (by rwa [entrySlots_mid]) ?_ ?_, hobj, ?_, ?_, ?_, ?_, fun h0 => (h0 rfl).elim,
    by simp [IovEntry.segs, ht.refs]⟩
  · intro e he
    obtain rfl := List.mem_singleton.mp he
    exact ht.fits
  · have hown := h.focus_seg
    rw [← ht.refs] at hown
    simpa [IovEntry.segs, IovEntry.objs] using hown
  · simpa using ht.slots
  · rw [IovEntry.contents_seg, Seg.length_bytes, Nat.sub_eq_zero_of_le (Nat.le_of_lt hn)]
  · rw [IovEntry.contents_seg, ← hbytes]
    simp [IovEntry.segs]
  · rw [IovEntry.contents_seg]

theorem readBytes_front {s : Seg} (hn : n ≤ s.len) (mem : Mem) :
    readBytes (s.region mem) s.offset n = part .front n (s.bytes mem) := by
  rw [part, Seg.bytes, take_readBytes _ _ hn]

theorem readBytes_back {s : Seg} (hn : n ≤ s.len) (mem : Mem) :
    readBytes (s.region mem) (s.offset + s.len - n) n = part .back n (s.bytes mem) := by
  rw [part, Seg.length_bytes, Seg.bytes, drop_readBytes, Nat.sub_sub_self hn, Nat.add_sub_assoc hn]

/-- **Popping headers from a leaf.** -/
theorem popFromPaddrIovec_spec (h : Holds c mem P st.mgr pv (es1 ++ [.seg s] ++ es2) refs objs)
    (hi : (entrySlots es1).length = i) :
    Returns (popFromPaddrIovec c copy pv i n) st fun r st' => ∃ es,
      PopAt c mem P .front copy refs objs es1 es2 pv (.seg s) n st es r st' := by
  have hs := h.slots
  rw [entrySlots_mid] at hs
  have hfit : s.Fits := h.ok (.seg s) (by simp)
  have hmem : s.bytes st.mgr.mem = s.bytes mem := h.focus_seg.bytes_eq hfit
  rw [popFromPaddrIovec]
  refine .step (getPtrLen_run hs hi st) (.step (run_get st) ?_)
  dsimp only
  split
  · rename_i hn
    rw [← Seg.bytes, hmem]
    refine .step (copyOut_run copy _ st) ?_
    exact (popWhole .front copy h hi hn).bind fun pv' st' hpop => .pure hpop
  · rename_i hn
    have hn : n < s.len := by omega
    rw [readBytes_front (Nat.le_of_lt hn), hmem]
    refine .step (copyOut_run copy _ st) (.step (assert_run ?_ _ _) ?_)
    · rw [hs.get_isNull (fun hgap => by cases hgap) hi]
      rfl
    · obtain ⟨pv', hrun, hobj, hs'⟩ := dropFront_run hs hi n
        { st with out := emit .front copy st.out (part .front n (s.bytes mem)) }
      exact .step hrun (.pure ⟨_, popPart .front copy h hn (Seg.dropFront_trim hfit hn)
        (Seg.bytes_dropFront mem hfit hn) hobj hs'⟩)

/-- **Popping trailers from a leaf.** -/
theorem popTrailersFromPaddrIovec_spec
    (h : Holds c mem P st.mgr pv (es1 ++ [.seg s] ++ es2) refs objs)
    (hi : (entrySlots es1).length = i) :
    Returns (popTrailersFromPaddrIovec c copy pv i n) st fun r st' => ∃ es,
      PopAt c mem P .back copy refs objs es1 es2 pv (.seg s) n st es r st' := by
  have hs := h.slots
  rw [entrySlots_mid] at hs
  have hfit : s.Fits := h.ok (.seg s) (by simp)
  have hmem : s.bytes st.mgr.mem = s.bytes mem := h.focus_seg.bytes_eq hfit
  rw [popTrailersFromPaddrIovec]
  refine .step (getPtrLen_run hs hi st) (.step (run_get st) ?_)
  dsimp only
  split
  · rename_i hn
    rw [← Seg.bytes, hmem]
    refine .step (copyOutBelow_run copy _ st) ?_
    exact (popWhole .back copy h hi hn).bind fun pv' st' hpop => .pure hpop
  · rename_i hn
    have hn : n < s.len := by omega
    rw [readBytes_back (Nat.le_of_lt hn), hmem]
    refine .step (copyOutBelow_run copy _ st) (.step (assert_run ?_ _ _) ?_)
    · rw [hs.get_isNull (fun hgap => by cases hgap) hi]
      rfl
    · obtain ⟨pv', hrun, hobj, hs'⟩ := dropBack_run hs hi n
        { st with out := emit .back copy st.out (part .back n (s.bytes mem)) }
      exact .step hrun (.pure ⟨_, popPart .back copy h hn (Seg.dropBack_trim hfit hn)
        (Seg.bytes_dropBack mem hfit hn) hobj hs'⟩)

/-! ## Sub-pvbufs -/

theorem Wf.segs_eq_nil (hwf : Wf depth pv) (h : pv.num ≤ find pv.iovec_map) :
    pv.segs = [] := by
  cases depth with
  | zero => exact hwf.elim
  | succ depth =>
    obtain ⟨es, hs, -⟩ := hwf
    rcases find_cases pv.iovec_map with ⟨-, hq⟩ | ⟨-, hnone⟩
    · obtain ⟨e, es', heq, -⟩ := Slots.first (p := 0) hs hq
      obtain rfl : es = gaps (find pv.iovec_map) ++ e :: es' := heq
      have hlen := hs.length
      have hpos := e.slots_length_pos
      simp only [entrySlots_append, entrySlots_gaps, entrySlots_cons, List.length_append,
        List.length_replicate] at hlen
      omega
    · rw [← List.nil_append es] at hs
      rw [hs.segs_eq, List.nil_append, hs.none_from fun k _ => hnone k, entrySegs_gaps]

section
variable {data_length : BitVec 32} {sub : Pvbuf} {st' : PvSt}
  (h : Holds c mem P st.mgr pv (es1 ++ [.sub data_length sub] ++ es2) refs objs)
  (hi : (entrySlots es1).length = i)

include h hi

theorem popSubGone (hown : Owns c mem st'.mgr (outerRefs es1 es2 refs) (outerObjs pv es1 es2 objs))
    (hkeep : keep side n (sub.contents mem) = [])
    (hout : st'.out = emit side copy st.out (part side n (sub.contents mem))) :
    PopAt c mem P side copy refs objs es1 es2 pv (.sub data_length sub) n st (gaps 1)
      (pv.clear i, n - (sub.contents mem).length) st' := by
  refine ⟨h.clear (k := 1) (h.sub_slots.clear hi) rfl hown, rfl, ?_, rfl, ?_, hout, fun _ => rfl,
    by simp⟩
  · simp [IovEntry.slots]
  · rw [entrySegs_gaps, segBytes_nil]
    exact hkeep.symm

theorem popSubKept (hx : e.slots = [x]) (he : e ≠ .gap) (hok : e.Ok P)
    (hown : Owns c mem st'.mgr (segRefs e.segs ++ outerRefs es1 es2 refs)
      (e.objs ++ outerObjs pv es1 es2 objs))
    (hle : n ≤ (sub.contents mem).length) (hkeep : e.contents mem = keep side n (sub.contents mem))
    (hout : st'.out = emit side copy st.out (part side n (sub.contents mem)))
    (hkept : segRefs e.segs ⊆ segRefs sub.segs) :
    PopAt c mem P side copy refs objs es1 es2 pv (.sub data_length sub) n st [e]
      (pv.set i x, 0) st' := by
  have hnull : x.isNull = false := IovEntry.isNull_eq_false he (by rw [hx]; exact List.mem_cons_self)
  have hs := h.sub_slots.set (y := x) hi hnull.symm
  refine ⟨h.refill rfl ?_ ?_ ?_, rfl, ?_, ?_, ?_, hout, fun h0 => (h0 rfl).elim,
    by simpa [IovEntry.segs] using hkept⟩
  · rwa [entrySlots_mid, hx]
  · intro e' he'
    obtain rfl := List.mem_singleton.mp he'
    exact hok
  · simpa using hown
  · rw [entrySlots_cons, hx]
    rfl
  · exact (Nat.sub_eq_zero_of_le hle).symm
  · rw [entrySegs_cons, entrySegs_nil, List.append_nil]
    exact hkeep

end

section
variable {depth : Nat} {data_length : BitVec 32} {sub : Pvbuf} {f : PopFns} {compress : Bool}
  (hpop : PopSpec c mem (Wf depth) side copy f.pop) (hfree : FreeSpec c mem (Wf depth) f.free)
  (h : Holds c mem (Wf depth) st.mgr pv (es1 ++ [.sub data_length sub] ++ es2) refs objs)
  (hi : (entrySlots es1).length = i)

include hpop hfree h hi

theorem popFromKnown_spec (hlen : data_length.toNat = segsLen sub.segs) :
    Returns (popFromKnown c f compress copy pv i n data_length sub) st fun r st' => ∃ es,
      PopAt c mem (Wf depth) side copy refs objs es1 es2 pv (.sub data_length sub) n st es r st' := by
  have hwf : Wf depth sub := (h.ok (.sub data_length sub) (by simp)).1
  have hcontents : (sub.contents mem).length = data_length.toNat := by
    rw [hlen, PvbufOf.contents, length_segBytes]
  rw [popFromKnown]
  split
  · rename_i hn
    have hall : (sub.contents mem).length ≤ n := by omega
    have hkeep := keep_of_le side hall
    rw [← hcontents]
    cases copy with
    | true =>
      refine (hpop hwf h.focus_sub).bind fun r st1 hr => ?_
      obtain ⟨sub', dropped⟩ := r
      have hdropped : dropped = (sub.contents mem).length := hr.dropped.trans (by omega)
      refine .step (assert_run (by simp [hdropped]) _ st1) ?_
      refine (hfree hr.wf hr.owns).bind fun _ st2 ⟨hout, hown⟩ => ?_
      refine .step (iovecUnsetEnt_run h.sub_slots hi rfl st2) (.pure ⟨gaps 1, ?_⟩)
      exact popSubGone h hi hown hkeep (hout.trans hr.out)
    | false =>
      refine (hfree hwf h.focus_sub).bind fun _ st1 ⟨hout, hown⟩ => ?_
      refine .step (iovecUnsetEnt_run h.sub_slots hi rfl st1) (.pure ⟨gaps 1, ?_⟩)
      exact popSubGone h hi hown hkeep hout
  · rename_i hn
    refine (hpop hwf h.focus_sub).bind fun r st1 hr => ?_
    obtain ⟨sub', dropped⟩ := r
    obtain rfl : dropped = n := hr.dropped.trans (by omega)
    refine .step (assert_run (by simp) _ st1) ?_
    have hlen' : (data_length - BitVec.ofNat 32 dropped).toNat = segsLen sub'.segs := by
      have hleft := congrArg List.length hr.contents
      rw [PvbufOf.contents, length_segBytes, length_keep] at hleft
      rw [toNat_sub_ofNat (by omega), hleft, hcontents]
    have hok : (IovEntry.sub (data_length - BitVec.ofNat 32 dropped) sub').Ok (Wf depth) :=
      ⟨hr.wf, .inr hlen'⟩
    rw [Nat.sub_self]
    cases compress with
    | true =>
      refine (checkSingle_spec hok hr.owns).bind ?_
      rintro x st2 ⟨e, hx, he, hok', hsegs, hout, hown⟩
      refine .pure ⟨[e], popSubKept h hi hx he hok' hown (by omega) ?_ (hout.trans hr.out) ?_⟩
      · rw [IovEntry.contents, hsegs]
        exact hr.contents
      · rw [hsegs]
        exact hr.kept
    | false =>
      exact .pure ⟨[.sub (data_length - BitVec.ofNat 32 dropped) sub'],
        popSubKept h hi rfl nofun hok hr.owns (by omega) hr.contents hr.out hr.kept⟩

theorem popFromUnknown_spec :
    Returns (popFromUnknown f pv i n sub) st fun r st' => ∃ es,
      PopAt c mem (Wf depth) side copy refs objs es1 es2 pv (.sub data_length sub) n st es r st' := by
  have hwf : Wf depth sub := (h.ok (.sub data_length sub) (by simp)).1
  rw [popFromUnknown]
  refine (hpop hwf h.focus_sub).bind fun r st1 hr => ?_
  obtain ⟨sub', dropped⟩ := r
  have hdropped : dropped = min n (sub.contents mem).length := hr.dropped
  dsimp only
  split
  · have hall : (sub.contents mem).length ≤ n := by omega
    obtain rfl : dropped = (sub.contents mem).length := by omega
    refine .step (iovecUnsetEnt_run h.sub_slots hi rfl st1) ?_
    refine (hfree hr.wf hr.owns).bind fun _ st2 ⟨hout, hown⟩ => .pure ⟨gaps 1, ?_⟩
    exact popSubGone h hi hown (keep_of_le side hall) (hout.trans hr.out)
  · obtain rfl : dropped = n := by omega
    refine .step (assert_run (by simp) _ st1) ?_
    split
    · rename_i hfind
      rw [← PvbufOf.num_eq_of_obj hr.obj] at hfind
      have hempty : sub'.contents mem = [] := by rw [PvbufOf.contents, hr.wf.segs_eq_nil hfind]; rfl
      refine .step (iovecUnsetEnt_run h.sub_slots hi rfl st1) ?_
      refine (hfree hr.wf hr.owns).bind fun _ st2 ⟨hout, hown⟩ => .pure ⟨gaps 1, ?_⟩
      have hgone := popSubGone h hi hown (hr.contents.symm.trans hempty) (hout.trans hr.out)
      rwa [Nat.sub_eq_zero_of_le (by omega), ← Nat.sub_self dropped] at hgone
    · rw [Nat.sub_self]
      exact .pure ⟨[.sub 0 sub'],
        popSubKept h hi rfl nofun ⟨hr.wf, .inl rfl⟩ hr.owns (by omega) hr.contents hr.out hr.kept⟩

/-- **Popping from a sub-pvbuf.** -/
theorem popFromPvbufIovec_spec :
    Returns (popFromPvbufIovec c f compress copy pv i n) st fun r st' => ∃ es,
      PopAt c mem (Wf depth) side copy refs objs es1 es2 pv (.sub data_length sub) n st es r st' := by
  have hok : (IovEntry.sub data_length sub).Ok (Wf depth) := h.ok _ (by simp)
  have hmem : sub.obj ∈ sub.objs ++ outerObjs pv es1 es2 objs :=
    List.mem_append_left _ hok.1.obj_mem_objs
  rw [popFromPvbufIovec, h.sub_slots.get_at hi]
  refine .step (paddrToAddr_run h.focus_sub hmem st) ?_
  split
  · rename_i hne
    exact popFromKnown_spec hpop hfree h hi (hok.2.resolve_left hne)
  · exact popFromUnknown_spec hpop hfree h hi

end

end

end Xdp2
