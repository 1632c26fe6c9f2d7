import Xdp2.Pvbuf.InsertPvbuf
import Xdp2.Pvbuf.InsertSpec

/-!
# What prepending and appending a pvbuf do

A pvbuf put in as it is is an `Item` like others. Dissolving reads the only slot of the pvbuf, also
where it is empty: `weight` is compared with one before it is assigned, so the test against empty
pvbufs never fails. `PvbufOf.hollow` are the pvbufs that end there; `JoinsPvbuf` holds of all
others.
-/

namespace Xdp2

open BitWord StateError ListEnd

variable {c : MgrConfig} {mem : Mem} {refs : List Ref} {objs : List (Nat × Nat)} {st st' : PvSt}
  {pv src : Pvbuf} {side : Side} {depth D length : Nat}

/-! ## Memory -/

/-- Computations that leave the memory as it is. -/
abbrev KeepsMem {α : Type} (m : PvM α) : Prop := Along (fun s s' : PvSt => s'.mgr.mem = s.mgr.mem) m

theorem KeepsMem.bind {α β : Type} {m : PvM α} {k : α → PvM β} (hm : KeepsMem m)
    (hk : ∀ a, KeepsMem (k a)) : KeepsMem (m >>= k) :=
  Along.bind (fun _ _ _ h h' => h'.trans h) hm hk

theorem keepsMem_assert (cond : Bool) (label : String) : KeepsMem (assert cond label) := by
  rw [assert]
  exact Along.ite (fun _ => rfl) fun _ => rfl

theorem keepsMem_objAllocFree (c : MgrConfig) (pv : Pvbuf) : KeepsMem (objAllocFree c pv) :=
  (keepsMem_assert _ _).bind fun _ _ => rfl

theorem keepsMem_checkSingle (c : MgrConfig) (x : Iovec) : KeepsMem (checkSingle c x) := by
  cases x with
  | pvbuf data_length pv =>
    refine (keepsMem_assert _ _).bind fun _ => Along.ite (fun _ => rfl) ?_
    exact (keepsMem_assert _ _).bind fun _ => (keepsMem_objAllocFree c pv).bind fun _ _ => rfl
  | null | pbuf _ | short _ | long _ | long2 _ => exact fun _ => rfl

/-! ## A pvbuf as it is -/

/-- A pvbuf to put in. -/
def pvbufItem (hsrc : Wf D src) (hlen : length = 0 ∨ length = segsLen src.segs) : Item D where
  paddr := .pvbuf 0 src
  length := length
  exact := hlen
  ok := hsrc

section
variable (hsrc : Wf D src) (hlen : length = 0 ∨ length = segsLen src.segs)

include hsrc hlen

theorem prependPvbuf_free
    (h : Holds c mem (Wf depth) st.mgr pv (gaps (i + 1) ++ rest) (segRefs src.segs ++ refs) (src.objs ++ objs))
    (hobj : pv.obj = pv0.obj) (hsegs : entrySegs (gaps (i + 1) ++ rest) = pv0.segs) :
    Outcome (iovecSetPvbufEnt pv i src length) st (fun pv' st' =>
      Placed c mem .front (depth + 1) D (.sub (BitVec.ofNat 32 length) src) refs objs pv0 st
        (pv', true) st') (TooLong length) := by
  rw [gaps_split (k := 1) (Nat.le_add_left 1 i), Nat.add_sub_cancel] at h hsegs
  exact (placeFree (pvbufItem hsrc hlen) (P := Wf (depth + 1 + D)) .front
    (fun _ => Wf.mono (by omega)) (h.mono fun _ => Wf.mono (by omega)) (by simp)).mono
    fun _ _ hat => hat.placed_front hobj hsegs (entrySegs_gaps _)

theorem appendPvbuf_free
    (h : Holds c mem (Wf depth) st.mgr pv (rest ++ gaps (k + 1)) (segRefs src.segs ++ refs) (src.objs ++ objs))
    (hi : (entrySlots rest).length = i) (hobj : pv.obj = pv0.obj)
    (hsegs : entrySegs (rest ++ gaps (k + 1)) = pv0.segs) :
    Outcome (iovecSetPvbufEnt pv i src length) st (fun pv' st' =>
      Placed c mem .back (depth + 1) D (.sub (BitVec.ofNat 32 length) src) refs objs pv0 st
        (pv', true) st') (TooLong length) := by
  rw [gaps_split' (k := 1) (Nat.le_add_left 1 k), Nat.add_sub_cancel, ← List.append_assoc] at h hsegs
  exact (placeFree (pvbufItem hsrc hlen) (P := Wf (depth + 1 + D)) .back
    (fun _ => Wf.mono (by omega)) (h.mono fun _ => Wf.mono (by omega)) hi).mono
    fun _ _ hat => hat.placed_back hobj hsegs (entrySegs_gaps _)

theorem prependPvbufIntoIovec_seg (insert : Pvbuf → PvM (Pvbuf × Bool)) (compress : Bool)
    (h : Holds c mem (Wf depth) st.mgr pv (es1 ++ [.seg t] ++ es2) (segRefs src.segs ++ refs) (src.objs ++ objs))
    (hi : (entrySlots es1).length = i) :
    Outcome (prependPvbufIntoIovec c insert compress pv i src length) st (fun r st' => ∃ es,
      PlacedAt c mem (Wf (depth + 1 + D)) .front (.sub (BitVec.ofNat 32 length) src) refs objs
        es1 es2 pv [.seg t] st es r st') (TooLong length) := by
  have hs := h.slots
  rw [entrySlots_mid] at hs
  have hnull : (!(pv.get i).isNull) = true := by rw [hs.get_isNull nofun hi]; rfl
  rw [prependPvbufIntoIovec]
  refine .step (assert_run hnull _ st) (.step (assert_run hnull _ st) ?_)
  cases t with
  | pbuf a =>
    rw [hs.get_at (x := .pbuf a) hi]
    exact prependPaddrNewPvbuf_spec (pvbufItem hsrc hlen) h hi
  | short a =>
    rw [hs.get_at (x := .short a) hi]
    exact prependPaddrNewPvbuf_spec (pvbufItem hsrc hlen) h hi
  | long a b =>
    rw [hs.get_at (x := .long a) hi]
    exact prependPaddrNewPvbuf_spec (pvbufItem hsrc hlen) h hi

theorem prependPvbufIntoIovec_spec {insert : Pvbuf → PvM (Pvbuf × Bool)} (compress : Bool)
    (hins : PlaceSpec c mem .front depth D (.sub (BitVec.ofNat 32 length) src) (TooLong length) insert)
    (he : e ≠ .gap)
    (h : Holds c mem (Wf depth) st.mgr pv (es1 ++ [e] ++ es2) (segRefs src.segs ++ refs) (src.objs ++ objs))
    (hi : (entrySlots es1).length = i) :
    Outcome (prependPvbufIntoIovec c insert compress pv i src length) st (fun r st' => ∃ es,
      PlacedAt c mem (Wf (depth + 1 + D)) .front (.sub (BitVec.ofNat 32 length) src) refs objs
        es1 es2 pv [e] st es r st') (TooLong length) := by
  match e, he with
  | .seg t, _ => exact prependPvbufIntoIovec_seg hsrc hlen insert compress h hi
  | .sub data_length sub, he =>
    have hs := h.slots
    rw [entrySlots_mid] at hs
    have hnull : (!(pv.get i).isNull) = true := by rw [hs.get_isNull he hi]; rfl
    rw [prependPvbufIntoIovec]
    refine .step (assert_run hnull _ st) (.step (assert_run hnull _ st) ?_)
    rw [h.sub_slots.get_at hi]
    refine (insertIntoSub_spec (pvbufItem hsrc hlen) hins h hi).bind ?_
    rintro ⟨pv1, ok⟩ st1 ⟨dl, sub', hget, hat⟩
    cases ok with
    | false => exact .pure ⟨_, hat⟩
    | true =>
      cases compress with
      | false => exact .pure ⟨_, hat⟩
      | true =>
        dsimp only at hget ⊢
        rw [hget]
        have hh : Holds c mem (Wf (depth + 1 + D)) st1.mgr pv1 (es1 ++ [.sub dl sub'] ++ es2) refs
          objs := hat.holds
        refine ((checkSingle_spec (hh.ok _ (by simp)) hh.focus_sub).and_along
          (keepsMem_checkSingle c _)).andThen ?_
        rintro y st2 ⟨⟨e', hy, hne, hok, hsegs, hout, hown⟩, hmem⟩
        have hsub := hat.segs
        refine .pure ⟨[e'], ?_, hat.obj, ?_, hout.trans hat.out, hmem.trans hat.mem,
          fun hfalse => by cases hfalse⟩
        · refine hh.refill rfl ?_ ?_ (by simpa using hown)
          · rw [entrySlots_mid, hy]
            exact hh.sub_slots.set hi
              (IovEntry.isNull_eq_false hne (by rw [hy]; exact List.mem_cons_self)).symm
          · intro e'' he''
            obtain rfl := List.mem_singleton.mp he''
            exact hok
        · rw [entrySegs_cons, entrySegs_nil, List.append_nil] at hsub ⊢
          rw [hsegs]
          exact hsub

theorem appendPvbufIntoIovec_spec {insert : Pvbuf → PvM (Pvbuf × Bool)}
    (hins : PlaceSpec c mem .back depth D (.sub (BitVec.ofNat 32 length) src) (TooLong length) insert)
    (he : e ≠ .gap)
    (h : Holds c mem (Wf depth) st.mgr pv (es1 ++ [e] ++ es2) (segRefs src.segs ++ refs) (src.objs ++ objs))
    (hq : q + 1 = (entrySlots es1).length + e.slots.length) :
    Outcome (appendPvbufIntoIovec c insert pv q src length true) st (fun r st' => ∃ es,
      PlacedAt c mem (Wf (depth + 1 + D)) .back (.sub (BitVec.ofNat 32 length) src) refs objs
        es1 es2 pv [e] st es r st') (TooLong length) := by
  rw [appendPvbufIntoIovec, if_neg (by decide)]
  match e, he with
  | .sub data_length sub, _ =>
    obtain rfl : q = (entrySlots es1).length := Nat.succ.inj hq
    rw [h.sub_slots.get_at rfl]
    exact (insertIntoSub_spec (pvbufItem hsrc hlen) hins h rfl).mono
      fun _ _ ⟨_, _, _, hat⟩ => ⟨_, hat⟩
  | .seg t, _ =>
    have hs := h.slots
    rw [entrySlots_mid] at hs
    split
    · rename_i hget
      exact (hs.get_not_pvbuf hq _ _ hget).elim
    · exact appendPaddrNewPvbuf_spec (pvbufItem hsrc hlen) h hq

theorem prependPvbufBackend_spec {insert : Pvbuf → PvM (Pvbuf × Bool)} (compress : Bool)
    (hins : PlaceSpec c mem .front depth D (.sub (BitVec.ofNat 32 length) src) (TooLong length) insert)
    (h : Holds c mem (Wf depth) st.mgr pv es (segRefs src.segs ++ refs) (src.objs ++ objs)) :
    Outcome (prependPvbufBackend c insert compress pv src length) st
      (Placed c mem .front (depth + 1) D (.sub (BitVec.ofNat 32 length) src) refs objs pv st)
      (TooLong length) := by
  rw [prependPvbufBackend]
  refine .step (paddrToAddr_run h.owns List.mem_cons_self st) ?_
  refine (findPrependSlot_spec compress h).andThen ?_
  rintro ⟨pv1, index⟩ st' ⟨rfl, hobj, es', h', hsegs, hslot⟩
  have hnum := PvbufOf.num_eq_of_obj hobj
  have hsegs' := hsegs.trans h.slots.segs_eq.symm
  dsimp only at hobj h' hslot hnum ⊢
  rcases hslot with ⟨hlt, rest, rfl, -⟩ | ⟨rfl, e, rest, hne, rfl⟩
  · rw [if_pos (by omega)]
    exact (prependPvbuf_free hsrc hlen h' hobj hsegs').bind fun pv2 st2 hp => .pure hp
  · have hge := noSlot_ge pv1
    rw [if_neg (by omega)]
    rw [← List.nil_append [e]] at h' hsegs'
    exact (prependPvbufIntoIovec_spec hsrc hlen _ hins hne h' rfl).mono
      fun _ _ ⟨_, hat⟩ => hat.placed_front hobj hsegs' rfl

theorem appendPvbufBackend_spec {insert : Pvbuf → PvM (Pvbuf × Bool)} (compress : Bool)
    (hins : PlaceSpec c mem .back depth D (.sub (BitVec.ofNat 32 length) src) (TooLong length) insert)
    (h : Holds c mem (Wf depth) st.mgr pv es (segRefs src.segs ++ refs) (src.objs ++ objs)) :
    Outcome (appendPvbufBackend c insert compress pv src length) st
      (Placed c mem .back (depth + 1) D (.sub (BitVec.ofNat 32 length) src) refs objs pv st)
      (TooLong length) := by
  rw [appendPvbufBackend]
  refine .step (paddrToAddr_run h.owns List.mem_cons_self st) ?_
  refine (findAppendSlot_spec compress h).andThen ?_
  rintro ⟨pv1, index⟩ st' ⟨rfl, hobj, es', h', hsegs, hslot⟩
  have hnum := PvbufOf.num_eq_of_obj hobj
  have hpos := pv1.le_num
  have hlength := h'.slots.length
  have hsegs' := hsegs.trans h.slots.segs_eq.symm
  dsimp only at hobj h' hslot hnum hlength ⊢
  rcases hslot with ⟨hlt, rest, k, rfl, hrest⟩ | ⟨rfl, rest, e, hne, rfl⟩
  · rw [if_pos (by omega)]
    rw [entrySlots_append, List.length_append, hrest, entrySlots_gaps,
      List.length_replicate] at hlength
    obtain ⟨k, rfl⟩ : ∃ k', k = k' + 1 := ⟨k - 1, by omega⟩
    exact (appendPvbuf_free hsrc hlen h' hrest hobj hsegs').bind fun pv2 st2 hp => .pure hp
  · have hge := noSlot_ge pv1
    rw [if_neg (by omega)]
    rw [← List.append_nil (rest ++ [e])] at h' hsegs'
    have hs := h'.slots
    rw [entrySlots_mid] at hs
    have hq : pv1.num - 1 + 1 = (entrySlots rest).length + e.slots.length := by
      rw [Nat.sub_add_cancel (by omega), ← hlength]
      simp
    refine .step (hs.isset_last hne hq st') ?_
    exact (appendPvbufIntoIovec_spec hsrc hlen hins hne h' hq).mono
      fun _ _ ⟨_, hat⟩ => hat.placed_back hobj hsegs' rfl

end

/-! ## Hollow pvbufs -/

mutual

/-- Whether a pvbuf is empty, or has a single slot in use, with such a pvbuf in it. -/
def PvbufOf.hollow : PvbufOf Iovec → Bool
  | ⟨_, _, _, iovec⟩ => slotsHollow iovec
termination_by structural pv => pv

/-- The same of a list of slots. -/
def slotsHollow : List Iovec → Bool
  | [] => true
  | x :: slots => if x.isNull then slotsHollow slots else x.hollow && slots.all Iovec.isNull
termination_by structural slots => slots

/-- The same of a slot in use. -/
def Iovec.hollow : Iovec → Bool
  | .pvbuf _ pv => pv.hollow
  | .null | .pbuf _ | .short _ | .long _ | .long2 _ => false
termination_by structural x => x

end

theorem slotsHollow_replicate (n : Nat) (l : List Iovec) :
    slotsHollow (List.replicate n .null ++ l) = slotsHollow l := by
  induction n with
  | zero => rfl
  | succ n ih => exact ih

theorem used_length_of_slotsHollow (h : slotsHollow l = true) :
    (used l).length ≤ 1 := by
  induction l with
  | nil => exact Nat.zero_le 1
  | cons x l ih =>
    rw [slotsHollow] at h
    cases hx : x.isNull with
    | true =>
      rw [hx, if_pos rfl] at h
      rw [used, List.filter_cons_of_neg (by rw [hx]; decide)]
      exact ih h
    | false =>
      rw [hx, if_neg (by decide), Bool.and_eq_true, List.all_eq_true] at h
      rw [used_cons hx, used_eq_nil h.2]
      exact Nat.le_refl 1

theorem Slots.hollow_eq (h : Slots pv l) : pv.hollow = slotsHollow l := by
  obtain ⟨size, index, map, iovec⟩ := pv
  rw [PvbufOf.hollow, ← h.iovec]

theorem Slots.hollow_of_weight (h : Slots pv l) (hw : weight pv.iovec_map = 0) :
    pv.hollow = true := by
  rw [h.weight_eq] at hw
  have hnil := List.eq_nil_of_length_eq_zero hw
  have hnull := eq_replicate_of_isNull fun x hx => by
    simpa using List.filter_eq_nil_iff.mp hnil x hx
  rw [h.hollow_eq, hnull, ← List.append_nil (List.replicate _ _), slotsHollow_replicate]
  rfl

theorem hollow_single (hx : x.isNull = false)
    (h : Slots pv (List.replicate k .null ++ x :: List.replicate n .null)) :
    pv.hollow = x.hollow := by
  have hall : (List.replicate n Iovec.null).all Iovec.isNull = true := by
    rw [List.all_replicate]
    cases n <;> rfl
  rw [h.hollow_eq, slotsHollow_replicate, slotsHollow, hx, if_neg (by decide), hall, Bool.and_true]

/-! ## Dissolving a pvbuf -/

/-- The leaf of a slot, with the length it has. -/
def Seg.toArg (s : Seg) (hfits : s.Fits) : Arg where
  seg := s
  length := s.len
  len_eq := by rw [Seg.setLen_len]
  fits := by rwa [Seg.setLen_len]

theorem PlaceSpec.leaf {insert : Pvbuf → PvM (Pvbuf × Bool)} (E : Fault → Prop) (hfits : s.Fits)
    (h : PlaceSpec c mem side depth 0 (s.toArg hfits).toItem.entry (TooLong s.len) insert) :
    PlaceSpec c mem side depth 0 (.seg s) E insert := by
  intro pv st refs objs hwf hown
  have hentry : (s.toArg hfits).toItem.entry = .seg s := congrArg IovEntry.seg s.setLen_len
  rw [hentry] at h
  exact ((h hwf hown).returns (s.toArg hfits).not_tooLong).outcome E

theorem Placed.dissolved (hD : D' ≤ D) (hsegs : src.segs = e.segs)
    (hobjs : src.objs = src.obj :: e.objs)
    (h : Placed c mem side depth D' e refs (src.obj :: objs) pv st r st') :
    Returns (do
        if r.2 then objAllocFree c src
        return (r.1, r.2)) st'
      (Placed c mem side depth D (.sub data_length src) refs objs pv st) := by
  obtain ⟨pv', ok⟩ := r
  have hown := h.owns
  cases ok with
  | true =>
    have hperm : (pv'.objs ++ src.obj :: objs).Perm (src.obj :: (pv'.objs ++ objs)) :=
      List.perm_middle
    refine ((objAllocFree_spec (hown.perm (.refl _) hperm)).and_along
      (keepsMem_objAllocFree c src)).bind ?_
    rintro _ st2 ⟨⟨hout, hown2⟩, hmem⟩
    rw [← hsegs] at hown2
    exact .pure ⟨h.wf.mono (by omega), h.obj, by rw [h.segs, ← hsegs]; rfl, hown2,
      hout.trans h.out, hmem.trans h.mem, fun hfalse => by cases hfalse⟩
  | false =>
    have hperm : (pv'.objs ++ (e.objs ++ src.obj :: objs)).Perm (pv'.objs ++ (src.objs ++ objs)) := by
      rw [hobjs]
      exact List.perm_middle.append_left _
    have hown2 := hown.perm (.refl _) hperm
    rw [← hsegs] at hown2
    exact .pure ⟨h.wf.mono (by omega), h.obj, by rw [h.segs]; rfl, hown2, h.out, h.mem, h.failed⟩

/-- **Dissolving puts the leaves of `src` in.** The functions for the end of the packet put in leaves,
and the pvbuf in the slot if there is one. -/
theorem pvbufCompress_place {f : InsertFns} (hsrc : Wf (D + 1) src)
    (hw : weight src.iovec_map = 1)
    (hpaddr : ∀ arg : Arg, PlaceSpec c mem side depth 0 arg.toItem.entry (TooLong arg.length)
      (f.paddr arg.seg.paddr1 arg.seg.paddr2 arg.length))
    (hpvbuf : ∀ sub, Wf D sub → sub.segs = src.segs → src.hollow = sub.hollow →
      PlaceSpec c mem side depth D (.sub (BitVec.ofNat 32 length) sub) (TooLong length)
        (f.pvbuf sub length)) :
    PlaceSpec c mem side depth (D + 1) (.sub (BitVec.ofNat 32 length) src) (TooLong length)
      fun pv => pvbufCompress c f pv src length 1 := by
  intro pv st refs objs hwf hown
  have hmem : src.obj ∈ pv.objs ++ ((IovEntry.sub (BitVec.ofNat 32 length) src).objs ++ objs) :=
    List.mem_append_right _ (List.mem_append_left _ hsrc.obj_mem_objs)
  obtain ⟨es, hs, hes⟩ := hsrc
  obtain ⟨e, x, k, rfl, hne, hx, hget, hlt⟩ := hs.single hw
  have hok : e.Ok (Wf D) := hes e (by simp)
  have hsegs : src.segs = e.segs := by simp [hs.segs_eq]
  have hobjs : src.objs = src.obj :: e.objs := by simp [hs.objs_eq]
  have hnull : x.isNull = false := IovEntry.isNull_eq_false hne (by rw [hx]; exact List.mem_cons_self)
  rw [entrySlots_mid, hx, entrySlots_gaps, entrySlots_gaps] at hs
  have hbit : src.iovec_map.getLsbD (find src.iovec_map) = true := by
    rw [hs.map, ← hs.get_eq, hget, hnull]
    rfl
  have hown1 : Owns c mem st.mgr (segRefs pv.segs ++ (segRefs e.segs ++ refs))
      (pv.objs ++ (e.objs ++ src.obj :: objs)) := by
    rw [← hsegs]
    refine hown.perm (.refl _) ?_
    show (pv.objs ++ (src.objs ++ objs)).Perm _
    rw [hobjs]
    exact List.perm_middle.symm.append_left _
  show Outcome (pvbufCompress c f pv src length 1) _ _ _
  rw [pvbufCompress, if_pos Nat.one_ne_zero]
  refine .step (paddrToAddr_run hown hmem st) ?_
  rw [iovecRead, if_pos hbit, hget]
  match e, x, hx with
  | .sub data_length sub, _, rfl =>
    have hsub : PlaceSpec c mem side depth D (.sub (BitVec.ofNat 32 length) sub) _ _ :=
      hpvbuf sub hok.1 hsegs.symm (hollow_single rfl hs)
    refine (hsub hwf hown1).bind fun r st1 hr => ?_
    exact (Placed.dissolved (e := .sub (BitVec.ofNat 32 length) sub) (Nat.le_succ D) hsegs hobjs
      hr).outcome _
  | .seg (.pbuf a), _, rfl =>
    have hfits : (Seg.pbuf a).Fits := hok
    have hleaf := PlaceSpec.leaf (s := .pbuf a) (TooLong length) hfits (hpaddr (Seg.toArg _ hfits))
    refine (hleaf hwf hown1).bind fun r st1 hr => ?_
    exact (hr.dissolved (Nat.zero_le _) hsegs hobjs).outcome _
  | .seg (.short a), _, rfl =>
    have hfits : (Seg.short a).Fits := hok
    have hleaf := PlaceSpec.leaf (s := .short a) (TooLong length) hfits (hpaddr (Seg.toArg _ hfits))
    refine (hleaf hwf hown1).bind fun r st1 hr => ?_
    exact (hr.dissolved (Nat.zero_le _) hsegs hobjs).outcome _

theorem Wf.pos (h : Wf depth pv) : 0 < depth := by
  cases depth with
  | zero => exact h.elim
  | succ depth => exact depth.succ_pos

theorem Wf.weight_of_dissolved (hsrc : Wf D src) (hhollow : src.hollow = false)
    (hw : weightLeOne src ≠ 0) : weight src.iovec_map = 1 ∧ weightLeOne src = 1 := by
  have hle : weight src.iovec_map ≤ 1 := by
    by_contra hgt
    exact hw (by rw [weightLeOne, decide_eq_false hgt]; rfl)
  refine ⟨?_, by rw [weightLeOne, decide_eq_true hle]; rfl⟩
  cases D with
  | zero => exact hsrc.elim
  | succ D =>
    obtain ⟨es, hs, -⟩ := hsrc
    by_contra hne
    rw [hs.hollow_of_weight (by omega)] at hhollow
    cases hhollow

/-! ## The whole functions -/

theorem Holds.free_front (h : Holds c mem P st.mgr pv es refs objs) (hfind : 0 < find pv.iovec_map)
    :
    ∃ rest, es = gaps (min (find pv.iovec_map) pv.num - 1 + 1) ++ rest := by
  have hlen := h.slots.length
  have hnum := pv.le_num
  have hnum' := pv.num_le
  rw [Nat.sub_add_cancel (by omega)]
  rcases find_cases pv.iovec_map with ⟨-, hq⟩ | ⟨hnone, hclear⟩
  · obtain ⟨e, rest, heq, -⟩ := Slots.first (p := 0) h.slots hq
    obtain rfl : es = gaps (find pv.iovec_map) ++ e :: rest := heq
    rw [entrySlots_append, entrySlots_gaps, List.length_append, List.length_replicate] at hlen
    exact ⟨e :: rest, by rw [Nat.min_eq_left (by omega)]⟩
  · have hs := h.slots
    rw [← List.nil_append es] at hs
    have hgaps : es = gaps es.length := hs.none_from fun k _ => hclear k
    rw [hgaps, entrySlots_gaps, List.length_replicate] at hlen
    exact ⟨[], by rw [hnone, Nat.min_eq_right hnum', ← hlen, List.append_nil, ← hgaps]⟩

theorem Holds.free_back (h : Holds c mem P st.mgr pv es refs objs)
    (hfind : revFind pv.iovec_map < pv.num - 1) :
    ∃ rest k, es = rest ++ gaps (k + 1) ∧ (entrySlots rest).length = revFind pv.iovec_map + 1 := by
  have hlen := h.slots.length
  have hnum' := pv.num_le
  rcases revFind_cases pv.iovec_map with ⟨hlt, hq⟩ | ⟨hnone, -⟩
  · have hs := h.slots
    rw [← List.append_nil es] at hs
    obtain ⟨rest, e, k, rfl, -, hpos⟩ :=
      hs.last ⟨by omega, hq.set, fun j hj hjl => hq.clear j hj (by omega)⟩
    have hrest : (entrySlots (rest ++ [e])).length = revFind pv.iovec_map + 1 := by
      simpa using hpos.symm
    rw [← List.singleton_append, ← List.append_assoc, entrySlots_append, List.length_append, hrest,
      entrySlots_gaps, List.length_replicate] at hlen
    obtain ⟨k, rfl⟩ : ∃ k', k = k' + 1 := ⟨k - 1, by omega⟩
    exact ⟨rest ++ [e], k, by simp, hrest⟩
  · omega

/-- **Prepending puts the leaves of `src` before the others.** -/
theorem prependPvbuf_place {compress : Bool} (hn : depth + D ≤ n + 1) (hsrc : Wf D src)
    (hlen : length = 0 ∨ length = segsLen src.segs) (hhollow : compress = true → src.hollow = false)
    :
    PlaceSpec c mem .front depth D (.sub (BitVec.ofNat 32 length) src) (TooLong length)
      (prependPvbuf c n compress src length) := by
  induction n generalizing depth D compress src with
  | zero =>
    intro pv st refs objs hwf _
    have hdepth := hwf.pos
    have hD := hsrc.pos
    omega
  | succ n ih =>
    intro pv st refs objs hwf hown
    have hpos := hwf.pos
    have hD := hsrc.pos
    obtain ⟨depth, rfl⟩ : ∃ d, depth = d + 1 := ⟨depth - 1, by omega⟩
    obtain ⟨D, rfl⟩ : ∃ d, D = d + 1 := ⟨D - 1, by omega⟩
    rw [prependPvbuf]
    refine .step (paddrToAddr_run hown (List.mem_append_left _ hwf.obj_mem_objs) st) ?_
    refine .step (paddrToAddr_run hown
      (List.mem_append_right _ (List.mem_append_left _ hsrc.obj_mem_objs)) st) ?_
    split
    · rename_i hcond
      obtain ⟨hw, hone⟩ := hsrc.weight_of_dissolved (hhollow hcond.1) hcond.2
      rw [hone, prependPvbufCompress]
      refine pvbufCompress_place hsrc hw (fun arg => prependPaddr_place true arg.toItem (by omega))
        (fun sub hsub hsegs hsame => ih (by omega) hsub (by rwa [hsegs]) fun _ => ?_) hwf hown
      rw [← hsame]
      exact hhollow hcond.1
    · obtain ⟨es, h⟩ := Holds.of_wf hwf hown
      dsimp only
      split
      · rename_i hfind
        obtain ⟨rest, rfl⟩ := h.free_front hfind
        exact (prependPvbuf_free hsrc hlen h rfl h.slots.segs_eq.symm).bind fun _ _ hp => .pure hp
      · exact prependPvbufBackend_spec hsrc hlen compress (ih (by omega) hsrc hlen hhollow) h

/-- **Appending puts the leaves of `src` after the others.** -/
theorem appendPvbuf_place {compress : Bool} (hn : depth + D ≤ n + 1) (hsrc : Wf D src)
    (hlen : length = 0 ∨ length = segsLen src.segs) (hhollow : compress = true → src.hollow = false)
    :
    PlaceSpec c mem .back depth D (.sub (BitVec.ofNat 32 length) src) (TooLong length)
      (appendPvbuf c n compress src length) := by
  induction n generalizing depth D compress src with
  | zero =>
    intro pv st refs objs hwf _
    have hdepth := hwf.pos
    have hD := hsrc.pos
    omega
  | succ n ih =>
    intro pv st refs objs hwf hown
    have hpos := hwf.pos
    have hD := hsrc.pos
    obtain ⟨depth, rfl⟩ : ∃ d, depth = d + 1 := ⟨depth - 1, by omega⟩
    obtain ⟨D, rfl⟩ : ∃ d, D = d + 1 := ⟨D - 1, by omega⟩
    rw [appendPvbuf]
    refine .step (paddrToAddr_run hown (List.mem_append_left _ hwf.obj_mem_objs) st) ?_
    refine .step (paddrToAddr_run hown
      (List.mem_append_right _ (List.mem_append_left _ hsrc.obj_mem_objs)) st) ?_
    split
    · rename_i hcond
      obtain ⟨hw, hone⟩ := hsrc.weight_of_dissolved (hhollow hcond.1) hcond.2
      rw [hone, appendPvbufCompress]
      refine pvbufCompress_place hsrc hw (fun arg => appendPaddr_place true arg.toItem (by omega))
        (fun sub hsub hsegs hsame => ih (by omega) hsub (by rwa [hsegs]) fun _ => ?_) hwf hown
      rw [← hsame]
      exact hhollow hcond.1
    · obtain ⟨es, h⟩ := Holds.of_wf hwf hown
      dsimp only
      split
      · rename_i hfind
        obtain ⟨rest, k, rfl, hrest⟩ := h.free_back hfind
        exact (appendPvbuf_free hsrc hlen h hrest rfl h.slots.segs_eq.symm).bind
          fun _ _ hp => .pure hp
      · exact appendPvbufBackend_spec hsrc hlen compress (ih (by omega) hsrc hlen hhollow) h

/-! ## Hollow pvbufs are not put in -/

theorem Wf.weightLeOne_of_hollow (hsrc : Wf D src) (hhollow : src.hollow = true) :
    weightLeOne src = 1 := by
  cases D with
  | zero => exact hsrc.elim
  | succ D =>
    obtain ⟨es, hs, -⟩ := hsrc
    rw [hs.hollow_eq] at hhollow
    have hle := used_length_of_slotsHollow hhollow
    rw [← hs.weight_eq] at hle
    rw [weightLeOne, decide_eq_true hle]
    rfl

theorem pvbufCompress_hollow (hsrc : Wf (D + 1) src) (hhollow : src.hollow = true)
    (hown : Owns c mem st.mgr refs objs) (hobjs : src.objs ⊆ objs)
    (hrec : ∀ sub, Wf D sub → sub.hollow = true → sub.objs ⊆ objs → (f.pvbuf sub length pv).run st = .error (.clearSlot 64) st)
    :
    (pvbufCompress c f pv src length 1).run st = .error (.clearSlot 64) st := by
  have hobj := hobjs hsrc.obj_mem_objs
  obtain ⟨es, hs, hes⟩ := hsrc
  have hle := used_length_of_slotsHollow (hs.hollow_eq.symm.trans hhollow)
  rw [← hs.weight_eq] at hle
  rw [pvbufCompress, run_bind_ok (paddrToAddr_run hown hobj st), if_pos Nat.one_ne_zero]
  by_cases hw : weight src.iovec_map = 1
  · obtain ⟨e, x, k, rfl, hne, hx, hget, -⟩ := hs.single hw
    have hnull : x.isNull = false :=
      IovEntry.isNull_eq_false hne (by rw [hx]; exact List.mem_cons_self)
    have hsub : e.objs ⊆ objs := fun o ho => hobjs (by rw [hs.objs_eq]; simp [ho])
    have hok : e.Ok (Wf D) := hes e (by simp)
    rw [entrySlots_mid, hx, entrySlots_gaps, entrySlots_gaps] at hs
    have hbit : src.iovec_map.getLsbD (find src.iovec_map) = true := by
      rw [hs.map, ← hs.get_eq, hget, hnull]
      rfl
    rw [hollow_single hnull hs] at hhollow
    rw [iovecRead, if_pos hbit, hget]
    match e, x, hx with
    | .sub dl sub, _, rfl =>
      rw [run_bind_ok (m := pure (Iovec.pvbuf dl sub)) rfl]
      exact run_bind_error (hrec sub hok.1 hhollow hsub)
    | .seg (.pbuf _), _, rfl | .seg (.short _), _, rfl => cases hhollow
  · have hzero : weight src.iovec_map = 0 := by omega
    rcases find_cases src.iovec_map with ⟨hlt, hq⟩ | ⟨hnone, hclear⟩
    · exact (List.countP_eq_zero.mp hzero _ (List.mem_range.mpr hlt) hq.set).elim
    · rw [iovecRead, if_neg (by rw [hclear]; decide), hnone]
      rfl

theorem prependPvbuf_hollow (hn : D ≤ n) (hsrc : Wf D src) (hhollow : src.hollow = true)
    (hown : Owns c mem st.mgr refs objs) (hobj : pv.obj ∈ objs) (hobjs : src.objs ⊆ objs) :
    (prependPvbuf c n true src length pv).run st = .error (.clearSlot 64) st := by
  induction n generalizing D src with
  | zero =>
    obtain rfl := Nat.le_zero.mp hn
    exact hsrc.elim
  | succ n ih =>
    obtain _ | D := D
    · exact hsrc.elim
    have hone := hsrc.weightLeOne_of_hollow hhollow
    rw [prependPvbuf, run_bind_ok (paddrToAddr_run hown hobj st),
      run_bind_ok (paddrToAddr_run hown (hobjs hsrc.obj_mem_objs) st), hone,
      if_pos ⟨rfl, Nat.one_ne_zero⟩]
    exact pvbufCompress_hollow hsrc hhollow hown hobjs fun sub hsub =>
      ih (Nat.le_of_succ_le_succ hn) hsub

/-! ## Packets in memory -/

/-- A call returns with the contents of `src` at an end of those of the pvbuf, or, where no pvbuf is
free, with the contents as they were. It fails only where an assertion refuses the length, and all
references stay held. -/
def JoinsPvbuf (c : MgrConfig) (mem : Mem) (side : Side) (levels : Nat) (src : Pvbuf) (length : Nat)
    (refs : List Ref) (objs : List (Nat × Nat)) (pv : Pvbuf) (st : PvSt) (m : PvM (Pvbuf × Bool)) :
    Prop :=
  Outcome m st (fun r st' => Wf levels r.1 ∧ r.1.obj = pv.obj ∧
    r.1.contents st'.mgr.mem = (if r.2 then
      join side (src.contents st.mgr.mem) (pv.contents st.mgr.mem) else pv.contents st.mgr.mem) ∧
    (r.2 = false → ∃ size, st'.mgr.pvbuf_free size = []) ∧
    Owns c mem st'.mgr (segRefs pv.segs ++ (segRefs src.segs ++ refs))
      (r.1.objs ++ if r.2 then objs else src.objs ++ objs)) (TooLong length)

theorem Placed.contents (h : Placed c mem side depth D a refs objs pv st r st') :
    r.1.contents st'.mgr.mem = if r.2 then
      join side (segBytes st.mgr.mem a.segs) (pv.contents st.mgr.mem) else pv.contents st.mgr.mem := by
  rw [PvbufOf.contents, h.segs, h.mem]
  cases r.2
  · rfl
  · cases side <;> simp [join, PvbufOf.contents]

theorem PlaceSpec.joinsPvbuf {insert : Pvbuf → PvM (Pvbuf × Bool)}
    (h : PlaceSpec c mem side depth D (.sub (BitVec.ofNat 32 length) src) (TooLong length) insert)
    (hwf : Wf depth pv)
    (hown : Owns c mem st.mgr (segRefs pv.segs ++ (segRefs src.segs ++ refs))
      (pv.objs ++ (src.objs ++ objs))) :
    JoinsPvbuf c mem side (depth + D + 1) src length refs objs pv st (insert pv) :=
  (h hwf hown).mono fun _ _ hp => ⟨hp.wf, hp.obj, hp.contents, hp.failed, hp.owns⟩

theorem not_joinsPvbuf (h : m.run st = .error (.clearSlot i) st) :
    ¬ JoinsPvbuf c mem side levels src length refs objs pv st m := by
  rintro (⟨_, _, hrun, -⟩ | ⟨_, _, hrun, -, label, rfl⟩)
  · cases h.symm.trans hrun
  · cases h.symm.trans hrun

/-- **`__xdp2_pvbuf_prepend_pvbuf` and `__xdp2_pvbuf_append_pvbuf` put a pvbuf at the ends of the
packet, unless it is hollow and is to be dissolved.** For every two well-formed packets in a manager
that keeps its books and every length that is zero or that of the data, the calls return with the
bytes of the one before, or after, those of the other. With compression, an empty pvbuf, or one that
holds nothing else, makes both read a slot that is not in use. -/
theorem joinsPvbuf_iff {n : Nat} (compress : Bool) (hwf : Wf depth pv) (hsrc : Wf D src)
    (hlen : length = 0 ∨ length = (src.contents st.mgr.mem).length)
    (hown : Owns c mem st.mgr (segRefs pv.segs ++ (segRefs src.segs ++ refs))
      (pv.objs ++ (src.objs ++ objs))) (hn : depth + D ≤ n + 1) :
    (JoinsPvbuf c mem .front (depth + D + 1) src length refs objs pv st
        (prependPvbuf c n compress src length pv) ∧
      JoinsPvbuf c mem .back (depth + D + 1) src length refs objs pv st
        (appendPvbuf c n compress src length pv)) ↔
      ¬ (compress = true ∧ src.hollow = true) := by
  have hpos := hwf.pos
  constructor
  · rintro ⟨hjoin, -⟩ ⟨rfl, hhollow⟩
    have hrun : (prependPvbuf c n true src length pv).run st = .error (.clearSlot 64) st :=
      prependPvbuf_hollow (by omega) hsrc hhollow hown (List.mem_append_left _ hwf.obj_mem_objs)
        (List.subset_append_of_subset_right _ (List.subset_append_left _ _))
    exact not_joinsPvbuf hrun hjoin
  · intro hnot
    have hhollow : compress = true → src.hollow = false := fun hc => by
      cases hh : src.hollow with
      | false => rfl
      | true => exact (hnot ⟨hc, hh⟩).elim
    rw [PvbufOf.contents, length_segBytes] at hlen
    exact ⟨(prependPvbuf_place hn hsrc hlen hhollow).joinsPvbuf hwf hown,
      (appendPvbuf_place hn hsrc hlen hhollow).joinsPvbuf hwf hown⟩


/-- The last free pvbuf is allocated. -/
def fullState : PvSt :=
  { smallState with
    mgr.pvbuf_free := fun size => if size = 0 then [] else smallState.mgr.pvbuf_free size }

/-- The pvbuf allocated. -/
def emptyPvbuf : Pvbuf := .zero 0 2

theorem emptyPvbuf_wf : Wf 1 emptyPvbuf :=
  ⟨gaps 7, PvbufOf.zero_slots _ _, forall_ok_gaps 7⟩

theorem emptyPvbuf_owns : Owns smallConfig smallState.mgr.mem fullState.mgr
    (segRefs mixedPacket.segs ++ []) (emptyPvbuf.obj :: (mixedPacket.objs ++ [])) := by
  have hrun : (pvbufAlloc 0).run smallState = .ok (some emptyPvbuf) fullState := rfl
  have hsize : 0 < 16 := by decide
  obtain ⟨_, _, hrun', -, -, hnew⟩ := pvbufAlloc_spec hsize mixedPacket_owns
  cases hrun.symm.trans hrun'
  rcases hnew with ⟨hnone, -⟩ | ⟨new, hnew, -, hown⟩
  · cases hnone
  · obtain rfl := Option.some.inj hnew
    exact hown

/-- The packet is put into the empty one, before what is there and behind it. -/
theorem joinsPvbuf_mixedPacket :
    JoinsPvbuf smallConfig smallState.mgr.mem .front 4 mixedPacket 9 [] [] emptyPvbuf fullState
        (prependPvbuf smallConfig 2 true mixedPacket 9 emptyPvbuf) ∧
      JoinsPvbuf smallConfig smallState.mgr.mem .back 4 mixedPacket 9 [] [] emptyPvbuf fullState
        (appendPvbuf smallConfig 2 true mixedPacket 9 emptyPvbuf) :=
  (joinsPvbuf_iff true emptyPvbuf_wf mixedPacket_wf (.inr rfl) emptyPvbuf_owns (by decide)).mpr
    (by decide)

/-- The empty packet is not put into the other one. -/
theorem emptyPvbuf_not_joinsPvbuf :
    Wf 2 mixedPacket ∧ Wf 1 emptyPvbuf ∧ emptyPvbuf.contents fullState.mgr.mem = [] ∧
      Owns smallConfig smallState.mgr.mem fullState.mgr
        (segRefs mixedPacket.segs ++ (segRefs emptyPvbuf.segs ++ []))
        (mixedPacket.objs ++ (emptyPvbuf.objs ++ [])) ∧
      (prependPvbuf smallConfig 2 true emptyPvbuf 0 mixedPacket).run fullState =
        .error (.clearSlot 64) fullState ∧
      (appendPvbuf smallConfig 2 true emptyPvbuf 0 mixedPacket).run fullState =
        .error (.clearSlot 64) fullState := by
  have hperm : ([emptyPvbuf.obj] ++ (mixedPacket.objs ++ [])).Perm
      (mixedPacket.objs ++ [] ++ [emptyPvbuf.obj]) := List.perm_append_comm
  exact ⟨mixedPacket_wf, emptyPvbuf_wf, rfl, emptyPvbuf_owns.perm (.refl _) hperm, rfl, rfl⟩

end Xdp2
