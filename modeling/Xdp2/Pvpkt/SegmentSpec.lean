import Xdp2.Pvpkt.SegmentLoop

/-!
# What a segmentation is

The packets of the vector have the bytes asked for, each the segment length but for the last.
`__xdp2_pvpkt_iterate` sees one iovec a packet, unless a packet is a part of a long address by
itself (`longAlone`), which cannot be with a callback, as all packets are pvbufs then.
`segments_iff`: the segmentation does what it is for just if there are none, the segment length is
not zero as an `unsigned int`, and the number of bytes is no negative `ssize_t`.
-/

namespace Xdp2

open BitWord StateError Chunks

/-! ## How far it has got -/

/-- Whether a part of a long address comes to be a packet by itself, where `done` bytes are in
packets of `size`: after what goes to the packet under construction, a leaf makes one if it has a
packet's worth, or has all that is asked for and there is no such packet. -/
def longAlone (size : Nat) : (done offset length : Nat) → List Seg → Bool
  | _, _, _, [] => false
  | done, offset, length, s :: segs =>
    if s.len ≤ offset then longAlone size done (offset - s.len) length segs
    else
      (s.isLong && decide (gap size done < min length (s.len - offset) ∧
        (size ≤ min length (s.len - offset) - gap size done ∨
          (gap size done = 0 ∧ min length (s.len - offset) = length)))) ||
        longAlone size (done + min length (s.len - offset)) 0 (length - min length (s.len - offset)) segs

theorem longAlone_zero (size done offset : Nat) (segs : List Seg) :
    longAlone size done offset 0 segs = false := by
  induction segs generalizing done offset with
  | nil => rfl
  | cons s segs ih => simp [longAlone, ih]

/-- How far a segmentation has got with the packets `all`, where the leaves `post` are ahead: `length` bytes
were asked for, which are `target`, and `goal` says whether the iterator is to see some packet twice. -/
structure SegSum (m : Mem) (target : List UInt8) (length : Nat) (goal : Bool) (post : List Seg)
    (ist : IterSegment) (all : List IovEntry) : Prop where
  bytes : segBytes m (entrySegs all) ++
    ((segBytes m post).drop ist.clone_iter.offset).take ist.clone_iter.length = target
  total : segsLen (entrySegs all) + ist.clone_iter.length = length
  cut : Cut ist.segment_length ist.packet_need_length
    (((segBytes m post).drop ist.clone_iter.offset).take ist.clone_iter.length).length (packetLens all)
  twice : (someTwice all || (!ist.pvbufs_only && longAlone ist.segment_length (segsLen (entrySegs all))
    ist.clone_iter.offset ist.clone_iter.length post)) = goal

theorem SegSum.skip (h : SegSum m target length goal (s :: post) ist all)
    (hlen : s.len ≤ ist.clone_iter.offset) :
    SegSum m target length goal post
      { ist with clone_iter.offset := ist.clone_iter.offset - s.len } all := by
  have hdrop : (segBytes m (s :: post)).drop ist.clone_iter.offset =
      (segBytes m post).drop (ist.clone_iter.offset - s.len) := by
    rw [segBytes_cons, List.drop_append, Seg.length_bytes, List.drop_eq_nil_of_le, List.nil_append]
    rw [Seg.length_bytes]
    exact hlen
  refine ⟨by rw [← h.bytes, hdrop], h.total, by rw [← hdrop]; exact h.cut, ?_⟩
  rw [← h.twice, longAlone, if_pos hlen]

theorem SegSum.done (h : SegSum m target length goal post ist all) (hlength : ist.clone_iter.length = 0) :
    SegSum m target length goal [] ist all where
  bytes := by rw [← h.bytes, hlength, List.take_zero, List.take_zero]
  total := h.total
  cut := by
    have hcut := h.cut
    rw [hlength, List.take_zero] at hcut ⊢
    exact hcut
  twice := by rw [← h.twice, hlength, longAlone_zero, longAlone_zero]

theorem take_drop_segBytes (m : Mem) (post : List Seg) (length : Nat) (hoff : offset < s.len) :
    ((segBytes m (s :: post)).drop offset).take length =
      ((s.bytes m).drop offset).take (min length (s.len - offset)) ++
        (segBytes m post).take (length - min length (s.len - offset)) := by
  have hrest : ((s.bytes m).drop offset).length = s.len - offset := by
    rw [List.length_drop, Seg.length_bytes]
  have htake : ((s.bytes m).drop offset).take length =
      ((s.bytes m).drop offset).take (min length (s.len - offset)) := by
    rw [← hrest, List.take_eq_take_min]
  rw [segBytes_cons, List.drop_append_of_le_length (by rw [Seg.length_bytes]; omega), List.take_append,
    htake, hrest]
  congr 2
  omega

theorem alone_iff_gap (h : Cut size need rest lens) (hd : d ≤ rest) :
    (need < d ∧ (size ≤ d - need ∨ (need = 0 ∧ d = length))) ↔
      (gap size lens.sum < d ∧
        (size ≤ d - gap size lens.sum ∨ (gap size lens.sum = 0 ∧ d = length))) := by
  rcases h.need_eq with heq | ⟨hneed, hgap⟩
  · rw [heq]
  · omega

theorem SegSum.put (h : SegSum m target length goal (s :: post) ist all)
    (hoff : ist.clone_iter.offset < s.len)
    (hrest : rest = (((segBytes m (s :: post)).drop ist.clone_iter.offset).take
      ist.clone_iter.length).length)
    (hl : Looped c mem m srcRefs refs srcObjs objs { ist with clone_iter.offset := 0 } all s
      ist.clone_iter.offset (min ist.clone_iter.length (s.len - ist.clone_iter.offset)) rest ist' st' all') :
    SegSum m target length goal post
      { ist' with clone_iter.length :=
          ist'.clone_iter.length - min ist.clone_iter.length (s.len - ist.clone_iter.offset) } all' := by
  obtain ⟨need, pvbuf, index, outer, rfl⟩ := hl.same
  have hsplit := take_drop_segBytes m post ist.clone_iter.length hoff
  have hpart : (((s.bytes m).drop ist.clone_iter.offset).take
      (min ist.clone_iter.length (s.len - ist.clone_iter.offset))).length =
      min ist.clone_iter.length (s.len - ist.clone_iter.offset) := by
    rw [List.length_take, List.length_drop, Seg.length_bytes]
    omega
  have hlen : segsLen (entrySegs all') = segsLen (entrySegs all) +
      min ist.clone_iter.length (s.len - ist.clone_iter.offset) := by
    have hlen := congrArg List.length hl.bytes
    rwa [List.length_append, length_segBytes, length_segBytes, hpart] at hlen
  rw [hsplit, List.length_append, hpart] at hrest
  refine ⟨?_, ?_, ?_, ?_⟩
  · rw [← h.bytes, hl.bytes, hsplit, List.append_assoc]
    rfl
  · rw [hlen, ← h.total]
    dsimp only [IterSegment.next]
    omega
  · have hcut := hl.cut
    rw [hrest, Nat.add_sub_cancel_left] at hcut
    exact hcut
  · have hcut := h.cut
    rw [hsplit, List.length_append, hpart] at hcut
    have halone : IterSegment.alone { ist with clone_iter.offset := 0 } s.isLong ist.packet_need_length
        (min ist.clone_iter.length (s.len - ist.clone_iter.offset)) = (!ist.pvbufs_only && (s.isLong &&
          decide (gap ist.segment_length (segsLen (entrySegs all)) <
              min ist.clone_iter.length (s.len - ist.clone_iter.offset) ∧
            (ist.segment_length ≤ min ist.clone_iter.length (s.len - ist.clone_iter.offset) -
                gap ist.segment_length (segsLen (entrySegs all)) ∨
              (gap ist.segment_length (segsLen (entrySegs all)) = 0 ∧
                min ist.clone_iter.length (s.len - ist.clone_iter.offset) = ist.clone_iter.length))))) := by
      rw [IterSegment.alone, Bool.and_assoc, ← sum_packetLens]
      congr 2
      exact decide_eq_decide.mpr (alone_iff_gap hcut (Nat.le_add_right _ _))
    rw [← h.twice, hl.twice, longAlone, if_neg (Nat.not_le_of_lt hoff), halone, hlen,
      Bool.and_or_distrib_left, Bool.or_assoc]
    rfl

/-! ## The leaves of the source -/

/-- What does not change while the source is gone through. -/
structure IterSegment.Setup (ist : IterSegment) (size : Nat) (only : Bool) : Prop where
  segment_length : ist.segment_length = size
  pvbufs_only : ist.pvbufs_only = only
  cb : IdleCb ist.cb
  list_size : ist.pvbuf_list_size < 16
  error : ist.clone_iter.error = false

/-- The invariant of a segmentation with the leaves `pre` of the source behind and `post` ahead. -/
def SegInv (c : MgrConfig) (mem : Mem) (refs : List Ref) (srcObjs objs : List (Nat × Nat)) (st0 : PvSt)
    (target : List UInt8) (length size : Nat) (only goal : Bool) (pre post : List Seg) (ist : IterSegment)
    (st : PvSt) : Prop :=
  (st.out = st0.out ∧ st.mgr.mem = st0.mgr.mem) ∧ ist.Setup size only ∧ ∃ all,
    Packing c mem (segRefs (pre ++ post)) refs srcObjs objs ist st all ∧
    SegSum st0.mgr.mem target length goal post ist all

/-- What there is when the iterator ends early: an allocation has failed, or nothing is left to do. -/
def SegEnd (c : MgrConfig) (mem : Mem) (refs : List Ref) (srcObjs objs : List (Nat × Nat)) (st0 : PvSt)
    (target : List UInt8) (length size : Nat) (only goal : Bool) (segs : List Seg) (ist : IterSegment)
    (st : PvSt) : Prop :=
  ((st.out = st0.out ∧ st.mgr.mem = st0.mgr.mem) ∧
    Broken c mem (segRefs segs) refs srcObjs objs ist.clone_iter st) ∨
  SegInv c mem refs srcObjs objs st0 target length size only goal segs [] ist st

theorem Packing.perm (h : Packing c mem srcRefs refs srcObjs objs ist st all)
    (hp : srcRefs.Perm srcRefs') : Packing c mem srcRefs' refs srcObjs objs ist st all := by
  obtain ⟨D, packets, es, k, os, hat, hall, hlast⟩ := h
  exact ⟨D, packets, es, k, os, hat.perm hp, hall, hlast⟩

theorem SegSum.counted (h : SegSum m target length goal (s :: post) ist all) :
    SegSum m target length goal (s.counted :: post) ist all := by
  have hbytes : segBytes m (s.counted :: post) = segBytes m (s :: post) := by
    rw [segBytes_cons, segBytes_cons, (Alike.bytes_eq (.inr rfl) m)]
  refine ⟨by rw [hbytes]; exact h.bytes, h.total, by rw [hbytes]; exact h.cut, ?_⟩
  rw [← h.twice, longAlone, longAlone, (Alike.len_eq (s := s) (.inr rfl)), Seg.isLong_counted]

/-- **The bytes of every leaf go into packets in turn**, or those asked for of it. -/
theorem iterateSegmentPvbuf_spec (hpos : 0 < size) :
    LeafSpec (SegInv c mem refs srcObjs objs st0 target length size only goal)
      (SegEnd c mem refs srcObjs objs st0 target length size only goal) (iterateSegmentPvbuf c) := by
  rintro pv i l1 l2 s pre post ist st hslots hi hfits ⟨⟨hout, hmem⟩, hset, all, hpack, hsum⟩
  have hpack' := hpack.perm (segRefs_mid_perm pre post s)
  obtain ⟨D, packets, es, k, os, hat, hall, hlast⟩ := hpack'
  have hbooks := hat.books
  rw [List.append_assoc] at hbooks
  rw [iterateSegmentPvbuf]
  refine (iterateIovecCloneCommon_spec hslots hi hbooks).bind ?_
  rintro r st' hdone
  cases hdone with
  | abort hlength =>
    refine .pure ⟨s, .refl s, rfl, hslots, (fun h => by cases h), fun _ => .inr ⟨⟨hout, hmem⟩, hset, all, ?_,
      hsum.done hlength⟩⟩
    rw [List.append_nil]
    exact hpack
  | skip hlength hlen =>
    refine .pure ⟨s, .refl s, rfl, hslots, fun _ => ⟨⟨hout, hmem⟩, ⟨hset.1, hset.2, hset.3, hset.4, hset.5⟩,
      all, ?_, hsum.skip hlen⟩, fun h => by cases h⟩
    rw [List.append_assoc]
    obtain ⟨D, packets, es, k, os, hat, hall, hlast⟩ := hpack
    exact ⟨D, packets, es, k, os, { hat with }, hall, hlast⟩
  | paddr hlength hlen hobj hslots' hout1 hmem1 hbooks1 =>
    rw [← List.append_assoc] at hbooks1
    have hsame : s.counted.len = s.len := Alike.len_eq (.inr rfl)
    have hback : (s.counted.refs ++ segRefs (pre ++ post)).Perm
        (segRefs (pre ++ [s.counted] ++ post)) := by
      rw [List.append_assoc]
      exact (segRefs_mid_perm pre post s.counted).symm
    have hpack1 : Packing c mem (s.counted.refs ++ segRefs (pre ++ post)) refs srcObjs objs
        { ist with clone_iter.offset := 0 } st' all :=
      ⟨D, packets, es, k, os, { hat with books := hbooks1 }, hall, hlast⟩
    have hset1 : IterSegment.Setup { ist with clone_iter.offset := 0 } size only :=
      ⟨hset.1, hset.2, hset.3, hset.4, hset.5⟩
    have hsum' := hsum.counted
    dsimp only
    rw [← hsame] at hlen ⊢
    have hrest : min ist.clone_iter.length (s.counted.len - ist.clone_iter.offset) ≤
        (((segBytes st0.mgr.mem (s.counted :: post)).drop ist.clone_iter.offset).take
          ist.clone_iter.length).length := by
      rw [List.length_take, List.length_drop, length_segBytes]
      simp only [segsLen, List.map_cons, List.sum_cons]
      omega
    have hle : ist.clone_iter.offset +
        min ist.clone_iter.length (s.counted.len - ist.clone_iter.offset) ≤ s.counted.len := by omega
    refine (segmentLoop_spec (m := st0.mgr.mem) (Nat.le_refl _) hset1.cb hset.list_size
      (by rw [hset1.segment_length]; exact hpos) s.one_ref_counted (Alike.fits (.inr rfl) hfits) hle
      hrest (List.length_take_le _ _) hpack1 hsum'.cut).bind ?_
    rintro ⟨ist', ok⟩ st2 ⟨hout2, hmem2, ⟨rfl, hbroken⟩ | ⟨all', rfl, hl⟩⟩
    · refine .pure ⟨s.counted, .inr rfl, hobj, hslots', (fun h => by cases h), fun _ => .inl
        ⟨⟨hout2.trans (hout1.trans hout), hmem2.trans (hmem1.trans hmem)⟩, hbroken.1, ?_⟩⟩
      obtain ⟨D, packets, es, k, os, hat⟩ := hbroken.2
      refine ⟨D, packets, es, k, os, hat.perm ?_⟩
      rw [← List.append_cons] at hback
      exact hback
    · refine .pure ⟨s.counted, .inr rfl, hobj, hslots', fun _ => ⟨⟨hout2.trans (hout1.trans hout),
        hmem2.trans (hmem1.trans hmem)⟩, ?_, all', ?_, hsum'.put hlen rfl hl⟩, fun h => by cases h⟩
      · obtain ⟨need, pvbuf, index, outer, rfl⟩ := hl.same
        exact ⟨hset.1, hset.2, hset.3, hset.4, hset.5⟩
      · obtain ⟨D, packets, es, k, os, hat, hall, hlast⟩ := hl.packing.perm hback
        exact ⟨D, packets, es, k, os, { hat with }, hall, hlast⟩

/-! ## What the iterator sees -/

theorem notes_of_once (hgap : ∀ e ∈ all, e ≠ .gap) (h : someTwice all = false) :
    notes all = (all.map IovEntry.segs).map some := by
  induction all with
  | nil => rfl
  | cons e all ih =>
    rw [someTwice, List.any_cons, Bool.or_eq_false_iff] at h
    have hnoted : e.noted = [some e.segs] := by
      cases e with
      | gap => exact (hgap .gap List.mem_cons_self rfl).elim
      | sub dl sub => rfl
      | seg s =>
        cases s with
        | pbuf a => rfl
        | short a => rfl
        | long a b => cases h.1
    rw [notes_cons, hnoted, ih (fun e he => hgap e (List.mem_cons_of_mem _ he)) h.2]
    rfl

theorem none_mem_notes (h : someTwice all = true) : none ∈ notes all := by
  obtain ⟨e, he, htwice⟩ := List.any_eq_true.mp h
  refine List.mem_flatMap.mpr ⟨e, he, ?_⟩
  cases e with
  | gap => cases htwice
  | sub dl sub => cases htwice
  | seg s =>
    cases s with
    | pbuf a => cases htwice
    | short a => cases htwice
    | long a b => exact List.mem_cons_of_mem _ List.mem_cons_self

/-! ## The whole source -/

/-- What a segmentation has come to: the source is `pv'`, the vector has the packets `all`. -/
structure SegmentedFrom (c : MgrConfig) (mem : Mem) (refs : List Ref) (objs : List (Nat × Nat))
    (depth : Nat) (pv : Pvbuf) (st0 : PvSt) (target : List UInt8) (size : Nat) (goal : Bool)
    (pv' vector : Pvbuf) (st : PvSt) (all : List IovEntry) : Prop where
  wf : Wf depth pv'
  obj : pv'.obj = pv.obj
  alike : List.Forall₂ Alike pv.segs pv'.segs
  mem_eq : st.mgr.mem = st0.mgr.mem
  vec : ∃ all', Vec vector all' ∧ notes all' = notes all
  wf_vector : ∃ levels, Wf levels vector
  books : Books c mem st.mgr (segRefs pv'.segs ++ (segRefs vector.segs ++ refs))
    (pv'.objs ++ (vector.objs ++ objs))
  bytes : segBytes st0.mgr.mem (entrySegs all) = target
  cut : ∃ need, Cut size need 0 (packetLens all)
  twice : someTwice all = goal

theorem SegAt.free (h : SegAt c mem srcRefs refs srcObjs objs cist st D packets es k os) :
    Returns (pvbufFree c cist.paddr.levels cist.paddr) st fun _ _ => True := by
  obtain ⟨hsegs, hobjs⟩ := h.paddr_eq
  obtain ⟨levels, hwf⟩ := h.wf
  have hcounted : Counted c (segRefs cist.paddr.segs ++ []) (cist.paddr.objs ++ []) := by
    rw [List.append_nil, List.append_nil]
    constructor
    · intro r hr
      rw [hsegs] at hr
      refine ⟨?_, h.books.range r (List.mem_append_right _ (List.mem_append_left _ hr))⟩
      obtain ⟨s, hs, hmem⟩ := List.mem_flatMap.mp hr
      cases s with
      | pbuf a =>
        rw [List.mem_singleton.mp hmem]
        exact h.counted a hs
      | short a => cases hmem
      | long a b => cases hmem
    · intro o ho
      refine h.books.index_lt (List.mem_append_right _ ?_)
      rw [← List.append_assoc, ← List.cons_append]
      exact List.mem_append_left _ (hobjs.mem_iff.mp ho)
  refine (pvbufFree_ledger (Counted.ledger c) (Nat.le_refl _) hwf.levels.shape hcounted).mono ?_
  exact fun _ _ _ => trivial

theorem SegInv.segmented {t : Iter IterSegment} {depth : Nat} {pv : Pvbuf}
    (h : SegInv c mem refs pv.objs objs st0 target length size only goal t.pvbuf.segs [] t.priv st)
    (hwf : Wf depth t.pvbuf) (hobj : t.pvbuf.obj = pv.obj) (hobjs : t.pvbuf.objs = pv.objs)
    (halike : List.Forall₂ Alike pv.segs t.pvbuf.segs) :
    ∃ all, SegmentedFrom c mem refs objs depth pv st0 target size goal t.pvbuf t.priv.clone_iter.paddr st
      all ∧ target.length + t.priv.clone_iter.length = length := by
  obtain ⟨⟨-, hmem⟩, hset, all, ⟨D, packets, es, k, os, hat, rfl, -⟩, hsum⟩ := h
  obtain ⟨hsegs, hperm⟩ := hat.paddr_eq
  have hbytes : segBytes st0.mgr.mem (entrySegs (packets ++ es)) = target := by
    rw [← hsum.bytes]
    simp
  refine ⟨packets ++ es, ⟨hwf, hobj, halike, hmem, hat.vec, hat.wf, ?_, hbytes, ?_, ?_⟩, ?_⟩
  · have hbooks := hat.books
    rw [List.append_nil] at hbooks
    rw [hsegs, hobjs]
    refine hbooks.perm (.refl _) (.append_left _ ?_)
    rw [← List.append_assoc, ← List.cons_append]
    exact (hperm.append_right objs).symm
  · have hcut := hsum.cut
    rw [hset.segment_length] at hcut
    exact ⟨_, by simpa using hcut⟩
  · have htwice := hsum.twice
    rwa [longAlone, Bool.and_false, Bool.or_false] at htwice
  · rw [← hsum.total, ← hbytes, length_segBytes]

theorem iterateIovec_segment_spec (hwf : Wf depth pv) (hn : depth ≤ n)
    (hnew : Slots new (List.replicate new.num .null))
    (hbooks : Books c mem st.mgr (segRefs pv.segs ++ refs) (pv.objs ++ (new.obj :: objs)))
    (hpos : 0 < size) (hcb : IdleCb cb) (hlist : list_size < 16) :
    Returns (iterateIovec c (iterateSegmentPvbuf c) n pv
        { clone_iter := { length := length, offset := offset, pvbuf := new }
          segment_length := size
          pvbuf_list_size := list_size
          cb := cb
          pvbufs_only := cb.isSome }) st fun t st' =>
      Wf depth t.pvbuf ∧ t.pvbuf.obj = pv.obj ∧ t.pvbuf.objs = pv.objs ∧
      List.Forall₂ Alike pv.segs t.pvbuf.segs ∧
      SegEnd c mem refs pv.objs objs st (((pv.contents st.mgr.mem).drop offset).take length) length size
        cb.isSome (!cb.isSome && longAlone size 0 offset length pv.segs) t.pvbuf.segs t.priv st' := by
  have hstart : SegInv c mem refs pv.objs objs st
      (((pv.contents st.mgr.mem).drop offset).take length) length size cb.isSome
      (!cb.isSome && longAlone size 0 offset length pv.segs) [] (pv.segs ++ [])
      { clone_iter := { length := length, offset := offset, pvbuf := new }
        segment_length := size
        pvbuf_list_size := list_size
        cb := cb
        pvbufs_only := cb.isSome } st := by
    have hseven := new.le_num
    refine ⟨⟨rfl, rfl⟩, ⟨rfl, rfl, hcb, hlist, rfl⟩, [], ⟨0, [], [], new.num, [], ⟨?_, rfl, by omega,
      by simp, ⟨rfl, rfl⟩, by simp, ?_⟩, rfl, fun hne => (hne rfl).elim⟩, ⟨?_, ?_, .nil _ _, ?_⟩⟩
    · simpa using hnew
    · simpa using hbooks
    · simp [PvbufOf.contents]
    · simp [segsLen]
    · simp [someTwice, segsLen]
  refine (iterateIovec_rule (iterateSegmentPvbuf_spec hpos) hn hwf
    (fun o ho => hbooks.index_lt (List.mem_append_left _ ho)) hstart).mono ?_
  intro t st' ht
  refine ⟨ht.wf, ht.obj, ht.objs, ht.alike, ?_⟩
  cases hcont : t.cont with
  | true => exact .inr (by simpa using ht.next hcont)
  | false => simpa using ht.last hcont

theorem toInt_ssize (N : Nat) : (0 ≤ (BitVec.ofNat 64 N).toInt → (BitVec.ofNat 64 N).toInt.toNat = N % 2 ^ 64 ∧
    N % 2 ^ 64 < 2 ^ 63) ∧ (N < 2 ^ 63 → 0 ≤ (BitVec.ofNat 64 N).toInt) := by
  rw [BitVec.toInt_eq_toNat_cond, BitVec.toNat_ofNat]
  split <;> omega

theorem pvpktSegmentIter_spec (hwf : Wf depth pv) (hn : depth ≤ n)
    (hnew : Slots new (List.replicate new.num .null))
    (hbooks : Books c mem st.mgr (segRefs pv.segs ++ refs) (pv.objs ++ (new.obj :: objs)))
    (hpos : 0 < size) (hcb : IdleCb cb) (hdiv : size % 2 ^ 32 ≠ 0)
    (htarget : target = ((pv.contents st.mgr.mem).drop offset).take length) :
    Returns (pvpktSegmentIter c n pv
        { clone_iter := { length := length, offset := offset, pvbuf := new }
          segment_length := size
          cb := cb
          pvbufs_only := cb.isSome }) st fun r st' =>
      (r.2 < 0 ∧ Returns (pvbufFree c r.1.priv.clone_iter.paddr.levels r.1.priv.clone_iter.paddr) st'
        fun _ _ => True) ∨
      (¬ r.2 < 0 ∧ r.2.toNat = target.length % 2 ^ 64 ∧ target.length % 2 ^ 64 < 2 ^ 63 ∧ ∃ all,
        SegmentedFrom c mem refs objs depth pv st target size
          (!cb.isSome && longAlone size 0 offset length pv.segs) r.1.pvbuf r.1.priv.clone_iter.paddr st'
          all) := by
  rw [pvpktSegmentIter, if_neg (Nat.ne_of_gt hpos), roundUpDiv, if_neg hdiv]
  refine .step rfl ?_
  refine (iterateIovec_segment_spec hwf hn hnew hbooks hpos hcb
    (Nat.lt_of_le_of_lt (Nat.min_le_right _ 15) (by decide))).bind ?_
  rintro t st' ⟨hwf', hobj, hobjs, halike, ⟨-, herr, _, _, _, _, _, hat⟩ | hinv⟩
  · rw [segmentEnd, herr, if_pos rfl]
    exact .pure (.inl ⟨(by decide : enomem < 0), hat.free⟩)
  · rw [← htarget] at hinv
    obtain ⟨all, hseg, htotal⟩ := hinv.segmented hwf' hobj hobjs halike
    obtain ⟨-, hset, _, ⟨_, _, _, _, _, hat, -⟩, -⟩ := hinv
    have hret : length - t.priv.clone_iter.length = target.length := by omega
    rw [segmentEnd, hset.error, if_neg (by decide)]
    refine .step (closePacket_run hset.cb st') ?_
    dsimp only
    rw [if_neg (by decide), hret]
    obtain ⟨hnonneg, -⟩ := toInt_ssize target.length
    rcases Int.lt_or_le (BitVec.ofNat 64 target.length).toInt 0 with hneg | hge
    · exact .pure (.inl ⟨hneg, hat.free⟩)
    · obtain ⟨heq, hlt⟩ := hnonneg hge
      exact .pure (.inr ⟨Int.not_lt.mpr hge, heq, hlt, all, hseg⟩)

theorem SegmentedFrom.of_eq
    (h : SegmentedFrom c mem refs objs depth pv st1 target size goal pv' vector st all)
    (hmem : st1.mgr.mem = st0.mgr.mem) :
    SegmentedFrom c mem refs objs depth pv st0 target size goal pv' vector st all :=
  { h with
    mem_eq := h.mem_eq.trans hmem
    bytes := by rw [← hmem]; exact h.bytes }

/-- What the two functions do: no vector is returned, or one with the packets, together with their number of
bytes as far as an `ssize_t` has it. -/
theorem pvpktSegmentWith_spec (hwf : Wf depth pv) (hn : depth ≤ n)
    (hbooks : Books c mem st.mgr (segRefs pv.segs ++ refs) (pv.objs ++ objs)) (hpos : 0 < size)
    (hcb : IdleCb cb) (hdiv : size % 2 ^ 32 ≠ 0) :
    Returns (pvpktSegmentWith c n cb pv offset length size) st fun r st' => r.2 = none ∨
      ∃ vector all, r.2 = some (vector,
          (((pv.contents st.mgr.mem).drop offset).take length).length % 2 ^ 64) ∧
        (((pv.contents st.mgr.mem).drop offset).take length).length % 2 ^ 64 < 2 ^ 63 ∧
        SegmentedFrom c mem refs objs depth pv st (((pv.contents st.mgr.mem).drop offset).take length) size
          (!cb.isSome && longAlone size 0 offset length pv.segs) r.1 vector st' all := by
  rw [pvpktSegmentWith]
  refine (pvbufGetSize_books hbooks).bind ?_
  rintro pvbuf_size st1 ⟨hlt, -, hmem1, hbooks1⟩
  refine (pvbufAlloc_books hlt hbooks1).bind ?_
  rintro r st2 ⟨-, hmem2, ⟨rfl, -, -⟩ | ⟨new, rfl, -, hnew, hbooks2⟩⟩
  · exact .pure (.inl rfl)
  have hmem := hmem2.trans hmem1
  have hperm : (new.obj :: (pv.objs ++ objs)).Perm (pv.objs ++ (new.obj :: objs)) :=
    List.perm_middle.symm
  refine (pvpktSegmentIter_spec hwf hn hnew (hbooks2.perm (.refl _) hperm) hpos hcb hdiv rfl).bind ?_
  rintro ⟨t, ret⟩ st3 (⟨hneg, hfree⟩ | ⟨hge, heq, hlt, all, hseg⟩)
  · dsimp only
    rw [if_pos hneg]
    exact hfree.bind fun _ _ _ => .pure (.inl rfl)
  · dsimp only
    rw [if_neg hge]
    rw [hmem] at heq hlt hseg
    dsimp only at heq
    exact .pure (.inr ⟨_, all, by rw [heq], hlt, hseg.of_eq hmem⟩)

/-! ## The packets -/

/-- The call returns a well-formed packet vector and the number of bytes. The iterator sees one
iovec a packet, in order; the packets have the bytes asked for, `size` each but for the last, which
has at least one. The pvbuf keeps its contents, and both are held from then on. -/
def Segments (c : MgrConfig) (mem : Mem) (depth : Nat) (refs : List Ref) (objs : List (Nat × Nat))
    (pv : Pvbuf) (offset length size : Nat) (st : PvSt) (run : PvM (Pvbuf × Option (Pvbuf × Nat))) : Prop :=
  Returns run st fun r st' => ∃ levels vector retlen, ∃ packets : List (List Seg),
    r.2 = some (vector, retlen) ∧ Wf levels vector ∧
    (∀ n, vector.levels ≤ n →
      (pvpktIterate c notePacket n vector []).run st' = .ok (packets.map some) st') ∧
    (packets.map (segBytes st'.mgr.mem)).flatten = ((pv.contents st.mgr.mem).drop offset).take length ∧
    (∀ p ∈ packets.dropLast, (segBytes st'.mgr.mem p).length = size) ∧
    (∀ p, packets.getLast? = some p →
      1 ≤ (segBytes st'.mgr.mem p).length ∧ (segBytes st'.mgr.mem p).length ≤ size) ∧
    retlen = (((pv.contents st.mgr.mem).drop offset).take length).length ∧
    Wf depth r.1 ∧ r.1.obj = pv.obj ∧ r.1.contents st'.mgr.mem = pv.contents st.mgr.mem ∧
    Books c mem st'.mgr (segRefs r.1.segs ++ (segRefs vector.segs ++ refs))
      (r.1.objs ++ (vector.objs ++ objs))

theorem SegmentedFrom.iterate
    (h : SegmentedFrom c mem refs objs depth pv st0 target size goal pv' vector st all)
    (hn : vector.levels ≤ n) :
    (pvpktIterate c notePacket n vector []).run st = .ok (notes all) st := by
  obtain ⟨all', hvec, hnotes⟩ := h.vec
  rw [← hnotes]
  refine hvec.iterate (fun o ho => h.books.index_lt ?_) hn st
  exact List.mem_append_right _ (List.mem_append_left _ ho)

theorem segBytes_entrySegs (m : Mem) (all : List IovEntry) :
    segBytes m (entrySegs all) = ((all.map IovEntry.segs).map (segBytes m)).flatten := by
  induction all with
  | nil => rfl
  | cons e all ih =>
    rw [entrySegs_cons, segBytes_append, ih]
    rfl

theorem SegmentedFrom.segments
    (h : SegmentedFrom c mem refs objs depth pv st0 (((pv.contents st0.mgr.mem).drop offset).take length)
      size false r.1 vector st all)
    (hpos : 0 < size)
    (hr : r.2 = some (vector, (((pv.contents st0.mgr.mem).drop offset).take length).length))
    (hrun : run.run st0 = .ok r st) :
    Segments c mem depth refs objs pv offset length size st0 run := by
  obtain ⟨levels, hvector⟩ := h.wf_vector
  obtain ⟨need, hcut⟩ := h.cut
  have hlens : packetLens all = (all.map IovEntry.segs).map fun p => (segBytes st.mgr.mem p).length := by
    simp [packetLens]
  have hgap : ∀ e ∈ all, e ≠ .gap := by
    rintro e he rfl
    have hzero : segsLen (IovEntry.gap).segs ∈ packetLens all := List.mem_map.mpr ⟨_, he, rfl⟩
    exact Nat.lt_irrefl 0 (hcut.pos hpos _ hzero)
  obtain ⟨hfront, hlast⟩ := hcut.done
  rw [hlens, ← List.map_dropLast] at hfront
  rw [hlens, List.getLast?_map] at hlast
  refine ⟨r, st, hrun, levels, vector, _, all.map IovEntry.segs, hr, hvector, fun n hn => ?_, ?_,
    fun p hp => hfront _ (List.mem_map_of_mem hp), fun p hp => hlast _ (by rw [hp]; rfl), rfl, h.wf, h.obj,
    ?_, h.books⟩
  · rw [h.iterate hn, notes_of_once hgap h.twice]
  · rw [← h.bytes, h.mem_eq, segBytes_entrySegs]
  · rw [PvbufOf.contents, h.mem_eq, segBytes_alike _ h.alike, PvbufOf.contents]

theorem pvpktSegmentWith_div
    (hbooks : Books c mem st.mgr (segRefs pv.segs ++ refs) (pv.objs ++ objs)) (hpos : 0 < size)
    (hdiv : size % 2 ^ 32 = 0)
    (hrun : (pvpktSegmentWith c n cb pv offset length size).run st = .ok r st') : r.2 = none := by
  obtain ⟨pvbuf_size, st1, hsize, hlt, -, -, hbooks1⟩ := pvbufGetSize_books hbooks
  obtain ⟨new, st2, halloc, -, -, hnew⟩ := pvbufAlloc_books hlt hbooks1
  rw [pvpktSegmentWith, run_bind_ok hsize, run_bind_ok halloc] at hrun
  rcases hnew with ⟨rfl, -, -⟩ | ⟨new, rfl, -⟩
  · cases hrun
    rfl
  · dsimp only at hrun
    rw [pvpktSegmentIter, if_neg (Nat.ne_of_gt hpos), roundUpDiv, if_pos hdiv] at hrun
    cases hrun

/-- **A packet vector has the bytes asked for, in packets of the segment length, unless a long
address comes to be a packet by itself.** For every well-formed packet in a manager that keeps its
books, every offset, length and segment length, `__xdp2_pvpkt_segment` (no callback) and
`__xdp2_pvpkt_segment_cb` (a callback that returns zero) do what they are for, if the allocations
succeed, just if the segment length is not zero as an `unsigned int`, the number of bytes is no
negative `ssize_t`, and without a callback no part of a long address is a packet. -/
theorem segments_iff (hwf : Wf depth pv) (hn : depth ≤ n)
    (hbooks : Books c mem st.mgr (segRefs pv.segs ++ refs) (pv.objs ++ objs)) (hpos : 0 < size)
    (hcb : IdleCb cb)
    (halloc : (((pv.contents st.mgr.mem).drop offset).take length).length < 2 ^ 63 →
      ∀ pv' st', (pvpktSegmentWith c n cb pv offset length size).run st ≠ .ok (pv', none) st') :
    Segments c mem depth refs objs pv offset length size st
        (pvpktSegmentWith c n cb pv offset length size) ↔
      size % 2 ^ 32 ≠ 0 ∧ (((pv.contents st.mgr.mem).drop offset).take length).length < 2 ^ 63 ∧
        (cb.isSome = true ∨ longAlone size 0 offset length pv.segs = false) := by
  by_cases hdiv : size % 2 ^ 32 = 0
  · refine iff_of_false ?_ fun h => h.1 hdiv
    rintro ⟨r, st', hrun, -, vector, retlen, packets, hr, -⟩
    rw [pvpktSegmentWith_div hbooks hpos hdiv hrun] at hr
    cases hr
  have hspec : Returns (pvpktSegmentWith c n cb pv offset length size) st _ :=
    pvpktSegmentWith_spec hwf hn hbooks hpos hcb hdiv
  obtain ⟨⟨pv', r⟩, st', hrun, hr⟩ := hspec
  by_cases hlen : (((pv.contents st.mgr.mem).drop offset).take length).length < 2 ^ 63
  · rcases hr with hr | ⟨vector, all, hr, -, hseg⟩
    · obtain rfl : r = none := hr
      exact (halloc hlen _ _ hrun).elim
    obtain rfl : r = some (vector, _) := hr
    rw [Nat.mod_eq_of_lt (by omega)] at hrun
    replace hseg : SegmentedFrom c mem refs objs depth pv st _ size _ pv' vector st' all := hseg
    cases hgoal : !cb.isSome && longAlone size 0 offset length pv.segs with
    | false =>
      rw [hgoal] at hseg
      refine iff_of_true (hseg.segments (r := (pv', _)) hpos rfl hrun) ⟨hdiv, hlen, ?_⟩
      rcases Bool.and_eq_false_iff.mp hgoal with hsome | halone
      · exact .inl (by simpa using hsome)
      · exact .inr halone
    | true =>
      rw [hgoal] at hseg
      obtain ⟨hnone, halone⟩ := Bool.and_eq_true_iff.mp hgoal
      refine iff_of_false ?_ ?_
      · rintro ⟨r', st'', hrun', levels, vector', retlen, packets, hr', -, hiter, -⟩
        cases hrun.symm.trans hrun'
        obtain ⟨rfl, -⟩ := Prod.mk.inj (Option.some.inj hr')
        have hnotes := (hseg.iterate (Nat.le_refl _)).symm.trans (hiter _ (Nat.le_refl _))
        have hmem := none_mem_notes hseg.twice
        rw [(EStateM.Result.ok.inj hnotes).1] at hmem
        obtain ⟨p, -, hp⟩ := List.mem_map.mp hmem
        cases hp
      · rintro ⟨-, -, hsome | hfalse⟩
        · rw [hsome] at hnone
          cases hnone
        · rw [hfalse] at halone
          cases halone
  · refine iff_of_false ?_ fun h => hlen h.2.1
    rintro ⟨r', st'', hrun', levels, vector', retlen, packets, hr', -, -, -, -, -, hretlen, -⟩
    cases hrun.symm.trans hrun'
    rcases hr with hr | ⟨vector, all, hr, hlt, -⟩
    · cases hr'.symm.trans hr
    · have heq := (Prod.mk.inj (Option.some.inj (hr'.symm.trans hr))).2
      omega

/-- Four bytes in packets of two. -/
theorem segments_mixedPacket : Segments smallConfig smallState.mgr.mem 2 [] [] mixedPacket 0 4 2 smallState
    (pvpktSegmentWith smallConfig 2 none mixedPacket 0 4 2) := by
  refine (segments_iff mixedPacket_wf (Nat.le_refl 2) mixedPacket_owns.books (by decide)
    (fun _ hf => by cases hf) ?_).mpr ⟨by decide, by decide, .inr (by decide)⟩
  intro _ pv' st' hrun
  cases hrun

/-- The three bytes of the long address are a packet by themselves: the iterator sees the second word as
another packet. -/
theorem mixedPacket_not_segments : Wf 2 mixedPacket ∧
    Books smallConfig smallState.mgr.mem smallState.mgr (segRefs mixedPacket.segs ++ [])
      (mixedPacket.objs ++ []) ∧
    ∃ pv' vector st' s, (pvpktSegment smallConfig 2 mixedPacket 4 3 3).run smallState =
        .ok (pv', some (vector, 3)) st' ∧
      (pvpktIterate smallConfig notePacket 1 vector []).run st' = .ok [some [s], none] st' :=
  ⟨mixedPacket_wf, mixedPacket_owns.books, _, _, _, _, rfl, rfl⟩

end Xdp2
