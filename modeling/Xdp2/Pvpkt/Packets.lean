import Xdp2.Lib.Chunks
import Xdp2.Pvbuf.Append
import Xdp2.Pvbuf.CloneSpec
import Xdp2.Pvpkt.Vector

/-!
# The parts of a segmentation

What `__xdp2_pvpkt_iterate_segment_pvbuf` calls with a part of a leaf: a packet is started with it,
as it is or in a pvbuf, or it is appended to the packet under construction. `SegAt` is what there is
of the packet vector.
-/

namespace Xdp2

open BitWord StateError

/-! ## What there is -/

/-- A packet vector under construction: the chain ends with the packets `es` and `k` free slots, and has
`packets` and the objects `os` before its last pvbuf. The pvbufs of packets have at most `D` levels. -/
structure SegAt (c : MgrConfig) (mem : Mem) (srcRefs refs : List Ref) (srcObjs objs : List (Nat × Nat))
    (cist : IterClone) (st : PvSt) (D : Nat) (packets es : List IovEntry) (k : Nat)
    (os : List (Nat × Nat)) : Prop where
  slots : Slots cist.pvbuf (entrySlots (es ++ gaps k))
  index : (entrySlots es).length = cist.index
  room : 1 ≤ k
  ok : ∀ e ∈ es, e.Ok (Wf D)
  behind : Behind (Wf D) cist.outer packets os
  counted : ∀ a, .pbuf a ∈ entrySegs (packets ++ es) → a.one_ref = false
  books : Books c mem st.mgr (srcRefs ++ (segRefs (entrySegs (packets ++ es)) ++ refs))
    (srcObjs ++ (cist.pvbuf.obj :: (entryObjs es ++ (os ++ objs))))

theorem SegAt.perm (h : SegAt c mem srcRefs refs srcObjs objs cist st D packets es k os)
    (hp : srcRefs.Perm srcRefs') :
    SegAt c mem srcRefs' refs srcObjs objs cist st D packets es k os :=
  { h with books := h.books.perm (hp.append_right _) (.refl _) }

theorem SegAt.num_eq (h : SegAt c mem srcRefs refs srcObjs objs cist st D packets es k os) :
    cist.pvbuf.num = cist.index + k := by
  rw [← h.slots.length, ← h.index, entrySlots_append, entrySlots_gaps, List.length_append,
    List.length_replicate]

theorem SegAt.vec (h : SegAt c mem srcRefs refs srcObjs objs cist st D packets es k os) :
    ∃ all, Vec cist.paddr all ∧ notes all = notes (packets ++ es) := by
  obtain ⟨k, rfl⟩ := Nat.exists_eq_add_of_le' h.room
  have hcur : Vec cist.pvbuf (es ++ gaps k) := by
    refine .last ?_
    have hs := h.slots
    rw [gaps_succ', ← List.append_assoc] at hs
    exact hs
  obtain ⟨all, hall, hnotes⟩ := h.behind.vec hcur
  exact ⟨all, hall, by rw [hnotes]; simp⟩

theorem SegAt.wf (h : SegAt c mem srcRefs refs srcObjs objs cist st D packets es k os) :
    ∃ depth, Wf depth cist.paddr := by
  have hcur : Wf (D + 1) cist.pvbuf := by
    refine ⟨_, h.slots, fun e he => ?_⟩
    rcases List.mem_append.mp he with he | he
    · exact h.ok e he
    · exact forall_ok_gaps k e he
  exact ⟨_, (h.behind.toOuter _).wf trivial (fun _ => Wf.succ) hcur rfl⟩

theorem SegAt.paddr_eq (h : SegAt c mem srcRefs refs srcObjs objs cist st D packets es k os) :
    cist.paddr.segs = entrySegs (packets ++ es) ∧
      cist.paddr.objs.Perm (cist.pvbuf.obj :: (entryObjs es ++ os)) := by
  obtain ⟨hsegs, hobjs⟩ := (h.behind.toOuter 0).close cist.pvbuf
  rw [h.slots.segs_eq, entrySegs_append, entrySegs_gaps, List.append_nil, ← entrySegs_append] at hsegs
  refine ⟨hsegs, hobjs.trans ?_⟩
  rw [h.slots.objs_eq, entryObjs_append, entryObjs_gaps, List.append_nil, List.cons_append]

/-! ## The callback -/

theorem PvbufOf.set_get_self (pv : Pvbuf) (i : Nat) : pv.set i (pv.get i) = pv := by
  obtain ⟨size, index, map, iovec⟩ := pv
  have heq : iovec.set i (iovec.getD i .null) = iovec := by
    rcases Nat.lt_or_ge i iovec.length with hlt | hge
    · rw [List.getD_eq_getElem _ _ hlt, List.set_getElem_self]
    · exact List.set_eq_of_length_le hge
  rw [PvbufOf.set, PvbufOf.get, heq]

/-- The callbacks that leave the packet as it is and return zero. -/
def IdleCb (cb : Option (Iovec → PvM (Iovec × Int))) : Prop :=
  ∀ f, cb = some f → ∀ x st, (f x).run st = .ok (x, 0) st

theorem closePacket_run (hcb : IdleCb ist.cb) (st : PvSt) :
    (closePacket ist).run st = .ok (ist, true) st := by
  rw [closePacket]
  split
  · rw [iterateDoCb]
    split
    · rfl
    · rename_i f hf
      rw [run_bind_ok (hcb f hf _ st)]
      dsimp only
      rw [if_pos rfl, PvbufOf.set_get_self]
      rfl
  · rfl

/-! ## Room for a packet -/

/-- There is room for a packet and for the continuation, or another pvbuf is put at the end of the
chain. -/
theorem packetRoom_spec (hsize : ist.pvbuf_list_size < 16)
    (h : SegAt c mem srcRefs refs srcObjs objs ist.clone_iter st D packets es k os) :
    Returns (packetRoom ist b) st fun r st' => st'.out = st.out ∧ st'.mgr.mem = st.mgr.mem ∧
      ((r = ({ ist with clone_iter.error := true }, false) ∧
          SegAt c mem srcRefs refs srcObjs objs r.1.clone_iter st' D packets es k os) ∨
        ∃ pvbuf index outer packets' es' k' os',
          r = ({ ist with clone_iter := { ist.clone_iter with
            pvbuf := pvbuf, index := index, outer := outer } }, true) ∧
          SegAt c mem srcRefs refs srcObjs objs r.1.clone_iter st' D packets' es' k' os' ∧
          2 + 2 * b.toNat ≤ k' ∧ packets' ++ es' = packets ++ es) := by
  have hnum : ist.clone_iter.num_iovecs = ist.clone_iter.index + k := h.num_eq
  have hb := Bool.toNat_le b
  rw [packetRoom]
  dsimp only
  by_cases hroom : ist.clone_iter.num_iovecs - (1 + b.toNat) - b.toNat ≤ ist.clone_iter.index
  · rw [if_pos hroom]
    obtain ⟨k, rfl⟩ := Nat.exists_eq_add_of_le' h.room
    refine (checkCloneAddIovec_spec hsize h.slots h.ok (h.behind.toOuter _) h.books).bind ?_
    rintro r st' ⟨hout, hmem, hr⟩
    rcases hr with ⟨rfl, -, hbooks⟩ | ⟨new, p, rfl, hobj, -, hnew, ⟨dl, hp, hdl⟩, -, hbooks⟩
    · exact .pure ⟨hout, hmem, .inl ⟨rfl, { h with books := hbooks }⟩⟩
    · obtain rfl := hdl rfl
      have hfree : 7 ≤ new.num := new.le_num
      refine .pure ⟨hout, hmem, .inr ⟨new, 0, p :: ist.clone_iter.outer, packets ++ es, [], new.num,
        ist.clone_iter.pvbuf.obj :: (entryObjs es ++ os), rfl, ?_, by omega, List.append_nil _⟩⟩
      refine ⟨by simpa using hnew, rfl, by omega, fun e he => (List.not_mem_nil he).elim, ?_, ?_, ?_⟩
      · exact ⟨es, k, new, packets, os, hp, h.ok, h.behind, rfl, by rw [hobj]⟩
      · rw [List.append_nil]
        exact h.counted
      · rw [List.append_nil]
        refine hbooks.perm (.refl _) (List.perm_iff_count.mpr fun o => ?_)
        simp only [entryObjs_nil, List.count_append, List.count_cons, List.count_nil]
        omega
  · rw [if_neg hroom]
    exact .pure ⟨rfl, rfl, .inr ⟨_, _, _, packets, es, k, os, rfl, h, by omega, rfl⟩⟩

/-! ## Starting a packet -/

/-- The part of a leaf that is put in. -/
def Seg.piece (s : Seg) (off size : Nat) : Seg := (s.addToOffset off).setLen size

theorem SegAt.add {e : IovEntry} {pvbuf : Pvbuf} {st' : PvSt} {D' k' index : Nat}
    (h : SegAt c mem srcRefs refs srcObjs objs cist st D packets es k os)
    (hs : Slots pvbuf (entrySlots (es ++ [e] ++ gaps k'))) (hobj : pvbuf.obj = cist.pvbuf.obj)
    (hk : 1 ≤ k') (hindex : cist.index + e.slots.length = index) (hD : D ≤ D') (hok : e.Ok (Wf D'))
    (hcounted : ∀ a, .pbuf a ∈ e.segs → a.one_ref = false)
    (hbooks : Books c mem st'.mgr
      (segRefs e.segs ++ (srcRefs ++ (segRefs (entrySegs (packets ++ es)) ++ refs)))
      (e.objs ++ (srcObjs ++ (cist.pvbuf.obj :: (entryObjs es ++ (os ++ objs)))))) :
    SegAt c mem srcRefs refs srcObjs objs { cist with pvbuf := pvbuf, index := index } st' D' packets
      (es ++ [e]) k' os where
  slots := hs
  index := by rw [← hindex, ← h.index]; simp
  room := hk
  ok e' he' := by
    rcases List.mem_append.mp he' with he' | he'
    · exact (h.ok e' he').mono fun _ => Wf.mono hD
    · obtain rfl := List.mem_singleton.mp he'
      exact hok
  behind := h.behind.mono fun _ => Wf.mono hD
  counted a ha := by
    rw [← List.append_assoc, entrySegs_append, List.mem_append] at ha
    rcases ha with ha | ha
    · exact h.counted a ha
    · exact hcounted a (by simpa using ha)
  books := by
    rw [hobj]
    refine hbooks.perm (List.perm_iff_count.mpr fun r => ?_) (List.perm_iff_count.mpr fun o => ?_)
    · simp only [entrySegs_append, entrySegs_cons, entrySegs_nil, List.append_nil, segRefs_append,
        List.count_append]
      omega
    · simp only [entryObjs_append, entryObjs_cons, entryObjs_nil, List.append_nil, List.count_append,
        List.count_cons]
      omega

theorem putPaddr_spec (hpart : Part s off size)
    (h : SegAt c mem (s.refs ++ srcRefs) refs srcObjs objs ist.clone_iter st D packets es k os)
    (hk : 2 + 2 * s.isLong.toNat ≤ k) :
    Returns (putPaddr ist (s.addToOffset off) size) st fun r st' =>
      st'.out = st.out ∧ st'.mgr.mem = st.mgr.mem ∧ ∃ pvbuf index k',
        r = ({ ist with clone_iter := { ist.clone_iter with pvbuf := pvbuf, index := index } }, some size) ∧
        SegAt c mem (s.refs ++ srcRefs) refs srcObjs objs r.1.clone_iter st' D packets
          (es ++ [.seg (s.piece off size)]) k' os := by
  have hlong : (s.addToOffset off).paddr1.isLongAddr = s.isLong := s.isLongAddr_addToOffset off
  obtain ⟨k, rfl⟩ : ∃ k', k = 1 + s.isLong.toNat + k' := ⟨k - (1 + s.isLong.toNat), by omega⟩
  have hslots := h.slots
  rw [entrySlots_append, entrySlots_gaps, ← List.replicate_append_replicate, ← hlong] at hslots
  have hbooks := h.books
  rw [List.append_assoc, ← hpart.refs] at hbooks
  refine (iovecSetPaddrEntAndBumpRefcnt_spec hpart.one_ref hpart.takes hslots h.index hbooks).bind ?_
  rintro pvbuf st' ⟨hobj, hslots', hout, hmem, hbooks'⟩
  refine .pure ⟨hout, hmem, pvbuf, _, k, rfl, h.add ?_ hobj (by omega) ?_ (Nat.le_refl D)
    hpart.trim.fits ?_ ?_⟩
  · simpa [Seg.piece] using hslots'
  · rw [Seg.piece, hpart.trim.slots, Seg.slots_length, hlong, Seg.isLong]
  · intro a ha
    exact hpart.counted a (List.mem_singleton.mp ha).symm
  · rw [hpart.refs] at hbooks'
    simpa [IovEntry.segs, IovEntry.objs, Seg.piece, hpart.trim.refs] using hbooks'

theorem putPvbuf_spec (hpart : Part s off size) (hle : size ≤ s.len)
    (h : SegAt c mem (s.refs ++ srcRefs) refs srcObjs objs ist.clone_iter st D packets es k os)
    (hk : 2 ≤ k) :
    Returns (putPvbuf c ist (s.addToOffset off) size) st fun r st' =>
      st'.out = st.out ∧ st'.mgr.mem = st.mgr.mem ∧
      ((r = ({ ist with clone_iter.error := true }, none) ∧
          SegAt c mem (s.refs ++ srcRefs) refs srcObjs objs r.1.clone_iter st' D packets es k os) ∨
        ∃ pvbuf index k' dl sub,
          r = ({ ist with
            packet_need_length := min ist.segment_length ist.clone_iter.length - size
            clone_iter := { ist.clone_iter with pvbuf := pvbuf, index := index } }, some size) ∧
          SegAt c mem (s.refs ++ srcRefs) refs srcObjs objs r.1.clone_iter st' (D + 1) packets
            (es ++ [.sub dl sub]) k' os ∧ sub.segs = [s.piece off size]) := by
  have hlong : (s.addToOffset off).paddr1.isLongAddr = s.isLong := s.isLongAddr_addToOffset off
  rw [putPvbuf]
  refine (pvbufGetSize_books h.books).bind ?_
  rintro pvbuf_size st1 ⟨hsize, hout1, hmem1, hbooks1⟩
  refine (pvbufAlloc_books hsize hbooks1).bind ?_
  rintro r st2 ⟨hout2, hmem2, ⟨rfl, -, hbooks2⟩ | ⟨new, rfl, -, hnew, hbooks2⟩⟩
  · exact .pure ⟨hout2.trans hout1, hmem2.trans hmem1, .inl ⟨rfl, { h with books := hbooks2 }⟩⟩
  dsimp only
  have hnum := new.le_num
  have hb := Bool.toNat_le s.isLong
  obtain ⟨k1, hk1⟩ : ∃ k1, new.num = 2 + (1 + s.isLong.toNat + k1) :=
    ⟨new.num - (3 + s.isLong.toNat), by omega⟩
  rw [hk1, ← List.replicate_append_replicate, ← List.replicate_append_replicate, ← hlong] at hnew
  rw [List.append_assoc, ← hpart.refs] at hbooks2
  refine (iovecSetPaddrEntAndBumpRefcnt_spec hpart.one_ref hpart.takes hnew List.length_replicate
    hbooks2).bind ?_
  rintro sub st3 ⟨hobj, hslots, hout3, hmem3, hbooks3⟩
  obtain ⟨k, rfl⟩ := Nat.exists_eq_add_of_le' hk
  have hs := h.slots
  rw [entrySlots_append, gaps_succ, entrySlots_cons] at hs
  have hlen : size < pvbufMaxLen := Nat.lt_of_le_of_lt hle s.len_lt
  refine ((iovecSetPvbufEnt_outcome hs h.index 0 sub .null st3).returns
    fun e he => Nat.not_lt_of_le he.1 hlen).bind ?_
  rintro pvbuf st4 ⟨rfl, hobj', -, hs'⟩
  have hsub : Slots sub (entrySlots (gaps 2 ++ [.seg (s.piece off size)] ++ gaps k1)) := by
    simpa [Seg.piece] using hslots
  have hsegs : sub.segs = [s.piece off size] := by
    rw [hsub.segs_eq]
    simp [IovEntry.segs]
  have hobjs : sub.objs = [new.obj] := by
    rw [hsub.objs_eq, hobj]
    simp [IovEntry.objs]
  refine .pure ⟨hout3.trans (hout2.trans hout1), hmem3.trans (hmem2.trans hmem1), .inr
    ⟨pvbuf, _, k + 1, BitVec.ofNat 32 size, sub, rfl, h.add ?_ hobj' (by omega) rfl (Nat.le_succ D) ?_ ?_ ?_,
      hsegs⟩⟩
  · simpa [IovEntry.slots] using hs'
  · have hwf : Wf 1 sub := by
      refine ⟨_, hsub, fun e he => ?_⟩
      rcases List.mem_append.mp he with he | he
      · rcases List.mem_append.mp he with he | he
        · exact forall_ok_gaps 2 e he
        · obtain rfl := List.mem_singleton.mp he
          exact hpart.trim.fits
      · exact forall_ok_gaps k1 e he
    refine ⟨hwf.mono (Nat.le_add_left 1 D), .inr ?_⟩
    have hlt : size < 2 ^ 32 := hlen
    rw [hsegs, BitVec.toNat_ofNat, Nat.mod_eq_of_lt hlt]
    simp [segsLen, Seg.piece, hpart.trim.len]
  · intro a ha
    have ha : Seg.pbuf a ∈ sub.segs := ha
    rw [hsegs] at ha
    exact hpart.counted a (List.mem_singleton.mp ha).symm
  · rw [hpart.refs] at hbooks3
    simpa [IovEntry.segs, IovEntry.objs, hsegs, hobjs, Seg.piece, hpart.trim.refs] using hbooks3

/-! ## Going on with a packet -/

theorem SegAt.get_last
    (h : SegAt c mem srcRefs refs srcObjs objs cist st D packets (es ++ [.sub dl sub]) k os) :
    Slots cist.pvbuf (entrySlots es ++ .pvbuf dl sub :: List.replicate k .null) ∧
      (entrySlots es).length = cist.index - 1 := by
  refine ⟨by simpa [IovEntry.slots] using h.slots, ?_⟩
  rw [← h.index, entrySlots_append, List.length_append]
  rfl

theorem SegAt.swap
    (h : SegAt c mem srcRefs refs srcObjs objs cist st D packets (es ++ [.sub dl sub]) k os)
    (hD : D ≤ D') (hok : (IovEntry.sub dl' sub').Ok (Wf D'))
    (hcounted : ∀ a, .pbuf a ∈ sub'.segs → a.one_ref = false)
    (hbooks : Books c mem st'.mgr
      (srcRefs ++ (segRefs (entrySegs (packets ++ es) ++ sub'.segs) ++ refs))
      (sub'.objs ++ (srcObjs ++ (cist.pvbuf.obj :: (entryObjs es ++ (os ++ objs)))))) :
    SegAt c mem srcRefs refs srcObjs objs
      { cist with pvbuf := cist.pvbuf.set (cist.index - 1) (.pvbuf dl' sub') } st' D' packets
      (es ++ [.sub dl' sub']) k os where
  slots := by
    obtain ⟨hs, hi⟩ := h.get_last
    simpa [IovEntry.slots] using hs.set (y := .pvbuf dl' sub') hi rfl
  index := by
    rw [← h.index]
    simp [IovEntry.slots]
  room := h.room
  ok e he := by
    rcases List.mem_append.mp he with he | he
    · exact (h.ok e (List.mem_append_left _ he)).mono fun _ => Wf.mono hD
    · obtain rfl := List.mem_singleton.mp he
      exact hok
  behind := h.behind.mono fun _ => Wf.mono hD
  counted a ha := by
    rw [← List.append_assoc, entrySegs_append, List.mem_append] at ha
    rcases ha with ha | ha
    · refine h.counted a ?_
      rw [← List.append_assoc, entrySegs_append]
      exact List.mem_append_left _ ha
    · exact hcounted a (by simpa [IovEntry.segs] using ha)
  books := by
    refine hbooks.perm (List.perm_iff_count.mpr fun r => ?_) (List.perm_iff_count.mpr fun o => ?_)
    · simp only [entrySegs_append, entrySegs_cons, entrySegs_nil, IovEntry.segs, List.append_nil,
        segRefs_append, List.count_append]
      omega
    · simp only [entryObjs_append, entryObjs_cons, entryObjs_nil, IovEntry.objs, PvbufOf.obj_set,
        List.append_nil, List.count_append, List.count_cons]
      omega

theorem addLen_eq (sub : Pvbuf) (size : Nat) (h : dl = 0 ∨ dl.toNat = n) :
    ∃ dl', (Iovec.pvbuf dl sub).addLen size = .pvbuf dl' sub ∧ (dl' = 0 ∨ dl'.toNat = n + size) := by
  rw [Iovec.addLen]
  split
  · rename_i hzero
    exact ⟨dl, rfl, .inl hzero⟩
  · rename_i hzero
    refine ⟨_, rfl, ?_⟩
    have hdl := h.resolve_left hzero
    split
    · rename_i hlt
      have hlt : size + dl.toNat < 2 ^ 32 := hlt
      right
      rw [BitVec.toNat_ofNat, Nat.mod_eq_of_lt hlt, hdl, Nat.add_comm]
    · exact .inl rfl

theorem fillPacket_spec (hsize : size = min ist.packet_need_length data_len)
    (hpart : Part s off size)
    (h : SegAt c mem (s.refs ++ srcRefs) refs srcObjs objs ist.clone_iter st D packets
      (es ++ [.sub dl sub]) k os) :
    Returns (fillPacket c ist (s.addToOffset off) data_len) st fun r st' =>
      st'.out = st.out ∧ st'.mgr.mem = st.mgr.mem ∧ ∃ D' pvbuf dl' sub',
      ((r = ({ ist with clone_iter := { ist.clone_iter with pvbuf := pvbuf, error := true } }, none) ∧
          SegAt c mem (s.refs ++ srcRefs) refs srcObjs objs r.1.clone_iter st' D' packets
            (es ++ [.sub dl' sub']) k os) ∨
        (r = ({ ist with
            packet_need_length := ist.packet_need_length - size
            clone_iter := { ist.clone_iter with pvbuf := pvbuf } }, some size) ∧
          SegAt c mem (s.refs ++ srcRefs) refs srcObjs objs r.1.clone_iter st' D' packets
            (es ++ [.sub dl' sub']) k os ∧ sub'.segs = sub.segs ++ [s.piece off size])) := by
  have hok : (IovEntry.sub dl sub).Ok (Wf D) := h.ok _ (by simp)
  obtain ⟨hs, hi⟩ := h.get_last
  have hcounted : ∀ a, .pbuf a ∈ sub.segs → a.one_ref = false := by
    refine fun a ha => h.counted a ?_
    simp [IovEntry.segs, ha]
  have hbooks : Books c mem st.mgr
      (s.refs ++ srcRefs ++ (segRefs (entrySegs (packets ++ es) ++ sub.segs) ++ refs))
      (sub.objs ++ (srcObjs ++ (ist.clone_iter.pvbuf.obj :: (entryObjs es ++ (os ++ objs))))) := by
    refine h.books.perm (List.perm_iff_count.mpr fun r => ?_) (List.perm_iff_count.mpr fun o => ?_)
    · simp only [entrySegs_append, entrySegs_cons, entrySegs_nil, IovEntry.segs, List.append_nil,
        segRefs_append, List.count_append]
      omega
    · simp only [entryObjs_append, entryObjs_cons, entryObjs_nil, IovEntry.objs, List.append_nil,
        List.count_append, List.count_cons]
      omega
  let arg : Arg := ⟨s.addToOffset off, size, hpart.trim.len, hpart.trim.fits⟩
  rw [fillPacket, ← hsize]
  dsimp only
  rw [hs.get_at hi]
  refine (appendPaddr_books arg (Nat.le_refl _) hok.1.levels hbooks).bind ?_
  rintro ⟨sub', ok⟩ st1 hr
  have hwf : Wf (D + sub.levels + 1) sub' := hr.wf.mono (by omega)
  have hsegs := hr.segs
  cases ok with
  | false =>
    have hsame : sub'.segs = sub.segs := by rw [hsegs]; exact List.append_nil _
    have hbooks1 := hr.books
    rw [← hsame] at hbooks1
    have hswap := h.swap (by omega) ⟨hwf, by rw [hsame]; exact hok.2⟩ (by rw [hsame]; exact hcounted)
      hbooks1
    exact .pure ⟨hr.out, hr.mem_eq, D + sub.levels + 1, _, dl, sub', .inl
      ⟨rfl, { hswap with books := hswap.books }⟩⟩
  | true =>
    have hsegs : sub'.segs = sub.segs ++ [s.piece off size] := hsegs
    have hlen : segsLen sub'.segs = segsLen sub.segs + size := by
      rw [hsegs, segsLen_append]
      simp [segsLen, Seg.piece, hpart.trim.len]
    have hbooks1 := hr.books
    rw [List.append_assoc, ← hpart.refs] at hbooks1
    refine (pvbufPaddrBumpRefcnt_spec hpart.one_ref hbooks1).bind ?_
    rintro - st2 ⟨hout2, hmem2, hbooks2⟩
    obtain ⟨dl', hdl, hcases⟩ := addLen_eq sub' size hok.2
    dsimp only
    rw [hdl]
    refine .pure ⟨hout2.trans hr.out, hmem2.trans hr.mem_eq, D + sub.levels + 1, _, dl', sub', .inr
      ⟨rfl, h.swap (by omega) ⟨hwf, by rw [hlen]; exact hcases⟩ ?_ ?_, hsegs⟩⟩
    · intro a ha
      rw [hsegs] at ha
      rcases List.mem_append.mp ha with ha | ha
      · exact hcounted a ha
      · exact hpart.counted a (List.mem_singleton.mp ha).symm
    · rw [hpart.refs] at hbooks2
      refine hbooks2.perm (List.perm_iff_count.mpr fun r => ?_) (.refl _)
      have hrefs : (s.piece off size).refs = s.refs := hpart.trim.refs
      simp only [hsegs, segRefs_append, segRefs_cons, segRefs_nil, hrefs, List.append_nil,
        List.count_append]
      omega

end Xdp2
