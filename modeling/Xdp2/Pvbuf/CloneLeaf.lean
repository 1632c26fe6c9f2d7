import Xdp2.Pvbuf.Iterate

/-!
# The parts of a clone

What a clone and a segmentation have in common: `__xdp2_pvbuf_iterate_iovec_clone_common` makes a
leaf ready to be referred to once more and moves its paddr to the offset, and
`__xdp2_check_clone_add_iovec` puts another pvbuf at the end of the chain. `Outer` is the chain
before its end, `Outer.close` what it comes to when it is put together.
-/

namespace Xdp2

open BitWord StateError

variable {s : Seg}

/-! ## Moving to an offset -/

theorem LongAddr.setOffset_self (a : LongAddr) (b : LongAddr2) :
    a.setOffset (a.offset b % 2 ^ 64) = a ∧ b.setOffset (a.offset b % 2 ^ 64) = b := by
  have hhigh := a.high_offset.isLt
  have hlow := b.low_offset.isLt
  have hoff := a.offset_eq b
  constructor
  · rw [LongAddr.setOffset, Nat.shiftRight_eq_div_pow]
    have hval : BitVec.ofNat 16 (a.offset b % 2 ^ 64 / 2 ^ 48) = a.high_offset := by
      apply BitVec.eq_of_toNat_eq
      rw [BitVec.toNat_ofNat]
      omega
    rw [hval]
  · rw [LongAddr2.setOffset, Nat.and_two_pow_sub_one_eq_mod]
    have hval : BitVec.ofNat 48 (a.offset b % 2 ^ 64 % 2 ^ 48) = b.low_offset := by
      apply BitVec.eq_of_toNat_eq
      rw [BitVec.toNat_ofNat]
      omega
    rw [hval]

theorem Seg.addToOffset_zero (s : Seg) : s.addToOffset 0 = s := by
  cases s with
  | pbuf a => simp [Seg.addToOffset]
  | short a => simp [Seg.addToOffset]
  | long a b => rw [Seg.addToOffset, Nat.add_zero, (a.setOffset_self b).1, (a.setOffset_self b).2]

theorem Seg.addToOffset_add (s : Seg) (m n : Nat) :
    (s.addToOffset m).addToOffset n = s.addToOffset (m + n) := by
  cases s with
  | pbuf a => simp only [Seg.addToOffset, BitVec.ofNat_add, BitVec.add_assoc]
  | short a => simp only [Seg.addToOffset, BitVec.ofNat_add, BitVec.add_assoc]
  | long a b =>
    have hlt : (a.offset b + m) % 2 ^ 64 < 2 ^ 64 := Nat.mod_lt _ (Nat.two_pow_pos 64)
    simp only [Seg.addToOffset]
    rw [LongAddr.offset_setOffset a b hlt, Nat.mod_add_mod, Nat.add_assoc]
    rfl

theorem Seg.isLongAddr_addToOffset (s : Seg) (n : Nat) :
    (s.addToOffset n).paddr1.isLongAddr = s.paddr1.isLongAddr := by
  cases s <;> rfl

theorem Seg.refs_addToOffset (hfit : s.Fits) (hn : n < s.len) :
    (s.addToOffset n).refs = s.refs := by
  cases s with
  | pbuf a => exact (Seg.dropFront_trim hfit hn).refs
  | short a => rfl
  | long a b => rfl

theorem Seg.len_setLen {len : Nat} (hlen : 0 < len) (hle : len ≤ s.len) : (s.setLen len).len = len := by
  cases s with
  | pbuf a =>
    have hlt := a.data_length.isLt
    have hfull := Bool.toNat_le a.isFull
    have hval : (BitVec.ofNat 20 len - BitVec.ofNat 20 a.isFull.toNat).toNat = len - a.isFull.toNat := by
      rw [Seg.len, PbufAddr.dataLen] at hle
      rw [BitVec.toNat_sub, BitVec.toNat_ofNat, BitVec.toNat_ofNat]
      omega
    show (BitVec.ofNat 20 len - BitVec.ofNat 20 a.isFull.toNat).toNat + a.isFull.toNat = len
    omega
  | short a =>
    have hlt := a.data_length.isLt
    rw [Seg.len, ShortAddr.dataLen] at hle
    show (BitVec.ofNat 18 (len - 1)).toNat + 1 = len
    rw [BitVec.toNat_ofNat]
    omega
  | long a b =>
    have hlt := a.data_length.isLt
    have hle : len ≤ a.data_length.toNat := hle
    show (BitVec.ofNat 32 len).toNat = len
    rw [BitVec.toNat_ofNat, Nat.mod_eq_of_lt (by omega)]

theorem Seg.addToOffset_trim {off len : Nat} (hfit : s.Fits) (hlen : 0 < len)
    (hle : off + len ≤ s.len) :
    (s.addToOffset off).Takes len ∧ Trim s off len ((s.addToOffset off).setLen len) := by
  have hsame : (s.addToOffset off).len = s.len := by cases s <;> rfl
  have hset : ((s.addToOffset off).setLen len).len = len :=
    Seg.len_setLen hlen (by rw [hsame]; omega)
  have htrim := Seg.dropFront_trim (n := off) hfit (by omega)
  refine ⟨Seg.takes_of_len_eq hset, ?_, ?_, hset, ?_, ?_, ?_⟩
  · intro mem
    cases s <;> rfl
  · rw [← htrim.offset]
    cases s <;> rfl
  · rw [← htrim.refs]
    cases s <;> rfl
  · -- it ends where the rest of the leaf ends, or before
    have hfits := htrim.fits
    have hrest := htrim.len
    cases s with
    | pbuf a =>
      refine Nat.le_trans (Nat.add_le_add_left ?_ _) hfits
      exact (Nat.le_of_eq hset).trans ((Nat.le_sub_of_add_le (by omega)).trans (Nat.le_of_eq hrest.symm))
    | short a =>
      refine Nat.le_trans (Nat.add_le_add_left ?_ _) hfits
      exact (Nat.le_of_eq hset).trans ((Nat.le_sub_of_add_le (by omega)).trans (Nat.le_of_eq hrest.symm))
    | long a b =>
      refine Nat.le_trans (Nat.add_le_add_left ?_ _) hfits
      exact (Nat.le_of_eq hset).trans ((Nat.le_sub_of_add_le (by omega)).trans (Nat.le_of_eq hrest.symm))
  · cases s <;> rfl

/-! ## A leaf made ready -/

theorem clonePaddr_run (h : Slots pv (l1 ++ ((IovEntry.seg s).slots ++ l2))) (hi : l1.length = i)
    (st : PvSt) : (clonePaddr pv i).run st = .ok s st := by
  cases s with
  | pbuf a => rw [clonePaddr, h.get_at (x := .pbuf a) hi]; rfl
  | short a => rw [clonePaddr, h.get_at (x := .short a) hi]; rfl
  | long a b =>
    rw [clonePaddr, h.get_at (x := .long a) hi, h.get_succ (x := .long a) (y := .long2 b) hi]; rfl

theorem convertOneRef_spec (h : Slots pv (l1 ++ ((IovEntry.seg s).slots ++ l2))) (hi : l1.length = i)
    (hbooks : Books c mem st.mgr (s.refs ++ refs) objs) :
    Returns (convertOneRef pv i) st fun pv' st' => pv'.obj = pv.obj ∧
      Slots pv' (l1 ++ ((IovEntry.seg s.counted).slots ++ l2)) ∧ st'.out = st.out ∧
      st'.mgr.mem = st.mgr.mem ∧ Books c mem st'.mgr (s.counted.refs ++ refs) objs := by
  rw [convertOneRef]
  cases s with
  | pbuf a =>
    rw [h.get_at (x := .pbuf a) hi]
    obtain ⟨one_ref, buffer_tag, offset, data_length⟩ := a
    cases one_ref with
    | false => exact .pure ⟨rfl, h, rfl, rfl, hbooks⟩
    | true =>
      obtain ⟨hzero, hbooks'⟩ := Books.convert hbooks
      refine .step (run_get st) (.step (assert_run (decide_eq_true hzero) _ st) ?_)
      refine .step (pbufBumpRefcnt_run rfl st) (.pure ⟨rfl, h.set hi rfl, rfl, rfl, hbooks'⟩)
  | short a =>
    rw [h.get_at (x := .short a) hi]
    exact .pure ⟨rfl, h, rfl, rfl, hbooks⟩
  | long a b =>
    rw [h.get_at (x := .long a) hi]
    exact .pure ⟨rfl, h, rfl, rfl, hbooks⟩

/-- What `__xdp2_pvbuf_iterate_iovec_clone_common` does with a leaf: it ends where nothing is left to
clone, it skips a leaf before the offset, else the leaf has a count and its paddr is that from the
offset on. -/
inductive CommonDone (c : MgrConfig) (mem : Mem) (refs : List Ref) (objs : List (Nat × Nat))
    (l1 l2 : List Iovec) (s : Seg) (pv : Pvbuf) (ist : IterClone) (st : PvSt) :
    Pvbuf × IterClone × CloneCommon → PvSt → Prop
  | abort (hlength : ist.length = 0) : CommonDone c mem refs objs l1 l2 s pv ist st (pv, ist, .abort) st
  | skip (hlength : ist.length ≠ 0) (hlen : s.len ≤ ist.offset) :
    CommonDone c mem refs objs l1 l2 s pv ist st
      (pv, { ist with offset := ist.offset - s.len }, .skip) st
  | paddr {pv' : Pvbuf} {st' : PvSt} (hlength : ist.length ≠ 0) (hlen : ist.offset < s.len)
      (hobj : pv'.obj = pv.obj) (hslots : Slots pv' (l1 ++ ((IovEntry.seg s.counted).slots ++ l2)))
      (hout : st'.out = st.out) (hmem : st'.mgr.mem = st.mgr.mem)
      (hbooks : Books c mem st'.mgr (s.counted.refs ++ refs) objs) :
    CommonDone c mem refs objs l1 l2 s pv ist st
      (pv', { ist with offset := 0 }, .paddr (s.counted.addToOffset ist.offset)
        (min ist.length (s.len - ist.offset))) st'

theorem iterateIovecCloneCommon_spec (h : Slots pv (l1 ++ ((IovEntry.seg s).slots ++ l2)))
    (hi : l1.length = i) (hbooks : Books c mem st.mgr (s.refs ++ refs) objs) :
    Returns (iterateIovecCloneCommon pv i ist) st
      (CommonDone c mem refs objs l1 l2 s pv ist st) := by
  rw [iterateIovecCloneCommon]
  by_cases hlength : ist.length = 0
  · rw [if_pos hlength]
    exact .pure (.abort hlength)
  · rw [if_neg hlength]
    have hnull := h.get_isNull nofun hi
    refine .step (assert_run (by rw [hnull]; rfl) _ st) (.step (clonePaddr_run h hi st) ?_)
    by_cases hskip : s.len ≤ ist.offset
    · have hdone : CommonDone c mem refs objs l1 l2 s pv ist st _ st := .skip hlength hskip
      by_cases hzero : s.len = 0
      · rw [if_pos hzero]
        rw [hzero] at hdone
        exact .pure hdone
      · rw [if_neg hzero, if_pos ⟨by omega, hskip⟩]
        exact .pure hdone
    · have hlt : ist.offset < s.len := Nat.lt_of_not_le hskip
      rw [if_neg (by omega), if_neg (by omega)]
      refine (convertOneRef_spec h hi hbooks).bind ?_
      rintro pv' st' ⟨hobj, hslots, hout, hmem, hbooks'⟩
      refine .step (clonePaddr_run hslots hi st') ?_
      have hdone := CommonDone.paddr hlength hlt hobj hslots hout hmem hbooks'
      split
      · exact .pure hdone
      · rename_i hoff
        have hoff : ist.offset = 0 := not_not.mp hoff
        have heq : ({ ist with offset := 0 } : IterClone) = ist := by rw [← hoff]
        rw [heq, hoff, Seg.addToOffset_zero] at hdone
        exact .pure hdone

/-! ## The chain -/

/-- The pvbufs before the end of a chain, from the end on, with the leaves and objects they hold
besides what comes behind; their sub-pvbufs are of `P`. `N` bytes are to come behind them: if
`exact` holds, the cached lengths are zero or say so. -/
def Outer (P : Pvbuf → Prop) (exact : Prop) :
    (N : Nat) → (outer : List Pvbuf) → List Seg → List (Nat × Nat) → Prop
  | _, [], segs, objs => segs = [] ∧ objs = []
  | N, p :: outer, segs, objs => ∃ es data_length sub segs' objs',
      Slots p (entrySlots (es ++ [.sub data_length sub])) ∧ (∀ e ∈ es, e.Ok P) ∧
      (exact → data_length = 0 ∨ data_length.toNat = N) ∧
      Outer P exact (segsLen (entrySegs es) + N) outer segs' objs' ∧
      segs = segs' ++ entrySegs es ∧ objs = p.obj :: (entryObjs es ++ objs')

theorem Slots.relink (h : Slots p (entrySlots (es ++ [.sub data_length sub]))) (cur : Pvbuf) :
    Slots (p.set (p.num - 1) ((p.get (p.num - 1)).relink cur))
      (entrySlots (es ++ [.sub data_length cur])) := by
  have hlen := h.length
  have hs : ∀ q, entrySlots (es ++ [.sub data_length q]) = entrySlots es ++ [.pvbuf data_length q] :=
    fun q => by simp [IovEntry.slots]
  rw [hs] at h hlen ⊢
  have hi : (entrySlots es).length = p.num - 1 := by
    rw [List.length_append, List.length_singleton] at hlen
    omega
  rw [h.get_at hi]
  exact h.set hi rfl

theorem Outer.close (h : Outer P exact N outer segs objs) (cur : Pvbuf) :
    (closeChain cur outer).segs = segs ++ cur.segs ∧
      (closeChain cur outer).objs.Perm (cur.objs ++ objs) := by
  induction outer generalizing N segs objs cur with
  | nil =>
    obtain ⟨rfl, rfl⟩ := h
    exact ⟨rfl, by rw [List.append_nil]; exact .refl _⟩
  | cons p outer ih =>
    obtain ⟨es, data_length, sub, segs', objs', hs, hes, -, houter, rfl, rfl⟩ := h
    have hs' := hs.relink cur
    obtain ⟨hsegs, hobjs⟩ := ih houter (p.set (p.num - 1) ((p.get (p.num - 1)).relink cur))
    rw [closeChain]
    constructor
    · rw [hsegs, hs'.segs_eq]
      simp [IovEntry.segs]
    · refine hobjs.trans ?_
      rw [hs'.objs_eq]
      refine List.perm_iff_count.mpr fun o => ?_
      simp only [entryObjs_append, entryObjs_cons, entryObjs_nil, IovEntry.objs, PvbufOf.obj_set,
        List.count_append, List.count_cons, List.count_nil]
      omega

theorem Outer.shape (h : Outer P exact N outer segs objs) (hP : ∀ q, P q → Shape depth q)
    (hcur : Shape depth cur) : Shape (depth + outer.length) (closeChain cur outer) := by
  induction outer generalizing N segs objs cur depth with
  | nil => exact hcur
  | cons p outer ih =>
    obtain ⟨es, data_length, sub, segs', objs', hs, hes, -, houter, rfl, rfl⟩ := h
    have hp : Shape (depth + 1) (p.set (p.num - 1) ((p.get (p.num - 1)).relink cur)) := by
      refine ⟨_, hs.relink cur, fun dl q hq => ?_⟩
      rcases List.mem_append.mp hq with hq | hq
      · exact hP q (hes _ hq).1
      · obtain ⟨rfl, rfl⟩ := IovEntry.sub.inj (List.mem_singleton.mp hq)
        exact hcur
    have hshape := ih houter (fun q hq => (hP q hq).succ) hp
    rwa [Nat.add_assoc, Nat.add_comm 1] at hshape

theorem Outer.wf (h : Outer P exact N outer segs objs) (hexact : exact) (hP : ∀ q, P q → Wf depth q)
    (hcur : Wf depth cur) (hN : segsLen cur.segs = N) :
    Wf (depth + outer.length) (closeChain cur outer) := by
  induction outer generalizing N segs objs cur depth with
  | nil => exact hcur
  | cons p outer ih =>
    obtain ⟨es, data_length, sub, segs', objs', hs, hes, hlen, houter, rfl, rfl⟩ := h
    have hs' := hs.relink cur
    have hp : Wf (depth + 1) (p.set (p.num - 1) ((p.get (p.num - 1)).relink cur)) := by
      refine ⟨_, hs', fun e he => ?_⟩
      rcases List.mem_append.mp he with he | he
      · exact (hes _ he).mono hP
      · obtain rfl := List.mem_singleton.mp he
        exact ⟨hcur, by rw [hN]; exact hlen hexact⟩
    have hbytes : segsLen (p.set (p.num - 1) ((p.get (p.num - 1)).relink cur)).segs =
        segsLen (entrySegs es) + N := by
      rw [hs'.segs_eq, entrySegs_append, segsLen_append, ← hN]
      simp [IovEntry.segs]
    have hwf := ih houter (fun q hq => (hP q hq).succ) hp hbytes
    rwa [Nat.add_assoc, Nat.add_comm 1] at hwf

theorem Outer.mono (hexact : exact' → exact) (h : Outer P exact N outer segs objs) :
    Outer P exact' N outer segs objs := by
  induction outer generalizing N segs objs with
  | nil => exact h
  | cons p outer ih =>
    obtain ⟨es, data_length, sub, segs', objs', hs, hes, hlen, houter, hsegs, hobjs⟩ := h
    exact ⟨es, data_length, sub, segs', objs', hs, hes, fun he => hlen (hexact he), ih houter, hsegs,
      hobjs⟩

/-- Another pvbuf is put at the end of a chain whose last pvbuf has a free last slot, or there is none
to be had. -/
theorem checkCloneAddIovec_spec (hsize : size < 16)
    (hs : Slots ist.pvbuf (entrySlots (es ++ gaps (k + 1)))) (hes : ∀ e ∈ es, e.Ok P)
    (houter : Outer P exact (segsLen (entrySegs es) + ist.length) ist.outer segs objs)
    (hbooks : Books c mem st.mgr refs objs') :
    Returns (checkCloneAddIovec ist set_length size) st fun r st' =>
      st'.out = st.out ∧ st'.mgr.mem = st.mgr.mem ∧
      ((r = ({ ist with error := true }, false) ∧ st'.mgr.pvbuf_free size = [] ∧
          Books c mem st'.mgr refs objs') ∨
        ∃ new p, r = ({ ist with index := 0, pvbuf := new, outer := p :: ist.outer }, true) ∧
          p.obj = ist.pvbuf.obj ∧ new.obj.1 = size ∧
          Slots new (List.replicate new.num .null) ∧
          (∃ dl, Slots p (entrySlots (es ++ gaps k ++ [.sub dl new])) ∧ (set_length = false → dl = 0)) ∧
          Outer P exact ist.length (p :: ist.outer) (segs ++ entrySegs es)
            (ist.pvbuf.obj :: (entryObjs es ++ objs)) ∧
          Books c mem st'.mgr refs (new.obj :: objs')) := by
  rw [checkCloneAddIovec]
  refine (pvbufAlloc_books hsize hbooks).bind ?_
  rintro r st' ⟨hout, hmem, ⟨rfl, hfree, hbooks'⟩ | ⟨new, rfl, hnew, hslots, hbooks'⟩⟩
  · exact .pure ⟨hout, hmem, .inl ⟨rfl, hfree, hbooks'⟩⟩
  · dsimp only
    obtain ⟨len, hlen⟩ : ∃ len, (if set_length = true ∧ ist.length < pvbufMaxLen then ist.length
      else 0) = len := ⟨_, rfl⟩
    have hcases : len < pvbufMaxLen ∧ (len = 0 ∨ len = ist.length) := by
      rw [← hlen]
      split
      · rename_i hset
        exact ⟨hset.2, .inr rfl⟩
      · exact ⟨by decide, .inl rfl⟩
    rw [hlen]
    have hnum := hs.length
    have hslot : entrySlots (es ++ gaps (k + 1)) = entrySlots (es ++ gaps k) ++ .null :: [] := by
      rw [gaps_succ']
      simp [IovEntry.slots]
    rw [hslot] at hs hnum
    rw [List.length_append, List.length_singleton] at hnum
    have hput : Outcome (iovecSetPvbufEnt ist.pvbuf (ist.num_iovecs - 1) new len) st' _ _ :=
      iovecSetPvbufEnt_outcome hs (by rw [IterClone.num_iovecs]; omega) 0 new .null st'
    refine (hput.returns fun e he => Nat.not_lt_of_le he.1 hcases.1).bind ?_
    rintro p st'' ⟨rfl, hobj, -, hp⟩
    have hp' : Slots p (entrySlots (es ++ gaps k ++ [.sub (BitVec.ofNat 32 len) new])) := by
      rw [entrySlots_append]
      exact hp
    have hzero : set_length = false → BitVec.ofNat 32 len = 0 := by
      rintro rfl
      rw [← hlen, if_neg fun h => Bool.false_ne_true h.1]
      rfl
    refine .pure ⟨hout, hmem, .inr ⟨new, p, rfl, hobj, hnew, hslots, ⟨_, hp', hzero⟩, ?_, hbooks'⟩⟩
    refine ⟨es ++ gaps k, BitVec.ofNat 32 len, new, segs, objs, hp', ?_, fun _ => ?_, ?_, ?_, ?_⟩
    · intro e he
      rcases List.mem_append.mp he with he | he
      · exact hes e he
      · exact forall_ok_gaps k e he
    · have hlt : len < 2 ^ 32 := hcases.1
      rcases hcases.2 with rfl | rfl
      · exact .inl rfl
      · exact .inr (by rw [BitVec.toNat_ofNat, Nat.mod_eq_of_lt hlt])
    · simpa using houter
    · simp
    · simp [hobj]

end Xdp2
