import Xdp2.Pvbuf.Alloc
import Xdp2.Pvbuf.Place

/-!
# What the allocators give

A pbuf comes off its free list with one referrer, and its paddr names it, but for a zero size at the
tail of the buffer (`pbufMakePaddr_spec`). `__xdp2_pvbuf_alloc_params` gives a well-formed pvbuf
with the bytes asked for, or frees what it has got (`pvbufAllocParams_spec`). `AllocFault` is where
an allocation does not return: an index refused by an assertion, no allocator, or a search that does
not end.
-/

namespace Xdp2

open StateError

variable {c : MgrConfig} {st : PvSt}

/-- Why an allocation does not return. -/
def AllocFault (c : MgrConfig) (e : Fault) : Prop :=
  (∃ label, e = .assertion label) ∨ e = .nullPtr ∨ e = .fuel ∧ c.pvbuf_max_objs 0 ≠ 0

/-! ## pbufs -/

/-- A pbuf comes off its free list. -/
def Mgr.popPbuf (m : Mgr) (one_ref : Bool) (btag zindex : Nat) (rest : List Nat) : Mgr :=
  { m with
    pbuf_free := fun b => if b = btag then rest else m.pbuf_free b
    refcnt := fun b z => if !one_ref ∧ b = btag ∧ z = zindex then 1 else m.refcnt b z }

theorem Owns.acquire (h : Owns c m.mem m refs objs) (hfree : m.pbuf_free b = z :: rest) :
    Owns c m.mem (m.popPbuf one_ref b z rest) (⟨b, z, one_ref⟩ :: refs) objs := by
  have hcount := h.pbufs b z
  rw [hfree, List.count_cons_self] at hcount
  have hz : z < c.pbuf_max_objs b ∧ ∀ k, ⟨b, z, k⟩ ∉ refs := by
    by_contra hnot
    rw [if_neg hnot] at hcount
    cases hcount
  rw [if_pos hz] at hcount
  obtain ⟨hlt, hnone⟩ := hz
  refine ⟨?_, ?_, ?_, ?_, h.pvbufs, rfl, rfl, fun _ _ _ _ => rfl⟩
  · intro b' z'
    show (if !one_ref ∧ b' = b ∧ z' = z then (1 : BitVec 32) else m.refcnt b' z').toNat = _
    by_cases hz : b' = b ∧ z' = z
    · obtain ⟨rfl, rfl⟩ := hz
      have hzero : refs.count ⟨b', z', false⟩ = 0 := List.count_eq_zero.mpr (hnone false)
      cases one_ref with
      | false => rw [if_pos ⟨rfl, rfl, rfl⟩, List.count_cons_self, hzero]; rfl
      | true =>
        rw [if_neg (by simp), h.refcnt, List.count_cons_of_ne (by simp)]
    · rw [if_neg fun hc => hz hc.2, h.refcnt, List.count_cons_of_ne]
      intro heq
      injection heq with hb hz' _
      exact hz ⟨hb.symm, hz'.symm⟩
  · intro b' z' hmem
    rcases List.mem_cons.mp hmem with heq | hmem
    · injection heq with hb hz hone
      subst hb hz hone
      rw [List.count_cons_self, List.count_eq_zero.mpr (hnone true)]
      exact ⟨rfl, by simpa using hnone false⟩
    · obtain ⟨hone, hnot⟩ := h.single b' z' hmem
      have hne : ∀ k, (⟨b, z, one_ref⟩ : Ref) ≠ ⟨b', z', k⟩ := by
        intro k heq
        injection heq with hb hz _
        subst hb hz
        exact hnone true hmem
      rw [List.count_cons_of_ne (hne true)]
      exact ⟨hone, fun hf => (List.mem_cons.mp hf).elim (fun heq => hne false heq.symm) hnot⟩
  · intro r hmem
    rcases List.mem_cons.mp hmem with rfl | hmem
    · exact hlt
    · exact h.range r hmem
  · intro b' z'
    show (if b' = b then rest else m.pbuf_free b').count z' = _
    by_cases hz : b' = b ∧ z' = z
    · obtain ⟨rfl, rfl⟩ := hz
      rw [if_pos rfl, if_neg fun hc => hc.2 one_ref List.mem_cons_self]
      omega
    · have hsame : (if b' = b then rest else m.pbuf_free b').count z' = (m.pbuf_free b').count z' := by
        by_cases hb : b' = b
        · subst hb
          rw [if_pos rfl, hfree, List.count_cons_of_ne fun heq => hz ⟨rfl, heq.symm⟩]
        · rw [if_neg hb]
      have hmem : ∀ k, (⟨b', z', k⟩ : Ref) ∉ (⟨b, z, one_ref⟩ :: refs : List Ref) ↔
          ⟨b', z', k⟩ ∉ refs := by
        intro k
        rw [List.mem_cons, not_or, and_iff_right]
        intro heq
        injection heq with hb hz' _
        exact hz ⟨hb, hz'⟩
      rw [hsame, h.pbufs]
      simp only [hmem]

theorem pbufObjAlloc_spec (btag : Nat) (h : Owns c st.mgr.mem st.mgr refs objs) :
    Returns (pbufObjAlloc c btag) st fun r st' => st'.out = st.out ∧ st'.mgr.mem = st.mgr.mem ∧
      ((r = none ∧ Owns c st.mgr.mem st'.mgr refs objs) ∨ ∃ zindex rest, r = some zindex ∧
        st.mgr.pbuf_free btag = zindex :: rest ∧
        Owns c st.mgr.mem st'.mgr (⟨btag, zindex, c.alloc_one_ref⟩ :: refs) objs) := by
  rw [pbufObjAlloc]
  refine .step (run_get st) ?_
  cases hfree : st.mgr.pbuf_free btag with
  | nil => exact .pure ⟨rfl, rfl, .inl ⟨rfl, h⟩⟩
  | cons zindex rest =>
    refine .step (run_set st _) (.pure ⟨rfl, rfl, .inr ⟨zindex, rest, rfl, rfl, ?_⟩⟩)
    exact h.acquire hfree

theorem PbufAddr.made {a : PbufAddr} {btag zindex offset : Nat} (hbtag : btag < 15)
    (hindex : zindex < 2 ^ (36 - (btag + 6))) (hlen : offset + length ≤ 2 ^ (btag + 6))
    (htag : a.buffer_tag = BitVec.ofNat 4 (if btag + 6 = 20 ∧ length = 2 ^ 20 then pbufNumSizeShifts else btag + 6 - 6))
    (hoffset : a.offset = BitVec.ofNat 36 (zindex <<< (btag + 6) ||| offset)) :
    a.btag = btag ∧ a.zindex = zindex ||| offset >>> (btag + 6) ∧
      (offset < 2 ^ (btag + 6) →
        (a.setLen length).dataLen = length ∧ (Seg.pbuf (a.setLen length)).Fits) := by
  have hfull : a.isFull = decide (btag + 6 = 20 ∧ length = 2 ^ 20) ∧ a.btag = btag := by
    rw [PbufAddr.btag, PbufAddr.isFull, htag]
    split
    · rename_i hc
      have hb : btag = 14 := by omega
      simp [hc, hb, pbufNumSizeShifts]
    · rename_i hc
      have hval : (BitVec.ofNat 4 (btag + 6 - 6)).toNat = btag := by
        rw [BitVec.toNat_ofNat]
        omega
      have hne : btag ≠ pbufNumSizeShifts := Nat.ne_of_lt hbtag
      rw [hval, decide_eq_false hne, decide_eq_false hc]
      exact ⟨rfl, rfl⟩
  obtain ⟨hfull, hb⟩ := hfull
  have hpow : 2 ^ (36 - (btag + 6)) * 2 ^ (btag + 6) = 2 ^ 36 := by
    rw [← Nat.pow_add]
    congr 1
    omega
  have hshift : a.sizeShift = btag + 6 := by rw [PbufAddr.sizeShift, hb]
  have hsize : 2 ^ (btag + 6) < 2 ^ 36 := Nat.pow_lt_pow_right (by decide) (by omega)
  have hval : a.offset.toNat = zindex <<< (btag + 6) ||| offset := by
    rw [hoffset, BitVec.toNat_ofNat, Nat.mod_eq_of_lt]
    refine Nat.or_lt_two_pow ?_ (by omega)
    rw [Nat.shiftLeft_eq, ← hpow]
    exact Nat.mul_lt_mul_of_pos_right hindex (Nat.two_pow_pos _)
  refine ⟨hb, ?_, fun hoff => ?_⟩
  · rw [PbufAddr.zindex, hshift, hval, Nat.shiftRight_or_distrib, Nat.shiftLeft_shiftRight]
  · have hdata : (a.setLen length).dataLen = length := by
      have hsize' : 2 ^ (btag + 6) ≤ 2 ^ 20 := Nat.pow_le_pow_right (by decide) (by omega)
      show (BitVec.ofNat 20 length - BitVec.ofNat 20 a.isFull.toNat).toNat + a.isFull.toNat = length
      rw [hfull, BitVec.toNat_sub, BitVec.toNat_ofNat, BitVec.toNat_ofNat]
      by_cases hc : btag + 6 = 20 ∧ length = 2 ^ 20
      · rw [decide_eq_true hc, Bool.toNat_true]
        omega
      · have hlt : length < 2 ^ 20 := by
          by_contra hge
          have hbig : 2 ^ 20 ≤ 2 ^ (btag + 6) := by omega
          have h20 : 20 ≤ btag + 6 := (Nat.pow_le_pow_iff_right (by decide)).mp hbig
          have heq : btag + 6 = 20 := by omega
          rw [heq] at hlen
          exact hc ⟨heq, by omega⟩
        rw [decide_eq_false hc, Bool.toNat_false]
        omega
    refine ⟨hdata, ?_⟩
    show a.offset.toNat % 2 ^ a.sizeShift + (a.setLen length).dataLen ≤ 2 ^ a.sizeShift
    rw [hdata, hshift, hval, ← Nat.shiftLeft_add_eq_or_of_lt hoff, Nat.shiftLeft_eq,
      Nat.mul_add_mod', Nat.mod_eq_of_lt hoff]
    exact hlen

/-- The paddr made of an index and an offset. Only an offset within the buffer leaves the index as it
is. -/
theorem pbufMakePaddr_spec {one_ref : Bool} {btag zindex offset : Nat} (hbtag : btag < 15) :
    Outcome (pbufMakePaddr one_ref (btag + 6) zindex offset length) st (fun a st' => st' = st ∧
      a.ref = ⟨btag, zindex ||| offset >>> (btag + 6), one_ref⟩ ∧
      (offset < 2 ^ (btag + 6) → (a.setLen length).dataLen = length ∧ (Seg.pbuf (a.setLen length)).Fits))
      (AllocFault c) := by
  rw [pbufMakePaddr]
  refine .step (assert_run (decide_eq_true (by omega)) _ st) ?_
  by_cases hindex : zindex < 2 ^ (36 - (btag + 6))
  swap
  · exact .inr ⟨_, _, run_bind_error (assert_fail (decide_eq_false hindex) _ st), .inl ⟨_, rfl⟩⟩
  refine .step (assert_run (decide_eq_true hindex) _ st) ?_
  by_cases hlen : offset + length ≤ 2 ^ (btag + 6)
  swap
  · exact .inr ⟨_, _, run_bind_error (assert_fail (decide_eq_false hlen) _ st), .inl ⟨_, rfl⟩⟩
  obtain ⟨hb, hz, hrest⟩ := PbufAddr.made (a := ⟨one_ref, _, _, 0⟩) hbtag hindex hlen rfl rfl
  refine .step (assert_run (decide_eq_true hlen) _ st) (.pure ⟨rfl, ?_, hrest⟩)
  exact congrArg₂ (Ref.mk · · one_ref) hb hz

theorem MgrConfig.pallocator_lt (h : c.pallocator btag = some i) : i < 15 :=
  List.mem_range.mp (List.mem_of_find?_eq_some h)

theorem index_or_offset (hle : offset ≤ 2 ^ s) (h : offset = 2 ^ s → zindex % 2 = 1) :
    zindex ||| offset >>> s = zindex := by
  rcases Nat.lt_or_eq_of_le hle with hlt | heq
  · rw [Nat.shiftRight_eq_div_pow, Nat.div_eq_of_lt hlt, Nat.or_zero]
  · rw [heq, Nat.shiftRight_eq_div_pow, Nat.div_self (Nat.two_pow_pos s)]
    have hodd := h heq
    apply Nat.eq_of_testBit_eq
    intro i
    rw [Nat.testBit_or]
    cases i with
    | zero => simp [Nat.testBit_zero, hodd]
    | succ i => simp [Nat.testBit_succ]

/-- The index at the head of the free list that `__xdp2_pbuf_alloc` takes from. -/
def nextZindex (c : MgrConfig) (st : PvSt) (size : Nat) : Option Nat :=
  (c.pallocator (pbufBufferTag size)).bind fun btag => (st.mgr.pbuf_free btag).head?

/-- What is given of pbufs: one that nobody else has, whose buffer, if it is given from its start on,
has room for the size, or none. -/
def PbufGiven (c : MgrConfig) (mem : Mem) (refs : List Ref) (objs : List (Nat × Nat)) (size : Nat)
    (tail_alloc : Bool) (m : Mgr) (r : Option PbufAddr) : Prop :=
  (r = none ∧ Owns c mem m refs objs) ∨
    ∃ a, r = some a ∧ Owns c mem m (a.ref :: refs) objs ∧ (∀ k, ⟨a.btag, a.zindex, k⟩ ∉ refs) ∧
      (tail_alloc = false → (a.setLen size).dataLen = size ∧ (Seg.pbuf (a.setLen size)).Fits)

theorem Owns.not_mem_of_free (h : Owns c mem m refs objs) (hfree : m.pbuf_free b = z :: rest)
    (k : Bool) : ⟨b, z, k⟩ ∉ refs := by
  intro hmem
  have hcount := h.pbufs b z
  rw [if_neg fun hc => hc.2 k hmem, hfree, List.count_cons_self] at hcount
  cases hcount

/-- **A pbuf allocated has one referrer, which names it**, unless it is a zero size at the tail of a
buffer with an even index. -/
theorem pbufAlloc_spec (h : Owns c st.mgr.mem st.mgr refs objs)
    (hsafe : tail_alloc = true → size = 0 → ∀ zindex, nextZindex c st size = some zindex →
      zindex % 2 = 1) :
    Outcome (pbufAlloc c size tail_alloc) st (fun r st' => st'.out = st.out ∧
      st'.mgr.mem = st.mgr.mem ∧ PbufGiven c st.mgr.mem refs objs size tail_alloc st'.mgr r)
      (AllocFault c) := by
  unfold pbufAlloc
  cases hentry : c.pallocator (pbufBufferTag size) with
  | none =>
    dsimp only
    split
    · exact .pure ⟨rfl, rfl, .inl ⟨rfl, h⟩⟩
    · exact .inr ⟨_, _, rfl, .inr (.inl rfl)⟩
  | some btag =>
    have hbtag := MgrConfig.pallocator_lt hentry
    dsimp only
    split
    · exact .pure ⟨rfl, rfl, .inl ⟨rfl, h⟩⟩
    · rename_i hsize
      refine (pbufObjAlloc_spec btag h).andThen ?_
      rintro r st1 ⟨hout, hmem, ⟨rfl, hown⟩ | ⟨zindex, rest, rfl, hfree, hown⟩⟩
      · exact .pure ⟨hout, hmem, .inl ⟨rfl, hown⟩⟩
      · refine (pbufMakePaddr_spec hbtag).bind ?_
        rintro a st' ⟨rfl, href, hroom⟩
        have hindex : zindex ||| (if tail_alloc = true then 2 ^ (btag + 6) - size else 0) >>> (btag + 6) =
            zindex := by
          refine index_or_offset (by split <;> omega) fun heq => ?_
          have hpos := Nat.two_pow_pos (btag + 6)
          split at heq
          · rename_i htail
            refine hsafe htail (by omega) zindex ?_
            rw [nextZindex, hentry, Option.bind_some, hfree]
            rfl
          · omega
        rw [hindex] at href
        have hbtag' : a.btag = btag := congrArg Ref.btag href
        have hzindex : a.zindex = zindex := congrArg Ref.zindex href
        refine .pure ⟨hout, hmem, .inr ⟨a, rfl, by rwa [href], fun k => ?_, fun htail => hroom ?_⟩⟩
        · rw [hbtag', hzindex]
          exact h.not_mem_of_free hfree k
        · rw [htail, if_neg Bool.false_ne_true]
          exact Nat.two_pow_pos _

/-! ## Empty pvbufs -/

/-- What is given of pvbufs: one with free slots, or none. -/
def PvbufGiven (c : MgrConfig) (mem : Mem) (refs : List Ref) (objs : List (Nat × Nat)) (st : PvSt)
    (r : Option Pvbuf) (st' : PvSt) : Prop :=
  st'.out = st.out ∧ st'.mgr.mem = st.mgr.mem ∧ ((r = none ∧ Owns c mem st'.mgr refs objs) ∨
    ∃ new, r = some new ∧ Slots new (List.replicate new.num .null) ∧
      Owns c mem st'.mgr refs (new.obj :: objs))

theorem MgrConfig.pvbufSizeBelow_le (c : MgrConfig) (size : Nat) : c.pvbufSizeBelow size ≤ size - 1 := by
  rw [MgrConfig.pvbufSizeBelow]
  cases hfind : (List.range size).reverse.find? fun i => c.pvbuf_max_objs i ≠ 0 with
  | none => exact Nat.zero_le _
  | some i =>
    have hmem := List.mem_range.mp (List.mem_reverse.mp (List.mem_of_find?_eq_some hfind))
    exact Nat.le_sub_one_of_lt hmem

theorem MgrConfig.smallerSize_le (c : MgrConfig) (size : Nat) : c.smallerSize size ≤ min (size - 1) 14 := by
  have hle := c.pvbufSizeBelow_le (min size (c.pvbufSizeBelow 16))
  have hlast := c.pvbufSizeBelow_le 16
  rw [MgrConfig.smallerSize]
  omega

theorem pvbufAllocSmaller_spec (hsize : size < 16) (hturns : size < turns)
    (h : Owns c mem st.mgr refs objs) :
    Outcome (pvbufAllocSmaller c turns size) st (PvbufGiven c mem refs objs st) (AllocFault c) := by
  induction turns generalizing size st with
  | zero => cases hturns
  | succ turns ih =>
    rw [pvbufAllocSmaller]
    split
    · exact .pure ⟨rfl, rfl, .inl ⟨rfl, h⟩⟩
    · rename_i hobjs
      refine (pvbufAlloc_spec hsize h).andThen ?_
      rintro r st1 ⟨hout, hmem, ⟨rfl, -, hown⟩ | ⟨new, rfl, hslots, hown⟩⟩
      · have hle := c.smallerSize_le size
        by_cases hzero : turns = 0
        · -- only size zero is left, and it is set up
          subst hzero
          obtain rfl : size = 0 := by omega
          exact .inr ⟨_, _, rfl, .inr (.inr ⟨rfl, hobjs⟩)⟩
        · refine (ih (by omega) (by omega) hown).mono ?_
          rintro r st' ⟨hout', hmem', hr⟩
          exact ⟨hout'.trans hout, hmem'.trans hmem, hr⟩
      · exact .pure ⟨hout, hmem, .inr ⟨new, rfl, hslots, hown⟩⟩

theorem pvbufAllocEmpty_spec (h : Owns c mem st.mgr refs objs) :
    Outcome (pvbufAllocEmpty c size) st (PvbufGiven c mem refs objs st) (AllocFault c) := by
  rw [pvbufAllocEmpty]
  by_cases hsize : size < 16
  · refine (pvbufAlloc_spec hsize h).andThen ?_
    rintro r st1 ⟨hout, hmem, ⟨rfl, -, hown⟩ | ⟨new, rfl, hslots, hown⟩⟩
    · have hle := c.smallerSize_le size
      refine (pvbufAllocSmaller_spec (by omega) (by omega) hown).mono ?_
      rintro r st' ⟨hout', hmem', hr⟩
      exact ⟨hout'.trans hout, hmem'.trans hmem, hr⟩
    · exact .pure ⟨hout, hmem, .inr ⟨new, rfl, hslots, hown⟩⟩
  · have hrun : (pvbufAlloc size).run st = .error (.assertion "Bad pvbuf alloc size") st :=
      run_bind_error (assert_fail (decide_eq_false hsize) _ st)
    exact .inr ⟨_, _, run_bind_error hrun, .inl ⟨_, rfl⟩⟩

/-! ## pvbufs with pbufs -/

/-- A pvbuf with the leaves `cur` behind `j` free slots, `k` more are free. -/
structure Filled (pv : Pvbuf) (j : Nat) (cur : List Seg) (k : Nat) : Prop where
  slots : Slots pv (entrySlots (gaps j ++ cur.map .seg ++ gaps k))
  fits : ∀ s ∈ cur, s.Fits

/-- The pvbuf when `size` more bytes have been asked for, and whether they have come. -/
structure PbufsDone (c : MgrConfig) (mem : Mem) (refs : List Ref) (objs : List (Nat × Nat))
    (levels : Nat) (pv : Pvbuf) (cur : List Seg) (size : Nat) (st : PvSt) (r : Pvbuf × Bool)
    (st' : PvSt) : Prop where
  obj : r.1.obj = pv.obj
  shape : Shape levels r.1
  wf : r.2 = true → Wf levels r.1
  len : r.2 = true → segsLen r.1.segs = segsLen cur + size
  owns : Owns c mem st'.mgr (segRefs r.1.segs ++ refs) (r.1.objs ++ objs)
  out : st'.out = st.out
  mem_eq : st'.mgr.mem = st.mgr.mem

section
variable {pv : Pvbuf} {size : Nat} {cur : List Seg} {st' : PvSt}

theorem Filled.wf (h : Filled pv j cur k) : Wf (levels + 1) pv := by
  refine ⟨_, h.slots, fun e he => ?_⟩
  rcases List.mem_append.mp he with he | he
  · rcases List.mem_append.mp he with he | he
    · exact forall_ok_gaps j e he
    · exact forall_ok_map_seg h.fits e he
  · exact forall_ok_gaps k e he

theorem Filled.segs_eq (h : Filled pv j cur k) : pv.segs = cur := by
  rw [h.slots.segs_eq]
  simp

theorem Filled.objs_eq (h : Filled pv j cur k) : pv.objs = [pv.obj] := by
  rw [h.slots.objs_eq]
  simp

theorem Filled.done (h : Filled pv j cur k) (hok : ok = true → size = 0)
    (hown : Owns c mem st'.mgr (segRefs cur ++ refs) (pv.obj :: objs)) (hout : st'.out = st.out)
    (hmem : st'.mgr.mem = st.mgr.mem) :
    PbufsDone c mem refs objs (levels + 1) pv cur size st (pv, ok) st' where
  obj := rfl
  shape := h.wf.shape
  wf _ := h.wf
  len heq := by rw [h.segs_eq, hok heq, Nat.add_zero]
  owns := by
    rw [h.segs_eq, h.objs_eq]
    exact hown
  out := hout
  mem_eq := hmem

theorem chooseAllocator_spec (fact size : Nat) (st : PvSt) :
    Outcome (chooseAllocator c fact size) st (fun btag st' => st' = st ∧ btag < 15) (AllocFault c) := by
  have htag : pbufBufferTag size ≤ 14 := by
    rw [pbufBufferTag]
    omega
  have hsmaller : ∀ i, c.smallerPallocator (pbufBufferTag size) = some i → i < 15 := by
    intro i hi
    have hmem := List.mem_range.mp (List.mem_reverse.mp (List.mem_of_find?_eq_some hi))
    omega
  unfold chooseAllocator
  cases hbig : c.pallocator (pbufBufferTag size) with
  | none =>
    cases hsmall : c.smallerPallocator (pbufBufferTag size) with
    | none => exact .inr ⟨_, _, rfl, .inl ⟨_, rfl⟩⟩
    | some smaller => exact .pure ⟨rfl, hsmaller _ hsmall⟩
  | some btag =>
    have hlt := MgrConfig.pallocator_lt hbig
    cases hsmall : c.smallerPallocator (pbufBufferTag size) with
    | none => exact .pure ⟨rfl, hlt⟩
    | some smaller =>
      refine .pure ⟨rfl, ?_⟩
      split
      · exact hlt
      · exact hsmaller _ hsmall

theorem Filled.put (h : Filled pv j cur (k + 1)) (hoff : j + cur.length = off)
    (hshort : (entrySlots (cur.map .seg)).length = cur.length)
    (hdata : (a.setLen len).dataLen = len) (hfits : (Seg.pbuf (a.setLen len)).Fits) (st : PvSt) :
    ∃ pv', (iovecSetPaddrEnt pv off (.pbuf a) .null len).run st = .ok pv' st ∧ pv'.obj = pv.obj ∧
      Filled pv' j (cur ++ [.pbuf (a.setLen len)]) k := by
  have hs := h.slots
  have hsplit : entrySlots (gaps j ++ cur.map .seg ++ gaps (k + 1)) =
      entrySlots (gaps j ++ cur.map .seg) ++ (List.replicate 1 .null ++ List.replicate k .null) := by
    rw [entrySlots_append, entrySlots_gaps]
    rfl
  rw [hsplit] at hs
  have hlen : (entrySlots (gaps j ++ cur.map .seg)).length = off := by simp [hshort, hoff]
  obtain ⟨pv', hrun, hobj, hslots⟩ := iovecSetPaddrEnt_run (s := .pbuf a) (.inl hdata) hs hlen st
  refine ⟨pv', hrun, hobj, by simpa [Seg.setLen] using hslots, fun s hmem => ?_⟩
  rcases List.mem_append.mp hmem with hmem | hmem
  · exact h.fits s hmem
  · rw [List.mem_singleton.mp hmem]
    exact hfits

theorem slots_length_pbufs (h : ∀ s ∈ cur, ∃ a, s = .pbuf a) :
    (entrySlots (cur.map .seg)).length = cur.length := by
  induction cur with
  | nil => rfl
  | cons s cur ih =>
    obtain ⟨a, rfl⟩ := h s List.mem_cons_self
    rw [List.map_cons, entrySlots_cons, List.length_append,
      ih fun t ht => h t (List.mem_cons_of_mem _ ht)]
    exact Nat.add_comm 1 _

theorem Filled.link (h : Filled pv j cur (k + 1))
    (hoff : (entrySlots (gaps j ++ cur.map .seg)).length = off)
    (hs : Slots pv' (entrySlots (gaps j ++ cur.map .seg) ++ .pvbuf data_length new ::
      List.replicate k .null))
    (hr : PbufsDone c mem (segRefs cur ++ refs) (pv.obj :: objs) levels new [] size st (new', ok) st')
    (hobj : pv'.obj = pv.obj) (hdata : data_length = 0 ∨ data_length.toNat = size) :
    PbufsDone c mem refs objs (levels + 1) pv cur size st
      (pv'.set off ((pv'.get off).relink new'), ok) st' := by
  have hget : pv'.get off = .pvbuf data_length new := hs.get_at hoff
  have hs' : Slots (pv'.set off ((pv'.get off).relink new'))
      (entrySlots (gaps j ++ cur.map .seg ++ [.sub data_length new'] ++ gaps k)) := by
    rw [hget, entrySlots_append, entrySlots_append, entrySlots_gaps, List.append_assoc]
    exact hs.set hoff rfl
  have hsegs : (pv'.set off ((pv'.get off).relink new')).segs = cur ++ new'.segs := by
    rw [hs'.segs_eq]
    simp [IovEntry.segs]
  have hmem : ∀ e, e ∈ gaps j ++ cur.map .seg ++ [.sub data_length new'] ++ gaps k →
      e.Ok (fun _ => False) ∨ e = .sub data_length new' := by
    intro e he
    simp only [List.mem_append, List.mem_singleton] at he
    rcases he with ((he | he) | he) | he
    · exact .inl (forall_ok_gaps j e he)
    · exact .inl (forall_ok_map_seg h.fits e he)
    · exact .inr he
    · exact .inl (forall_ok_gaps k e he)
  refine ⟨hobj, ⟨_, hs', ?_⟩, fun hok => ⟨_, hs', ?_⟩, fun hok => ?_, ?_, hr.out, hr.mem_eq⟩
  · intro dl sub hsub
    rcases hmem _ hsub with hno | heq
    · exact hno.1.elim
    · obtain ⟨rfl, rfl⟩ := IovEntry.sub.inj heq
      exact hr.shape
  · intro e he
    rcases hmem e he with hno | rfl
    · exact hno.mono fun _ => False.elim
    · refine ⟨hr.wf hok, hdata.imp_right fun heq => ?_⟩
      rw [heq, hr.len hok]
      simp [segsLen]
  · rw [hsegs, segsLen_append, hr.len hok]
    simp [segsLen]
  · have hobjs : (pv'.set off ((pv'.get off).relink new')).objs = pv.obj :: new'.objs := by
      rw [hs'.objs_eq]
      simp [IovEntry.objs, hobj]
    rw [hsegs, hobjs]
    refine hr.owns.perm (List.perm_iff_count.mpr fun x => ?_) (List.perm_iff_count.mpr fun x => ?_)
    · simp only [segRefs_append, List.count_append]
      omega
    · simp only [List.count_append, List.count_cons]
      omega

/-- What the turns to come have to do with a pvbuf that is filled up to `off`. -/
def AllocSpec (c : MgrConfig) (levels size : Nat) (alloc : Pvbuf → Nat → Nat → PvM (Pvbuf × Bool)) :
    Prop :=
  ∀ ⦃pv : Pvbuf⦄ ⦃j : Nat⦄ ⦃cur : List Seg⦄ ⦃k off : Nat⦄ ⦃st : PvSt⦄ ⦃refs : List Ref⦄
    ⦃objs : List (Nat × Nat)⦄, Filled pv j cur k → (∀ s ∈ cur, ∃ a, s = .pbuf a) → j + cur.length = off →
    (size ≠ 0 → 2 ≤ k) → Owns c st.mgr.mem st.mgr (segRefs cur ++ refs) (pv.obj :: objs) →
    Outcome (alloc pv off size) st (PbufsDone c st.mgr.mem refs objs levels pv cur size st)
      (AllocFault c)

theorem allocNext_spec (halloc : AllocSpec c levels size alloc) (h : Filled pv j cur (k + 1))
    (hpbufs : ∀ s ∈ cur, ∃ a, s = .pbuf a) (hoff : j + cur.length = off)
    (hown : Owns c st.mgr.mem st.mgr (segRefs cur ++ refs) (pv.obj :: objs)) :
    Outcome (allocNext c pvbuf_size alloc pv off size) st
      (PbufsDone c st.mgr.mem refs objs (levels + 1) pv cur size st) (AllocFault c) := by
  have hpos : (entrySlots (gaps j ++ cur.map .seg)).length = off := by
    simp [slots_length_pbufs hpbufs, hoff]
  have hnum : off + (k + 1) = pv.num := by
    rw [← h.slots.length, entrySlots_append, List.length_append, hpos, entrySlots_gaps,
      List.length_replicate]
  rw [allocNext]
  by_cases hroom : pv.num - 2 ≤ off ∧ 0 < size
  · rw [if_pos hroom]
    refine (pvbufAllocEmpty_spec hown).bind ?_
    rintro r st1 ⟨hout, hmem, ⟨rfl, hown1⟩ | ⟨new, rfl, hnew, hown1⟩⟩
    · exact .pure (h.done (fun hfalse => by cases hfalse) hown1 hout hmem)
    · obtain ⟨len, hlen⟩ : ∃ len, (if size < pvbufMaxLen then size else 0) = len := ⟨_, rfl⟩
      have hdata : len < pvbufMaxLen ∧
          (BitVec.ofNat 32 len = 0 ∨ (BitVec.ofNat 32 len).toNat = size) := by
        rw [← hlen]
        split
        · rename_i hlt
          have hlt' : size < 2 ^ 32 := hlt
          exact ⟨hlt, .inr (by rw [BitVec.toNat_ofNat, Nat.mod_eq_of_lt hlt'])⟩
        · exact ⟨by decide, .inl rfl⟩
      have hs := h.slots
      rw [entrySlots_append, entrySlots_gaps] at hs
      have hput : Outcome (iovecSetPvbufEnt pv off new len) st1 _ _ :=
        iovecSetPvbufEnt_outcome hs hpos 0 new .null st1
      dsimp only
      rw [hlen]
      refine (hput.returns fun e he => Nat.not_lt_of_le he.1 hdata.1).andThen ?_
      rintro pv' st2 ⟨rfl, hobj, -, hpv'⟩
      have hfilled : Filled new 0 [] new.num := ⟨by simpa using hnew, by simp⟩
      have hseven := new.le_num
      rw [← hmem] at hown1
      refine (halloc hfilled (by simp) rfl (by omega) hown1).bind ?_
      rintro ⟨new', ok⟩ st' hr
      have hdone := h.link hpos hpv' hr hobj hdata.2
      rw [hmem] at hdone
      exact .pure { hdone with out := hdone.out.trans hout, mem_eq := hdone.mem_eq.trans hmem }
  · rw [if_neg hroom]
    refine (halloc h hpbufs hoff (by omega) hown).mono ?_
    intro r st' hr
    exact { hr with shape := hr.shape.succ, wf := fun hok => (hr.wf hok).succ }

/-- **The loop fills a pvbuf with as many bytes as asked for**, going on in further ones, or stops where
there are no more pbufs or pvbufs. -/
theorem allocPbufs_spec (hturns : size ≤ turns) :
    AllocSpec c (turns + 1) size (allocPbufs c fact pvbuf_size turns) := by
  induction turns generalizing size with
  | zero =>
    intro pv j cur k off st refs objs h _ _ _ hown
    rw [allocPbufs, if_pos (Nat.le_zero.mp hturns)]
    exact .pure (h.done (fun _ => Nat.le_zero.mp hturns) hown rfl rfl)
  | succ turns ih =>
    intro pv j cur k off st refs objs h hpbufs hoff hk hown
    rw [allocPbufs]
    by_cases hzero : size = 0
    · rw [if_pos hzero]
      exact .pure (h.done (fun _ => hzero) hown rfl rfl)
    rw [if_neg hzero]
    refine (chooseAllocator_spec fact size st).bind ?_
    rintro btag st ⟨rfl, hbtag⟩
    refine (pbufObjAlloc_spec btag hown).andThen ?_
    rintro r st1 ⟨hout, hmem, ⟨rfl, hown1⟩ | ⟨zindex, rest, rfl, -, hown1⟩⟩
    · exact .pure (h.done (fun hfalse => by cases hfalse) hown1 hout hmem)
    have hpow : 64 ≤ 2 ^ (btag + 6) := by
      rw [Nat.pow_add]
      exact Nat.le_mul_of_pos_left 64 (Nat.two_pow_pos btag)
    obtain ⟨len, hlen⟩ : ∃ len, min (2 ^ (btag + 6)) size = len := ⟨_, rfl⟩
    dsimp only
    rw [hlen]
    refine (pbufMakePaddr_spec hbtag).bind ?_
    rintro a st1 ⟨rfl, href, hmade⟩
    rw [Nat.zero_shiftRight, Nat.or_zero] at href
    obtain ⟨hdata, hfits⟩ := hmade (by omega)
    obtain ⟨k, rfl⟩ := Nat.exists_eq_add_of_le' (hk hzero)
    obtain ⟨pv1, hrun, hobj, hfill⟩ := h.put hoff (slots_length_pbufs hpbufs) hdata hfits st1
    refine .step hrun ?_
    have hpbufs' : ∀ s ∈ cur ++ [.pbuf (a.setLen len)], ∃ a, s = .pbuf a := by
      intro s hs
      rcases List.mem_append.mp hs with hs | hs
      · exact hpbufs s hs
      · exact ⟨_, List.mem_singleton.mp hs⟩
    have hown2 : Owns c st1.mgr.mem st1.mgr (segRefs (cur ++ [.pbuf (a.setLen len)]) ++ refs)
        (pv1.obj :: objs) := by
      have hrefs : (Seg.pbuf (a.setLen len)).refs = [a.ref] := rfl
      rw [hobj, hmem]
      refine hown1.perm (List.perm_iff_count.mpr fun x => ?_) (.refl _)
      simp only [segRefs_append, segRefs_cons, segRefs_nil, hrefs, href, List.count_append,
        List.count_cons, List.count_nil]
      omega
    have hbytes : segsLen (cur ++ [.pbuf (a.setLen len)]) + (size - 2 ^ (btag + 6)) =
        segsLen cur + size := by
      have hone : segsLen [.pbuf (a.setLen len)] = len := hdata
      rw [segsLen_append, hone]
      omega
    have hlast : off + 1 = j + (cur ++ [Seg.pbuf (a.setLen len)]).length := by
      simp
      omega
    refine (allocNext_spec (ih (by omega)) hfill hpbufs' hlast.symm hown2).mono ?_
    intro r st' hr
    rw [hmem] at hr
    exact ⟨hr.obj.trans hobj, hr.shape, hr.wf, fun hok => (hr.len hok).trans hbytes, hr.owns,
      hr.out.trans hout, hr.mem_eq.trans hmem⟩

/-- **`__xdp2_pvbuf_alloc_params` gives a well-formed pvbuf of the size asked for**, or nothing, and then
all it has got is free again. -/
theorem pvbufAllocParams_spec (h : Owns c st.mgr.mem st.mgr refs objs) :
    Outcome (pvbufAllocParams c size_req fact pvbuf_off) st (fun r st' => st'.out = st.out ∧
      ((r = none ∧ Owns c st.mgr.mem st'.mgr refs objs) ∨ ∃ new levels, r = some new ∧ Wf levels new ∧
        segsLen new.segs = (BitVec.ofNat 64 size_req).toInt.toNat ∧
        Owns c st.mgr.mem st'.mgr (segRefs new.segs ++ refs) (new.objs ++ objs)))
      (AllocFault c) := by
  rw [pvbufAllocParams]
  obtain ⟨size, hsize⟩ : ∃ size, (BitVec.ofNat 64 size_req).toInt.toNat = size := ⟨_, rfl⟩
  dsimp only
  rw [hsize]
  refine (pvbufGetSize_spec h).andThen ?_
  rintro pvbuf_size st1 ⟨hlt, hout1, hmem1, hown1⟩
  refine (pvbufAlloc_spec hlt hown1).andThen ?_
  rintro r st2 ⟨hout2, hmem2, ⟨rfl, -, hown2⟩ | ⟨new, rfl, hnew, hown2⟩⟩
  · exact .pure ⟨hout2.trans hout1, .inl ⟨rfl, hown2⟩⟩
  dsimp only
  refine .step (paddrToAddr_run hown2 List.mem_cons_self st2) ?_
  by_cases hoff : pvbuf_off < new.num - 1
  swap
  · exact .inr ⟨_, _, run_bind_error (assert_fail (decide_eq_false hoff) _ st2), .inl ⟨_, rfl⟩⟩
  refine .step (assert_run (decide_eq_true hoff) _ st2) ?_
  have hmem := hmem2.trans hmem1
  rw [← hmem] at hown2
  have hfilled : Filled new pvbuf_off [] (new.num - pvbuf_off) := by
    refine ⟨?_, by simp⟩
    have hsplit : pvbuf_off + (new.num - pvbuf_off) = new.num := by omega
    simpa [List.replicate_append_replicate, hsplit] using hnew
  refine (allocPbufs_spec (Nat.le_refl size) hfilled (by simp) rfl (by omega) hown2).bind ?_
  rintro ⟨pv, ok⟩ st3 hr
  have hown3 := hr.owns
  rw [hmem] at hown3
  have hout3 := hr.out.trans (hout2.trans hout1)
  cases ok with
  | true =>
    have hlen := hr.len rfl
    exact .pure ⟨hout3, .inr ⟨pv, _, rfl, hr.wf rfl, by simpa [segsLen] using hlen, hown3⟩⟩
  | false =>
    refine (pvbufFree_ledger Owns.ledger (Nat.le_refl _) hr.shape hown3).andThen ?_
    rintro _ st4 ⟨hout4, hown4⟩
    exact .pure ⟨hout4.trans hout3, .inl ⟨rfl, hown4⟩⟩

end

end Xdp2
