import Xdp2.Pvbuf.Insert
import Xdp2.Pvbuf.Trim

/-!
# Slots filled and shifted

Specifications of the operations that prepending and appending are made of: putting a paddr into free
slots, allocating a pvbuf, and shifting the slots in use to one end of the array.
-/

namespace Xdp2

open BitWord StateError

variable {c : MgrConfig} {objs : List (Nat × Nat)} {st : PvSt}

/-! ## A paddr to put in -/

/-- The leaf a paddr makes with its length set. -/
def Seg.setLen (len : Nat) : Seg → Seg
  | pbuf a => .pbuf (a.setLen len)
  | short a => .short (a.setLen len)
  | long a b => .long (a.setLen len) b

theorem Seg.slots_length (s : Seg) :
    (IovEntry.seg s).slots.length = 1 + s.paddr1.isLongAddr.toNat := by
  cases s <;> rfl

theorem Seg.setLen_len (s : Seg) : s.setLen s.len = s := by
  cases s with
  | pbuf a =>
    have hlt := a.data_length.isLt
    have hlen : BitVec.ofNat 20 (a.data_length.toNat + a.isFull.toNat) -
        BitVec.ofNat 20 a.isFull.toNat = a.data_length := by
      rw [BitVec.ofNat_add, BitVec.add_sub_cancel, BitVec.ofNat_toNat, BitVec.setWidth_eq]
    rw [Seg.setLen, Seg.len, PbufAddr.setLen, PbufAddr.dataLen, hlen]
  | short a =>
    rw [Seg.setLen, Seg.len, ShortAddr.setLen, ShortAddr.dataLen, Nat.add_sub_cancel,
      BitVec.ofNat_toNat, BitVec.setWidth_eq]
  | long a b => rw [Seg.setLen, Seg.len, LongAddr.setLen, BitVec.ofNat_toNat, BitVec.setWidth_eq]

theorem Seg.len_lt (s : Seg) : s.len < 2 ^ 32 := by
  cases s with
  | pbuf a =>
    have hlt := a.data_length.isLt
    have hle := Bool.toNat_le a.isFull
    rw [Seg.len, PbufAddr.dataLen]
    omega
  | short a =>
    have hlt := a.data_length.isLt
    rw [Seg.len, ShortAddr.dataLen]
    omega
  | long a b => exact a.data_length.isLt

/-- A leaf takes a length: it is that of the data, or zero, which stands for the full length of the
largest pbufs. -/
def Seg.Takes : Seg → Nat → Prop
  | pbuf a, length => (a.setLen length).dataLen = length ∨ length = 0
  | short a, length => (a.setLen length).dataLen = length
  | long a _, length => (a.setLen length).data_length.toNat = length

theorem Seg.takes_of_len_eq {s : Seg} (h : (s.setLen length).len = length) :
    s.Takes length := by
  cases s with
  | pbuf a => exact .inl h
  | short a => exact h
  | long a b => exact h

/-- A paddr given to an operation: a leaf, or a pvbuf, whose cached length is not looked at. -/
inductive Paddr where
  | leaf (seg : Seg)
  | pvbuf (data_length : BitVec 32) (pvbuf : Pvbuf)

namespace Paddr

/-- The first word. -/
def paddr1 : Paddr → Iovec
  | leaf s => s.paddr1
  | pvbuf data_length pv => .pvbuf data_length pv

/-- The second word, null if there is none. -/
def paddr2 : Paddr → Iovec
  | leaf s => s.paddr2
  | pvbuf _ _ => .null

/-- The entry the paddr makes with its length. -/
def entry (length : Nat) : Paddr → IovEntry
  | leaf s => .seg (s.setLen length)
  | pvbuf _ pv => .sub (BitVec.ofNat 32 length) pv

/-- The length given is that of the data; zero stands for an unknown length of a pvbuf. -/
def Exact : Paddr → Nat → Prop
  | leaf s, length => s.Takes length
  | pvbuf _ pv, length => length = 0 ∨ length = segsLen pv.segs

/-- The paddr is well-formed, pvbufs down to `D` levels. -/
def Ok (D length : Nat) : Paddr → Prop
  | leaf s => (s.setLen length).Fits
  | pvbuf _ pv => Wf D pv

end Paddr

/-- A paddr to put in, with its length. -/
structure Item (D : Nat) where
  paddr : Paddr
  length : Nat
  exact : paddr.Exact length
  ok : paddr.Ok D length

namespace Item

variable (item : Item D)

/-- The entry put in. -/
def entry : IovEntry := item.paddr.entry item.length

/-- The number of slots it takes. -/
def width : Nat := 1 + item.paddr.paddr1.isLongAddr.toNat

theorem width_le : item.width ≤ 2 := by
  have := Bool.toNat_le item.paddr.paddr1.isLongAddr
  rw [width]
  omega

theorem length_eq : item.length = 0 ∨ item.length = segsLen item.entry.segs := by
  obtain ⟨paddr, length, exact, -⟩ := item
  cases paddr with
  | leaf s =>
    have hlen : segsLen [s.setLen length] = (s.setLen length).len := by simp [segsLen]
    cases s with
    | pbuf a => exact exact.symm.imp_right fun h => (hlen.trans h).symm
    | short a => exact .inr (hlen.trans exact).symm
    | long a b => exact .inr (hlen.trans exact).symm
  | pvbuf _ _ => exact exact

end Item

/-! ## Filling free slots -/

theorem iovecCheckEmpty_run (h : Slots pv (l1 ++ .null :: l2)) (hi : l1.length = i) (st : PvSt) :
    (iovecCheckEmpty pv i).run st = .ok () st := by
  rw [iovecCheckEmpty, run_bind_ok (assert_run (by rw [h.get_at hi]; rfl) _ st),
    run_bind_ok (iovecMapIsset_run h hi st)]
  rfl

theorem setPvbufIovec_run (hlen : len < pvbufMaxLen) (pv sub : Pvbuf) (i : Nat) (st : PvSt) :
    (setPvbufIovec pv i sub len).run st =
      .ok (pv.set i (.pvbuf (BitVec.ofNat 32 len) sub)) st := by
  rw [setPvbufIovec, run_bind_ok (assert_run (decide_eq_true hlen) _ st)]
  rfl

theorem Slots.put_long (h : Slots pv (l1 ++ .null :: .null :: l2)) (hi : l1.length = i) :
    Slots ((((pv.set i (.long a)).set (i + 1) (.long2 b)).setBit i).setBit (i + 1))
      (l1 ++ .long a :: .long2 b :: l2) := by
  have hsplit : ∀ y : Iovec, l1 ++ .long a :: y :: l2 = (l1 ++ [.long a]) ++ y :: l2 := by simp
  have h' := h.put (y := .long a) hi rfl
  rw [hsplit] at h' ⊢
  exact h'.put (by simp [hi]) rfl

theorem iovecSetPaddrEnt_run {s : Seg} (hlen : s.Takes len)
    (h : Slots pv (l1 ++ (List.replicate (1 + s.paddr1.isLongAddr.toNat) .null ++ l2)))
    (hi : l1.length = i) (st : PvSt) :
    ∃ pv', (iovecSetPaddrEnt pv i s.paddr1 s.paddr2 len).run st = .ok pv' st ∧ pv'.obj = pv.obj ∧
      Slots pv' (l1 ++ ((IovEntry.seg (s.setLen len)).slots ++ l2)) := by
  cases s with
  | pbuf a =>
    have h : Slots pv (l1 ++ .null :: l2) := h
    refine ⟨(pv.set i (.pbuf (a.setLen len))).setBit i, ?_, rfl, h.put hi rfl⟩
    rw [Seg.paddr1, iovecSetPaddrEnt]
    rw [run_bind_ok (iovecCheckEmpty_run h hi st), iovecMapSet_run _ (h.lt hi)]
  | short a =>
    have h : Slots pv (l1 ++ .null :: l2) := h
    have hlt : (BitVec.ofNat 18 (len - 1)).toNat < 2 ^ 18 := BitVec.isLt _
    simp only [Seg.Takes, ShortAddr.setLen, ShortAddr.dataLen] at hlen
    refine ⟨(pv.set i (.short (a.setLen len))).setBit i, ?_, rfl, h.put hi rfl⟩
    rw [Seg.paddr1, iovecSetPaddrEnt]
    rw [run_bind_ok (iovecCheckEmpty_run h hi st), run_bind_ok (assert_run (by simp; omega) _ st),
      run_bind_ok (assert_run (by simp; omega) _ st), iovecMapSet_run _ (h.lt hi)]
  | long a b =>
    have h : Slots pv (l1 ++ .null :: .null :: l2) := h
    have h2 : Slots pv ((l1 ++ [.null]) ++ .null :: l2) := by simpa using h
    have hi2 : (l1 ++ [Iovec.null]).length = i + 1 := by simp [hi]
    have hlt : (BitVec.ofNat 32 len).toNat < 2 ^ 32 := BitVec.isLt _
    simp only [Seg.Takes, LongAddr.setLen] at hlen
    refine ⟨(((pv.set i (.long (a.setLen len))).set (i + 1) (.long2 b)).setBit i).setBit (i + 1),
      ?_, rfl, h.put_long hi⟩
    simp only [Seg.paddr1, Seg.paddr2, iovecSetPaddrEnt]
    rw [run_bind_ok (iovecCheckEmpty_run h hi st), run_bind_ok (iovecCheckEmpty_run h2 hi2 st),
      run_bind_ok (show (longAddrCheck (.long a) (.long2 b)).run st = .ok (a, b) st from rfl),
      run_bind_ok (assert_run (by simp; omega) _ st), run_bind_ok (iovecMapSet_run _ (h.lt hi) st),
      iovecMapSet_run _ (h2.lt hi2)]

/-- The assertion that a length fits the field for the cached length of a pvbuf has failed. -/
def TooLong (length : Nat) (e : Fault) : Prop := pvbufMaxLen ≤ length ∧ ∃ label, e = .assertion label

theorem iovecSetPvbufEnt_outcome (h : Slots pv (l1 ++ .null :: l2)) (hi : l1.length = i)
    (data_length : BitVec 32) (sub : Pvbuf) (w : Iovec) (st : PvSt) :
    Outcome (iovecSetPaddrEnt pv i (.pvbuf data_length sub) w len) st
      (fun pv' st' => st' = st ∧ pv'.obj = pv.obj ∧ len < pvbufMaxLen ∧
        Slots pv' (l1 ++ .pvbuf (BitVec.ofNat 32 len) sub :: l2)) (TooLong len) := by
  rw [iovecSetPaddrEnt]
  refine .step (iovecCheckEmpty_run h hi st) ?_
  by_cases hlen : len < pvbufMaxLen
  · refine .step (setPvbufIovec_run hlen pv sub i st) (Returns.outcome ?_ _)
    exact ⟨_, _, iovecMapSet_run _ (h.lt hi) st, rfl, rfl, hlen, h.put hi rfl⟩
  · obtain ⟨label, hfail⟩ : ∃ label,
        (setPvbufIovec pv i sub len).run st = .error (.assertion label) st :=
      ⟨_, run_bind_error (assert_fail (decide_eq_false hlen) _ st)⟩
    exact .inr ⟨_, st, run_bind_error hfail, Nat.le_of_not_lt hlen, label, rfl⟩

theorem Item.put (item : Item D) (h : Slots pv (l1 ++ (List.replicate item.width .null ++ l2)))
    (hi : l1.length = i) (st : PvSt) :
    Outcome (iovecSetPaddrEnt pv i item.paddr.paddr1 item.paddr.paddr2 item.length) st
      (fun pv' st' => st' = st ∧ pv'.obj = pv.obj ∧ item.entry.Ok (Wf D) ∧
        Slots pv' (l1 ++ (item.entry.slots ++ l2))) (TooLong item.length) := by
  obtain ⟨paddr, length, exact, ok⟩ := item
  cases paddr with
  | leaf s =>
    obtain ⟨pv', hrun, hobj, hs⟩ := iovecSetPaddrEnt_run exact h hi st
    exact .inl ⟨pv', st, hrun, rfl, hobj, ok, hs⟩
  | pvbuf data_length sub =>
    refine (iovecSetPvbufEnt_outcome h hi data_length sub .null st).mono ?_
    rintro pv' st' ⟨rfl, hobj, hlen, hs⟩
    have hlen : length < 2 ^ 32 := hlen
    have hdl : BitVec.ofNat 32 length = 0 ∨ (BitVec.ofNat 32 length).toNat = segsLen sub.segs := by
      rw [BitVec.toNat_ofNat, Nat.mod_eq_of_lt hlen]
      exact Or.imp_left (fun hz => by rw [hz]; rfl) exact
    exact ⟨rfl, hobj, ⟨ok, hdl⟩, hs⟩

/-! ## A new pvbuf -/

theorem pvbufGetSize_spec (h : Owns c mem st.mgr refs objs) :
    Returns (pvbufGetSize c) st fun size st' =>
      size < 16 ∧ st'.out = st.out ∧ st'.mgr.mem = st.mgr.mem ∧ Owns c mem st'.mgr refs objs := by
  rw [pvbufGetSize]
  split
  · exact .step (run_get st) (.step (run_set st _) (.pure ⟨Nat.mod_lt _ (by decide), rfl, rfl, { h with }⟩))
  · exact .pure ⟨c.default_pvbuf_size_lt, rfl, rfl, h⟩

theorem PvbufOf.zero_slots (size : BitVec 4) (index : BitVec 24) :
    Slots (.zero size index) (List.replicate (PvbufOf.zero size index).num .null) := by
  refine ⟨rfl, List.length_replicate, fun i => ?_⟩
  rw [List.getD, List.getElem?_getD_replicate_default_eq]
  exact BitVec.getLsbD_zero

theorem free_lt_of_count {free : List Nat}
    (hcount : objs.count (size, i) + free.count i = if i < c.pvbuf_max_objs size then 1 else 0)
    (hmem : i ∈ free) : i < c.pvbuf_max_objs size := by
  have hpos : 0 < free.count i := List.count_pos_iff.mpr hmem
  by_contra hge
  rw [if_neg hge] at hcount
  omega

/-- The manager with the first pvbuf of a free list taken off. -/
def Mgr.popPvbuf (m : Mgr) (size : Nat) : Mgr :=
  { m with
    pvbuf_free := fun s => if s = size then (m.pvbuf_free size).tail else m.pvbuf_free s }

theorem count_popPvbuf {m : Mgr} {index : Nat} {rest : List Nat}
    (hfree : m.pvbuf_free size = index :: rest) (objs : List (Nat × Nat)) (s i : Nat) :
    ((size, index) :: objs).count (s, i) + ((m.popPvbuf size).pvbuf_free s).count i =
      objs.count (s, i) + (m.pvbuf_free s).count i := by
  rw [Mgr.popPvbuf]
  dsimp only
  by_cases hs : s = size
  · subst hs
    rw [if_pos rfl, hfree, List.tail_cons]
    by_cases hi : i = index
    · subst hi
      rw [List.count_cons_self, List.count_cons_self]
      omega
    · rw [List.count_cons_of_ne fun he => hi (congrArg Prod.snd he).symm,
        List.count_cons_of_ne (Ne.symm hi)]
  · rw [if_neg hs, List.count_cons_of_ne fun he => hs (congrArg Prod.fst he).symm]

theorem pvbufAlloc_cases (hsize : size < 16)
    (hlt : ∀ i ∈ st.mgr.pvbuf_free size, i < c.pvbuf_max_objs size) :
    Returns (pvbufAlloc size) st fun r st' =>
      (r = none ∧ st.mgr.pvbuf_free size = [] ∧ st' = st) ∨
      ∃ new index rest, r = some new ∧ st.mgr.pvbuf_free size = index :: rest ∧
        new.obj = (size, index) ∧ Slots new (List.replicate new.num .null) ∧
        st' = { st with mgr := st.mgr.popPvbuf size } := by
  rw [pvbufAlloc]
  refine .step (assert_run (decide_eq_true hsize) _ st) (.step (run_get st) ?_)
  split
  · rename_i hfree
    exact .pure (.inl ⟨rfl, hfree, rfl⟩)
  · rename_i index rest hfree
    have h24 : index < 2 ^ 24 :=
      Nat.lt_of_lt_of_le (hlt index (hfree ▸ List.mem_cons_self)) (c.pvbuf_max_objs_le size)
    refine .step (assert_run (decide_eq_true h24) _ st) (.step (run_set st _) (.pure (.inr ?_)))
    refine ⟨_, index, rest, rfl, hfree, ?_, PvbufOf.zero_slots _ _, ?_⟩
    · rw [PvbufOf.obj, PvbufOf.zero, BitVec.toNat_ofNat, BitVec.toNat_ofNat, Nat.mod_eq_of_lt hsize,
        Nat.mod_eq_of_lt h24]
    · rw [Mgr.popPvbuf, hfree]
      rfl

theorem pvbufAlloc_spec {size : Nat} (hsize : size < 16) (h : Owns c mem st.mgr refs objs) :
    Returns (pvbufAlloc size) st fun r st' =>
      st'.out = st.out ∧ st'.mgr.mem = st.mgr.mem ∧
      ((r = none ∧ st'.mgr.pvbuf_free size = [] ∧ Owns c mem st'.mgr refs objs) ∨
        ∃ new, r = some new ∧ Slots new (List.replicate new.num .null) ∧
          Owns c mem st'.mgr refs (new.obj :: objs)) := by
  refine (pvbufAlloc_cases hsize fun i hi => free_lt_of_count (h.pvbufs size i) hi).mono ?_
  rintro r st' (⟨rfl, hfree, rfl⟩ | ⟨new, index, rest, rfl, hfree, hobj, hs, rfl⟩)
  · exact ⟨rfl, rfl, .inl ⟨rfl, hfree, h⟩⟩
  · refine ⟨rfl, rfl, .inr ⟨new, rfl, hs, ?_⟩⟩
    rw [hobj]
    exact { h with pvbufs := fun s i => (count_popPvbuf hfree objs s i).trans (h.pvbufs s i) }

/-! ## Shifting -/

section
variable {new : Nat}

theorem iovecMoveEnt_run (hold : Slots pv (a1 ++ x :: a2)) (hnew : Slots pv (b1 ++ .null :: b2))
    (ho : a1.length = old) (hn : b1.length = new) (hx : x.isNull = false) (st : PvSt) :
    (iovecMoveEnt pv old new).run st = .ok (((pv.clear old).set new x).setBit new) st := by
  have hne : old ≠ new := by
    intro he
    have hget := hold.get_at ho
    rw [he, hnew.get_at hn] at hget
    rw [← hget] at hx
    cases hx
  have hcomm : (pv.set new x).clear old = (pv.clear old).set new x := by
    simp only [PvbufOf.clear, PvbufOf.set, List.set_comm _ _ hne.symm]
  rw [iovecMoveEnt, if_neg hne, run_bind_ok (assert_run (by rw [hnew.get_at hn]; rfl) _ st),
    run_bind_ok (iovecMapIsset_run hnew hn st),
    run_bind_ok (assert_run (show (!!Iovec.null.isNull) = true from rfl) _ st),
    run_bind_ok (assert_run (by rw [hold.get_at ho, hx]; rfl) _ st),
    run_bind_ok (iovecMapIsset_run hold ho st), run_bind_ok (assert_run (by rw [hx]; rfl) _ st),
    hold.get_at ho, run_bind_ok (iovecClearEnt_run _ (hold.lt ho) st), hcomm,
    iovecMapSet_run _ (hnew.lt hn)]

theorem iovecMoveEnt_up (n : Nat) (h : Slots pv (l1 ++ x :: (List.replicate n .null ++ l2)))
    (hi : l1.length = i) (hx : x.isNull = false) (st : PvSt) :
    ∃ pv', (iovecMoveEnt pv i (i + n)).run st = .ok pv' st ∧ pv'.obj = pv.obj ∧
      Slots pv' (l1 ++ (List.replicate n .null ++ x :: l2)) := by
  cases n with
  | zero => exact ⟨pv, by rw [iovecMoveEnt, if_pos (Nat.add_zero i).symm]; rfl, rfl, h⟩
  | succ n =>
    have hsplit : ∀ y z : Iovec, l1 ++ y :: (List.replicate n .null ++ z :: l2) =
        (l1 ++ y :: List.replicate n .null) ++ z :: l2 := by simp
    have hlen : ∀ y : Iovec, (l1 ++ y :: List.replicate n .null).length = i + (n + 1) := by
      simp [hi]
    have h' : Slots pv (l1 ++ x :: (List.replicate n .null ++ .null :: l2)) := by
      simpa [List.replicate_succ'] using h
    have hnew := hsplit _ _ ▸ h'
    refine ⟨_, iovecMoveEnt_run h' hnew hi (hlen x) hx st, rfl, ?_⟩
    have hclear := h'.clear hi
    rw [hsplit] at hclear
    have hput := hclear.put (hlen .null) hx
    rw [← hsplit] at hput
    simpa [List.replicate_succ] using hput

theorem iovecMoveEnt_down (n : Nat) (h : Slots pv (l1 ++ (List.replicate n .null ++ x :: l2)))
    (hi : l1.length = i) (hx : x.isNull = false) (st : PvSt) :
    ∃ pv', (iovecMoveEnt pv (i + n) i).run st = .ok pv' st ∧ pv'.obj = pv.obj ∧
      Slots pv' (l1 ++ x :: (List.replicate n .null ++ l2)) := by
  cases n with
  | zero => exact ⟨pv, by rw [iovecMoveEnt, if_pos (Nat.add_zero i)]; rfl, rfl, h⟩
  | succ n =>
    have hsplit : ∀ y z : Iovec, l1 ++ y :: (List.replicate n .null ++ z :: l2) =
        (l1 ++ y :: List.replicate n .null) ++ z :: l2 := by simp
    have hlen : ∀ y : Iovec, (l1 ++ y :: List.replicate n .null).length = i + (n + 1) := by
      simp [hi]
    have h' : Slots pv (l1 ++ .null :: (List.replicate n .null ++ x :: l2)) := by
      simpa [List.replicate_succ] using h
    have hold := hsplit _ _ ▸ h'
    refine ⟨_, iovecMoveEnt_run hold h' (hlen .null) hi hx st, rfl, ?_⟩
    have hclear := hold.clear (hlen .null)
    rw [← hsplit] at hclear
    simpa [List.replicate_succ'] using hclear.put hi hx

end

theorem shiftPvbufIovecsToTail_spec (h : Slots pv l) :
    Returns (shiftPvbufIovecsToTail pv) st fun pv' st' =>
      st' = st ∧ pv'.obj = pv.obj ∧ ∃ k, Slots pv' (List.replicate k .null ++ used l) := by
  have hnum := pv.le_num
  have hnum' := pv.num_le
  have hlen := h.length
  rw [shiftPvbufIovecsToTail]
  -- the slots from the position on are `k` free ones and those shifted so far
  refine Returns.bind (forBitsRev_rule
    (I := fun i s st' => st' = st ∧ s.pvbuf.obj = pv.obj ∧ ∃ rest k done,
      rest.length = i ∧ Slots s.pvbuf (rest ++ (List.replicate k .null ++ done)) ∧
      used rest ++ done = used l ∧ (i + k = 0 ∨ s.j + 1 = i + k))
    (Q := fun s st' => st' = st ∧ s.pvbuf.obj = pv.obj ∧
      ∃ k, Slots s.pvbuf (List.replicate k .null ++ used l))
    ?_ ?_ (by omega) ⟨rfl, rfl, l, 0, [], by omega, by simpa using h, by simp, .inr rfl⟩)
    fun s st' hs => .pure hs
  · rintro i q s st' ⟨rfl, hobj, rest, k, done, rfl, hs, hused, hj⟩ hq
    obtain ⟨l', x, m, rfl, rfl, hx⟩ := hs.last_slot hq
    have hslots : l' ++ x :: List.replicate m .null ++ (List.replicate k .null ++ done) =
        l' ++ x :: (List.replicate (m + k) .null ++ done) := by
      simp [← List.replicate_append_replicate]
    rw [hslots] at hs
    have hlt := hs.lt (i := l'.length) rfl
    have hlen' := hs.length
    rw [PvbufOf.num_eq_of_obj hobj] at hlen'
    simp only [List.length_append, List.length_cons, List.length_replicate] at hj hlen'
    obtain ⟨pv', hrun, hobj', hs'⟩ := iovecMoveEnt_up (m + k) hs rfl hx st'
    have hpos : s.j = l'.length + (m + k) := by omega
    rw [shiftBody, hpos]
    refine .step hrun (.pure ⟨Nat.le_refl _, rfl, hobj'.trans hobj, l', m + k, x :: done, rfl, hs', ?_,
      by dsimp only; omega⟩)
    rw [used_append, used_cons hx, used_replicate] at hused
    simpa using hused
  · rintro i s st' ⟨rfl, hobj, rest, k, done, rfl, hs, hused, -⟩ hnone
    have hnull := hs.null_below hnone
    rw [used_eq_nil hnull, List.nil_append] at hused
    rw [eq_replicate_of_isNull hnull, ← List.append_assoc, List.replicate_append_replicate,
      hused] at hs
    exact ⟨rfl, hobj, _, hs⟩

theorem shiftPvbufIovecsToHead_spec (h : Slots pv l) :
    Returns (shiftPvbufIovecsToHead pv) st fun pv' st' =>
      st' = st ∧ pv'.obj = pv.obj ∧ ∃ k, Slots pv' (used l ++ List.replicate k .null) := by
  rw [shiftPvbufIovecsToHead]
  -- the slots up to the position are those shifted so far and `k` free ones
  refine Returns.bind (forBits_rule
    (I := fun i s st' => st' = st ∧ s.pvbuf.obj = pv.obj ∧ ∃ done k rest,
      done.length = s.j ∧ s.j + k = i ∧ Slots s.pvbuf (done ++ (List.replicate k .null ++ rest)) ∧
      done ++ used rest = used l)
    (Q := fun s st' => st' = st ∧ s.pvbuf.obj = pv.obj ∧
      ∃ k, Slots s.pvbuf (used l ++ List.replicate k .null))
    ?_ ?_ (by decide) ⟨rfl, rfl, [], 0, l, rfl, rfl, h, rfl⟩)
    fun s st' hs => .pure hs
  · rintro i q s st' ⟨rfl, hobj, done, k, rest, hj, rfl, hs, hused⟩ hq
    rw [← List.append_assoc] at hs
    obtain ⟨x, l', rfl, hx⟩ := hs.first_slot (by simp [hj]) hq
    have hslots : done ++ List.replicate k .null ++
        (List.replicate (q - (s.j + k)) .null ++ x :: l') =
        done ++ (List.replicate (q - s.j) .null ++ x :: l') := by
      have hle := hq.le
      rw [show q - s.j = k + (q - (s.j + k)) by omega]
      simp [← List.replicate_append_replicate]
    rw [hslots] at hs
    obtain ⟨pv', hrun, hobj', hs'⟩ := iovecMoveEnt_down (q - s.j) hs hj hx st'
    have hle := hq.le
    rw [show s.j + (q - s.j) = q by omega] at hrun
    rw [shiftBody]
    refine .step hrun (.pure ⟨Nat.le_refl _, rfl, hobj'.trans hobj, done ++ [x], q - s.j, l', ?_, ?_,
      by simpa using hs', ?_⟩)
    · simp [hj]
    · dsimp only
      omega
    · rw [used_append, used_replicate, List.nil_append, used_cons hx] at hused
      simpa using hused
  · rintro i s st' ⟨rfl, hobj, done, k, rest, hj, rfl, hs, hused⟩ hnone
    rw [← List.append_assoc] at hs
    have hnull := hs.null_from (by simpa [hj] using hnone)
    rw [used_eq_nil hnull, List.append_nil] at hused
    rw [eq_replicate_of_isNull hnull, List.append_assoc, List.replicate_append_replicate,
      hused] at hs
    exact ⟨rfl, hobj, _, hs⟩

end Xdp2
