import Xdp2.Pvbuf.InsertPvbufSpec

/-!
# Slots left alone

The functions that make room for a pulled up pbuf move the paddr of one slot into the next, and
until the first is overwritten the paddr is there twice. The functions called look at the slots they
are given and at no others: what is in another slot (`PvbufOf.over`) makes no difference to them,
and is still there when they are done.
-/

namespace Xdp2

open BitWord StateError

/-- A paddr in a slot, with its bit. -/
def PvbufOf.over (pv : Pvbuf) (k : Nat) (x : Iovec) : Pvbuf := (pv.set k x).setBit k

section
variable {pv : Pvbuf} {x : Iovec}

@[simp] theorem PvbufOf.obj_over : (pv.over k x).obj = pv.obj := rfl

@[simp] theorem PvbufOf.num_over : (pv.over k x).num = pv.num := rfl

theorem PvbufOf.get_over (h : i ≠ k) : (pv.over k x).get i = pv.get i := by
  simp [PvbufOf.over, PvbufOf.setBit, PvbufOf.set, PvbufOf.get, List.getD,
    List.getElem?_set_ne (Ne.symm h)]

theorem PvbufOf.getLsbD_over (h : i ≠ k) :
    (pv.over k x).iovec_map.getLsbD i = pv.iovec_map.getLsbD i := by
  simp [PvbufOf.over, PvbufOf.setBit, PvbufOf.set, getLsbD_bit, h]

theorem PvbufOf.set_over (h : i ≠ k) : (pv.over k x).set i y = (pv.set i y).over k x := by
  simp [PvbufOf.over, PvbufOf.setBit, PvbufOf.set, List.set_comm _ _ h]

theorem PvbufOf.setBit_over : (pv.over k x).setBit i = (pv.setBit i).over k x := by
  simp [PvbufOf.over, PvbufOf.setBit, PvbufOf.set, BitVec.or_assoc, BitVec.or_comm (bit k)]

theorem PvbufOf.clear_over (h : i ≠ k) : (pv.over k x).clear i = (pv.clear i).over k x := by
  have hmap : (pv.iovec_map ||| bit k) &&& ~~~(bit i) = pv.iovec_map &&& ~~~(bit i) ||| bit k := by
    refine BitVec.eq_of_getLsbD_eq fun j hj => ?_
    simp only [BitVec.getLsbD_and, BitVec.getLsbD_or, BitVec.getLsbD_not, getLsbD_bit]
    by_cases hji : j = i
    · simp [hji, h]
    · simp [hji, hj]
  simp [PvbufOf.over, PvbufOf.clear, PvbufOf.setBit, PvbufOf.set, List.set_comm _ _ h, hmap]

theorem PvbufOf.over_over : ((pv.over k x).set k y).setBit k = pv.over k y := by
  simp [PvbufOf.over, PvbufOf.setBit, PvbufOf.set, BitVec.or_assoc]

theorem PvbufOf.over_clear : (pv.clear k).over k y = (pv.set k y).setBit k := by
  have hmap : pv.iovec_map &&& ~~~(bit k) ||| bit k = pv.iovec_map ||| bit k := by
    refine BitVec.eq_of_getLsbD_eq fun j hj => ?_
    simp only [BitVec.getLsbD_and, BitVec.getLsbD_or, BitVec.getLsbD_not, getLsbD_bit]
    by_cases hjk : j = k
    · subst hjk
      simp [hj]
    · simp [hjk, hj]
  simp [PvbufOf.over, PvbufOf.clear, PvbufOf.setBit, PvbufOf.set, hmap]

theorem Slots.clear_over (h : Slots pv (l1 ++ x :: l2)) (hi : l1.length = i) (hx : x.isNull = false) :
    (pv.clear i).over i x = pv := by
  have hget := h.get_at hi
  have hbit : pv.iovec_map.getLsbD i = true := by rw [h.map, ← h.get_eq, hget, hx]; rfl
  have hlist : pv.iovec.set i x = pv.iovec := by
    rw [h.iovec]
    subst hi
    simp
  have hmap : pv.iovec_map ||| bit i = pv.iovec_map := by
    refine BitVec.eq_of_getLsbD_eq fun j hj => ?_
    rw [BitVec.getLsbD_or, getLsbD_bit]
    by_cases hji : j = i
    · rw [hji, hbit, Bool.true_or]
    · simp [hji]
  rw [PvbufOf.over_clear]
  obtain ⟨size, index, map, iovec⟩ := pv
  simp only [PvbufOf.setBit, PvbufOf.set] at hlist hmap ⊢
  rw [hlist, hmap]

end

/-! ## Functions on other slots -/

section
variable {pv : Pvbuf} {x : Iovec}

theorem iovecMapIsset_over (h : i ≠ k) : iovecMapIsset (pv.over k x) i = iovecMapIsset pv i := by
  rw [iovecMapIsset, iovecMapIsset, PvbufOf.getLsbD_over h]

theorem iovecMapSet_over : iovecMapSet (pv.over k x) i = (·.over k x) <$> iovecMapSet pv i := by
  simp only [iovecMapSet, map_bind, map_pure, PvbufOf.setBit_over]

theorem iovecClearEnt_over (h : i ≠ k) :
    iovecClearEnt (pv.over k x) i = (·.over k x) <$> iovecClearEnt pv i := by
  simp only [iovecClearEnt, map_bind, map_pure, PvbufOf.clear_over h]

theorem iovecCheckEmpty_over (h : i ≠ k) : iovecCheckEmpty (pv.over k x) i = iovecCheckEmpty pv i := by
  rw [iovecCheckEmpty, iovecCheckEmpty, PvbufOf.get_over h, iovecMapIsset_over h]

theorem setPvbufIovec_over (h : i ≠ k) (sub : Pvbuf) (len : Nat) :
    setPvbufIovec (pv.over k x) i sub len = (·.over k x) <$> setPvbufIovec pv i sub len := by
  simp only [setPvbufIovec, map_bind, map_pure, PvbufOf.set_over h]

theorem iovecSetPvbufEnt_over (h : i ≠ k) (sub : Pvbuf) (len : Nat) :
    iovecSetPvbufEnt (pv.over k x) i sub len = (·.over k x) <$> iovecSetPvbufEnt pv i sub len := by
  simp only [iovecSetPvbufEnt, iovecSetPaddrEnt, iovecCheckEmpty_over h, setPvbufIovec_over h, map_bind,
    bind_map_left, iovecMapSet_over]

theorem slotLen_over (h : i ≠ k) (h' : (pv.get i).isLongAddr = true → i + 1 ≠ k) :
    slotLen (pv.over k x) i = slotLen pv i := by
  rw [slotLen, slotLen, PvbufOf.get_over h]
  cases hget : pv.get i with
  | pvbuf _ _ | pbuf _ | short _ => rfl
  | null | long _ | long2 _ => rw [PvbufOf.get_over (h' (by rw [hget]; rfl))]

theorem moveToTail_over (h : i ≠ k) (h' : (pv.get i).isLongAddr = true → i + 1 ≠ k) (new : Pvbuf) :
    moveToTail new (pv.over k x) i = moveToTail new pv i := by
  rw [moveToTail, moveToTail, PvbufOf.get_over h]
  cases hl : (pv.get i).isLongAddr with
  | false => rfl
  | true => rw [PvbufOf.get_over (h' hl)]

theorem moveToHead_over (h : i ≠ k) (h' : (pv.get i).isLongAddr = true → i + 1 ≠ k) (new : Pvbuf) :
    moveToHead new (pv.over k x) i = moveToHead new pv i := by
  rw [moveToHead, moveToHead, PvbufOf.get_over h]
  cases hl : (pv.get i).isLongAddr with
  | false => rfl
  | true => rw [PvbufOf.get_over (h' hl)]

theorem replaceByPvbuf_over (h : i ≠ k) (h' : is_long_addr = true → i + 1 ≠ k) (new : Pvbuf)
    (len : Nat) : replaceByPvbuf (pv.over k x) i is_long_addr new len =
      Prod.map (·.over k x) id <$> replaceByPvbuf pv i is_long_addr new len := by
  cases is_long_addr with
  | false => simp [replaceByPvbuf, iovecMapIsset_over h, setPvbufIovec_over h]
  | true =>
    have hk := h' rfl
    simp [replaceByPvbuf, iovecClearEnt_over h, iovecMapIsset_over hk, setPvbufIovec_over hk]

theorem prependPaddrNewPvbuf_over (h : i ≠ k) (h' : i + 1 ≠ k) (paddr_1 paddr_2 : Iovec)
    (length : Nat) : prependPaddrNewPvbuf c (pv.over k x) i paddr_1 paddr_2 length =
      Prod.map (·.over k x) id <$> prependPaddrNewPvbuf c pv i paddr_1 paddr_2 length := by
  rw [prependPaddrNewPvbuf, prependPaddrNewPvbuf, map_bind]
  refine bind_congr fun size => ?_
  rw [map_bind]
  refine bind_congr fun r => ?_
  cases r with
  | none => rfl
  | some new =>
    simp only [PvbufOf.get_over h, slotLen_over h fun _ => h', moveToTail_over h fun _ => h',
      replaceByPvbuf_over h fun _ => h', map_bind]

theorem appendPaddrNewPvbuf_over (hi : 0 < i) (h : i ≠ k) (hlow : i - 1 ≠ k)
    (hfirst : ∀ a, pv.get i ≠ .long a) (hnull : pv.get i ≠ .null) (paddr_1 paddr_2 : Iovec)
    (length : Nat) : appendPaddrNewPvbuf c (pv.over k x) i paddr_1 paddr_2 length true =
      Prod.map (·.over k x) id <$> appendPaddrNewPvbuf c pv i paddr_1 paddr_2 length true := by
  have hstart : i - (pv.get i).wordNum ≠ k := by
    cases pv.get i with
    | long2 b => exact hlow
    | null | pvbuf _ _ | pbuf _ | short _ | long _ => exact h
  have hbehind : (pv.get i).isLongAddr = true → i - (pv.get i).wordNum + 1 ≠ k := by
    intro hl
    cases hget : pv.get i with
    | long2 b => exact fun hk => h (by rw [← hk]; exact (Nat.sub_add_cancel hi).symm)
    | long a => exact (hfirst a hget).elim
    | null => exact (hnull hget).elim
    | pvbuf _ _ | pbuf _ | short _ => rw [hget] at hl; cases hl
  have hsame : (pv.get (i - (pv.get i).wordNum)).isLongAddr = true →
      i - (pv.get i).wordNum + 1 ≠ k := by
    cases hget : pv.get i with
    | long2 b =>
      intro _
      rw [hget] at hbehind
      exact hbehind rfl
    | long a => exact (hfirst a hget).elim
    | null => exact (hnull hget).elim
    | pvbuf _ _ | pbuf _ | short _ =>
      intro hl
      simp only [Iovec.wordNum, Nat.sub_zero, hget] at hl
      cases hl
  rw [appendPaddrNewPvbuf, appendPaddrNewPvbuf, map_bind]
  refine bind_congr fun size => ?_
  rw [map_bind]
  refine bind_congr fun r => ?_
  cases r with
  | none => rfl
  | some new =>
    simp only [PvbufOf.get_over h, slotLen_over hstart hsame, moveToHead_over hstart hsame,
      replaceByPvbuf_over hstart hbehind, map_bind, Bool.not_true, Bool.false_eq_true, if_false]

theorem insertIntoSub_over (h : i ≠ k) (insert : Pvbuf → PvM (Pvbuf × Bool)) (data_length : BitVec 32)
    (sub : Pvbuf) (length : Nat) : insertIntoSub insert (pv.over k x) i data_length sub length =
      Prod.map (·.over k x) id <$> insertIntoSub insert pv i data_length sub length := by
  rw [insertIntoSub, insertIntoSub, map_bind]
  refine bind_congr fun r => ?_
  cases hr : r.2 <;> simp [hr, PvbufOf.set_over h]

/-- **Prepending at an iovec leaves the other slots alone**, but for the one behind it. -/
theorem prependPaddrIntoIovec_over (h : i ≠ k) (h' : i + 1 ≠ k)
    (insert : Pvbuf → PvM (Pvbuf × Bool)) (paddr_1 paddr_2 : Iovec) (length : Nat) :
    prependPaddrIntoIovec c insert (pv.over k x) i paddr_1 paddr_2 length =
      Prod.map (·.over k x) id <$> prependPaddrIntoIovec c insert pv i paddr_1 paddr_2 length := by
  rw [prependPaddrIntoIovec, prependPaddrIntoIovec, map_bind, PvbufOf.get_over h]
  refine bind_congr fun _ => ?_
  cases pv.get i with
  | pvbuf data_length sub => exact insertIntoSub_over h insert data_length sub length
  | null | pbuf _ | short _ | long _ | long2 _ => exact prependPaddrNewPvbuf_over h h' _ _ _

theorem prependPvbufIntoIovec_over (h : i ≠ k) (h' : i + 1 ≠ k)
    (insert : Pvbuf → PvM (Pvbuf × Bool)) (compress : Bool) (src : Pvbuf) (length : Nat) :
    prependPvbufIntoIovec c insert compress (pv.over k x) i src length =
      Prod.map (·.over k x) id <$> prependPvbufIntoIovec c insert compress pv i src length := by
  rw [prependPvbufIntoIovec, prependPvbufIntoIovec, map_bind, PvbufOf.get_over h]
  refine bind_congr fun _ => ?_
  rw [map_bind]
  refine bind_congr fun _ => ?_
  cases pv.get i with
  | pvbuf data_length sub =>
    simp only [insertIntoSub_over h, bind_map_left, map_bind]
    refine bind_congr fun r => ?_
    cases hr : r.2 with
    | false => simp [hr]
    | true => cases compress <;> simp [hr, PvbufOf.get_over h, PvbufOf.set_over h]
  | null | pbuf _ | short _ | long _ | long2 _ => exact prependPaddrNewPvbuf_over h h' _ _ _

/-- **Appending at an iovec leaves the slot behind it alone.** -/
theorem appendPvbufIntoIovec_over (hi : 0 < i) (h : i ≠ k) (hlow : i - 1 ≠ k)
    (hfirst : ∀ a, pv.get i ≠ .long a) (hset : index_set = true → pv.get i ≠ .null)
    (insert : Pvbuf → PvM (Pvbuf × Bool)) (src : Pvbuf) (length : Nat) :
    appendPvbufIntoIovec c insert (pv.over k x) i src length index_set =
      Prod.map (·.over k x) id <$> appendPvbufIntoIovec c insert pv i src length index_set := by
  cases index_set with
  | false => simp [appendPvbufIntoIovec, iovecSetPvbufEnt_over h]
  | true =>
    have hnull := hset rfl
    have hnew := appendPaddrNewPvbuf_over (c := c) (x := x) hi h hlow hfirst hnull (.pvbuf 0 src) .null
      length
    simp only [appendPvbufIntoIovec, PvbufOf.get_over h, Bool.not_true, Bool.false_eq_true, if_false]
    cases hget : pv.get i with
    | pvbuf data_length sub => exact insertIntoSub_over h insert data_length sub length
    | null | pbuf _ | short _ | long _ | long2 _ => exact hnew

end

/-! ## What is held with a paddr taken out -/

section
variable {pv : Pvbuf} {e : IovEntry} {x : Iovec}

theorem Holds.take_out (h : Holds c mem P m pv (es1 ++ [e] ++ es2) refs objs) (hx : e.slots = [x])
    (hi : (entrySlots es1).length = i) :
    Holds c mem P m (pv.clear i) (es1 ++ [.gap] ++ es2) (segRefs e.segs ++ refs) (e.objs ++ objs) := by
  have hs := h.slots
  rw [entrySlots_mid, hx] at hs
  refine ⟨by simpa [IovEntry.slots] using hs.clear hi, ?_, h.owns.perm
    (List.perm_iff_count.mpr fun r => ?_) (List.perm_iff_count.mpr fun o => ?_)⟩
  · intro e' he'
    simp only [List.append_assoc, List.singleton_append, List.mem_append, List.mem_cons] at he'
    rcases he' with he' | rfl | he'
    · exact h.ok e' (by simp [he'])
    · trivial
    · exact h.ok e' (by simp [he'])
  · simp only [entrySegs_append, entrySegs_cons, entrySegs_nil, IovEntry.segs, segRefs_append,
      List.count_append, List.append_nil]
    omega
  · simp only [entryObjs_append, entryObjs_cons, entryObjs_nil, IovEntry.objs, List.count_append,
      List.count_cons, List.append_nil, PvbufOf.obj_clear]
    omega

theorem Holds.put_over (h : Holds c mem P m pv (es1 ++ [.gap] ++ es2) (segRefs e.segs ++ refs)
      (e.objs ++ objs)) (hx : e.slots = [x]) (hne : e ≠ .gap) (hok : e.Ok P)
    (hi : (entrySlots es1).length = i) : Holds c mem P m (pv.over i x) (es1 ++ [e] ++ es2) refs objs := by
  have hs := h.slots
  rw [entrySlots_mid] at hs
  have hnull : x.isNull = false := IovEntry.isNull_eq_false hne (by rw [hx]; exact List.mem_cons_self)
  refine ⟨by simpa [hx, PvbufOf.over] using Slots.put (x := .null) hs hi hnull, ?_, h.owns.perm
    (List.perm_iff_count.mpr fun r => ?_) (List.perm_iff_count.mpr fun o => ?_)⟩
  · intro e' he'
    simp only [List.append_assoc, List.singleton_append, List.mem_append, List.mem_cons] at he'
    rcases he' with he' | rfl | he'
    · exact h.ok e' (by simp [he'])
    · exact hok
    · exact h.ok e' (by simp [he'])
  · simp only [entrySegs_append, entrySegs_cons, entrySegs_nil, IovEntry.segs, segRefs_append,
      List.count_append, List.append_nil]
    omega
  · simp only [entryObjs_append, entryObjs_cons, entryObjs_nil, IovEntry.objs, List.count_append,
      List.count_cons, List.append_nil, PvbufOf.obj_over]
    omega

end

end Xdp2
