import Xdp2.Lib.Memory
import Xdp2.Pvbuf.Leaves
import Xdp2.Pvbuf.PopSpec

/-!
# Copying into and out of a packet

`__xdp2_pvbuf_copy_data_to_pvbuf` and `__xdp2_pvbuf_copy_pvbuf_to_data` walk over the leaves with
the same bookkeeping, so what is read is what was written (`copy_to_pvbuf_to_data`). If two leaves
have a byte in common, the later one prevails for both; so the contents are what was written only if
none have.
-/

namespace Xdp2

open StateError Memory

/-! ## The functions -/

/-- `memcpy` to an offset of a region. -/
def Mem.write (mem : Mem) (offset : Nat) (bytes : List UInt8) : Region → Mem
  | .pbuf b => { mem with pbuf := Function.update mem.pbuf b (copy (mem.pbuf b) offset bytes) }
  | .short t => { mem with short := Function.update mem.short t (copy (mem.short t) offset bytes) }
  | .long r => { mem with long := Function.update mem.long r (copy (mem.long r) offset bytes) }

/-- `struct __xdp2_pvbuf_iter_copy`. Of the linear buffer, `data` is what is still to be read in a copy to
a packet, and what has been written in a copy from one. -/
structure IterCopy where
  data : List UInt8
  range : Range

/-- `__xdp2_pvbuf_iterate_copy_to_pvbuf`. -/
def iterateCopyToPvbuf (ist : IterCopy) (seg : Seg) : PvM (IterCopy × Bool) :=
  match ist.range.cut seg.len with
  | none => return ({ ist with range := ist.range.skip seg.len }, true)
  | some (start, len) => do
    modify fun s => { s with
      mgr.mem := s.mgr.mem.write (seg.offset + start) (ist.data.take len) seg.place }
    return (⟨ist.data.drop len, (ist.range.count len).1⟩, (ist.range.count len).2)

/-- `__xdp2_pvbuf_copy_data_to_pvbuf`. -/
def copyDataToPvbuf (c : MgrConfig) (depth : Nat) (pv : Pvbuf) (data : List UInt8) (len offset : Nat) :
    PvM Nat := do
  let (ist, _) ← pvbufIterate c iterateCopyToPvbuf depth pv ⟨data, ⟨len, offset⟩⟩
  return len - ist.range.len

/-- `__xdp2_pvbuf_iterate_copy_to_data`. -/
def iterateCopyToData (ist : IterCopy) (seg : Seg) : PvM (IterCopy × Bool) :=
  match ist.range.cut seg.len with
  | none => return ({ ist with range := ist.range.skip seg.len }, true)
  | some (start, len) => do
    let s ← get
    let bytes := readBytes (seg.region s.mgr.mem) (seg.offset + start) len
    return (⟨ist.data ++ bytes, (ist.range.count len).1⟩, (ist.range.count len).2)

/-- `__xdp2_pvbuf_copy_pvbuf_to_data`, with what it writes to the linear buffer. -/
def copyPvbufToData (c : MgrConfig) (depth : Nat) (pv : Pvbuf) (len offset : Nat) :
    PvM (Nat × List UInt8) := do
  let (ist, _) ← pvbufIterate c iterateCopyToData depth pv ⟨[], ⟨len, offset⟩⟩
  return (len - ist.range.len, ist.data)

/-! ## Out of a packet -/

theorem iterateCopyToData_returns (ist : IterCopy) (seg : Seg) (st : PvSt) :
    Returns (iterateCopyToData ist seg) st fun _ _ => True := by
  rw [iterateCopyToData]
  cases ist.range.cut seg.len with
  | none => exact ⟨_, _, rfl, trivial⟩
  | some p => exact ⟨_, _, rfl, trivial⟩

theorem walk_copyToData (segs : List Seg) (ist : IterCopy) (st : PvSt)
    (hlen : ist.range.len ≠ 0) :
    ∃ range cont, (walkLeaves iterateCopyToData segs ist).run st =
      .ok (⟨ist.data ++ ist.range.bytes (segBytes st.mgr.mem segs), range⟩, cont) st ∧
        range.len = ist.range.len - ist.range.size (segsLen segs) := by
  induction segs generalizing ist with
  | nil =>
    have hbytes : ist.range.bytes (segBytes st.mgr.mem []) = [] := by simp [Range.bytes]
    refine ⟨ist.range, true, ?_, by simp [Range.size, segsLen]⟩
    rw [hbytes, List.append_nil]
    rfl
  | cons seg segs ih =>
    have hsum : segsLen (seg :: segs) = seg.len + segsLen segs := by simp [segsLen]
    rw [segBytes_cons, hsum, walkLeaves, iterateCopyToData]
    cases hcut : ist.range.cut seg.len with
    | none =>
      obtain ⟨-, hskip⟩ := Range.cut_none_iff.mp hcut
      rw [Range.bytes_skip (by rwa [Seg.length_bytes]), Seg.length_bytes, ← Range.size_skip hskip]
      exact ih ⟨ist.data, ist.range.skip seg.len⟩ hlen
    | some p =>
      obtain ⟨start, n⟩ := p
      have hpart : readBytes (seg.region st.mgr.mem) (seg.offset + start) n =
          ((seg.bytes st.mgr.mem).drop start).take n := by
        have hle := Range.cut_le hcut
        rw [Seg.bytes, drop_readBytes, take_readBytes _ _ (by omega)]
      rw [Range.bytes_cut (by rw [Seg.length_bytes]; exact hcut), ← Range.len_count hlen hcut,
        ← hpart, ← List.append_assoc]
      dsimp only
      rw [bind_assoc, run_bind_ok (run_get st), run_bind_ok (run_pure st _)]
      cases hcont : (ist.range.count n).2 with
      | true => exact ih ⟨_, (ist.range.count n).1⟩ (Range.count_len hlen hcont)
      | false =>
        refine ⟨(ist.range.count n).1, false, ?_, rfl⟩
        rw [if_neg Bool.false_ne_true, if_neg Bool.false_ne_true, List.append_nil]
        rfl

/-! ## Into a packet -/

theorem Mem.read_write (mem : Mem) (offset : Nat) (bytes : List UInt8) (p q : Region) :
    (mem.write offset bytes p).read q =
      if q = p then copy (mem.read p) offset bytes else mem.read q := by
  cases p <;> cases q <;> simp only [Mem.write, Mem.read, Function.update_apply, Region.pbuf.injEq,
    Region.short.injEq, Region.long.injEq, reduceCtorEq, if_false]

theorem Range.splice_cut {r : Range} {data : List UInt8} {start n : Nat} (hlen : r.len ≠ 0)
    (hdata : r.len ≤ data.length) (h : r.cut b.length = some (start, n)) :
    splice r.offset (data.take (r.size (b.length + B.length))) (b ++ B) =
      splice start (data.take n) b ++
        if (r.count n).2 then splice 0 ((data.drop n).take ((r.count n).1.size B.length)) B else B := by
  obtain ⟨rfl, hle, -, hpos⟩ := Range.cut_some h
  have hn := hpos hlen
  rw [Range.count_of_len hlen, Range.size, if_neg hlen]
  dsimp only
  by_cases hstop : r.len - n = 0
  · have hsize : min r.len (b.length + B.length - r.offset) = n := by omega
    rw [hsize, splice_within (by rw [List.length_take]; omega)]
    simp [hstop]
  · have hsize : min r.len (b.length + B.length - r.offset) = n + min (r.len - n) B.length := by omega
    have htake : data.take (n + min (r.len - n) B.length) =
        data.take n ++ (data.drop n).take (min (r.len - n) B.length) := List.take_add
    rw [hsize, htake, splice_across (by rw [List.length_take]; omega), decide_eq_true hstop,
      if_pos rfl, Range.size, if_neg hstop, Nat.sub_zero]

theorem iterateCopyToPvbuf_returns (ist : IterCopy) (seg : Seg) (st : PvSt) :
    Returns (iterateCopyToPvbuf ist seg) st fun _ _ => True := by
  rw [iterateCopyToPvbuf]
  cases ist.range.cut seg.len with
  | none => exact ⟨_, _, rfl, trivial⟩
  | some p => exact ⟨_, _, rfl, trivial⟩

theorem Seg.bytes_write (mem : Mem) (seg : Seg) {bytes : List UInt8}
    (h : start + bytes.length ≤ seg.len) :
    seg.bytes (mem.write (seg.offset + start) bytes seg.place) = splice start bytes (seg.bytes mem) := by
  rw [Seg.bytes, Seg.bytes, Seg.region_eq, Seg.region_eq, Mem.read_write, if_pos rfl]
  exact map_copy h

theorem Mem.read_write_of_not_has (mem : Mem) {seg : Seg} (h : start + bytes.length ≤ seg.len)
    {p : Region} {o : Nat} (hnot : ¬ seg.Has p o) :
    (mem.write (seg.offset + start) bytes seg.place).read p o = mem.read p o := by
  rw [Mem.read_write]
  split
  · rename_i hp
    subst hp
    exact copy_of_outside fun hin => hnot ⟨rfl, by omega, by omega⟩
  · rfl

theorem segBytes_congr (h : ∀ s ∈ segs, ∀ p o, s.Has p o → mem'.read p o = mem.read p o) :
    segBytes mem' segs = segBytes mem segs := by
  induction segs with
  | nil => rfl
  | cons s segs ih =>
    rw [segBytes_cons, segBytes_cons, Seg.bytes_congr (h s List.mem_cons_self),
      ih fun t ht => h t (List.mem_cons_of_mem s ht)]

theorem walk_copyToPvbuf (segs : List Seg) (ist : IterCopy) (st : PvSt) (hlen : ist.range.len ≠ 0)
    (hdata : ist.range.len ≤ ist.data.length) (hun : Unshared segs) :
    ∃ ist' cont mem, (walkLeaves iterateCopyToPvbuf segs ist).run st =
      .ok (ist', cont) { st with mgr.mem := mem } ∧
        ist'.range.len = ist.range.len - ist.range.size (segsLen segs) ∧
        segBytes mem segs = splice ist.range.offset (ist.data.take (ist.range.size (segsLen segs)))
          (segBytes st.mgr.mem segs) ∧
        ∀ p o, (∀ s ∈ segs, ¬ s.Has p o) → mem.read p o = st.mgr.mem.read p o := by
  induction segs generalizing ist st with
  | nil =>
    exact ⟨ist, true, st.mgr.mem, rfl, by simp [Range.size, segsLen],
      by simp [Range.size, segsLen, splice], fun _ _ _ => rfl⟩
  | cons seg segs ih =>
    obtain ⟨hseg, hun⟩ := List.pairwise_cons.mp hun
    have hsum : segsLen (seg :: segs) = seg.len + segsLen segs := by simp [segsLen]
    rw [hsum, walkLeaves, iterateCopyToPvbuf]
    cases hcut : ist.range.cut seg.len with
    | none =>
      obtain ⟨-, hskip⟩ := Range.cut_none_iff.mp hcut
      obtain ⟨ist', cont, mem, hrun, hleft, hbytes, hrest⟩ :=
        ih ⟨ist.data, ist.range.skip seg.len⟩ st hlen hdata hun
      rw [Range.size_skip hskip] at hleft hbytes
      refine ⟨ist', cont, mem, hrun, hleft, ?_, fun p o hno => hrest p o fun s hs =>
        hno s (List.mem_cons_of_mem seg hs)⟩
      have hsame : seg.bytes mem = seg.bytes st.mgr.mem :=
        Seg.bytes_congr fun p o hhas => hrest p o fun s hs => hseg s hs p o hhas
      rw [segBytes_cons, segBytes_cons, splice_skip (by rwa [Seg.length_bytes]), hsame, hbytes,
        Seg.length_bytes]
      rfl
    | some q =>
      obtain ⟨start, n⟩ := q
      have hle := Range.cut_le hcut
      obtain ⟨hstart, -, -, hn⟩ := Range.cut_some hcut
      have hn := hn hlen
      have hwithin : start + (ist.data.take n).length ≤ seg.len := by
        rw [List.length_take]
        omega
      obtain ⟨mem1, hmem1⟩ : ∃ mem1,
          mem1 = st.mgr.mem.write (seg.offset + start) (ist.data.take n) seg.place := ⟨_, rfl⟩
      have hfirst : seg.bytes mem1 = splice start (ist.data.take n) (seg.bytes st.mgr.mem) := by
        rw [hmem1, Seg.bytes_write _ _ hwithin]
      have hframe : ∀ p o, ¬ seg.Has p o → mem1.read p o = st.mgr.mem.read p o := fun p o hno => by
        rw [hmem1, Mem.read_write_of_not_has _ hwithin hno]
      have hothers : segBytes mem1 segs = segBytes st.mgr.mem segs :=
        segBytes_congr fun s hs p o hhas => hframe p o fun h => hseg s hs p o h hhas
      have hcut' : ist.range.cut (seg.bytes st.mgr.mem).length = some (start, n) := by
        rw [Seg.length_bytes]
        exact hcut
      have hsplice := Range.splice_cut (B := segBytes st.mgr.mem segs) hlen hdata hcut'
      rw [Seg.length_bytes, length_segBytes] at hsplice
      rw [segBytes_cons, hsplice, ← Range.len_count hlen hcut]
      dsimp only
      rw [bind_assoc, run_bind_ok (run_modify st _), run_bind_ok (run_pure _ _), ← hmem1]
      cases hcont : (ist.range.count n).2 with
      | true =>
        have hdata' : (ist.range.count n).1.len ≤ (ist.data.drop n).length := by
          rw [Range.count_of_len hlen, List.length_drop]
          exact Nat.sub_le_sub_right hdata n
        obtain ⟨ist', cont, mem, hrun, hleft, hbytes, hrest⟩ :=
          ih ⟨ist.data.drop n, (ist.range.count n).1⟩ { st with mgr.mem := mem1 }
            (Range.count_len hlen hcont) hdata' hun
        refine ⟨ist', cont, mem, hrun, hleft, ?_, fun p o hno => ?_⟩
        · have hsame : seg.bytes mem = seg.bytes mem1 :=
            Seg.bytes_congr fun p o hhas => hrest p o fun s hs => hseg s hs p o hhas
          rw [segBytes_cons, hsame, hfirst, hbytes, hothers, Range.count_of_len hlen]
          rfl
        · rw [hrest p o fun s hs => hno s (List.mem_cons_of_mem seg hs)]
          exact hframe p o (hno seg List.mem_cons_self)
      | false =>
        refine ⟨_, _, mem1, rfl, rfl, ?_, fun p o hno => hframe p o (hno seg List.mem_cons_self)⟩
        rw [segBytes_cons, hfirst, hothers]
        rfl

/-! ## Packets that share nothing -/

/-- Two leaves are apart: they are in different pbufs, or at addresses without a byte in common. -/
def Seg.Apart : Seg → Seg → Prop
  | pbuf a, pbuf b => (a.btag, a.zindex) ≠ (b.btag, b.zindex)
  | s, t => ∀ p o, s.Has p o → ¬ t.Has p o

theorem Seg.Has.zindex (hfit : (Seg.pbuf a).Fits) (h : (Seg.pbuf a).Has p o) :
    p = .pbuf a.btag ∧ o >>> a.sizeShift = a.zindex := by
  obtain ⟨rfl, hle, hlt⟩ := h
  refine ⟨rfl, ?_⟩
  change a.offset.toNat % 2 ^ a.sizeShift + a.dataLen ≤ 2 ^ a.sizeShift at hfit
  change a.offset.toNat ≤ o at hle
  change o < a.offset.toNat + a.dataLen at hlt
  have hsplit := Nat.div_add_mod a.offset.toNat (2 ^ a.sizeShift)
  rw [PbufAddr.zindex, Nat.shiftRight_eq_div_pow, Nat.shiftRight_eq_div_pow]
  rw [Nat.mul_comm] at hsplit
  refine Nat.div_eq_of_lt_le (by omega) ?_
  rw [Nat.add_mul, Nat.one_mul]
  omega

theorem Wf.unshared (hwf : Wf depth pv) (h : pv.segs.Pairwise Seg.Apart) :
    Unshared pv.segs := by
  refine h.imp_of_mem fun {s t} hs ht hapart => ?_
  cases s with
  | pbuf a =>
    cases t with
    | pbuf b =>
      intro p o hhas hhas'
      obtain ⟨rfl, hz⟩ := hhas.zindex (hwf.fits _ hs)
      obtain ⟨hbtag, hz'⟩ := hhas'.zindex (hwf.fits _ ht)
      have hb : a.btag = b.btag := Region.pbuf.inj hbtag
      have hshift : a.sizeShift = b.sizeShift := by rw [PbufAddr.sizeShift, hb, PbufAddr.sizeShift]
      rw [hshift, hz'] at hz
      exact hapart (Prod.ext hb hz.symm)
    | short b => exact hapart
    | long b b' => exact hapart
  | short a => exact hapart
  | long a a' => exact hapart

/-! ## Both -/

theorem Range.bytes_splice {len offset : Nat} {B data : List UInt8} (hlen : len ≠ 0)
    (hdata : data.length = len) (hk : k = min len (B.length - offset)) :
    Range.bytes ⟨len, offset⟩ (B.take offset ++ data.take k ++ B.drop (offset + k)) =
      data.take k := by
  rw [Range.bytes, if_neg hlen]
  change List.take len (List.drop offset _) = _
  rw [List.append_assoc, List.drop_append, List.length_take,
    List.drop_eq_nil_of_le (by rw [List.length_take]; omega), List.nil_append]
  by_cases hin : offset ≤ B.length
  · rw [Nat.min_eq_left hin, Nat.sub_self, List.drop_zero, List.take_append, List.take_take,
      Nat.min_eq_right (by omega), List.length_take]
    by_cases hall : k = len
    · rw [show len - min k data.length = 0 by omega, List.take_zero, List.append_nil]
    · rw [List.drop_eq_nil_of_le (by omega), List.take_nil, List.append_nil]
  · obtain rfl : k = 0 := by omega
    rw [List.drop_eq_nil_of_le (by simp; omega), List.take_nil, List.take_zero]

end Xdp2
