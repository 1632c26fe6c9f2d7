import Xdp2.Pvbuf.CloneLeaf

/-!
# What a clone is

The invariant of a clone under way: `CloneAt` says what there is, the pvbuf at the end of the chain,
the chain before it and what is held; `CloneSum`, that the bytes it has and those it is still to get
are those asked for. Cached lengths in the chain are set before the bytes have come; if fewer come,
`__xdp2_pvbuf_fixup_iovec_length` is to put them right, which fails at a pvbuf in a slot and at a
long address.
-/

namespace Xdp2

open BitWord StateError

variable {mem : Mem} {st st' : PvSt} {ist : IterClone} {cur post out leaves : List Seg} {s p : Seg}
  {length num : Nat} {target : List UInt8}

/-! ## How far it has got -/

/-- Whether a leaf takes two slots. -/
def Seg.isLong (s : Seg) : Bool := s.paddr1.isLongAddr

/-- The leaves that are cloned if all bytes from an offset on are. -/
def cloneLeaves : (offset : Nat) → List Seg → List Seg
  | _, [] => []
  | offset, s :: segs =>
    if s.len ≤ offset then cloneLeaves (offset - s.len) segs else s :: cloneLeaves 0 segs

/-- How far a clone has got with the leaves `out`, where `post` are ahead: `length` bytes were asked for,
which are `target`, and `leaves` are the leaves from the offset on. The first pvbuf has `num` slots. -/
structure CloneSum (mem : Mem) (target : List UInt8) (length num : Nat) (leaves out post : List Seg)
    (ist : IterClone) : Prop where
  bytes : segBytes mem out ++ ((segBytes mem post).drop ist.offset).take ist.length = target
  total : segsLen out + ist.length = length
  leaves : ist.length ≠ 0 →
    (out ++ cloneLeaves ist.offset post).map Seg.isLong = leaves.map Seg.isLong
  full : ist.outer ≠ [] → (∃ s ∈ out, s.isLong = true) ∨ num ≤ out.length
  first : ist.outer = [] → ist.pvbuf.num = num

theorem CloneSum.skip (h : CloneSum mem target length num leaves out (s :: post) ist)
    (hlen : s.len ≤ ist.offset) :
    CloneSum mem target length num leaves out post { ist with offset := ist.offset - s.len } where
  bytes := by
    have hdrop : (segBytes mem (s :: post)).drop ist.offset =
        (segBytes mem post).drop (ist.offset - s.len) := by
      rw [segBytes_cons, List.drop_append, Seg.length_bytes, List.drop_eq_nil_of_le, List.nil_append]
      rw [Seg.length_bytes]
      exact hlen
    rw [← h.bytes, hdrop]
  total := h.total
  leaves hne := by
    rw [← h.leaves hne, cloneLeaves, if_pos hlen]
  full := h.full
  first := h.first

theorem CloneSum.done (h : CloneSum mem target length num leaves out post ist) (hlength : ist.length = 0) :
    CloneSum mem target length num leaves out [] ist :=
  { h with
    bytes := by rw [← h.bytes, hlength, List.take_zero, List.take_zero]
    leaves := fun hne => (hne hlength).elim }

theorem Trim.bytes_eq {off len : Nat} (h : Trim s off len p) (hle : off + len ≤ s.len) :
    p.bytes mem = ((s.bytes mem).drop off).take len := by
  rw [h.bytes, Seg.bytes, drop_readBytes, take_readBytes _ _ (by omega)]

theorem Trim.isLong {off len : Nat} (h : Trim s off len p) : p.isLong = s.isLong := by
  have hslots := h.slots
  cases s <;> cases p <;> first | rfl | cases hslots

theorem CloneSum.put {ist' : IterClone} {n : Nat}
    (h : CloneSum mem target length num leaves out (s :: post) ist) (hoff : ist.offset < s.len)
    (hn : n = min ist.length (s.len - ist.offset)) (htrim : Trim s ist.offset n p)
    (hlength : ist'.length = ist.length - n) (hoffset : ist'.offset = 0)
    (hfull : ist'.outer ≠ [] → (∃ t ∈ out ++ [p], t.isLong = true) ∨ num ≤ (out ++ [p]).length)
    (hfirst : ist'.outer = [] → ist'.pvbuf.num = num) :
    CloneSum mem target length num leaves (out ++ [p]) post ist' where
  bytes := by
    have hp : p.bytes mem = ((s.bytes mem).drop ist.offset).take n := htrim.bytes_eq (by omega)
    have hrest : ((s.bytes mem).drop ist.offset).length = s.len - ist.offset := by
      rw [List.length_drop, Seg.length_bytes]
    have htake : ((s.bytes mem).drop ist.offset).take ist.length =
        ((s.bytes mem).drop ist.offset).take n := by
      rw [hn, ← hrest, List.take_eq_take_min]
    rw [← h.bytes, segBytes_append, segBytes_cons, segBytes_cons, hlength, hoffset,
      List.drop_append_of_le_length (by rw [Seg.length_bytes]; omega), List.take_append, htake, hp, hrest]
    by_cases hle : ist.length ≤ s.len - ist.offset
    · have hzero : ist.length - n = 0 := by omega
      simp [hzero, Nat.sub_eq_zero_of_le hle]
    · have hsub : ist.length - n = ist.length - (s.len - ist.offset) := by omega
      simp [hsub]
  total := by
    have htotal := h.total
    rw [segsLen_append, hlength, ← htotal]
    have hp : segsLen [p] = n := by simp [segsLen, htrim.len]
    omega
  leaves hne := by
    rw [← h.leaves (by omega), hoffset, cloneLeaves, if_neg (by omega)]
    simp [htrim.isLong]
  full := hfull
  first := hfirst

/-! ## What there is -/

/-- A clone under way: the chain ends with the leaves `cur` and `k` free slots, and has the leaves
`segs` and the objects `os` before its last pvbuf. -/
structure CloneAt (c : MgrConfig) (mem : Mem) (srcRefs refs : List Ref)
    (srcObjs objs : List (Nat × Nat)) (ist : IterClone) (st : PvSt) (cur : List Seg) (k : Nat)
    (segs : List Seg) (os : List (Nat × Nat)) : Prop where
  slots : Slots ist.pvbuf (entrySlots (cur.map .seg ++ gaps k))
  index : (entrySlots (cur.map .seg)).length = ist.index
  fits : ∀ s ∈ cur, s.Fits
  outer : Outer (fun _ => False) (ist.error = false) (segsLen cur + ist.length) ist.outer segs os
  counted : ∀ a, .pbuf a ∈ segs ++ cur → a.one_ref = false
  books : Books c mem st.mgr (srcRefs ++ (segRefs (segs ++ cur) ++ refs))
    (srcObjs ++ (ist.pvbuf.obj :: (os ++ objs)))

theorem slots_length_of_short (h : ∀ s ∈ cur, s.isLong = false) :
    (entrySlots (cur.map .seg)).length = cur.length := by
  induction cur with
  | nil => rfl
  | cons s cur ih =>
    have hs : s.isLong = false := h s List.mem_cons_self
    rw [List.map_cons, entrySlots_cons, List.length_append, Seg.slots_length, ← Seg.isLong, hs,
      ih fun t ht => h t (List.mem_cons_of_mem _ ht)]
    exact Nat.add_comm 1 _

theorem CloneAt.perm (h : CloneAt c mem srcRefs refs srcObjs objs ist st cur k segs os)
    (hp : srcRefs.Perm srcRefs') :
    CloneAt c mem srcRefs' refs srcObjs objs ist st cur k segs os :=
  { h with books := h.books.perm (hp.append_right _) (.refl _) }

theorem CloneAt.num_eq (h : CloneAt c mem srcRefs refs srcObjs objs ist st cur k segs os) :
    ist.pvbuf.num = ist.index + k := by
  rw [← h.slots.length, ← h.index, entrySlots_append, entrySlots_gaps, List.length_append,
    List.length_replicate]

/-- A part of a leaf with a count: its paddr, which takes its length, and what they make. -/
structure Part (s : Seg) (off n : Nat) : Prop where
  takes : (s.addToOffset off).Takes n
  trim : Trim s off n ((s.addToOffset off).setLen n)
  refs : (s.addToOffset off).refs = s.refs
  one_ref : ∀ a, s.addToOffset off = .pbuf a → a.one_ref = false
  counted : ∀ a, (s.addToOffset off).setLen n = .pbuf a → a.one_ref = false

theorem Seg.part (hs : ∀ a, s = .pbuf a → a.one_ref = false) (hfits : s.Fits) (hn : 0 < n)
    (hle : off + n ≤ s.len) : Part s off n := by
  obtain ⟨htakes, htrim⟩ := Seg.addToOffset_trim hfits hn hle
  refine ⟨htakes, htrim, Seg.refs_addToOffset hfits (by omega), fun a ha => ?_, fun a ha => ?_⟩
  · cases s with
    | pbuf b => cases ha; exact hs b rfl
    | short b => cases ha
    | long b b' => cases ha
  · cases s with
    | pbuf b => cases ha; exact hs b rfl
    | short b => cases ha
    | long b b' => cases ha

theorem CloneAt.put (h : CloneAt c mem (s.refs ++ srcRefs) refs srcObjs objs ist st cur k segs os)
    (hs : ∀ a, s = .pbuf a → a.one_ref = false) (hfits : s.Fits) (hn : 0 < n)
    (hle : off + n ≤ s.len) (hlength : n ≤ ist.length) (hk : 1 + s.isLong.toNat ≤ k) :
    Returns (iovecSetPaddrEntAndBumpRefcnt ist.pvbuf ist.index (s.addToOffset off).paddr1
        (s.addToOffset off).paddr2 n) st fun pvbuf st' =>
      st'.out = st.out ∧ st'.mgr.mem = st.mgr.mem ∧ pvbuf.num = ist.pvbuf.num ∧
      CloneAt c mem (s.refs ++ srcRefs) refs srcObjs objs
        { ist with
          pvbuf := pvbuf
          length := ist.length - n
          index := ist.index + (1 + s.isLong.toNat) }
        st' (cur ++ [(s.addToOffset off).setLen n]) (k - (1 + s.isLong.toNat)) segs os := by
  obtain ⟨htakes, htrim, hrefs, hcount, hcounted⟩ := Seg.part hs hfits hn hle
  have hslots := h.slots
  obtain ⟨k, rfl⟩ := Nat.exists_eq_add_of_le hk
  have hgaps : entrySlots (cur.map .seg ++ gaps (1 + s.isLong.toNat + k)) =
      entrySlots (cur.map .seg) ++ (List.replicate (1 + (s.addToOffset off).paddr1.isLongAddr.toNat)
        .null ++ List.replicate k .null) := by
    rw [entrySlots_append, entrySlots_gaps, Seg.isLongAddr_addToOffset, List.replicate_append_replicate]
    rfl
  rw [hgaps] at hslots
  have hbooks := h.books
  rw [List.append_assoc, ← hrefs] at hbooks
  refine (iovecSetPaddrEntAndBumpRefcnt_spec hcount htakes hslots h.index hbooks).mono ?_
  rintro pvbuf st' ⟨hobj, hslots', hout, hmem, hbooks'⟩
  have hlen : segsLen [(s.addToOffset off).setLen n] = n := by simp [segsLen, htrim.len]
  refine ⟨hout, hmem, PvbufOf.num_eq_of_obj hobj, ?_, ?_, ?_, ?_, ?_, ?_⟩
  · rw [Nat.add_sub_cancel_left]
    simpa using hslots'
  · simp [h.index, htrim.slots, Seg.slots_length, Seg.isLong]
  · intro t ht
    rcases List.mem_append.mp ht with ht | ht
    · exact h.fits t ht
    · rw [List.mem_singleton.mp ht]
      exact htrim.fits
  · have hN : segsLen (cur ++ [(s.addToOffset off).setLen n]) + (ist.length - n) =
        segsLen cur + ist.length := by
      rw [segsLen_append, hlen]
      omega
    rw [hN]
    exact h.outer
  · intro a ha
    rw [← List.append_assoc] at ha
    rcases List.mem_append.mp ha with ha | ha
    · exact h.counted a ha
    · exact hcounted a (List.mem_singleton.mp ha).symm
  · rw [hrefs] at hbooks'
    rw [hobj]
    refine hbooks'.perm (List.perm_iff_count.mpr fun r => ?_) (.refl _)
    simp only [segRefs_append, segRefs_cons, segRefs_nil, List.count_append, htrim.refs, List.count_nil]
    omega

theorem CloneAt.room (h : CloneAt c mem srcRefs refs srcObjs objs ist st cur k segs os) (hw : w ≤ 2)
    (hk : k ≠ 0) :
    Returns (cloneRoom c ist w n) st fun r st' =>
      st'.out = st.out ∧ st'.mgr.mem = st.mgr.mem ∧
      ((r = ({ ist with error := true }, false) ∧
          CloneAt c mem srcRefs refs srcObjs objs r.1 st' cur k segs os) ∨
        ∃ cur' k' segs' os', r.2 = true ∧
          CloneAt c mem srcRefs refs srcObjs objs r.1 st' cur' k' segs' os' ∧
          w ≤ k' ∧ (n ≠ ist.length → w < k') ∧ segs' ++ cur' = segs ++ cur ∧
          r.1.length = ist.length ∧ r.1.offset = ist.offset ∧ r.1.error = ist.error ∧
          (r.1 = ist ∨ r.1.outer ≠ [] ∧ k ≤ w)) := by
  have hnum := h.num_eq
  have hseven := ist.pvbuf.le_num
  have hnum' : ist.num_iovecs = ist.index + k := hnum
  rw [cloneRoom]
  by_cases hroom : ist.num_iovecs - w < ist.index ∨ (ist.index = ist.num_iovecs - w ∧ n ≠ ist.length)
  · rw [if_pos hroom]
    have hkw : k ≤ w := by omega
    refine (pvbufGetSize_books h.books).bind ?_
    rintro size st1 ⟨hsize, hout1, hmem1, hbooks1⟩
    obtain ⟨k, rfl⟩ := Nat.exists_eq_succ_of_ne_zero hk
    have hseg : segsLen (entrySegs (cur.map .seg)) = segsLen cur := by rw [entrySegs_map_seg]
    refine (checkCloneAddIovec_spec hsize h.slots (forall_ok_map_seg h.fits)
      (by rw [hseg]; exact h.outer) hbooks1).mono ?_
    rintro r st' ⟨hout, hmem, hr⟩
    refine ⟨hout.trans hout1, hmem.trans hmem1, ?_⟩
    rcases hr with ⟨rfl, -, hbooks⟩ | ⟨new, p, rfl, hobj, -, hnew, -, houter, hbooks⟩
    · refine .inl ⟨rfl, { h with outer := ?_, books := hbooks }⟩
      exact h.outer.mono fun hfalse => by cases hfalse
    · have hfree : 7 ≤ new.num := new.le_num
      refine .inr ⟨[], new.num, segs ++ cur, ist.pvbuf.obj :: os, rfl, ?_, by omega, by omega,
        List.append_nil _, rfl, rfl, rfl, .inr ⟨by simp, hkw⟩⟩
      rw [entrySegs_map_seg, entryObjs_map_seg, List.nil_append] at houter
      refine ⟨by simpa using hnew, rfl, by simp, by simpa [segsLen] using houter, ?_, ?_⟩
      · simpa using h.counted
      · refine hbooks.perm (by rw [List.append_nil]) (List.perm_iff_count.mpr fun o => ?_)
        simp only [List.count_append, List.count_cons]
        omega
  · rw [if_neg hroom]
    exact .pure ⟨rfl, rfl, .inr ⟨cur, k, segs, os, rfl, h, by omega, by omega, rfl, rfl, rfl, rfl,
      .inl rfl⟩⟩

/-! ## The leaves of the source -/

/-- The invariant of a clone with the leaves `pre` of the source behind and `post` ahead. -/
def CloneInv (c : MgrConfig) (mem : Mem) (refs : List Ref) (srcObjs objs : List (Nat × Nat)) (st0 : PvSt)
    (target : List UInt8) (length num : Nat) (leaves pre post : List Seg) (ist : IterClone) (st : PvSt) :
    Prop :=
  ∃ cur k segs os, CloneAt c mem (segRefs (pre ++ post)) refs srcObjs objs ist st cur k segs os ∧
    (ist.length ≠ 0 → k ≠ 0) ∧
    (ist.error = false →
      CloneSum st0.mgr.mem target length num leaves (segs ++ cur) post ist) ∧
    (∀ r, (segRefs (segs ++ cur)).count r ≤ (segRefs pre).count r) ∧
    st.out = st0.out ∧ st.mgr.mem = st0.mgr.mem

theorem segRefs_mid_perm (pre post : List Seg) (s : Seg) :
    (segRefs (pre ++ s :: post)).Perm (s.refs ++ segRefs (pre ++ post)) := by
  refine List.perm_iff_count.mpr fun r => ?_
  simp only [segRefs_append, segRefs_cons, List.count_append]
  omega

theorem count_segRefs_le (l l' : List Seg) (r : Ref) :
    (segRefs l).count r ≤ (segRefs (l ++ l')).count r := by
  rw [segRefs_append, List.count_append]
  exact Nat.le_add_right _ _

theorem Seg.isLong_counted (s : Seg) : s.counted.isLong = s.isLong := by cases s <;> rfl

theorem Seg.one_ref_counted (s : Seg) : ∀ a, s.counted = .pbuf a → a.one_ref = false := by
  intro a ha
  cases s with
  | pbuf b => cases ha; rfl
  | short b => cases ha
  | long b b' => cases ha

theorem CloneSum.counted (h : CloneSum mem target length num leaves out (s :: post) ist) :
    CloneSum mem target length num leaves out (s.counted :: post) ist where
  bytes := by
    rw [← h.bytes, segBytes_cons, segBytes_cons, (Alike.bytes_eq (.inr rfl) mem)]
  total := h.total
  leaves hne := by
    rw [← h.leaves hne, cloneLeaves, cloneLeaves, (Alike.len_eq (s := s) (.inr rfl))]
    split
    · rfl
    · simp [Seg.isLong_counted]
  full := h.full
  first := h.first

/-- The chain has a second pvbuf only if the first was full, or had a single free slot left where two
were needed. -/
theorem CloneAt.full_of_room (hat : CloneAt c mem srcRefs refs srcObjs objs ist st cur k segs os)
    (hfull : ist.outer ≠ [] → (∃ t ∈ segs ++ cur, t.isLong = true) ∨ num ≤ (segs ++ cur).length)
    (hfirst : ist.outer = [] → ist.pvbuf.num = num)
    (hist : ist' = ist ∨ ist'.outer ≠ [] ∧ k ≤ 1 + p.isLong.toNat) :
    (ist'.outer ≠ [] → (∃ t ∈ segs ++ cur ++ [p], t.isLong = true) ∨ num ≤ (segs ++ cur ++ [p]).length) ∧
      (ist'.outer = [] → ist'.pvbuf.num = num) := by
  have hold : ist.outer ≠ [] →
      (∃ t ∈ segs ++ cur ++ [p], t.isLong = true) ∨ num ≤ (segs ++ cur ++ [p]).length := by
    intro hne
    rcases hfull hne with ⟨t, ht, hlong⟩ | hle
    · exact .inl ⟨t, List.mem_append_left _ ht, hlong⟩
    · exact .inr (by rw [List.length_append]; omega)
  rcases hist with rfl | ⟨houter, hk⟩
  · exact ⟨hold, hfirst⟩
  · refine ⟨fun _ => ?_, fun hnil => (houter hnil).elim⟩
    by_cases hnil : ist.outer = []
    · by_cases hshort : ∀ t ∈ segs ++ cur ++ [p], t.isLong = false
      · right
        have hcur : (entrySlots (cur.map .seg)).length = cur.length :=
          slots_length_of_short fun t ht => hshort t (by simp [ht])
        have hp : p.isLong = false := hshort p (by simp)
        have hnum := hfirst hnil
        rw [hat.num_eq, ← hat.index, hcur] at hnum
        rw [hp, Bool.toNat_false] at hk
        simp only [List.length_append, List.length_singleton]
        omega
      · left
        simpa using hshort
    · exact hold hnil

/-- **The clone gets every leaf in turn**, or what is asked for of it. -/
theorem iterateClonePvbuf_spec :
    LeafSpec (CloneInv c mem refs srcObjs objs st0 target length num leaves)
      (fun all ist st => ist.length = 0 ∧
        CloneInv c mem refs srcObjs objs st0 target length num leaves all [] ist st)
      (iterateClonePvbuf c) := by
  rintro pv i l1 l2 s pre post ist st hslots hi hfits
    ⟨cur, k, segs, os, hat, hk, hsum, hfrom, hout, hmem⟩
  have hat' := hat.perm (segRefs_mid_perm pre post s)
  have hbooks := hat'.books
  rw [List.append_assoc] at hbooks
  rw [iterateClonePvbuf]
  refine (iterateIovecCloneCommon_spec hslots hi hbooks).bind ?_
  rintro r st' hdone
  cases hdone with
  | abort hlength =>
    refine .pure ⟨s, .refl s, rfl, hslots, (fun h => by cases h), fun _ => ⟨hlength, ?_⟩⟩
    rw [← List.append_nil (pre ++ s :: post)] at hat
    exact ⟨cur, k, segs, os, hat, hk, fun he => (hsum he).done hlength,
      fun r => (hfrom r).trans (count_segRefs_le pre _ r), hout, hmem⟩
  | skip hlength hlen =>
    refine .pure ⟨s, .refl s, rfl, hslots, fun _ => ?_, fun h => by cases h⟩
    have hat1 : CloneAt c mem (segRefs (pre ++ [s] ++ post)) refs srcObjs objs
        { ist with offset := ist.offset - s.len } st cur k segs os := by
      rw [List.append_assoc]
      exact { hat with }
    exact ⟨cur, k, segs, os, hat1, hk, fun he => (hsum he).skip hlen,
      fun r => (hfrom r).trans (count_segRefs_le pre _ r), hout, hmem⟩
  | paddr hlength hlen hobj hslots' hout1 hmem1 hbooks1 =>
    rw [← List.append_assoc] at hbooks1
    have hsame : s.counted.len = s.len := Alike.len_eq (.inr rfl)
    have hat1 : CloneAt c mem (s.counted.refs ++ segRefs (pre ++ post)) refs srcObjs objs
        { ist with offset := 0 } st' cur k segs os := { hat' with books := hbooks1 }
    have hback : (s.counted.refs ++ segRefs (pre ++ post)).Perm
        (segRefs (pre ++ [s.counted] ++ post)) := by
      rw [List.append_assoc]
      exact (segRefs_mid_perm pre post s.counted).symm
    dsimp only
    rw [Seg.isLongAddr_addToOffset, ← Seg.isLong]
    have hw : 1 + s.counted.isLong.toNat ≤ 2 := by
      have hle := Bool.toNat_le s.counted.isLong
      omega
    refine (hat1.room hw (hk hlength)).bind ?_
    rintro ⟨ist', ok⟩ st2 ⟨hout2, hmem2, ⟨heq, hat2⟩ |
      ⟨cur', k', segs', os', hok, hat2, hk', hmore, hcur, hlen', hoff', herr', hist⟩⟩
    · obtain ⟨rfl, rfl⟩ := Prod.mk.inj heq
      refine .pure ⟨s.counted, .inr rfl, hobj, hslots', fun _ => ?_, fun h => by cases h⟩
      exact ⟨cur, k, segs, os, hat2.perm hback, hk, fun he => by (cases he),
        fun r => (hfrom r).trans (count_segRefs_le pre _ r), hout2.trans (hout1.trans hout),
        hmem2.trans (hmem1.trans hmem)⟩
    · obtain rfl : ok = true := hok
      dsimp only at hat2 hist hlen' hoff' herr' hmore
      have hfits' : s.counted.Fits := Alike.fits (.inr rfl) hfits
      refine (hat2.put s.one_ref_counted hfits' (by omega) (by omega) (by omega) hk').bind ?_
      rintro pvbuf st3 ⟨hout3, hmem3, hnum, hat3⟩
      refine .pure ⟨s.counted, .inr rfl, hobj, hslots', fun _ => ?_, fun h => by cases h⟩
      have htrim : Trim s.counted ist.offset (min ist.length (s.len - ist.offset)) _ :=
        (Seg.addToOffset_trim hfits' (by omega) (by omega)).2
      refine ⟨_, _, _, _, hat3.perm hback, ?_, fun he => ?_, fun r => ?_,
        hout3.trans (hout2.trans (hout1.trans hout)), hmem3.trans (hmem2.trans (hmem1.trans hmem))⟩
      · intro hne
        have hne : ist'.length - min ist.length (s.len - ist.offset) ≠ 0 := hne
        have hlt := hmore (by omega)
        omega
      · have hsum0 := hsum (herr'.symm.trans he)
        obtain ⟨hfull, hfirst⟩ := hat1.full_of_room (p := (s.counted.addToOffset ist.offset).setLen
          (min ist.length (s.len - ist.offset))) hsum0.full hsum0.first
          (by rw [htrim.isLong]; exact hist)
        rw [← List.append_assoc, hcur]
        refine hsum0.counted.put (by omega) (by rw [hsame]) htrim ?_ ?_ ?_ ?_
        · simp [hlen']
        · exact hoff'
        · exact hfull
        · exact fun hnil => hnum.trans (hfirst hnil)
      · have hle := hfrom r
        rw [← List.append_assoc, hcur]
        simp only [segRefs_append, segRefs_cons, segRefs_nil, htrim.refs, List.count_append] at hle ⊢
        omega

/-! ## The whole source -/

/-- What a clone has come to when the source has been gone through. -/
structure ClonedFrom (c : MgrConfig) (mem : Mem) (refs : List Ref) (objs : List (Nat × Nat))
    (depth : Nat) (pv : Pvbuf) (st0 : PvSt) (offset length num : Nat) (t : Iter IterClone) (st : PvSt)
    (cur : List Seg) (k : Nat) (segs : List Seg) (os : List (Nat × Nat)) : Prop where
  wf : Wf depth t.pvbuf
  obj : t.pvbuf.obj = pv.obj
  objs_eq : t.pvbuf.objs = pv.objs
  alike : List.Forall₂ Alike pv.segs t.pvbuf.segs
  out : st.out = st0.out
  mem_eq : st.mgr.mem = st0.mgr.mem
  held : CloneAt c mem (segRefs t.pvbuf.segs) refs pv.objs objs t.priv st cur k segs os
  room : t.priv.length ≠ 0 → k ≠ 0
  source : ∀ r, (segRefs (segs ++ cur)).count r ≤ (segRefs t.pvbuf.segs).count r
  sum : t.priv.error = false → CloneSum st0.mgr.mem
    (((pv.contents st0.mgr.mem).drop offset).take length) length num (cloneLeaves offset pv.segs)
    (segs ++ cur) [] t.priv

theorem iterateIovec_clone_spec (hwf : Wf depth pv) (hn : depth ≤ n)
    (hnew : Slots new (List.replicate new.num .null))
    (hbooks : Books c mem st.mgr (segRefs pv.segs ++ refs) (pv.objs ++ (new.obj :: objs))) :
    Returns (iterateIovec c (iterateClonePvbuf c) n pv
        { length := length, offset := offset, pvbuf := new }) st fun t st' =>
      ∃ cur k segs os, ClonedFrom c mem refs objs depth pv st offset length new.num t st' cur k segs os := by
  have hstart : CloneInv c mem refs pv.objs objs st
      (((pv.contents st.mgr.mem).drop offset).take length) length new.num (cloneLeaves offset pv.segs) []
      (pv.segs ++ []) { length := length, offset := offset, pvbuf := new } st := by
    have hseven := new.le_num
    refine ⟨[], new.num, [], [], ⟨?_, rfl, by simp, ⟨rfl, rfl⟩, by simp, ?_⟩, by omega,
      fun _ => ⟨?_, ?_, ?_, by simp, by simp⟩, by simp, rfl, rfl⟩
    · simpa using hnew
    · simpa using hbooks
    · simp [PvbufOf.contents]
    · simp [segsLen]
    · simp
  refine (iterateIovec_rule iterateClonePvbuf_spec hn hwf
    (fun o ho => hbooks.index_lt (List.mem_append_left _ ho)) hstart).mono ?_
  intro t st' ht
  have hdone : CloneInv c mem refs pv.objs objs st
      (((pv.contents st.mgr.mem).drop offset).take length) length new.num (cloneLeaves offset pv.segs)
      t.pvbuf.segs [] t.priv st' := by
    cases hcont : t.cont with
    | true => simpa using ht.next hcont
    | false => simpa using (ht.last hcont).2
  obtain ⟨cur, k, segs, os, hat, hk, hsum, hfrom, hout, hmem⟩ := hdone
  rw [List.append_nil] at hat
  exact ⟨cur, k, segs, os, ht.wf, ht.obj, ht.objs, ht.alike, hout, hmem, hat, hk, hfrom, hsum⟩

end Xdp2
