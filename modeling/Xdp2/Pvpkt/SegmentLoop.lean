import Xdp2.Pvpkt.Packets

/-!
# The loop over a leaf

`__xdp2_pvpkt_iterate_segment_pvbuf` gives the bytes of a leaf to packets, turn by turn; `Packing`
holds between two turns. A turn puts a part of the leaf into the vector (`turn_spec`), the loop all
of it (`segmentLoop_spec`), cut as `Chunks.Cut` says. Whether some long address is a packet of its
own is tracked along: the iterator over the vector sees such a packet twice.
-/

namespace Xdp2

open BitWord StateError Chunks

/-! ## The packets -/

/-- The lengths of packets. -/
def packetLens (all : List IovEntry) : List Nat := all.map fun e => segsLen e.segs

theorem packetLens_append (all : List IovEntry) (e : IovEntry) :
    packetLens (all ++ [e]) = packetLens all ++ [segsLen e.segs] := List.map_append

theorem sum_packetLens (all : List IovEntry) : (packetLens all).sum = segsLen (entrySegs all) := by
  induction all with
  | nil => rfl
  | cons e all ih =>
    rw [entrySegs_cons, segsLen_append, ← ih]
    rfl

/-- A packet the iterator sees twice. -/
def IovEntry.twice : IovEntry → Bool
  | seg s => s.isLong
  | sub _ _ => false
  | gap => false

/-- Whether the iterator sees some packet twice. -/
def someTwice (all : List IovEntry) : Bool := all.any IovEntry.twice

theorem someTwice_append (all : List IovEntry) (e : IovEntry) :
    someTwice (all ++ [e]) = (someTwice all || e.twice) := by
  simp [someTwice]

/-- A vector under construction with the packets `all`, the last of which is a pvbuf at the end of the
chain if it is to take more. -/
def Packing (c : MgrConfig) (mem : Mem) (srcRefs refs : List Ref) (srcObjs objs : List (Nat × Nat))
    (ist : IterSegment) (st : PvSt) (all : List IovEntry) : Prop :=
  ∃ D packets es k os, SegAt c mem srcRefs refs srcObjs objs ist.clone_iter st D packets es k os ∧
    packets ++ es = all ∧ (ist.packet_need_length ≠ 0 → ∃ es' dl sub, es = es' ++ [.sub dl sub])

/-- What is left of the vector when an allocation has failed. -/
def Broken (c : MgrConfig) (mem : Mem) (srcRefs refs : List Ref) (srcObjs objs : List (Nat × Nat))
    (cist : IterClone) (st : PvSt) : Prop :=
  cist.error = true ∧ ∃ D packets es k os, SegAt c mem srcRefs refs srcObjs objs cist st D packets es k os

/-- Whether a packet of its own is made of bytes of a long address, of which `data_len` are to come: what
the last packet needs goes there first, and then it is a packet's worth, or all that is asked for. -/
def IterSegment.alone (ist : IterSegment) (long : Bool) (need data_len : Nat) : Bool :=
  !ist.pvbufs_only && long && decide (need < data_len ∧ (ist.segment_length ≤ data_len - need ∨
    (need = 0 ∧ data_len = ist.clone_iter.length)))

/-- The iterator with another vector and another need. -/
def IterSegment.next (ist : IterSegment) (need : Nat) (pvbuf : Pvbuf) (index : Nat) (outer : List Pvbuf) :
    IterSegment :=
  { ist with
    packet_need_length := need
    clone_iter := { ist.clone_iter with pvbuf := pvbuf, index := index, outer := outer } }

/-- What a turn has come to that put `size` bytes into the packets. -/
structure Turned (c : MgrConfig) (mem : Mem) (srcRefs refs : List Ref) (srcObjs objs : List (Nat × Nat))
    (ist : IterSegment) (all : List IovEntry) (s : Seg) (off size data_len rest : Nat) (ist' : IterSegment)
    (st' : PvSt) (all' : List IovEntry) : Prop where
  same : ∃ need pvbuf index outer, ist' = ist.next need pvbuf index outer
  packing : Packing c mem srcRefs refs srcObjs objs ist' st' all'
  pos : 0 < size
  le : size ≤ data_len
  segs : entrySegs all' = entrySegs all ++ [s.piece off size]
  cut : Cut ist.segment_length ist'.packet_need_length (rest - size) (packetLens all')
  twice : (someTwice all' || ist.alone s.isLong ist'.packet_need_length (data_len - size)) =
    (someTwice all || ist.alone s.isLong ist.packet_need_length data_len)

/-- A block of the loop does its turn, or an allocation fails. -/
def TurnSpec (c : MgrConfig) (mem : Mem) (srcRefs refs : List Ref) (srcObjs objs : List (Nat × Nat))
    (ist : IterSegment) (all : List IovEntry) (s : Seg) (off data_len rest : Nat) (st : PvSt)
    (block : PvM (IterSegment × Option Nat)) : Prop :=
  Returns block st fun r st' => st'.out = st.out ∧ st'.mgr.mem = st.mgr.mem ∧
    ((r.2 = none ∧ Broken c mem srcRefs refs srcObjs objs r.1.clone_iter st') ∨
      ∃ size all', r.2 = some size ∧
        Turned c mem srcRefs refs srcObjs objs ist all s off size data_len rest r.1 st' all')

/-! ## A turn -/

theorem IterSegment.alone_false (ist : IterSegment) (need data_len : Nat) :
    ist.alone false need data_len = false := by
  rw [IterSegment.alone, Bool.and_false, Bool.false_and]

theorem Part.segsLen_piece (h : Part s off size) : segsLen [s.piece off size] = size := by
  simp [segsLen, Seg.piece, h.trim.len]

theorem startPacket_spec (hcb : IdleCb ist.cb) (hlist : ist.pvbuf_list_size < 16)
    (hpos : 0 < ist.segment_length) (hs : ∀ a, s = .pbuf a → a.one_ref = false) (hfits : s.Fits)
    (hdata : 0 < data_len) (hle : off + data_len ≤ s.len) (hrest : data_len ≤ rest)
    (hlength : rest ≤ ist.clone_iter.length) (hneed : ist.packet_need_length = 0)
    (h : Packing c mem (s.refs ++ srcRefs) refs srcObjs objs ist st all)
    (hcut : Cut ist.segment_length 0 rest (packetLens all)) :
    TurnSpec c mem (s.refs ++ srcRefs) refs srcObjs objs ist all s off data_len rest st
      (startPacket c ist (s.addToOffset off) data_len) := by
  obtain ⟨D, packets, es, k, os, hat, hall, -⟩ := h
  have hlong : (s.addToOffset off).paddr1.isLongAddr = s.isLong := s.isLongAddr_addToOffset off
  have hsize : 0 < min ist.segment_length data_len := by omega
  have hpart : Part s off (min ist.segment_length data_len) := Seg.part hs hfits hsize (by omega)
  rw [startPacket]
  refine .step (closePacket_run hcb st) ?_
  dsimp only
  rw [hlong]
  refine (packetRoom_spec hlist hat).bind ?_
  rintro r st1 ⟨hout1, hmem1, ⟨rfl, hat1⟩ |
    ⟨pvbuf, index, outer, packets', es', k', os', rfl, hat1, hk, hsame⟩⟩
  · exact .pure ⟨hout1, hmem1, .inl ⟨rfl, rfl, _, _, _, _, _, hat1⟩⟩
  rw [hall] at hsame
  dsimp only
  by_cases hdirect : !ist.pvbufs_only ∧
      (ist.segment_length ≤ data_len ∨ data_len = ist.clone_iter.length)
  · rw [if_pos hdirect]
    refine (putPaddr_spec hpart hat1 hk).mono ?_
    rintro r st2 ⟨hout2, hmem2, pvbuf', index', k'', rfl, hat2⟩
    refine ⟨hout2.trans hout1, hmem2.trans hmem1, .inr ⟨_, all ++ [.seg (s.piece off _)], rfl,
      ⟨_, _, _, _, rfl⟩, ⟨_, _, _, _, _, hat2, by rw [← List.append_assoc, hsame],
        fun hne => (hne hneed).elim⟩, hsize, Nat.min_le_right _ _, ?_, ?_, ?_⟩⟩
    · simp [IovEntry.segs]
    · rw [packetLens_append, IovEntry.segs, hpart.segsLen_piece]
      dsimp only
      rw [hneed]
      exact hcut.start (by omega) hsize (by omega) (by omega)
    · have hkind : (IovEntry.seg (s.piece off (min ist.segment_length data_len))).twice = s.isLong :=
        hpart.trim.isLong
      rw [someTwice_append, hkind]
      cases s.isLong with
      | false => rw [ist.alone_false, ist.alone_false, Bool.or_false]
      | true =>
        have halone : ist.alone true ist.packet_need_length data_len = true := by
          simp [IterSegment.alone, hneed, hdata, hdirect.2, by simpa using hdirect.1]
        rw [halone, Bool.or_true, Bool.true_or]
  · rw [if_neg hdirect]
    refine (putPvbuf_spec hpart (by omega) hat1 (by omega)).mono ?_
    rintro r st2 ⟨hout2, hmem2, ⟨rfl, hat2⟩ | ⟨pvbuf', index', k'', dl, sub, rfl, hat2, hsegs⟩⟩
    · exact ⟨hout2.trans hout1, hmem2.trans hmem1, .inl ⟨rfl, rfl, _, _, _, _, _, hat2⟩⟩
    refine ⟨hout2.trans hout1, hmem2.trans hmem1, .inr ⟨_, all ++ [.sub dl sub], rfl,
      ⟨_, _, _, _, rfl⟩, ⟨_, _, _, _, _, hat2, by rw [← List.append_assoc, hsame],
        fun _ => ⟨_, _, _, rfl⟩⟩, hsize, Nat.min_le_right _ _, ?_, ?_, ?_⟩⟩
    · simp [IovEntry.segs, hsegs]
    · rw [packetLens_append, IovEntry.segs, hsegs, hpart.segsLen_piece]
      exact hcut.start (by omega) hsize (by dsimp only; omega) (by dsimp only; omega)
    · rw [someTwice_append, IovEntry.twice, Bool.or_false]
      congr 1
      have hcond : ist.pvbufs_only = false → data_len < ist.segment_length ∧
          data_len ≠ ist.clone_iter.length := by
        intro honly
        rw [not_and_or, honly] at hdirect
        simpa using hdirect
      rw [IterSegment.alone, IterSegment.alone, hneed]
      cases honly : ist.pvbufs_only with
      | true => rfl
      | false =>
        obtain ⟨hlt, hne⟩ := hcond honly
        congr 1
        refine decide_eq_decide.mpr (iff_of_false ?_ ?_) <;> omega

theorem fillPacket_turn (hs : ∀ a, s = .pbuf a → a.one_ref = false) (hfits : s.Fits)
    (hdata : 0 < data_len) (hle : off + data_len ≤ s.len) (hlength : data_len ≤ ist.clone_iter.length)
    (hneed : ist.packet_need_length ≠ 0)
    (h : Packing c mem (s.refs ++ srcRefs) refs srcObjs objs ist st all)
    (hcut : Cut ist.segment_length ist.packet_need_length rest (packetLens all)) :
    TurnSpec c mem (s.refs ++ srcRefs) refs srcObjs objs ist all s off data_len rest st
      (fillPacket c ist (s.addToOffset off) data_len) := by
  obtain ⟨D, packets, es, k, os, hat, rfl, hlast⟩ := h
  obtain ⟨es, dl, sub, rfl⟩ := hlast hneed
  have hsize : 0 < min ist.packet_need_length data_len := by omega
  have hpart : Part s off (min ist.packet_need_length data_len) := Seg.part hs hfits hsize (by omega)
  refine (fillPacket_spec rfl hpart hat).mono ?_
  rintro r st' ⟨hout, hmem, D', pvbuf, dl', sub', ⟨rfl, hat'⟩ | ⟨rfl, hat', hsegs⟩⟩
  · exact ⟨hout, hmem, .inl ⟨rfl, rfl, _, _, _, _, _, hat'⟩⟩
  refine ⟨hout, hmem, .inr ⟨_, packets ++ es ++ [.sub dl' sub'], rfl, ⟨_, _, _, _, rfl⟩,
    ⟨_, _, _, _, _, hat', (List.append_assoc _ _ _).symm, fun _ => ⟨_, _, _, rfl⟩⟩, hsize,
    Nat.min_le_right _ _, ?_, ?_, ?_⟩⟩
  · simp [IovEntry.segs, hsegs]
  · rw [← List.append_assoc, packetLens_append] at hcut
    rw [packetLens_append, IovEntry.segs, hsegs, segsLen_append, hpart.segsLen_piece]
    exact hcut.fill (Nat.min_le_left _ _)
  · rw [← List.append_assoc, someTwice_append, someTwice_append, IovEntry.twice, IovEntry.twice]
    congr 1
    rw [IterSegment.alone, IterSegment.alone]
    congr 1
    refine decide_eq_decide.mpr ?_
    dsimp only
    omega

theorem segmentTurn_spec (hcb : IdleCb ist.cb) (hlist : ist.pvbuf_list_size < 16)
    (hpos : 0 < ist.segment_length) (hs : ∀ a, s = .pbuf a → a.one_ref = false) (hfits : s.Fits)
    (hdata : 0 < data_len) (hle : off + data_len ≤ s.len) (hrest : data_len ≤ rest)
    (hlength : rest ≤ ist.clone_iter.length)
    (h : Packing c mem (s.refs ++ srcRefs) refs srcObjs objs ist st all)
    (hcut : Cut ist.segment_length ist.packet_need_length rest (packetLens all)) :
    TurnSpec c mem (s.refs ++ srcRefs) refs srcObjs objs ist all s off data_len rest st
      (segmentTurn c ist (s.addToOffset off) data_len) := by
  rw [segmentTurn]
  by_cases hneed : ist.packet_need_length = 0
  · rw [if_pos hneed]
    rw [hneed] at hcut
    exact startPacket_spec hcb hlist hpos hs hfits hdata hle hrest hlength hneed h hcut
  · rw [if_neg hneed]
    exact fillPacket_turn hs hfits hdata hle (by omega) hneed h hcut

/-! ## The loop -/

/-- What the loop has come to that put `data_len` bytes of a leaf into the packets. -/
structure Looped (c : MgrConfig) (mem m : Mem) (srcRefs refs : List Ref) (srcObjs objs : List (Nat × Nat))
    (ist : IterSegment) (all : List IovEntry) (s : Seg) (off data_len rest : Nat) (ist' : IterSegment)
    (st' : PvSt) (all' : List IovEntry) : Prop where
  same : ∃ need pvbuf index outer, ist' = ist.next need pvbuf index outer
  packing : Packing c mem srcRefs refs srcObjs objs ist' st' all'
  bytes : segBytes m (entrySegs all') =
    segBytes m (entrySegs all) ++ ((s.bytes m).drop off).take data_len
  cut : Cut ist.segment_length ist'.packet_need_length (rest - data_len) (packetLens all')
  twice : someTwice all' = (someTwice all || ist.alone s.isLong ist.packet_need_length data_len)

theorem Looped.nil (h : Packing c mem srcRefs refs srcObjs objs ist st all)
    (hcut : Cut ist.segment_length ist.packet_need_length rest (packetLens all)) :
    Looped c mem m srcRefs refs srcObjs objs ist all s off 0 rest ist st all where
  same := ⟨_, _, _, _, rfl⟩
  packing := h
  bytes := by rw [List.take_zero, List.append_nil]
  cut := hcut
  twice := by simp [IterSegment.alone]

/-- **The loop puts the bytes of a leaf into packets**, or an allocation fails. -/
theorem segmentLoop_spec (hturns : data_len ≤ turns) (hcb : IdleCb ist.cb)
    (hlist : ist.pvbuf_list_size < 16) (hpos : 0 < ist.segment_length)
    (hs : ∀ a, s = .pbuf a → a.one_ref = false) (hfits : s.Fits) (hle : off + data_len ≤ s.len)
    (hrest : data_len ≤ rest) (hlength : rest ≤ ist.clone_iter.length)
    (h : Packing c mem (s.refs ++ srcRefs) refs srcObjs objs ist st all)
    (hcut : Cut ist.segment_length ist.packet_need_length rest (packetLens all)) :
    Returns (segmentLoop c turns ist (s.addToOffset off) data_len) st fun r st' =>
      st'.out = st.out ∧ st'.mgr.mem = st.mgr.mem ∧
      ((r.2 = false ∧ Broken c mem (s.refs ++ srcRefs) refs srcObjs objs r.1.clone_iter st') ∨
        ∃ all', r.2 = true ∧ Looped c mem m (s.refs ++ srcRefs) refs srcObjs objs ist all s off data_len rest
          r.1 st' all') := by
  induction turns generalizing ist st all off data_len rest with
  | zero =>
    obtain rfl := Nat.le_zero.mp hturns
    rw [segmentLoop, if_pos rfl]
    exact .pure ⟨rfl, rfl, .inr ⟨all, rfl, .nil h hcut⟩⟩
  | succ turns ih =>
    rw [segmentLoop]
    by_cases hzero : data_len = 0
    · subst hzero
      rw [if_pos rfl]
      exact .pure ⟨rfl, rfl, .inr ⟨all, rfl, .nil h hcut⟩⟩
    rw [if_neg hzero]
    refine (segmentTurn_spec hcb hlist hpos hs hfits (by omega) hle hrest hlength h hcut).bind ?_
    rintro ⟨ist1, size⟩ st1 ⟨hout1, hmem1, ⟨rfl, hbroken⟩ | ⟨size, all1, rfl, ht⟩⟩
    · exact .pure ⟨hout1, hmem1, .inl ⟨rfl, hbroken⟩⟩
    obtain ⟨need, pvbuf, index, outer, rfl⟩ := ht.same
    have hsize := ht.pos
    have hsize' := ht.le
    dsimp only
    rw [Seg.addToOffset_add]
    have hcb1 : IdleCb (ist.next need pvbuf index outer).cb := hcb
    have hlength1 : rest - size ≤ (ist.next need pvbuf index outer).clone_iter.length :=
      Nat.le_trans (Nat.sub_le _ _) hlength
    refine (ih (by omega) hcb1 hlist hpos (by omega) (by omega) hlength1 ht.packing ht.cut).mono ?_
    rintro ⟨ist2, ok⟩ st2 ⟨hout2, hmem2, hr⟩
    refine ⟨hout2.trans hout1, hmem2.trans hmem1, hr.imp id ?_⟩
    rintro ⟨all₂, rfl, hl⟩
    refine ⟨all₂, rfl, ?_, hl.packing, ?_, ?_, ?_⟩
    · obtain ⟨need', pvbuf', index', outer', rfl⟩ := hl.same
      exact ⟨need', pvbuf', index', outer', rfl⟩
    · have hpart : Part s off size := Seg.part hs hfits hsize (by omega)
      have hpiece : (s.piece off size).bytes m = ((s.bytes m).drop off).take size :=
        hpart.trim.bytes_eq (by omega)
      have hsplit : ((s.bytes m).drop off).take data_len = ((s.bytes m).drop off).take size ++
          ((s.bytes m).drop (off + size)).take (data_len - size) := by
        rw [← List.drop_drop, ← List.take_add, Nat.add_sub_cancel' hsize']
      rw [hl.bytes, ht.segs, segBytes_append, segBytes_cons, hpiece, hsplit]
      simp
    · have hcut' := hl.cut
      rw [Nat.sub_sub, Nat.add_sub_cancel' hsize'] at hcut'
      exact hcut'
    · rw [hl.twice]
      exact ht.twice

end Xdp2
