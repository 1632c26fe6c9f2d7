import Xdp2.Pvbuf.Books
import Xdp2.Pvbuf.InsertSpec

/-!
# Appending a leaf to a packet under construction

`__xdp2_pvbuf_append_paddr` without compression, for a leaf: it touches no pbuf, so `Books` is kept
for any references held (`appendPaddr_books`). `BackDone` is what becomes of the entries at the
back.
-/

namespace Xdp2

open BitWord StateError

variable {st : PvSt} {pv : Pvbuf} {arg : Arg}

/-- Appending the leaf `a`: it is there, or, if no pvbuf could be had, the leaves are those there were. -/
structure Appended (c : MgrConfig) (mem : Mem) (refs : List Ref) (objs : List (Nat × Nat)) (depth : Nat)
    (a : Seg) (pv : Pvbuf) (st : PvSt) (r : Pvbuf × Bool) (st' : PvSt) : Prop where
  wf : Wf (depth + 1) r.1
  obj : r.1.obj = pv.obj
  segs : r.1.segs = pv.segs ++ if r.2 then [a] else []
  out : st'.out = st.out
  mem_eq : st'.mgr.mem = st.mgr.mem
  books : Books c mem st'.mgr refs (r.1.objs ++ objs)

/-- What appending a leaf to a well-formed pvbuf has to do. -/
def AppendSpec (c : MgrConfig) (mem : Mem) (depth : Nat) (a : Seg)
    (insert : Pvbuf → PvM (Pvbuf × Bool)) : Prop :=
  ∀ ⦃pv : Pvbuf⦄ ⦃st : PvSt⦄ ⦃refs : List Ref⦄ ⦃objs : List (Nat × Nat)⦄, Wf depth pv →
    Books c mem st.mgr refs (pv.objs ++ objs) →
    Returns (insert pv) st (Appended c mem refs objs depth a pv st)

/-- The entries `old` behind `es1` have become others, with the leaf behind them, or not. -/
def BackDone (c : MgrConfig) (mem : Mem) (refs : List Ref) (objs : List (Nat × Nat)) (depth : Nat)
    (a : Seg) (es1 old : List IovEntry) (pv : Pvbuf) (st : PvSt) (r : Pvbuf × Bool) (st' : PvSt) : Prop :=
  ∃ es, Slots r.1 (entrySlots (es1 ++ es)) ∧ (∀ e ∈ es, e.Ok (Wf depth)) ∧ r.1.obj = pv.obj ∧
    entrySegs es = entrySegs old ++ (if r.2 then [a] else []) ∧ st'.out = st.out ∧
    st'.mgr.mem = st.mgr.mem ∧
    Books c mem st'.mgr refs (entryObjs es ++ (pv.obj :: (entryObjs es1 ++ objs)))

theorem BackDone.appended (h : BackDone c mem refs objs (depth + 1) a es1 old pv st r st')
    (hs : Slots pv (entrySlots (es1 ++ old))) (hok : ∀ e ∈ es1 ++ old, e.Ok (Wf depth)) :
    Appended c mem refs objs (depth + 1) a pv st r st' := by
  obtain ⟨es, hs', hes, hobj, hsegs, hout, hmem, hbooks⟩ := h
  refine ⟨⟨_, hs', fun e he => ?_⟩, hobj, ?_, hout, hmem, hbooks.perm (.refl _) ?_⟩
  · rcases List.mem_append.mp he with he | he
    · exact (hok e (List.mem_append_left _ he)).mono fun _ => Wf.succ
    · exact hes e he
  · rw [hs'.segs_eq, hs.segs_eq, entrySegs_append, entrySegs_append, hsegs, List.append_assoc]
  · rw [hs'.objs_eq, hobj, entryObjs_append]
    refine List.perm_iff_count.mpr fun o => ?_
    simp only [List.count_append, List.count_cons]
    omega

theorem Books.focus_back (hs : Slots pv (entrySlots (es1 ++ old)))
    (h : Books c mem st.mgr refs (pv.objs ++ objs)) :
    Books c mem st.mgr refs (entryObjs old ++ (pv.obj :: (entryObjs es1 ++ objs))) := by
  refine h.perm (.refl _) (List.perm_iff_count.mpr fun o => ?_)
  rw [hs.objs_eq, entryObjs_append]
  simp only [List.count_append, List.count_cons]
  omega

theorem NewSpec.backDone (hm : NewSpec c .back arg.toItem es1 [] old pv m)
    (hs : Slots pv (entrySlots (es1 ++ old))) (hok : ∀ e ∈ old, e.Ok (Wf (depth + 1)))
    (hold : entryObjs old = []) (h : Books c mem st.mgr refs (pv.obj :: (entryObjs es1 ++ objs))) :
    Returns m st (BackDone c mem refs objs (depth + 1) arg.leaf es1 old pv st) := by
  obtain ⟨size, st1, hrun1, hsize, hout1, hmem1, hbooks1⟩ := pvbufGetSize_books h
  obtain ⟨got, st2, hrun2, hout2, hmem2, hcase⟩ := pvbufAlloc_books hsize hbooks1
  have hout := hout2.trans hout1
  have hmem := hmem2.trans hmem1
  rcases hcase with ⟨rfl, -, hbooks2⟩ | ⟨new, rfl, -, hnew, hbooks2⟩
  · refine ((hm ⟨size, st1, hrun1, hrun2, nofun⟩).returns arg.not_tooLong).mono ?_
    rintro r st' ⟨rfl, hnone, -⟩
    rw [hnone rfl]
    exact ⟨old, hs, hok, rfl, (List.append_nil _).symm, hout, hmem, by rwa [hold]⟩
  · refine ((hm ⟨size, st1, hrun1, hrun2, fun _ heq => Option.some.inj heq ▸ hnew⟩).returns
      arg.not_tooLong).mono ?_
    rintro ⟨pv', ok⟩ st' ⟨rfl, -, hmade⟩
    obtain ⟨rfl, hobj, new', es, k, hobj', hnew', hok', hsegs, hobjs, hs'⟩ := hmade new rfl
    have hsegs' : entrySegs es = entrySegs old ++ [arg.leaf] := hsegs
    have hobjs : entryObjs es = [] := hobjs
    refine ⟨gaps k ++ [.sub _ new'], by simpa [IovEntry.slots] using hs', fun e he => ?_, hobj, ?_, hout,
      hmem, ?_⟩
    · rcases List.mem_append.mp he with he | he
      · exact forall_ok_gaps k e he
      · obtain rfl := List.mem_singleton.mp he
        have hwf : Wf 1 new' := ⟨es, hnew', hok'⟩
        refine ⟨hwf.mono (Nat.le_add_left 1 depth), cachedLen_cases ?_⟩
        rw [hnew'.segs_eq, hsegs]
        exact arg.toItem.segsLen_join .back _
    · simpa [IovEntry.segs, hnew'.segs_eq] using hsegs'
    · rw [← hobj'] at hbooks2
      simpa [IovEntry.objs, hnew'.objs_eq, hobjs] using hbooks2

theorem insertIntoSub_books {insert : Pvbuf → PvM (Pvbuf × Bool)} {sub : Pvbuf}
    (hins : AppendSpec c mem depth arg.leaf insert)
    (hs : Slots pv (entrySlots (es1 ++ [.sub data_length sub])))
    (hok : (IovEntry.sub data_length sub).Ok (Wf depth)) (hi : (entrySlots es1).length = i)
    (h : Books c mem st.mgr refs (sub.objs ++ (pv.obj :: (entryObjs es1 ++ objs)))) :
    Returns (insertIntoSub insert pv i data_length sub arg.length) st
      (BackDone c mem refs objs (depth + 1) arg.leaf es1 [.sub data_length sub] pv st) := by
  have hsl : Slots pv (entrySlots es1 ++ .pvbuf data_length sub :: []) := by
    simpa [IovEntry.slots] using hs
  -- what both ends have in common
  have hput : ∀ {dl : BitVec 32} {r : Pvbuf × Bool} {st' : PvSt},
      Appended c mem refs (pv.obj :: (entryObjs es1 ++ objs)) depth arg.leaf sub st r st' →
      (dl = 0 ∨ dl.toNat = segsLen r.1.segs) →
      BackDone c mem refs objs (depth + 1) arg.leaf es1 [.sub data_length sub] pv st
        (pv.set i (.pvbuf dl r.1), r.2) st' := by
    intro dl r st' hr hdl
    refine ⟨[.sub dl r.1], ?_, fun e he => ?_, rfl, ?_, hr.out, hr.mem_eq, ?_⟩
    · simpa [IovEntry.slots] using hsl.set (y := .pvbuf dl r.1) hi rfl
    · obtain rfl := List.mem_singleton.mp he
      exact ⟨hr.wf, hdl⟩
    · simpa [IovEntry.segs] using hr.segs
    · simpa [IovEntry.objs] using hr.books
  rw [insertIntoSub]
  refine (hins hok.1 h).bind fun r st1 hr => ?_
  obtain ⟨sub', ok⟩ := r
  cases ok with
  | false =>
    refine .pure (hput hr ?_)
    rw [hr.segs]
    simpa using hok.2
  | true =>
    refine .pure (hput hr ?_)
    have hsegs : sub'.segs = sub.segs ++ [arg.leaf] := hr.segs
    have hlen : segsLen sub'.segs = segsLen sub.segs + arg.length := by
      rw [hsegs, segsLen_append]
      simp [segsLen, Arg.leaf, arg.len_eq]
    rw [adjustLen]
    split
    · rename_i hne
      rw [← hok.2.resolve_left hne] at hlen
      exact cachedLen_cases (.inr hlen)
    · rename_i hzero
      exact .inl (not_not.mp hzero)

theorem findAppendSlot_run (hs : Slots pv (entrySlots es)) (st : PvSt) :
    ∃ index, (findAppendSlot false pv).run st = .ok (pv, index) st ∧ AppendSlot pv.num index es := by
  rw [findAppendSlot]
  rcases hs.backSlot with ⟨hz, rest, e, hne, rfl⟩ | ⟨hz, hslot⟩
  · rw [if_neg (not_not.mpr hz), if_neg Bool.false_ne_true]
    exact ⟨noSlot, rfl, .inr ⟨rfl, rest, e, hne, rfl⟩⟩
  · rw [if_pos hz]
    exact ⟨_, rfl, hslot⟩

theorem appendPaddrIntoIovec_books {insert : Pvbuf → PvM (Pvbuf × Bool)}
    (hins : AppendSpec c mem depth arg.leaf insert) (hs : Slots pv (entrySlots (es1 ++ [e])))
    (he : e ≠ .gap) (hok : e.Ok (Wf depth)) (hq : q + 1 = (entrySlots es1).length + e.slots.length)
    (h : Books c mem st.mgr refs (e.objs ++ (pv.obj :: (entryObjs es1 ++ objs)))) :
    Returns (appendPaddrIntoIovec c insert pv q arg.seg.paddr1 arg.seg.paddr2 arg.length true) st
      (BackDone c mem refs objs (depth + 1) arg.leaf es1 [e] pv st) := by
  have hsl : Slots pv (entrySlots es1 ++ (e.slots ++ [])) := by simpa using hs
  match e, he with
  | .sub data_length sub, _ =>
    obtain rfl : q = (entrySlots es1).length := Nat.succ.inj hq
    unfold appendPaddrIntoIovec
    rw [hsl.get_at (x := .pvbuf data_length sub) rfl]
    exact insertIntoSub_books hins hs hok rfl h
  | .seg t, _ =>
    unfold appendPaddrIntoIovec
    split
    · rename_i hget
      exact (hsl.get_not_pvbuf hq _ _ hget).elim
    · have hs' : Slots pv (entrySlots (es1 ++ [.seg t] ++ [])) := by rwa [List.append_nil]
      refine (appendPaddrNewPvbuf_new arg.toItem hs' hok hq).backDone hs (fun e he => ?_) rfl h
      obtain rfl := List.mem_singleton.mp he
      exact hok

/-- **Appending puts the leaf after the others**, whatever is referred to. -/
theorem appendPaddr_books (arg : Arg) {n : Nat} (hn : depth ≤ n) :
    AppendSpec c mem depth arg.leaf
      (appendPaddr c false arg.seg.paddr1 arg.seg.paddr2 arg.length n) := by
  induction n generalizing depth with
  | zero =>
    obtain rfl := Nat.le_zero.mp hn
    exact fun _ _ _ _ hwf => hwf.elim
  | succ n ih =>
    obtain _ | depth := depth
    · exact fun _ _ _ _ hwf => hwf.elim
    have ih := ih (Nat.le_of_succ_le_succ hn)
    intro pv st refs objs hwf hbooks
    have hindex := hbooks.index_lt (List.mem_append_left _ hwf.obj_mem_objs)
    obtain ⟨es, hs, hok⟩ := hwf
    have hpos := pv.le_num
    have hlen := hs.length
    rw [appendPaddr]
    refine .step (assert_run (decide_eq_true hindex) _ st) ?_
    obtain ⟨index, hfind, hslot⟩ := findAppendSlot_run hs st
    refine .step hfind ?_
    dsimp only
    rcases hslot with ⟨hlt, rest, k, rfl, hrest⟩ | ⟨rfl, rest, e, hne, rfl⟩
    · have hback := hbooks.focus_back hs
      rw [entryObjs_gaps, List.nil_append] at hback
      rw [entrySlots_append, List.length_append, hrest, entrySlots_gaps, List.length_replicate] at hlen
      have hlong := Bool.toNat_le arg.seg.paddr1.isLongAddr
      by_cases hroom : index ≠ pv.num - 1 ∨ (!arg.seg.paddr1.isLongAddr) = true
      · rw [if_pos ⟨hlt, hroom⟩]
        have hwidth : 1 + arg.seg.paddr1.isLongAddr.toNat ≤ k := by
          rcases hroom with hne | hshort
          · omega
          · rw [(Bool.not_eq_true' _).mp hshort, Bool.toNat_false]
            omega
        obtain ⟨k, rfl⟩ := Nat.exists_eq_add_of_le hwidth
        have hfree : Slots pv (entrySlots rest ++
            (List.replicate (1 + arg.seg.paddr1.isLongAddr.toNat) .null ++ List.replicate k .null)) := by
          rw [List.replicate_append_replicate, ← entrySlots_gaps, ← entrySlots_append]
          exact hs
        obtain ⟨pv', hrun, hobj, hs'⟩ :=
          iovecSetPaddrEnt_run (Seg.takes_of_len_eq arg.len_eq) hfree hrest st
        have hdone : BackDone c mem refs objs (depth + 1) arg.leaf rest
            (gaps (1 + arg.seg.paddr1.isLongAddr.toNat + k)) pv st (pv', true) st := by
          refine ⟨[.seg arg.leaf] ++ gaps k, ?_, fun e he => ?_, hobj, ?_, rfl, rfl, ?_⟩
          · simpa [Arg.leaf] using hs'
          · rcases List.mem_append.mp he with he | he
            · obtain rfl := List.mem_singleton.mp he
              exact arg.fits
            · exact forall_ok_gaps k e he
          · simp [IovEntry.segs]
          · simpa [IovEntry.objs] using hback
        exact .step hrun (.pure (hdone.appended hs hok))
      · -- a long address, and only the last slot is free
        obtain ⟨rfl, -⟩ : index = pv.num - 1 ∧ arg.seg.paddr1.isLongAddr = true := by simpa using hroom
        obtain rfl : k = 1 := by omega
        rw [if_neg fun hc => hroom hc.2]
        have hlast : Slots pv (entrySlots rest ++ .null :: []) := by simpa using hs
        refine .step (iovecMapIsset_run hlast hrest st) ?_
        have hs' : Slots pv (entrySlots (rest ++ [.gap] ++ [])) := by rwa [List.append_nil]
        exact ((appendPaddrNewPvbuf_free arg.toItem hs' hrest).backDone hs (forall_ok_gaps 1) rfl
          hback).mono fun _ _ hdone => hdone.appended hs hok
    · have hge := noSlot_ge pv
      rw [if_neg (by omega)]
      have hback := hbooks.focus_back hs
      have hsl : Slots pv (entrySlots rest ++ (e.slots ++ [])) := by simpa using hs
      have hq : pv.num - 1 + 1 = (entrySlots rest).length + e.slots.length := by
        rw [Nat.sub_add_cancel (by omega), ← hlen]
        simp
      rw [entryObjs_cons, entryObjs_nil, List.append_nil] at hback
      refine .step (hsl.isset_last hne hq st) ?_
      exact (appendPaddrIntoIovec_books ih hs hne (hok e (by simp)) hq hback).mono
        fun _ _ hdone => hdone.appended hs hok

end Xdp2
