import Xdp2.Pvbuf.CloneSpec
import Xdp2.Pvbuf.PopSpec

/-!
# The end of a clone

`__xdp2_pvbuf_fixup_iovec_length` fails an assertion at a pvbuf in a slot and at the second word of
a long address. So a clone of more bytes than there are succeeds only if it is a single pvbuf
without long addresses (`clones_iff`); one of at most the bytes available always does.
-/

namespace Xdp2

open BitWord StateError

/-! ## The lengths put right -/

/-- An entry that `__xdp2_pvbuf_fixup_iovec_length` gets past. -/
def IovEntry.plain : IovEntry → Bool
  | gap => true
  | sub _ _ => false
  | seg s => !s.isLong

section
variable {l1 : List Iovec} {e : IovEntry}

theorem fixupBody_plain (fixup : Pvbuf → PvM Nat) (len : Nat) (hs : Slots pv (l1 ++ (e.slots ++ l2)))
    (hi : l1.length = i) (hne : e ≠ .gap) (hplain : e.plain = true) (st : PvSt) :
    e.slots.length = 1 ∧ Returns (fixupBody fixup pv i len) st fun r st' =>
      st' = st ∧ ∃ len', r = .next i len' := by
  have hnull := hs.get_isNull hne hi
  rw [fixupBody]
  match e, hne, hplain with
  | .seg (.pbuf a), _, _ =>
    rw [hs.get_at (x := .pbuf a) hi] at hnull ⊢
    exact ⟨rfl, .step (assert_run rfl _ st) (.pure ⟨rfl, _, rfl⟩)⟩
  | .seg (.short a), _, _ =>
    rw [hs.get_at (x := .short a) hi] at hnull ⊢
    exact ⟨rfl, .step (assert_run rfl _ st) (.pure ⟨rfl, _, rfl⟩)⟩

theorem fixupBody_long (fixup : Pvbuf → PvM Nat) (len : Nat)
    (hs : Slots pv (l1 ++ (.long a :: .long2 b :: l2))) (hi : l1.length = i) (st : PvSt) :
    ∃ len', (fixupBody fixup pv i len).run st = .ok (.next i len') st := by
  rw [fixupBody, hs.get_at hi, hs.get_succ hi]
  exact ⟨_, rfl⟩

theorem fixupBody_long2 (hs : Slots pv (l1 ++ .long2 b :: l2)) (hi : l1.length = i) (st : PvSt) :
    Outcome (fixupBody fixup pv i len) st (fun _ _ => False) fun _ => True := by
  rw [fixupBody, hs.get_at hi]
  exact .inr ⟨_, _, rfl, trivial⟩

theorem fixupBody_sub (hs : Slots pv (l1 ++ .pvbuf data_length sub :: l2)) (hi : l1.length = i)
    (st : PvSt) :
    Outcome (fixupBody fixup pv i len) st (fun _ _ => False) fun _ => True := by
  rw [fixupBody, hs.get_at hi]
  refine .step (assert_run rfl _ st) ?_
  cases hrun : (fixup sub).run st with
  | ok rlen st' => exact .step hrun (.inr ⟨_, _, rfl, trivial⟩)
  | error e st' => exact .inr ⟨e, st', run_bind_error hrun, trivial⟩

theorem fixupIovecLength_plain (hs : Slots pv (entrySlots es)) (hplain : ∀ e ∈ es, e.plain = true)
    (hindex : pv.obj.2 < c.pvbuf_max_objs pv.obj.1) (st : PvSt) :
    Returns (fixupIovecLength c (n + 1) pv) st fun _ st' => st' = st := by
  rw [fixupIovecLength]
  refine .step (assert_run (decide_eq_true hindex) _ st) ?_
  refine forBits_rule (I := fun p _ st' => st' = st ∧
      ∃ done todo, es = done ++ todo ∧ (entrySlots done).length = p) ?_ ?_ (by decide)
    ⟨rfl, [], es, rfl, rfl⟩
  · rintro p q len st' ⟨rfl, done, todo, hes, hlen⟩ hq
    rw [hes] at hs
    obtain ⟨e, todo', rfl, hne, hpos, hat⟩ := hs.entry_at hlen hq
    obtain ⟨hone, hbody⟩ := fixupBody_plain (fixupIovecLength c n) len hat hpos hne
      (hplain e (by rw [hes]; simp)) st'
    refine hbody.mono ?_
    rintro r st'' ⟨rfl, len', rfl⟩
    refine ⟨Nat.le_refl q, rfl, done ++ gaps (q - p) ++ [e], todo', by rw [hes]; simp, ?_⟩
    rw [entrySlots_append, List.length_append, hpos, entrySlots_cons, List.length_append, hone]
    rfl
  · rintro p len st' ⟨rfl, -⟩ -
    rfl

theorem fixupIovecLength_fails (hs : Slots pv (entrySlots es)) (hbad : ∃ e ∈ es, e.plain = false)
    (st : PvSt) : Outcome (fixupIovecLength c n pv) st (fun _ _ => False) fun _ => True := by
  obtain _ | n := n
  · exact .inr ⟨_, _, rfl, trivial⟩
  rw [fixupIovecLength]
  by_cases hindex : pv.obj.2 < c.pvbuf_max_objs pv.obj.1
  · refine .step (assert_run (decide_eq_true hindex) _ st) ?_
    -- the loop has an entry it does not get past before it, or is at a second word
    refine forBits_outcome (I := fun p _ _ => (∃ done todo, es = done ++ todo ∧
        (entrySlots done).length = p ∧ ∃ e ∈ todo, e.plain = false) ∨
        ∃ l1 b l2, Slots pv (l1 ++ .long2 b :: l2) ∧ l1.length = p) ?_ ?_ (by decide)
      (.inl ⟨[], es, rfl, rfl, hbad⟩)
    · rintro p q len st' (⟨done, todo, hes, hlen, bad, hmem, hbad⟩ | ⟨l1, b, l2, hword, hlen⟩) hq
      · rw [hes] at hs
        obtain ⟨e, todo', rfl, hne, hpos, hat⟩ := hs.entry_at hlen hq
        cases hplain : e.plain with
        | true =>
          obtain ⟨hone, hbody⟩ := fixupBody_plain (fixupIovecLength c n) len hat hpos hne hplain
            st'
          refine (hbody.outcome _).mono ?_
          rintro r st'' ⟨rfl, len', rfl⟩
          refine ⟨Nat.le_refl q, .inl ⟨done ++ gaps (q - p) ++ [e], todo', by rw [hes]; simp, ?_, bad,
            ?_, hbad⟩⟩
          · rw [entrySlots_append, List.length_append, hpos, entrySlots_cons, List.length_append, hone]
            rfl
          · rcases List.mem_append.mp hmem with hmem | hmem
            · rw [List.eq_of_mem_replicate hmem] at hbad
              cases hbad
            · rcases List.mem_cons.mp hmem with rfl | hmem
              · rw [hplain] at hbad
                cases hbad
              · exact hmem
        | false =>
          match e, hplain with
          | .sub dl sub, _ =>
            exact (fixupBody_sub hat hpos st').mono fun _ _ => False.elim
          | .seg (.long a b), _ =>
            obtain ⟨len', hrun⟩ := fixupBody_long (fixupIovecLength c n) len hat hpos st'
            refine .inl ⟨_, _, hrun, Nat.le_refl q, .inr ⟨entrySlots (done ++ gaps (q - p)) ++ [.long a],
              b, entrySlots todo', by rw [List.append_assoc]; exact hat, ?_⟩⟩
            rw [List.length_append, hpos]
            rfl
      · obtain rfl : q = p := by
          by_contra hne
          have hlt : p < q := by
            have hle := hq.le
            omega
          have hclear := hq.clear p (Nat.le_refl p) hlt
          rw [hword.map, getD_append_cons _ _ _ _ hlen] at hclear
          cases hclear
        exact (fixupBody_long2 hword hlen st').mono fun _ _ => False.elim
    · rintro p len st' (⟨done, todo, hes, hlen, bad, hmem, hbad⟩ | ⟨l1, b, l2, hword, hlen⟩) hnone
      · rw [hes] at hs
        have hgaps := hs.none_from (by rw [hlen]; exact hnone)
        rw [hgaps] at hmem
        rw [List.eq_of_mem_replicate hmem] at hbad
        cases hbad
      · have hclear := hnone p (Nat.le_refl p)
        rw [hword.map, getD_append_cons _ _ _ _ hlen] at hclear
        cases hclear
  · exact .inr ⟨_, _, run_bind_error (assert_fail (decide_eq_false hindex) _ st), trivial⟩

end

/-! ## The chain put together -/

theorem Outer.head (h : Outer P exact N (p :: outer) segs objs) (cur : Pvbuf) :
    ∃ es, Slots (closeChain cur (p :: outer)) (entrySlots es) ∧ ∃ e ∈ es, e.plain = false := by
  induction outer generalizing N p segs objs cur with
  | nil =>
    obtain ⟨es, data_length, sub, -, -, hs, -⟩ := h
    exact ⟨_, hs.relink cur, .sub data_length cur, by simp, rfl⟩
  | cons p2 outer ih =>
    obtain ⟨_, _, _, _, _, -, -, -, houter, -⟩ := h
    exact ih houter _

theorem ClonedFrom.bytes (h : ClonedFrom c mem refs objs depth pv st0 offset length num t st cur k segs os)
    (he : t.priv.error = false) : segBytes st0.mgr.mem (segs ++ cur) =
      ((pv.contents st0.mgr.mem).drop offset).take length := by
  have hbytes := (h.sum he).bytes
  simpa using hbytes

theorem ClonedFrom.total (h : ClonedFrom c mem refs objs depth pv st0 offset length num t st cur k segs os)
    (he : t.priv.error = false) :
    (((pv.contents st0.mgr.mem).drop offset).take length).length + t.priv.length = length := by
  rw [← h.bytes he, length_segBytes]
  exact (h.sum he).total

theorem ClonedFrom.paddr_eq
    (h : ClonedFrom c mem refs objs depth pv st0 offset length num t st cur k segs os) :
    t.priv.paddr.segs = segs ++ cur ∧ t.priv.paddr.objs.Perm (t.priv.pvbuf.obj :: os) := by
  obtain ⟨hsegs, hobjs⟩ := h.held.outer.close t.priv.pvbuf
  rw [h.held.slots.segs_eq] at hsegs
  rw [h.held.slots.objs_eq] at hobjs
  rw [IterClone.paddr]
  exact ⟨by simpa using hsegs, by simpa using hobjs⟩

theorem ClonedFrom.books (h : ClonedFrom c mem refs objs depth pv st0 offset length num t st cur k segs os) :
    Books c mem st.mgr (segRefs t.pvbuf.segs ++ (segRefs t.priv.paddr.segs ++ refs))
      (t.pvbuf.objs ++ (t.priv.paddr.objs ++ objs)) := by
  obtain ⟨hsegs, hobjs⟩ := h.paddr_eq
  rw [hsegs, h.objs_eq]
  exact h.held.books.perm (.refl _) ((hobjs.symm.append_right objs).append_left _)

theorem CloneAt.wf_pvbuf (h : CloneAt c mem srcRefs refs srcObjs objs ist st cur k segs os) :
    Wf 1 ist.pvbuf := by
  refine ⟨_, h.slots, fun e he => ?_⟩
  rcases List.mem_append.mp he with he | he
  · exact forall_ok_map_seg h.fits e he
  · exact forall_ok_gaps k e he

theorem ClonedFrom.shape (h : ClonedFrom c mem refs objs depth pv st0 offset length num t st cur k segs os) :
    Shape (t.priv.outer.length + 1) t.priv.paddr := by
  rw [Nat.add_comm]
  exact h.held.outer.shape (fun _ => False.elim) h.held.wf_pvbuf.shape

theorem ClonedFrom.wf_paddr (h : ClonedFrom c mem refs objs depth pv st0 offset length num t st cur k segs os)
    (he : t.priv.error = false) (hdone : t.priv.length = 0 ∨ t.priv.outer = []) :
    Wf (t.priv.outer.length + 1) t.priv.paddr := by
  rcases hdone with hlength | hnil
  · have houter := h.held.outer
    rw [hlength, Nat.add_zero] at houter
    rw [Nat.add_comm]
    refine houter.wf he (fun _ => False.elim) h.held.wf_pvbuf ?_
    rw [h.held.slots.segs_eq]
    simp
  · rw [IterClone.paddr, hnil]
    exact h.held.wf_pvbuf

/-! ## What the clone comes to -/

theorem ClonedFrom.cloneEnd_spec
    (h : ClonedFrom c mem refs objs depth pv st0 offset length num t st cur k segs os)
    (he : t.priv.error = false)
    (hdone : t.priv.length = 0 ∨ t.priv.outer = [] ∧ ∀ s ∈ cur, s.isLong = false) :
    Returns (cloneEnd c length t) st fun r st' => st' = st ∧ r = (t.pvbuf, some (t.priv.paddr,
      (((pv.contents st0.mgr.mem).drop offset).take length).length)) := by
  have htotal := h.total he
  have hret : length - t.priv.length = (((pv.contents st0.mgr.mem).drop offset).take length).length := by
    omega
  rw [cloneEnd, he, if_neg Bool.false_ne_true, hret]
  by_cases hlength : t.priv.length = 0
  · rw [if_neg (not_not.mpr hlength)]
    exact .pure ⟨rfl, rfl⟩
  · obtain ⟨hnil, hshort⟩ := hdone.resolve_left hlength
    rw [if_pos hlength]
    have hplain : ∀ e ∈ cur.map IovEntry.seg ++ gaps k, e.plain = true := by
      intro e hmem
      rcases List.mem_append.mp hmem with hmem | hmem
      · obtain ⟨s, hs, rfl⟩ := List.mem_map.mp hmem
        rw [IovEntry.plain, hshort s hs]
        rfl
      · rw [List.eq_of_mem_replicate hmem]
        rfl
    have hindex := h.held.books.index_lt (o := t.priv.pvbuf.obj) (by simp)
    have hfixup := fixupIovecLength_plain (n := t.priv.outer.length) h.held.slots hplain hindex st
    rw [IterClone.paddr, hnil] at *
    refine hfixup.bind ?_
    rintro len st' rfl
    exact .pure ⟨rfl, rfl⟩

/-- The clone is not given back where the lengths are to be put right in a chain, or where there is a
long address. -/
theorem ClonedFrom.cloneEnd_fails
    (h : ClonedFrom c mem refs objs depth pv st0 offset length num t st cur k segs os)
    (he : t.priv.error = false) (hlength : t.priv.length ≠ 0)
    (hbad : t.priv.outer ≠ [] ∨ ∃ s ∈ cur, s.isLong = true) :
    Outcome (cloneEnd c length t) st (fun _ _ => False) fun _ => True := by
  have hfails : ∃ es, Slots t.priv.paddr (entrySlots es) ∧ ∃ e ∈ es, e.plain = false := by
    have houter := h.held.outer
    have hslots := h.held.slots
    rw [IterClone.paddr]
    cases hout : t.priv.outer with
    | nil =>
      obtain ⟨s, hs, hlong⟩ := hbad.resolve_left (not_not.mpr hout)
      refine ⟨_, hslots, .seg s, by simp [hs], ?_⟩
      rw [IovEntry.plain, hlong]
      rfl
    | cons p outer =>
      rw [hout] at houter
      exact houter.head _
  obtain ⟨es, hs, hbad⟩ := hfails
  rw [cloneEnd, he, if_neg Bool.false_ne_true, if_pos hlength]
  exact (fixupIovecLength_fails hs hbad st).bind fun _ _ => False.elim

theorem ClonedFrom.cloneEnd_error (hJ : Ledger c J)
    (h : ClonedFrom c mem refs objs depth pv st0 offset length num t st cur k segs os)
    (he : t.priv.error = true)
    (hstart : J st.mgr (segRefs t.priv.paddr.segs ++ refs') (t.priv.paddr.objs ++ objs')) :
    Returns (cloneEnd c length t) st fun r st' =>
      r = (t.pvbuf, none) ∧ st'.out = st.out ∧ J st'.mgr refs' objs' := by
  rw [cloneEnd, he, if_pos rfl]
  refine (pvbufFree_ledger hJ (Nat.le_refl _) h.shape hstart).bind ?_
  rintro _ st' ⟨hout, hend⟩
  exact .pure ⟨rfl, hout, hend⟩

theorem ClonedFrom.of_eq (h : ClonedFrom c mem refs objs depth pv st1 offset length num t st cur k segs os)
    (hout : st1.out = st0.out) (hmem : st1.mgr.mem = st0.mgr.mem) :
    ClonedFrom c mem refs objs depth pv st0 offset length num t st cur k segs os :=
  { h with
    out := h.out.trans hout
    mem_eq := h.mem_eq.trans hmem
    sum := fun he => by rw [← hmem]; exact h.sum he }

theorem pvbufClone_cases (hwf : Wf depth pv) (hn : depth ≤ n)
    (hbooks : Books c mem st.mgr (segRefs pv.segs ++ refs) (pv.objs ++ objs))
    (hsize : (pvbufGetSize c).run st = .ok size st1) :
    (∃ st', (pvbufClone c n pv offset length).run st = .ok (pv, none) st' ∧ st'.out = st.out ∧
      st'.mgr.mem = st.mgr.mem ∧
      Books c mem st'.mgr (segRefs pv.segs ++ refs) (pv.objs ++ objs)) ∨
    ∃ t st' cur k segs os,
      ClonedFrom c mem refs objs depth pv st offset length (numIovecs size) t st' cur k segs os ∧
      (pvbufClone c n pv offset length).run st = (cloneEnd c length t).run st' := by
  obtain ⟨_, _, hrun, hlt, hout1, hmem1, hbooks1⟩ := pvbufGetSize_books hbooks
  cases hsize.symm.trans hrun
  obtain ⟨r, st2, hrun2, hout2, hmem2, hr⟩ := pvbufAlloc_books hlt hbooks1
  have hout := hout2.trans hout1
  have hmem := hmem2.trans hmem1
  rw [pvbufClone, run_bind_ok hsize, run_bind_ok hrun2]
  rcases hr with ⟨rfl, -, hbooks2⟩ | ⟨new, rfl, hobj, hnew, hbooks2⟩
  · exact .inl ⟨st2, rfl, hout, hmem, hbooks2⟩
  · right
    have hperm : (new.obj :: (pv.objs ++ objs)).Perm (pv.objs ++ (new.obj :: objs)) :=
      List.perm_middle.symm
    have hiter : Returns (iterateIovec c (iterateClonePvbuf c) n pv
        { length := length, offset := offset, pvbuf := new }) st2 _ :=
      iterateIovec_clone_spec hwf hn hnew (hbooks2.perm (.refl _) hperm)
    obtain ⟨t, st', hrun', cur, k, segs, os, h⟩ := hiter
    have hnum : new.num = numIovecs size := by
      rw [← hobj]
      rfl
    rw [hnum] at h
    exact ⟨t, st', cur, k, segs, os, h.of_eq hout hmem, run_bind_ok hrun'⟩

/-- The call returns a well-formed clone with the bytes asked for and their number, and leaves the
pvbuf with its contents. Both are held from then on. -/
def Clones (c : MgrConfig) (mem : Mem) (depth : Nat) (refs : List Ref) (objs : List (Nat × Nat))
    (pv : Pvbuf) (offset length : Nat) (st : PvSt) (m : PvM (Pvbuf × Option (Pvbuf × Nat))) : Prop :=
  Returns m st fun r st' => ∃ levels clone retlen, r.2 = some (clone, retlen) ∧ Wf levels clone ∧
    clone.contents st'.mgr.mem = ((pv.contents st.mgr.mem).drop offset).take length ∧
    retlen = (((pv.contents st.mgr.mem).drop offset).take length).length ∧
    Wf depth r.1 ∧ r.1.obj = pv.obj ∧ r.1.contents st'.mgr.mem = pv.contents st.mgr.mem ∧
    Books c mem st'.mgr (segRefs r.1.segs ++ (segRefs clone.segs ++ refs))
      (r.1.objs ++ (clone.objs ++ objs))

theorem ClonedFrom.clones
    (h : ClonedFrom c mem refs objs depth pv st0 offset length num t st cur k segs os)
    (he : t.priv.error = false)
    (hdone : t.priv.length = 0 ∨ t.priv.outer = [] ∧ ∀ s ∈ cur, s.isLong = false)
    (hm : m.run st0 = (cloneEnd c length t).run st) :
    Clones c mem depth refs objs pv offset length st0 m := by
  obtain ⟨_, _, hrun, rfl, rfl⟩ := h.cloneEnd_spec he hdone
  refine ⟨_, _, hm.trans hrun, _, t.priv.paddr, _, rfl, h.wf_paddr he (hdone.imp_right And.left), ?_,
    rfl, h.wf, h.obj, ?_, h.books⟩
  · rw [PvbufOf.contents, h.paddr_eq.1, h.mem_eq, h.bytes he]
  · rw [PvbufOf.contents, h.mem_eq, segBytes_alike _ h.alike, PvbufOf.contents]

theorem ClonedFrom.paddr_counted
    (h : ClonedFrom c mem refs objs depth pv st0 offset length num t st cur k segs os) :
    Counted c (segRefs t.priv.paddr.segs ++ []) (t.priv.paddr.objs ++ []) := by
  rw [List.append_nil, List.append_nil]
  constructor
  · intro r hr
    refine ⟨?_, h.books.range r (by simp [hr])⟩
    rw [h.paddr_eq.1] at hr
    obtain ⟨s, hs, hmem⟩ := List.mem_flatMap.mp hr
    cases s with
    | pbuf a =>
      rw [List.mem_singleton.mp hmem]
      exact h.held.counted a hs
    | short a => cases hmem
    | long a b => cases hmem
  · exact fun o ho => h.books.index_lt (by simp [ho])

theorem ClonedFrom.length_eq_zero_iff
    (h : ClonedFrom c mem refs objs depth pv st0 offset length num t st cur k segs os)
    (he : t.priv.error = false) :
    t.priv.length = 0 ↔ length ≤ (pv.contents st0.mgr.mem).length - offset := by
  have htotal := h.total he
  rw [List.length_take, List.length_drop] at htotal
  omega

/-- If they have not, the clone is a single pvbuf without long addresses just if its leaves let it. -/
theorem ClonedFrom.plain_iff
    (h : ClonedFrom c mem refs objs depth pv st0 offset length num t st cur k segs os)
    (he : t.priv.error = false) (hlength : t.priv.length ≠ 0) :
    (t.priv.outer = [] ∧ ∀ s ∈ cur, s.isLong = false) ↔
      (∀ s ∈ cloneLeaves offset pv.segs, s.isLong = false) ∧
        (cloneLeaves offset pv.segs).length < num := by
  have hsum := h.sum he
  have hkinds := hsum.leaves hlength
  rw [cloneLeaves, List.append_nil] at hkinds
  have hlen : (segs ++ cur).length = (cloneLeaves offset pv.segs).length := by
    simpa using congrArg List.length hkinds
  have hshort : (∀ s ∈ segs ++ cur, s.isLong = false) ↔
      ∀ s ∈ cloneLeaves offset pv.segs, s.isLong = false := by
    have hmem : ∀ l : List Seg, (∀ s ∈ l, s.isLong = false) ↔ ∀ b ∈ l.map Seg.isLong, b = false := by
      simp
    rw [hmem, hmem, hkinds]
  rw [← hshort, ← hlen]
  constructor
  · rintro ⟨hnil, hcur⟩
    have hsegs : segs = [] := by
      have houter := h.held.outer
      rw [hnil] at houter
      exact houter.1
    have hnum := hsum.first hnil
    have hk := h.room hlength
    rw [h.held.num_eq, ← h.held.index, slots_length_of_short hcur] at hnum
    rw [hsegs, List.nil_append]
    exact ⟨hcur, by omega⟩
  · rintro ⟨hall, hlt⟩
    refine ⟨?_, fun s hs => hall s (List.mem_append_right _ hs)⟩
    by_contra hne
    rcases hsum.full hne with ⟨s, hs, hlong⟩ | hle
    · rw [hall s hs] at hlong
      cases hlong
    · omega

/-! ## References -/

/-- The number of referrers of a pbuf. -/
def refCount (refs : List Ref) (btag zindex : Nat) : Nat :=
  refs.countP fun r => r.btag = btag ∧ r.zindex = zindex

theorem refCount_append (l l' : List Ref) (b z : Nat) :
    refCount (l ++ l') b z = refCount l b z + refCount l' b z := List.countP_append

theorem count_le_refCount (l : List Ref) (b z : Nat) (k : Bool) : l.count ⟨b, z, k⟩ ≤ refCount l b z := by
  rw [List.count, refCount]
  refine List.countP_mono_left fun r _ hr => ?_
  rw [beq_iff_eq.mp hr]
  exact decide_eq_true ⟨rfl, rfl⟩

theorem refCount_alike (h : List.Forall₂ Alike l l') (b z : Nat) :
    refCount (segRefs l') b z = refCount (segRefs l) b z := by
  induction h with
  | nil => rfl
  | @cons s t l l' hs _ ih =>
    rw [segRefs_cons, segRefs_cons, refCount_append, refCount_append, ih]
    rcases hs with rfl | rfl
    · rfl
    · cases s <;> rfl

theorem ClonedFrom.owns
    (h : ClonedFrom c mem refs objs depth pv st0 offset length num t st cur k segs os)
    (hcount : ∀ b z, refCount (segRefs pv.segs ++ refs) b z + refCount (segRefs pv.segs) b z < 2 ^ 32) :
    Owns c mem st.mgr (segRefs t.pvbuf.segs ++ (segRefs t.priv.paddr.segs ++ refs))
      (t.pvbuf.objs ++ (t.priv.paddr.objs ++ objs)) := by
  refine h.books.owns fun b z => ?_
  have hbound := hcount b z
  have hsource := count_le_refCount (segRefs t.pvbuf.segs) b z false
  have hclone := h.source ⟨b, z, false⟩
  have hrefs := count_le_refCount refs b z false
  rw [refCount_alike h.alike] at hsource
  rw [← h.paddr_eq.1] at hclone
  rw [refCount_append] at hbound
  rw [List.count_append, List.count_append]
  omega

/-- **A clone of at most the bytes available keeps the books**, whether the allocations succeed or
not. -/
theorem pvbufClone_spec (hwf : Wf depth pv) (hn : depth ≤ n)
    (hown : Owns c mem st.mgr (segRefs pv.segs ++ refs) (pv.objs ++ objs))
    (hlen : length ≤ (pv.contents st.mgr.mem).length - offset)
    (hcount : ∀ b z, refCount (segRefs pv.segs ++ refs) b z + refCount (segRefs pv.segs) b z < 2 ^ 32) :
    Returns (pvbufClone c n pv offset length) st fun r st' => Wf depth r.1 ∧
      ((r.2 = none ∧ Owns c mem st'.mgr (segRefs r.1.segs ++ refs) (r.1.objs ++ objs)) ∨
        ∃ clone retlen levels, r.2 = some (clone, retlen) ∧ Wf levels clone ∧
          Owns c mem st'.mgr (segRefs r.1.segs ++ (segRefs clone.segs ++ refs))
            (r.1.objs ++ (clone.objs ++ objs))) := by
  obtain ⟨size, st1, hsize, -⟩ := pvbufGetSize_spec hown
  rcases pvbufClone_cases hwf hn hown.books hsize with
    ⟨st', hrun, -, -, hbooks⟩ | ⟨t, st', cur, k, segs, os, h, hrun⟩
  · refine ⟨_, _, hrun, hwf, .inl ⟨rfl, hbooks.owns fun b z => ?_⟩⟩
    have hle := count_le_refCount (segRefs pv.segs ++ refs) b z false
    have hbound := hcount b z
    omega
  have hown' := h.owns hcount
  cases he : t.priv.error with
  | true =>
    have hperm : Owns c mem st'.mgr (segRefs t.priv.paddr.segs ++ (segRefs t.pvbuf.segs ++ refs))
        (t.priv.paddr.objs ++ (t.pvbuf.objs ++ objs)) :=
      hown'.perm (List.perm_append_comm_assoc _ _ _) (List.perm_append_comm_assoc _ _ _)
    obtain ⟨_, st'', hend, rfl, -, hown''⟩ := h.cloneEnd_error Owns.ledger he hperm
    exact ⟨_, _, hrun.trans hend, h.wf, .inl ⟨rfl, hown''⟩⟩
  | false =>
    have hdone := (h.length_eq_zero_iff he).mpr hlen
    obtain ⟨_, _, hend, rfl, rfl⟩ := h.cloneEnd_spec he (.inl hdone)
    exact ⟨_, _, hrun.trans hend, h.wf,
      .inr ⟨_, _, _, rfl, h.wf_paddr he (.inl hdone), hown'⟩⟩

/-! ## The contents -/

/-- **A clone has the bytes asked for, as far as there are any, unless lengths have to be put right
in it.** For every well-formed packet in a manager that keeps its books, every offset and every
length, the call does what it is for, if the allocations succeed, just if no more bytes are asked
for than there are from the offset on, or the leaves from there on are no long addresses and fewer
than the slots of a pvbuf. Else it fails an assertion. -/
theorem clones_iff (hwf : Wf depth pv) (hn : depth ≤ n)
    (hbooks : Books c mem st.mgr (segRefs pv.segs ++ refs) (pv.objs ++ objs))
    (hsize : (pvbufGetSize c).run st = .ok size st1)
    (halloc : ∀ pv' st', (pvbufClone c n pv offset length).run st ≠ .ok (pv', none) st') :
    Clones c mem depth refs objs pv offset length st (pvbufClone c n pv offset length) ↔
      length ≤ (pv.contents st.mgr.mem).length - offset ∨
        (∀ s ∈ cloneLeaves offset pv.segs, s.isLong = false) ∧
          (cloneLeaves offset pv.segs).length < numIovecs size := by
  rcases pvbufClone_cases hwf hn hbooks hsize with
    ⟨st', hrun, -⟩ | ⟨t, st', cur, k, segs, os, h, hrun⟩
  · exact (halloc _ _ hrun).elim
  cases he : t.priv.error with
  | true =>
    obtain ⟨_, _, hend, rfl, -⟩ := h.cloneEnd_error (Counted.ledger c) he h.paddr_counted
    exact (halloc _ _ (hrun.trans hend)).elim
  | false =>
    rw [← h.length_eq_zero_iff he]
    by_cases hlength : t.priv.length = 0
    · exact iff_of_true (h.clones he (.inl hlength) hrun) (.inl hlength)
    · rw [← h.plain_iff he hlength]
      by_cases hplain : t.priv.outer = [] ∧ ∀ s ∈ cur, s.isLong = false
      · exact iff_of_true (h.clones he (.inr hplain) hrun) (.inr hplain)
      · refine iff_of_false ?_ (by simp only [hlength, hplain, or_self, not_false_eq_true])
        rintro ⟨r, st'', hrun', -⟩
        have hbad : t.priv.outer ≠ [] ∨ ∃ s ∈ cur, s.isLong = true := by
          by_contra hnot
          rw [not_or, not_not] at hnot
          exact hplain ⟨hnot.1, fun s hs => by simpa using fun hlong => hnot.2 ⟨s, hs, hlong⟩⟩
        rcases h.cloneEnd_fails he hlength hbad with ⟨_, _, -, hfalse⟩ | ⟨e, _, hend, -⟩
        · exact hfalse
        · cases hrun'.symm.trans (hrun.trans hend)

/-- Seven bytes of the packet from the second on. -/
theorem clones_mixedPacket : Clones smallConfig smallState.mgr.mem 2 [] [] mixedPacket 1 7 smallState
    (pvbufClone smallConfig 2 mixedPacket 1 7) := by
  refine (clones_iff mixedPacket_wf (Nat.le_refl 2) mixedPacket_owns.books rfl ?_).mpr (.inl (by decide))
  intro pv' st' hrun
  cases hrun

/-- Of the nine bytes of the packet ten are asked for: the second word of the long address among them
makes the call fail an assertion. -/
theorem mixedPacket_not_clones : Wf 2 mixedPacket ∧
    Books smallConfig smallState.mgr.mem smallState.mgr (segRefs mixedPacket.segs ++ [])
      (mixedPacket.objs ++ []) ∧
    (mixedPacket.contents smallState.mgr.mem).length = 9 ∧
    ∃ label st', (pvbufClone smallConfig 2 mixedPacket 0 10).run smallState =
      .error (.assertion label) st' :=
  ⟨mixedPacket_wf, mixedPacket_owns.books, rfl, _, _, rfl⟩

end Xdp2
