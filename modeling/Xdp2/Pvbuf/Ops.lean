import Xdp2.Pvbuf.Owns

/-!
# What the parts do

Each operation on the manager, on single slots and on leaves and trees returns, so that no assertion
fails, and what it leaves. `Holds c mem P m pv es refs objs` is a pvbuf in the middle of an
operation: its slots are those of the well-formed entries `es`, and the manager `m` has the
references and objects of `es`, the object of `pv`, and `refs` and `objs` held elsewhere.
-/

namespace Xdp2

open BitWord StateError

/-! ## The manager -/

theorem paddrToAddr_run (h : Owns c mem m refs objs) (hmem : pv.obj ∈ objs) (st : PvSt) :
    (paddrToAddr c pv).run st = .ok () st :=
  assert_run (by simpa using h.index_lt hmem) _ st

theorem objAllocFree_spec (h : Owns c mem st.mgr refs (pv.obj :: objs)) :
    Returns (objAllocFree c pv) st fun _ st' => st'.out = st.out ∧ Owns c mem st'.mgr refs objs := by
  have hlt : pv.index.toNat < c.pvbuf_max_objs pv.pvbuf_size.toNat := h.index_lt List.mem_cons_self
  rw [objAllocFree]
  refine .step (assert_run (decide_eq_true hlt) _ st) ⟨_, _, run_modify _ _, rfl, ?_⟩
  refine { h with pvbufs := fun size i => ?_ }
  have hcount := h.pvbufs size i
  dsimp only
  by_cases hs : size = pv.pvbuf_size.toNat
  · subst hs
    by_cases hi : i = pv.index.toNat
    · subst hi
      rw [if_pos rfl, List.count_cons_self, ← hcount, PvbufOf.obj, List.count_cons_self]
      omega
    · rw [if_pos rfl, List.count_cons_of_ne (Ne.symm hi), ← hcount,
        List.count_cons_of_ne fun he => hi (congrArg Prod.snd he).symm]
  · rw [if_neg hs, ← hcount, List.count_cons_of_ne fun he => hs (congrArg Prod.fst he).symm]

theorem shortAddrFree_spec (h : Owns c mem st.mgr refs objs) (a : ShortAddr) :
    Returns (shortAddrFree a) st fun _ st' => st'.out = st.out ∧ Owns c mem st'.mgr refs objs :=
  ⟨_, _, run_modify _ _, rfl, { h with }⟩

theorem longAddrFree_spec (h : Owns c mem st.mgr refs objs) (a : LongAddr) (b : LongAddr2) :
    Returns (longAddrFree (.long a) (.long2 b)) st fun _ st' =>
      st'.out = st.out ∧ Owns c mem st'.mgr refs objs :=
  ⟨_, _, run_modify _ _, rfl, { h with }⟩

/-! ## Slots -/

theorem iovecMapIsset_run (h : Slots pv (l1 ++ x :: l2)) (hi : l1.length = i) (st : PvSt) :
    (iovecMapIsset pv i).run st = .ok (!x.isNull) st := by
  rw [iovecMapIsset, run_bind_ok (assert_run (decide_eq_true (h.lt hi)) _ st), h.map,
    getD_append_cons _ _ _ _ hi]
  rfl

theorem iovecMapSet_run (pv : Pvbuf) (hi : i < 64) (st : PvSt) :
    (iovecMapSet pv i).run st = .ok (pv.setBit i) st := by
  rw [iovecMapSet, run_bind_ok (assert_run (decide_eq_true hi) _ st)]
  rfl

theorem iovecClearEnt_run (pv : Pvbuf) (hi : i < 64) (st : PvSt) :
    (iovecClearEnt pv i).run st = .ok (pv.clear i) st := by
  rw [iovecClearEnt, run_bind_ok (assert_run (decide_eq_true hi) _ st)]
  rfl

theorem iovecUnsetEnt_run (h : Slots pv (l1 ++ x :: l2)) (hi : l1.length = i)
    (hx : x.isNull = false) (st : PvSt) : (iovecUnsetEnt pv i).run st = .ok (pv.clear i) st := by
  rw [iovecUnsetEnt, run_bind_ok (assert_run (by rw [h.get_at hi, hx]; rfl) _ st),
    run_bind_ok (iovecMapIsset_run h hi st), run_bind_ok (assert_run (by rw [hx]; rfl) _ st)]
  exact iovecClearEnt_run pv (h.lt hi) st

theorem Slots.get_isNull {e : IovEntry} (h : Slots pv (l1 ++ (e.slots ++ l2))) (he : e ≠ .gap)
    (hi : l1.length = i) : (pv.get i).isNull = false := by
  obtain ⟨x, l, hx, hused⟩ := IovEntry.exists_first he
  rw [hx, List.cons_append] at h
  rw [h.get_at hi, hused]

theorem getPtrLen_run (h : Slots pv (l1 ++ ((IovEntry.seg s).slots ++ l2))) (hi : l1.length = i)
    (st : PvSt) : (getPtrLen pv i).run st = .ok s st := by
  cases s with
  | pbuf a => rw [getPtrLen, h.get_at (x := .pbuf a) hi]; rfl
  | short a => rw [getPtrLen, h.get_at (x := .short a) hi]; rfl
  | long a b =>
    rw [getPtrLen, h.get_at (x := .long a) hi, h.get_succ (x := .long a) (y := .long2 b) hi]; rfl

theorem Slots.clear_long (h : Slots pv (l1 ++ .long a :: .long2 b :: l2)) (hi : l1.length = i) :
    Slots ((pv.clear i).clear (i + 1)) (l1 ++ .null :: .null :: l2) ∧
      Slots ((pv.clear (i + 1)).clear i) (l1 ++ .null :: .null :: l2) := by
  have hsplit : ∀ x y : Iovec, l1 ++ x :: y :: l2 = (l1 ++ [x]) ++ y :: l2 := fun x y => by simp
  have hlen : ∀ x : Iovec, (l1 ++ [x]).length = i + 1 := fun x => by simp [hi]
  constructor
  · have h' := h.clear hi
    rw [hsplit] at h' ⊢
    exact h'.clear (hlen _)
  · rw [hsplit] at h
    have h' := h.clear (hlen _)
    rw [← hsplit] at h'
    exact h'.clear hi

theorem paddrFreeIovec_spec (h : Slots pv (l1 ++ ((IovEntry.seg s).slots ++ l2)))
    (hi : l1.length = i) (hown : Owns c mem st.mgr (s.refs ++ refs) objs) :
    Returns (paddrFreeIovec c pv i) st fun pv' st' =>
      pv'.obj = pv.obj ∧
      Slots pv' (l1 ++ (List.replicate (IovEntry.seg s).slots.length .null ++ l2)) ∧
      st'.out = st.out ∧ Owns c mem st'.mgr refs objs := by
  rw [paddrFreeIovec]
  cases s with
  | pbuf a =>
    have hget : pv.get i = .pbuf a := h.get_at hi
    rw [hget]
    refine .step (assert_run rfl _ st) ((pbufFree_spec hown).bind fun _ st' hst' => ?_)
    exact ⟨_, _, iovecUnsetEnt_run h hi rfl st', rfl, h.clear hi, hst'⟩
  | short a =>
    have hget : pv.get i = .short a := h.get_at hi
    rw [hget]
    refine .step (assert_run rfl _ st) ((shortAddrFree_spec hown a).bind fun _ st' hst' => ?_)
    exact ⟨_, _, iovecUnsetEnt_run h hi rfl st', rfl, h.clear hi, hst'⟩
  | long a b =>
    have hget : pv.get i = .long a := h.get_at hi
    have hget' : pv.get (i + 1) = .long2 b := h.get_succ hi
    rw [hget, hget']
    refine .step (assert_run rfl _ st) ((longAddrFree_spec hown a b).bind fun _ st' hst' => ?_)
    have hsplit : ∀ x y : Iovec, l1 ++ x :: y :: l2 = (l1 ++ [x]) ++ y :: l2 := fun x y => by simp
    have h2 : Slots pv ((l1 ++ [.long a]) ++ .long2 b :: l2) := hsplit _ _ ▸ h
    refine .step (iovecUnsetEnt_run h2 (by simp [hi]) rfl st') ?_
    have h1 := h2.clear (i := i + 1) (by simp [hi])
    rw [← hsplit] at h1
    exact ⟨_, _, iovecUnsetEnt_run h1 hi rfl st', rfl, (Slots.clear_long h hi).2, hst'⟩

/-! ## A pvbuf in the middle of an operation -/

/-- A pvbuf with the entries `es`, and what is held besides. -/
structure Holds (c : MgrConfig) (mem : Mem) (P : Pvbuf → Prop) (m : Mgr) (pv : Pvbuf)
    (es : List IovEntry) (refs : List Ref) (objs : List (Nat × Nat)) : Prop where
  slots : Slots pv (entrySlots es)
  ok : ∀ e ∈ es, e.Ok P
  owns : Owns c mem m (segRefs (entrySegs es) ++ refs) (pv.obj :: (entryObjs es ++ objs))

/-- The references held outside of some entries among others. -/
def outerRefs (es1 es2 : List IovEntry) (refs : List Ref) : List Ref :=
  segRefs (entrySegs es1) ++ (segRefs (entrySegs es2) ++ refs)

/-- The objects held outside of some entries among others. -/
def outerObjs (pv : Pvbuf) (es1 es2 : List IovEntry) (objs : List (Nat × Nat)) : List (Nat × Nat) :=
  pv.obj :: (entryObjs es1 ++ (entryObjs es2 ++ objs))

theorem Holds.of_wf (hwf : Wf (depth + 1) pv)
    (hown : Owns c mem m (segRefs pv.segs ++ refs) (pv.objs ++ objs)) :
    ∃ es, Holds c mem (Wf depth) m pv es refs objs := by
  obtain ⟨es, hs, hok⟩ := hwf
  rw [hs.segs_eq, hs.objs_eq] at hown
  exact ⟨es, hs, hok, hown⟩

theorem Holds.wf (h : Holds c mem (Wf depth) m pv es refs objs) : Wf (depth + 1) pv :=
  ⟨es, h.slots, h.ok⟩

theorem Holds.owns_segs (h : Holds c mem P m pv es refs objs) :
    Owns c mem m (segRefs pv.segs ++ refs) (pv.objs ++ objs) := by
  rw [h.slots.segs_eq, h.slots.objs_eq]
  exact h.owns

theorem Holds.focus (h : Holds c mem P m pv (es1 ++ es ++ es2) refs objs) :
    Owns c mem m (segRefs (entrySegs es) ++ outerRefs es1 es2 refs)
      (entryObjs es ++ outerObjs pv es1 es2 objs) := by
  refine h.owns.perm (List.perm_iff_count.mpr fun r => ?_) (List.perm_iff_count.mpr fun o => ?_)
  · simp only [entrySegs_append, segRefs_append, outerRefs, List.count_append]
    omega
  · simp only [entryObjs_append, outerObjs, List.count_append, List.count_cons]
    omega

theorem Holds.focus_sub (h : Holds c mem P m pv (es1 ++ [.sub data_length sub] ++ es2) refs objs) :
    Owns c mem m (segRefs sub.segs ++ outerRefs es1 es2 refs)
      (sub.objs ++ outerObjs pv es1 es2 objs) := by
  simpa [IovEntry.segs, IovEntry.objs] using h.focus

theorem Holds.focus_seg (h : Holds c mem P m pv (es1 ++ [.seg s] ++ es2) refs objs) :
    Owns c mem m (s.refs ++ outerRefs es1 es2 refs) (outerObjs pv es1 es2 objs) := by
  simpa [IovEntry.segs, IovEntry.objs] using h.focus

theorem Holds.refill (h : Holds c mem P m pv (es1 ++ es ++ es2) refs objs) (hobj : pv'.obj = pv.obj)
    (hs : Slots pv' (entrySlots (es1 ++ es' ++ es2))) (hok : ∀ e ∈ es', e.Ok P)
    (hown : Owns c mem m' (segRefs (entrySegs es') ++ outerRefs es1 es2 refs)
      (entryObjs es' ++ outerObjs pv es1 es2 objs)) :
    Holds c mem P m' pv' (es1 ++ es' ++ es2) refs objs := by
  refine ⟨hs, fun e he => ?_, hown.perm (List.perm_iff_count.mpr fun r => ?_)
    (List.perm_iff_count.mpr fun o => ?_)⟩
  · rcases List.mem_append.mp he with he | he
    · rcases List.mem_append.mp he with he | he
      · exact h.ok e (by simp [he])
      · exact hok e he
    · exact h.ok e (by simp [he])
  · simp only [entrySegs_append, segRefs_append, outerRefs, List.count_append]
    omega
  · simp only [entryObjs_append, outerObjs, List.count_append, List.count_cons, hobj]
    omega

theorem entrySlots_mid (es1 es2 : List IovEntry) (e : IovEntry) :
    entrySlots (es1 ++ [e] ++ es2) = entrySlots es1 ++ (e.slots ++ entrySlots es2) := by
  simp

theorem Holds.sub_slots (h : Holds c mem P m pv (es1 ++ [.sub data_length sub] ++ es2) refs objs) :
    Slots pv (entrySlots es1 ++ .pvbuf data_length sub :: entrySlots es2) := by
  have hs := h.slots
  rwa [entrySlots_mid] at hs

theorem Holds.clear (h : Holds c mem P m pv (es1 ++ [e] ++ es2) refs objs)
    (hs : Slots pv' (entrySlots es1 ++ (List.replicate k .null ++ entrySlots es2)))
    (hobj : pv'.obj = pv.obj)
    (hown : Owns c mem m' (outerRefs es1 es2 refs) (outerObjs pv es1 es2 objs)) :
    Holds c mem P m' pv' (es1 ++ gaps k ++ es2) refs objs := by
  refine h.refill hobj ?_ (forall_ok_gaps k) ?_
  · simpa using hs
  · simpa using hown

theorem Wf.obj_mem_objs (hwf : Wf depth pv) : pv.obj ∈ pv.objs := by
  cases depth with
  | zero => exact hwf.elim
  | succ depth =>
    obtain ⟨es, hs, -⟩ := hwf
    rw [hs.objs_eq]
    exact List.mem_cons_self

/-! ## Freeing a tree -/

/-- What a manager holds, `J`, goes down with the operations that free. -/
structure Ledger (c : MgrConfig) (J : Mgr → List Ref → List (Nat × Nat) → Prop) : Prop where
  perm : ∀ {m refs refs' objs objs'}, J m refs objs → refs.Perm refs' → objs.Perm objs' →
    J m refs' objs'
  index_lt : ∀ {m refs objs size i}, J m refs objs → (size, i) ∈ objs → i < c.pvbuf_max_objs size
  ext : ∀ {m refs objs}, J m refs objs → ∀ l, J { m with ext_freed := l } refs objs
  pbufFree : ∀ {st refs objs a}, J st.mgr (a.ref :: refs) objs →
    Returns (pbufFree c a) st fun _ st' => st'.out = st.out ∧ J st'.mgr refs objs
  objAllocFree : ∀ {st refs objs pv}, J st.mgr refs (PvbufOf.obj pv :: objs) →
    Returns (objAllocFree c pv) st fun _ st' => st'.out = st.out ∧ J st'.mgr refs objs

theorem Owns.ledger : Ledger c (Owns c mem) where
  perm := Owns.perm
  index_lt h := h.index_lt
  ext h _ := { h with }
  pbufFree := pbufFree_spec
  objAllocFree := objAllocFree_spec

/-- A pvbuf of at most `depth` levels, whatever the cached lengths are. -/
def Shape : (depth : Nat) → Pvbuf → Prop
  | 0, _ => False
  | depth + 1, pv => ∃ es, Slots pv (entrySlots es) ∧
      ∀ data_length sub, IovEntry.sub data_length sub ∈ es → Shape depth sub

theorem Wf.shape : ∀ {depth : Nat} {pv : Pvbuf}, Wf depth pv → Shape depth pv
  | 0, _, h => h.elim
  | _ + 1, _, ⟨es, hs, hok⟩ => ⟨es, hs, fun _ _ hmem => (hok _ hmem).1.shape⟩

theorem Shape.succ : ∀ {depth : Nat} {pv : Pvbuf}, Shape depth pv → Shape (depth + 1) pv
  | 0, _, h => h.elim
  | _ + 1, _, ⟨es, hs, hsub⟩ => ⟨es, hs, fun dl sub hmem => (hsub dl sub hmem).succ⟩

theorem pvbufFreeBody_spec (hJ : Ledger c J)
    (hfree : ∀ {pv st refs objs}, Shape depth pv → J st.mgr (segRefs pv.segs ++ refs)
      (pv.objs ++ objs) → Returns (free pv) st fun _ st' => st'.out = st.out ∧ J st'.mgr refs objs)
    (he : e ≠ .gap) (hs : Slots pv (entrySlots (gaps q ++ [e] ++ es)))
    (hsub : ∀ data_length sub, e = .sub data_length sub → Shape depth sub)
    (h : J st.mgr (segRefs e.segs ++ refs) (e.objs ++ objs)) :
    Returns (pvbufFreeBody c free q pv) st fun r st' => ∃ pv' k,
      r = .next (q + k) pv' ∧ pv'.obj = pv.obj ∧ Slots pv' (entrySlots (gaps (q + k + 1) ++ es)) ∧
      st'.out = st.out ∧ J st'.mgr refs objs := by
  have hq : (entrySlots (gaps q)).length = q := by simp
  have hgaps : ∀ k, entrySlots (gaps (q + k + 1) ++ es) =
      entrySlots (gaps q) ++ (List.replicate (k + 1) .null ++ entrySlots es) := fun k => by
    rw [entrySlots_append, entrySlots_gaps, entrySlots_gaps, Nat.add_assoc, ← List.append_assoc,
      List.replicate_append_replicate]
  rw [entrySlots_mid] at hs
  rw [pvbufFreeBody]
  match e, he with
  | .sub data_length sub, _ =>
    have hget : pv.get q = .pvbuf data_length sub := hs.get_at hq
    rw [hget]
    refine .step (assert_run rfl _ st) ((hfree (hsub _ _ rfl) h).bind fun _ st' hst' => ?_)
    refine .step (iovecUnsetEnt_run hs hq rfl st') (.pure ⟨pv.clear q, 0, rfl, rfl, ?_, hst'⟩)
    exact (hgaps 0).symm ▸ hs.clear hq
  | .seg (.pbuf a), _ =>
    have hget : pv.get q = .pbuf a := hs.get_at hq
    rw [hget]
    refine .step (assert_run rfl _ st) ((hJ.pbufFree h).bind fun _ st' hst' => ?_)
    refine .step (iovecUnsetEnt_run hs hq rfl st') (.pure ⟨pv.clear q, 0, rfl, rfl, ?_, hst'⟩)
    exact (hgaps 0).symm ▸ hs.clear hq
  | .seg (.short a), _ =>
    have hget : pv.get q = .short a := hs.get_at hq
    rw [hget]
    refine .step (assert_run rfl _ st) (.step (run_modify _ _) ?_)
    refine .step (iovecUnsetEnt_run hs hq rfl _) (.pure ⟨pv.clear q, 0, rfl, rfl, ?_, rfl, hJ.ext h _⟩)
    exact (hgaps 0).symm ▸ hs.clear hq
  | .seg (.long a b), _ =>
    have hget : pv.get q = .long a := hs.get_at hq
    have hget' : pv.get (q + 1) = .long2 b := hs.get_succ hq
    rw [hget, hget']
    refine .step (assert_run rfl _ st) (.step (run_modify _ _) ?_)
    refine .step (iovecUnsetEnt_run hs hq rfl _) ?_
    have hs' : Slots (pv.clear q)
        ((entrySlots (gaps q) ++ [.null]) ++ .long2 b :: entrySlots es) := by
      rw [List.append_assoc]
      exact hs.clear hq
    have hq' : (entrySlots (gaps q) ++ [Iovec.null]).length = q + 1 := by simp
    refine .step (iovecMapIsset_run hs' hq' _) (.step (assert_run rfl _ _) ?_)
    refine .step (iovecUnsetEnt_run hs' hq' rfl _) (.pure ⟨_, 1, rfl, rfl, ?_, rfl, hJ.ext h _⟩)
    exact (hgaps 1).symm ▸ (Slots.clear_long hs hq).1

/-- **Freeing gives up the whole tree.** -/
theorem pvbufFree_ledger (hJ : Ledger c J) (hn : depth ≤ n) (hshape : Shape depth pv)
    (h : J st.mgr (segRefs pv.segs ++ refs) (pv.objs ++ objs)) :
    Returns (pvbufFree c n pv) st fun _ st' => st'.out = st.out ∧ J st'.mgr refs objs := by
  induction n generalizing depth pv st refs objs with
  | zero =>
    obtain rfl := Nat.le_zero.mp hn
    exact hshape.elim
  | succ n ih =>
    obtain _ | depth := depth
    · exact hshape.elim
    obtain ⟨es, hs, hsub⟩ := hshape
    rw [hs.segs_eq, hs.objs_eq] at h
    have hobj : pv.index.toNat < c.pvbuf_max_objs pv.pvbuf_size.toNat :=
      hJ.index_lt h List.mem_cons_self
    rw [pvbufFree]
    refine .step (assert_run (decide_eq_true hobj) _ st) ?_
    -- below the position all slots are free, and what they held has been given up
    refine Returns.bind (forBits_rule
      (I := fun p pv' st' => pv'.obj = pv.obj ∧ st'.out = st.out ∧ ∃ es,
        Slots pv' (entrySlots (gaps p ++ es)) ∧
        (∀ data_length sub, IovEntry.sub data_length sub ∈ gaps p ++ es → Shape depth sub) ∧
        J st'.mgr (segRefs (entrySegs (gaps p ++ es)) ++ refs)
          (pv.obj :: (entryObjs (gaps p ++ es) ++ objs)))
      (Q := fun pv' st' => st'.out = st.out ∧ J st'.mgr refs (pv'.obj :: objs))
      ?_ ?_ (by decide) ⟨rfl, rfl, es, hs, hsub, h⟩) ?_
    · rintro p q pv' st' ⟨hobj, hout, es, hs, hsub, h⟩ hq
      obtain ⟨e, es', heq, hne⟩ := hs.first hq
      rw [heq] at hs hsub h
      have hfocus : J st'.mgr (segRefs e.segs ++ (segRefs (entrySegs es') ++ refs))
          (e.objs ++ (pv.obj :: (entryObjs es' ++ objs))) := by
        refine hJ.perm h (.of_eq (by simp)) ?_
        simpa using List.perm_middle.symm
      rw [← List.singleton_append, ← List.append_assoc] at hs
      refine (pvbufFreeBody_spec hJ (fun hsh hj => ih (Nat.le_of_succ_le_succ hn) hsh hj) hne hs
        (fun dl sub he => hsub dl sub (by simp [he])) hfocus).mono ?_
      rintro _ st'' ⟨pv'', k, rfl, hobj', hs', hout', h'⟩
      refine ⟨Nat.le_add_right q k, hobj'.trans hobj, hout'.trans hout, es', hs', ?_, ?_⟩
      · exact fun dl sub hmem => hsub dl sub (by simp_all [gaps])
      · simpa using h'
    · rintro p pv' st' ⟨hobj, hout, es, hs, -, h⟩ hnone
      have hgaps : es = gaps es.length := hs.none_from (by simpa using hnone)
      rw [hgaps] at h
      exact ⟨hout, by simpa [hobj] using h⟩
    · rintro pv' st' ⟨hout, h⟩
      refine (hJ.objAllocFree h).mono ?_
      rintro _ st'' ⟨hout', h'⟩
      exact ⟨hout'.trans hout, h'⟩

/-- Freeing a pvbuf of `P` gives up all it holds. -/
def FreeSpec (c : MgrConfig) (mem : Mem) (P : Pvbuf → Prop) (free : Pvbuf → PvM Unit) : Prop :=
  ∀ ⦃pv : Pvbuf⦄ ⦃st : PvSt⦄ ⦃refs : List Ref⦄ ⦃objs : List (Nat × Nat)⦄, P pv →
    Owns c mem st.mgr (segRefs pv.segs ++ refs) (pv.objs ++ objs) →
    Returns (free pv) st fun _ st' => st'.out = st.out ∧ Owns c mem st'.mgr refs objs

theorem pvbufFree_spec (depth : Nat) : FreeSpec c mem (Wf depth) (pvbufFree c depth) :=
  fun _ _ _ _ hwf hown => pvbufFree_ledger Owns.ledger (Nat.le_refl depth) hwf.shape hown

end Xdp2
