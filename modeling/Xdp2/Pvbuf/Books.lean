import Xdp2.Pvbuf.Clone
import Xdp2.Pvbuf.Place

/-!
# More references

A reference count is a word of 32 bits, which `2 ^ 32` referrers bring round to zero. `Books` is
`Owns` but for that: it knows the counts up to the word (`Books.owns`).
-/

namespace Xdp2

open BitWord StateError

/-! ## Counts up to the word -/

/-- The references and objects held, and what is free. -/
structure Books (c : MgrConfig) (mem : Mem) (m : Mgr) (refs : List Ref) (objs : List (Nat × Nat)) :
    Prop where
  refcnt : ∀ b z, m.refcnt b z = BitVec.ofNat 32 (refs.count ⟨b, z, false⟩)
  single : ∀ b z, ⟨b, z, true⟩ ∈ refs → refs.count ⟨b, z, true⟩ = 1 ∧ ⟨b, z, false⟩ ∉ refs
  range : ∀ r ∈ refs, r.zindex < c.pbuf_max_objs r.btag
  pbufs : ∀ b z, (m.pbuf_free b).count z =
    if z < c.pbuf_max_objs b ∧ ∀ k, ⟨b, z, k⟩ ∉ refs then 1 else 0
  pvbufs : ∀ size i, objs.count (size, i) + (m.pvbuf_free size).count i =
    if i < c.pvbuf_max_objs size then 1 else 0
  short : m.mem.short = mem.short
  long : m.mem.long = mem.long
  pbuf : ∀ r ∈ refs, ∀ o, o >>> (r.btag + 6) = r.zindex → m.mem.pbuf r.btag o = mem.pbuf r.btag o

theorem Owns.books (h : Owns c mem m refs objs) : Books c mem m refs objs :=
  { h with
    refcnt := fun b z => by rw [← h.refcnt, BitVec.ofNat_toNat, BitVec.setWidth_eq] }

theorem Books.owns (h : Books c mem m refs objs)
    (hlt : ∀ b z, refs.count ⟨b, z, false⟩ < 2 ^ 32) : Owns c mem m refs objs :=
  { h with
    refcnt := fun b z => by rw [h.refcnt, BitVec.toNat_ofNat, Nat.mod_eq_of_lt (hlt b z)] }

theorem Books.perm (h : Books c mem m refs objs) (hr : refs.Perm refs') (ho : objs.Perm objs') :
    Books c mem m refs' objs' where
  refcnt b z := by rw [h.refcnt, hr.count_eq]
  single b z hmem := by
    rw [← hr.count_eq, ← hr.mem_iff]
    exact h.single b z (hr.mem_iff.mpr hmem)
  range r hmem := h.range r (hr.mem_iff.mpr hmem)
  pbufs b z := by
    rw [h.pbufs]
    simp only [hr.mem_iff]
  pvbufs size i := by rw [← ho.count_eq]; exact h.pvbufs size i
  short := h.short
  long := h.long
  pbuf r hmem := h.pbuf r (hr.mem_iff.mpr hmem)

theorem Books.index_lt (h : Books c mem m refs objs) (hmem : o ∈ objs) :
    o.2 < c.pvbuf_max_objs o.1 := by
  have hcount := h.pvbufs o.1 o.2
  have hpos : 0 < objs.count (o.1, o.2) := List.count_pos_iff.mpr hmem
  by_contra hge
  rw [if_neg hge] at hcount
  omega

/-! ## Another referrer -/

theorem Books.bump (h : Books c mem m (⟨b, z, false⟩ :: refs) objs) :
    Books c mem (m.bumpRefcnt b z) (⟨b, z, false⟩ :: ⟨b, z, false⟩ :: refs) objs where
  refcnt b' z' := by
    rw [Mgr.bumpRefcnt]
    dsimp only
    rw [h.refcnt]
    by_cases hz : b' = b ∧ z' = z
    · obtain ⟨rfl, rfl⟩ := hz
      rw [if_pos ⟨rfl, rfl⟩, List.count_cons_self (l := _ :: refs), BitVec.ofNat_add]
      rfl
    · rw [if_neg hz, List.count_cons_of_ne (l := _ :: refs)]
      intro heq
      injection heq with hb hz' _
      exact hz ⟨hb.symm, hz'.symm⟩
  single b' z' hmem := by
    have hmem' : ⟨b', z', true⟩ ∈ (⟨b, z, false⟩ :: refs : List Ref) := by simpa using hmem
    obtain ⟨hcount, hnot⟩ := h.single b' z' hmem'
    exact ⟨by simpa using hcount, by simpa using hnot⟩
  range r hmem := h.range r (by simpa using hmem)
  pbufs b' z' := by
    have hmem : ∀ r : Ref, r ∈ (⟨b, z, false⟩ :: ⟨b, z, false⟩ :: refs : List Ref) ↔
        r ∈ (⟨b, z, false⟩ :: refs : List Ref) := by simp
    simp only [hmem]
    exact h.pbufs b' z'
  pvbufs := h.pvbufs
  short := h.short
  long := h.long
  pbuf r hmem := h.pbuf r (by simpa using hmem)

theorem Books.convert (h : Books c mem m (⟨b, z, true⟩ :: refs) objs) :
    m.refcnt b z = 0 ∧ Books c mem (m.bumpRefcnt b z) (⟨b, z, false⟩ :: refs) objs := by
  obtain ⟨hone, hnone⟩ := h.single b z List.mem_cons_self
  have hnone : ⟨b, z, false⟩ ∉ refs := fun hmem => hnone (List.mem_cons_of_mem _ hmem)
  have hone : ⟨b, z, true⟩ ∉ refs := by
    rw [List.count_cons_self, Nat.add_eq_right] at hone
    exact List.count_eq_zero.mp hone
  have hzero : m.refcnt b z = 0 := by
    rw [h.refcnt, List.count_cons_of_ne (by simp), List.count_eq_zero.mpr hnone]
    rfl
  refine ⟨hzero, ?_, ?_, ?_, ?_, h.pvbufs, h.short, h.long, ?_⟩
  · intro b' z'
    rw [Mgr.bumpRefcnt]
    dsimp only
    by_cases hz : b' = b ∧ z' = z
    · obtain ⟨rfl, rfl⟩ := hz
      rw [if_pos ⟨rfl, rfl⟩, hzero, List.count_cons_self, List.count_eq_zero.mpr hnone]
      rfl
    · rw [if_neg hz, h.refcnt, List.count_cons_of_ne (by simp), List.count_cons_of_ne]
      intro heq
      injection heq with hb hz' _
      exact hz ⟨hb.symm, hz'.symm⟩
  · intro b' z' hmem
    have hmem' : ⟨b', z', true⟩ ∈ refs := by simpa using hmem
    obtain ⟨hcount, hnot⟩ := h.single b' z' (List.mem_cons_of_mem _ hmem')
    have hne : ¬ (b' = b ∧ z' = z) := by
      rintro ⟨rfl, rfl⟩
      exact hone hmem'
    rw [List.count_cons_of_ne (by simpa [eq_comm] using hne)] at hcount
    rw [List.count_cons_of_ne (by simp), List.mem_cons, not_or]
    exact ⟨hcount, by simpa using hne, fun hmem => hnot (List.mem_cons_of_mem _ hmem)⟩
  · intro r hmem
    rcases List.mem_cons.mp hmem with rfl | hmem
    · exact h.range ⟨b, z, true⟩ List.mem_cons_self
    · exact h.range r (List.mem_cons_of_mem _ hmem)
  · intro b' z'
    have hiff : ∀ k : Bool, (∀ k', ⟨b', z', k'⟩ ∉ (⟨b, z, k⟩ :: refs : List Ref)) ↔
        ¬ (b' = b ∧ z' = z) ∧ ∀ k', ⟨b', z', k'⟩ ∉ refs := by
      intro k
      constructor
      · refine fun hall => ⟨?_, fun k' hmem => hall k' (List.mem_cons_of_mem _ hmem)⟩
        rintro ⟨rfl, rfl⟩
        exact hall k List.mem_cons_self
      · rintro ⟨hne, hall⟩ k' hmem
        rcases List.mem_cons.mp hmem with heq | hmem
        · injection heq with hb hz _
          exact hne ⟨hb, hz⟩
        · exact hall k' hmem
    have hcount := h.pbufs b' z'
    simp only [hiff] at hcount ⊢
    exact hcount
  · intro r hmem
    rcases List.mem_cons.mp hmem with rfl | hmem
    · exact h.pbuf ⟨b, z, true⟩ List.mem_cons_self
    · exact h.pbuf r (List.mem_cons_of_mem _ hmem)

theorem pbufBumpRefcnt_run (ha : a.one_ref = false) (st : PvSt) :
    (pbufBumpRefcnt a).run st = .ok () { st with mgr := st.mgr.bumpRefcnt a.btag a.zindex } := by
  rw [pbufBumpRefcnt, run_bind_ok (assert_run (by rw [ha]; rfl) _ st)]
  rfl

theorem pvbufPaddrBumpRefcnt_spec {s : Seg} (hs : ∀ a, s = .pbuf a → a.one_ref = false)
    (h : Books c mem st.mgr (s.refs ++ refs) objs) :
    Returns (pvbufPaddrBumpRefcnt s.paddr1 s.paddr2) st fun _ st' =>
      st'.out = st.out ∧ st'.mgr.mem = st.mgr.mem ∧
      Books c mem st'.mgr (s.refs ++ (s.refs ++ refs)) objs := by
  cases s with
  | pbuf a =>
    have ha := hs a rfl
    have hrefs : (Seg.pbuf a).refs = [⟨a.btag, a.zindex, false⟩] := by
      rw [Seg.refs, PbufAddr.ref, ha]
    rw [hrefs] at h ⊢
    rw [Seg.paddr1, pvbufPaddrBumpRefcnt, if_neg (by rw [ha]; decide)]
    exact ⟨_, _, pbufBumpRefcnt_run ha st, rfl, rfl, h.bump⟩
  | short a => exact ⟨_, _, run_modify _ _, rfl, rfl, { h with }⟩
  | long a b => exact ⟨_, _, run_modify _ _, rfl, rfl, { h with }⟩

theorem iovecSetPaddrEntAndBumpRefcnt_eq {s : Seg} (hs : ∀ a, s = .pbuf a → a.one_ref = false)
    (pv : Pvbuf) (i length : Nat) :
    iovecSetPaddrEntAndBumpRefcnt pv i s.paddr1 s.paddr2 length = (do
      let pv ← iovecSetPaddrEnt pv i s.paddr1 s.paddr2 length
      pvbufPaddrBumpRefcnt s.paddr1 s.paddr2
      return pv) := by
  cases s with
  | pbuf a =>
    have ha := hs a rfl
    simp only [Seg.paddr1, iovecSetPaddrEntAndBumpRefcnt, pvbufPaddrBumpRefcnt, ha]
    rfl
  | short a => rfl
  | long a b => rfl

theorem iovecSetPaddrEntAndBumpRefcnt_spec {s : Seg} {l1 l2 : List Iovec} {i len : Nat}
    (hs : ∀ a, s = .pbuf a → a.one_ref = false) (hlen : s.Takes len)
    (hslots : Slots pv (l1 ++ (List.replicate (1 + s.paddr1.isLongAddr.toNat) .null ++ l2)))
    (hi : l1.length = i) (h : Books c mem st.mgr (s.refs ++ refs) objs) :
    Returns (iovecSetPaddrEntAndBumpRefcnt pv i s.paddr1 s.paddr2 len) st fun pv' st' =>
      pv'.obj = pv.obj ∧ Slots pv' (l1 ++ ((IovEntry.seg (s.setLen len)).slots ++ l2)) ∧
      st'.out = st.out ∧ st'.mgr.mem = st.mgr.mem ∧
      Books c mem st'.mgr (s.refs ++ (s.refs ++ refs)) objs := by
  obtain ⟨pv', hrun, hobj, hslots'⟩ := iovecSetPaddrEnt_run hlen hslots hi st
  rw [iovecSetPaddrEntAndBumpRefcnt_eq hs]
  refine .step hrun ((pvbufPaddrBumpRefcnt_spec hs h).bind fun _ st' hst' => .pure ?_)
  exact ⟨hobj, hslots', hst'⟩

/-! ## Pvbufs -/

theorem pvbufGetSize_books (h : Books c mem st.mgr refs objs) :
    Returns (pvbufGetSize c) st fun size st' => size < 16 ∧ st'.out = st.out ∧
      st'.mgr.mem = st.mgr.mem ∧ Books c mem st'.mgr refs objs := by
  rw [pvbufGetSize]
  split
  · refine .step (run_get st) (.step (run_set st _) (.pure ?_))
    exact ⟨Nat.mod_lt _ (by decide), rfl, rfl, { h with }⟩
  · exact .pure ⟨c.default_pvbuf_size_lt, rfl, rfl, h⟩

theorem pvbufAlloc_books (hsize : size < 16) (h : Books c mem st.mgr refs objs) :
    Returns (pvbufAlloc size) st fun r st' =>
      st'.out = st.out ∧ st'.mgr.mem = st.mgr.mem ∧
      ((r = none ∧ st'.mgr.pvbuf_free size = [] ∧ Books c mem st'.mgr refs objs) ∨
        ∃ new, r = some new ∧ new.obj.1 = size ∧ Slots new (List.replicate new.num .null) ∧
          Books c mem st'.mgr refs (new.obj :: objs)) := by
  refine (pvbufAlloc_cases hsize fun i hi => free_lt_of_count (h.pvbufs size i) hi).mono ?_
  rintro r st' (⟨rfl, hfree, rfl⟩ | ⟨new, index, rest, rfl, hfree, hobj, hs, rfl⟩)
  · exact ⟨rfl, rfl, .inl ⟨rfl, hfree, h⟩⟩
  · refine ⟨rfl, rfl, .inr ⟨new, rfl, by rw [hobj], hs, ?_⟩⟩
    rw [hobj]
    exact { h with pvbufs := fun s i => (count_popPvbuf hfree objs s i).trans (h.pvbufs s i) }

/-! ## Freeing what only has counted references -/

/-- Pbufs with a count, and objects, that there are. -/
structure Counted (c : MgrConfig) (refs : List Ref) (objs : List (Nat × Nat)) : Prop where
  refs : ∀ r ∈ refs, r.one_ref = false ∧ r.zindex < c.pbuf_max_objs r.btag
  objs : ∀ o ∈ objs, o.2 < c.pvbuf_max_objs o.1

theorem Counted.ledger (c : MgrConfig) : Ledger c fun _ => Counted c where
  perm h hr ho := ⟨fun r hmem => h.refs r (hr.mem_iff.mpr hmem),
    fun o hmem => h.objs o (ho.mem_iff.mpr hmem)⟩
  index_lt h hmem := h.objs _ hmem
  ext h _ := h
  pbufFree {st refs objs a} h := by
    obtain ⟨hone, hlt⟩ := h.refs _ List.mem_cons_self
    have hrest : Counted c refs objs := ⟨fun r hmem => h.refs r (List.mem_cons_of_mem _ hmem), h.objs⟩
    have hone : a.one_ref = false := hone
    rw [pbufFree, hone]
    refine .step (run_get st) (.step (run_modify _ _) ?_)
    split
    · exact .pure ⟨rfl, hrest⟩
    · exact ⟨_, _, freePbufByIndex_run hlt _, rfl, hrest⟩
  objAllocFree {st refs objs pv} h := by
    have hlt : pv.index.toNat < c.pvbuf_max_objs pv.pvbuf_size.toNat := h.objs _ List.mem_cons_self
    rw [objAllocFree]
    refine .step (assert_run (decide_eq_true hlt) _ st) ⟨_, _, run_modify _ _, rfl, h.refs, ?_⟩
    exact fun o hmem => h.objs o (List.mem_cons_of_mem _ hmem)

end Xdp2
