import Xdp2.Pvbuf.Wf

/-!
# Who holds what

`Owns c mem m refs objs` is the invariant of the manager: `refs` are all references to pbufs and
`objs` all pvbuf objects that anyone holds, and the rest is on the free lists, once. A pbuf's count
is the number of its references, and one held by a single-reference paddr has no other. The bytes of
the pbufs held are those of `mem`. Lists of references and objects are used up to permutation, so an
operation is described by what it takes from or adds to the front.
-/

namespace Xdp2

open StateError

/-! ## References -/

/-- A reference to a pbuf. -/
structure Ref where
  btag : Nat
  zindex : Nat
  one_ref : Bool
  deriving DecidableEq, Repr

/-- The reference a pbuf paddr holds. -/
def PbufAddr.ref (a : PbufAddr) : Ref := ⟨a.btag, a.zindex, a.one_ref⟩

/-- The references a leaf holds. -/
def Seg.refs : Seg → List Ref
  | pbuf a => [a.ref]
  | short _ => []
  | long _ _ => []

/-- The references leaves hold. -/
def segRefs (segs : List Seg) : List Ref := segs.flatMap Seg.refs

@[simp] theorem segRefs_nil : segRefs [] = [] := rfl

@[simp] theorem segRefs_cons (s : Seg) (segs : List Seg) :
    segRefs (s :: segs) = s.refs ++ segRefs segs := List.flatMap_cons

@[simp] theorem segRefs_append (l l' : List Seg) : segRefs (l ++ l') = segRefs l ++ segRefs l' :=
  List.flatMap_append

/-! ## The invariant -/

/-- The references and objects held, and what is free. -/
structure Owns (c : MgrConfig) (mem : Mem) (m : Mgr) (refs : List Ref) (objs : List (Nat × Nat)) :
    Prop where
  refcnt : ∀ b z, (m.refcnt b z).toNat = refs.count ⟨b, z, false⟩
  single : ∀ b z, ⟨b, z, true⟩ ∈ refs → refs.count ⟨b, z, true⟩ = 1 ∧ ⟨b, z, false⟩ ∉ refs
  range : ∀ r ∈ refs, r.zindex < c.pbuf_max_objs r.btag
  pbufs : ∀ b z, (m.pbuf_free b).count z =
    if z < c.pbuf_max_objs b ∧ ∀ k, ⟨b, z, k⟩ ∉ refs then 1 else 0
  pvbufs : ∀ size i, objs.count (size, i) + (m.pvbuf_free size).count i =
    if i < c.pvbuf_max_objs size then 1 else 0
  short : m.mem.short = mem.short
  long : m.mem.long = mem.long
  pbuf : ∀ r ∈ refs, ∀ o, o >>> (r.btag + 6) = r.zindex → m.mem.pbuf r.btag o = mem.pbuf r.btag o

theorem Owns.perm (h : Owns c mem m refs objs) (hr : refs.Perm refs') (ho : objs.Perm objs') :
    Owns c mem m refs' objs' where
  refcnt b z := by rw [h.refcnt, hr.count_eq]
  single b z hmem := by
    rw [← hr.count_eq, ← hr.mem_iff]
    exact h.single b z (hr.mem_iff.mpr hmem)
  range r hmem := h.range r (hr.mem_iff.mpr hmem)
  pbufs b z := by
    rw [h.pbufs]
    simp only [hr.mem_iff]
  pvbufs size i := by rw [← ho.count_eq]; exact h.pvbufs size i
  short := h.short
  long := h.long
  pbuf r hmem := h.pbuf r (hr.mem_iff.mpr hmem)

theorem Owns.release (h : Owns c mem m (r :: refs) objs) (hlast : ∀ k, ⟨r.btag, r.zindex, k⟩ ∉ refs)
    {refcnt : Nat → Nat → BitVec 32} (hcnt : ∀ b z, (refcnt b z).toNat = refs.count ⟨b, z, false⟩) :
    Owns c mem ({ m with refcnt := refcnt }.pushPbuf c r.btag r.zindex) refs objs where
  refcnt := hcnt
  single b z hmem := by
    have hne : r ≠ ⟨b, z, true⟩ := by
      rintro rfl
      exact hlast true hmem
    obtain ⟨hcount, hnot⟩ := h.single b z (List.mem_cons_of_mem r hmem)
    rw [List.count_cons_of_ne hne] at hcount
    exact ⟨hcount, fun hf => hnot (List.mem_cons_of_mem r hf)⟩
  range r' hmem := h.range r' (List.mem_cons_of_mem r hmem)
  pbufs b z := by
    have hfree := h.pbufs b z
    simp only [Mgr.pushPbuf]
    by_cases hb : b = r.btag
    · subst hb
      by_cases hz : z = r.zindex
      · subst hz
        have hr : r.zindex < c.pbuf_max_objs r.btag := h.range r List.mem_cons_self
        rw [if_neg fun hn => hn.2 r.one_ref List.mem_cons_self] at hfree
        rw [if_pos rfl, List.count_cons_self, hfree, if_pos ⟨hr, hlast⟩]
      · have hne : ∀ k, r ≠ ⟨r.btag, z, k⟩ := fun k hk => hz (congrArg Ref.zindex hk).symm
        rw [if_pos rfl, List.count_cons_of_ne (Ne.symm hz), hfree]
        simp only [List.mem_cons, (hne _).symm, false_or]
    · have hne : ∀ k, r ≠ ⟨b, z, k⟩ := fun k hk => hb (congrArg Ref.btag hk).symm
      rw [if_neg hb, hfree]
      simp only [List.mem_cons, (hne _).symm, false_or]
  pvbufs := h.pvbufs
  short := h.short
  long := h.long
  pbuf r' hmem o ho := by
    rw [← h.pbuf r' (List.mem_cons_of_mem r hmem) o ho]
    simp only [Mgr.pushPbuf]
    refine if_neg fun hin => ?_
    obtain ⟨hb, hle, hlt⟩ := hin
    -- the link is in the buffer given up, so the byte is in no buffer still held
    have hz : o >>> (r.btag + 6) = r.zindex := by
      rw [Nat.shiftRight_eq_div_pow]
      rw [Nat.shiftLeft_eq] at hle hlt
      have h64 : 64 ≤ 2 ^ (r.btag + 6) := by
        rw [Nat.pow_add]
        exact Nat.le_mul_of_pos_left 64 (Nat.two_pow_pos r.btag)
      exact Nat.div_eq_of_lt_le hle (by rw [Nat.add_mul]; omega)
    rw [← hb, ho] at hz
    exact hlast r'.one_ref (by rw [← hb, ← hz]; exact hmem)

theorem Owns.unref (h : Owns c mem m (r :: refs) objs) (hmore : r ∈ refs) (hr : r.one_ref = false)
    {refcnt : Nat → Nat → BitVec 32} (hcnt : ∀ b z, (refcnt b z).toNat = refs.count ⟨b, z, false⟩) :
    Owns c mem { m with refcnt := refcnt } refs objs where
  refcnt := hcnt
  single b z hmem := by
    have hne : r ≠ ⟨b, z, true⟩ := by
      rintro rfl
      cases hr
    obtain ⟨hcount, hnot⟩ := h.single b z (List.mem_cons_of_mem r hmem)
    rw [List.count_cons_of_ne hne] at hcount
    exact ⟨hcount, fun hf => hnot (List.mem_cons_of_mem r hf)⟩
  range r' hmem := h.range r' (List.mem_cons_of_mem r hmem)
  pbufs b z := by
    have hsame : ∀ r', r' ∈ r :: refs ↔ r' ∈ refs := fun r' =>
      ⟨fun hm => (List.mem_cons.mp hm).elim (fun he => he ▸ hmore) id, List.mem_cons_of_mem r⟩
    simpa only [hsame] using h.pbufs b z
  pvbufs := h.pvbufs
  short := h.short
  long := h.long
  pbuf r' hmem := h.pbuf r' (List.mem_cons_of_mem r hmem)

theorem Owns.index_lt (h : Owns c mem m refs objs) (hmem : (size, i) ∈ objs) :
    i < c.pvbuf_max_objs size := by
  have hcount := h.pvbufs size i
  have hpos : 0 < objs.count (size, i) := List.count_pos_iff.mpr hmem
  by_contra hge
  rw [if_neg hge] at hcount
  omega

/-! ## Operations on the manager -/

theorem assert_run {cond : Bool} (h : cond = true) (label : String) (st : PvSt) :
    (assert cond label).run st = .ok () st := by
  rw [assert, if_pos h]
  rfl

theorem assert_fail {cond : Bool} (h : cond = false) (label : String) (st : PvSt) :
    (assert cond label).run st = .error (.assertion label) st := by
  rw [assert, if_neg (by simp [h])]
  rfl

theorem freePbufByIndex_run {z : Nat} (hz : z < c.pbuf_max_objs b) (st : PvSt) :
    (freePbufByIndex c b z).run st = .ok () { st with mgr := st.mgr.pushPbuf c b z } := by
  rw [freePbufByIndex, run_bind_ok (assert_run (by simpa using hz) _ st)]
  rfl

theorem pbufFree_spec {a : PbufAddr} (h : Owns c mem st.mgr (a.ref :: refs) objs) :
    Returns (pbufFree c a) st fun _ st' => st'.out = st.out ∧ Owns c mem st'.mgr refs objs := by
  have hz : a.zindex < c.pbuf_max_objs a.btag := h.range a.ref List.mem_cons_self
  rw [pbufFree]
  refine .step (run_get st) ?_
  cases hone : a.one_ref with
  | true =>
    have href : a.ref = ⟨a.btag, a.zindex, true⟩ := by rw [PbufAddr.ref, hone]
    rw [href] at h
    obtain ⟨hcount, hnot⟩ := h.single a.btag a.zindex List.mem_cons_self
    rw [List.count_cons_self] at hcount
    have hlast : ∀ k, ⟨a.btag, a.zindex, k⟩ ∉ refs := by
      rintro (_ | _) hmem
      · exact hnot (List.mem_cons_of_mem _ hmem)
      · have := List.count_pos_iff.mpr hmem
        omega
    have hcnt : ∀ b z, (st.mgr.refcnt b z).toNat = refs.count ⟨b, z, false⟩ := fun b z => by
      rw [h.refcnt, List.count_cons_of_ne (by simp)]
    have hzero : st.mgr.refcnt a.btag a.zindex = 0 := by
      refine BitVec.eq_of_toNat_eq ?_
      rw [hcnt, List.count_eq_zero.mpr (hlast false)]
      rfl
    simp only [if_true]
    refine .step (assert_run (by simpa using hzero) _ st) ?_
    exact ⟨(), _, freePbufByIndex_run hz st, rfl, h.release hlast hcnt⟩
  | false =>
    have href : a.ref = ⟨a.btag, a.zindex, false⟩ := by rw [PbufAddr.ref, hone]
    rw [href] at h
    have hn := h.refcnt a.btag a.zindex
    rw [List.count_cons_self] at hn
    have hcnt : ∀ b z, (if b = a.btag ∧ z = a.zindex then st.mgr.refcnt a.btag a.zindex - 1
        else st.mgr.refcnt b z).toNat = refs.count ⟨b, z, false⟩ := by
      intro b z
      split
      · rename_i hbz
        obtain ⟨rfl, rfl⟩ := hbz
        have hone : (1 : BitVec 32).toNat = 1 := rfl
        rw [BitVec.toNat_sub_of_le (by rw [BitVec.le_def, hone, hn]; omega), hn, hone]
        omega
      · rename_i hbz
        rw [h.refcnt, List.count_cons_of_ne]
        rintro heq
        simp only [Ref.mk.injEq, and_true] at heq
        exact hbz ⟨heq.1.symm, heq.2.symm⟩
    rw [if_neg (by simp)]
    refine .step (run_modify st _) ?_
    by_cases hlast : st.mgr.refcnt a.btag a.zindex = 1
    · rw [if_neg (not_not.mpr hlast)]
      rw [hlast] at hn
      have hzero : refs.count ⟨a.btag, a.zindex, false⟩ = 0 := by
        have : (1 : BitVec 32).toNat = 1 := rfl
        omega
      refine ⟨(), _, freePbufByIndex_run hz _, rfl, h.release ?_ hcnt⟩
      rintro (_ | _) hmem
      · exact List.count_eq_zero.mp hzero hmem
      · exact (h.single _ _ (List.mem_cons_of_mem _ hmem)).2 List.mem_cons_self
    · rw [if_pos hlast]
      refine .pure ⟨rfl, h.unref ?_ rfl hcnt⟩
      refine List.count_pos_iff.mp ?_
      by_contra hzero
      refine hlast (BitVec.eq_of_toNat_eq ?_)
      rw [hn]
      have : (1 : BitVec 32).toNat = 1 := rfl
      omega

end Xdp2
