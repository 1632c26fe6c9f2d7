import Xdp2.Pvbuf.Runs

/-!
# What `__xdp2_pvbuf_alloc_params` promises

A pvbuf that is returned is made of pbufs and pvbufs that were free (`pvbufAllocParams_fresh`), and
if none is, as many are free as before (`Owns.same_free`). That a pbuf in use is not handed out
again does not follow from the counts, but from what the loop does to such pbufs, which is nothing
(`KeepsUsed`). The size is a `size_t`, counted down as an `ssize_t`: from 2^63 on the pvbuf is
empty.
-/

namespace Xdp2

open StateError

/-! ## pbufs in use -/

/-- The pbufs in use, which are not on their free list, stay so with their counts. -/
def UsedKept (s s' : PvSt) : Prop :=
  ∀ b z, z ∉ s.mgr.pbuf_free b → z ∉ s'.mgr.pbuf_free b ∧ s'.mgr.refcnt b z = s.mgr.refcnt b z

/-- Whatever its outcome, `m` does nothing to the pbufs in use. -/
abbrev KeepsUsed {α : Type} (m : PvM α) : Prop := Along UsedKept m

theorem UsedKept.of_eq (hfree : s'.mgr.pbuf_free = s.mgr.pbuf_free)
    (hcnt : s'.mgr.refcnt = s.mgr.refcnt) : UsedKept s s' := by
  intro b z hz
  rw [hfree, hcnt]
  exact ⟨hz, rfl⟩

theorem UsedKept.refl (s : PvSt) : UsedKept s s := .of_eq rfl rfl

theorem UsedKept.trans (h : UsedKept s1 s2) (h' : UsedKept s2 s3) :
    UsedKept s1 s3 := by
  intro b z hz
  obtain ⟨hz2, hcnt2⟩ := h b z hz
  obtain ⟨hz3, hcnt3⟩ := h' b z hz2
  exact ⟨hz3, hcnt3.trans hcnt2⟩

section
variable {α β : Type}

theorem KeepsUsed.pure (a : α) : KeepsUsed (pure a) := Along.pure UsedKept.refl a

theorem KeepsUsed.throw (e : Fault) : KeepsUsed (throw e : PvM α) := Along.throw UsedKept.refl e

theorem KeepsUsed.bind (hm : KeepsUsed m) (hk : ∀ a, KeepsUsed (k a)) : KeepsUsed (m >>= k) :=
  Along.bind (fun _ _ _ h h' => h.trans h') hm hk

theorem keepsUsed_assert (cond : Bool) (label : String) : KeepsUsed (assert cond label) := by
  unfold assert
  exact Along.ite (KeepsUsed.pure ()) (KeepsUsed.throw _)

end

section
variable (c : MgrConfig)

theorem keepsUsed_pbufObjAlloc (btag : Nat) : KeepsUsed (pbufObjAlloc c btag) := by
  intro s
  rw [pbufObjAlloc, run_bind_ok (run_get s)]
  cases hfree : s.mgr.pbuf_free btag with
  | nil => exact .refl s
  | cons zindex rest =>
    intro b z hz
    have hne : ¬ (b = btag ∧ z = zindex) := by
      rintro ⟨rfl, rfl⟩
      rw [hfree] at hz
      exact hz List.mem_cons_self
    refine ⟨?_, if_neg fun h => hne h.2⟩
    show z ∉ if b = btag then rest else s.mgr.pbuf_free b
    split
    · rename_i hb
      rw [hb, hfree] at hz
      exact fun hmem => hz (List.mem_cons_of_mem _ hmem)
    · exact hz

theorem keepsUsed_pbufMakePaddr (one_ref : Bool) (size_shift zindex offset length : Nat) :
    KeepsUsed (pbufMakePaddr one_ref size_shift zindex offset length) :=
  (keepsUsed_assert _ _).bind fun _ => (keepsUsed_assert _ _).bind fun _ =>
    (keepsUsed_assert _ _).bind fun _ => .pure _

theorem keepsUsed_iovecMapSet (pv : Pvbuf) (i : Nat) : KeepsUsed (iovecMapSet pv i) :=
  (keepsUsed_assert _ _).bind fun _ => .pure _

theorem keepsUsed_chooseAllocator (fact size : Nat) : KeepsUsed (chooseAllocator c fact size) := by
  unfold chooseAllocator
  split
  · exact .throw _
  all_goals exact .pure _

theorem keepsUsed_pvbufAlloc (pvbuf_size : Nat) : KeepsUsed (pvbufAlloc pvbuf_size) := by
  refine (keepsUsed_assert _ _).bind fun _ s => ?_
  rw [run_bind_ok (run_get s)]
  cases s.mgr.pvbuf_free pvbuf_size with
  | nil => exact .refl s
  | cons index rest =>
    dsimp only
    by_cases hindex : index < 2 ^ 24
    · rw [run_bind_ok (assert_run (decide_eq_true hindex) _ s)]
      exact .of_eq rfl rfl
    · rw [run_bind_error (assert_fail (decide_eq_false hindex) _ s)]
      exact .refl s

theorem keepsUsed_pvbufAllocSmaller (turns pvbuf_size : Nat) :
    KeepsUsed (pvbufAllocSmaller c turns pvbuf_size) := by
  induction turns generalizing pvbuf_size with
  | zero => exact .throw _
  | succ turns ih =>
    rw [pvbufAllocSmaller]
    refine Along.ite (KeepsUsed.pure none) ((keepsUsed_pvbufAlloc pvbuf_size).bind fun r => ?_)
    cases r with
    | none => exact ih _
    | some pv => exact .pure _

theorem keepsUsed_pvbufAllocEmpty (pvbuf_size : Nat) : KeepsUsed (pvbufAllocEmpty c pvbuf_size) := by
  refine (keepsUsed_pvbufAlloc pvbuf_size).bind fun r => ?_
  cases r with
  | none => exact keepsUsed_pvbufAllocSmaller c _ _
  | some pv => exact .pure _

theorem keepsUsed_iovecCheckEmpty (pv : Pvbuf) (i : Nat) : KeepsUsed (iovecCheckEmpty pv i) :=
  (keepsUsed_assert _ _).bind fun _ =>
    ((keepsUsed_assert _ _).bind fun _ => .pure _).bind fun _ => keepsUsed_assert _ _

theorem keepsUsed_setPbuf (pv : Pvbuf) (i : Nat) (a : PbufAddr) (len : Nat) :
    KeepsUsed (iovecSetPaddrEnt pv i (.pbuf a) .null len) :=
  (keepsUsed_iovecCheckEmpty pv i).bind fun _ => keepsUsed_iovecMapSet _ i

theorem keepsUsed_iovecSetPvbufEnt (pv : Pvbuf) (i : Nat) (src : Pvbuf) (len : Nat) :
    KeepsUsed (iovecSetPvbufEnt pv i src len) :=
  (keepsUsed_iovecCheckEmpty pv i).bind fun _ =>
    ((keepsUsed_assert _ _).bind fun _ => .pure _).bind fun pv => keepsUsed_iovecMapSet pv i

theorem keepsUsed_allocNext (halloc : ∀ pv off size, KeepsUsed (alloc pv off size)) (pv : Pvbuf)
    (off size : Nat) :
    KeepsUsed (allocNext c pvbuf_size alloc pv off size) := by
  unfold allocNext
  refine Along.ite ((keepsUsed_pvbufAllocEmpty c pvbuf_size).bind fun r => ?_) (halloc pv off size)
  cases r with
  | none => exact .pure _
  | some new =>
    exact (keepsUsed_iovecSetPvbufEnt _ _ _ _).bind fun _ => (halloc new 0 size).bind fun _ => .pure _

theorem keepsUsed_allocPbufs (fact pvbuf_size turns : Nat) (pv : Pvbuf) (off size : Nat) :
    KeepsUsed (allocPbufs c fact pvbuf_size turns pv off size) := by
  induction turns generalizing pv off size with
  | zero =>
    unfold allocPbufs
    exact Along.ite (KeepsUsed.pure _) (KeepsUsed.throw _)
  | succ turns ih =>
    unfold allocPbufs
    refine Along.ite (KeepsUsed.pure _) ((keepsUsed_chooseAllocator c fact size).bind fun btag =>
      (keepsUsed_pbufObjAlloc c btag).bind fun r => ?_)
    cases r with
    | none => exact .pure _
    | some zindex =>
      exact (keepsUsed_pbufMakePaddr _ _ _ _ _).bind fun a => (keepsUsed_setPbuf _ _ a _).bind fun pv =>
        keepsUsed_allocNext c ih pv _ _

theorem keepsUsed_pvbufGetSize : KeepsUsed (pvbufGetSize c) := by
  unfold pvbufGetSize
  exact Along.ite (fun s => .of_eq rfl rfl) (KeepsUsed.pure _)

end

theorem pvbufAllocParams_usedKept
    (hrun : (pvbufAllocParams c size_req fact pvbuf_off).run st = .ok (some new) st') :
    UsedKept st st' := by
  obtain ⟨pvbuf_size, st1, hsize, hrun1⟩ := run_bind_eq_ok hrun
  obtain ⟨r, st2, halloc, hrun2⟩ := run_bind_eq_ok hrun1
  have hfirst := ((keepsUsed_pvbufGetSize c).of_ok hsize).trans
    ((keepsUsed_pvbufAlloc pvbuf_size).of_ok halloc)
  cases r with
  | none => cases hrun2
  | some pv =>
    obtain ⟨_, st3, haddr, hrun3⟩ := run_bind_eq_ok hrun2
    obtain ⟨_, st4, hoff, hrun4⟩ := run_bind_eq_ok hrun3
    obtain ⟨⟨pv', ok⟩, st₅, hloop, hrun₅⟩ := run_bind_eq_ok hrun4
    have hchecks := ((keepsUsed_assert _ _).of_ok haddr).trans ((keepsUsed_assert _ _).of_ok hoff)
    have hpbufs := (keepsUsed_allocPbufs c fact pvbuf_size _ pv pvbuf_off _).of_ok hloop
    cases ok with
    | true =>
      cases hrun₅
      exact hfirst.trans (hchecks.trans hpbufs)
    | false =>
      obtain ⟨_, st₆, -, hrun₆⟩ := run_bind_eq_ok hrun₅
      cases hrun₆

/-! ## The promise -/

theorem Owns.same_free (h : Owns c mem m refs objs) (h' : Owns c mem' m' refs objs) :
    (∀ b, (m'.pbuf_free b).length = (m.pbuf_free b).length) ∧
      (∀ size, (m'.pvbuf_free size).length = (m.pvbuf_free size).length) ∧
      ∀ b z, m'.refcnt b z = m.refcnt b z := by
  refine ⟨fun b => ?_, fun size => ?_, fun b z => ?_⟩
  · refine (List.perm_iff_count.mpr fun z => ?_).length_eq
    rw [h.pbufs, h'.pbufs]
  · refine (List.perm_iff_count.mpr fun i => ?_).length_eq
    have hbefore := h.pvbufs size i
    have hafter := h'.pvbufs size i
    omega
  · apply BitVec.eq_of_toNat_eq
    rw [h.refcnt, h'.refcnt]

theorem Owns.obj_free (h : Owns c mem m refs objs) (h' : Owns c mem' m' refs' (new ++ objs))
    (ho : o ∈ new) :
    o.2 ∈ m.pvbuf_free o.1 := by
  have hbefore := h.pvbufs o.1 o.2
  have hafter := h'.pvbufs o.1 o.2
  have hnew : 0 < new.count o := List.count_pos_iff.mpr ho
  rw [Prod.mk.eta] at hbefore hafter
  rw [List.count_append] at hafter
  rw [← List.count_pos_iff]
  split at hbefore
  · rename_i hlt
    rw [if_pos hlt] at hafter
    omega
  · rename_i hlt
    rw [if_neg hlt] at hafter
    omega

theorem Owns.pbuf_free (h : Owns c mem st.mgr refs objs)
    (h' : Owns c mem' st'.mgr (new ++ refs) objs') (hkept : UsedKept st st') (hr : r ∈ new) :
    r.zindex ∈ st.mgr.pbuf_free r.btag := by
  obtain ⟨b, z, one_ref⟩ := r
  have hafter : ⟨b, z, one_ref⟩ ∈ new ++ refs := List.mem_append_left _ hr
  have hnot : ∀ k, ⟨b, z, k⟩ ∉ refs := by
    intro k hk
    have hboth : ⟨b, z, k⟩ ∈ new ++ refs := List.mem_append_right _ hk
    cases one_ref with
    | true =>
      obtain ⟨hone, hcounted⟩ := h'.single b z hafter
      cases k with
      | false => exact hcounted hboth
      | true =>
        rw [List.count_append] at hone
        have hfirst := List.count_pos_iff.mpr hr
        have hsecond := List.count_pos_iff.mpr hk
        omega
    | false =>
      cases k with
      | true => exact (h'.single b z hboth).2 hafter
      | false =>
        -- the pbuf was in use, so its count is what it was
        have hused : z ∉ st.mgr.pbuf_free b := by
          rw [← List.count_eq_zero, h.pbufs, if_neg fun hn => hn.2 false hk]
        have hcount := h'.refcnt b z
        rw [(hkept b z hused).2, h.refcnt, List.count_append] at hcount
        have hfirst := List.count_pos_iff.mpr hr
        omega
  rw [← List.count_pos_iff, h.pbufs, if_pos ⟨h'.range _ hafter, hnot⟩]
  exact Nat.one_pos

/-- **What `__xdp2_pvbuf_alloc_params` returns.** A pvbuf is well-formed, so each sub-pvbuf has
length zero or its exact length, and all it is made of was free. It has the size asked for just if
that is less than 2^63. If there is none, as much is free as before, with the same counts. -/
theorem pvbuf_alloc_params_iff {c : MgrConfig} {st st' : PvSt} {refs : List Ref}
    {objs : List (Nat × Nat)} {size_req fact pvbuf_off : Nat} {r : Option Pvbuf}
    (h : Owns c st.mgr.mem st.mgr refs objs) (hpos : 0 < size_req) (hsize : size_req < 2 ^ 64)
    (hrun : (pvbufAllocParams c size_req fact pvbuf_off).run st = .ok r st') :
    (∀ new, r = some new →
      (segsLen new.segs = size_req ↔ size_req < 2 ^ 63) ∧ (∃ levels, Wf levels new) ∧
        (∀ ref ∈ segRefs new.segs, ref.zindex ∈ st.mgr.pbuf_free ref.btag) ∧
        ∀ o ∈ new.objs, o.2 ∈ st.mgr.pvbuf_free o.1) ∧
      (r = none → (∀ b, (st'.mgr.pbuf_free b).length = (st.mgr.pbuf_free b).length) ∧
        (∀ size, (st'.mgr.pvbuf_free size).length = (st.mgr.pvbuf_free size).length) ∧
        ∀ b z, st'.mgr.refcnt b z = st.mgr.refcnt b z) := by
  obtain ⟨-, ⟨rfl, hown⟩ | ⟨new, levels, rfl, hwf, hlen, hown⟩⟩ := (pvbufAllocParams_spec h).of_ok hrun
  · exact ⟨(fun new hnew => by cases hnew), fun _ => h.same_free hown⟩
  · refine ⟨fun new' hnew => ?_, (fun hnone => by cases hnone)⟩
    cases hnew
    refine ⟨?_, ⟨levels, hwf⟩, fun ref href => ?_, fun o ho => h.obj_free hown ho⟩
    · rw [hlen, BitVec.toInt_eq_toNat_cond, BitVec.toNat_ofNat, Nat.mod_eq_of_lt hsize]
      split <;> omega
    · exact h.pbuf_free hown (pvbufAllocParams_usedKept hrun) href

/-- A pvbuf with ten bytes of the one pbuf there is. -/
def tenBytes : Pvbuf where
  pvbuf_size := 0
  index := 0
  iovec_map := 1
  iovec := [.pbuf ⟨false, 0, 0, 10⟩, .null, .null, .null, .null, .null, .null]

theorem pvbuf_alloc_params_iff_ten :
    ∃ st', (pvbufAllocParams smallConfig 10 49152 0).run (freshState smallConfig) =
        .ok (some tenBytes) st' ∧ segsLen tenBytes.segs = 10 ∧ ∃ levels, Wf levels tenBytes := by
  obtain ⟨st', hrun⟩ : ∃ st', (pvbufAllocParams smallConfig 10 49152 0).run (freshState smallConfig) =
      .ok (some tenBytes) st' := ⟨_, rfl⟩
  obtain ⟨hlen, hwf, -⟩ := (pvbuf_alloc_params_iff (freshState_start smallConfig).sound.owns
    (by decide) (by decide) hrun).1 tenBytes rfl
  exact ⟨st', hrun, hlen.mpr (by decide), hwf⟩

/-- 2^63 bytes are asked for, and an empty pvbuf is returned. -/
theorem pvbuf_alloc_params_empty :
    ∃ st', (pvbufAllocParams smallConfig (2 ^ 63) 49152 0).run (freshState smallConfig) =
      .ok (some (.zero 0 0)) st' ∧ (PvbufOf.zero 0 0).segs = [] :=
  ⟨_, rfl, rfl⟩

end Xdp2
