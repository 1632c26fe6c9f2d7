import Xdp2.Pvbuf.Books
import Xdp2.Pvbuf.Trim

/-!
# Going over the leaves

The rule for `__xdp2_pvbuf_iterate_iovec`, for an invariant `I done todo` of the leaves behind and
ahead; the function may replace a leaf by one that is `Alike`. Whatever the tree is, it sees the
leaves from left to right (`iterateIovec_rule`).
-/

namespace Xdp2

open BitWord StateError

/-! ## Leaves with a count -/

/-- The leaf with a count of its references. -/
def Seg.counted : Seg → Seg
  | pbuf a => .pbuf { a with one_ref := false }
  | short a => .short a
  | long a b => .long a b

/-- A leaf, or the leaf with a count. -/
def Alike (s t : Seg) : Prop := t = s ∨ t = s.counted

section
variable {s t : Seg}

theorem Alike.len_eq (h : Alike s t) : t.len = s.len := by
  rcases h with rfl | rfl
  · rfl
  · cases s <;> rfl

theorem Alike.fits (h : Alike s t) (hs : s.Fits) : t.Fits := by
  rcases h with rfl | rfl
  · exact hs
  · cases s <;> exact hs

theorem Alike.bytes_eq (h : Alike s t) (mem : Mem) : t.bytes mem = s.bytes mem := by
  rcases h with rfl | rfl
  · rfl
  · cases s <;> rfl

theorem Alike.slots_length (h : Alike s t) :
    (IovEntry.seg t).slots.length = (IovEntry.seg s).slots.length := by
  rcases h with rfl | rfl
  · rfl
  · cases s <;> rfl

theorem Alike.refl (s : Seg) : Alike s s := .inl rfl

theorem alike_refl (l : List Seg) : List.Forall₂ Alike l l := by
  induction l with
  | nil => exact .nil
  | cons s l ih => exact .cons (.refl s) ih

theorem segsLen_alike (h : List.Forall₂ Alike l l') : segsLen l' = segsLen l := by
  induction h with
  | nil => rfl
  | cons hs _ ih => exact congrArg₂ (· + ·) hs.len_eq ih

theorem segBytes_alike (mem : Mem) (h : List.Forall₂ Alike l l') :
    segBytes mem l' = segBytes mem l := by
  induction h with
  | nil => rfl
  | cons hs _ ih => rw [segBytes_cons, segBytes_cons, hs.bytes_eq, ih]

end

/-! ## The rule -/

section
variable {σ : Type} {func : Pvbuf → Nat → σ → PvM (Iter σ)} {I : List Seg → List Seg → σ → PvSt → Prop}
  {Q : List Seg → σ → PvSt → Prop} {depth : Nat} {pv : Pvbuf} {pre post : List Seg} {priv : σ} {st : PvSt}

/-- A leaf between the slots `l1` and `l2` has become one alike, and the function goes on with what is
behind it, or ends. -/
def LeafDone (I : List Seg → List Seg → σ → PvSt → Prop) (Q : List Seg → σ → PvSt → Prop) (pv : Pvbuf)
    (l1 l2 : List Iovec) (s : Seg) (pre post : List Seg) (r : Iter σ) (st' : PvSt) : Prop :=
  ∃ s', Alike s s' ∧ r.pvbuf.obj = pv.obj ∧ Slots r.pvbuf (l1 ++ ((IovEntry.seg s').slots ++ l2)) ∧
    (r.cont = true → I (pre ++ [s']) post r.priv st') ∧
    (r.cont = false → Q (pre ++ s' :: post) r.priv st')

/-- What the function called does with a leaf. -/
def LeafSpec (I : List Seg → List Seg → σ → PvSt → Prop) (Q : List Seg → σ → PvSt → Prop)
    (func : Pvbuf → Nat → σ → PvM (Iter σ)) : Prop :=
  ∀ ⦃pv : Pvbuf⦄ ⦃i : Nat⦄ ⦃l1 l2 : List Iovec⦄ ⦃s : Seg⦄ ⦃pre post : List Seg⦄ ⦃priv : σ⦄
    ⦃st : PvSt⦄, Slots pv (l1 ++ ((IovEntry.seg s).slots ++ l2)) → l1.length = i → s.Fits →
    I pre (s :: post) priv st → Returns (func pv i priv) st (LeafDone I Q pv l1 l2 s pre post)

/-- What has been done with a pvbuf that has the leaves `pre` before it and `post` behind it. -/
structure Iterated (I : List Seg → List Seg → σ → PvSt → Prop) (Q : List Seg → σ → PvSt → Prop)
    (depth : Nat) (pv : Pvbuf) (pre post : List Seg) (r : Iter σ) (st' : PvSt) : Prop where
  wf : Wf depth r.pvbuf
  obj : r.pvbuf.obj = pv.obj
  objs : r.pvbuf.objs = pv.objs
  alike : List.Forall₂ Alike pv.segs r.pvbuf.segs
  next : r.cont = true → I (pre ++ r.pvbuf.segs) post r.priv st'
  last : r.cont = false → Q (pre ++ (r.pvbuf.segs ++ post)) r.priv st'

/-- The pvbuf in the loop over its entries: `old` have become `done`, `todo` are left. -/
structure IterAt (depth : Nat) (pv : Pvbuf) (old done todo : List IovEntry) (pv' : Pvbuf) : Prop where
  slots : Slots pv' (entrySlots (done ++ todo))
  obj : pv'.obj = pv.obj
  segs : pv.segs = entrySegs (old ++ todo)
  objs : pv.objs = pv.obj :: entryObjs (old ++ todo)
  ok : ∀ e ∈ done ++ todo, e.Ok (Wf depth)
  objs_eq : entryObjs done = entryObjs old
  alike : List.Forall₂ Alike (entrySegs old) (entrySegs done)

variable {old done todo : List IovEntry} {pv' : Pvbuf} {e : IovEntry} {q : Nat}

theorem IterAt.skip (h : IterAt depth pv old done (gaps k ++ todo) pv') :
    IterAt depth pv (old ++ gaps k) (done ++ gaps k) todo pv' where
  slots := by rw [List.append_assoc]; exact h.slots
  obj := h.obj
  segs := by rw [List.append_assoc]; exact h.segs
  objs := by rw [List.append_assoc]; exact h.objs
  ok := by rw [List.append_assoc]; exact h.ok
  objs_eq := by simp [h.objs_eq]
  alike := by simpa using h.alike

theorem IterAt.advance (h : IterAt depth pv old done (e :: todo) pv') (hobj : pv''.obj = pv'.obj)
    (hslots : Slots pv'' (entrySlots (done ++ [e'] ++ todo))) (hok : e'.Ok (Wf depth))
    (hobjs : e'.objs = e.objs) (halike : List.Forall₂ Alike e.segs e'.segs) :
    IterAt depth pv (old ++ [e]) (done ++ [e']) todo pv'' where
  slots := hslots
  obj := hobj.trans h.obj
  segs := by rw [h.segs]; simp
  objs := by rw [h.objs]; simp
  ok e1 he1 := by
    rw [List.append_assoc, List.mem_append, List.singleton_append, List.mem_cons] at he1
    rcases he1 with he1 | rfl | he1
    · exact h.ok e1 (List.mem_append_left _ he1)
    · exact hok
    · exact h.ok e1 (List.mem_append_right _ (List.mem_cons_of_mem _ he1))
  objs_eq := by simp [h.objs_eq, hobjs]
  alike := by
    simp only [entrySegs_append, entrySegs_cons, entrySegs_nil, List.append_nil]
    exact List.rel_append h.alike halike

theorem IterAt.iterated (h : IterAt depth pv old done todo r.pvbuf)
    (hnext : r.cont = true → I (pre ++ entrySegs (done ++ todo)) post r.priv st)
    (hlast : r.cont = false → Q (pre ++ (entrySegs (done ++ todo) ++ post)) r.priv st) :
    Iterated I Q (depth + 1) pv pre post r st where
  wf := ⟨_, h.slots, h.ok⟩
  obj := h.obj
  objs := by rw [h.slots.objs_eq, h.objs, h.obj, entryObjs_append, entryObjs_append, h.objs_eq]
  alike := by
    rw [h.slots.segs_eq, h.segs, entrySegs_append, entrySegs_append]
    exact List.rel_append h.alike (alike_refl _)
  next hcont := by rw [h.slots.segs_eq]; exact hnext hcont
  last hcont := by rw [h.slots.segs_eq]; exact hlast hcont

theorem Iter.turn_sat {r : Iter σ} (pos : Nat) (hlen : (entrySlots done).length = pos + 1)
    (hq : q ≤ pos) (h : IterAt depth pv old done todo r.pvbuf)
    (hnext : r.cont = true → I (pre ++ entrySegs done) (entrySegs todo ++ post) r.priv st)
    (hlast : r.cont = false → Q (pre ++ (entrySegs (done ++ todo) ++ post)) r.priv st) :
    TurnSat (fun pos t st' => q ≤ pos ∧ t.cont = true ∧ ∃ old done todo,
        (entrySlots done).length = pos + 1 ∧ IterAt depth pv old done todo t.pvbuf ∧
        I (pre ++ entrySegs done) (entrySegs todo ++ post) t.priv st')
      (Iterated I Q (depth + 1) pv pre post) (r.turn pos) st := by
  rw [Iter.turn]
  cases hcont : r.cont with
  | true => exact ⟨hq, hcont, old, done, todo, hlen, h, hnext hcont⟩
  | false => exact h.iterated (fun hc => by rw [hcont] at hc; cases hc) hlast

theorem LeafDone.turn_sat
    (hr : LeafDone I Q pv' (entrySlots done) (entrySlots todo) s (pre ++ entrySegs done)
      (entrySegs todo ++ post) r st)
    (h : IterAt depth pv old done (.seg s :: todo) pv') (hfits : s.Fits)
    (hq : (entrySlots done).length = q) (hpos : pos + 1 = q + (IovEntry.seg s).slots.length)
    (hle : q ≤ pos) :
    TurnSat (fun pos t st' => q ≤ pos ∧ t.cont = true ∧ ∃ old done todo,
        (entrySlots done).length = pos + 1 ∧ IterAt depth pv old done todo t.pvbuf ∧
        I (pre ++ entrySegs done) (entrySegs todo ++ post) t.priv st')
      (Iterated I Q (depth + 1) pv pre post) (r.turn pos) st := by
  obtain ⟨s', halike, hobj, hslots, hnext, hlast⟩ := hr
  have hat : IterAt depth pv (old ++ [.seg s]) (done ++ [.seg s']) todo r.pvbuf :=
    h.advance hobj (by rw [entrySlots_mid]; exact hslots) (halike.fits hfits) rfl (.cons halike .nil)
  refine Iter.turn_sat pos ?_ hle hat ?_ ?_
  · rw [hpos, entrySlots_append, List.length_append, hq]
    simp [halike.slots_length]
  · intro hc
    simpa [IovEntry.segs] using hnext hc
  · intro hc
    simpa [IovEntry.segs] using hlast hc

theorem iterateBody_spec (hleaf : LeafSpec I Q func)
    (hrec : ∀ {sub pre post priv st}, Wf depth sub → sub.objs ⊆ pv.objs →
      I pre (sub.segs ++ post) priv st →
      Returns (iterate sub priv) st (Iterated I Q depth sub pre post))
    (he : e ≠ .gap) (h : IterAt depth pv old done (e :: todo) t.pvbuf)
    (hI : I (pre ++ entrySegs done) (entrySegs (e :: todo) ++ post) t.priv st)
    (hq : (entrySlots done).length = q) :
    Returns (iterateBody func iterate q t) st
      (TurnSat (fun pos t st' => q ≤ pos ∧ t.cont = true ∧ ∃ old done todo,
          (entrySlots done).length = pos + 1 ∧ IterAt depth pv old done todo t.pvbuf ∧
          I (pre ++ entrySegs done) (entrySegs todo ++ post) t.priv st')
        (Iterated I Q (depth + 1) pv pre post)) := by
  have hok : e.Ok (Wf depth) := h.ok e (by simp)
  have hs := h.slots
  rw [← List.singleton_append, ← List.append_assoc, entrySlots_mid] at hs
  rw [entrySegs_cons, List.append_assoc] at hI
  have hnull := hs.get_isNull he hq
  rw [iterateBody]
  refine .step (assert_run (by rw [hnull]; rfl) _ st) ?_
  match e, he with
  | .sub dl sub, _ =>
    have hget : t.pvbuf.get q = .pvbuf dl sub := hs.get_at hq
    have hsub : sub.objs ⊆ pv.objs := fun o ho => by
      rw [h.objs]
      simp [IovEntry.objs, ho]
    rw [hget]
    refine (hrec hok.1 hsub hI).bind fun r st' hr => .pure ?_
    have hok' : (IovEntry.sub dl r.pvbuf).Ok (Wf depth) :=
      ⟨hr.wf, by rw [segsLen_alike hr.alike]; exact hok.2⟩
    have hslots : Slots (t.pvbuf.set q (.pvbuf dl r.pvbuf))
        (entrySlots (done ++ [.sub dl r.pvbuf] ++ todo)) := by
      rw [entrySlots_mid]
      exact hs.set hq rfl
    refine Iter.turn_sat q (by simp [hq, IovEntry.slots]) (Nat.le_refl q)
      (h.advance rfl hslots hok' hr.objs hr.alike) ?_ ?_
    · intro hc
      simpa [IovEntry.segs] using hr.next hc
    · intro hc
      simpa [IovEntry.segs] using hr.last hc
  | .seg s, _ =>
    cases s with
    | pbuf a =>
      have hget : t.pvbuf.get q = .pbuf a := hs.get_at hq
      rw [hget]
      exact (hleaf hs hq hok hI).bind fun r st' hr => .pure (hr.turn_sat h hok hq rfl (Nat.le_refl q))
    | short a =>
      have hget : t.pvbuf.get q = .short a := hs.get_at hq
      rw [hget]
      exact (hleaf hs hq hok hI).bind fun r st' hr => .pure (hr.turn_sat h hok hq rfl (Nat.le_refl q))
    | long a b =>
      have hget : t.pvbuf.get q = .long a := hs.get_at hq
      rw [hget]
      refine (hleaf hs hq hok hI).bind fun r st' hr => ?_
      obtain ⟨s', halike, hobj, hslots, hrest⟩ := hr
      obtain rfl : s' = .long a b := by rcases halike with rfl | rfl <;> rfl
      have hslots' : Slots r.pvbuf ((entrySlots done ++ [.long a]) ++ .long2 b :: entrySlots todo) := by
        rw [List.append_assoc]
        exact hslots
      refine .step (iovecMapIsset_run hslots' (by simp [hq]) st') (.step (assert_run rfl _ st') ?_)
      have hr : LeafDone I Q _ _ _ _ _ _ r st' := ⟨_, halike, hobj, hslots, hrest⟩
      exact .pure (hr.turn_sat h hok hq rfl (Nat.le_succ q))

/-- **The function sees the leaves of a pvbuf from left to right.** -/
theorem iterateIovec_rule (hleaf : LeafSpec I Q func) (hn : depth ≤ n) (hwf : Wf depth pv)
    (hobjs : ∀ o ∈ pv.objs, o.2 < c.pvbuf_max_objs o.1) (hI : I pre (pv.segs ++ post) priv st) :
    Returns (iterateIovec c func n pv priv) st (Iterated I Q depth pv pre post) := by
  induction n generalizing depth pv pre post priv st with
  | zero =>
    obtain rfl := Nat.le_zero.mp hn
    exact hwf.elim
  | succ n ih =>
    obtain _ | depth := depth
    · exact hwf.elim
    have hindex := hobjs _ hwf.obj_mem_objs
    obtain ⟨es, hs, hes⟩ := hwf
    rw [iterateIovec]
    refine .step (assert_run (decide_eq_true hindex) _ st) ?_
    refine forBits_rule
      (I := fun p t st' => t.cont = true ∧ ∃ old done todo, (entrySlots done).length = p ∧
        IterAt depth pv old done todo t.pvbuf ∧
        I (pre ++ entrySegs done) (entrySegs todo ++ post) t.priv st') ?_ ?_ (by decide)
      ⟨rfl, [], [], es, rfl, ⟨hs, rfl, hs.segs_eq, hs.objs_eq, hes, rfl, .nil⟩, ?_⟩
    · rintro p q t st' ⟨-, old, done, todo, hlen, hat, hI⟩ hq
      obtain ⟨e, todo, rfl, hne, hpos, -⟩ := hat.slots.entry_at hlen hq
      refine iterateBody_spec hleaf (fun hsub hin => ih (Nat.le_of_succ_le_succ hn) hsub
        fun o ho => hobjs o (hin ho)) hne hat.skip ?_ hpos
      simpa using hI
    · rintro p t st' ⟨hcont, old, done, todo, hlen, hat, hI⟩ hnone
      have hgaps : todo = gaps todo.length := by
        have hslots := hat.slots
        exact hslots.none_from (by rw [hlen]; exact hnone)
      refine hat.iterated (fun _ => ?_) fun hc => by rw [hcont] at hc; cases hc
      rw [hgaps] at hI ⊢
      simpa using hI
    · rw [hs.segs_eq] at hI
      simpa using hI

end

end Xdp2
