import Xdp2.Pvbuf.Pop

/-!
# Well-formed trees

The array of a well-formed pvbuf is a sequence of entries: free slots, sub-pvbufs, and leaves, of
which a long address takes two slots. `Slots pv l`: the slots of `pv` are `l`, with the map's bits
at those in use; `Wf depth pv`: they are those of well-formed entries, down to `depth` levels,
cached lengths being zero or exact. The lemmas are about single slots: what the searches in the map
find (`Slots.first`, `Slots.last`), and what setting and clearing do.
-/

namespace Xdp2

open BitWord StateError

/-! ## Entries -/

/-- What stands in one or two slots. -/
inductive IovEntry where
  | gap
  | sub (data_length : BitVec 32) (pvbuf : Pvbuf)
  | seg (seg : Seg)

namespace IovEntry

/-- The slots of an entry. -/
def slots : IovEntry → List Iovec
  | gap => [.null]
  | sub data_length pv => [.pvbuf data_length pv]
  | seg (.pbuf a) => [.pbuf a]
  | seg (.short a) => [.short a]
  | seg (.long a b) => [.long a, .long2 b]

/-- The leaves of an entry. -/
def segs : IovEntry → List Seg
  | gap => []
  | sub _ pv => pv.segs
  | seg s => [s]

/-- The pvbuf objects of an entry. -/
def objs : IovEntry → List (Nat × Nat)
  | sub _ pv => pv.objs
  | _ => []

end IovEntry

/-- The slots of a list of entries. -/
def entrySlots (es : List IovEntry) : List Iovec := es.flatMap IovEntry.slots

/-- The leaves of a list of entries. -/
def entrySegs (es : List IovEntry) : List Seg := es.flatMap IovEntry.segs

/-- The pvbuf objects of a list of entries. -/
def entryObjs (es : List IovEntry) : List (Nat × Nat) := es.flatMap IovEntry.objs

/-- Free slots. -/
def gaps (n : Nat) : List IovEntry := List.replicate n .gap

section
variable (e : IovEntry) (es es' : List IovEntry) (n : Nat)

@[simp] theorem entrySlots_nil : entrySlots [] = [] := rfl
@[simp] theorem entrySegs_nil : entrySegs [] = [] := rfl
@[simp] theorem entryObjs_nil : entryObjs [] = [] := rfl

@[simp] theorem entrySlots_cons : entrySlots (e :: es) = e.slots ++ entrySlots es :=
  List.flatMap_cons

@[simp] theorem entrySegs_cons : entrySegs (e :: es) = e.segs ++ entrySegs es := List.flatMap_cons

@[simp] theorem entryObjs_cons : entryObjs (e :: es) = e.objs ++ entryObjs es := List.flatMap_cons

@[simp] theorem entrySlots_append : entrySlots (es ++ es') = entrySlots es ++ entrySlots es' :=
  List.flatMap_append

@[simp] theorem entrySegs_append : entrySegs (es ++ es') = entrySegs es ++ entrySegs es' :=
  List.flatMap_append

@[simp] theorem entryObjs_append : entryObjs (es ++ es') = entryObjs es ++ entryObjs es' :=
  List.flatMap_append

@[simp] theorem entrySlots_gaps : entrySlots (gaps n) = List.replicate n .null := by
  induction n with
  | zero => rfl
  | succ n ih => rw [gaps, List.replicate_succ, entrySlots_cons, ← gaps, ih]; rfl

@[simp] theorem entrySegs_gaps : entrySegs (gaps n) = [] := by
  induction n with
  | zero => rfl
  | succ n ih => rw [gaps, List.replicate_succ, entrySegs_cons, ← gaps, ih]; rfl

@[simp] theorem entryObjs_gaps : entryObjs (gaps n) = [] := by
  induction n with
  | zero => rfl
  | succ n ih => rw [gaps, List.replicate_succ, entryObjs_cons, ← gaps, ih]; rfl

@[simp] theorem entrySegs_map_seg (l : List Seg) : entrySegs (l.map .seg) = l := by
  induction l with
  | nil => rfl
  | cons s l ih => rw [List.map_cons, entrySegs_cons, ih]; rfl

@[simp] theorem entryObjs_map_seg (l : List Seg) : entryObjs (l.map .seg) = [] := by
  induction l with
  | nil => rfl
  | cons s l ih => rw [List.map_cons, entryObjs_cons, ih]; rfl

theorem gaps_succ : gaps (n + 1) = .gap :: gaps n := rfl

theorem gaps_succ' : gaps (n + 1) = gaps n ++ [.gap] := List.replicate_succ'

theorem slotSegs_entrySlots : slotSegs (entrySlots es) = entrySegs es := by
  induction es with
  | nil => rfl
  | cons e es ih =>
    rw [entrySlots_cons, entrySegs_cons, ← ih]
    match e with
    | .gap | .sub _ _ | .seg (.pbuf _) | .seg (.short _) | .seg (.long _ _) => rfl

theorem slotObjs_entrySlots : slotObjs (entrySlots es) = entryObjs es := by
  induction es with
  | nil => rfl
  | cons e es ih =>
    rw [entrySlots_cons, entryObjs_cons, ← ih]
    match e with
    | .gap | .sub _ _ | .seg (.pbuf _) | .seg (.short _) | .seg (.long _ _) => rfl

theorem IovEntry.slots_length_pos : 0 < e.slots.length := by
  match e with
  | .gap | .sub _ _ | .seg (.pbuf _) | .seg (.short _) | .seg (.long _ _) => simp [IovEntry.slots]

theorem IovEntry.isNull_eq_false {e : IovEntry} (h : e ≠ .gap) {x : Iovec} (hx : x ∈ e.slots) :
    x.isNull = false := by
  match e, h with
  | .sub _ _, _ | .seg (.pbuf _), _ | .seg (.short _), _ =>
    obtain rfl := List.mem_singleton.mp hx
    rfl
  | .seg (.long _ _), _ =>
    rcases List.mem_pair.mp hx with rfl | rfl <;> rfl

theorem IovEntry.exists_first {e : IovEntry} (h : e ≠ .gap) :
    ∃ x l, e.slots = x :: l ∧ x.isNull = false := by
  obtain ⟨x, l, hx⟩ := List.exists_cons_of_length_pos e.slots_length_pos
  exact ⟨x, l, hx, IovEntry.isNull_eq_false h (by rw [hx]; exact List.mem_cons_self)⟩

theorem IovEntry.exists_last {e : IovEntry} (h : e ≠ .gap) :
    ∃ l x, e.slots = l ++ [x] ∧ x.isNull = false := by
  rcases List.eq_nil_or_concat e.slots with hnil | ⟨l, x, hx⟩
  · have hpos := e.slots_length_pos
    rw [hnil] at hpos
    cases hpos
  · rw [List.concat_eq_append] at hx
    exact ⟨l, x, hx, IovEntry.isNull_eq_false h (by rw [hx]; simp)⟩

end

/-! ## Slots in use -/

/-- The slots in use. -/
def used (l : List Iovec) : List Iovec := l.filter fun x => !x.isNull

section
variable {l : List Iovec} {x : Iovec}

theorem used_append : used (l ++ l') = used l ++ used l' := List.filter_append ..

theorem used_cons (hx : x.isNull = false) : used (x :: l) = x :: used l :=
  List.filter_cons_of_pos (by rw [hx]; rfl)

theorem used_eq_nil (h : ∀ x ∈ l, x.isNull = true) : used l = [] :=
  List.filter_eq_nil_iff.mpr fun x hx => by rw [h x hx]; decide

@[simp] theorem used_replicate (n : Nat) : used (List.replicate n .null) = [] :=
  used_eq_nil fun x hx => by rw [List.eq_of_mem_replicate hx]; rfl

theorem eq_replicate_of_isNull (h : ∀ x ∈ l, x.isNull = true) :
    l = List.replicate l.length .null := by
  refine List.eq_replicate_iff.mpr ⟨rfl, fun x hx => ?_⟩
  have hnull := h x hx
  cases x <;> first | rfl | cases hnull

end

/-! ## Well-formedness -/

/-- The object of a pvbuf. -/
def PvbufOf.obj (pv : Pvbuf) : Nat × Nat := (pv.pvbuf_size.toNat, pv.index.toNat)

section
variable (pv : Pvbuf) (i : Nat) (x : Iovec)

@[simp] theorem PvbufOf.obj_set : (pv.set i x).obj = pv.obj := rfl
@[simp] theorem PvbufOf.obj_setBit : (pv.setBit i).obj = pv.obj := rfl
@[simp] theorem PvbufOf.obj_clear : (pv.clear i).obj = pv.obj := rfl

end

theorem PvbufOf.num_eq_of_obj {pv pv' : Pvbuf} (h : pv'.obj = pv.obj) : pv'.num = pv.num := by
  have hsize : pv'.pvbuf_size.toNat = pv.pvbuf_size.toNat := congrArg Prod.fst h
  rw [PvbufOf.num, PvbufOf.num, hsize]

/-- The slots of a pvbuf and its map. -/
structure Slots (pv : Pvbuf) (l : List Iovec) : Prop where
  iovec : pv.iovec = l
  length : l.length = pv.num
  map : ∀ i, pv.iovec_map.getLsbD i = !(l.getD i .null).isNull

/-- A leaf stays within its memory. -/
def Seg.Fits : Seg → Prop
  | pbuf a => a.offset.toNat % 2 ^ a.sizeShift + a.dataLen ≤ 2 ^ a.sizeShift
  | short a => a.offset.toNat + a.dataLen ≤ 2 ^ 44
  | long a b => a.offset b + a.data_length.toNat ≤ 2 ^ 64

/-- The number of bytes of a list of leaves. -/
def segsLen (segs : List Seg) : Nat := (segs.map Seg.len).sum

/-- An entry is well-formed, where `P` says so of sub-pvbufs. -/
def IovEntry.Ok (P : Pvbuf → Prop) : IovEntry → Prop
  | gap => True
  | sub data_length pv => P pv ∧ (data_length = 0 ∨ data_length.toNat = segsLen pv.segs)
  | seg s => s.Fits

/-- A well-formed pvbuf of at most `depth` levels. -/
def Wf : (depth : Nat) → Pvbuf → Prop
  | 0, _ => False
  | depth + 1, pv => ∃ es, Slots pv (entrySlots es) ∧ ∀ e ∈ es, e.Ok (Wf depth)

theorem IovEntry.Ok.mono (hP : ∀ pv, P pv → P' pv) {e : IovEntry} (h : e.Ok P) :
    e.Ok P' := by
  cases e with
  | gap => trivial
  | sub data_length pv => exact ⟨hP pv h.1, h.2⟩
  | seg s => exact h

theorem Wf.succ : ∀ {depth : Nat} {pv : Pvbuf}, Wf depth pv → Wf (depth + 1) pv
  | 0, _, h => h.elim
  | _ + 1, _, ⟨es, hs, hok⟩ => ⟨es, hs, fun e he => (hok e he).mono fun _ => Wf.succ⟩

theorem Wf.mono (hle : depth ≤ depth') (h : Wf depth pv) :
    Wf depth' pv := by
  induction hle with
  | refl => exact h
  | step _ ih => exact ih.succ

theorem forall_ok_gaps (n : Nat) : ∀ e ∈ gaps n, e.Ok P := by
  intro e he
  rw [List.eq_of_mem_replicate he]
  trivial

theorem forall_ok_map_seg {l : List Seg} (h : ∀ s ∈ l, s.Fits) :
    ∀ e ∈ l.map IovEntry.seg, e.Ok P := by
  intro e he
  obtain ⟨s, hs, rfl⟩ := List.mem_map.mp he
  exact h s hs

theorem segsLen_append (l l' : List Seg) : segsLen (l ++ l') = segsLen l + segsLen l' := by
  simp [segsLen]

section
variable {l : List Iovec}

theorem Slots.segs_eq (h : Slots pv (entrySlots es)) : pv.segs = entrySegs es := by
  obtain ⟨size, index, map, iovec⟩ := pv
  rw [PvbufOf.segs, ← slotSegs_entrySlots, ← h.iovec]

theorem Slots.objs_eq (h : Slots pv (entrySlots es)) :
    pv.objs = pv.obj :: entryObjs es := by
  obtain ⟨size, index, map, iovec⟩ := pv
  rw [PvbufOf.objs, PvbufOf.obj, ← slotObjs_entrySlots, ← h.iovec]

theorem PvbufOf.num_le (pv : Pvbuf) : pv.num ≤ 64 := Nat.min_le_right _ _

theorem PvbufOf.le_num (pv : Pvbuf) : 7 ≤ pv.num := by
  rw [PvbufOf.num, numIovecs]
  omega

theorem Slots.of_lt (hiovec : pv.iovec = l) (hlen : l.length = pv.num)
    (hmap : ∀ i < 64, pv.iovec_map.getLsbD i = !(l.getD i .null).isNull) : Slots pv l := by
  refine ⟨hiovec, hlen, fun i => ?_⟩
  by_cases hi : i < 64
  · exact hmap i hi
  · have hle : l.length ≤ i := by
      rw [hlen]
      exact pv.num_le.trans (Nat.le_of_not_lt hi)
    rw [BitVec.getLsbD_of_ge _ _ (Nat.le_of_not_lt hi), List.getD, List.getElem?_eq_none hle]
    rfl

theorem Slots.get_eq (h : Slots pv l) (i : Nat) : pv.get i = l.getD i .null := by
  rw [PvbufOf.get, h.iovec]

end

/-! ## Searches in the map -/

theorem getD_append_cons {α : Type} (l1 l2 : List α) (x d : α) (hi : l1.length = i) :
    (l1 ++ x :: l2).getD i d = x := by
  subst hi
  simp [List.getD]

theorem Slots.first_slot (h : Slots pv (l1 ++ l)) (hp : l1.length = p)
    (hq : FirstFrom pv.iovec_map p q) :
    ∃ x l', l = List.replicate (q - p) .null ++ x :: l' ∧ x.isNull = false := by
  obtain ⟨hpq, hset, hclear⟩ := hq
  induction hk : q - p generalizing p l1 l with
  | zero =>
    obtain rfl : p = q := by omega
    rw [h.map] at hset
    cases l with
    | nil => simp [List.getD, hp, Iovec.isNull] at hset
    | cons x l' =>
      rw [getD_append_cons _ _ _ _ hp] at hset
      exact ⟨x, l', rfl, by simpa using hset⟩
  | succ k ih =>
    cases l with
    | nil =>
      rw [h.map] at hset
      simp [List.getD, Iovec.isNull, show l1.length ≤ q by omega] at hset
    | cons x l' =>
      have hx := hclear p (Nat.le_refl p) (by omega)
      rw [h.map, getD_append_cons _ _ _ _ hp] at hx
      obtain rfl : x = .null := by cases x <;> first | rfl | cases hx
      rw [← List.singleton_append, ← List.append_assoc] at h
      obtain ⟨y, l'', rfl, hy⟩ := ih (p := p + 1) h (by simp [hp]) (by omega)
        (fun k hk hkq => hclear k (by omega) hkq) (by omega)
      exact ⟨y, l'', rfl, hy⟩

theorem Slots.last_slot (h : Slots pv (l ++ l2)) (hq : LastBelow pv.iovec_map l.length q) :
    ∃ l' x k, l = l' ++ x :: List.replicate k .null ∧ l'.length = q ∧ x.isNull = false := by
  obtain ⟨hlt, hset, hclear⟩ := hq
  induction l using List.reverseRecOn generalizing l2 with
  | nil => cases hlt
  | append_singleton l x ih =>
    rw [List.length_append, List.length_singleton] at hlt hclear
    rw [List.append_assoc, List.singleton_append] at h
    by_cases hql : q = l.length
    · subst hql
      rw [h.map, getD_append_cons _ _ _ _ rfl] at hset
      exact ⟨l, x, 0, rfl, rfl, by simpa using hset⟩
    · have hx := hclear l.length (by omega) (by omega)
      rw [h.map, getD_append_cons _ _ _ _ rfl] at hx
      obtain rfl : x = .null := by cases x <;> first | rfl | cases hx
      obtain ⟨l', y, k, rfl, hl', hy⟩ := ih h (by omega) fun k hk hkl => hclear k hk (by omega)
      exact ⟨l', y, k + 1, by rw [List.replicate_succ']; simp, hl', hy⟩

theorem entrySlots_eq_replicate_append {x : Iovec} (hx : x.isNull = false) :
    ∀ {k : Nat} {es : List IovEntry} {l : List Iovec},
      entrySlots es = List.replicate k .null ++ x :: l →
      ∃ e es', es = gaps k ++ e :: es' ∧ e ≠ .gap ∧ e.slots ++ entrySlots es' = x :: l := by
  intro k
  induction k with
  | zero =>
    intro es l h
    cases es with
    | nil => cases h
    | cons e es =>
      refine ⟨e, es, rfl, ?_, h⟩
      rintro rfl
      cases h
      cases hx
  | succ k ih =>
    intro es l h
    cases es with
    | nil => cases h
    | cons e es =>
      have he : e = .gap := by
        by_contra hne
        obtain ⟨y, l', hy, hnull⟩ := IovEntry.exists_first hne
        rw [entrySlots_cons, hy, List.replicate_succ, List.cons_append, List.cons_append] at h
        rw [(List.cons.inj h).1] at hnull
        cases hnull
      subst he
      obtain ⟨e, es', rfl, hne, heq⟩ := ih (List.cons.inj h).2
      exact ⟨e, es', rfl, hne, heq⟩

theorem entrySlots_eq_append_replicate {x : Iovec} (hx : x.isNull = false) :
    ∀ {k : Nat} {es : List IovEntry} {l : List Iovec},
      entrySlots es = l ++ x :: List.replicate k .null →
      ∃ es' e, es = es' ++ e :: gaps k ∧ e ≠ .gap ∧ entrySlots es' ++ e.slots = l ++ [x] := by
  intro k
  induction k with
  | zero =>
    intro es l h
    cases es using List.reverseRecOn with
    | nil => cases l <;> cases h
    | append_singleton es e =>
      rw [entrySlots_append, entrySlots_cons, entrySlots_nil, List.append_nil] at h
      refine ⟨es, e, rfl, ?_, h⟩
      rintro rfl
      have hlast := (List.append_inj' h rfl).2
      cases hlast
      cases hx
  | succ k ih =>
    intro es l h
    cases es using List.reverseRecOn with
    | nil => cases l <;> cases h
    | append_singleton es e =>
      rw [entrySlots_append, entrySlots_cons, entrySlots_nil, List.append_nil,
        List.replicate_succ', ← List.cons_append, ← List.append_assoc] at h
      have he : e = .gap := by
        by_contra hne
        obtain ⟨l', y, hy, hnull⟩ := IovEntry.exists_last hne
        rw [hy, ← List.append_assoc] at h
        rw [List.singleton_inj.mp (List.append_inj' h rfl).2] at hnull
        cases hnull
      subst he
      obtain ⟨es', e, rfl, hne, heq⟩ := ih (List.append_inj' h rfl).1
      exact ⟨es', e, by rw [gaps_succ']; simp, hne, heq⟩

theorem Slots.first (h : Slots pv (entrySlots (gaps p ++ es))) (hq : FirstFrom pv.iovec_map p q) :
    ∃ e es', gaps p ++ es = gaps q ++ e :: es' ∧ e ≠ .gap := by
  rw [entrySlots_append, entrySlots_gaps] at h
  obtain ⟨x, l, hl, hx⟩ := h.first_slot List.length_replicate hq
  obtain ⟨e, es', rfl, hne, -⟩ := entrySlots_eq_replicate_append hx hl
  refine ⟨e, es', ?_, hne⟩
  rw [← List.append_assoc, gaps, gaps, List.replicate_append_replicate, Nat.add_sub_cancel' hq.le]
  rfl

theorem Slots.entry_at (hs : Slots pv (entrySlots (done ++ todo)))
    (hp : (entrySlots done).length = p) (hq : FirstFrom pv.iovec_map p q) :
    ∃ e todo', todo = gaps (q - p) ++ e :: todo' ∧ e ≠ .gap ∧
      (entrySlots (done ++ gaps (q - p))).length = q ∧
      Slots pv (entrySlots (done ++ gaps (q - p)) ++ (e.slots ++ entrySlots todo')) := by
  have hs' := hs
  rw [entrySlots_append] at hs'
  obtain ⟨x, l, hl, hx⟩ := hs'.first_slot hp hq
  obtain ⟨e, todo', rfl, hne, -⟩ := entrySlots_eq_replicate_append hx hl
  refine ⟨e, todo', rfl, hne, ?_, by simpa using hs'⟩
  have hle := hq.le
  rw [entrySlots_append, List.length_append, hp, entrySlots_gaps, List.length_replicate]
  omega

/-- Below the end of some entries, the last bit set is that of the last slot of the last of them that
is not a gap. -/
theorem Slots.last (h : Slots pv (entrySlots (es ++ tail)))
    (hq : LastBelow pv.iovec_map (entrySlots es).length q) :
    ∃ es' e k, es = es' ++ e :: gaps k ∧ e ≠ .gap ∧
      q + 1 = (entrySlots es').length + e.slots.length := by
  rw [entrySlots_append] at h
  obtain ⟨l, x, k, hl, hlen, hx⟩ := h.last_slot hq
  obtain ⟨es', e, rfl, hne, heq⟩ := entrySlots_eq_append_replicate hx hl
  refine ⟨es', e, k, rfl, hne, ?_⟩
  have hlen' := congrArg List.length heq
  simp only [List.length_append, List.length_singleton] at hlen'
  omega

theorem eq_gaps_of_isNull (h : ∀ x ∈ entrySlots es, x.isNull = true) : es = gaps es.length := by
  refine List.eq_replicate_iff.mpr ⟨rfl, fun e he => ?_⟩
  by_contra hne
  obtain ⟨x, l, hx, hused⟩ := IovEntry.exists_first hne
  have hnull := h x (List.mem_flatMap.mpr ⟨e, he, by rw [hx]; exact List.mem_cons_self⟩)
  rw [hused] at hnull
  cases hnull

theorem Slots.null_from (h : Slots pv (l1 ++ l))
    (hnone : ∀ k, l1.length ≤ k → pv.iovec_map.getLsbD k = false) :
    ∀ x ∈ l, x.isNull = true := by
  intro x hx
  obtain ⟨a, b, rfl⟩ := List.append_of_mem hx
  have hbit := hnone (l1.length + a.length) (by omega)
  rw [h.map, ← List.append_assoc, getD_append_cons _ _ _ _ (by rw [List.length_append])] at hbit
  simpa using hbit

theorem Slots.null_below (h : Slots pv (l ++ l2))
    (hnone : ∀ k, k < l.length → pv.iovec_map.getLsbD k = false) :
    ∀ x ∈ l, x.isNull = true := by
  intro x hx
  obtain ⟨a, b, rfl⟩ := List.append_of_mem hx
  have hbit := hnone a.length (by rw [List.length_append, List.length_cons]; omega)
  rw [h.map, List.append_assoc, List.cons_append, getD_append_cons _ _ _ _ rfl] at hbit
  simpa using hbit

theorem Slots.none_from (h : Slots pv (entrySlots (pre ++ es)))
    (hnone : ∀ k, (entrySlots pre).length ≤ k → pv.iovec_map.getLsbD k = false) :
    es = gaps es.length := by
  rw [entrySlots_append] at h
  exact eq_gaps_of_isNull (h.null_from hnone)

theorem Slots.none_below (h : Slots pv (entrySlots (es ++ tail)))
    (hnone : ∀ k, k < (entrySlots es).length → pv.iovec_map.getLsbD k = false) :
    es = gaps es.length := by
  rw [entrySlots_append] at h
  exact eq_gaps_of_isNull (h.null_below hnone)

/-! ## Setting and clearing slots -/

section
variable {l : List Iovec} {x : Iovec}

theorem getD_replace {α : Type} (l1 l2 : List α) (x y d : α) (j : Nat) :
    (l1 ++ y :: l2).getD j d = if j = l1.length then y else (l1 ++ x :: l2).getD j d := by
  rcases Nat.lt_trichotomy j l1.length with hlt | rfl | hgt
  · simp [List.getD, List.getElem?_append_left hlt, Nat.ne_of_lt hlt]
  · simp [List.getD]
  · rw [if_neg (by omega)]
    simp only [List.getD, List.getElem?_append_right (Nat.le_of_lt hgt)]
    obtain ⟨k, hk⟩ : ∃ k, j - l1.length = k + 1 := ⟨j - l1.length - 1, by omega⟩
    rw [hk, List.getElem?_cons_succ, List.getElem?_cons_succ]

theorem Slots.lt (h : Slots pv (l1 ++ x :: l2)) (hi : l1.length = i) : i < 64 := by
  have hlen := h.length
  have hle := pv.num_le
  rw [List.length_append, List.length_cons] at hlen
  omega

theorem Slots.set_iovec (h : Slots pv (l1 ++ x :: l2)) (hi : l1.length = i) (y : Iovec) :
    (pv.set i y).iovec = l1 ++ y :: l2 := by
  subst hi
  rw [PvbufOf.set, h.iovec]
  simp

theorem Slots.set_length (h : Slots pv (l1 ++ x :: l2)) (y : Iovec) :
    (l1 ++ y :: l2).length = pv.num := by
  rw [← h.length]
  simp

theorem Slots.set (h : Slots pv (l1 ++ x :: l2)) (hi : l1.length = i)
    (hxy : x.isNull = y.isNull) : Slots (pv.set i y) (l1 ++ y :: l2) := by
  refine ⟨h.set_iovec hi y, h.set_length y, fun j => ?_⟩
  rw [getD_replace l1 l2 x y, PvbufOf.set, h.map]
  split
  · rename_i hj
    rw [getD_append_cons _ _ _ _ hj.symm, hxy]
  · rfl

theorem Slots.clear (h : Slots pv (l1 ++ x :: l2)) (hi : l1.length = i) :
    Slots (pv.clear i) (l1 ++ .null :: l2) := by
  refine ⟨h.set_iovec hi .null, h.set_length .null, fun j => ?_⟩
  have hlt := h.lt hi
  rw [getD_replace l1 l2 x .null, PvbufOf.clear, BitVec.getLsbD_and, BitVec.getLsbD_not,
    getLsbD_bit, h.map]
  split
  · rename_i hj
    simp [hj, hi, hlt, Iovec.isNull]
  · rename_i hj
    by_cases h64 : j < 64
    · simp [h64, show j ≠ i by omega]
    · have hbit := h.map j
      rw [BitVec.getLsbD_of_ge _ _ (by omega)] at hbit
      rw [← hbit, Bool.false_and]

theorem Slots.put (h : Slots pv (l1 ++ x :: l2)) (hi : l1.length = i) (hy : y.isNull = false) :
    Slots ((pv.set i y).setBit i) (l1 ++ y :: l2) := by
  refine ⟨h.set_iovec hi y, h.set_length y, fun j => ?_⟩
  have hlt := h.lt hi
  rw [getD_replace l1 l2 x y, PvbufOf.setBit, BitVec.getLsbD_or, getLsbD_bit, PvbufOf.set, h.map]
  split
  · rename_i hj
    simp [hj, hi, hlt, hy]
  · simp [show j ≠ i by omega]

theorem Slots.get_at (h : Slots pv (l1 ++ x :: l2)) (hi : l1.length = i) : pv.get i = x := by
  rw [h.get_eq, getD_append_cons _ _ _ _ hi]

theorem Slots.get_end (h : Slots pv (l1 ++ [x])) (hi : l1.length = i) : pv.get i = x :=
  h.get_at hi

theorem Slots.get_succ (h : Slots pv (l1 ++ x :: y :: l2)) (hi : l1.length = i) :
    pv.get (i + 1) = y := by
  have hsplit : l1 ++ x :: y :: l2 = (l1 ++ [x]) ++ y :: l2 := by simp
  rw [hsplit] at h
  exact h.get_at (by simp [hi])

theorem Slots.weight_eq (h : Slots pv l) : weight pv.iovec_map = (used l).length := by
  rw [used, ← List.countP_eq_length_filter]
  have hlen : l.length ≤ 64 := by rw [h.length]; exact pv.num_le
  have hsplit : List.range 64 = List.range l.length ++ List.range' l.length (64 - l.length) := by
    have happend := List.range'_append_1 (s := 0) (m := l.length) (n := 64 - l.length)
    rw [Nat.zero_add, Nat.add_sub_cancel' hlen] at happend
    rw [List.range_eq_range', List.range_eq_range', happend]
  have hleft : (List.range l.length).map (fun i => l.getD i .null) = l := by
    refine List.ext_getElem (by simp) fun k h1 h2 => ?_
    simp [List.getD, List.getElem?_eq_getElem h2]
  have hright : (List.range' l.length (64 - l.length)).countP
      (fun i => !(l.getD i .null).isNull) = 0 := by
    refine List.countP_eq_zero.mpr fun k hk => ?_
    have hge := (List.mem_range'_1.mp hk).1
    simp [List.getD, List.getElem?_eq_none hge, Iovec.isNull]
  calc weight pv.iovec_map
      = (List.range l.length).countP (fun i => !(l.getD i .null).isNull) := by
        rw [weight, funext h.map, hsplit, List.countP_append, hright, Nat.add_zero]
    _ = ((List.range l.length).map fun i => l.getD i .null).countP (fun x => !x.isNull) := by
        rw [List.countP_map]
        rfl
    _ = l.countP fun x => !x.isNull := by rw [hleft]

end

end Xdp2
