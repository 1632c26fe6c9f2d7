import Xdp2.Pvbuf.Iterate

/-!
# Walking over the data of a packet

`__xdp2_pvbuf_iterate` calls a function on the data of each leaf until it is done: a walk over the
list of leaves (`pvbufIterate_walk`). The functions used with it work on a range, an offset and a
length, where length zero stands for all that follows. `Range` is what is left of it, and
`Range.cut` the part of it in a leaf.
-/

namespace Xdp2

open StateError BitWord

/-! ## The iteration -/

section
variable {σ : Type}

/-- The end of a turn at slot `i`: `if (!cont) break`. -/
def leafTurn (i : Nat) (t : σ × Bool) : Turn (σ × Bool) := if t.2 then .next i t else .done t

/-- The body of the loop of `__xdp2_pvbuf_iterate`, with `iterate` for the recursive call. The data that
`func` is called on is given by the leaf it belongs to. -/
def pvbufIterateBody (func : σ → Seg → PvM (σ × Bool)) (iterate : Pvbuf → σ → PvM (σ × Bool))
    (pv : Pvbuf) (i : Nat) (t : σ × Bool) : PvM (Turn (σ × Bool)) :=
  match pv.get i with
  | .pvbuf _ sub => do
    let r ← iterate sub t.1
    return leafTurn i r
  | .pbuf _ | .short _ => do
    let seg ← getPtrLen pv i
    let r ← func t.1 seg
    return leafTurn i r
  | _ => do
    let seg ← getPtrLen pv i
    let r ← func t.1 seg
    let set ← iovecMapIsset pv (i + 1)
    assert set "Expected map bit of second word of long addr set in pvbuf iterate"
    return leafTurn (i + 1) r

/-- `__xdp2_pvbuf_iterate`. -/
def pvbufIterate (c : MgrConfig) (func : σ → Seg → PvM (σ × Bool)) :
    (depth : Nat) → Pvbuf → σ → PvM (σ × Bool)
  | 0, _, _ => throw .fuel
  | depth + 1, pv, priv => do
    paddrToAddr c pv
    forBits .fuel (fun _ => pv.iovec_map) (pvbufIterateBody func (pvbufIterate c func depth) pv) 0
      (priv, true)

/-! ## The walk over the leaves -/

/-- `func` on one leaf after the other, until it says that it is done. -/
def walkLeaves (func : σ → Seg → PvM (σ × Bool)) : List Seg → σ → PvM (σ × Bool)
  | [], priv => return (priv, true)
  | seg :: segs, priv => do
    let r ← func priv seg
    if r.2 then walkLeaves func segs r.1 else return r

theorem walkLeaves_append (segs segs' : List Seg) (priv : σ) :
    walkLeaves func (segs ++ segs') priv = (do
      let r ← walkLeaves func segs priv
      if r.2 then walkLeaves func segs' r.1 else return r) := by
  induction segs generalizing priv with
  | nil => simp [walkLeaves]
  | cons seg segs ih =>
    simp only [List.cons_append, walkLeaves, bind_assoc]
    congr 1
    funext r
    split
    · exact ih r.1
    · rename_i hstop
      simp [hstop]

theorem walkLeaves_single (seg : Seg) (priv : σ) (h : (func priv seg).run st = .ok r st') :
    (walkLeaves func [seg] priv).run st = .ok r st' := by
  obtain ⟨priv', cont⟩ := r
  rw [walkLeaves, run_bind_ok h]
  cases cont <;> rfl

theorem pvbufIterateBody_walk {l2 : List Iovec} {e : IovEntry} {i : Nat} {priv : σ} {st : PvSt}
    (hs : Slots pv (l1 ++ (e.slots ++ l2))) (hi : l1.length = i) (hne : e ≠ .gap)
    (hfunc : ∀ priv seg st, Returns (func priv seg) st fun _ _ => True)
    (hsub : ∀ data_length sub, e = .sub data_length sub → Returns (iterate sub priv) st fun r st' => (walkLeaves func sub.segs priv).run st = .ok r st')
    :
    Returns (pvbufIterateBody func iterate pv i (priv, true)) st fun turn st' => ∃ r,
      turn = leafTurn (i + e.slots.length - 1) r ∧ (walkLeaves func e.segs priv).run st = .ok r st' := by
  rw [pvbufIterateBody]
  match e, hne with
  | .sub data_length sub, _ =>
    rw [hs.get_at (x := .pvbuf data_length sub) hi]
    exact (hsub data_length sub rfl).bind fun r st' hr => .pure ⟨r, rfl, hr⟩
  | .seg seg, _ =>
    obtain ⟨r, st', hrun, -⟩ := hfunc priv seg st
    cases seg with
    | pbuf a =>
      have hget := hs.get_at (x := .pbuf a) hi
      have hptr : (getPtrLen pv i).run st = .ok (.pbuf a) st := by rw [getPtrLen, hget]; rfl
      rw [hget]
      exact .step hptr (.step hrun (.pure ⟨r, rfl, walkLeaves_single _ _ hrun⟩))
    | short a =>
      have hget := hs.get_at (x := .short a) hi
      have hptr : (getPtrLen pv i).run st = .ok (.short a) st := by rw [getPtrLen, hget]; rfl
      rw [hget]
      exact .step hptr (.step hrun (.pure ⟨r, rfl, walkLeaves_single _ _ hrun⟩))
    | long a b =>
      have hget := hs.get_at (x := .long a) hi
      have hnext := hs.get_succ (x := .long a) (y := .long2 b) hi
      have hptr : (getPtrLen pv i).run st = .ok (.long a b) st := by rw [getPtrLen, hget, hnext]; rfl
      have hslots : Slots pv ((l1 ++ [.long a]) ++ .long2 b :: l2) := by
        rw [List.append_assoc]
        exact hs
      rw [hget]
      refine .step hptr (.step hrun (.step (iovecMapIsset_run hslots (by simp [hi]) st')
        (.step (assert_run rfl _ st') (.pure ⟨r, rfl, walkLeaves_single _ _ hrun⟩))))

/-- **The iteration is a walk over the leaves**, whatever the tree. -/
theorem pvbufIterate_walk (hfunc : ∀ priv seg st, Returns (func priv seg) st fun _ _ => True) {n : Nat}
    (hn : depth ≤ n) (hwf : Wf depth pv) (hobjs : ∀ o ∈ pv.objs, o.2 < c.pvbuf_max_objs o.1) (priv : σ)
    (st : PvSt) :
    Returns (pvbufIterate c func n pv priv) st fun r st' =>
      (walkLeaves func pv.segs priv).run st = .ok r st' := by
  induction n generalizing depth pv priv st with
  | zero =>
    obtain rfl := Nat.le_zero.mp hn
    exact hwf.elim
  | succ n ih =>
    obtain _ | depth := depth
    · exact hwf.elim
    have hindex := hobjs _ hwf.obj_mem_objs
    obtain ⟨es, hs, hok⟩ := hwf
    rw [pvbufIterate]
    refine .step (assert_run (decide_eq_true hindex) _ st) ?_
    refine forBits_rule (I := fun p t st' => t.2 = true ∧ ∃ done todo, es = done ++ todo ∧
      (entrySlots done).length = p ∧ (walkLeaves func (entrySegs done) priv).run st = .ok t st') ?_ ?_
      (by decide) ⟨rfl, [], es, rfl, rfl, rfl⟩
    · rintro p q ⟨priv', cont⟩ st' ⟨rfl, done, todo, hes, hlen, hwalk⟩ hq
      rw [hes] at hs
      obtain ⟨e, todo', rfl, hne, hpos, hat⟩ := hs.entry_at hlen hq
      have hmem : e ∈ es := by rw [hes]; simp
      have hslots := e.slots_length_pos
      refine (pvbufIterateBody_walk hat hpos hne hfunc fun dl sub hsub => ?_).mono ?_
      · subst hsub
        refine ih (Nat.le_of_succ_le_succ hn) (hok _ hmem).1 (fun o ho => hobjs o ?_) priv' st'
        rw [hs.objs_eq]
        simp [IovEntry.objs, ho]
      · rintro turn st'' ⟨r, rfl, hr⟩
        have hdone : (walkLeaves func (entrySegs (done ++ gaps (q - p) ++ [e])) priv).run st =
            .ok r st'' := by
          simp only [entrySegs_append, entrySegs_gaps, entrySegs_cons, entrySegs_nil, List.append_nil]
          rw [walkLeaves_append, run_bind_ok hwalk]
          exact hr
        obtain ⟨priv'', cont⟩ := r
        cases cont with
        | true =>
          refine ⟨by omega, rfl, done ++ gaps (q - p) ++ [e], todo', by rw [hes]; simp, ?_, hdone⟩
          rw [entrySlots_append, List.length_append, hpos]
          simp
          omega
        | false =>
          -- the rest of the leaves is left out
          show (walkLeaves func pv.segs priv).run st = _
          have hall : es = (done ++ gaps (q - p) ++ [e]) ++ todo' := by rw [hes]; simp
          rw [hs.segs_eq, ← hes, hall, entrySegs_append, walkLeaves_append, run_bind_ok hdone]
          rfl
    · rintro p ⟨priv', cont⟩ st' ⟨rfl, done, todo, hes, hlen, hwalk⟩ hnone
      rw [hes] at hs
      have hgaps := hs.none_from (by rw [hlen]; exact hnone)
      rw [hs.segs_eq, hgaps, entrySegs_append, entrySegs_gaps, List.append_nil]
      exact hwalk

end

/-! ## Where the data is -/

/-- One of the memories that paddrs point into. -/
inductive Region where
  | pbuf (btag : Nat)
  | short (tag : ShortTag)
  | long (memory_region : Nat)
  deriving DecidableEq, Repr

/-- The bytes of a region. -/
def Mem.read (mem : Mem) : Region → Nat → UInt8
  | .pbuf btag => mem.pbuf btag
  | .short tag => mem.short tag
  | .long memory_region => mem.long memory_region

/-- The region of a leaf. -/
def Seg.place : Seg → Region
  | pbuf a => .pbuf a.btag
  | short a => .short a.short_paddr_tag
  | long a _ => .long a.memory_region.toNat

theorem Seg.region_eq (mem : Mem) (s : Seg) : s.region mem = mem.read s.place := by
  cases s <;> rfl

/-- The byte at `o` of a region belongs to a leaf. -/
def Seg.Has (s : Seg) (p : Region) (o : Nat) : Prop :=
  s.place = p ∧ s.offset ≤ o ∧ o < s.offset + s.len

theorem Seg.bytes_congr {s : Seg} (h : ∀ p o, s.Has p o → mem'.read p o = mem.read p o) : s.bytes mem' = s.bytes mem := by
  rw [Seg.bytes, Seg.bytes, Seg.region_eq, Seg.region_eq]
  refine List.map_congr_left fun o ho => h _ o ⟨rfl, ?_⟩
  simpa [List.mem_range'_1] using ho

/-- No two leaves have a byte of memory in common. -/
def Unshared (segs : List Seg) : Prop :=
  segs.Pairwise fun s t => ∀ p o, s.Has p o → ¬ t.Has p o

/-! ## Ranges -/

/-- What is left of a range of a packet: the bytes still to be skipped, and the number of those that
follow, zero for all of them. -/
structure Range where
  len : Nat
  offset : Nat

namespace Range

/-- The bytes of a range. -/
def bytes {α : Type} (r : Range) (B : List α) : List α :=
  if r.len = 0 then B.drop r.offset else (B.drop r.offset).take r.len

/-- Where the range begins in a leaf of `size` bytes, and how many of them it has; nothing if the leaf is
to be skipped. -/
def cut (r : Range) (size : Nat) : Option (Nat × Nat) :=
  if r.offset ≠ 0 ∧ size ≤ r.offset then none
  else some (r.offset, if r.len ≠ 0 then min r.len (size - r.offset) else size - r.offset)

/-- A leaf is skipped. -/
def skip (r : Range) (size : Nat) : Range := { r with offset := r.offset - size }

/-- `len` bytes are counted down, and whether the range goes on. -/
def count (r : Range) (len : Nat) : Range × Bool :=
  if r.len ≠ 0 then (⟨r.len - len, 0⟩, decide (r.len - len ≠ 0)) else (⟨0, 0⟩, true)

variable {α : Type} {r : Range} {b B : List α}

theorem count_of_len (hlen : r.len ≠ 0) : r.count n = (⟨r.len - n, 0⟩, decide (r.len - n ≠ 0)) :=
  if_pos hlen

theorem cut_none_iff : r.cut size = none ↔ r.offset ≠ 0 ∧ size ≤ r.offset := by
  rw [cut]
  split
  · rename_i h
    exact ⟨fun _ => h, fun _ => rfl⟩
  · rename_i h
    exact ⟨(fun hn => by cases hn), fun hn => absurd hn h⟩

theorem cut_some (h : r.cut size = some (start, n)) :
    start = r.offset ∧ start ≤ size ∧ (r.len = 0 → n = size - start) ∧
      (r.len ≠ 0 → n = min r.len (size - start)) := by
  rw [cut] at h
  split at h
  · cases h
  · rename_i hskip
    obtain ⟨rfl, rfl⟩ := Prod.mk.inj (Option.some.inj h)
    refine ⟨rfl, by omega, fun hlen => ?_, fun hlen => ?_⟩
    · rw [if_neg (not_not.mpr hlen)]
    · rw [if_pos hlen]

theorem bytes_skip (h : b.length ≤ r.offset) : r.bytes (b ++ B) = (r.skip b.length).bytes B := by
  have hdrop : (b ++ B).drop r.offset = B.drop (r.offset - b.length) := by
    rw [List.drop_append, List.drop_eq_nil_of_le h, List.nil_append]
  rw [bytes, bytes, skip, hdrop]

/-- A range that begins in a leaf: what it has of the leaf, and of those that follow if it goes on. -/
theorem bytes_cut (h : r.cut b.length = some (start, n)) :
    r.bytes (b ++ B) =
      (b.drop start).take n ++ if (r.count n).2 then (r.count n).1.bytes B else [] := by
  obtain ⟨rfl, hle, hzero, hpos⟩ := cut_some h
  have hdrop : (b ++ B).drop r.offset = b.drop r.offset ++ B := List.drop_append_of_le_length hle
  by_cases hlen : r.len = 0
  · have hall : (b.drop r.offset).take n = b.drop r.offset := by
      rw [hzero hlen, ← List.length_drop, List.take_length]
    simp [bytes, count, hlen, hdrop, hall]
  · have hn := hpos hlen
    rw [bytes, if_neg hlen, hdrop, List.take_append, List.length_drop, count_of_len hlen]
    dsimp only
    by_cases hstop : r.len - n = 0
    · have hnone : r.len - (b.length - r.offset) = 0 := by omega
      have hr : r.len = n := by omega
      rw [hnone, hstop, hr]
      rfl
    · obtain rfl : n = b.length - r.offset := by omega
      have hall : (b.drop r.offset).take r.len = (b.drop r.offset).take (b.length - r.offset) := by
        rw [List.take_of_length_le (by rw [List.length_drop]; omega),
          List.take_of_length_le (by rw [List.length_drop])]
      rw [hall, decide_eq_true hstop, if_pos rfl, bytes, if_neg hstop]
      rfl

theorem cut_le (h : r.cut size = some (start, n)) : start + n ≤ size := by
  obtain ⟨-, hle, hzero, hpos⟩ := cut_some h
  by_cases hlen : r.len = 0
  · have := hzero hlen
    omega
  · have := hpos hlen
    omega

/-- The number of bytes of a range that a packet of `total` bytes has. -/
def size (r : Range) (total : Nat) : Nat :=
  if r.len = 0 then total - r.offset else min r.len (total - r.offset)

@[simp] theorem length_bytes (B : List α) : (r.bytes B).length = r.size B.length := by
  rw [bytes, size]
  split <;> simp

theorem size_skip {size : Nat} (h : size ≤ r.offset) :
    (r.skip size).size total = r.size (size + total) := by
  have hsub : size + total - r.offset = total - (r.offset - size) := by omega
  rw [Range.size, Range.size, skip, hsub]

theorem len_count {size : Nat} (hlen : r.len ≠ 0) (h : r.cut size = some (start, n)) :
    (r.count n).1.len - (if (r.count n).2 then (r.count n).1.size total else 0) =
      r.len - r.size (size + total) := by
  obtain ⟨rfl, hle, -, hpos⟩ := cut_some h
  have hn := hpos hlen
  rw [count_of_len hlen, Range.size, Range.size, if_neg hlen]
  dsimp only
  by_cases hstop : r.len - n = 0
  · simp only [hstop]
    omega
  · rw [decide_eq_true hstop, if_pos rfl, if_neg hstop]
    omega

theorem count_len (hlen : r.len ≠ 0) (hcont : (r.count n).2 = true) : (r.count n).1.len ≠ 0 := by
  rw [count_of_len hlen] at hcont ⊢
  exact of_decide_eq_true hcont

end Range

end Xdp2
