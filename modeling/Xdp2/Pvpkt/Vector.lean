import Xdp2.Pvbuf.CloneLeaf
import Xdp2.Pvpkt.Segment

/-!
# Packet vectors

What `__xdp2_pvpkt_iterate` sees of a packet vector (`Vec.iterate`): the packets one after the other, from
one pvbuf of the chain to the next. The second word of a long address is not passed over, so that a packet
that is one is seen twice.
-/

namespace Xdp2

open BitWord StateError

/-! ## The packets of one pvbuf -/

/-- What the iterator sees of an entry. -/
def IovEntry.noted : IovEntry → List (Option (List Seg))
  | gap => []
  | sub _ pv => [some pv.segs]
  | seg (.pbuf a) => [some [.pbuf a]]
  | seg (.short a) => [some [.short a]]
  | seg (.long a b) => [some [.long a b], none]

/-- What the iterator sees of a packet vector. -/
def notes (packets : List IovEntry) : List (Option (List Seg)) := packets.flatMap IovEntry.noted

@[simp] theorem notes_nil : notes [] = [] := rfl

@[simp] theorem notes_cons (e : IovEntry) (es : List IovEntry) : notes (e :: es) = e.noted ++ notes es :=
  List.flatMap_cons

@[simp] theorem notes_append (es es' : List IovEntry) : notes (es ++ es') = notes es ++ notes es' :=
  List.flatMap_append

@[simp] theorem notes_gaps (n : Nat) : notes (gaps n) = [] := by
  induction n with
  | zero => rfl
  | succ n ih => rw [gaps_succ, notes_cons, ih]; rfl

/-- What the last slot of a pvbuf of the chain leads to. -/
def IovEntry.next : IovEntry → Option Pvbuf
  | sub _ pv => some pv
  | gap => none
  | seg _ => none

/-- Where the iterator is: before an entry, or between the words of a long address. -/
inductive NoteAt (body : List IovEntry) (l : List (Option (List Seg))) :
    Nat → List (Option (List Seg)) × Option Pvbuf → Prop
  | entry (done todo : List IovEntry) (heq : body = done ++ todo) :
    NoteAt body l (entrySlots done).length (l ++ notes done, none)
  | word (done todo : List IovEntry) (a : LongAddr) (b : LongAddr2)
      (heq : body = done ++ .seg (.long a b) :: todo) :
    NoteAt body l ((entrySlots done).length + 1) (l ++ notes done ++ [some [.long a b]], none)

theorem NoteAt.start (body : List IovEntry) (l : List (Option (List Seg))) : NoteAt body l 0 (l, none) := by
  have h : NoteAt body l _ _ := .entry [] body rfl
  rwa [notes_nil, List.append_nil] at h

theorem pvpktIterateBody_note (hi : i < pv.num - 1) (st : PvSt) :
    (pvpktIterateBody c notePacket pv i (l, next)).run st =
      .ok (.next i (l ++ [packetSegs (pv.get i) (pv.get (i + 1))], none)) st := by
  rw [pvpktIterateBody, if_neg (by omega)]
  rfl

theorem NoteAt.next (heq : body = done ++ e :: todo) (he : e ≠ .gap)
    (hs : Slots pv (entrySlots done ++ (e.slots ++ l2))) :
    NoteAt body l ((entrySlots done).length + 1)
      (l ++ notes done ++ [packetSegs (pv.get (entrySlots done).length)
        (pv.get ((entrySlots done).length + 1))], none) := by
  have hone : ∀ {o : Option (List Seg)}, e.slots.length = 1 → e.noted = [o] →
      NoteAt body l ((entrySlots done).length + 1) (l ++ notes done ++ [o], none) := by
    intro o hlen hnoted
    have h := NoteAt.entry (l := l) (done ++ [e]) todo (by simpa using heq)
    simpa [hlen, hnoted] using h
  match e, he with
  | .sub dl sub, _ =>
    rw [hs.get_at (x := .pvbuf dl sub) rfl]
    exact hone rfl rfl
  | .seg (.pbuf a), _ =>
    rw [hs.get_at (x := .pbuf a) rfl]
    exact hone rfl rfl
  | .seg (.short a), _ =>
    rw [hs.get_at (x := .short a) rfl]
    exact hone rfl rfl
  | .seg (.long a b), _ =>
    rw [hs.get_at (x := .long a) rfl, hs.get_succ (x := .long a) (y := .long2 b) rfl]
    exact .word done todo a b heq

theorem Slots.get_word (hs : Slots pv (entrySlots (done ++ .seg (.long a b) :: todo))) :
    pv.get ((entrySlots done).length + 1) = .long2 b ∧
      pv.iovec_map.getLsbD ((entrySlots done).length + 1) = true := by
  have hs' : Slots pv (entrySlots done ++ .long a :: .long2 b :: entrySlots todo) := by
    simpa [IovEntry.slots] using hs
  have hget := hs'.get_succ rfl
  refine ⟨hget, ?_⟩
  rw [hs.map, ← hs.get_eq, hget]
  rfl

theorem NoteAt.step (hs : Slots pv (entrySlots (body ++ [x])))
    (hx : x = .gap ∨ ∃ dl sub, x = .sub dl sub ∧ sub.index.toNat < c.pvbuf_max_objs sub.pvbuf_size.toNat)
    (h : NoteAt body l p t) (hq : FirstFrom pv.iovec_map p q) :
    Returns (pvpktIterateBody c notePacket pv q t) st
      (TurnSat (fun pos t' st' => q ≤ pos ∧ st' = st ∧ NoteAt body l (pos + 1) t')
        fun t' st' => st' = st ∧ t' = (l ++ notes body, x.next)) := by
  have hlen := hs.length
  have hone : x.slots.length = 1 := by rcases hx with rfl | ⟨dl, sub, rfl, -⟩ <;> rfl
  cases h with
  | entry done todo heq =>
    subst heq
    rw [List.append_assoc] at hs hlen
    obtain ⟨e, todo', htodo, hne, hpos, hs'⟩ := hs.entry_at rfl hq
    generalize q - (entrySlots done).length = k at htodo hpos hs'
    subst hpos
    rw [htodo, ← List.append_assoc, entrySlots_append, List.length_append, entrySlots_cons,
      List.length_append] at hlen
    have hnotes : l ++ notes done = l ++ notes (done ++ gaps k) := by simp
    rcases List.eq_nil_or_concat todo' with rfl | ⟨todo', y, rfl⟩
    · -- the last slot
      obtain ⟨rfl, hex⟩ := List.append_inj' htodo rfl
      obtain rfl : x = e := List.head_eq_of_cons_eq hex
      obtain ⟨dl, sub, rfl, hindex⟩ := hx.resolve_left hne
      have hlast : (entrySlots (done ++ gaps k)).length = pv.num - 1 := by
        rw [hone, entrySlots_nil, List.length_nil] at hlen
        omega
      rw [pvpktIterateBody, if_pos hlast, hs'.get_at (x := .pvbuf dl sub) rfl]
      refine .step (assert_run (decide_eq_true hindex) _ st) (.pure ⟨rfl, ?_⟩)
      rw [hnotes]
      rfl
    · rw [List.concat_eq_append, ← List.cons_append, ← List.append_assoc] at htodo
      obtain ⟨rfl, hxy⟩ := List.append_inj' htodo rfl
      obtain rfl : x = y := List.head_eq_of_cons_eq hxy
      have hlt : (entrySlots (done ++ gaps k)).length < pv.num - 1 := by
        obtain ⟨z, l', hz, -⟩ := IovEntry.exists_first hne
        have hx' : (entrySlots [x]).length = 1 := by rw [entrySlots_cons, entrySlots_nil, List.append_nil, hone]
        rw [hz, List.concat_eq_append, entrySlots_append todo', List.length_append, hx',
          List.length_cons] at hlen
        omega
      refine ⟨_, _, pvpktIterateBody_note hlt st, Nat.le_refl _, rfl, ?_⟩
      rw [hnotes]
      exact .next (by rw [List.append_assoc]) hne hs'
  | word done todo a b heq =>
    subst heq
    rw [List.append_assoc, List.cons_append] at hs hlen
    obtain ⟨hget, hset⟩ := hs.get_word
    obtain rfl : (entrySlots done).length + 1 = q := by
      refine Nat.le_antisymm hq.le (Nat.le_of_not_lt fun hlt => ?_)
      rw [hq.clear _ (Nat.le_refl _) hlt] at hset
      cases hset
    have hlt : (entrySlots done).length + 1 < pv.num - 1 := by
      simp only [entrySlots_append, entrySlots_cons, entrySlots_nil, List.append_nil, List.length_append,
        hone] at hlen
      have htwo : (IovEntry.seg (.long a b)).slots.length = 2 := rfl
      omega
    refine ⟨_, _, pvpktIterateBody_note hlt st, Nat.le_refl _, rfl, ?_⟩
    rw [hget]
    have h : NoteAt (done ++ .seg (.long a b) :: todo) l _ _ :=
      .entry (done ++ [.seg (.long a b)]) todo (by simp)
    simpa [IovEntry.slots, IovEntry.noted, packetSegs] using h

theorem pvpktIterateBody_loop (hs : Slots pv (entrySlots (body ++ [x])))
    (hx : x = .gap ∨ ∃ dl sub, x = .sub dl sub ∧ sub.index.toNat < c.pvbuf_max_objs sub.pvbuf_size.toNat)
    (l : List (Option (List Seg))) :
    (forBits .fuel (fun _ => pv.iovec_map) (pvpktIterateBody c notePacket pv) 0 (l, none)).run st =
      .ok (l ++ notes body, x.next) st := by
  have hloop : Returns (forBits .fuel (fun _ => pv.iovec_map) (pvpktIterateBody c notePacket pv) 0
      (l, none)) st fun t st' => st' = st ∧ t = (l ++ notes body, x.next) := by
    refine forBits_rule (I := fun p t st' => st' = st ∧ NoteAt body l p t) ?_ ?_ (by decide)
      ⟨rfl, .start body l⟩
    · rintro p q t st' ⟨rfl, hat⟩ hq
      exact hat.step hs hx hq
    · rintro p t st' ⟨rfl, hat⟩ hnone
      refine ⟨rfl, ?_⟩
      cases hat with
      | entry done todo heq =>
        subst heq
        rw [List.append_assoc] at hs
        have hgaps := hs.none_from hnone
        rw [List.length_append, List.length_singleton, gaps_succ'] at hgaps
        obtain ⟨htodo, hgap⟩ := List.append_inj' hgaps rfl
        obtain rfl : x = .gap := List.head_eq_of_cons_eq hgap
        rw [htodo, notes_append, notes_gaps, List.append_nil]
        rfl
      | word done todo a b heq =>
        subst heq
        rw [List.append_assoc, List.cons_append] at hs
        have hset := hs.get_word.2
        rw [hnone _ (Nat.le_refl _)] at hset
        cases hset
  obtain ⟨t, st', hrun, rfl, rfl⟩ := hloop
  exact hrun

/-! ## The chain -/

/-- A packet vector: the last slot of each pvbuf leads to the next one, that of the last is free. -/
inductive Vec : Pvbuf → List IovEntry → Prop
  | last {pv : Pvbuf} {body : List IovEntry} (hs : Slots pv (entrySlots (body ++ [.gap]))) : Vec pv body
  | cons {pv sub : Pvbuf} {data_length : BitVec 32} {body packets : List IovEntry}
      (hs : Slots pv (entrySlots (body ++ [.sub data_length sub]))) (hsub : Vec sub packets) :
      Vec pv (body ++ packets)

/-- **The iterator sees the packets of a packet vector in order.** -/
theorem Vec.iterate (h : Vec pv packets) (hobjs : ∀ o ∈ pv.objs, o.2 < c.pvbuf_max_objs o.1)
    (hn : pv.levels ≤ n) (st : PvSt) :
    (pvpktIterate c notePacket n pv l).run st = .ok (l ++ notes packets) st := by
  induction h generalizing n l with
  | @last pv body hs =>
    obtain _ | n := n
    · rw [hs.levels_eq] at hn
      cases hn
    have hindex := hobjs pv.obj (by rw [hs.objs_eq]; exact List.mem_cons_self)
    have haddr : (paddrToAddr c pv).run st = .ok () st := assert_run (decide_eq_true hindex) _ st
    rw [pvpktIterate, run_bind_ok haddr]
    exact run_bind_ok (pvpktIterateBody_loop hs (.inl rfl) l)
  | @cons pv sub dl body packets hs hsub ih =>
    obtain _ | n := n
    · rw [hs.levels_eq] at hn
      cases hn
    have hmem : ∀ o ∈ sub.objs, o ∈ pv.objs := by
      intro o ho
      rw [hs.objs_eq, entryObjs_append]
      simp [IovEntry.objs, ho]
    have hindex := hobjs pv.obj (by rw [hs.objs_eq]; exact List.mem_cons_self)
    have hlevels : sub.levels ≤ n := by
      have hle := Iovec.levels_le (x := .pvbuf dl sub) (l := entrySlots (body ++ [.sub dl sub]))
        (by simp [IovEntry.slots])
      rw [hs.levels_eq] at hn
      exact hle.trans (Nat.le_of_succ_le_succ hn)
    have hsubobj : sub.obj ∈ sub.objs := by
      cases hsub with
      | last hs => rw [hs.objs_eq]; exact List.mem_cons_self
      | cons hs => rw [hs.objs_eq]; exact List.mem_cons_self
    have haddr : (paddrToAddr c pv).run st = .ok () st := assert_run (decide_eq_true hindex) _ st
    rw [pvpktIterate, run_bind_ok haddr]
    refine (run_bind_ok (pvpktIterateBody_loop hs (.inr ⟨dl, sub, rfl, hobjs _ (hmem _ hsubobj)⟩) l)).trans ?_
    rw [notes_append, ← List.append_assoc]
    exact ih (fun o ho => hobjs o (hmem o ho)) hlevels

/-! ## The chain under construction -/

/-- The pvbufs before the end of the chain, from the end on, with the packets and the objects they hold:
packets, free slots, and a pvbuf of unknown length in the last slot. -/
def Behind (P : Pvbuf → Prop) : (outer : List Pvbuf) → List IovEntry → List (Nat × Nat) → Prop
  | [], packets, objs => packets = [] ∧ objs = []
  | p :: outer, packets, objs => ∃ es k sub packets' objs',
      Slots p (entrySlots (es ++ gaps k ++ [.sub 0 sub])) ∧ (∀ e ∈ es, e.Ok P) ∧
      Behind P outer packets' objs' ∧ packets = packets' ++ es ∧ objs = p.obj :: (entryObjs es ++ objs')

theorem Behind.mono (hP : ∀ q, P q → P' q) (h : Behind P outer packets objs) :
    Behind P' outer packets objs := by
  induction outer generalizing packets objs with
  | nil => exact h
  | cons p outer ih =>
    obtain ⟨es, k, sub, packets', objs', hs, hes, hbehind, hpackets, hobjs⟩ := h
    exact ⟨es, k, sub, packets', objs', hs, fun e he => (hes e he).mono hP, ih hbehind, hpackets, hobjs⟩

theorem Behind.toOuter (h : Behind P outer packets objs) (N : Nat) :
    Outer P True N outer (entrySegs packets) objs := by
  induction outer generalizing packets objs N with
  | nil =>
    obtain ⟨rfl, rfl⟩ := h
    exact ⟨rfl, rfl⟩
  | cons p outer ih =>
    obtain ⟨es, k, sub, packets', objs', hs, hes, hbehind, rfl, rfl⟩ := h
    refine ⟨es ++ gaps k, 0, sub, entrySegs packets', objs', hs, fun e he => ?_, fun _ => .inl rfl,
      ih hbehind _, by simp, by simp⟩
    rcases List.mem_append.mp he with he | he
    · exact hes e he
    · exact forall_ok_gaps k e he

theorem Behind.vec (h : Behind P outer packets objs) (hcur : Vec cur es) :
    ∃ all, Vec (closeChain cur outer) all ∧ notes all = notes packets ++ notes es := by
  induction outer generalizing packets objs cur es with
  | nil =>
    obtain ⟨rfl, -⟩ := h
    exact ⟨es, hcur, rfl⟩
  | cons p outer ih =>
    obtain ⟨es', k, sub, packets', objs', hs, -, hbehind, rfl, -⟩ := h
    have hp : Vec (p.set (p.num - 1) ((p.get (p.num - 1)).relink cur)) (es' ++ gaps k ++ es) :=
      .cons (hs.relink cur) hcur
    obtain ⟨all, hall, hnotes⟩ := ih hbehind hp
    exact ⟨all, hall, by rw [hnotes]; simp⟩

end Xdp2
