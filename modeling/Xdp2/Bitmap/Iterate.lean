import Xdp2.Lib.SetBits

/-!
# Iterating over the bits of a word

The macros `xdp2_bitmap_wordN_foreach_bit` and their kin, whose visits are collected in a list, and
`xdp2_bitmap_word_expand` and `xdp2_bitmap_word_extract`, which go over the set bits of a pattern.
The macros for zero bits search for set bits, as the others do (`wordIter_iff`). A bit that is moved
is shifted as an `int`, so for patterns with a high bit there is no defined result
(`expand_extract_iff`).
-/

namespace Xdp2

open BitWord StateError

/-! ## Visits -/

section
variable {w : Nat} {v : BitVec w}

/-- The body of a loop that notes the positions visited. -/
def noteVisit (pos : Nat) (seen : List Nat) : EStateM Unit Unit (Turn (List Nat)) :=
  return .next pos (seen ++ [pos])

/-- `xdp2_bitmap_wordN_foreach_bit`. -/
def foreachBit (v : BitVec w) (pos : Nat) : EStateM Unit Unit (List Nat) :=
  forBits () (fun _ => v) noteVisit pos []

/-- `xdp2_bitmap_wordN_foreach_zero_bit`. -/
def foreachZeroBit (v : BitVec w) (pos : Nat) : EStateM Unit Unit (List Nat) :=
  forBits () (fun _ => v) noteVisit pos []

/-- `xdp2_bitmap_wordN_rev_foreach_bit`. -/
def revForeachBit (v : BitVec w) (pos : Nat) : EStateM Unit Unit (List Nat) :=
  forBitsRev () (fun _ => v) noteVisit pos []

/-- `xdp2_bitmap_wordN_rev_foreach_zero_bit`. -/
def revForeachZeroBit (v : BitVec w) (pos : Nat) : EStateM Unit Unit (List Nat) :=
  forBitsRev () (fun _ => v) noteVisit pos []

/-- The four macros for a width. -/
inductive WordIter where
  | bits
  | zeroBits
  | revBits
  | revZeroBits

/-- The positions a macro visits. -/
def WordIter.visits (v : BitVec w) (pos : Nat) : WordIter → EStateM Unit Unit (List Nat)
  | bits => foreachBit v pos
  | zeroBits => foreachZeroBit v pos
  | revBits => revForeachBit v pos
  | revZeroBits => revForeachZeroBit v pos

/-- The positions a macro is for: the set bits, or the zero bits, from the position up or from the
position down. -/
def WordIter.positions (v : BitVec w) (pos : Nat) : WordIter → List Nat
  | bits => (List.range' pos (w - pos)).filter fun i => v.getLsbD i
  | zeroBits => (List.range' pos (w - pos)).filter fun i => !v.getLsbD i
  | revBits => ((List.range' 0 (pos + 1)).filter fun i => v.getLsbD i).reverse
  | revZeroBits => ((List.range' 0 (pos + 1)).filter fun i => !v.getLsbD i).reverse

theorem foreachBit_run (hpos : pos < w) : (foreachBit v pos).run () = .ok (bitsIn v pos w) () := by
  have hloop : Returns (foreachBit v pos) () fun seen _ => seen = bitsIn v pos w := by
    refine forBits_rule (I := fun p seen _ => pos ≤ p ∧ p ≤ w ∧ seen = bitsIn v pos p) ?_ ?_ hpos
      ⟨le_rfl, hpos.le, by simp [bitsIn]⟩
    · rintro p q _ _ ⟨hle, -, rfl⟩ hq
      have hpq := hq.le
      refine .pure ⟨le_rfl, by omega, lt_of_getLsbD hq.set, ?_⟩
      rw [← bitsIn_append v hle (Nat.le_succ_of_le hpq), hq.bitsIn]
    · rintro p _ _ ⟨hle, hp, rfl⟩ hnone
      rw [← bitsIn_append v hle hp, bitsIn_clear fun k hk _ => hnone k hk, List.append_nil]
  obtain ⟨_, _, hrun, rfl⟩ := hloop
  exact hrun

theorem revForeachBit_run (hpos : pos < w) :
    (revForeachBit v pos).run () = .ok (bitsIn v 0 (pos + 1)).reverse () := by
  have hloop : Returns (revForeachBit v pos) () fun seen _ =>
      seen = (bitsIn v 0 (pos + 1)).reverse := by
    refine forBitsRev_rule
      (I := fun p seen _ => p ≤ pos + 1 ∧ seen = (bitsIn v p (pos + 1)).reverse)
      ?_ ?_ hpos ⟨le_rfl, by simp [bitsIn]⟩
    · rintro p q _ _ ⟨hle, rfl⟩ hq
      have hlt := hq.lt
      refine .pure ⟨le_rfl, by omega, ?_⟩
      rw [← bitsIn_append v hlt.le hle, hq.bitsIn, List.reverse_append, List.reverse_singleton]
    · rintro p _ _ ⟨hle, rfl⟩ hnone
      rw [← bitsIn_append v (Nat.zero_le p) hle, bitsIn_clear fun k _ hk => hnone k hk,
        List.nil_append]
  obtain ⟨_, _, hrun, rfl⟩ := hloop
  exact hrun

theorem filter_ne_filter_not {l : List Nat} (p : Nat → Bool) (hne : l ≠ []) :
    l.filter p ≠ l.filter fun i => !p i := by
  obtain ⟨a, l, rfl⟩ := List.exists_cons_of_ne_nil hne
  intro h
  have hmem : a ∈ (a :: l).filter p ↔ a ∈ (a :: l).filter fun i => !p i := by rw [h]
  rw [List.mem_filter, List.mem_filter] at hmem
  cases hp : p a <;> simp [hp] at hmem

/-- **The macros visit the bits they are for**, in order, just if these are the set bits. The macros
for zero bits visit the set bits too, for every word and every position in it. -/
theorem wordIter_iff (it : WordIter) (v : BitVec w) (hpos : pos < w) :
    (it.visits v pos).run () = .ok (it.positions v pos) () ↔ it = .bits ∨ it = .revBits := by
  have hup : List.range' pos (w - pos) ≠ [] := by simp; omega
  have hdown : List.range' 0 (pos + 1) ≠ [] := by simp
  cases it with
  | bits => simp [WordIter.visits, WordIter.positions, foreachBit_run hpos, bitsIn]
  | revBits => simp [WordIter.visits, WordIter.positions, revForeachBit_run hpos, bitsIn]
  | zeroBits =>
    have hrun : (foreachZeroBit v pos).run () = .ok (bitsIn v pos w) () := foreachBit_run hpos
    simp [WordIter.visits, WordIter.positions, hrun, bitsIn, filter_ne_filter_not _ hup]
  | revZeroBits =>
    have hrun : (revForeachZeroBit v pos).run () = .ok (bitsIn v 0 (pos + 1)).reverse () :=
      revForeachBit_run hpos
    simp [WordIter.visits, WordIter.positions, hrun, bitsIn, filter_ne_filter_not _ hdown]

/-- The bits 1, 3 and 7 of a byte from bit 2 on. -/
theorem wordIter_byte : (WordIter.bits.visits 0b10001010#8 2).run () =
    .ok (WordIter.bits.positions 0b10001010#8 2) () :=
  (wordIter_iff .bits _ (by decide)).mpr (.inl rfl)

/-- The zero bits of a byte with only bit 0 set are seven others. -/
theorem foreachZeroBit_one :
    (foreachZeroBit 1#8 0).run () = .ok [0] () ∧
      WordIter.positions 1#8 0 .zeroBits = [1, 2, 3, 4, 5, 6, 7] := ⟨rfl, by decide⟩

end

/-! ## Expanding and extracting -/

/-- The shift of a bit as an `int` is defined. -/
def Shifts (b : Bool) (dst : Nat) : Prop := dst < 31 ∨ dst = 31 ∧ b = false

instance (b : Bool) (dst : Nat) : Decidable (Shifts b dst) := inferInstanceAs (Decidable (_ ∨ _))

/-- `ret |= xdp2_bitmap_word64_isset(v, src) << dst`. -/
def moveBit (v : BitVec 64) (src dst : Nat) (ret : BitVec 64) : EStateM Unit Unit (BitVec 64) :=
  if Shifts (v.getLsbD src) dst then return ret ||| if v.getLsbD src then bit dst else 0
  else throw ()

/-- The loop over the bits of a pattern: for the next position, the bit `src` goes to the bit `dst`,
both by the number of turns taken and the position. -/
def moveBits (v p : BitVec 64) (src dst : Nat → Nat → Nat) : EStateM Unit Unit (BitVec 64) := do
  let r ← forPos findNext () (fun _ => p)
    (fun pos (shift, ret) =>
      return .next pos (shift + 1, ← moveBit v (src shift pos) (dst shift pos) ret))
    65 (find p) (0, 0)
  return r.2

/-- `xdp2_bitmap_word_expand`. -/
def bitmapWordExpand (v p : BitVec 64) : EStateM Unit Unit (BitVec 64) :=
  moveBits v p (fun shift _ => shift) fun _ pos => pos

/-- `xdp2_bitmap_word_extract`. -/
def bitmapWordExtract (v p : BitVec 64) : EStateM Unit Unit (BitVec 64) :=
  moveBits v p (fun _ pos => pos) fun shift _ => shift

section
variable {v p ret : BitVec 64} {src dst : Nat → Nat}

/-- The bits of `ret` are those moved for the positions below `n`. -/
def Moved (v p : BitVec 64) (src dst : Nat → Nat) (n : Nat) (ret : BitVec 64) : Prop :=
  ∀ j < 64, ret.getLsbD j = true ↔
    ∃ pos < n, p.getLsbD pos = true ∧ dst pos = j ∧ v.getLsbD (src pos) = true

/-- All shifts for the positions below `n` are defined. -/
def ShiftsTo (v p : BitVec 64) (src dst : Nat → Nat) (n : Nat) : Prop :=
  ∀ pos < n, p.getLsbD pos = true → Shifts (v.getLsbD (src pos)) (dst pos)

theorem Moved.next (h : Moved v p src dst n ret) (hq : FirstFrom p n q) :
    Moved v p src dst (q + 1) (ret ||| if v.getLsbD (src q) then bit (dst q) else 0) := by
  intro j hj
  have hle := hq.le
  rw [BitVec.getLsbD_or, Bool.or_eq_true, h j hj]
  constructor
  · rintro (⟨pos, hlt, hpos⟩ | hnew)
    · exact ⟨pos, by omega, hpos⟩
    · cases hv : v.getLsbD (src q) with
      | false => simp [hv] at hnew
      | true =>
        rw [hv, if_pos rfl, getLsbD_bit, decide_eq_true_iff] at hnew
        exact ⟨q, Nat.lt_succ_self q, hq.set, hnew.1.symm, hv⟩
  · rintro ⟨pos, hlt, hset, rfl, hv⟩
    rcases Nat.lt_or_ge pos n with hn | hn
    · exact .inl ⟨pos, hn, hset, rfl, hv⟩
    · obtain rfl : pos = q := by
        by_contra hne
        rw [hq.clear pos hn (by omega)] at hset
        cases hset
      exact .inr (by rw [hv, if_pos rfl, getLsbD_bit, decide_eq_true_iff]; exact ⟨rfl, hj⟩)

theorem moveBits_outcome (v p : BitVec 64) (src dst : Nat → Nat → Nat) :
    let src' := fun pos => src (rank p pos) pos
    let dst' := fun pos => dst (rank p pos) pos
    Outcome (moveBits v p src dst) ()
      (fun ret _ => ShiftsTo v p src' dst' 64 ∧ Moved v p src' dst' 64 ret)
      fun _ => ¬ ShiftsTo v p src' dst' 64 := by
  intro src' dst'
  have hfind : find p = findStart p 0 := by
    rw [findStart, show ~~~(bit 0 - 1#64) = BitVec.allOnes 64 by decide, BitVec.and_allOnes]
  rw [moveBits, hfind]
  refine Outcome.bind (P := fun r _ => ShiftsTo v p src' dst' 64 ∧ Moved v p src' dst' 64 r.2)
    (forBits_outcome (I := fun n r _ => n ≤ 64 ∧ r.1 = rank p n ∧
      ShiftsTo v p src' dst' n ∧ Moved v p src' dst' n r.2) ?_ ?_ (by decide)
      ⟨by decide, rfl, fun _ h => by omega, fun j _ => by simp⟩) fun r _ h => .pure h
  · rintro n q ⟨shift, ret⟩ s ⟨-, rfl, hshifts, hmoved⟩ hq
    have hle := hq.le
    have hrank : rank p n = rank p q := by rw [rank_add p hle, bitsIn_clear hq.clear]; rfl
    dsimp only
    rw [hrank, moveBit]
    split
    · rename_i hshift
      refine .step rfl
        (.pure ⟨le_rfl, lt_of_getLsbD hq.set, ?_, fun pos hlt hset => ?_, hmoved.next hq⟩)
      · rw [rank_add p (Nat.le_succ q), bitsIn_self hq.set]
        rfl
      · rcases Nat.lt_or_ge pos n with hn | hn
        · exact hshifts pos hn hset
        · obtain rfl : pos = q := by
            by_contra hne
            rw [hq.clear pos hn (by omega)] at hset
            cases hset
          exact hshift
    · rename_i hshift
      exact .inr ⟨(), s, rfl, fun hall => hshift (hall q (lt_of_getLsbD hq.set) hq.set)⟩
  · rintro n r _ ⟨hn, -, hshifts, hmoved⟩ hnone
    have hlt : ∀ {pos}, p.getLsbD pos = true → pos < n := by
      intro pos hset
      by_contra hge
      rw [hnone pos (not_lt.mp hge)] at hset
      cases hset
    refine ⟨fun pos _ hset => hshifts pos (hlt hset) hset, fun j hj => (hmoved j hj).trans ?_⟩
    exact exists_congr fun pos => and_congr_left fun hrest =>
      ⟨fun h => by omega, fun _ => hlt hrest.1⟩

theorem bitmapWordExpand_run (h : ShiftsTo v p (rank p) id 64) :
    ∃ r, (bitmapWordExpand v p).run () = .ok r () ∧ Moved v p (rank p) id 64 r := by
  obtain ⟨r, _, hrun, -, hmoved⟩ :=
    (moveBits_outcome v p (fun shift _ => shift) fun _ pos => pos).returns fun _ hnot => hnot h
  exact ⟨r, hrun, hmoved⟩

theorem bitmapWordExtract_run (h : ShiftsTo v p id (rank p) 64) :
    ∃ r, (bitmapWordExtract v p).run () = .ok r () ∧ Moved v p id (rank p) 64 r := by
  obtain ⟨r, _, hrun, -, hmoved⟩ :=
    (moveBits_outcome v p (fun _ pos => pos) fun shift _ => shift).returns fun _ hnot => hnot h
  exact ⟨r, hrun, hmoved⟩

theorem Moved.bit_eq (h : Moved v p src dst 64 ret) (hset : p.getLsbD pos = true)
    (hlt : dst pos < 64) (hinj : ∀ pos', p.getLsbD pos' = true → dst pos' = dst pos → pos' = pos) :
    ret.getLsbD (dst pos) = v.getLsbD (src pos) := by
  rw [Bool.eq_iff_iff, h _ hlt]
  constructor
  · rintro ⟨pos', -, hset', heq, hv⟩
    rwa [hinj pos' hset' heq] at hv
  · exact fun hv => ⟨pos, lt_of_getLsbD hset, hset, rfl, hv⟩

theorem Moved.expanded (h : Moved v p (rank p) id 64 ret) (hset : p.getLsbD pos = true) :
    ret.getLsbD pos = v.getLsbD (rank p pos) :=
  h.bit_eq hset (lt_of_getLsbD hset) fun _ _ heq => heq

theorem Moved.extracted (h : Moved v p id (rank p) 64 ret) (hset : p.getLsbD pos = true) :
    ret.getLsbD (rank p pos) = v.getLsbD pos :=
  h.bit_eq hset ((rank_le p pos).trans_lt (lt_of_getLsbD hset))
    fun _ hset' heq => rank_inj hset' hset heq

/-- The two laws for a word and a pattern. -/
def Inverse (v p : BitVec 64) : Prop :=
  (do bitmapWordExtract (← bitmapWordExpand v p) p).run () =
      .ok (BitVec.ofNat 64 (v.toNat % 2 ^ weight p)) () ∧
    (do bitmapWordExpand (← bitmapWordExtract v p) p).run () = .ok (v &&& p) ()

theorem Moved.extract_expanded (h : Moved v p (rank p) id 64 r)
    (h' : Moved r p id (rank p) 64 ret) : ret = BitVec.ofNat 64 (v.toNat % 2 ^ weight p) := by
  apply BitVec.eq_of_getLsbD_eq
  intro j hj
  rw [BitVec.getLsbD_ofNat, decide_eq_true hj, Bool.true_and, Nat.testBit_mod_two_pow,
    Bool.eq_iff_iff, h' j hj, Bool.and_eq_true, decide_eq_true_iff, ← rank_width]
  constructor
  · rintro ⟨pos, hlt, hset, rfl, hr⟩
    rw [id, h.expanded hset] at hr
    exact ⟨rank_lt hset hlt, hr⟩
  · rintro ⟨hlt, hv⟩
    obtain ⟨pos, hpos, hset, rfl⟩ := exists_rank hlt
    exact ⟨pos, hpos, hset, rfl, (h.expanded hset).trans hv⟩

theorem Moved.expand_extracted (h : Moved v p id (rank p) 64 r)
    (h' : Moved r p (rank p) id 64 ret) : ret = v &&& p := by
  apply BitVec.eq_of_getLsbD_eq
  intro j hj
  rw [BitVec.getLsbD_and, Bool.eq_iff_iff, h' j hj, Bool.and_eq_true]
  constructor
  · rintro ⟨_, -, hset, rfl, hr⟩
    rw [h.extracted hset] at hr
    exact ⟨hr, hset⟩
  · rintro ⟨hv, hset⟩
    exact ⟨j, hj, hset, rfl, (h.extracted hset).trans hv⟩

end

/-- **Expanding and extracting undo each other** just if the pattern has no bit above 31, and, if it
has bit 31, that bit of the word is clear and so is the one that goes there. For every other word and
pattern a shift of an `int` is undefined. -/
theorem expand_extract_iff (v p : BitVec 64) :
    Inverse v p ↔ ∀ pos, p.getLsbD pos = true →
      pos < 31 ∨ pos = 31 ∧ v.getLsbD 31 = false ∧ v.getLsbD (rank p 31) = false := by
  constructor
  · rintro ⟨hone, htwo⟩ pos hset
    obtain ⟨_, _, hexpand, -⟩ := run_bind_eq_ok hone
    obtain ⟨r, _, hextract, hback⟩ := run_bind_eq_ok htwo
    have hshifts := ((moveBits_outcome v p _ _).of_ok hexpand).1 pos (lt_of_getLsbD hset) hset
    have hmoved := ((moveBits_outcome v p _ _).of_ok hextract).2
    have hshifts' := ((moveBits_outcome r p _ _).of_ok hback).1 pos (lt_of_getLsbD hset) hset
    rw [Moved.extracted hmoved hset] at hshifts'
    rcases hshifts' with hlt | ⟨rfl, hv⟩
    · exact .inl hlt
    · exact .inr ⟨rfl, hv, (hshifts.resolve_left (by decide)).2⟩
  · intro hcond
    have hexpand : ∀ {u : BitVec 64}, (p.getLsbD 31 = true → u.getLsbD (rank p 31) = false) →
        ShiftsTo u p (rank p) id 64 := by
      intro u hu pos _ hset
      refine (hcond pos hset).imp_right ?_
      rintro ⟨rfl, -⟩
      exact ⟨rfl, hu hset⟩
    have hextract : ∀ {u : BitVec 64}, (p.getLsbD 31 = true → u.getLsbD 31 = false) →
        ShiftsTo u p id (rank p) 64 := by
      intro u hu pos _ hset
      have hle := rank_le p pos
      rcases hcond pos hset with hlt | ⟨rfl, -⟩
      · exact .inl (by omega)
      · by_cases hrank : rank p 31 < 31
        · exact .inl hrank
        · exact .inr ⟨by omega, hu hset⟩
    have hhigh : p.getLsbD 31 = true → v.getLsbD 31 = false ∧ v.getLsbD (rank p 31) = false :=
      fun hset => ((hcond 31 hset).resolve_left (by decide)).2
    constructor
    · obtain ⟨r, hrun, hmoved⟩ := bitmapWordExpand_run (hexpand fun hset => (hhigh hset).2)
      obtain ⟨r', hrun', hmoved'⟩ := bitmapWordExtract_run (v := r)
        (hextract fun hset => (hmoved.expanded hset).trans (hhigh hset).2)
      rw [run_bind_ok hrun, hrun', hmoved.extract_expanded hmoved']
    · obtain ⟨r, hrun, hmoved⟩ := bitmapWordExtract_run (hextract fun hset => (hhigh hset).1)
      obtain ⟨r', hrun', hmoved'⟩ := bitmapWordExpand_run (v := r)
        (hexpand fun hset => (hmoved.extracted hset).trans (hhigh hset).1)
      rw [run_bind_ok hrun, hrun', hmoved.expand_extracted hmoved']

/-- A bit that should go to bit 32 is shifted out of an `int`. -/
theorem bitmapWordExpand_high : (bitmapWordExpand 1 (bit 32)).run () = .error () () ∧
    ¬ Inverse 1 (bit 32) := by
  have hrun : (bitmapWordExpand 1 (bit 32)).run () = .error () () := rfl
  refine ⟨hrun, fun h => ?_⟩
  have hone := h.1
  rw [run_bind_error hrun] at hone
  cases hone

end Xdp2
