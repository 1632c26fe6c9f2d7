import Xdp2.Bitmap.Ops

/-!
# What the operations on bitmaps do

An operation rewrites the bits from `pos` up to `nbits` and nothing else (`Rewrites`). `Wrote` holds
when the bits up to a position have been written, and `Wrote.word` is the step for one word.
-/

namespace Xdp2

open BitWord

/-! ## The meaning of the operators -/

/-- The operation that a name stands for, on bits. -/
def BitmapOp.bool (a b : Bool) : BitmapOp → Bool
  | and => a && b
  | or => a || b
  | xor => a ^^ b
  | nand => !(a && b)
  | nor => !(a || b)
  | nxor => !(a ^^ b)
  | and_not => a && !b
  | or_not => a || !b
  | xor_not => a ^^ !b
  | nand_not => !(a && !b)
  | nor_not => !(a || !b)
  | nxor_not => !(a ^^ !b)

/-- The same for a source and the old destination. -/
def BitmapOp2.bool (src dest : Bool) : BitmapOp2 → Bool
  | copy => src
  | not => !src
  | destsrc op => op.bool src dest

/-- A bit of a source; `dest` is the destination before the operation. -/
def Operand.bit (L : Layout w) (d : Words w) (i : Nat) : Operand w → Bool
  | array src => L.isset src i
  | dest => L.isset d i
  | word v => (L.conv v).getLsbD (i % w)

/-- What a test says of bits. -/
def BitmapTest.result (bits : List Bool) : BitmapTest → Nat
  | none => 0
  | weight => bits.count true
  | any_set => if true ∈ bits then 1 else 0
  | any_zero => if false ∈ bits then 1 else 0

theorem getLsbD_value2 (op : BitmapOp) (x y : BitVec w) (hk : k < w) :
    (op.args.value2 x y).getLsbD k = op.bool (x.getLsbD k) (y.getLsbD k) := by
  rw [OpArgs.value2, getLsbD_tilde _ _ hk]
  cases op <;>
    simp [BitmapOp.args, BitmapOp.bool, WordOp.words, getLsbD_tilde _ _ hk, BitVec.getLsbD_and,
      BitVec.getLsbD_or, BitVec.getLsbD_xor]

theorem getLsbD_value (op : BitmapOp2) (x y : BitVec w) (hk : k < w) :
    (op.value x y).getLsbD k = op.bool (x.getLsbD k) (y.getLsbD k) := by
  cases op with
  | copy => rw [BitmapOp2.value, getLsbD_tilde _ _ hk, Bool.xor_false, BitmapOp2.bool]
  | not => rw [BitmapOp2.value, getLsbD_tilde _ _ hk, Bool.xor_true, BitmapOp2.bool]
  | destsrc op => exact getLsbD_value2 op x y hk

/-! ## Tests -/

theorem range_split (hac : a ≤ c) (hc : c ≤ w) :
    List.range w = List.range' 0 a ++ List.range' a (c - a) ++ List.range' c (w - c) := by
  rw [List.range_eq_range', List.append_assoc, show List.range' a (c - a) ++ List.range' c (w - c) =
    List.range' a (w - a) by
      rw [show w - a = (c - a) + (w - c) by omega, ← List.range'_append_1,
        show a + (c - a) = c by omega],
    show w = a + (w - a) by omega, ← List.range'_append_1]
  simp

section
variable {u : BitVec w}

theorem weight_masked (hac : a ≤ c) (hc : c ≤ w)
    (hout : ∀ k, k < w → ¬ (a ≤ k ∧ k < c) → u.getLsbD k = false) :
    weight u = ((List.range' a (c - a)).map u.getLsbD).count true := by
  have hbefore : (List.range' 0 a).countP (fun k => u.getLsbD k) = 0 := by
    rw [List.countP_eq_zero]
    intro k hk
    rw [List.mem_range'_1] at hk
    rw [hout k (by omega) (by omega)]
    exact Bool.false_ne_true
  have hafter : (List.range' c (w - c)).countP (fun k => u.getLsbD k) = 0 := by
    rw [List.countP_eq_zero]
    intro k hk
    rw [List.mem_range'_1] at hk
    rw [hout k (by omega) (by omega)]
    exact Bool.false_ne_true
  rw [weight, range_split hac hc, List.countP_append, List.countP_append, hbefore, hafter,
    List.count, List.countP_map, Nat.zero_add, Nat.add_zero]
  refine List.countP_congr fun k _ => ?_
  simp

theorem ne_zero_masked (hout : ∀ k, k < w → ¬ (a ≤ k ∧ k < c) → u.getLsbD k = false) :
    u ≠ 0 ↔ true ∈ (List.range' a (c - a)).map u.getLsbD := by
  simp only [List.mem_map, List.mem_range'_1]
  constructor
  · intro hne
    by_contra hnone
    apply hne
    apply BitVec.eq_of_getLsbD_eq
    intro k hk
    rw [show (0 : BitVec w).getLsbD k = false by simp]
    by_cases hin : a ≤ k ∧ k < c
    · cases hbit : u.getLsbD k with
      | false => rfl
      | true => exact absurd ⟨k, ⟨hin.1, by omega⟩, hbit⟩ hnone
    · exact hout k hk hin
  · rintro ⟨k, -, hbit⟩ rfl
    simp at hbit

end

section
variable (L : Layout w)

theorem handle_result (test : BitmapTest) (hac : a ≤ c) (hc : c ≤ w)
    (hmask : ∀ k, k < w → (L.conv mask).getLsbD k = decide (a ≤ k ∧ k < c))
    (hout : ∀ k, k < w → ¬ (a ≤ k ∧ k < c) → (L.conv v).getLsbD k = false) :
    test.handle (test.result bits) v mask =
      test.result (bits ++ (List.range' a (c - a)).map (L.conv v).getLsbD) := by
  cases test with
  | none => rfl
  | weight =>
    rw [BitmapTest.handle, BitmapTest.result, BitmapTest.result, List.count_append,
      ← weight_masked hac hc hout, Layout.conv, L.order.weight_conv]
  | any_set =>
    simp only [BitmapTest.handle, BitmapTest.result, List.mem_append, L.conv_ne_zero v,
      ne_zero_masked hout]
    by_cases h : true ∈ (List.range' a (c - a)).map (L.conv v).getLsbD
    · simp [h]
    · simp [h]
  | any_zero =>
    have hzero : ∀ k, k < w → (L.conv (~~~v &&& mask)).getLsbD k =
        (!(L.conv v).getLsbD k && decide (a ≤ k ∧ k < c)) := by
      intro k hk
      rw [L.conv_and, L.conv_not, BitVec.getLsbD_and, BitVec.getLsbD_not, hmask k hk,
        decide_eq_true hk, Bool.true_and]
    have hne : ~~~v &&& mask ≠ 0 ↔ false ∈ (List.range' a (c - a)).map (L.conv v).getLsbD := by
      have hout' : ∀ k, k < w → ¬ (a ≤ k ∧ k < c) →
          (L.conv (~~~v &&& mask)).getLsbD k = false := by
        intro k hk hin
        rw [hzero k hk, decide_eq_false hin, Bool.and_false]
      rw [L.conv_ne_zero, ne_zero_masked hout', List.mem_map, List.mem_map]
      refine exists_congr fun k => and_congr_right fun hk => ?_
      rw [List.mem_range'_1] at hk
      rw [hzero k (by omega), decide_eq_true (show a ≤ k ∧ k < c by omega), Bool.and_true]
      cases (L.conv v).getLsbD k <;> simp
    simp only [BitmapTest.handle, BitmapTest.result, List.mem_append, hne]
    by_cases h : false ∈ (List.range' a (c - a)).map (L.conv v).getLsbD
    · simp [h]
    · simp [h]

end

/-! ## Writing -/

/-- The bits from `pos` up to `nbits` become `b`, all others stay, and so does what is not part of
the bitmap. -/
structure Rewrites (L : Layout w) (d d' : Words w) (pos nbits : Nat) (b : Nat → Bool) : Prop where
  bits : ∀ i, L.isset d' i = if pos ≤ i ∧ i < nbits then b i else L.isset d i
  other : ∀ p, (∀ j, p ≠ L.word j) → d' p = d p

/-- The bits up to `q` have been written, and the words from there on not yet. -/
structure Wrote (L : Layout w) (d d' : Words w) (pos q : Nat) (b : Nat → Bool) : Prop
    extends Rewrites L d d' pos q b where
  later : ∀ j, q ≤ j * w → d' (L.word j) = d (L.word j)

section
variable {L : Layout w}

theorem Wrote.refl (L : Layout w) (d : Words w) (pos : Nat) (b : Nat → Bool) :
    Wrote L d d pos pos b where
  bits i := by rw [if_neg (by omega)]
  other _ _ := rfl
  later _ _ := rfl

theorem Layout.isset_update (v : BitVec w) (hk : k < w) :
    L.isset (Function.update d (L.word j) v) (j * w + k) = (L.conv v).getLsbD k := by
  rw [L.isset_word _ hk, Function.update_self]

theorem Layout.isset_update_of_ne (v : BitVec w) (hne : i / w ≠ j) :
    L.isset (Function.update d (L.word j) v) i = L.isset d i := by
  rw [Layout.isset, Function.update_of_ne (L.word_injective.ne hne), Layout.isset]

theorem Wrote.word (h : Wrote L d d' pos (j * w + a) b) (hpos : pos ≤ j * w + a) (hac : a ≤ c)
    (h0 : 0 < c) (hc : c ≤ w) (v : BitVec w)
    (hin : ∀ k, a ≤ k → k < c → (L.conv v).getLsbD k = b (j * w + k))
    (hout : ∀ k, k < w → ¬ (a ≤ k ∧ k < c) →
      (L.conv v).getLsbD k = (L.conv (d' (L.word j))).getLsbD k) :
    Wrote L d (Function.update d' (L.word j) v) pos (j * w + c) b where
  bits i := by
    have hold := h.bits i
    have hdiv := Nat.div_add_mod' i w
    have hmod := L.mod_lt i
    rcases eq_or_ne (i / w) j with heq | hne
    · obtain ⟨k, hk, rfl⟩ : ∃ k, k < w ∧ i = j * w + k := ⟨i % w, hmod, by rw [← heq, hdiv]⟩
      rw [L.isset_update v hk]
      by_cases hk' : a ≤ k ∧ k < c
      · rw [hin _ hk'.1 hk'.2, if_pos (by omega)]
      · rw [hout _ hk hk', ← L.isset_word _ hk, hold]
        split
        · rw [if_pos (by omega)]
        · rw [if_neg (by omega)]
    · rw [L.isset_update_of_ne v hne, hold]
      have hlt : i < j * w + a ↔ i < j * w + c := by
        rcases Nat.lt_or_ge (i / w) j with hlt | hge
        · have := Nat.mul_le_mul_right w (Nat.succ_le_of_lt hlt)
          rw [Nat.succ_mul] at this
          omega
        · have := Nat.mul_le_mul_right w (Nat.succ_le_of_lt (lt_of_le_of_ne hge hne.symm))
          rw [Nat.succ_mul] at this
          omega
      simp only [hlt]
  other p hp := by
    rw [Function.update_of_ne (hp j)]
    exact h.other p hp
  later m hm := by
    have hne : m ≠ j := by
      rintro rfl
      omega
    rw [Function.update_of_ne (L.word_injective.ne hne)]
    exact h.later m (by omega)

theorem Wrote.masked (test : BitmapTest) (h : Wrote L d d' pos (j * w + a) b)
    (hpos : pos ≤ j * w + a) (hac : a ≤ c) (h0 : 0 < c) (hc : c ≤ w)
    (hmask : ∀ k, k < w → (L.conv mask).getLsbD k = decide (a ≤ k ∧ k < c))
    (hin : ∀ k, a ≤ k → k < c → (L.conv v).getLsbD k = b (j * w + k)) :
    Wrote L d (Function.update d' (L.word j) ((v &&& mask) ||| (d' (L.word j) &&& ~~~mask))) pos
        (j * w + c) b ∧
      test.handle (test.result ((List.range' pos (j * w + a - pos)).map b)) (v &&& mask) mask =
        test.result ((List.range' pos (j * w + c - pos)).map b) := by
  have hres : ∀ k, k < w → (L.conv (v &&& mask)).getLsbD k =
      ((L.conv v).getLsbD k && decide (a ≤ k ∧ k < c)) := by
    intro k hk
    rw [L.conv_and, BitVec.getLsbD_and, hmask k hk]
  have hnew : ∀ k, k < w → (L.conv ((v &&& mask) ||| (d' (L.word j) &&& ~~~mask))).getLsbD k =
      if a ≤ k ∧ k < c then (L.conv v).getLsbD k else (L.conv (d' (L.word j))).getLsbD k := by
    intro k hk
    have hold : (L.conv (d' (L.word j) &&& ~~~mask)).getLsbD k =
        ((L.conv (d' (L.word j))).getLsbD k && !decide (a ≤ k ∧ k < c)) := by
      rw [L.conv_and, L.conv_not, BitVec.getLsbD_and, BitVec.getLsbD_not, hmask k hk,
        decide_eq_true hk, Bool.true_and]
    rw [L.conv_or, BitVec.getLsbD_or, hres k hk, hold]
    split
    · rename_i hk'
      simp [hk']
    · rename_i hk'
      simp [hk']
  constructor
  · refine h.word hpos hac h0 hc _ (fun k hak hkc => ?_) (fun k hk hk' => ?_)
    · rw [hnew k (by omega), if_pos ⟨hak, hkc⟩, hin k hak hkc]
    · rw [hnew k hk, if_neg hk']
  · rw [handle_result L test hac hc hmask fun k hk hk' => by
      rw [hres k hk, decide_eq_false hk', Bool.and_false]]
    congr 1
    rw [show j * w + c - pos = (j * w + a - pos) + (c - a) by omega, ← List.range'_append_1,
      List.map_append, show pos + (j * w + a - pos) = j * w + a by omega]
    congr 1
    apply List.ext_getElem
    · simp
    · intro k hk _
      rw [List.length_map, List.length_range'] at hk
      rw [List.getElem_map, List.getElem_map, List.getElem_range', List.getElem_range', Nat.one_mul,
        hres (a + k) (by omega), hin (a + k) (by omega) (by omega),
        decide_eq_true (by omega), Bool.and_true, Nat.add_assoc]

theorem Wrote.whole (test : BitmapTest) (h : Wrote L d d' pos (j * w) b) (hpos : pos ≤ j * w)
    (hin : ∀ k, k < w → (L.conv v).getLsbD k = b (j * w + k)) :
    Wrote L d (Function.update d' (L.word j) v) pos ((j + 1) * w) b ∧
      test.handle (test.result ((List.range' pos (j * w - pos)).map b)) v (.allOnes w) =
        test.result ((List.range' pos ((j + 1) * w - pos)).map b) := by
  have hmask : ∀ k, k < w → (L.conv (.allOnes w)).getLsbD k = decide (0 ≤ k ∧ k < w) := by
    intro k hk
    rw [L.conv_allOnes, BitVec.getLsbD_allOnes]
    simp [hk]
  have hword := h.masked test (a := 0) (c := w) hpos L.word_pos.le L.word_pos le_rfl hmask
    fun k _ hk => hin k hk
  have hand : v &&& BitVec.allOnes w = v := BitVec.and_allOnes
  have hnot : d' (L.word j) &&& ~~~BitVec.allOnes w = 0 := by
    rw [BitVec.not_allOnes]
    exact BitVec.and_zero
  rw [hand, hnot, show v ||| (0 : BitVec w) = v from BitVec.or_zero, ← Nat.succ_mul] at hword
  exact hword

/-! ## The loops -/

/-- The bits up to `q` have been written and tested. -/
def Wrote.Tested (L : Layout w) (test : BitmapTest) (d : Words w) (pos q : Nat) (b : Nat → Bool)
    (r : Words w × Nat) : Prop :=
  Wrote L d r.1 pos q b ∧ r.2 = test.result ((List.range' pos (q - pos)).map b)

theorem writeFirst_tested (test : BitmapTest) (ha : 0 < a) (hw : a + need ≤ w)
    (hin : ∀ k, a ≤ k → k < a + need → (L.conv v).getLsbD k = b (j * w + k)) :
    Wrote.Tested L test d (j * w + a) (j * w + a + need) b
      (L.writeFirst test (L.word j) a need v d) := by
  have hmask : ∀ k, k < w → (L.conv (L.conv (Bitmap.mask a need))).getLsbD k =
      decide (a ≤ k ∧ k < a + need) := by
    intro k _
    rw [L.conv_conv, Bitmap.getLsbD_mask hw]
  have hzero : test.result ((List.range' (j * w + a) (j * w + a - (j * w + a))).map b) = 0 := by
    rw [Nat.sub_self]
    cases test <;> rfl
  have h := (Wrote.refl L d (j * w + a) b).masked test le_rfl (Nat.le_add_right a need) (by omega)
    hw hmask hin
  rw [hzero, ← Nat.add_assoc] at h
  exact h

theorem writeLeftover_tested (h : Wrote.Tested L test d pos ((j + i) * w) b (d', ret))
    (hpos : pos ≤ (j + i) * w) (hin : ∀ k, k < n % w → (L.conv v).getLsbD k = b ((j + i) * w + k)) :
    Wrote.Tested L test d pos ((j + i) * w + n % w) b
      (L.writeLeftover test (L.word j) n i v d' ret) := by
  have hmod := L.mod_lt n
  rw [Layout.writeLeftover]
  split
  · rename_i hzero
    rw [hzero]
    exact h
  · have hmask : ∀ k, k < w → (L.conv (L.conv (Bitmap.lowMask (n % w)))).getLsbD k =
        decide (0 ≤ k ∧ k < n % w) := by
      intro k _
      rw [L.conv_conv, Bitmap.getLsbD_lowMask hmod.le]
      simp
    obtain ⟨h, hret⟩ := h
    dsimp only at h hret ⊢
    rw [hret, L.word_add_dir]
    exact h.masked test (a := 0) hpos (Nat.zero_le _) (by omega) hmod.le hmask fun k _ hk => hin k hk

/-- The loop over whole words and the leftover, up to `total`. `I` is what holds of the state that
the loop carries along. -/
theorem writeWords_tested {σ : Type} {next : σ → Nat → Words w → BitVec w × σ} {I : Nat → σ → Prop}
    {total : Nat}
    (hnext : ∀ i s d', I i s → d' (L.word (j + i)) = d (L.word (j + i)) → (∀ k, k < w → (j + i) * w + k < total → (L.conv (next s i d').1).getLsbD k = b ((j + i) * w + k)) ∧ ((j + i + 1) * w ≤ total → I (i + 1) (next s i d').2))
    :
    ∀ {count i : Nat} {s : σ} {d' : Words w} {ret : Nat}, pos ≤ (j + i) * w →
      Wrote.Tested L test d pos ((j + i) * w) b (d', ret) → I i s →
      total = (j + i) * w + count * w + n % w →
      Wrote.Tested L test d pos total b
        (L.writeWords test (L.word j) n next count i s d' ret) := by
  intro count
  induction count with
  | zero =>
    intro i s d' ret hpos h hI htotal
    have hmod := L.mod_lt n
    obtain ⟨hin, -⟩ := hnext i s d' hI (h.1.later _ le_rfl)
    rw [Nat.zero_mul, Nat.add_zero] at htotal
    rw [Layout.writeWords, htotal]
    exact writeLeftover_tested h hpos fun k hk => hin k (by omega) (by omega)
  | succ count ih =>
    intro i s d' ret hpos h hI htotal
    obtain ⟨hin, hI'⟩ := hnext i s d' hI (h.1.later _ le_rfl)
    have hend : (j + i + 1) * w + count * w + n % w = total := by
      rw [htotal, Nat.succ_mul, Nat.succ_mul]
      omega
    have hstep := Nat.succ_mul (j + i) w
    rw [Nat.succ_eq_add_one] at hstep
    obtain ⟨hwrote, hret⟩ := h
    have hnew := hwrote.whole test hpos fun k hk => hin k hk (by omega)
    dsimp only at hret
    rw [Layout.writeWords, L.word_add_dir]
    refine ih (i := i + 1) (by rw [← Nat.add_assoc]; omega) ?_ (hI' (by omega))
      (by rw [← Nat.add_assoc]; exact hend.symm)
    rw [hret, ← Nat.add_assoc]
    exact hnew

/-- A part of the first word and the rest of the bits, `rest`; `whole` is for bits from the start of
a word on. -/
theorem parts_tested {rest : Words w → Nat → Words w × Nat} (hle : pos ≤ nbits)
    (hfirst : 0 < pos % w → ∀ k, pos % w ≤ k → k < pos % w + min (w - pos % w) (nbits - pos) → (L.conv v).getLsbD k = b (pos / w * w + k))
    (hrest : 0 < pos % w → (pos / w + 1) * w < nbits → ∀ d' ret, Wrote.Tested L test d pos ((pos / w + 1) * w) b (d', ret) → Wrote.Tested L test d pos nbits b (rest d' ret))
    (hwhole : Wrote.Tested L test d pos pos b (d, 0) → pos % w = 0 → Wrote.Tested L test d pos nbits b whole)
    :
    Wrote.Tested L test d pos nbits b
      (if pos % w ≠ 0 then
        let need := min (w - pos % w) (nbits - pos)
        let r := L.writeFirst test (L.word (pos / w)) (pos % w) need v d
        if nbits - pos - need = 0 then r else rest r.1 r.2
      else whole) := by
  have hdiv := Nat.div_add_mod' pos w
  have hmod := L.mod_lt pos
  dsimp only
  split
  · rename_i hne
    have hpos := Nat.pos_of_ne_zero hne
    have h := writeFirst_tested (d := d) test hpos
      (show pos % w + min (w - pos % w) (nbits - pos) ≤ w by omega) (hfirst hpos)
    rw [hdiv] at h
    split
    · rwa [show pos + min (w - pos % w) (nbits - pos) = nbits by omega] at h
    · have hend : pos + min (w - pos % w) (nbits - pos) = (pos / w + 1) * w := by
        rw [Nat.succ_mul]
        omega
      rw [hend] at h
      exact hrest hpos (by omega) _ _ h
  · rename_i hzero
    refine hwhole ⟨.refl L d pos b, ?_⟩ (not_not.mp hzero)
    rw [Nat.sub_self]
    cases test <;> rfl

theorem writeBits_tested {test : BitmapTest} {value : Words w → Int → BitVec w}
    (hle : pos ≤ nbits) (hlt : nbits < 2 ^ 32)
    (hvalue : ∀ j d', d' (L.word j) = d (L.word j) → ∀ k, k < w →
      (L.conv (value d' (L.word j))).getLsbD k = b (j * w + k)) :
    Wrote.Tested L test d pos nbits b (L.writeBits test value d pos nbits) := by
  have hn : (nbits + 2 ^ 32 - pos) % 2 ^ 32 = nbits - pos := by omega
  have hdiv := Nat.div_add_mod' pos w
  have hmod := L.mod_lt pos
  have hwords : ∀ {j n : Nat} {d' : Words w} {ret : Nat}, pos ≤ j * w →
      Wrote.Tested L test d pos (j * w) b (d', ret) → nbits = j * w + n →
      Wrote.Tested L test d pos nbits b (L.writeWords test (L.word j) n
        (fun _ i d' => (value d' (L.word j + L.dir * i), ())) (n / w) 0 () d' ret) := by
    intro j n d' ret hpos h hend
    refine writeWords_tested (I := fun _ _ => True) (fun i s d' _ hlater => ⟨fun k hk _ => ?_,
      fun _ => trivial⟩) hpos h trivial ?_
    · rw [L.word_add_dir]
      exact hvalue (j + i) d' hlater k hk
    · have := Nat.div_add_mod' n w
      rw [Nat.add_zero]
      omega
  rw [Layout.writeBits, hn]
  refine parts_tested hle (fun _ k _ hk => hvalue _ d rfl k (by omega)) ?_ ?_
  · intro hpos hend d' ret h
    have hnext : (pos / w + 1) * w = pos / w * w + w := Nat.succ_mul _ _
    rw [L.word_succ]
    exact hwords (by omega) h (by omega)
  · intro h hzero
    have haligned : pos / w * w = pos := by omega
    exact hwords haligned.ge (by rwa [haligned]) (by omega)

/-! ## The operations -/

theorem getLsbD_read (src : Operand w) (h : d' (L.word j) = d (L.word j)) (hk : k < w) :
    (L.conv (src.read d' (L.word j))).getLsbD k = src.bit L d (j * w + k) := by
  cases src with
  | array src => exact (L.isset_word src hk).symm
  | dest => rw [Operand.read, h, Operand.bit, L.isset_word d hk]
  | word v => rw [Operand.read, Operand.bit, Nat.mul_comm, Nat.mul_add_mod, Nat.mod_eq_of_lt hk]

theorem getLsbD_conv_value2 (op : BitmapOp) (x y : BitVec w) (hk : k < w) :
    (L.conv (op.args.value2 x y)).getLsbD k =
      op.bool ((L.conv x).getLsbD k) ((L.conv y).getLsbD k) := by
  rw [Layout.conv, L.order.getLsbD_conv hk, getLsbD_value2 op x y (L.order.perm_lt hk),
    L.order.getLsbD_conv hk, L.order.getLsbD_conv hk]

theorem getLsbD_conv_value (op : BitmapOp2) (x y : BitVec w) (hk : k < w) :
    (L.conv (op.value x y)).getLsbD k = op.bool ((L.conv x).getLsbD k) ((L.conv y).getLsbD k) := by
  rw [Layout.conv, L.order.getLsbD_conv hk, getLsbD_value op x y (L.order.perm_lt hk),
    L.order.getLsbD_conv hk, L.order.getLsbD_conv hk]

theorem bitmap2Arg_tested (op : BitmapOp2) (test : BitmapTest) (src : Operand w)
    (hle : pos ≤ nbits) (hlt : nbits < 2 ^ 32) :
    Wrote.Tested L test d pos nbits (fun i => op.bool (src.bit L d i) (L.isset d i))
      (L.bitmap2Arg op test d src pos nbits) := by
  refine writeBits_tested hle hlt fun j d' h k hk => ?_
  rw [getLsbD_conv_value op _ _ hk, getLsbD_read src h hk, h, ← L.isset_word d hk]

theorem bitmap3Arg_tested (op : BitmapOp) (test : BitmapTest) (src1 src2 : Operand w)
    (hle : pos ≤ nbits) (hlt : nbits < 2 ^ 32) :
    Wrote.Tested L test d pos nbits (fun i => op.bool (src1.bit L d i) (src2.bit L d i))
      (L.bitmap3Arg op test d src1 src2 pos nbits) := by
  refine writeBits_tested hle hlt fun j d' h k hk => ?_
  rw [getLsbD_conv_value2 op _ _ hk, getLsbD_read src1 h hk, getLsbD_read src2 h hk]

end

end Xdp2
