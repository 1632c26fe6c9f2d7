import Xdp2.Bitmap.GenSpec

/-!
# The operations at different positions, bit by bit

A bit of the destination becomes the operation on the bits of the sources that are as far from their
positions (`bitmap2ArgGen_tested`, `bitmap3ArgGen_tested`), as long as the bits left after the first
word and the offset in a source fit an `unsigned int` (`GenFits`); else a zero word that the loop
does not leave behind comes out again (`genWords2_stuck`).
-/

namespace Xdp2

open BitWord

variable {w : Nat}

/-- The number of bits up to the start of a word. -/
def toWord (w pos : Nat) : Nat := (w - pos % w) % w

/-- The sum that decides about the next word does not overflow for a source array. -/
def GenFits (w dest_pos src_pos nbits : Nat) : Prop :=
  nbits - (dest_pos + toWord w dest_pos) + (src_pos + toWord w dest_pos) % w < 2 ^ 32

theorem toWord_of_pos (hw : 0 < w) (h : 0 < pos % w) : toWord w pos = w - pos % w :=
  Nat.mod_eq_of_lt (by omega)

theorem toWord_of_eq_zero (h : pos % w = 0) : toWord w pos = 0 := by
  rw [toWord, h, Nat.sub_zero, Nat.mod_self]

theorem SrcPos.Stands.mod_eq {src : Source w} {s : SrcPos} (h : s.Stands L src q) : s.mod = q % w := by
  obtain ⟨m, -, hmod, rfl⟩ := h
  rw [Nat.mul_comm, Nat.mul_add_mod, Nat.mod_eq_of_lt hmod]

theorem SrcPos.Stands.eq_array {src : Words w} {s : SrcPos} (h : s.Stands L (.array src) q) : s = ⟨L.word (q / w), q % w⟩ := by
  have hmod := h.mod_eq
  obtain ⟨p, mod⟩ := s
  obtain ⟨m, hat, hlt, hq⟩ := h
  dsimp only at hat hlt hmod hq
  have hdiv : q / w = m := by
    rw [hq, Nat.mul_comm, Nat.mul_add_div L.word_pos, Nat.div_eq_of_lt hlt, Nat.add_zero]
  cases hat
  rw [hmod, hdiv]

section
variable {L : Layout w} {src src1 src2 : Source w} {s s1 s2 : SrcPos} {pos nbits : Nat}

/-! ## The loops -/

theorem genWords2_tested (op : BitmapOp2) (hs : s.Stands L src q) (hfit : src.Fits n s.mod)
    (hpos : pos ≤ j * w) (h : Wrote.Tested L test d pos (j * w) b (d', ret))
    (hb : ∀ k, k < n → b (j * w + k) = op.bool (src.bit L (q + k)) (L.isset d (j * w + k))) :
    Wrote.Tested L test d pos (j * w + n) b
      (L.genWords2 op test src (L.word j) n s d' ret) := by
  have hready := startShift_ready hs hfit
  refine writeWords_tested
    (I := fun i left => Carries L src (L.startShift src n s).1.left_shift (q + i * w) left)
    ?_ hpos h ?_ ?_
  · intro i left d'' hleft hlater
    obtain ⟨hbits, hnext⟩ := nextWord_spec hready hleft
    have hword : (j + i) * w = j * w + i * w := Nat.add_mul j i w
    refine ⟨fun k hk hlt => ?_, fun hle => hnext ?_⟩
    · dsimp only
      rw [getLsbD_conv_value op _ _ hk, hbits k hk (by omega), L.word_add_dir, hlater,
        ← L.isset_word d hk, hword, Nat.add_assoc, Nat.add_assoc, hb _ (by omega)]
    · rw [Nat.succ_mul] at hle ⊢
      omega
  · rw [Nat.zero_mul, Nat.add_zero]
    exact startShift_carries hs
  · rw [Nat.add_zero, Nat.add_assoc, Nat.div_add_mod']

theorem genWords3_tested (op : BitmapOp) (hs1 : s1.Stands L src1 q1) (hfit1 : src1.Fits n s1.mod)
    (hs2 : s2.Stands L src2 q2) (hfit2 : src2.Fits n s2.mod) (hpos : pos ≤ j * w)
    (h : Wrote.Tested L test d pos (j * w) b (d', ret))
    (hb : ∀ k, k < n → b (j * w + k) = op.bool (src1.bit L (q1 + k)) (src2.bit L (q2 + k))) :
    Wrote.Tested L test d pos (j * w + n) b
      (L.genWords3 op test src1 src2 (L.word j) n s1 s2 d' ret) := by
  have hready1 := startShift_ready hs1 hfit1
  have hready2 := startShift_ready hs2 hfit2
  refine writeWords_tested
    (I := fun i left =>
      Carries L src1 (L.startShift src1 n s1).1.left_shift (q1 + i * w) left.1 ∧
        Carries L src2 (L.startShift src2 n s2).1.left_shift (q2 + i * w) left.2)
    ?_ hpos h ?_ ?_
  · intro i left d'' hleft _
    obtain ⟨hbits1, hnext1⟩ := nextWord_spec hready1 hleft.1
    obtain ⟨hbits2, hnext2⟩ := nextWord_spec hready2 hleft.2
    have hword : (j + i) * w = j * w + i * w := Nat.add_mul j i w
    refine ⟨fun k hk hlt => ?_, fun hle => ?_⟩
    · dsimp only
      rw [getLsbD_conv_value2 op _ _ hk, hbits1 k hk (by omega), hbits2 k hk (by omega), hword,
        Nat.add_assoc, Nat.add_assoc, Nat.add_assoc, hb _ (by omega)]
    · have hle' : (i + 1) * w ≤ n := by
        rw [Nat.succ_mul] at hle ⊢
        omega
      exact ⟨hnext1 hle', hnext2 hle'⟩
  · rw [Nat.zero_mul, Nat.add_zero, Nat.add_zero]
    exact ⟨startShift_carries hs1, startShift_carries hs2⟩
  · rw [Nat.add_zero, Nat.add_assoc, Nat.div_add_mod']

/-! ## The operations -/

theorem handleDestMod_toWord (src : Source w) (src_pos : Nat) (hpos : 0 < pos % w)
    (hend : (pos / w + 1) * w < nbits) :
    (L.handleDestMod src (min (w - pos % w) (nbits - pos)) (pos % w)
      ⟨src.start L src_pos, src_pos % w⟩).2.Stands L src (src_pos + toWord w pos) := by
  have hdiv := Nat.div_add_mod' pos w
  have hmod := L.mod_lt pos
  have hnext : (pos / w + 1) * w = pos / w * w + w := Nat.succ_mul _ _
  rw [show min (w - pos % w) (nbits - pos) = w - pos % w by omega, toWord_of_pos L.word_pos hpos]
  exact handleDestMod_stands (stands_start src src_pos) hpos (by omega)

theorem toWord_end (L : Layout w) (pos : Nat) :
    pos + toWord w pos = if pos % w = 0 then pos / w * w else (pos / w + 1) * w := by
  have hdiv := Nat.div_add_mod' pos w
  have hmod := L.mod_lt pos
  split
  · rename_i hzero
    rw [toWord_of_eq_zero hzero]
    omega
  · rename_i hne
    rw [toWord_of_pos L.word_pos (Nat.pos_of_ne_zero hne), Nat.succ_mul]
    omega

theorem bitmap2ArgGen_tested (op : BitmapOp2) (test : BitmapTest) (src : Source w) (src_pos : Nat)
    (hle : pos ≤ nbits) (hlt : nbits < 2 ^ 32)
    (hfit : src.Fits (nbits - (pos + toWord w pos)) ((src_pos + toWord w pos) % w)) :
    Wrote.Tested L test d pos nbits
      (fun i => op.bool (src.bit L (src_pos + (i - pos))) (L.isset d i))
      (L.bitmap2ArgGen op test d pos src src_pos nbits) := by
  have hn : (nbits + 2 ^ 32 - pos) % 2 ^ 32 = nbits - pos := by omega
  have hdiv := Nat.div_add_mod' pos w
  have hmod := L.mod_lt pos
  have hnext : (pos / w + 1) * w = pos / w * w + w := Nat.succ_mul _ _
  have hstart := stands_start (L := L) src src_pos
  have hword := toWord_end L pos
  rw [Layout.bitmap2ArgGen, hn]
  refine parts_tested hle ?_ ?_ ?_
  · intro hpos k hk hk'
    rw [getLsbD_conv_value op _ _ (by omega),
      handleDestMod_bits hstart (by omega) hk hk', ← L.isset_word d (by omega)]
    congr 2
    omega
  · intro hpos hend d' ret h
    have hs := handleDestMod_toWord (L := L) src src_pos hpos hend
    rw [if_neg hpos.ne'] at hword
    rw [hword, ← hs.mod_eq] at hfit
    rw [L.word_succ, show nbits - pos - min (w - pos % w) (nbits - pos) =
      nbits - (pos / w + 1) * w by omega]
    have := genWords2_tested op hs hfit (by omega) h fun k hk => by
      congr 2
      omega
    rwa [show (pos / w + 1) * w + (nbits - (pos / w + 1) * w) = nbits by omega] at this
  · intro h hzero
    rw [if_pos hzero] at hword
    have haligned : pos / w * w = pos := by omega
    rw [hword, haligned, toWord_of_eq_zero hzero, Nat.add_zero] at hfit
    have := genWords2_tested op (j := pos / w) hstart hfit haligned.ge
      (by rwa [haligned]) fun k hk => by
        congr 2
        omega
    rwa [haligned, show pos + (nbits - pos) = nbits by omega] at this

theorem bitmap3ArgGen_tested (op : BitmapOp) (test : BitmapTest) (src1 : Source w) (src1_pos : Nat)
    (src2 : Words w) (src2_pos : Nat) (hle : pos ≤ nbits) (hlt : nbits < 2 ^ 32)
    (hfit1 : src1.Fits (nbits - (pos + toWord w pos)) ((src1_pos + toWord w pos) % w))
    (hfit2 : GenFits w pos src2_pos nbits) :
    Wrote.Tested L test d pos nbits
      (fun i => op.bool (src1.bit L (src1_pos + (i - pos))) (L.isset src2 (src2_pos + (i - pos))))
      (L.bitmap3ArgGen op test d pos src1 src1_pos src2 src2_pos nbits) := by
  have hn : (nbits + 2 ^ 32 - pos) % 2 ^ 32 = nbits - pos := by omega
  have hdiv := Nat.div_add_mod' pos w
  have hmod := L.mod_lt pos
  have hnext : (pos / w + 1) * w = pos / w * w + w := Nat.succ_mul _ _
  have hstart1 := stands_start (L := L) src1 src1_pos
  have hstart2 := stands_start (L := L) (.array src2) src2_pos
  have hfit2 : (Source.array src2).Fits (nbits - (pos + toWord w pos))
    ((src2_pos + toWord w pos) % w) := hfit2
  have hword := toWord_end L pos
  rw [Layout.bitmap3ArgGen, hn]
  refine parts_tested hle ?_ ?_ ?_
  · intro hpos k hk hk'
    rw [getLsbD_conv_value2 op _ _ (by omega), handleDestMod_bits hstart1 (by omega) hk hk',
      handleDestMod_bits hstart2 (by omega) hk hk',
      show k - pos % w = pos / w * w + k - pos by omega]
    rfl
  · intro hpos hend d' ret h
    have hs1 := handleDestMod_toWord (L := L) src1 src1_pos hpos hend
    have hs2 := handleDestMod_toWord (L := L) (.array src2) src2_pos hpos hend
    rw [if_neg hpos.ne'] at hword
    rw [hword, ← hs1.mod_eq] at hfit1
    rw [hword, ← hs2.mod_eq] at hfit2
    rw [L.word_succ, show nbits - pos - min (w - pos % w) (nbits - pos) =
      nbits - (pos / w + 1) * w by omega]
    have := genWords3_tested op hs1 hfit1 hs2 hfit2 (by omega) h fun k hk => by
      rw [show (pos / w + 1) * w + k - pos = toWord w pos + k by omega, Nat.add_assoc,
        Nat.add_assoc]
      rfl
    rwa [show (pos / w + 1) * w + (nbits - (pos / w + 1) * w) = nbits by omega] at this
  · intro h hzero
    rw [if_pos hzero] at hword
    have haligned : pos / w * w = pos := by omega
    rw [hword, haligned, toWord_of_eq_zero hzero, Nat.add_zero] at hfit1 hfit2
    have := genWords3_tested op (j := pos / w) hstart1 hfit1 hstart2 hfit2 haligned.ge
      (by rwa [haligned]) fun k hk => by
        rw [haligned, Nat.add_sub_cancel_left]
        rfl
    rwa [haligned, show pos + (nbits - pos) = nbits by omega] at this

/-! ## The sum overflows -/

theorem writeWords_before {σ : Type} {next : σ → Nat → Words w → BitVec w × σ} :
    ∀ {count i : Nat} {s : σ} {d : Words w} {ret : Nat}, m < j + i →
      (L.writeWords test (L.word j) n next count i s d ret).1 (L.word m) = d (L.word m) := by
  intro count
  induction count with
  | zero =>
    intro i s d ret hlt
    rw [Layout.writeWords, Layout.writeLeftover]
    split
    · rfl
    · dsimp only
      rw [L.word_add_dir, Function.update_of_ne (L.word_injective.ne hlt.ne)]
  | succ count ih =>
    intro i s d ret hlt
    rw [Layout.writeWords, ih (by omega), L.word_add_dir,
      Function.update_of_ne (L.word_injective.ne hlt.ne)]

theorem nextWord_zero (hread : src.read s.p = 0)
    (hread' : src.read (L.startShift src n s).1.p = 0) :
    (L.nextWord src (L.startShift src n s).1 (L.startShift src n s).2 0).1 = 0 := by
  have hzero : L.conv 0#w = 0#w := (L.order.conv_eq_zero 0).mpr rfl
  have hleft : (L.startShift src n s).2 = 0 := by
    rw [Layout.startShift]
    split
    · simp [hread, hzero]
    · exact hread
  simp [Layout.nextWord, hread', hleft, hzero]

theorem startShift_stuck (hmod : s.mod < w) (hn : n < 2 ^ 32) (hover : 2 ^ 32 ≤ n + s.mod) :
    (L.startShift src n s).1.p = s.p := by
  rw [Layout.startShift, if_pos (by omega)]
  dsimp only
  rw [if_neg (by omega)]

theorem genWords2_stuck {op : BitmapOp2}
    (h : (L.nextWord src (L.startShift src n s).1 (L.startShift src n s).2 0).1 = 0)
    (hn : w ≤ n) (hop : ∀ v : BitVec w, op.value 0 v = 0) :
    (L.genWords2 op test src (L.word j) n s d ret).1 (L.word j) = 0 := by
  obtain ⟨count, hcount⟩ : ∃ count, n / w = count + 1 :=
    Nat.exists_eq_succ_of_ne_zero (Nat.div_pos hn L.word_pos).ne'
  rw [Layout.genWords2]
  dsimp only
  rw [hcount, Layout.writeWords, writeWords_before (by omega), L.word_add_dir, Nat.add_zero,
    Function.update_self]
  dsimp only
  rw [h, hop]

theorem genWords3_stuck {op : BitmapOp}
    (h1 : (L.nextWord src1 (L.startShift src1 n s1).1 (L.startShift src1 n s1).2 0).1 = 0)
    (h2 : (L.nextWord src2 (L.startShift src2 n s2).1 (L.startShift src2 n s2).2 0).1 = 0)
    (hn : w ≤ n) (hop : op.args.value2 (0 : BitVec w) 0 = 0) :
    (L.genWords3 op test src1 src2 (L.word j) n s1 s2 d ret).1 (L.word j) = 0 := by
  obtain ⟨count, hcount⟩ : ∃ count, n / w = count + 1 :=
    Nat.exists_eq_succ_of_ne_zero (Nat.div_pos hn L.word_pos).ne'
  rw [Layout.genWords3]
  dsimp only
  rw [hcount, Layout.writeWords, writeWords_before (by omega), L.word_add_dir, Nat.add_zero,
    Function.update_self]
  dsimp only
  rw [h1, h2, hop]

theorem bitmap2ArgGen_words (op : BitmapOp2) (test : BitmapTest) (d : Words w)
    (src : Source w) (src_pos : Nat) (hlt : nbits < 2 ^ 32) (hend : pos + toWord w pos < nbits) :
    ∃ s d' ret, s.Stands L src (src_pos + toWord w pos) ∧
      L.bitmap2ArgGen op test d pos src src_pos nbits =
        L.genWords2 op test src (L.word ((pos + toWord w pos) / w)) (nbits - (pos + toWord w pos))
          s d' ret := by
  have hn : (nbits + 2 ^ 32 - pos) % 2 ^ 32 = nbits - pos := by omega
  have hdiv := Nat.div_add_mod' pos w
  have hmod := L.mod_lt pos
  have hword := toWord_end L pos
  rw [Layout.bitmap2ArgGen, hn]
  dsimp only
  split
  · rename_i hne
    have hpos := Nat.pos_of_ne_zero hne
    have hneed := toWord_of_pos L.word_pos hpos
    rw [if_neg hne] at hword
    have hindex : (pos + toWord w pos) / w = pos / w + 1 := by
      rw [hword, Nat.mul_div_cancel _ L.word_pos]
    rw [if_neg (by omega), L.word_succ, hindex,
      show nbits - pos - min (w - pos % w) (nbits - pos) = nbits - (pos + toWord w pos) by omega]
    exact ⟨_, _, _, handleDestMod_toWord src src_pos hpos (hword ▸ hend), rfl⟩
  · rename_i hzero
    rw [toWord_of_eq_zero (not_not.mp hzero)]
    exact ⟨_, _, _, stands_start src src_pos, rfl⟩

theorem bitmap3ArgGen_words (op : BitmapOp) (test : BitmapTest) (d : Words w) (src1 : Source w)
    (src1_pos : Nat) (src2 : Words w) (src2_pos : Nat) (hlt : nbits < 2 ^ 32)
    (hend : pos + toWord w pos < nbits) :
    ∃ s1 s2 d' ret, s1.Stands L src1 (src1_pos + toWord w pos) ∧
      s2.Stands L (.array src2) (src2_pos + toWord w pos) ∧
      L.bitmap3ArgGen op test d pos src1 src1_pos src2 src2_pos nbits =
        L.genWords3 op test src1 (.array src2) (L.word ((pos + toWord w pos) / w))
          (nbits - (pos + toWord w pos)) s1 s2 d' ret := by
  have hn : (nbits + 2 ^ 32 - pos) % 2 ^ 32 = nbits - pos := by omega
  have hdiv := Nat.div_add_mod' pos w
  have hmod := L.mod_lt pos
  have hword := toWord_end L pos
  rw [Layout.bitmap3ArgGen, hn]
  dsimp only
  split
  · rename_i hne
    have hpos := Nat.pos_of_ne_zero hne
    have hneed := toWord_of_pos L.word_pos hpos
    rw [if_neg hne] at hword
    have hindex : (pos + toWord w pos) / w = pos / w + 1 := by
      rw [hword, Nat.mul_div_cancel _ L.word_pos]
    rw [if_neg (by omega), L.word_succ, hindex,
      show nbits - pos - min (w - pos % w) (nbits - pos) = nbits - (pos + toWord w pos) by omega]
    exact ⟨_, _, _, _, handleDestMod_toWord src1 src1_pos hpos (hword ▸ hend),
      handleDestMod_toWord (.array src2) src2_pos hpos (hword ▸ hend), rfl⟩
  · rename_i hzero
    rw [toWord_of_eq_zero (not_not.mp hzero)]
    exact ⟨_, _, _, _, stands_start src1 src1_pos, stands_start (.array src2) src2_pos, rfl⟩

/-! ## Where the operations are right -/

/-- All bits are set but those in the word of the bit `q`. -/
def gapWords (L : Layout w) (q : Nat) : Words w := fun p =>
  if p = L.word (q / w) then 0 else .allOnes w

theorem isset_gapWords (hne : i / w ≠ q / w) : L.isset (gapWords L q) i = true := by
  rw [← Nat.div_add_mod' i w, L.isset_word _ (L.mod_lt i), gapWords,
    if_neg (L.word_injective.ne hne), L.conv_allOnes, BitVec.getLsbD_allOnes,
    decide_eq_true (L.mod_lt i)]

theorem nextWord_gapWords (hs : s.Stands L (.array (gapWords L q)) q) (hn : n < 2 ^ 32)
    (hover : 2 ^ 32 ≤ n + q % w) :
    (L.nextWord (.array (gapWords L q)) (L.startShift (.array (gapWords L q)) n s).1
      (L.startShift (.array (gapWords L q)) n s).2 0).1 = 0 := by
  have hread : (Source.array (gapWords L q)).read s.p = 0 := by
    rw [hs.eq_array, Source.read, gapWords, if_pos rfl]
  refine nextWord_zero hread ?_
  rw [startShift_stuck (hs.mod_eq ▸ L.mod_lt q) hn (hs.mod_eq ▸ hover)]
  exact hread

theorem not_rewrites (hw : w ≤ 64) (hlt : nbits < 2 ^ 32) (hover : ¬ GenFits w pos src_pos nbits)
    (hzero : d' (L.word ((pos + toWord w pos) / w)) = 0)
    (hb : ∀ i, L.isset (gapWords L (src_pos + toWord w pos)) (src_pos + (i - pos)) = true →
      b i = true) :
    ¬ Rewrites L d d' pos nbits b := by
  intro h
  rw [GenFits] at hover
  have hwpos := L.word_pos
  have hmul : (pos + toWord w pos) / w * w = pos + toWord w pos := by
    rw [toWord_end L pos]
    split <;> rw [Nat.mul_div_cancel _ L.word_pos]
  have hdiv := Nat.div_add_mod' (src_pos + toWord w pos) w
  have hmod := L.mod_lt (src_pos + toWord w pos)
  have hbit := h.bits ((pos + toWord w pos) / w * w + (w - 1))
  rw [L.isset_word _ (by omega), hzero, if_pos (by omega), hb] at hbit
  · rw [show L.conv (0 : BitVec w) = 0 from (L.order.conv_eq_zero 0).mpr rfl] at hbit
    simp at hbit
  · refine isset_gapWords ?_
    rw [hmul, show src_pos + (pos + toWord w pos + (w - 1) - pos) =
      w * ((src_pos + toWord w pos) / w + 1) + ((src_pos + toWord w pos) % w - 1) by
        rw [Nat.mul_add, Nat.mul_comm w]
        omega, Nat.mul_add_div hwpos, Nat.div_eq_of_lt (lt_of_le_of_lt (Nat.sub_le _ _) hmod)]
    exact Nat.succ_ne_self _

variable {src_pos : Nat}

theorem lt_of_not_genFits (L : Layout w) (hw : w ≤ 64) (hover : ¬ GenFits w pos src_pos nbits) :
    pos + toWord w pos < nbits ∧ w ≤ nbits - (pos + toWord w pos) := by
  have := L.mod_lt (src_pos + toWord w pos)
  rw [GenFits] at hover
  omega

theorem bitmap2ArgGen_fails (hw : w ≤ 64) (hlt : nbits < 2 ^ 32)
    (hover : ¬ GenFits w pos src_pos nbits) :
    let src := gapWords L (src_pos + toWord w pos)
    ¬ Rewrites L d (L.bitmap2ArgGen .copy .none d pos (.array src) src_pos nbits).1 pos nbits
      fun i => BitmapOp2.copy.bool (L.isset src (src_pos + (i - pos))) (L.isset d i) := by
  obtain ⟨hend, hn⟩ := lt_of_not_genFits L hw hover
  refine not_rewrites hw hlt hover ?_ fun i h => h
  obtain ⟨s, d', ret, hs, heq⟩ := bitmap2ArgGen_words (L := L) .copy .none d
    (.array (gapWords L (src_pos + toWord w pos))) src_pos hlt hend
  rw [heq]
  exact genWords2_stuck (nextWord_gapWords hs (by omega) (not_lt.mp hover)) hn fun v => rfl

theorem or_zero_zero : BitmapOp.or.args.value2 (0 : BitVec w) 0 = 0 := BitVec.or_self

theorem nextWord_zeroes (hread : ∀ p, src.read p = 0) :
    (L.nextWord src (L.startShift src n s).1 (L.startShift src n s).2 0).1 = 0 :=
  nextWord_zero (hread _) (hread _)

theorem bitmap3ArgGen_fails_left (hw : w ≤ 64) (hlt : nbits < 2 ^ 32)
    (hover : ¬ GenFits w pos src1_pos nbits) :
    ∃ src1 src2 : Words w, ¬ Rewrites L d
      (L.bitmap3ArgGen .or .none d pos (.array src1) src1_pos src2 src2_pos nbits).1 pos nbits
      (fun i => BitmapOp.or.bool (L.isset src1 (src1_pos + (i - pos)))
        (L.isset src2 (src2_pos + (i - pos)))) := by
  obtain ⟨hend, hn⟩ := lt_of_not_genFits L hw hover
  refine ⟨gapWords L (src1_pos + toWord w pos), fun _ => 0, not_rewrites hw hlt hover ?_
    fun i h => by rw [BitmapOp.bool, h, Bool.true_or]⟩
  obtain ⟨s1, s2, d', ret, hs1, -, heq⟩ := bitmap3ArgGen_words (L := L) .or .none d
    (.array (gapWords L (src1_pos + toWord w pos))) src1_pos (fun _ => 0) src2_pos hlt hend
  rw [heq]
  exact genWords3_stuck (nextWord_gapWords hs1 (by omega) (not_lt.mp hover))
    (nextWord_zeroes fun _ => rfl) hn or_zero_zero

theorem bitmap3ArgGen_fails_right (hw : w ≤ 64) (hlt : nbits < 2 ^ 32)
    (hover : ¬ GenFits w pos src2_pos nbits) (src1 : Source w) (hread : ∀ p, src1.read p = 0) :
    ∃ src2 : Words w, ¬ Rewrites L d
      (L.bitmap3ArgGen .or .none d pos src1 src1_pos src2 src2_pos nbits).1 pos nbits
      (fun i => BitmapOp.or.bool (src1.bit L (src1_pos + (i - pos)))
        (L.isset src2 (src2_pos + (i - pos)))) := by
  obtain ⟨hend, hn⟩ := lt_of_not_genFits L hw hover
  refine ⟨gapWords L (src2_pos + toWord w pos), not_rewrites hw hlt hover ?_
    fun i h => by rw [BitmapOp.bool, h, Bool.or_true]⟩
  obtain ⟨s1, s2, d', ret, -, hs2, heq⟩ := bitmap3ArgGen_words (L := L) .or .none d src1
    src1_pos (gapWords L (src2_pos + toWord w pos)) src2_pos hlt hend
  rw [heq]
  exact genWords3_stuck (nextWord_zeroes hread)
    (nextWord_gapWords hs2 (by omega) (not_lt.mp hover)) hn or_zero_zero

end

/-- **The operations with positions of their own**: the bit `k` after the position of the
destination becomes the operation on the bits `k` after the positions of the sources, and no other
bit changes, if for each source array the bits left after the first word and its offset add up to
less than `2 ^ 32`. -/
theorem bitmap_gen_operations (L : Layout w) (hw : w = 8 ∨ w = 16 ∨ w = 32 ∨ w = 64)
    (dest_pos src_pos src1_pos src2_pos nbits : Nat) (hle : dest_pos ≤ nbits)
    (hlt : nbits < 2 ^ 32) :
    ((∀ op test d (src : Words w), Rewrites L d
        (L.bitmap2ArgGen op test d dest_pos (.array src) src_pos nbits).1 dest_pos nbits
        (fun i => op.bool (L.isset src (src_pos + (i - dest_pos))) (L.isset d i))) ↔
      GenFits w dest_pos src_pos nbits) ∧
    (∀ op test d (v : BitVec w), Rewrites L d
        (L.bitmap2ArgGen op test d dest_pos (.word v) src_pos nbits).1 dest_pos nbits
        (fun i => op.bool ((L.conv v).getLsbD ((src_pos + (i - dest_pos)) % w)) (L.isset d i))) ∧
    ((∀ op test d (src1 src2 : Words w), Rewrites L d
        (L.bitmap3ArgGen op test d dest_pos (.array src1) src1_pos src2 src2_pos nbits).1
        dest_pos nbits
        (fun i => op.bool (L.isset src1 (src1_pos + (i - dest_pos)))
          (L.isset src2 (src2_pos + (i - dest_pos))))) ↔
      GenFits w dest_pos src1_pos nbits ∧ GenFits w dest_pos src2_pos nbits) ∧
    ((∀ op test d (v : BitVec w) (src2 : Words w), Rewrites L d
        (L.bitmap3ArgGen op test d dest_pos (.word v) src1_pos src2 src2_pos nbits).1
        dest_pos nbits
        (fun i => op.bool ((L.conv v).getLsbD ((src1_pos + (i - dest_pos)) % w))
          (L.isset src2 (src2_pos + (i - dest_pos))))) ↔
      GenFits w dest_pos src2_pos nbits) := by
  have hw' : w ≤ 64 := by omega
  refine ⟨⟨fun h => ?_, fun hfit op test d src => ?_⟩, fun op test d v => ?_,
    ⟨fun h => ⟨?_, ?_⟩, fun hfit op test d src1 src2 => ?_⟩,
    ⟨fun h => ?_, fun hfit op test d v src2 => ?_⟩⟩
  · by_contra hover
    exact bitmap2ArgGen_fails (d := fun _ => 0) hw' hlt hover (h .copy .none _ _)
  · exact (bitmap2ArgGen_tested op test (.array src) src_pos hle hlt hfit).1.toRewrites
  · exact (bitmap2ArgGen_tested op test (.word v) src_pos hle hlt trivial).1.toRewrites
  · by_contra hover
    obtain ⟨src1, src2, hsrc⟩ := bitmap3ArgGen_fails_left (d := fun _ => 0) hw' hlt hover
    exact hsrc (h .or .none _ src1 src2)
  · by_contra hover
    obtain ⟨src2, hsrc⟩ := bitmap3ArgGen_fails_right (d := fun _ => 0) hw' hlt hover
      (.array fun _ => 0) fun _ => rfl
    exact hsrc (h .or .none _ _ src2)
  · exact (bitmap3ArgGen_tested op test (.array src1) src1_pos src2 src2_pos hle hlt hfit.1
      hfit.2).1.toRewrites
  · by_contra hover
    obtain ⟨src2, hsrc⟩ := bitmap3ArgGen_fails_right (d := fun _ => 0) hw' hlt hover
      (.word 0) fun _ => rfl
    exact hsrc (h .or .none _ _ src2)
  · exact (bitmap3ArgGen_tested op test (.word v) src1_pos src2 src2_pos hle hlt trivial
      hfit).1.toRewrites

/-- Bits of a bitmap of bytes from position 5 on are exclusive-ored with bits from 2 on. -/
theorem bitmap_gen_operations_bytes :
    let L : Layout 8 := ⟨.host 8, 0, by decide⟩
    ∀ d src : Words 8, Rewrites L d
      (L.bitmap2ArgGen (.destsrc .xor) .none d 5 (.array src) 2 30).1 5 30
      fun i => L.isset src (2 + (i - 5)) ^^ L.isset d i := by
  intro L d src
  have h := bitmap_gen_operations L (.inl rfl) 5 2 0 0 30 (by decide) (by decide)
  exact h.1.mpr (by rw [GenFits, toWord]; decide) (.destsrc .xor) .none d src

/-- Nearly `2 ^ 32` bits are copied from position 1 on: the first word of the source is read a
second time in place of the next one. -/
theorem bitmap_copyGen_stuck :
    let L : Layout 8 := ⟨.host 8, 0, by decide⟩
    let src : Words 8 := gapWords L 1
    ¬ Rewrites L (fun _ => 0)
        (L.bitmap2ArgGen .copy .none (fun _ => 0) 0 (.array src) 1 (2 ^ 32 - 1)).1 0 (2 ^ 32 - 1)
        (fun i => L.isset src (1 + i)) := by
  intro L src
  have hover : ¬ GenFits 8 0 1 (2 ^ 32 - 1) := by
    rw [GenFits, toWord]
    decide
  exact bitmap2ArgGen_fails (L := L) (by decide) (by decide) hover

end Xdp2
