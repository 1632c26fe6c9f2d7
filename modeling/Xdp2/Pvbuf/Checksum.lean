import Xdp2.Lib.OnesComplement
import Xdp2.Pvbuf.MakeIovecs

/-!
# Checksums

The functions of `checksum.h` and `__xdp2_pvbuf_checksum`, for a machine with the lowest byte first,
as the code assumes. All give a sum of 16-bit words in one's complement arithmetic
(`OnesComplement.Same`). A leaf that begins at an odd place has its first byte added for itself.
That byte is taken off the length of the leaf before the length is counted down, so if the packet
goes on, another byte is added. `pvbuf_checksum_iff` says for which leaves this does not happen.
-/

namespace Xdp2

open StateError OnesComplement

/-! ## `checksum.h` -/

/-- `__xdp2_checksum_fold32`. -/
def checksumFold32 (val : Nat) : Nat :=
  let val := (val &&& 0xffff) + (val >>> 16)
  let val := val + (val >>> 16)
  val &&& 0xffff

/-- `__xdp2_checksum_fold64`. -/
def checksumFold64 (val : Nat) : Nat :=
  let val := (val &&& 0xffffffff) + (val >>> 32)
  let val := val + (val >>> 32)
  checksumFold32 (val % 2 ^ 32)

/-- `__xdp2_checksum_add16`. -/
def checksumAdd16 (val1 val2 : Nat) : Nat :=
  let sum := (val1 &&& 0xffff) + val2
  let sum := sum + (sum >>> 16)
  (val1 &&& 0xffffffffffff0000) ||| (sum &&& 0xffff)

/-- The number that bytes are read as, the lowest byte first. -/
def wordOf : List UInt8 → Nat
  | [] => 0
  | b :: bs => b.toNat + 256 * wordOf bs

/-- The loop of `__xdp2_checksum_compute` over words of four bytes, and the words of two bytes and of one
byte behind it. -/
def sumWords : (sum : Nat) → List UInt8 → Nat
  | sum, b0 :: b1 :: b2 :: b3 :: src => sumWords ((sum + wordOf [b0, b1, b2, b3]) % 2 ^ 64) src
  | sum, [b0, b1, b2] => ((sum + wordOf [b0, b1]) % 2 ^ 64 + wordOf [b2]) % 2 ^ 64
  | sum, [b0, b1] => (sum + wordOf [b0, b1]) % 2 ^ 64
  | sum, [b0] => (sum + wordOf [b0]) % 2 ^ 64
  | sum, [] => sum

/-- `__xdp2_checksum_compute`. -/
def checksumCompute (src : List UInt8) : PvM Nat := do
  assert (src.length < 2 ^ 32) "Checksum length too big"
  return checksumFold64 (sumWords 0 src)

/-! ## The checksum of a packet -/

/-- `struct __xdp2_pvbuf_iter_checksum`. -/
structure IterChecksum where
  range : Range
  csum_total : Nat := 0
  odd_byte : Bool := false

/-- `__xdp2_pvbuf_iterate_checksum`. -/
def iterateChecksum (ist : IterChecksum) (seg : Seg) : PvM (IterChecksum × Bool) :=
  match ist.range.cut seg.len with
  | none => return ({ ist with range := ist.range.skip seg.len }, true)
  | some (start, len) => do
    let s ← get
    let data := readBytes (seg.region s.mgr.mem) (seg.offset + start) len
    let swap := ist.odd_byte && len != 0
    let csum_total :=
      if swap then checksumAdd16 ist.csum_total ((data.headD 0).toNat <<< 8) else ist.csum_total
    let len := if swap then len - 1 else len
    let data := if swap then data.tail else data
    let csum ← checksumCompute data
    let odd_byte := if len % 2 = 1 then true else if swap then false else ist.odd_byte
    return (⟨(ist.range.count len).1, checksumAdd16 csum_total csum, odd_byte⟩, (ist.range.count len).2)

/-- `__xdp2_pvbuf_checksum`. -/
def pvbufChecksum (c : MgrConfig) (depth : Nat) (pv : Pvbuf) (len offset : Nat) : PvM Nat := do
  let (ist, _) ← pvbufIterate c iterateChecksum depth pv { range := ⟨len, offset⟩ }
  return checksumFold64 ist.csum_total

/-! ## Sums of 16-bit words -/

/-- The sum of the 16-bit words of a list of bytes that begins with the high byte of a word if `odd`. -/
def sum16 : (odd : Bool) → List UInt8 → Nat
  | _, [] => 0
  | odd, b :: bs => (if odd then 256 * b.toNat else b.toNat) + sum16 (!odd) bs

theorem sum16_nil : sum16 odd [] = 0 := by rw [sum16]

theorem sum16_append (odd : Bool) (l l' : List UInt8) :
    sum16 odd (l ++ l') = sum16 odd l + sum16 (odd ^^ l.length.bodd) l' := by
  induction l generalizing odd with
  | nil => simp [sum16]
  | cons b l ih =>
    rw [List.cons_append, sum16, sum16, ih, Nat.add_assoc, List.length_cons, Nat.bodd_succ,
      Bool.not_xor, Bool.xor_not]

theorem sum16_eq_zero_iff : sum16 odd l = 0 ↔ ∀ b ∈ l, b = 0 := by
  induction l generalizing odd with
  | nil => simp [sum16]
  | cons b l ih =>
    have hb : (if odd then 256 * b.toNat else b.toNat) = 0 ↔ b = 0 := by
      rw [← UInt8.toNat_inj]
      split
      · simp
      · rfl
    rw [sum16, Nat.add_eq_zero_iff, ih, hb, List.forall_mem_cons]

theorem same_checksumFold32 (hv : v < 2 ^ 32) : Same 0xffff (checksumFold32 v) v := by
  have hmask : ∀ n, n &&& 0xffff = n % (0xffff + 1) := fun n => Nat.and_two_pow_sub_one_eq_mod n 16
  rw [checksumFold32, hmask, hmask, Nat.shiftRight_eq_div_pow, Nat.shiftRight_eq_div_pow]
  exact (same_carry (M := 0xffff) (by omega)).trans (same_fold 0xffff v)

theorem checksumFold32_le (v : Nat) : checksumFold32 v ≤ 0xffff := Nat.and_le_right

theorem same_checksumFold64 (hv : v < 2 ^ 64) : Same 0xffff (checksumFold64 v) v := by
  have hmask : ∀ n, n &&& 0xffffffff = n % (0xffffffff + 1) := fun n =>
    Nat.and_two_pow_sub_one_eq_mod n 32
  rw [checksumFold64, hmask, Nat.shiftRight_eq_div_pow, Nat.shiftRight_eq_div_pow]
  refine (same_checksumFold32 (Nat.mod_lt _ (by decide))).trans ?_
  have hdvd : 0xffff ∣ 0xffffffff := by decide
  exact ((same_carry (M := 0xffffffff) (by omega)).trans (same_fold 0xffffffff v)).of_dvd hdvd

theorem checksumFold64_le (v : Nat) : checksumFold64 v ≤ 0xffff := checksumFold32_le _

theorem and_high_words (ht : t < 2 ^ 16) : t &&& 0xffffffffffff0000 = 0 := by
  have hhigh : (0xffffffffffff0000 : Nat) = (2 ^ 48 - 1) <<< 16 := by decide
  apply Nat.eq_of_testBit_eq
  intro i
  rw [hhigh, Nat.testBit_and, Nat.testBit_shiftLeft, Nat.zero_testBit]
  by_cases hi : 16 ≤ i
  · rw [Nat.testBit_eq_false_of_lt (ht.trans_le (Nat.pow_le_pow_right (by decide) hi)), Bool.false_and]
  · simp [hi]

theorem same_checksumAdd16 (ht : t ≤ 0xffff) (hu : u ≤ 0xffff) :
    Same 0xffff (checksumAdd16 t u) (t + u) ∧ checksumAdd16 t u ≤ 0xffff := by
  have hmask : ∀ n, n &&& 0xffff = n % (0xffff + 1) := fun n => Nat.and_two_pow_sub_one_eq_mod n 16
  have htmod : t % (0xffff + 1) = t := Nat.mod_eq_of_lt (by omega)
  rw [checksumAdd16, and_high_words (by omega), Nat.zero_or, hmask, hmask, htmod,
    Nat.shiftRight_eq_div_pow]
  exact ⟨same_carry (M := 0xffff) (by omega), by omega⟩

theorem same_wordOf (b0 b1 b2 b3 : UInt8) :
    Same 0xffff (wordOf [b0, b1, b2, b3]) (sum16 false [b0, b1, b2, b3]) := by
  simp only [wordOf, sum16, Bool.not_false, Bool.not_true, if_true, Bool.false_eq_true, if_false]
  constructor <;> omega

theorem wordOf_lt (l : List UInt8) : wordOf l < 256 ^ l.length := by
  induction l with
  | nil => exact Nat.one_pos
  | cons b l ih =>
    have hb := b.toNat_lt
    rw [wordOf, List.length_cons, Nat.pow_succ]
    omega

theorem same_sumWords (sum : Nat) (l : List UInt8) (h : sum + l.length * 2 ^ 31 < 2 ^ 64) :
    Same 0xffff (sumWords sum l) (sum + sum16 false l) ∧ sumWords sum l < 2 ^ 64 := by
  induction sum, l using sumWords.induct with
  | case1 sum b0 b1 b2 b3 src ih =>
    have hword : wordOf [b0, b1, b2, b3] < 2 ^ 32 := by
      have hlt := wordOf_lt [b0, b1, b2, b3]
      norm_num at hlt ⊢
      exact hlt
    simp only [List.length_cons] at h
    have hmod : (sum + wordOf [b0, b1, b2, b3]) % 2 ^ 64 = sum + wordOf [b0, b1, b2, b3] :=
      Nat.mod_eq_of_lt (by omega)
    have hsplit : sum16 false (b0 :: b1 :: b2 :: b3 :: src) =
        sum16 false [b0, b1, b2, b3] + sum16 false src := by
      simpa [Nat.bodd_succ] using sum16_append false [b0, b1, b2, b3] src
    rw [hmod] at ih
    obtain ⟨hsame, hlt⟩ := ih (by omega)
    rw [sumWords, hmod, hsplit, ← Nat.add_assoc]
    exact ⟨hsame.trans (((Same.refl sum).add (same_wordOf b0 b1 b2 b3)).add (.refl _)), hlt⟩
  | case2 sum b0 b1 b2 =>
    have heq : sumWords sum [b0, b1, b2] = sum + sum16 false [b0, b1, b2] ∧
        sumWords sum [b0, b1, b2] < 2 ^ 64 := by
      have h0 := b0.toNat_lt
      have h1 := b1.toNat_lt
      have h2 := b2.toNat_lt
      simp only [sumWords, wordOf, sum16, List.length_cons, List.length_nil, Bool.not_false,
        Bool.not_true, if_true, Bool.false_eq_true, if_false] at h ⊢
      omega
    exact ⟨heq.1 ▸ .refl _, heq.2⟩
  | case3 sum b0 b1 =>
    have heq : sumWords sum [b0, b1] = sum + sum16 false [b0, b1] ∧
        sumWords sum [b0, b1] < 2 ^ 64 := by
      have h0 := b0.toNat_lt
      have h1 := b1.toNat_lt
      simp only [sumWords, wordOf, sum16, List.length_cons, List.length_nil, Bool.not_false,
        if_true, Bool.false_eq_true, if_false] at h ⊢
      omega
    exact ⟨heq.1 ▸ .refl _, heq.2⟩
  | case4 sum b0 =>
    have heq : sumWords sum [b0] = sum + sum16 false [b0] ∧ sumWords sum [b0] < 2 ^ 64 := by
      have h0 := b0.toNat_lt
      simp only [sumWords, wordOf, sum16, List.length_cons, List.length_nil, Bool.false_eq_true,
        if_false] at h ⊢
      omega
    exact ⟨heq.1 ▸ .refl _, heq.2⟩
  | case5 sum =>
    rw [List.length_nil] at h
    exact ⟨.refl sum, by rw [sumWords]; omega⟩

theorem checksumCompute_run (l : List UInt8) (hl : l.length < 2 ^ 32) (st : PvSt) :
    ∃ v, (checksumCompute l).run st = .ok v st ∧ Same 0xffff v (sum16 false l) ∧ v ≤ 0xffff := by
  have hsum := same_sumWords 0 l (by omega)
  rw [Nat.zero_add] at hsum
  refine ⟨checksumFold64 (sumWords 0 l), ?_, (same_checksumFold64 hsum.2).trans hsum.1,
    checksumFold64_le _⟩
  rw [checksumCompute, run_bind_ok (assert_run (decide_eq_true hl) _ st)]
  rfl

/-! ## What the walk takes -/

/-- What is counted down for `n` bytes: the first byte at an odd place is not counted. -/
def counted (odd : Bool) (n : Nat) : Nat := if odd && n != 0 then n - 1 else n

/-- The bytes that the walk takes of the leaves from the offset on, where `r` is what is left of the length
by its count, and `odd` if it is at an odd place. -/
def taken : (r : Nat) → (odd : Bool) → List (List UInt8) → List UInt8
  | _, _, [] => []
  | r, odd, b :: bs =>
    if r = 0 then b ++ taken 0 (odd ^^ b.length.bodd) bs
    else
      let n := min r b.length
      let left := r - counted odd n
      b.take n ++ if left = 0 then [] else taken left (odd ^^ n.bodd) bs

theorem iterateChecksum_swapped (st : PvSt) (htotal : ist.csum_total ≤ 0xffff)
    (hcut : ist.range.cut seg.len = some (start, n)) (hodd : ist.odd_byte = true) (hn : n ≠ 0) :
    ∃ total, (iterateChecksum ist seg).run st =
        .ok (⟨(ist.range.count (n - 1)).1, total, !n.bodd⟩, (ist.range.count (n - 1)).2) st ∧
      total ≤ 0xffff ∧ Same 0xffff total (ist.csum_total +
        sum16 true (readBytes (seg.region st.mgr.mem) (seg.offset + start) n)) := by
  have hlen := seg.len_lt
  have hle := Range.cut_le hcut
  obtain ⟨m, rfl⟩ : ∃ m, n = m + 1 := ⟨n - 1, by omega⟩
  obtain ⟨b, rest, hdata, hrest⟩ : ∃ b rest,
      readBytes (seg.region st.mgr.mem) (seg.offset + start) (m + 1) = b :: rest ∧
        rest.length = m := by
    rw [readBytes, List.range'_succ, List.map_cons]
    exact ⟨_, _, rfl, by simp⟩
  have hb := b.toNat_lt
  obtain ⟨v, hrun, hsame, hv⟩ := checksumCompute_run rest (by omega) st
  obtain ⟨hfirst, hfirst_le⟩ :=
    same_checksumAdd16 (u := b.toNat <<< 8) htotal (by rw [Nat.shiftLeft_eq]; omega)
  obtain ⟨hsecond, hsecond_le⟩ := same_checksumAdd16 hfirst_le hv
  refine ⟨_, ?_, hsecond_le, ?_⟩
  · have hpar : (if m % 2 = 1 then true else false) = !(m + 1).bodd := by
      rw [Nat.bodd_succ, Bool.not_not, Nat.mod_two_of_bodd]
      cases m.bodd <;> rfl
    rw [iterateChecksum, hcut]
    dsimp only
    rw [run_bind_ok (run_get st), hdata, hodd]
    have hswap : (true && m + 1 != 0) = true := rfl
    simp only [hswap, if_true, List.headD_cons, List.tail_cons, Nat.add_sub_cancel]
    rw [run_bind_ok hrun, hpar]
    rfl
  · rw [hdata, sum16, if_pos rfl, ← Nat.add_assoc, Bool.not_true]
    have hshift : b.toNat <<< 8 = 256 * b.toNat := by rw [Nat.shiftLeft_eq, Nat.mul_comm]
    rw [← hshift]
    exact hsecond.trans (hfirst.add hsame)

theorem iterateChecksum_straight (htotal : ist.csum_total ≤ 0xffff)
    (hcut : ist.range.cut seg.len = some (start, n)) (hodd : ist.odd_byte = false ∨ n = 0) :
    ∃ total, (iterateChecksum ist seg).run st =
        .ok (⟨(ist.range.count n).1, total, ist.odd_byte ^^ n.bodd⟩, (ist.range.count n).2) st ∧
      total ≤ 0xffff ∧ Same 0xffff total (ist.csum_total +
        sum16 ist.odd_byte (readBytes (seg.region st.mgr.mem) (seg.offset + start) n)) := by
  have hlen := seg.len_lt
  have hle := Range.cut_le hcut
  obtain ⟨data, hdata⟩ : ∃ data,
      readBytes (seg.region st.mgr.mem) (seg.offset + start) n = data := ⟨_, rfl⟩
  have hlength : data.length = n := by rw [← hdata, length_readBytes]
  obtain ⟨v, hrun, hsame, hv⟩ := checksumCompute_run data (by omega) st
  obtain ⟨hadd, hadd_le⟩ := same_checksumAdd16 htotal hv
  have hsum : sum16 ist.odd_byte data = sum16 false data := by
    rcases hodd with hodd | rfl
    · rw [hodd]
    · rw [List.length_eq_zero_iff.mp hlength]
      rfl
  refine ⟨_, ?_, hadd_le, ?_⟩
  · have hswap : (ist.odd_byte && n != 0) = false := by
      rcases hodd with hodd | rfl
      · rw [hodd, Bool.false_and]
      · exact Bool.and_false _
    have hpar : (if n % 2 = 1 then true else ist.odd_byte) = (ist.odd_byte ^^ n.bodd) := by
      rw [Nat.mod_two_of_bodd]
      rcases hodd with hodd | rfl
      · rw [hodd]
        cases n.bodd <;> rfl
      · simp
    rw [iterateChecksum, hcut]
    dsimp only
    rw [run_bind_ok (run_get st), hdata, hswap]
    simp only [Bool.false_eq_true, if_false]
    rw [run_bind_ok hrun, hpar]
    rfl
  · rw [hdata, hsum]
    exact hadd.trans ((Same.refl _).add hsame)

theorem iterateChecksum_spec (st : PvSt) (htotal : ist.csum_total ≤ 0xffff)
    (hcut : ist.range.cut seg.len = some (start, n)) :
    ∃ total, (iterateChecksum ist seg).run st =
        .ok (⟨(ist.range.count (counted ist.odd_byte n)).1, total, ist.odd_byte ^^ n.bodd⟩,
          (ist.range.count (counted ist.odd_byte n)).2) st ∧
      total ≤ 0xffff ∧ Same 0xffff total (ist.csum_total +
        sum16 ist.odd_byte (readBytes (seg.region st.mgr.mem) (seg.offset + start) n)) := by
  by_cases hswap : ist.odd_byte = true ∧ n ≠ 0
  · have hcount : counted true n = n - 1 := by simp [counted, hswap.2]
    have hspec := iterateChecksum_swapped st htotal hcut hswap.1 hswap.2
    rw [hswap.1, hcount, Bool.true_xor]
    exact hspec
  · have hodd : ist.odd_byte = false ∨ n = 0 := by
      cases h : ist.odd_byte with
      | false => exact .inl rfl
      | true => exact .inr (by by_contra hn; exact hswap ⟨h, hn⟩)
    have hcount : counted ist.odd_byte n = n := by
      rcases hodd with hodd | rfl
      · simp [counted, hodd]
      · simp [counted]
    rw [hcount]
    exact iterateChecksum_straight htotal hcut hodd

theorem iterateChecksum_returns (ist : IterChecksum) (seg : Seg) (st : PvSt) :
    Returns (iterateChecksum ist seg) st fun _ _ => True := by
  have hlen := seg.len_lt
  rw [iterateChecksum]
  cases hcut : ist.range.cut seg.len with
  | none => exact ⟨_, _, rfl, trivial⟩
  | some p =>
    obtain ⟨start, n⟩ := p
    have hle := Range.cut_le hcut
    refine .step (run_get st) ?_
    obtain ⟨v, hrun, -⟩ := checksumCompute_run
      (if (ist.odd_byte && n != 0) = true then
          (readBytes (seg.region st.mgr.mem) (seg.offset + start) n).tail
        else readBytes (seg.region st.mgr.mem) (seg.offset + start) n)
      (by split <;> simp <;> omega) st
    exact .step hrun ⟨_, _, rfl, trivial⟩

theorem walk_checksum (segs : List Seg) (ist : IterChecksum) (st : PvSt)
    (htotal : ist.csum_total ≤ 0xffff) :
    ∃ ist' cont, (walkLeaves iterateChecksum segs ist).run st = .ok (ist', cont) st ∧
      ist'.csum_total ≤ 0xffff ∧ Same 0xffff ist'.csum_total (ist.csum_total +
        sum16 ist.odd_byte (taken ist.range.len ist.odd_byte
          ((leavesFrom ist.range.offset segs).map (SysIovec.bytes st.mgr.mem)))) := by
  induction segs generalizing ist with
  | nil => exact ⟨ist, true, rfl, htotal, .refl _⟩
  | cons seg segs ih =>
    rw [walkLeaves]
    cases hcut : ist.range.cut seg.len with
    | none =>
      have hskip := Range.cut_none_iff.mp hcut
      have hrun : (iterateChecksum ist seg).run st =
          .ok ({ ist with range := ist.range.skip seg.len }, true) st := by
        rw [iterateChecksum, hcut]
        rfl
      rw [leavesFrom, if_pos hskip, run_bind_ok hrun]
      exact ih { ist with range := ist.range.skip seg.len } htotal
    | some p =>
      obtain ⟨start, n⟩ := p
      obtain ⟨rfl, hle, hzero, hpos⟩ := Range.cut_some hcut
      have hskip : ¬ (ist.range.offset ≠ 0 ∧ seg.len ≤ ist.range.offset) := fun h => by
        rw [Range.cut_none_iff.mpr h] at hcut
        cases hcut
      obtain ⟨total, hrun, htotal', hsame⟩ := iterateChecksum_spec st htotal hcut
      have hrest := ih ⟨(ist.range.count (counted ist.odd_byte n)).1, total, ist.odd_byte ^^ n.bodd⟩
        htotal'
      rw [leavesFrom, if_neg hskip, List.map_cons, run_bind_ok hrun]
      obtain ⟨b, hb⟩ : ∃ b, SysIovec.bytes st.mgr.mem
          ⟨seg.place, seg.offset + ist.range.offset, seg.len - ist.range.offset⟩ = b := ⟨_, rfl⟩
      have hlength : b.length = seg.len - ist.range.offset := by rw [← hb]; exact length_readBytes _ _ _
      have hpart : readBytes (seg.region st.mgr.mem) (seg.offset + ist.range.offset) n = b.take n := by
        have hn := Range.cut_le hcut
        rw [← hb, SysIovec.bytes, take_readBytes _ _ (by dsimp only; omega), Seg.region_eq]
      rw [hpart] at hsame
      rw [hb, taken]
      by_cases hr : ist.range.len = 0
      · have hcount : ist.range.count (counted ist.odd_byte n) = (⟨0, 0⟩, true) := by
          rw [Range.count, if_neg (not_not.mpr hr)]
        have hall : b.take n = b := by
          rw [hzero hr, ← hlength, List.take_length]
        have hn : n = b.length := by rw [hzero hr, hlength]
        rw [hcount] at hrest ⊢
        rw [hall] at hsame
        obtain ⟨ist', cont, hwalk, hle', hsame'⟩ := hrest
        refine ⟨ist', cont, hwalk, hle', hsame'.trans ?_⟩
        rw [if_pos hr, sum16_append, ← Nat.add_assoc, ← hn]
        exact hsame.add (.refl _)
      · have hcount : ist.range.count (counted ist.odd_byte n) =
            (⟨ist.range.len - counted ist.odd_byte n, 0⟩,
              decide (ist.range.len - counted ist.odd_byte n ≠ 0)) := Range.count_of_len hr
        have hn : min ist.range.len b.length = n := by rw [hlength, hpos hr]
        have htake : (b.take n).length = n := by rw [List.length_take]; omega
        rw [if_neg hr]
        dsimp only
        rw [hn, sum16_append, ← Nat.add_assoc, htake]
        rw [hcount] at hrest ⊢
        by_cases hleft : ist.range.len - counted ist.odd_byte n = 0
        · rw [if_pos hleft, sum16_nil, Nat.add_zero]
          refine ⟨⟨⟨ist.range.len - counted ist.odd_byte n, 0⟩, total, ist.odd_byte ^^ n.bodd⟩, false,
            ?_, htotal', hsame⟩
          rw [decide_eq_false (not_not.mpr hleft)]
          rfl
        · obtain ⟨ist', cont, hwalk, hle', hsame'⟩ := hrest
          rw [if_neg hleft, decide_eq_true hleft]
          exact ⟨ist', cont, hwalk, hle', hsame'.trans (hsame.add (.refl _))⟩

/-! ## When it takes the range -/

/-- A leaf begins at an odd place of the first `r` bytes, with more behind it, and those are not all there
is. -/
def OddBreak (r : Nat) (odd : Bool) (lens : List Nat) : Prop :=
  r < lens.sum ∧ ∃ pre l post, lens = pre ++ l :: post ∧ (odd ^^ pre.sum.bodd) = true ∧ pre.sum < r ∧
    0 < l ∧ 0 < post.sum

theorem counted_le (odd : Bool) (n : Nat) : counted odd n ≤ n := by
  rw [counted]
  split <;> omega

theorem counted_of_not_swap (h : ¬ (odd = true ∧ n ≠ 0)) : counted odd n = n := by
  rw [counted, if_neg]
  simpa using h

theorem taken_zero : taken 0 odd bs = bs.flatten := by
  induction bs generalizing odd with
  | nil => rfl
  | cons b bs ih => rw [taken, if_pos rfl, ih, List.flatten_cons]

theorem taken_all (h : bs.flatten.length ≤ r) : taken r odd bs = bs.flatten := by
  induction bs generalizing r odd with
  | nil => rfl
  | cons b bs ih =>
    rw [List.flatten_cons, List.length_append] at h
    rw [taken, List.flatten_cons]
    have hle := counted_le odd b.length
    split
    · rw [ih (by omega)]
    · dsimp only
      rw [Nat.min_eq_right (by omega), List.take_length]
      split
      · have hnil : bs.flatten = [] := List.eq_nil_of_length_eq_zero (by omega)
        rw [hnil]
      · rw [ih (by omega)]

theorem OddBreak.cons (hl : l ≤ r) (h : OddBreak (r - l) (odd ^^ l.bodd) lens) :
    OddBreak r odd (l :: lens) := by
  obtain ⟨hsum, pre, k, post, rfl, hodd, hpre, hk, hpost⟩ := h
  refine ⟨by rw [List.sum_cons]; omega, l :: pre, k, post, rfl, ?_, by rw [List.sum_cons]; omega, hk,
    hpost⟩
  rw [List.sum_cons, Nat.bodd_add, ← Bool.xor_assoc]
  exact hodd

theorem taken_range (hr : r ≠ 0) (h : ¬ OddBreak r odd (bs.map List.length)) :
    taken r odd bs = bs.flatten.take r := by
  induction bs generalizing r odd with
  | nil => simp [taken]
  | cons b bs ih =>
    by_cases hall : (b :: bs).flatten.length ≤ r
    · rw [taken_all hall, List.take_of_length_le hall]
    have hmore : r < ((b :: bs).map List.length).sum := by
      rw [← List.length_flatten]
      omega
    rw [taken, if_neg hr, List.flatten_cons]
    dsimp only
    by_cases hswap : odd = true ∧ b.length ≠ 0
    · -- nothing may follow this leaf
      have hnone : (bs.map List.length).sum = 0 := by
        by_contra hpos
        exact h ⟨hmore, [], b.length, bs.map List.length, rfl, by simp [hswap.1], by simp; omega,
          by omega, by omega⟩
      have hnil : bs.flatten = [] := List.eq_nil_of_length_eq_zero (by rw [List.length_flatten]; exact hnone)
      rw [List.map_cons, List.sum_cons, hnone, Nat.add_zero] at hmore
      rw [hnil, List.append_nil, Nat.min_eq_left hmore.le]
      split
      · rw [List.append_nil]
      · rw [taken_all (by rw [hnil]; exact Nat.zero_le _), hnil, List.append_nil]
    · have hcount := counted_of_not_swap (n := min r b.length) fun h => hswap ⟨h.1, by omega⟩
      rw [hcount, List.take_append]
      by_cases hlast : r ≤ b.length
      · rw [Nat.min_eq_left hlast, Nat.sub_self, if_pos rfl, Nat.sub_eq_zero_of_le hlast,
          List.take_zero]
      · have hle : b.length ≤ r := by omega
        rw [Nat.min_eq_right hle, if_neg (by omega), List.take_of_length_le hle, List.take_length,
          ih (by omega) fun hbreak => h (hbreak.cons hle)]

/-- The first `t` bytes are zero, and all that follow are one. -/
def Stepped (t : Nat) (l : List UInt8) : Prop := ∀ i (h : i < l.length), l[i] = if i < t then 0 else 1

theorem stepped_append :
    Stepped t (l ++ l') ↔ Stepped t l ∧ Stepped (t - l.length) l' := by
  have hiff : ∀ i, l.length + i < t ↔ i < t - l.length := fun i => by omega
  constructor
  · intro h
    refine ⟨fun i hi => ?_, fun i hi => ?_⟩
    · have hi' := h i (by rw [List.length_append]; omega)
      rwa [List.getElem_append_left hi] at hi'
    · have hi' := h (l.length + i) (by rw [List.length_append]; omega)
      rw [List.getElem_append_right (Nat.le_add_right _ _)] at hi'
      simpa only [Nat.add_sub_cancel_left, hiff] using hi'
  · rintro ⟨h, h'⟩ i hi
    by_cases hlt : i < l.length
    · rw [List.getElem_append_left hlt]
      exact h i hlt
    · obtain ⟨j, rfl⟩ := Nat.exists_eq_add_of_le (Nat.le_of_not_lt hlt)
      rw [List.length_append] at hi
      have hj := h' j (by omega)
      rw [List.getElem_append_right (Nat.le_add_right _ _)]
      simpa only [Nat.add_sub_cancel_left, hiff] using hj

theorem Stepped.drop (h : Stepped (k + t) l) : Stepped t (l.drop k) := by
  intro i hi
  rw [List.length_drop] at hi
  rw [List.getElem_drop, h (k + i) (by omega)]
  simp only [Nat.add_lt_add_iff_left]

theorem Stepped.one_mem (h : Stepped t l) (htn : t < n) (htl : t < l.length) :
    1 ∈ l.take n := by
  have ht := h t htl
  rw [if_neg (Nat.lt_irrefl t)] at ht
  rw [← ht]
  exact List.mem_take_iff_getElem.mpr ⟨t, by omega, rfl⟩

theorem taken_beyond (hr : t < r) (hsum : t < (bs.map List.length).sum) (h : Stepped t bs.flatten) :
    1 ∈ taken r odd bs := by
  induction bs generalizing r t odd with
  | nil => simp at hsum
  | cons b bs ih =>
    rw [List.flatten_cons] at h
    obtain ⟨hb, hbs⟩ := stepped_append.mp h
    rw [List.map_cons, List.sum_cons] at hsum
    have hle := counted_le odd (min r b.length)
    rw [taken, if_neg (by omega)]
    dsimp only
    by_cases hlast : t < b.length
    · exact List.mem_append_left _ (hb.one_mem (by omega) hlast)
    · rw [if_neg (by omega)]
      exact List.mem_append_right _ (ih (by omega) (by omega) hbs)

theorem taken_break (h : OddBreak r odd (bs.map List.length)) (hstep : Stepped r bs.flatten) :
    1 ∈ taken r odd bs := by
  induction bs generalizing r odd with
  | nil =>
    obtain ⟨hsum, -⟩ := h
    simp at hsum
  | cons b bs ih =>
    obtain ⟨hsum, pre, l, post, hlens, hodd, hpre, hl, hpost⟩ := h
    rw [List.flatten_cons] at hstep
    obtain ⟨-, hbs⟩ := stepped_append.mp hstep
    rw [List.map_cons] at hsum hlens
    rw [List.sum_cons] at hsum
    rw [taken, if_neg (by omega)]
    dsimp only
    by_cases hswap : odd = true ∧ b.length ≠ 0
    · -- from here on one byte more is counted than is left
      have hcount : counted odd (min r b.length) = min r b.length - 1 := by
        rw [counted, if_pos]
        simp only [hswap.1, Bool.true_and, bne_iff_ne, ne_eq]
        omega
      have hrest : r - b.length < (bs.map List.length).sum := by
        cases pre with
        | nil =>
          obtain ⟨-, rfl⟩ := List.cons.inj hlens
          omega
        | cons k pre =>
          obtain ⟨rfl, -⟩ := List.cons.inj hlens
          rw [List.sum_cons] at hpre
          omega
      rw [hcount, if_neg (by omega)]
      exact List.mem_append_right _ (taken_beyond (by omega) hrest hbs)
    · cases pre with
      | nil =>
        obtain ⟨rfl, -⟩ := List.cons.inj hlens
        exact (hswap ⟨by simpa using hodd, by omega⟩).elim
      | cons k pre =>
        obtain ⟨rfl, hlens'⟩ := List.cons.inj hlens
        rw [List.sum_cons] at hpre hodd
        rw [Nat.bodd_add, ← Bool.xor_assoc] at hodd
        have hcount := counted_of_not_swap (n := min r b.length) fun h => hswap ⟨h.1, by omega⟩
        rw [hcount, Nat.min_eq_right (by omega), if_neg (by omega)]
        exact List.mem_append_right _
          (ih ⟨by omega, pre, l, post, hlens', hodd, by omega, hl, hpost⟩ hbs)

/-! ## Packets by the lengths of their leaves -/

/-- The lengths of the leaves from an offset on, the first without the bytes before it. -/
def lensFrom : (offset : Nat) → List Nat → List Nat
  | _, [] => []
  | offset, l :: lens =>
    if offset ≠ 0 ∧ l ≤ offset then lensFrom (offset - l) lens else (l - offset) :: lensFrom 0 lens

theorem lens_leavesFrom (mem : Mem) (offset : Nat) (segs : List Seg) :
    ((leavesFrom offset segs).map (SysIovec.bytes mem)).map List.length =
      lensFrom offset (segs.map Seg.len) := by
  induction segs generalizing offset with
  | nil => rfl
  | cons s segs ih =>
    rw [leavesFrom, List.map_cons, lensFrom]
    split
    · exact ih _
    · rw [List.map_cons, List.map_cons, ih, SysIovec.bytes, length_readBytes]

/-- A packet with the given leaves at long addresses, one in each pvbuf. -/
def longChain : List (LongAddr × LongAddr2) → Pvbuf
  | [] => .zero 0 0
  | p :: ps =>
    { pvbuf_size := 0
      index := 0
      iovec_map := 0b111
      iovec := [.long p.1, .long2 p.2, .pvbuf 0 (longChain ps), .null, .null, .null, .null] }

theorem longChain_spec (ps : List (LongAddr × LongAddr2))
    (hfits : ∀ p ∈ ps, (Seg.long p.1 p.2).Fits) :
    Wf (ps.length + 1) (longChain ps) ∧ (longChain ps).segs = ps.map (fun p => .long p.1 p.2) ∧
      ∀ o ∈ (longChain ps).objs, o = (0, 0) := by
  induction ps with
  | nil =>
    have hslots : Slots (longChain []) (entrySlots (gaps 7)) := by
      rw [entrySlots_gaps]
      exact PvbufOf.zero_slots 0 0
    refine ⟨⟨gaps 7, hslots, forall_ok_gaps 7⟩, ?_, ?_⟩
    · rw [hslots.segs_eq, entrySegs_gaps]
      rfl
    · rw [hslots.objs_eq, entryObjs_gaps]
      exact fun o ho => List.mem_singleton.mp ho
  | cons p ps ih =>
    obtain ⟨hwf, hsegs, hobjs⟩ := ih fun q hq => hfits q (List.mem_cons_of_mem p hq)
    have hslots : Slots (longChain (p :: ps))
        (entrySlots ([.seg (.long p.1 p.2), .sub 0 (longChain ps)] ++ gaps 4)) := by
      have hsize : (longChain (p :: ps)).pvbuf_size = 0 := rfl
      have hmap : (longChain (p :: ps)).iovec_map = 0b111 := rfl
      have hnum : (longChain (p :: ps)).num = 7 := by
        rw [PvbufOf.num, hsize]
        decide
      refine Slots.of_lt rfl (by rw [hnum]; rfl) fun i hi => ?_
      rw [hmap]
      interval_cases i <;> rfl
    refine ⟨⟨_, hslots, fun e he => ?_⟩, ?_, ?_⟩
    · rcases List.mem_append.mp he with he | he
      · simp only [List.mem_cons, List.not_mem_nil, or_false] at he
        rcases he with rfl | rfl
        · exact hfits p List.mem_cons_self
        · exact ⟨hwf, .inl rfl⟩
      · exact forall_ok_gaps 4 e he
    · rw [hslots.segs_eq, List.map_cons, ← hsegs]
      simp [IovEntry.segs]
    · rw [hslots.objs_eq]
      intro o ho
      simp only [entryObjs_append, entryObjs_cons, entryObjs_nil, entryObjs_gaps, IovEntry.objs,
        List.append_nil, List.nil_append, List.mem_cons] at ho
      rcases ho with rfl | ho
      · rfl
      · exact hobjs o ho

/-- Addresses for leaves of the given lengths, such that there are `t` zeros and then ones. -/
def steppedAddrs : (t : Nat) → List Nat → List (LongAddr × LongAddr2)
  | _, [] => []
  | t, l :: lens =>
    (⟨BitVec.ofNat 32 l, 0, 0⟩, ⟨BitVec.ofNat 48 (2 ^ 32 - min t l)⟩) :: steppedAddrs (t - l) lens

/-- The memory has zeros up to 2^32, and then ones. -/
def steppedState : PvSt :=
  { smallState with mgr.mem.long := fun _ o => if o < 2 ^ 32 then 0 else 1 }

theorem stepped_seg {l : Nat} (hl : l < 2 ^ 32) (t : Nat) {s : Seg}
    (hs : s = .long ⟨BitVec.ofNat 32 l, 0, 0⟩ ⟨BitVec.ofNat 48 (2 ^ 32 - min t l)⟩) :
    s.Fits ∧ s.len = l ∧ Stepped t (s.bytes steppedState.mgr.mem) := by
  subst hs
  have hlen : (BitVec.ofNat 32 l).toNat = l := by rw [BitVec.toNat_ofNat, Nat.mod_eq_of_lt hl]
  have hlow : (BitVec.ofNat 48 (2 ^ 32 - min t l)).toNat = 2 ^ 32 - min t l := by
    rw [BitVec.toNat_ofNat, Nat.mod_eq_of_lt (by omega)]
  have hoffset : LongAddr.offset ⟨BitVec.ofNat 32 l, 0, 0⟩ ⟨BitVec.ofNat 48 (2 ^ 32 - min t l)⟩ =
      2 ^ 32 - min t l := by
    rw [LongAddr.offset, hlow]
    simp
  refine ⟨?_, hlen, fun i hi => ?_⟩
  · rw [Seg.Fits, hoffset, hlen]
    omega
  · rw [Seg.length_bytes] at hi
    change i < (BitVec.ofNat 32 l).toNat at hi
    rw [hlen] at hi
    simp only [Seg.bytes, readBytes, Seg.region, Seg.offset, steppedState, List.getElem_map,
      List.getElem_range', hoffset, Nat.one_mul]
    have hiff : 2 ^ 32 - min t l + i < 2 ^ 32 ↔ i < t := by omega
    simp only [hiff]

theorem exists_stepped (hlens : ∀ l ∈ lens, l < 2 ^ 32) (t : Nat) :
    ∃ pv depth, Wf depth pv ∧ (∀ o ∈ pv.objs, o.2 < smallConfig.pvbuf_max_objs o.1) ∧
      pv.segs.map Seg.len = lens ∧ Stepped t (pv.contents steppedState.mgr.mem) := by
  have haddrs : (∀ p ∈ steppedAddrs t lens, (Seg.long p.1 p.2).Fits) ∧
      ((steppedAddrs t lens).map fun p => Seg.long p.1 p.2).map Seg.len = lens ∧
      Stepped t (segBytes steppedState.mgr.mem
        ((steppedAddrs t lens).map fun p => Seg.long p.1 p.2)) := by
    induction lens generalizing t with
    | nil => exact ⟨fun p hp => (by cases hp), rfl, fun i hi => by cases hi⟩
    | cons l lens ih =>
      obtain ⟨hfits, hlens', hstep⟩ := ih (fun k hk => hlens k (List.mem_cons_of_mem l hk)) (t - l)
      obtain ⟨hfit, hlen, hbytes⟩ := stepped_seg (hlens l List.mem_cons_self) t rfl
      refine ⟨?_, ?_, ?_⟩
      · intro p hp
        rcases List.mem_cons.mp hp with rfl | hp
        · exact hfit
        · exact hfits p hp
      · rw [steppedAddrs, List.map_cons, List.map_cons, hlens', hlen]
      · rw [steppedAddrs, List.map_cons, segBytes_cons, stepped_append, Seg.length_bytes, hlen]
        exact ⟨hbytes, hstep⟩
  obtain ⟨hfits, hlens', hstep⟩ := haddrs
  obtain ⟨hwf, hsegs, hobjs⟩ := longChain_spec _ hfits
  refine ⟨_, _, hwf, fun o ho => ?_, by rw [hsegs, hlens'], by rw [PvbufOf.contents, hsegs]; exact hstep⟩
  rw [hobjs o ho]
  decide

/-! ## When the checksum is right -/

/-- The checksum of every packet with leaves of the given lengths is that of its bytes. -/
def ChecksumRight (lens : List Nat) (len offset : Nat) : Prop :=
  ∀ (c : MgrConfig) (pv : Pvbuf) (depth n : Nat) (st : PvSt), Wf depth pv → depth ≤ n →
    (∀ o ∈ pv.objs, o.2 < c.pvbuf_max_objs o.1) → pv.segs.map Seg.len = lens →
    ∃ v, (pvbufChecksum c n pv len offset).run st = .ok v st ∧
      (checksumCompute (Range.bytes ⟨len, offset⟩ (pv.contents st.mgr.mem))).run st = .ok v st

section
variable {pv : Pvbuf}

theorem pvbufChecksum_run (hwf : Wf depth pv) (hn : depth ≤ n)
    (hobjs : ∀ o ∈ pv.objs, o.2 < c.pvbuf_max_objs o.1) (len offset : Nat) (st : PvSt) :
    ∃ v, (pvbufChecksum c n pv len offset).run st = .ok v st ∧ v ≤ 0xffff ∧
      Same 0xffff v (sum16 false (taken len false
        ((leavesFrom offset pv.segs).map (SysIovec.bytes st.mgr.mem)))) := by
  obtain ⟨r, st', hrun, hsame⟩ :=
    pvbufIterate_walk iterateChecksum_returns hn hwf hobjs { range := ⟨len, offset⟩ } st
  obtain ⟨ist, cont, hwalk, htotal, hsum⟩ :=
    walk_checksum pv.segs { range := ⟨len, offset⟩ } st (Nat.zero_le _)
  rw [hwalk] at hsame
  cases hsame
  rw [Nat.zero_add] at hsum
  have hlt : ist.csum_total < 2 ^ 64 := by omega
  exact ⟨checksumFold64 ist.csum_total, run_bind_ok hrun, checksumFold64_le _,
    (same_checksumFold64 hlt).trans hsum⟩

theorem taken_bytes (mem : Mem) (h : ¬ OddBreak len false (lensFrom offset (pv.segs.map Seg.len))) :
    taken len false ((leavesFrom offset pv.segs).map (SysIovec.bytes mem)) =
      Range.bytes ⟨len, offset⟩ (pv.contents mem) := by
  have hflat : ((leavesFrom offset pv.segs).map (SysIovec.bytes mem)).flatten =
      (pv.contents mem).drop offset := by
    rw [← List.flatMap_def, bytes_leavesFrom]
    rfl
  rw [Range.bytes]
  split
  · rename_i hlen
    change len = 0 at hlen
    rw [hlen, taken_zero, hflat]
  · rename_i hlen
    rw [← lens_leavesFrom mem] at h
    rw [taken_range hlen h, hflat]

end

/-- **When the checksum of a packet is that of its bytes**: the range is not too long for
`__xdp2_checksum_compute`, and there is no leaf that begins at an odd place of the range and is followed
by another one, unless the range goes to the end of the packet. -/
theorem pvbuf_checksum_iff (lens : List Nat) (len offset : Nat) (hlens : ∀ l ∈ lens, l < 2 ^ 32) :
    ChecksumRight lens len offset ↔
      Range.size ⟨len, offset⟩ lens.sum < 2 ^ 32 ∧ ¬ OddBreak len false (lensFrom offset lens) := by
  have hsize : ∀ {pv : Pvbuf} (mem : Mem), pv.segs.map Seg.len = lens →
      (Range.bytes ⟨len, offset⟩ (pv.contents mem)).length = Range.size ⟨len, offset⟩ lens.sum := by
    intro pv mem hpv
    rw [Range.length_bytes, PvbufOf.contents, length_segBytes, segsLen, hpv]
  constructor
  · intro hright
    obtain ⟨pv, depth, hwf, hobjs, hpv, hstep⟩ := exists_stepped hlens (offset + len)
    obtain ⟨v, hrun, hcompute⟩ := hright smallConfig pv depth depth steppedState hwf le_rfl hobjs hpv
    have hlt : Range.size ⟨len, offset⟩ lens.sum < 2 ^ 32 := by
      by_contra hge
      have hfail := assert_fail (decide_eq_false hge) "Checksum length too big" steppedState
      rw [checksumCompute, hsize _ hpv, run_bind_error hfail] at hcompute
      cases hcompute
    refine ⟨hlt, fun hbreak => ?_⟩
    -- the bytes of the range are zero, but a one is added to the sum
    have hzeros : ∀ b ∈ Range.bytes ⟨len, offset⟩ (pv.contents steppedState.mgr.mem), b = 0 := by
      have hlen : len ≠ 0 := by
        obtain ⟨-, pre, l, post, -, -, hpre, -⟩ := hbreak
        omega
      rw [Range.bytes, if_neg hlen]
      intro b hb
      change b ∈ List.take len (List.drop offset _) at hb
      obtain ⟨i, hi, rfl⟩ := List.mem_take_iff_getElem.mp hb
      rw [hstep.drop i (by omega), if_pos (by omega)]
    have hone : 1 ∈ taken len false
        ((leavesFrom offset pv.segs).map (SysIovec.bytes steppedState.mgr.mem)) := by
      rw [← hpv, ← lens_leavesFrom steppedState.mgr.mem] at hbreak
      refine taken_break hbreak ?_
      rw [← List.flatMap_def, bytes_leavesFrom]
      exact hstep.drop
    obtain ⟨u, hrun', -, hsame⟩ := pvbufChecksum_run hwf le_rfl hobjs len offset steppedState
    obtain ⟨w, hcompute', hsame', -⟩ := checksumCompute_run
      (Range.bytes ⟨len, offset⟩ (pv.contents steppedState.mgr.mem)) (by rw [hsize _ hpv]; exact hlt)
      steppedState
    rw [hrun] at hrun'
    rw [hcompute] at hcompute'
    cases hrun'
    cases hcompute'
    have hv := hsame'.zero.mpr (sum16_eq_zero_iff.mpr hzeros)
    exact absurd (sum16_eq_zero_iff.mp (hsame.zero.mp hv) 1 hone) (by decide)
  · rintro ⟨hlt, hbreak⟩ c pv depth n st hwf hn hobjs hpv
    obtain ⟨v, hrun, hv, hsame⟩ := pvbufChecksum_run hwf hn hobjs len offset st
    obtain ⟨u, hcompute, hsame', hu⟩ := checksumCompute_run
      (Range.bytes ⟨len, offset⟩ (pv.contents st.mgr.mem)) (by rw [hsize _ hpv]; exact hlt) st
    rw [← hpv] at hbreak
    rw [taken_bytes st.mgr.mem hbreak] at hsame
    have heq := (hsame.trans hsame'.symm).eq hv hu
    exact ⟨v, hrun, by rw [hcompute, heq]⟩

/-- Leaves of three, two and four bytes, from the second byte on to the end. -/
theorem pvbuf_checksum_iff_all : ChecksumRight [3, 2, 4] 0 1 := by
  refine (pvbuf_checksum_iff [3, 2, 4] 0 1 (by decide)).mpr ⟨by decide, ?_⟩
  rintro ⟨-, pre, l, post, -, -, hpre, -⟩
  exact absurd hpre (Nat.not_lt_zero _)

/-- The five bytes from the second one on are in the first and the second leaf of the packet, but a byte
of the third one is added as well. -/
theorem pvbufChecksum_extra :
    (pvbufChecksum smallConfig 2 mixedPacket 5 1).run smallState = .ok 14885 smallState ∧
      Range.bytes ⟨5, 1⟩ (mixedPacket.contents smallState.mgr.mem) = [9, 10, 11, 16, 17] ∧
      (checksumCompute [9, 10, 11, 16, 17]).run smallState = .ok 6693 smallState :=
  ⟨rfl, rfl, rfl⟩

end Xdp2
