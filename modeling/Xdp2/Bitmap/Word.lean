import Xdp2.Lib.BitWord

/-!
# Words of a bitmap

The searches of `bitmap_word.h` come in two forms, a loop over the bits and one by `ffs` or by the
logarithms of `utility.h`, which is the one in use. Both find what `find` and `revFind` do
(`word_searches`).
-/

namespace Xdp2

open BitWord

/-- The words there are functions for. -/
inductive WordSize where
  | w8 | w16 | w32 | w64

def WordSize.bits : WordSize → Nat
  | w8 => 8
  | w16 => 16
  | w32 => 32
  | w64 => 64

/-! ## Logarithms -/

/-- `__XDP2_LOG_1`. -/
def log1 (n : Nat) : Nat := if 2 ≤ n then 1 else 0

/-- The logarithm of a number of twice `k` bits, by one for `k` bits. -/
def logStep (k : Nat) (log : Nat → Nat) (n : Nat) : Nat := if 2 ^ k ≤ n then k + log (n >>> k) else log n

/-- `__XDP2_LOG_2`. -/
def log2 : Nat → Nat := logStep 2 log1

/-- `__XDP2_LOG_4`. -/
def log4 : Nat → Nat := logStep 4 log2

/-- `__XDP2_LOG_8`. -/
def log8 : Nat → Nat := logStep 8 log4

/-- `__XDP2_LOG_16`. -/
def log16 : Nat → Nat := logStep 16 log8

/-- `XDP2_LOG_8BITS`, `XDP2_LOG_16BITS`, `XDP2_LOG_32BITS` and `XDP2_LOG_64BITS`. -/
def WordSize.log : WordSize → Nat → Nat
  | w8 => logStep 4 log2
  | w16 => logStep 8 log4
  | w32 => logStep 16 log8
  | w64 => logStep 32 log16

/-- `log` is right for the numbers of `w` bits. -/
def LogOf (w : Nat) (log : Nat → Nat) : Prop := ∀ n, n ≠ 0 → n < 2 ^ w → log n = n.log2

theorem LogOf.step (h : LogOf k log) : LogOf (k + k) (logStep k log) := by
  intro n hn hlt
  rw [logStep]
  split
  · rename_i hge
    rw [Nat.pow_add] at hlt
    have hpos : n / 2 ^ k ≠ 0 := Nat.div_ne_zero_iff.mpr ⟨(Nat.two_pow_pos k).ne', hge⟩
    rw [Nat.shiftRight_eq_div_pow, h _ hpos (Nat.div_lt_of_lt_mul hlt), eq_comm, Nat.log2_eq_iff hn]
    have hle := Nat.log2_self_le hpos
    have hlt := Nat.lt_log2_self (n := n / 2 ^ k)
    rw [Nat.le_div_iff_mul_le (Nat.two_pow_pos k)] at hle
    rw [Nat.div_lt_iff_lt_mul (Nat.two_pow_pos k)] at hlt
    rw [Nat.add_assoc, Nat.add_comm k, Nat.pow_add, Nat.add_comm k, Nat.pow_add]
    exact ⟨hle, hlt⟩
  · exact h n hn (by omega)

theorem logOf_log1 : LogOf 2 log1 := by
  intro n hn hlt
  rw [log1, eq_comm, Nat.log2_eq_iff hn]
  split <;> omega

theorem WordSize.logOf (size : WordSize) : LogOf size.bits size.log := by
  cases size with
  | w8 => exact logOf_log1.step.step
  | w16 => exact logOf_log1.step.step.step
  | w32 => exact logOf_log1.step.step.step.step
  | w64 => exact logOf_log1.step.step.step.step.step

/-! ## Searches -/

/-- `ffs` and `ffsl`. -/
def ffs (v : BitVec w) : Nat := if v = 0 then 0 else find v + 1

section
variable (size : WordSize) (v : BitVec size.bits)

/-- `__xdp2_bitmap_word##N##_find_ffs`, which widens the word to what `ffs` takes. -/
def findFfs : Nat :=
  let ret := ffs (v.setWidth (max 32 size.bits))
  if ret ≠ 0 then ret - 1 else size.bits

/-- `__xdp2_bitmap_word##N##_rev_find_log`. -/
def revFindLog : Nat := if v ≠ 0 then size.log v.toNat else size.bits

end

section
variable (v : BitVec w)

/-- The loop of `__xdp2_bitmap_word##N##_find_default`, with `rest` bits to look at from `i` on. -/
def findDefaultFrom : (rest i : Nat) → Nat
  | 0, i => i
  | rest + 1, i => if v.getLsbD i then i else findDefaultFrom rest (i + 1)

/-- `__xdp2_bitmap_word##N##_find_default`. -/
def findDefault : Nat := findDefaultFrom v w 0

/-- The loop of `__xdp2_bitmap_word##N##_rev_find_default` over the bits below the one given. -/
def revFindDefaultFrom : Nat → Nat
  | 0 => w
  | i + 1 => if v.getLsbD i then i else revFindDefaultFrom i

/-- `__xdp2_bitmap_word##N##_rev_find_default`. -/
def revFindDefault : Nat := revFindDefaultFrom v w

theorem find_of_clear (h : ∀ k, v.getLsbD k = false) : find v = w := by
  rcases find_cases v with ⟨-, hfirst⟩ | ⟨heq, -⟩
  · exact absurd hfirst.set (by rw [h]; decide)
  · exact heq

theorem findDefaultFrom_eq (hi : i + rest = w) (h : ∀ k < i, v.getLsbD k = false) :
    findDefaultFrom v rest i = find v := by
  induction rest generalizing i with
  | zero =>
    refine hi.trans (find_of_clear v fun k => ?_).symm
    rcases Nat.lt_or_ge k i with hlt | hge
    · exact h k hlt
    · exact BitVec.getLsbD_of_ge v k (hi.ge.trans hge)
  | succ rest ih =>
    rw [findDefaultFrom]
    split
    · rename_i hset
      exact (find_eq ⟨Nat.zero_le i, hset, fun k _ => h k⟩).symm
    · rename_i hclear
      refine ih (by omega) fun k hk => ?_
      rcases Nat.lt_succ_iff_lt_or_eq.mp hk with hlt | rfl
      · exact h k hlt
      · exact Bool.eq_false_iff.mpr hclear

theorem revFindDefaultFrom_eq (h : ∀ k, i ≤ k → v.getLsbD k = false) :
    revFindDefaultFrom v i = revFind v := by
  induction i with
  | zero => rw [revFind, if_pos (BitVec.eq_of_getLsbD_eq fun k _ => by simp [h k]), revFindDefaultFrom]
  | succ i ih =>
    rw [revFindDefaultFrom]
    split
    · rename_i hset
      exact (revFind_eq ⟨lt_of_getLsbD hset, hset, fun k hk _ => h k hk⟩).symm
    · rename_i hclear
      refine ih fun k hk => ?_
      rcases Nat.eq_or_lt_of_le hk with rfl | hlt
      · exact Bool.eq_false_iff.mpr hclear
      · exact h k hlt

theorem find_setWidth (hle : w ≤ m) (hne : v ≠ 0) : find (v.setWidth m) = find v := by
  have hbit : ∀ k, (v.setWidth m).getLsbD k = v.getLsbD k := by
    intro k
    rw [BitVec.getLsbD_setWidth]
    by_cases hk : k < m
    · simp [hk]
    · simp [BitVec.getLsbD_of_ge v k (by omega)]
  rcases find_cases v with ⟨-, h⟩ | ⟨-, h⟩
  · exact find_eq ⟨h.le, (hbit _).trans h.set, fun k hk hlt => (hbit k).trans (h.clear k hk hlt)⟩
  · exact absurd (BitVec.eq_of_getLsbD_eq fun k _ => by rw [h k]; simp) hne

end

/-- **The fast searches are the plain ones**, for the words of all sizes: they find the first and
the last set bit, and return the width of the word where there is none. -/
theorem word_searches (size : WordSize) (v : BitVec size.bits) :
    (findFfs size v = find v ∧ findDefault v = find v) ∧
      revFindLog size v = revFind v ∧ revFindDefault v = revFind v := by
  refine ⟨⟨?_, findDefaultFrom_eq v (Nat.zero_add _) fun k hk => by cases hk⟩, ?_,
    revFindDefaultFrom_eq v (BitVec.getLsbD_of_ge v)⟩
  · rw [findFfs, ffs]
    by_cases hzero : v = 0
    · rw [find_of_clear v fun k => by simp [hzero]]
      simp [hzero]
    · have hne : v.setWidth (max 32 size.bits) ≠ 0 := fun h => hzero (BitVec.eq_of_toNat_eq (by
        have hnat := congrArg BitVec.toNat h
        rwa [BitVec.toNat_setWidth_of_le (le_max_right _ _)] at hnat))
      simp only [if_neg hne, ne_eq, Nat.succ_ne_zero, not_false_eq_true, if_true]
      exact find_setWidth v (le_max_right _ _) hzero
  · rw [revFindLog, revFind, ite_not]
    split
    · rfl
    · rename_i hne
      exact size.logOf _ (fun h => hne (BitVec.eq_of_toNat_eq h)) v.isLt

end Xdp2
