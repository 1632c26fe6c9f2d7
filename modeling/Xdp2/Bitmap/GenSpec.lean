import Xdp2.Bitmap.Gen

/-!
# What the operations at different positions do

`SrcPos.Stands` says where a source stands, also after the first word (`handleDestMod_stands`). In
the loop, `SrcShift.Ready` says that the next word follows the one whose upper part is carried, and
`Carries` what that part is; `nextWord` keeps both. Whether to go on to the next word is decided by
a sum in an `unsigned int`, which may overflow.
-/

namespace Xdp2

open BitWord

/-! ## Positions in a source -/

/-- An offset in a source is the one of the word `m`. All offsets are the same to a repeated
word. -/
inductive Source.At (L : Layout w) : Source w → Int → Nat → Prop
  | array (src : Words w) (m : Nat) : At L (.array src) (L.word m) m
  | word (v : BitVec w) (p : Int) (m : Nat) : At L (.word v) p m

/-- The bits at `q` and later are the next ones. -/
def SrcPos.Stands (L : Layout w) (src : Source w) (s : SrcPos) (q : Nat) : Prop :=
  ∃ m, src.At L s.p m ∧ s.mod < w ∧ q = m * w + s.mod

section
variable {L : Layout w} {src : Source w}

namespace Source

theorem at_start (src : Source w) (pos : Nat) : src.At L (src.start L pos) (pos / w) := by
  cases src with
  | array src => exact .array src _
  | word v => exact .word v _ _

theorem At.add (h : src.At L p m) (i : Nat) : src.At L (p + src.dir L * i) (m + i) := by
  cases h with
  | array src m =>
    rw [dir, L.word_add_dir]
    exact .array src _
  | word v p m => exact .word v _ _

theorem At.next (h : src.At L p m) : src.At L (p + src.dir L) (m + 1) := by
  have := h.add 1
  rwa [Nat.cast_one, mul_one] at this

theorem At.bit (h : src.At L p m) (hk : k < w) :
    (L.conv (src.read p)).getLsbD k = src.bit L (m * w + k) := by
  cases h with
  | array src m => exact (L.isset_word src hk).symm
  | word v p m => rw [read, Source.bit, Nat.mul_comm, Nat.mul_add_mod, Nat.mod_eq_of_lt hk]

end Source

theorem stands_start (src : Source w) (pos : Nat) :
    SrcPos.Stands L src ⟨src.start L pos, pos % w⟩ pos :=
  ⟨pos / w, src.at_start pos, L.mod_lt pos, (Nat.div_add_mod' pos w).symm⟩

/-! ## The first word -/

theorem getLsbD_conv_shl (v : BitVec w) (n : Nat) (hk : k < w) :
    (L.conv (L.conv (L.conv v <<< n))).getLsbD k =
      (decide (n ≤ k) && (L.conv v).getLsbD (k - n)) := by
  rw [L.conv_conv, BitVec.getLsbD_shiftLeft, decide_eq_true hk, Bool.true_and, ← decide_not,
    decide_eq_decide.mpr Nat.not_lt]

theorem getLsbD_conv_shr (v : BitVec w) (n k : Nat) :
    (L.conv (L.conv (L.conv v >>> n))).getLsbD k = (L.conv v).getLsbD (n + k) := by
  rw [L.conv_conv, BitVec.getLsbD_ushiftRight]

variable {s : SrcPos}

theorem handleDestMod_bits (hs : s.Stands L src q) (hneed : dest_mod + need ≤ w)
    (hk : dest_mod ≤ k) (hk' : k < dest_mod + need) :
    (L.conv (L.handleDestMod src need dest_mod s).1).getLsbD k =
      src.bit L (q + (k - dest_mod)) := by
  obtain ⟨m, hat, hmod, rfl⟩ := hs
  rw [Layout.handleDestMod]
  split
  · rename_i heq
    rw [hat.bit (by omega)]
    congr 1
    omega
  · split
    · rw [getLsbD_conv_shl _ _ (by omega), decide_eq_true (by omega), Bool.true_and,
        hat.bit (by omega)]
      congr 1
      omega
    · rw [L.conv_or, BitVec.getLsbD_or, getLsbD_conv_shr, getLsbD_conv_shl _ _ (by omega)]
      -- the word of the destination takes the rest of one word and the start of the next
      rcases Nat.lt_or_ge k (dest_mod + min (w - s.mod) need) with hlt | hge
      · rw [decide_eq_false (by omega), Bool.false_and, Bool.or_false, hat.bit (by omega)]
        congr 1
        omega
      · have hnext : (m + 1) * w = m * w + w := Nat.succ_mul m w
        rw [BitVec.getLsbD_of_ge _ _ (show w ≤ s.mod - dest_mod + k by omega), Bool.false_or,
          decide_eq_true (by omega), Bool.true_and, hat.next.bit (by omega)]
        congr 1
        omega

theorem handleDestMod_stands (hs : s.Stands L src q) (hpos : 0 < dest_mod)
    (hneed : dest_mod + need = w) :
    (L.handleDestMod src need dest_mod s).2.Stands L src (q + need) := by
  obtain ⟨m, hat, hmod, rfl⟩ := hs
  have hnext : (m + 1) * w = m * w + w := Nat.succ_mul m w
  rw [Layout.handleDestMod]
  split
  · exact ⟨m + 1, hat.next, L.word_pos, by dsimp only; omega⟩
  · split
    · exact ⟨m, hat, by dsimp only; omega, by dsimp only; omega⟩
    · exact ⟨m + 1, hat.next, by dsimp only; omega, by dsimp only; omega⟩

/-! ## The loop -/

/-- `n` bits at `q` and later are read with an offset: from a word and, unless the bits are all in
one word, the upper part of a word and the next word. -/
inductive SrcShift.Ready (L : Layout w) (src : Source w) (n q : Nat) : SrcShift w → Prop
  | aligned {p : Int} {m : Nat} : src.At L p m → q = m * w → Ready L src n q ⟨0, 0, p⟩
  | shifted {p : Int} {m mod : Nat} : 0 < mod → mod < w → q = m * w + mod →
      (w < n + mod → src.At L p (m + 1)) →
      Ready L src n q ⟨L.conv (BitVec.allOnes w <<< mod), mod, p⟩

/-- A word has no bits but those of the source at `q`, and with an offset all bits that are left of
a word of the source. -/
def Carries (L : Layout w) (src : Source w) (mod q : Nat) (left : BitVec w) : Prop :=
  ∀ k, k < w → ((L.conv left).getLsbD k = true → src.bit L (q + k) = true) ∧
    (0 < mod → k + mod < w → (L.conv left).getLsbD k = src.bit L (q + k))

/-- The sum that decides about the next word does not overflow. -/
def Source.Fits (n mod : Nat) : Source w → Prop
  | array _ => n + mod < 2 ^ 32
  | word _ => True

theorem getLsbD_high (mod : Nat) (hk : k < w) :
    (L.conv (L.conv (BitVec.allOnes w <<< mod))).getLsbD k = decide (mod ≤ k) := by
  rw [L.conv_conv, BitVec.getLsbD_shiftLeft, BitVec.getLsbD_allOnes, decide_eq_true hk,
    decide_eq_true (show k - mod < w by omega), Bool.true_and, Bool.and_true, ← decide_not,
    decide_eq_decide.mpr Nat.not_lt]

theorem carries_upper (mod : Nat) (hv : ∀ k, k < w → (L.conv v).getLsbD k = src.bit L (m * w + k)) :
    Carries L src mod (m * w + mod)
      (L.conv (L.conv (v &&& L.conv (BitVec.allOnes w <<< mod)) >>> mod)) := by
  intro k hk
  rw [getLsbD_conv_shr]
  rcases Nat.lt_or_ge (mod + k) w with hlt | hge
  · rw [L.conv_and, BitVec.getLsbD_and, getLsbD_high mod hlt, decide_eq_true (by omega),
      Bool.and_true, hv _ hlt, Nat.add_assoc]
    exact ⟨id, fun _ _ => rfl⟩
  · rw [BitVec.getLsbD_of_ge _ _ hge]
    exact ⟨fun h => absurd h Bool.false_ne_true, fun _ h => by omega⟩

theorem startShift_ready (hs : s.Stands L src q) (hfit : src.Fits n s.mod) :
    SrcShift.Ready L src n q (L.startShift src n s).1 := by
  obtain ⟨p, mod⟩ := s
  obtain ⟨m, hat, hmod, rfl⟩ := hs
  dsimp only at hat hmod hfit ⊢
  rw [Layout.startShift]
  split
  · rename_i hne
    refine .shifted (Nat.pos_of_ne_zero hne) hmod rfl fun hlt => ?_
    cases hat with
    | array src m =>
      rw [Source.Fits] at hfit
      rw [Nat.mod_eq_of_lt hfit, if_pos hlt]
      exact (Source.At.array src m).next
    | word v p m => exact .word v _ _
  · rename_i hzero
    exact .aligned hat (by dsimp only at hzero; omega)

theorem startShift_carries (hs : s.Stands L src q) :
    Carries L src (L.startShift src n s).1.left_shift q (L.startShift src n s).2 := by
  obtain ⟨m, hat, hmod, rfl⟩ := hs
  rw [Layout.startShift]
  split
  · exact carries_upper s.mod fun k hk => hat.bit hk
  · rename_i hzero
    intro k hk
    rw [show m * w + s.mod + k = m * w + k by omega, hat.bit hk]
    exact ⟨id, fun h => absurd h (lt_irrefl 0)⟩

theorem nextWord_spec (hready : sh.Ready L src n q)
    (hleft : Carries L src sh.left_shift (q + i * w) left) :
    (∀ k, k < w → i * w + k < n →
      (L.conv (L.nextWord src sh left i).1).getLsbD k = src.bit L (q + i * w + k)) ∧
    ((i + 1) * w ≤ n →
      Carries L src sh.left_shift (q + (i + 1) * w) (L.nextWord src sh left i).2) := by
  cases hready with
  | @aligned p m hat hq =>
    subst hq
    have hword : ∀ k, k < w → (L.conv (src.read (p + src.dir L * i))).getLsbD k =
        src.bit L (m * w + i * w + k) := by
      intro k hk
      rw [(hat.add i).bit hk, Nat.add_mul]
    constructor
    · intro k hk _
      dsimp only [Layout.nextWord]
      rw [if_neg (by omega), L.conv_or, BitVec.getLsbD_or, hword k hk]
      have h := (hleft k hk).1
      cases hbit : (L.conv left).getLsbD k with
      | false => rfl
      | true => rw [h hbit, Bool.or_true]
    · intro _ k hk
      have hzero : L.conv (0 : BitVec w) = 0 := (L.order.conv_eq_zero 0).mpr rfl
      dsimp only [Layout.nextWord]
      rw [getLsbD_conv_shr, L.conv_and, hzero]
      simp
  | @shifted p m mod hpos hmod hq hat =>
    subst hq
    dsimp only at hleft
    have hword : w < n + mod → ∀ k, k < w → (L.conv (src.read (p + src.dir L * i))).getLsbD k =
        src.bit L ((m + 1 + i) * w + k) := by
      intro hlt k hk
      rw [((hat hlt).add i).bit hk]
    have hindex : (m + 1 + i) * w = m * w + i * w + w := by ring
    constructor
    · intro k hk hn
      dsimp only [Layout.nextWord]
      rw [if_pos (by omega), L.conv_or, BitVec.getLsbD_or, getLsbD_conv_shl _ _ hk]
      have h := hleft k hk
      rcases Nat.lt_or_ge (k + mod) w with hlt | hge
      · rw [decide_eq_false (by omega), Bool.false_and, Bool.or_false, h.2 hpos hlt]
      · have hright : (L.conv (src.read (p + src.dir L * i) &&&
            ~~~L.conv (BitVec.allOnes w <<< mod))).getLsbD (k - (w - mod)) =
            src.bit L (m * w + mod + i * w + k) := by
          rw [L.conv_and, L.conv_not, BitVec.getLsbD_and, BitVec.getLsbD_not,
            getLsbD_high mod (by omega), decide_eq_true (show k - (w - mod) < w by omega),
            decide_eq_false (show ¬ mod ≤ k - (w - mod) by omega), hword (by omega) _ (by omega),
            hindex]
          simp only [Bool.not_false, Bool.and_true]
          congr 1
          omega
        rw [decide_eq_true (by omega), Bool.true_and, hright]
        cases hbit : (L.conv left).getLsbD k with
        | false => rfl
        | true => rw [h.1 hbit, Bool.or_true]
    · intro hn
      have hle : w ≤ (i + 1) * w := Nat.le_mul_of_pos_left w (Nat.succ_pos i)
      have h := carries_upper mod (hword (by omega))
      rwa [show (m + 1 + i) * w + mod = m * w + mod + (i + 1) * w by ring] at h

end

end Xdp2
