import Xdp2.Lib.StateError

/-!
# Words as sets of positions

Searches in machine words (first and last set bit, from a position on or below one) and loops over
the set bits of a word, whose body may change the word and move the position. `FirstFrom` and
`LastBelow` say what a search finds; `forBits_rule` and `forBitsRev_rule` are the induction rules of
the loops, for an invariant indexed by the position.
-/

namespace BitWord

open StateError

variable {w : Nat}

/-! ## Searches -/

/-- The first set bit, the width of the word if there is none. -/
def find (v : BitVec w) : Nat := ((List.range w).find? fun i => v.getLsbD i).getD w

/-- The last set bit, the width of the word if there is none. -/
def revFind (v : BitVec w) : Nat := if v = 0 then w else v.toNat.log2

/-- The number of set bits. -/
def weight (v : BitVec w) : Nat := (List.range w).countP fun i => v.getLsbD i

/-- The word with one bit set. -/
def bit (i : Nat) : BitVec w := 1#w <<< i

/-- The first set bit from `pos` on. -/
def findStart (v : BitVec w) (pos : Nat) : Nat := find (v &&& ~~~(bit pos - 1#w))

/-- The first set bit after `pos`. -/
def findNext (v : BitVec w) (pos : Nat) : Nat :=
  if w - 1 ≤ pos then w else find (v &&& ~~~(bit (pos + 1) - 1#w))

/-- The last set bit up to `pos`. -/
def revFindStart (v : BitVec w) (pos : Nat) : Nat :=
  if pos = w - 1 then revFind v else revFind (v &&& (bit (pos + 1) - 1#w))

/-- The last set bit before `pos`. -/
def revFindNext (v : BitVec w) (pos : Nat) : Nat :=
  if pos = 0 then w else revFind (v &&& (bit pos - 1#w))

/-- `q` is the first set bit from `p` on. -/
structure FirstFrom (v : BitVec w) (p q : Nat) : Prop where
  le : p ≤ q
  set : v.getLsbD q = true
  clear : ∀ k, p ≤ k → k < q → v.getLsbD k = false

/-- `q` is the last set bit below `p`. -/
structure LastBelow (v : BitVec w) (p q : Nat) : Prop where
  lt : q < p
  set : v.getLsbD q = true
  clear : ∀ k, q < k → k < p → v.getLsbD k = false

theorem lt_of_getLsbD {v : BitVec w} {i : Nat} (h : v.getLsbD i = true) : i < w := by
  by_contra hge
  rw [BitVec.getLsbD_of_ge v i (by omega)] at h
  cases h

theorem getLsbD_bit (i k : Nat) : (bit i : BitVec w).getLsbD k = decide (k = i ∧ k < w) := by
  rw [bit, BitVec.getLsbD_shiftLeft, BitVec.getLsbD_one]
  by_cases hk : k < w
  · by_cases hi : k < i
    · simp [hk, hi, Nat.ne_of_lt hi]
    · by_cases he : k = i
      · simp [he, show i < w by omega, show 0 < w by omega]
      · simp [hk, hi, he, show ¬ k - i = 0 by omega]
  · simp [hk]

theorem getLsbD_bit_sub_one (hp : p < w) :
    (bit p - 1#w : BitVec w).getLsbD k = decide (k < p) := by
  have hlt : 2 ^ p < 2 ^ w := Nat.pow_lt_pow_right (by decide) hp
  have h1 : 1 ≤ 2 ^ p := Nat.one_le_two_pow
  have hone : (1#w).toNat = 1 := by rw [BitVec.toNat_ofNat, Nat.mod_eq_of_lt (by omega)]
  have hbit : (bit p : BitVec w).toNat = 2 ^ p := by
    rw [bit, BitVec.toNat_shiftLeft, hone, Nat.shiftLeft_eq, Nat.one_mul, Nat.mod_eq_of_lt hlt]
  have hsub : (bit p - 1#w : BitVec w).toNat = 2 ^ p - 1 := by
    rw [BitVec.toNat_sub_of_le (by rw [BitVec.le_def, hbit, hone]; exact h1), hbit, hone]
  rw [BitVec.getLsbD, hsub, Nat.testBit_two_pow_sub_one]

theorem find_cases (v : BitVec w) :
    (find v < w ∧ FirstFrom v 0 (find v)) ∨ (find v = w ∧ ∀ k, v.getLsbD k = false) := by
  rw [find]
  cases h : (List.range w).find? fun i => v.getLsbD i with
  | none =>
    refine .inr ⟨rfl, fun k => ?_⟩
    by_cases hk : k < w
    · simpa using List.find?_range_eq_none.mp h k hk
    · exact BitVec.getLsbD_of_ge v k (by omega)
  | some q =>
    obtain ⟨hset, hmem, hclear⟩ := List.find?_range_eq_some.mp h
    exact .inl ⟨List.mem_range.mp hmem, Nat.zero_le _, hset, fun k _ hk => by
      simpa using hclear k hk⟩

theorem findStart_cases (v : BitVec w) (hp : p < w) :
    (findStart v p < w ∧ FirstFrom v p (findStart v p)) ∨
      (findStart v p = w ∧ ∀ k, p ≤ k → v.getLsbD k = false) := by
  have hmask : ∀ k, (v &&& ~~~(bit p - 1#w)).getLsbD k = (v.getLsbD k && decide (p ≤ k)) := by
    intro k
    rw [BitVec.getLsbD_and, BitVec.getLsbD_not, getLsbD_bit_sub_one hp]
    by_cases hk : k < w
    · by_cases hpk : k < p
      · simp [hk, hpk, Nat.not_le.mpr hpk]
      · simp [hk, hpk, Nat.not_lt.mp hpk]
    · simp [BitVec.getLsbD_of_ge v k (by omega)]
  rw [findStart]
  rcases find_cases (v &&& ~~~(bit p - 1#w)) with ⟨hlt, hfirst⟩ | ⟨heq, hnone⟩
  · have hset := hfirst.set
    rw [hmask, Bool.and_eq_true, decide_eq_true_eq] at hset
    refine .inl ⟨hlt, hset.2, hset.1, fun k hpk hk => ?_⟩
    simpa [hmask, hpk] using hfirst.clear k (Nat.zero_le k) hk
  · exact .inr ⟨heq, fun k hpk => by simpa [hmask, hpk] using hnone k⟩

theorem findNext_cases (v : BitVec w) (p : Nat) :
    (findNext v p < w ∧ FirstFrom v (p + 1) (findNext v p)) ∨
      (findNext v p = w ∧ ∀ k, p + 1 ≤ k → v.getLsbD k = false) := by
  rw [findNext]
  split
  · exact .inr ⟨rfl, fun k hk => BitVec.getLsbD_of_ge v k (by omega)⟩
  · exact findStart_cases v (p := p + 1) (by omega)

theorem revFind_cases (v : BitVec w) :
    (revFind v < w ∧ LastBelow v w (revFind v)) ∨ (revFind v = w ∧ ∀ k, v.getLsbD k = false) := by
  rw [revFind]
  split
  · rename_i h
    exact .inr ⟨rfl, fun k => by rw [h]; simp⟩
  · rename_i h
    have hne : v.toNat ≠ 0 := fun h0 => h (BitVec.eq_of_toNat_eq (by simpa using h0))
    have hset : v.getLsbD v.toNat.log2 = true := Nat.testBit_log2 hne
    refine .inl ⟨lt_of_getLsbD hset, lt_of_getLsbD hset, hset, fun k hk _ => ?_⟩
    exact Nat.testBit_lt_two_pow ((Nat.log2_lt hne).mp hk)

theorem find_eq (h : FirstFrom v 0 q) : find v = q := by
  have hset := h.set
  rcases find_cases v with ⟨-, h'⟩ | ⟨-, hnone⟩
  · rcases Nat.lt_trichotomy (find v) q with hlt | heq | hgt
    · have hset' := h'.set
      rw [h.clear _ (Nat.zero_le _) hlt] at hset'
      cases hset'
    · exact heq
    · rw [h'.clear q (Nat.zero_le _) hgt] at hset
      cases hset
  · rw [hnone q] at hset
    cases hset

theorem revFind_eq {v : BitVec w} {q : Nat} (h : LastBelow v w q) : revFind v = q := by
  have hset := h.set
  rcases revFind_cases v with ⟨-, h'⟩ | ⟨-, hnone⟩
  · rcases Nat.lt_trichotomy (revFind v) q with hlt | heq | hgt
    · rw [h'.clear q hlt h.lt] at hset
      cases hset
    · exact heq
    · have hset' := h'.set
      rw [h.clear _ hgt h'.lt] at hset'
      cases hset'
  · rw [hnone q] at hset
    cases hset

theorem revFindNext_cases (v : BitVec w) (hp : p < w) :
    (revFindNext v p < w ∧ LastBelow v p (revFindNext v p)) ∨
      (revFindNext v p = w ∧ ∀ k, k < p → v.getLsbD k = false) := by
  rw [revFindNext]
  split
  · exact .inr ⟨rfl, fun k hk => by omega⟩
  · have hmask : ∀ k, (v &&& (bit p - 1#w)).getLsbD k = (v.getLsbD k && decide (k < p)) := by
      intro k
      rw [BitVec.getLsbD_and, getLsbD_bit_sub_one hp]
    rcases revFind_cases (v &&& (bit p - 1#w)) with ⟨hlt, hlast⟩ | ⟨heq, hnone⟩
    · have hset := hlast.set
      rw [hmask, Bool.and_eq_true, decide_eq_true_eq] at hset
      refine .inl ⟨hlt, hset.2, hset.1, fun k hk hkp => ?_⟩
      simpa [hmask, hkp] using hlast.clear k hk (by omega)
    · exact .inr ⟨heq, fun k hkp => by simpa [hmask, hkp] using hnone k⟩

theorem revFindStart_cases (v : BitVec w) (hp : p < w) :
    (revFindStart v p < w ∧ LastBelow v (p + 1) (revFindStart v p)) ∨
      (revFindStart v p = w ∧ ∀ k, k < p + 1 → v.getLsbD k = false) := by
  rw [revFindStart]
  split
  · rename_i h
    obtain rfl : w = p + 1 := by omega
    rcases revFind_cases v with hfound | ⟨heq, hnone⟩
    · exact .inl hfound
    · exact .inr ⟨heq, fun k _ => hnone k⟩
  · have h := revFindNext_cases v (p := p + 1) (by omega)
    rwa [revFindNext, if_neg (by omega)] at h

/-! ## Loops over the set bits -/

/-- How a turn of a loop ends: the loop is left, or goes on from the position, which the body may
have moved. -/
inductive Turn (τ : Type) where
  | done (t : τ)
  | next (pos : Nat) (t : τ)

section
variable {ε σ τ : Type}

/-- A loop over positions of a word that is read anew on every turn, for at most `fuel` turns.
`advance` finds the next position; there is none once it is not below the width. -/
def forPos (advance : BitVec w → Nat → Nat) (stuck : ε) (word : τ → BitVec w)
    (body : Nat → τ → EStateM ε σ (Turn τ)) : (fuel pos : Nat) → τ → EStateM ε σ τ
  | 0, _, _ => throw stuck
  | fuel + 1, pos, t =>
    if pos < w then do
      match ← body pos t with
      | .done t' => return t'
      | .next pos' t' => forPos advance stuck word body fuel (advance (word t') pos') t'
    else return t

/-- `for (pos = find_start(word, pos); pos < w; pos = find_next(word, pos))`. -/
def forBits (stuck : ε) (word : τ → BitVec w) (body : Nat → τ → EStateM ε σ (Turn τ)) (pos : Nat)
    (t : τ) : EStateM ε σ τ :=
  forPos findNext stuck word body (w + 1) (findStart (word t) pos) t

/-- `for (pos = rev_find_start(word, pos); pos < w; pos = rev_find_next(word, pos))`. -/
def forBitsRev (stuck : ε) (word : τ → BitVec w) (body : Nat → τ → EStateM ε σ (Turn τ))
    (pos : Nat) (t : τ) : EStateM ε σ τ :=
  forPos revFindNext stuck word body (w + 1) (revFindStart (word t) pos) t

/-- What is claimed of the end of a turn. -/
def TurnSat (I : Nat → τ → σ → Prop) (Q : τ → σ → Prop) : Turn τ → σ → Prop
  | .done t, s => Q t s
  | .next pos t, s => I pos t s

variable {stuck : ε} {word : τ → BitVec w} {body : Nat → τ → EStateM ε σ (Turn τ)}
  {I : Nat → τ → σ → Prop} {Q : τ → σ → Prop}

/-- The loop from the first set bit on: `I p` is the invariant with everything below `p` done. A turn
may fail. -/
theorem forBits_outcome
    (hstep : ∀ p q t s, I p t s → FirstFrom (word t) p q →
      Outcome (body q t) s (TurnSat (fun pos t' s' => q ≤ pos ∧ I (pos + 1) t' s') Q) E)
    (hend : ∀ p t s, I p t s → (∀ k, p ≤ k → (word t).getLsbD k = false) → Q t s) (hp : p < w)
    (hI : I p t s) :
    Outcome (forBits stuck word body p t) s Q E := by
  -- the turns left are bounded by the bits left
  have hloop : ∀ fuel p q t s, w < fuel + p → I p t s →
      (q < w ∧ FirstFrom (word t) p q) ∨ (q = w ∧ ∀ k, p ≤ k → (word t).getLsbD k = false) →
      0 < fuel → Outcome (forPos findNext stuck word body fuel q t) s Q E := by
    intro fuel
    induction fuel with
    | zero => intro p q t s _ _ _ hpos; cases hpos
    | succ fuel ih =>
      intro p q t s hfuel hI hq _
      rw [forPos]
      rcases hq with ⟨hlt, hfirst⟩ | ⟨rfl, hnone⟩
      · rw [if_pos hlt]
        refine (hstep p q t s hI hfirst).bind fun r s' hr => ?_
        cases r with
        | done t' => exact .pure hr
        | next pos t' =>
          obtain ⟨hle, hI'⟩ := hr
          have hpq := hfirst.le
          exact ih (pos + 1) _ t' s' (by omega) hI' (findNext_cases (word t') pos) (by omega)
      · rw [if_neg (Nat.lt_irrefl _)]
        exact .pure (hend p t s hI hnone)
  exact hloop (w + 1) p _ t s (by omega) hI (findStart_cases (word t) hp) (by omega)

theorem forBits_rule
    (hstep : ∀ p q t s, I p t s → FirstFrom (word t) p q →
      Returns (body q t) s (TurnSat (fun pos t' s' => q ≤ pos ∧ I (pos + 1) t' s') Q))
    (hend : ∀ p t s, I p t s → (∀ k, p ≤ k → (word t).getLsbD k = false) → Q t s) (hp : p < w)
    (hI : I p t s) :
    Returns (forBits stuck word body p t) s Q := by
  have hloop : Outcome (forBits stuck word body p t) s Q fun _ => False :=
    forBits_outcome (fun p q t s hI hq => (hstep p q t s hI hq).outcome _) hend hp hI
  exact hloop.returns fun _ => id

theorem forBitsRev_rule
    (hstep : ∀ p q t s, I p t s → LastBelow (word t) p q →
      Returns (body q t) s (TurnSat (fun pos t' s' => pos ≤ q ∧ I pos t' s') Q))
    (hend : ∀ p t s, I p t s → (∀ k, k < p → (word t).getLsbD k = false) → Q t s) (hp : p < w)
    (hI : I (p + 1) t s) :
    Returns (forBitsRev stuck word body p t) s Q := by
  have hloop : ∀ fuel p q t s, p < fuel → I p t s →
      (q < w ∧ LastBelow (word t) p q) ∨ (q = w ∧ ∀ k, k < p → (word t).getLsbD k = false) →
      Returns (forPos revFindNext stuck word body fuel q t) s Q := by
    intro fuel
    induction fuel with
    | zero => intro p q t s hfuel _ _; cases hfuel
    | succ fuel ih =>
      intro p q t s hfuel hI hq
      rw [forPos]
      rcases hq with ⟨hlt, hlast⟩ | ⟨rfl, hnone⟩
      · rw [if_pos hlt]
        refine (hstep p q t s hI hlast).bind fun r s' hr => ?_
        cases r with
        | done t' => exact .pure hr
        | next pos t' =>
          obtain ⟨hle, hI'⟩ := hr
          have hqp := hlast.lt
          exact ih pos _ t' s' (by omega) hI' (revFindNext_cases (word t') (by omega))
      · rw [if_neg (Nat.lt_irrefl _)]
        exact .pure (hend p t s hI hnone)
  exact hloop (w + 1) (p + 1) _ t s (by omega) hI (revFindStart_cases (word t) hp)

end

end BitWord
