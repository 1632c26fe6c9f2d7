import Xdp2.Dtable.Lookup

/-!
# The switch macros

`switch.h`: `XDP2_SWITCH_START` and the cases of such a block, which compare a target with values of
its type, as the tables do; both are keys, the bytes of an object. The flag `__xdp2_switch_check` is
set by the first comparison that holds and never reset, so after a case that does not break the
cases behind it are executed whether their comparisons hold or not (`switch_lawful_iff`). The prefix
length of a case is cut to the size of the value in bytes, while the comparison takes it in bits
(`casePrefix_iff`). In a block of `XDP2_SELECT_START` the upper bound of a range is compared as if it
were a lower one (`select_iff`).
-/

namespace Xdp2

/-! ## Prefix cases -/

/-- The comparison of `XDP2_SWITCH_CASE_PREFIX`: the length is an `unsigned int` and cut to the size
of the value. -/
def casePrefix (target v : Key n) (plen : Nat) : Option Bool :=
  let plen := plen % 2 ^ 32
  comparePrefix target v (if n < plen then n else plen)

theorem casePrefix_eq (target v : Key n) (plen : Nat) :
    casePrefix target v plen =
      some (decide (∀ k < min n (plen % 2 ^ 32), keyBit target k = keyBit v k)) := by
  have hlen : (if n < plen % 2 ^ 32 then n else plen % 2 ^ 32) = min n (plen % 2 ^ 32) := by
    split <;> omega
  rw [casePrefix, hlen]
  exact comparePrefix_eq (k := ⟨min n (plen % 2 ^ 32), target⟩) (by dsimp only; omega)
    (by dsimp only; omega)

/-- The key with one bit. -/
def oneBit (n k : Nat) : Key n := fun i =>
  if i.val = k / 8 then ⟨BitVec.twoPow 8 (7 - k % 8)⟩ else 0

theorem keyBit_oneBit (hk : k < 8 * n) (m : Nat) :
    keyBit (oneBit n k) m = decide (m = k) := by
  rw [keyBit]
  split
  · rw [oneBit]
    dsimp only
    split
    · rw [BitVec.getMsbD, BitVec.getLsbD_twoPow, decide_eq_true (show m % 8 < 8 by omega),
        decide_eq_true (show 7 - k % 8 < 8 by omega), Bool.true_and, Bool.true_and,
        decide_eq_decide]
      omega
    · rw [decide_eq_false (by rintro rfl; contradiction)]
      exact BitVec.getMsbD_zero
  · rw [decide_eq_false (by omega)]

theorem keyBit_zero (m : Nat) : keyBit (fun _ => 0 : Key n) m = false := by
  rw [keyBit]
  split
  · exact BitVec.getMsbD_zero
  · rfl

/-- **The comparison of a prefix case is that of the first `plen` bits, for all targets and values
of a size, if and only if `plen` is no more than the number of bytes.** -/
theorem casePrefix_iff (n plen : Nat) :
    (∀ target v : Key n, casePrefix target v plen = some true ↔
      ∀ k < min plen (8 * n), keyBit target k = keyBit v k) ↔
    (plen ≤ n ∧ plen < 2 ^ 32) ∨ n = 0 := by
  simp only [casePrefix_eq, Option.some_inj, decide_eq_true_eq]
  constructor
  · intro h
    by_contra hcond
    -- two keys that differ in the first bit that should be compared and is not
    have hk : min n (plen % 2 ^ 32) < min plen (8 * n) := by omega
    have hsame : ∀ m < min n (plen % 2 ^ 32),
        keyBit (oneBit n (min n (plen % 2 ^ 32))) m = keyBit (fun _ => 0 : Key n) m := by
      intro m hm
      rw [keyBit_oneBit (by omega), decide_eq_false (by omega), keyBit_zero]
    have hbit := (h _ _).mp hsame _ hk
    rw [keyBit_oneBit (by omega), decide_eq_true rfl, keyBit_zero] at hbit
    cases hbit
  · intro hcond target v
    rw [show min n (plen % 2 ^ 32) = min plen (8 * n) by omega]

/-- Two values of two bytes that differ in their third bit match with a prefix length of 16. -/
theorem casePrefix_short :
    casePrefix (oneBit 2 2) (fun _ => 0) 16 = some true ∧
      keyBit (oneBit 2 2) 2 ≠ keyBit (fun _ => 0 : Key 2) 2 := by
  decide +kernel

/-! ## Switch blocks -/

/-- How a case compares the target. -/
inductive CaseKind (n : Nat) where
  | equal (v : Key n)
  | tern (v mask : Key n)
  | plen (v : Key n) (len : Nat)
  | default

/-- A case, and whether its block breaks out of the switch. -/
structure SwitchCase (n : Nat) where
  kind : CaseKind n
  breaks : Bool

/-- The comparison of a case. The one under a mask has a result for sizes that an `int` can count. -/
def CaseKind.compare (target : Key n) : CaseKind n → Bool
  | equal v => compareEqual target v
  | tern v mask => compareTern target v mask == some true
  | plen v len => casePrefix target v len == some true
  | default => true

/-- `XDP2_SWITCH_CASE_EQUAL`, `XDP2_SWITCH_CASE_TERN` and `XDP2_SWITCH_CASE_PREFIX`, and not
`XDP2_SWITCH_DEFAULT`, which opens a block without a test. -/
def CaseKind.isTest : CaseKind n → Bool
  | default => false
  | _ => true

/-- The cases of a block, from a value of `__xdp2_switch_check` on: which of them are executed. -/
def runCases (target : Key n) : (check : Bool) → List (SwitchCase n) → List Bool
  | _, [] => []
  | check, c :: cs =>
    let check := if c.kind.isTest && !check then c.kind.compare target else check
    let executed := !c.kind.isTest || check
    if executed && c.breaks then executed :: cs.map fun _ => false
    else executed :: runCases target check cs

/-- A block from `XDP2_SWITCH_START` to `XDP2_SWITCH_END`. -/
def runSwitch (target : Key n) (cases : List (SwitchCase n)) : List Bool :=
  runCases target false cases

theorem runCases_cons (target : Key n) (check : Bool) (c : SwitchCase n) (cs : List (SwitchCase n)) :
    ∃ executed check', runCases target check (c :: cs) =
        executed :: (if executed && c.breaks then cs.map (fun _ => false)
          else runCases target check' cs) ∧
      (executed = true ↔ c.kind.compare target = true ∨
        c.kind.isTest = true ∧ check = true) ∧
      (check' = true ↔ check = true ∨
        c.kind.isTest = true ∧ c.kind.compare target = true) := by
  refine ⟨!c.kind.isTest || if c.kind.isTest && !check then c.kind.compare target else check,
    if c.kind.isTest && !check then c.kind.compare target else check, ?_, ?_, ?_⟩
  · rw [runCases]
    exact (apply_ite (List.cons _) _ _ _).symm
  · cases hkind : c.kind with
    | default => simp [CaseKind.isTest, CaseKind.compare]
    | equal v | tern v mask | plen v len => cases check <;> simp [CaseKind.isTest]
  · cases hkind : c.kind with
    | default => simp [CaseKind.isTest]
    | equal v | tern v mask | plen v len => cases check <;> simp [CaseKind.isTest]

theorem runCases_iff {check : Bool} {cases : List (SwitchCase n)} {i : Nat} {c : SwitchCase n}
    (hc : cases[i]? = some c) :
    (runCases target check cases)[i]? = some true ↔
      (c.kind.compare target = true ∨ c.kind.isTest = true ∧ (check = true ∨
        ∃ m d, m < i ∧ cases[m]? = some d ∧ d.kind.isTest = true ∧
          d.kind.compare target = true)) ∧
      ∀ m d, m < i → cases[m]? = some d →
        (runCases target check cases)[m]? = some true → d.breaks = false := by
  induction cases generalizing check i with
  | nil => cases hc
  | cons c' cs ih =>
    obtain ⟨executed, check', heq, hexecuted, hcheck⟩ :=
      runCases_cons target check c' cs
    rw [heq]
    cases i with
    | zero =>
      obtain rfl : c' = c := Option.some_inj.mp hc
      simp [hexecuted]
    | succ i =>
      rw [List.getElem?_cons_succ] at hc ⊢
      split
      · rename_i hbreak
        rw [Bool.and_eq_true] at hbreak
        refine ⟨fun h => ?_, fun h => ?_⟩
        · rw [List.getElem?_map, hc] at h
          cases h
        · have := h.2 0 c' (Nat.succ_pos i) rfl (by rw [List.getElem?_cons_zero, hbreak.1])
          rw [hbreak.2] at this
          cases this
      · rename_i hgo
        rw [ih hc, hcheck]
        refine and_congr (or_congr Iff.rfl (and_congr Iff.rfl ?_)) ?_
        · rw [or_assoc]
          refine or_congr Iff.rfl ⟨?_, ?_⟩
          · rintro (⟨htest, hholds⟩ | ⟨m, d, hm, hd, h⟩)
            · exact ⟨0, c', Nat.succ_pos i, rfl, htest, hholds⟩
            · exact ⟨m + 1, d, Nat.succ_lt_succ hm, hd, h⟩
          · rintro ⟨m, d, hm, hd, h⟩
            cases m with
            | zero =>
              obtain rfl : c' = d := Option.some_inj.mp hd
              exact .inl h
            | succ m => exact .inr ⟨m, d, Nat.lt_of_succ_lt_succ hm, hd, h⟩
        · refine ⟨fun h m d hm hd hrun => ?_, fun h m d hm hd hrun => ?_⟩
          · cases m with
            | zero =>
              obtain rfl : c' = d := Option.some_inj.mp hd
              rw [List.getElem?_cons_zero, Option.some_inj] at hrun
              rw [hrun, Bool.true_and, Bool.not_eq_true] at hgo
              exact hgo
            | succ m => exact h m d (Nat.lt_of_succ_lt_succ hm) hd hrun
          · exact h (m + 1) d (Nat.succ_lt_succ hm) hd hrun

/-- A case is executed if and only if its own comparison holds and no block that was executed before
it broke out. -/
def Lawful (target : Key n) (cases : List (SwitchCase n)) (executed : List Bool) : Prop :=
  ∀ (i : Nat) (c : SwitchCase n), cases[i]? = some c → (executed[i]? = some true ↔
    c.kind.compare target = true ∧
      ∀ (m : Nat) (d : SwitchCase n), m < i → cases[m]? = some d → executed[m]? = some true →
        d.breaks = false)

/-- Once a test has held, the cases after it hold as well, up to one that breaks. -/
def Steady (target : Key n) (cases : List (SwitchCase n)) : Prop :=
  ∀ (i j : Nat) (c d : SwitchCase n), i < j → cases[i]? = some c → cases[j]? = some d →
    c.kind.isTest = true → c.kind.compare target = true →
    (∀ (m : Nat) (e : SwitchCase n), m < j → cases[m]? = some e → e.kind.compare target = true →
      e.breaks = false) →
    d.kind.compare target = true

/-- **A switch block evaluates its cases one by one, each by its own comparison, if and only if the
cases behind one that holds and does not break hold as well.** -/
theorem switch_lawful_iff (target : Key n) (cases : List (SwitchCase n)) :
    Lawful target cases (runSwitch target cases) ↔ Steady target cases := by
  constructor
  · intro hlaw i j c d hij hc hd htest hholds hgo
    cases hkind : d.kind.isTest with
    | false =>
      cases hd' : d.kind with
      | default => rfl
      | equal v | tern v mask | plen v len =>
        rw [hd'] at hkind
        cases hkind
    | true =>
      refine ((hlaw j d hd).mp ?_).1
      refine (runCases_iff hd).mpr ⟨.inr ⟨hkind, .inr ⟨i, c, hij, hc, htest, hholds⟩⟩, ?_⟩
      intro m e hm he hrun
      exact hgo m e hm he ((hlaw m e he).mp hrun).1
  · intro hsteady i c hc
    refine (runCases_iff hc).trans (and_congr_left fun hgo => ⟨?_, .inl⟩)
    rintro (hholds | ⟨-, hcheck | ⟨m, d, hm, hd, htest, hholds⟩⟩)
    · exact hholds
    · cases hcheck
    · refine hsteady m i d c hm hd hc htest hholds fun k e hk he hholds' => ?_
      -- a case that is reached and holds is executed
      refine hgo k e hk he ((runCases_iff he).mpr ⟨.inl hholds', fun m' e' hm' => ?_⟩)
      exact hgo m' e' (hm'.trans hk)

/-- A case that does not hold comes after one that does. -/
theorem switch_executes_next :
    let cases : List (SwitchCase 1) := [⟨.equal fun _ => 1, false⟩, ⟨.equal fun _ => 2, false⟩]
    runSwitch (fun _ => 1) cases = [true, true] ∧
      compareEqual (fun _ => 1 : Key 1) (fun _ => 2) = false := by
  decide +kernel

/-! ## Select blocks

The cases of `XDP2_SELECT_START` compare targets of any integer types; `α` is the type that the
operands of a comparison are converted to. -/

section
variable {α : Type} [DecidableEq α] [LE α] [DecidableLE α] [XorOp α] [AndOp α] [Zero α]

/-- The arguments of a case in the order of the targets. Those left out are `none`, or come after the
end of the list. -/
inductive SelectKind (α : Type) where
  | case (vs : List (Option α))
  | range (pairs : List (Option α × Option α))
  | mask (pairs : List (Option α × Option α))
  | maskAny (masks : List (Option α))

/-- A case, and whether its block breaks out of the select. -/
structure SelectCase (α : Type) where
  kind : SelectKind α
  breaks : Bool

/-- A test holds for an argument that is left out. -/
def orOmitted (test : α → Bool) : Option α → Bool
  | none => true
  | some v => test v

/-- The comparison of a case, with `__XDP2_SELECT_COMPARE_ONE`, `__XDP2_SELECT_COMPARE_RANGE_ONE`,
`__XDP2_SELECT_COMPARE_MASK_ONE` or `__XDP2_SELECT_COMPARE_MASK_ANY_ONE` for each target. Both bounds
of a range are compared with `>=`. -/
def SelectKind.compare (targets : List α) : SelectKind α → Bool
  | case vs => (targets.zip vs).all fun (x, v) => orOmitted (x = ·) v
  | range pairs => (targets.zip pairs).all fun (x, lo, hi) =>
      orOmitted (· ≤ x) lo && orOmitted (· ≤ x) hi
  | mask pairs => (targets.zip pairs).all fun (x, v, m) =>
      orOmitted (fun v => orOmitted (fun m => (x ^^^ v) &&& m = 0) m) v
  | maskAny masks => (targets.zip masks).all fun (x, m) => orOmitted (fun m => x &&& m ≠ 0) m

/-- The cases of a block, from a value of `__xdp2_select_fallthrough` on: which of them are
executed. -/
def runSelectCases (targets : List α) : (fallthrough : Bool) → List (SelectCase α) → List Bool
  | _, [] => []
  | fallthrough, c :: cs =>
    let executed := fallthrough || c.kind.compare targets
    executed :: if executed && c.breaks then cs.map fun _ => false
      else runSelectCases targets executed cs

/-- A block from `XDP2_SELECT_START` to `XDP2_SELECT_END`. -/
def runSelect (targets : List α) (cases : List (SelectCase α)) : List Bool :=
  runSelectCases targets false cases

/-- A case matches. In a range it has the bounds on both sides. -/
def SelectKind.matches (targets : List α) : SelectKind α → Bool
  | range pairs => (targets.zip pairs).all fun (x, lo, hi) =>
      orOmitted (· ≤ x) lo && orOmitted (x ≤ ·) hi
  | kind => kind.compare targets

/-- The blocks up to the first break. -/
def untilBreak : List (SelectCase α) → List Bool
  | [] => []
  | c :: cs => true :: if c.breaks then cs.map fun _ => false else untilBreak cs

/-- The blocks from the first case that holds up to the first break. -/
def fromFirst (holds : SelectKind α → Bool) : List (SelectCase α) → List Bool
  | [] => []
  | c :: cs => if holds c.kind then untilBreak (c :: cs) else false :: fromFirst holds cs

theorem runSelectCases_true (targets : List α) (cases : List (SelectCase α)) :
    runSelectCases targets true cases = untilBreak cases := by
  induction cases with
  | nil => rfl
  | cons c cs ih => rw [runSelectCases, untilBreak, Bool.true_or, Bool.true_and, ih]

theorem runSelect_eq (targets : List α) (cases : List (SelectCase α)) :
    runSelect targets cases = fromFirst (·.compare targets) cases := by
  induction cases with
  | nil => rfl
  | cons c cs ih =>
    rw [runSelect, runSelectCases, fromFirst, Bool.false_or]
    cases c.kind.compare targets with
    | false => rw [← ih]; rfl
    | true => rw [runSelectCases_true]; rfl

/-- The first case that matches or whose comparison holds does both. -/
def FirstAgrees (targets : List α) (cases : List (SelectCase α)) : Prop :=
  ∀ before (c : SelectCase α) after, cases = before ++ c :: after →
    (∀ d ∈ before, d.kind.compare targets = false ∧ d.kind.matches targets = false) →
    c.kind.compare targets = c.kind.matches targets

theorem firstAgrees_cons {targets : List α} {c : SelectCase α} {cs : List (SelectCase α)}
    (hcompare : c.kind.compare targets = false) (hmatches : c.kind.matches targets = false) :
    FirstAgrees targets (c :: cs) ↔ FirstAgrees targets cs := by
  constructor
  · rintro h before d after rfl hbefore
    refine h (c :: before) d after rfl fun e he => ?_
    rcases List.mem_cons.mp he with rfl | he
    · exact ⟨hcompare, hmatches⟩
    · exact hbefore e he
  · intro h before d after heq hbefore
    cases before with
    | nil =>
      obtain ⟨rfl, -⟩ := List.cons_eq_cons.mp heq
      rw [hcompare, hmatches]
    | cons e before =>
      obtain ⟨rfl, rfl⟩ := List.cons_eq_cons.mp heq
      exact h before d after rfl fun e he => hbefore e (List.mem_cons_of_mem _ he)

/-- **A select block executes the blocks from the first case that matches up to the first break, if
and only if the first case that matches or whose comparison holds does both.** They differ for a
range, whose comparison does not hold for a target below the upper bound. -/
theorem select_iff (targets : List α) (cases : List (SelectCase α)) :
    runSelect targets cases = fromFirst (·.matches targets) cases ↔ FirstAgrees targets cases := by
  rw [runSelect_eq]
  induction cases with
  | nil => exact iff_of_true rfl fun before c after heq => by cases before <;> cases heq
  | cons c cs ih =>
    have hfirst : FirstAgrees targets (c :: cs) → c.kind.compare targets = c.kind.matches targets :=
      fun h => h [] c cs rfl fun _ hd => by cases hd
    rw [fromFirst, fromFirst]
    cases hcompare : c.kind.compare targets <;> cases hmatches : c.kind.matches targets <;>
      rw [hcompare, hmatches] at hfirst
    · rw [firstAgrees_cons hcompare hmatches, ← ih]
      exact List.cons_inj_right _
    · exact iff_of_false (fun h => by cases h) fun h => by cases hfirst h
    · exact iff_of_false (fun h => by cases h) fun h => by cases hfirst h
    · refine iff_of_true rfl fun before d after heq hbefore => ?_
      cases before with
      | nil =>
        obtain ⟨rfl, -⟩ := List.cons_eq_cons.mp heq
        rw [hcompare, hmatches]
      | cons e before =>
        obtain ⟨rfl, -⟩ := List.cons_eq_cons.mp heq
        cases hcompare.symm.trans (hbefore c List.mem_cons_self).1

end

/-- Five is not between 1 and 10, and 20 is. -/
theorem select_range_bound :
    let cases : List (SelectCase (BitVec 8)) := [⟨.range [(some 1, some 10)], true⟩]
    runSelect [5] cases = [false] ∧ fromFirst (·.matches [5]) cases = [true] ∧
      runSelect [20] cases = [true] ∧ fromFirst (·.matches [20]) cases = [false] := by
  decide +kernel

end Xdp2
