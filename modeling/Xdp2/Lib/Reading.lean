import Mathlib

/-!
# Computations that read bytes

`Reading α` reads bytes at addresses and returns an `α`; where the memory has no byte the run ends
without a result. A memory with more bytes gives the same results (`Reading.run_mono`).

`runSteps` repeats a step that goes on or returns. What follows the bytes of a memory does not
matter to a loop just if no state it gets to reads behind them (`same_runs_iff`).
-/

/-- A computation that reads bytes. -/
inductive Reading (α : Type) where
  | result (a : α)
  | read (addr : Nat) (next : UInt8 → Reading α)

namespace Reading

/-- The bytes of a memory. -/
abbrev Bytes := Nat → Option UInt8

variable {α β : Type}

def andThen : Reading α → (α → Reading β) → Reading β
  | result a, f => f a
  | read addr next, f => read addr fun b => (next b).andThen f

instance : Monad Reading where
  pure := result
  bind := andThen

/-- The result in a memory, or `none` if a byte is read that is not there. -/
def run (m : Bytes) : Reading α → Option α
  | result a => some a
  | read addr next =>
    match m addr with
    | none => none
    | some b => (next b).run m

/-! ## Bytes and numbers -/

/-- A byte. -/
def byte (addr : Nat) : Reading Nat := read addr fun b => result b.toNat

/-- A number of two bytes, the highest first. -/
def be16 (addr : Nat) : Reading Nat := do
  let hi ← byte addr
  let lo ← byte (addr + 1)
  return 256 * hi + lo

/-- A number of four bytes, the highest first. -/
def be32 (addr : Nat) : Reading Nat := do
  let hi ← be16 addr
  let lo ← be16 (addr + 2)
  return 65536 * hi + lo

/-- A number of bytes that follow each other. -/
def bytes (addr : Nat) : (count : Nat) → Reading (List Nat)
  | 0 => return []
  | count + 1 => do
    let b ← byte addr
    let bs ← bytes (addr + 1) count
    return b :: bs

variable {m : Bytes}

@[simp] theorem run_pure (a : α) : run m (pure a) = some a := rfl

@[simp] theorem run_bind (p : Reading α) (f : α → Reading β) :
    run m (p >>= f) = (run m p).bind fun a => run m (f a) := by
  induction p with
  | result a => rfl
  | read addr next ih =>
    change run m (read addr fun b => (next b).andThen f) = _
    rw [run, run]
    cases m addr with
    | none => rfl
    | some b => exact ih b

theorem run_byte (addr : Nat) : run m (byte addr) = (m addr).map UInt8.toNat := by
  rw [byte, run]
  cases m addr with
  | none => rfl
  | some b => rfl

/-! ## Other memories -/

/-- The memory has the bytes of another one. -/
def Extends (m m' : Bytes) : Prop := ∀ addr b, m addr = some b → m' addr = some b

theorem run_mono (h : Extends m m') (hrun : run m p = some a) : run m' p = some a := by
  induction p with
  | result a => exact hrun
  | read addr next ih =>
    rw [run] at hrun ⊢
    cases hb : m addr with
    | none =>
      rw [hb] at hrun
      cases hrun
    | some b =>
      rw [hb] at hrun
      rw [h addr b hb]
      exact ih b hrun

theorem run_isSome (h : ∀ addr, (m addr).isSome) (p : Reading α) : (run m p).isSome := by
  induction p with
  | result a => rfl
  | read addr next ih =>
    obtain ⟨b, hb⟩ := Option.isSome_iff_exists.mp (h addr)
    rw [run, hb]
    exact ih b

theorem byte_isSome (h : (m addr).isSome) : ∃ v, run m (byte addr) = some v ∧ v < 256 := by
  obtain ⟨b, hb⟩ := Option.isSome_iff_exists.mp h
  exact ⟨b.toNat, by rw [run_byte, hb]; rfl, b.toNat_lt⟩

theorem be16_isSome (h : ∀ i < 2, (m (addr + i)).isSome) :
    ∃ v, run m (be16 addr) = some v ∧ v < 65536 := by
  obtain ⟨hi, hhi, hlt⟩ := byte_isSome (h 0 (by decide))
  obtain ⟨lo, hlo, hlt'⟩ := byte_isSome (h 1 (by decide))
  rw [Nat.add_zero] at hhi
  refine ⟨256 * hi + lo, ?_, by omega⟩
  rw [be16, run_bind, hhi, Option.bind_some, run_bind, hlo]
  rfl

theorem be32_isSome (h : ∀ i < 4, (m (addr + i)).isSome) :
    ∃ v, run m (be32 addr) = some v ∧ v < 2 ^ 32 := by
  obtain ⟨hi, hhi, hlt⟩ := be16_isSome fun i hi => h i (by omega)
  obtain ⟨lo, hlo, hlt'⟩ : ∃ v, run m (be16 (addr + 2)) = some v ∧ v < 65536 := be16_isSome fun i hi => by
    rw [Nat.add_assoc]
    exact h (2 + i) (by omega)
  refine ⟨65536 * hi + lo, ?_, by omega⟩
  rw [be32, run_bind, hhi, Option.bind_some, run_bind, hlo]
  rfl

theorem bytes_isSome (h : ∀ i < count, (m (addr + i)).isSome) :
    ∃ l, run m (bytes addr count) = some l := by
  induction count generalizing addr with
  | zero => exact ⟨[], rfl⟩
  | succ count ih =>
    obtain ⟨b, hb, -⟩ := byte_isSome (h 0 (Nat.succ_pos count))
    rw [Nat.add_zero] at hb
    obtain ⟨l, hl⟩ : ∃ l, run m (bytes (addr + 1) count) = some l := ih fun i hi => by
      rw [Nat.add_assoc]
      exact h (1 + i) (by omega)
    refine ⟨b :: l, ?_⟩
    rw [bytes, run_bind, hb, Option.bind_some, run_bind, hl]
    rfl

/-! ## What a computation gives -/

/-- Every result has a property. -/
def Gives (m : Bytes) (p : Reading α) (Q : α → Prop) : Prop := ∀ a, run m p = some a → Q a

/-- There is a result: no byte is read that is not there. -/
def Safe (m : Bytes) (p : Reading α) : Prop := (run m p).isSome

section
variable {addr count : Nat}

theorem gives_pure (h : P a) : Gives m (pure a) P := by
  intro a' ha'
  cases ha'
  exact h

theorem gives_bind (h : Gives m p fun a => Gives m (f a) Q) : Gives m (p >>= f) Q := by
  intro b hb
  rw [run_bind] at hb
  obtain ⟨a, ha, hb⟩ := Option.bind_eq_some_iff.mp hb
  exact h a ha b hb

theorem gives_ite [Decidable c] (hp : c → Gives m p P) (hq : ¬ c → Gives m q P) :
    Gives m (if c then p else q) P := by
  split
  · exact hp ‹_›
  · exact hq ‹_›

theorem gives_of_run (h : ∀ a, run m p = some a → P a) : Gives m p P := h

theorem gives_byte {P : Nat → Prop} (h : ∀ v, (m addr).isSome → run m (byte addr) = some v → P v) :
    Gives m (byte addr) P := by
  intro v hv
  refine h v ?_ hv
  rw [run_byte] at hv
  obtain ⟨b, hb, -⟩ := Option.map_eq_some_iff.mp hv
  rw [hb]
  rfl

theorem gives_be16 {P : Nat → Prop} (h : ∀ v, (m addr).isSome → run m (be16 addr) = some v → P v) :
    Gives m (be16 addr) P := by
  intro v hv
  refine h v ?_ hv
  rw [be16, run_bind] at hv
  obtain ⟨hi, hhi, -⟩ := Option.bind_eq_some_iff.mp hv
  exact gives_byte (fun _ hsome _ => hsome) hi hhi

theorem safe_pure (a : α) : Safe m (pure a) := rfl

theorem safe_bind (hp : Safe m p) (hf : ∀ a, run m p = some a → Safe m (f a)) : Safe m (p >>= f) := by
  obtain ⟨a, ha⟩ := Option.isSome_iff_exists.mp hp
  rw [Safe, run_bind, ha]
  exact hf a ha

theorem safe_ite [Decidable c] (hp : c → Safe m p) (hq : ¬ c → Safe m q) :
    Safe m (if c then p else q) := by
  split
  · exact hp ‹_›
  · exact hq ‹_›

end

/-! ### Reading before an end -/

section
variable {size addr count : Nat} (hm : ∀ addr < size, (m addr).isSome)
include hm

theorem safe_byte (h : addr < size) : Safe m (byte addr) := by
  obtain ⟨v, hv, -⟩ := byte_isSome (hm addr h)
  exact Option.isSome_of_eq_some hv

theorem safe_be16 (h : addr + 2 ≤ size) : Safe m (be16 addr) := by
  obtain ⟨v, hv, -⟩ := be16_isSome fun i hi => hm (addr + i) (by omega)
  exact Option.isSome_of_eq_some hv

theorem safe_be32 (h : addr + 4 ≤ size) : Safe m (be32 addr) := by
  obtain ⟨v, hv, -⟩ := be32_isSome fun i hi => hm (addr + i) (by omega)
  exact Option.isSome_of_eq_some hv

theorem safe_bytes (h : addr + count ≤ size) : Safe m (bytes addr count) := by
  obtain ⟨l, hl⟩ : ∃ l, run m (bytes addr count) = some l := bytes_isSome fun i hi => hm (addr + i) (by omega)
  exact Option.isSome_of_eq_some hl

end

theorem missing_left (h : run m p = none) : run m (p >>= f) = none := by
  rw [run_bind, h]
  rfl

theorem missing_right (h : ∀ a, run m (f a) = none) :
    run m (p >>= f) = none := by
  rw [run_bind]
  exact Option.bind_eq_none_iff.mpr fun a _ => h a

theorem be32_missing (h : m (addr + 3) = none) : run m (be32 addr) = none := by
  refine missing_right fun hi => missing_left (missing_right fun hi' => missing_left ?_)
  rw [run_byte, h]
  rfl

/-! ## Loops -/

section
variable {σ ρ : Type}

/-- What a loop has come to after a number of steps: nothing yet, or its end, which is a result or, with `none`
inside, a byte that is not there. -/
def runSteps (step : σ → Reading (σ ⊕ ρ)) (m : Bytes) : Nat → σ → Option (Option ρ)
  | 0, _ => none
  | k + 1, s =>
    match run m (step s) with
    | none => some none
    | some (.inl s') => runSteps step m k s'
    | some (.inr r) => some (some r)

/-- The states a loop gets to. -/
inductive Reaches (step : σ → Reading (σ ⊕ ρ)) (m : Bytes) (s : σ) : σ → Prop
  | refl : Reaches step m s s
  | tail {s' s'' : σ} : Reaches step m s s' → run m (step s') = some (.inl s'') → Reaches step m s s''

theorem Reaches.head (hstep : run m (step s) = some (.inl s')) (h : Reaches step m s' s'') :
    Reaches step m s s'' := by
  induction h with
  | refl => exact .tail .refl hstep
  | tail _ hstep' ih => exact .tail ih hstep'

theorem Reaches.cases_head (h : Reaches step m s s'') :
    s = s'' ∨ ∃ s', run m (step s) = some (.inl s') ∧ Reaches step m s' s'' := by
  induction h with
  | refl => exact .inl rfl
  | tail _ hstep ih =>
    rcases ih with rfl | ⟨s', hstep', hreach⟩
    · exact .inr ⟨_, hstep, .refl⟩
    · exact .inr ⟨s', hstep', .tail hreach hstep⟩

theorem Reaches.keeps {P : σ → Prop} (h : Reaches step m s s') (hs : P s)
    (hP : ∀ a b, Reaches step m s a → P a → run m (step a) = some (.inl b) → P b) : P s' := by
  induction h with
  | refl => exact hs
  | tail hreach hstep ih => exact hP _ _ hreach ih hstep

theorem runSteps_congr (h : ∀ s', Reaches step m s s' → run m' (step' s') = run m (step s')) (k : Nat) :
    runSteps step' m' k s = runSteps step m k s := by
  induction k generalizing s with
  | zero => rfl
  | succ k ih =>
    rw [runSteps, runSteps, h s .refl]
    cases hrun : run m (step s) with
    | none => rfl
    | some next =>
      cases next with
      | inl s' => exact ih fun a ha => h a (.head hrun ha)
      | inr r => rfl

theorem Reaches.runSteps_add (h : Reaches step m s s') :
    ∃ j, ∀ k, runSteps step m (j + k) s = runSteps step m k s' := by
  induction h with
  | refl => exact ⟨0, fun k => by rw [Nat.zero_add]⟩
  | tail _ hstep ih =>
    obtain ⟨j, hj⟩ := ih
    refine ⟨j + 1, fun k => ?_⟩
    rw [Nat.add_assoc, hj, Nat.add_comm 1 k, runSteps, hstep]

theorem runSteps_more (h : runSteps step m k s = some r) (j : Nat) :
    runSteps step m (j + k) s = some r := by
  induction k generalizing s with
  | zero => cases h
  | succ k ih =>
    rw [← Nat.add_assoc]
    rw [runSteps] at h ⊢
    cases hrun : run m (step s) with
    | none =>
      rw [hrun] at h
      exact h
    | some next =>
      rw [hrun] at h
      cases next with
      | inl s' => exact ih h
      | inr r => exact h

theorem runSteps_ne_missing (hm : ∀ addr, (m addr).isSome) (k : Nat) (s : σ) :
    runSteps step m k s ≠ some none := by
  induction k generalizing s with
  | zero =>
    intro h
    cases h
  | succ k ih =>
    obtain ⟨next, hnext⟩ := Option.isSome_iff_exists.mp (run_isSome hm (step s))
    rw [runSteps, hnext]
    cases next with
    | inl s' => exact ih s'
    | inr r =>
      intro h
      cases h

/-- **What follows the bytes does not matter** to a loop just if it misses none of them: in all memories that have
the bytes it then has come to the same after any number of steps. -/
theorem same_runs_iff :
    (∀ m1 m2, Extends m m1 → Extends m m2 → ∀ k, runSteps step m1 k s = runSteps step m2 k s) ↔
      ∀ s', Reaches step m s s' → (run m (step s')).isSome := by
  constructor
  · intro h s' hreach
    by_contra hnone
    obtain ⟨j, hj⟩ := hreach.runSteps_add
    have hmissed : runSteps step m (j + 1) s = some none := by
      rw [hj, runSteps, Option.not_isSome_iff_eq_none.mp hnone]
    -- the same bytes, and zeros everywhere else
    have hzeros := h m (fun addr => some ((m addr).getD 0)) (fun _ _ hb => hb)
      (fun _ _ hb => by dsimp only; rw [hb]; rfl) (j + 1)
    exact runSteps_ne_missing (fun _ => rfl) _ _ (hzeros.symm.trans hmissed)
  · intro h m1 m2 h1 h2 k
    have hsame : ∀ m', Extends m m' → runSteps step m' k s = runSteps step m k s := by
      intro m' hext
      refine runSteps_congr (fun s' hreach => ?_) k
      obtain ⟨next, hnext⟩ := Option.isSome_iff_exists.mp (h s' hreach)
      rw [hnext]
      exact run_mono hext hnext
    rw [hsame m1 h1, hsame m2 h2]

theorem runSteps_ends (μ : σ → Nat)
    (h : ∀ a b, Reaches step m s a → run m (step a) = some (.inl b) → μ b < μ a) :
    ∃ k r, runSteps step m k s = some r := by
  induction hμ : μ s using Nat.strongRecOn generalizing s with
  | _ n ih =>
    cases hrun : run m (step s) with
    | none => exact ⟨1, none, by rw [runSteps, hrun]⟩
    | some next =>
      cases next with
      | inl s' =>
        have hlt := h s s' .refl hrun
        obtain ⟨k, r, hr⟩ := ih (μ s') (hμ ▸ hlt) (fun a b ha => h a b (.head hrun ha)) rfl
        exact ⟨k + 1, r, by rw [runSteps, hrun]; exact hr⟩
      | inr r => exact ⟨1, some r, by rw [runSteps, hrun]⟩

theorem runSteps_goes_on {P : σ → Prop} (h : Reaches step m s s') (hs' : P s')
    (hP : ∀ a, P a → ∃ b, run m (step a) = some (.inl b) ∧ P b) (k : Nat) : runSteps step m k s = none := by
  have hfrom : ∀ k a, P a → runSteps step m k a = none := by
    intro k
    induction k with
    | zero => exact fun _ _ => rfl
    | succ k ih =>
      intro a ha
      obtain ⟨b, hstep, hb⟩ := hP a ha
      rw [runSteps, hstep]
      exact ih b hb
  obtain ⟨j, hj⟩ := h.runSteps_add
  cases hend : runSteps step m k s with
  | none => rfl
  | some r =>
    have hmore := runSteps_more hend j
    rw [hj, hfrom k s' hs'] at hmore
    cases hmore

end

end Reading
