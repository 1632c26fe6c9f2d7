import Mathlib

/-!
# State and failure

Rules for computations in `EStateM ε σ`, one per construct of the `do` language, for

* `Along T m`: whatever the outcome of `m`, the state it leaves is related by `T`, which is reflexive
  and transitive, to the one it started from;
* `Agree R m m'`: from states related by `R`, `m` and `m'` have the same outcome and leave related
  states;
* `Returns m s Q`: from `s`, `m` succeeds with a value and a state that satisfy `Q`;
* `Outcome m s Q E`: as `Returns`, but `m` may also fail, with a failure that satisfies `E`.

The first two hold of runs that fail half-way as well.
-/

namespace StateError

variable {ε σ τ α β : Type}

/-- The state an outcome leaves, on success and on failure. -/
def final : EStateM.Result ε σ α → σ
  | .ok _ s => s
  | .error _ s => s

@[simp] theorem final_ok (a : α) (s : σ) : final (.ok a s : EStateM.Result ε σ α) = s := rfl

@[simp] theorem final_error (e : ε) (s : σ) :
    final (.error e s : EStateM.Result ε σ α) = s := rfl

section
variable (s : σ)

@[simp] theorem run_pure (a : α) : (pure a : EStateM ε σ α).run s = .ok a s := rfl

@[simp] theorem run_throw (e : ε) : (throw e : EStateM ε σ α).run s = .error e s := rfl

@[simp] theorem run_get : (get : EStateM ε σ σ).run s = .ok s s := rfl

@[simp] theorem run_set (t : σ) : (set t : EStateM ε σ PUnit).run s = .ok ⟨⟩ t := rfl

@[simp] theorem run_modify (f : σ → σ) :
    (modify f : EStateM ε σ PUnit).run s = .ok ⟨⟩ (f s) := rfl

@[simp] theorem run_modifyGet (f : σ → α × σ) :
    (modifyGet f : EStateM ε σ α).run s = .ok (f s).1 (f s).2 := rfl

theorem run_bind (m : EStateM ε σ α) (k : α → EStateM ε σ β) :
    (m >>= k).run s = match m.run s with
      | .ok a s' => (k a).run s'
      | .error e s' => .error e s' := rfl

end

section
variable {m : EStateM ε σ α} {k : α → EStateM ε σ β} {s s' : σ}

theorem run_bind_ok (h : m.run s = .ok a s') : (m >>= k).run s = (k a).run s' := by
  rw [run_bind, h]

theorem run_bind_error (h : m.run s = .error e s') : (m >>= k).run s = .error e s' := by
  rw [run_bind, h]

theorem run_bind_eq_ok (h : (m >>= k).run s = .ok b s') :
    ∃ a s1, m.run s = .ok a s1 ∧ (k a).run s1 = .ok b s' := by
  rw [run_bind] at h
  cases hm : m.run s with
  | ok a s1 => exact ⟨a, s1, rfl, by rwa [hm] at h⟩
  | error e s1 => rw [hm] at h; cases h

end

/-! ## Unary rule: every outcome moves the state along a relation -/

/-- Every run of `m` leaves a state related by `T` to its starting state. -/
def Along (T : σ → σ → Prop) (m : EStateM ε σ α) : Prop := ∀ s, T s (final (m.run s))

theorem Along.pure (hr : ∀ s, T s s) (a : α) : Along T (pure a : EStateM ε σ α) := hr

theorem Along.throw (hr : ∀ s, T s s) (e : ε) : Along T (throw e : EStateM ε σ α) := hr

theorem Along.bind (ht : ∀ s1 s2 s3, T s1 s2 → T s2 s3 → T s1 s3) (hm : Along T m)
    (hk : ∀ a, Along T (k a)) :
    Along T (m >>= k) := by
  intro s
  have h := hm s
  rw [run_bind]
  cases hms : m.run s with
  | ok a s' => rw [hms] at h; exact ht _ _ _ h (hk a s')
  | error e s' => rw [hms] at h; exact h

theorem Along.ite [Decidable c] (hm : Along T m) (hm' : Along T m') :
    Along T (if c then m else m') := by
  split
  · exact hm
  · exact hm'

theorem Along.of_ok (h : Along T m) (hrun : m.run s = .ok a s') : T s s' := by
  have hs := h s
  rwa [hrun] at hs

/-! ## Relational rule: two computations agree -/

/-- Two outcomes agree: the same value or the same failure, in states related by `R`. -/
def AgreeOn (R : σ → τ → Prop) : EStateM.Result ε σ α → EStateM.Result ε τ α → Prop
  | .ok a s, .ok b t => a = b ∧ R s t
  | .error e s, .error f t => e = f ∧ R s t
  | _, _ => False

/-- From related states, `m` and `m'` agree. -/
def Agree (R : σ → τ → Prop) (m : EStateM ε σ α) (m' : EStateM ε τ α) : Prop :=
  ∀ s t, R s t → AgreeOn R (m.run s) (m'.run t)

section
variable {R : σ → τ → Prop}

theorem Agree.pure (a : α) : Agree R (pure a : EStateM ε σ α) (pure a) := fun _ _ h => ⟨rfl, h⟩

theorem Agree.throw (e : ε) : Agree R (throw e : EStateM ε σ α) (throw e) := fun _ _ h => ⟨rfl, h⟩

theorem Agree.modify (h : ∀ s t, R s t → R (f s) (g t)) :
    Agree R (modify f : EStateM ε σ PUnit) (modify g) := fun s t hst => ⟨rfl, h s t hst⟩

theorem Agree.bind (hm : Agree R m m') (hk : ∀ a, Agree R (k a) (k' a)) :
    Agree R (m >>= k) (m' >>= k') := by
  intro s t hst
  have h := hm s t hst
  rw [run_bind, run_bind]
  cases hms : m.run s with
  | ok a s' =>
    cases hmt : m'.run t with
    | ok b t' =>
      rw [hms, hmt] at h
      obtain ⟨rfl, hst'⟩ := h
      exact hk a s' t' hst'
    | error e t' => rw [hms, hmt] at h; exact h.elim
  | error e s' =>
    cases hmt : m'.run t with
    | ok b t' => rw [hms, hmt] at h; exact h.elim
    | error e' t' => rw [hms, hmt] at h; exact h

theorem Agree.ite [Decidable c] (h1 : Agree R m1 m1') (h2 : Agree R m2 m2') :
    Agree R (if c then m1 else m2) (if c then m1' else m2') := by
  split
  · exact h1
  · exact h2

end

/-! ## Total correctness: a computation returns -/

/-- From the state `s`, `m` returns a value in a state that satisfy `Q`. -/
def Returns (m : EStateM ε σ α) (s : σ) (Q : α → σ → Prop) : Prop :=
  ∃ a s', m.run s = .ok a s' ∧ Q a s'

section
variable {m : EStateM ε σ α} {s : σ} {P : α → σ → Prop}

theorem Returns.pure (h : Q a s) : Returns (pure a : EStateM ε σ α) s Q := ⟨a, s, rfl, h⟩

theorem Returns.mono (h : Returns m s P) (hPQ : ∀ a s', P a s' → Q a s') : Returns m s Q := by
  obtain ⟨a, s', hm, hP⟩ := h
  exact ⟨a, s', hm, hPQ a s' hP⟩

theorem Returns.bind (hm : Returns m s P) (hk : ∀ a s', P a s' → Returns (k a) s' R) :
    Returns (m >>= k) s R := by
  obtain ⟨a, s', hrun, hP⟩ := hm
  obtain ⟨b, s'', hrun', hR⟩ := hk a s' hP
  exact ⟨b, s'', by rw [run_bind_ok hrun, hrun'], hR⟩

theorem Returns.step (hm : m.run s = .ok a s') (hk : Returns (k a) s' R) :
    Returns (m >>= k) s R := by
  obtain ⟨b, s'', hrun, hR⟩ := hk
  exact ⟨b, s'', by rw [run_bind_ok hm, hrun], hR⟩

theorem Returns.with_run (h : Returns m s Q) : Returns m s fun a s' => m.run s = .ok a s' ∧ Q a s' := by
  obtain ⟨a, s', hrun, hQ⟩ := h
  exact ⟨a, s', hrun, hrun, hQ⟩

theorem Returns.and_along (h : Returns m s Q) (hm : Along T m) :
    Returns m s fun a s' => Q a s' ∧ T s s' := by
  obtain ⟨a, s', hrun, hQ⟩ := h
  have hT := hm s
  rw [hrun] at hT
  exact ⟨a, s', hrun, hQ, hT⟩

end

/-! ## Computations that may fail in a known way -/

/-- From the state `s`, `m` returns a value in a state that satisfy `Q`, or fails with `E`. -/
def Outcome (m : EStateM ε σ α) (s : σ) (Q : α → σ → Prop) (E : ε → Prop) : Prop :=
  Returns m s Q ∨ ∃ e s', m.run s = .error e s' ∧ E e

section
variable {m : EStateM ε σ α} {s : σ} {P : α → σ → Prop} {E : ε → Prop}

theorem Returns.outcome (h : Returns m s Q) (E : ε → Prop) : Outcome m s Q E := .inl h

theorem Outcome.of_ok (h : Outcome m s Q E) (hrun : m.run s = .ok a s') : Q a s' := by
  rcases h with ⟨a', s'', hrun', hQ⟩ | ⟨e, s'', hrun', -⟩
  · rw [hrun] at hrun'
    cases hrun'
    exact hQ
  · rw [hrun] at hrun'
    cases hrun'

theorem Outcome.pure (h : Q a s) : Outcome (pure a : EStateM ε σ α) s Q E :=
  (Returns.pure h).outcome E

theorem Outcome.mono (h : Outcome m s P E) (hPQ : ∀ a s', P a s' → Q a s') : Outcome m s Q E :=
  h.imp_left fun h => h.mono hPQ

theorem Outcome.bind (hm : Outcome m s P E) (hk : ∀ a s', P a s' → Outcome (k a) s' R E) :
    Outcome (m >>= k) s R E := by
  rcases hm with ⟨a, s', hrun, hP⟩ | ⟨e, s', hrun, hE⟩
  · rcases hk a s' hP with ⟨b, s'', hrun', hR⟩ | ⟨e, s'', hrun', hE⟩
    · exact .inl ⟨b, s'', by rw [run_bind_ok hrun, hrun'], hR⟩
    · exact .inr ⟨e, s'', by rw [run_bind_ok hrun, hrun'], hE⟩
  · exact .inr ⟨e, s', run_bind_error hrun, hE⟩

theorem Returns.andThen (hm : Returns m s P) (hk : ∀ a s', P a s' → Outcome (k a) s' R E) :
    Outcome (m >>= k) s R E :=
  (hm.outcome E).bind hk

theorem Outcome.step (hm : m.run s = .ok a s') (hk : Outcome (k a) s' R E) :
    Outcome (m >>= k) s R E :=
  Returns.andThen (P := fun b t => b = a ∧ t = s') ⟨a, s', hm, rfl, rfl⟩ fun b t h => by
    obtain ⟨rfl, rfl⟩ := h
    exact hk

theorem Outcome.map (h : Outcome m s (fun a s' => R (f a) s') E) :
    Outcome (f <$> m) s R E := by
  rw [map_eq_pure_bind]
  exact h.bind fun a s' hR => .pure hR

theorem Outcome.weaken (h : Outcome m s Q E) (hE : ∀ e, E e → E' e) :
    Outcome m s Q E' :=
  h.imp_right fun ⟨e, s', hrun, he⟩ => ⟨e, s', hrun, hE e he⟩

theorem Outcome.returns (h : Outcome m s Q E) (hE : ∀ e, ¬ E e) : Returns m s Q := by
  rcases h with h | ⟨e, s', -, he⟩
  · exact h
  · exact (hE e he).elim

end

end StateError
