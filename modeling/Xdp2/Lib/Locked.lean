import Mathlib

/-!
# Programs that work under a lock

A `Prog ε σ β α` works on a shared state `σ` in sections: within one it has the state to itself, and
at a `release` it lets go of it, to take it back in whatever state the others have left. A release
carries a `β`, which says where the program stands. `Prog.advance` runs a program to the end of its
section, `Prog.alone` to its end with nobody else at work, and `Pool` interleaves the sections of
any number of programs.

`wp` is the predicate transformer for all three, over a `Contract` of what a program owes at each
release and may expect when it comes back. `Pool.not_bad` is the rule for states that whoever brings
them about has to repair.
-/

namespace Locked

variable {ε σ β γ α α' : Type}

/-! ## Programs -/

/-- A program over the shared state `σ`. -/
inductive Prog (ε σ β α : Type) where
  | ret (a : α)
  | fail (e : ε)
  | read (k : σ → Prog ε σ β α)
  | write (s : σ) (k : Prog ε σ β α)
  | release (b : β) (k : Prog ε σ β α)

namespace Prog

/-- Sequencing. -/
def bind : Prog ε σ β α → (α → Prog ε σ β α') → Prog ε σ β α'
  | ret a, f => f a
  | fail e, _ => fail e
  | read k, f => read fun s => (k s).bind f
  | write s k, f => write s (k.bind f)
  | release b k, f => release b (k.bind f)

instance : Monad (Prog ε σ β) where
  pure := ret
  bind := bind

instance : MonadStateOf σ (Prog ε σ β) where
  get := read ret
  set s := write s (ret ⟨⟩)
  modifyGet f := read fun s => write (f s).2 (ret (f s).1)

end Prog

/-- Give up. -/
def fail (e : ε) : Prog ε σ β α := .fail e

/-- Let go of the state. -/
def release (b : β) : Prog ε σ β Unit := .release b (.ret ())

/-! ## One section -/

/-- How a section ends. -/
inductive Outcome (ε σ β α : Type) where
  | done (a : α) (s : σ)
  | failed (e : ε) (s : σ)
  | released (b : β) (k : Prog ε σ β α) (s : σ)

/-- Run a program to the end of its section. -/
def Prog.advance : Prog ε σ β α → σ → Outcome ε σ β α
  | ret a, s => .done a s
  | fail e, s => .failed e s
  | read k, s => (k s).advance s
  | write s k, _ => k.advance s
  | release b k, s => .released b k s

/-- Run a program to its end, where `work` is what happens at a release. -/
def Prog.alone (work : β → σ → σ) : Prog ε σ β α → σ → Except ε (α × σ)
  | ret a, s => .ok (a, s)
  | fail e, _ => .error e
  | read k, s => (k s).alone work s
  | write s k, _ => k.alone work s
  | release b k, s => k.alone work (work b s)

/-! ## The predicate transformer -/

/-- The terms on which a program shares its state. A `γ` is what the program itself keeps track of
for the proof. -/
structure Contract (ε σ β γ : Type) where
  /-- What holds at a release: of the `γ` and the state at the start of the section, the label, the
  state at its end and the `γ` from then on. -/
  owes : γ → σ → β → σ → γ → Prop
  /-- What the others do meanwhile: of the label, the `γ` and the states before and after. -/
  expects : β → γ → σ → σ → Prop
  /-- The failures that are allowed. -/
  allows : ε → Prop

/-- From the state `s`, in a section that started in `s0`, the program keeps to the contract, and
if it ends then in `Q`. -/
def wp (c : Contract ε σ β γ) (Q : α → γ → σ → σ → Prop) : Prog ε σ β α → γ → σ → σ → Prop
  | .ret a, g, s0, s => Q a g s0 s
  | .fail e, _, _, _ => c.allows e
  | .read k, g, s0, s => wp c Q (k s) g s0 s
  | .write s k, g, s0, _ => wp c Q k g s0 s
  | .release b k, g, s0, s =>
      ∃ g', c.owes g s0 b s g' ∧ ∀ s', c.expects b g' s s' → wp c Q k g' s' s'

section
variable {g : γ} {s0 s : σ}

@[simp] theorem wp_pure (a : α) :
    wp c Q (pure a : Prog ε σ β α) g s0 s ↔ Q a g s0 s := Iff.rfl

@[simp] theorem wp_get {Q : σ → γ → σ → σ → Prop} :
    wp c Q (get : Prog ε σ β σ) g s0 s ↔ Q s g s0 s := Iff.rfl

@[simp] theorem wp_set {Q : PUnit → γ → σ → σ → Prop} (s' : σ) :
    wp c Q (set s' : Prog ε σ β PUnit) g s0 s ↔ Q ⟨⟩ g s0 s' := Iff.rfl

@[simp] theorem wp_modify {Q : PUnit → γ → σ → σ → Prop} (f : σ → σ) :
    wp c Q (modify f : Prog ε σ β PUnit) g s0 s ↔ Q ⟨⟩ g s0 (f s) := Iff.rfl

@[simp] theorem wp_fail (e : ε) : wp c Q (fail e) g s0 s ↔ c.allows e := Iff.rfl

@[simp] theorem wp_release {Q : Unit → γ → σ → σ → Prop} (b : β) :
    wp c Q (release b) g s0 s ↔
      ∃ g', c.owes g s0 b s g' ∧ ∀ s', c.expects b g' s s' → Q () g' s' s' := Iff.rfl

@[simp] theorem wp_bind {Q : α' → γ → σ → σ → Prop} (p : Prog ε σ β α)
    (f : α → Prog ε σ β α') :
    wp c Q (p >>= f) g s0 s ↔ wp c (fun a => wp c Q (f a)) p g s0 s := by
  change wp c Q (p.bind f) g s0 s ↔ _
  induction p generalizing g s0 s with
  | ret a => rfl
  | fail e => rfl
  | read k ih => exact ih s
  | write s' k ih => exact ih
  | release b k ih =>
    exact exists_congr fun g' => and_congr_right fun _ => forall_congr' fun s' =>
      imp_congr_right fun _ => ih

theorem wp_mono (hQ : ∀ a g s0 s, Q a g s0 s → Q' a g s0 s) (h : wp c Q p g s0 s) :
    wp c Q' p g s0 s := by
  induction p generalizing g s0 s with
  | ret a => exact hQ _ _ _ _ h
  | fail e => exact h
  | read k ih => exact ih s h
  | write s' k ih => exact ih h
  | release b k ih =>
    obtain ⟨g', howes, hk⟩ := h
    exact ⟨g', howes, fun s' hs' => ih (hk s' hs')⟩

end

/-- What `wp` says of the end of a section. -/
def Outcome.Sat (c : Contract ε σ β γ) (Q : α → γ → σ → σ → Prop) (g : γ) (s0 : σ) :
    Outcome ε σ β α → Prop
  | done a s => Q a g s0 s
  | failed e _ => c.allows e
  | released b k s => ∃ g', c.owes g s0 b s g' ∧ ∀ s', c.expects b g' s s' → wp c Q k g' s' s'

theorem advance_sat (h : wp c Q p g s0 s) : (p.advance s).Sat c Q g s0 := by
  induction p generalizing s with
  | ret a => exact h
  | fail e => exact h
  | read k ih => exact ih s h
  | write s' k ih => exact ih h
  | release b k ih => exact h

/-! ## Alone -/

/-- Nobody else is at work: a release leads to the state that `work` makes. -/
def solo (work : β → σ → σ) : Contract ε σ β Unit where
  owes _ _ _ _ _ := True
  expects b _ s s' := s' = work b s
  allows _ := False

theorem alone_of_wp (h : wp (solo work) Q p () s0 s) :
    ∃ a s1 s', p.alone work s = .ok (a, s') ∧ Q a () s1 s' := by
  induction p generalizing s0 s with
  | ret a => exact ⟨a, s0, s, rfl, h⟩
  | fail e => exact h.elim
  | read k ih => exact ih s h
  | write s' k ih => exact ih h
  | release b k ih =>
    obtain ⟨_, -, hk⟩ := h
    exact ih (hk _ rfl)

/-! ## Many programs -/

/-- Any number of threads at work on one state: for each of them the label it stands at and the
rest of its program, or nothing when it is idle. -/
structure Pool (ε σ β α : Type) where
  state : σ
  threads : Nat → Option (β × Prog ε σ β α)

namespace Pool

/-- Nobody is at work. -/
def Quiet (x : Pool ε σ β α) : Prop := ∀ t, x.threads t = none

/-- The pool after a section of the thread `t`. -/
def after (x : Pool ε σ β α) (t : Nat) (r : Option (β × Prog ε σ β α)) (s : σ) :
    Pool ε σ β α :=
  ⟨s, Function.update x.threads t r⟩

/-- A step: an idle thread starts one of the operations, or a thread runs a section to its end. A
section that starts at the label `b` starts in a state that satisfies `cond b`. A thread that fails
takes no step any more. -/
inductive Step (ops : β → Prog ε σ β α → Prop) (cond : β → σ → Prop) :
    Pool ε σ β α → Pool ε σ β α → Prop
  | start {x : Pool ε σ β α} {t : Nat} {b : β} {p : Prog ε σ β α} (ht : x.threads t = none)
      (hp : ops b p) : Step ops cond x (x.after t (some (b, p)) x.state)
  | done {x : Pool ε σ β α} {t : Nat} {b : β} {p : Prog ε σ β α} {a : α} {s : σ}
      (ht : x.threads t = some (b, p)) (hc : cond b x.state)
      (hp : p.advance x.state = .done a s) : Step ops cond x (x.after t none s)
  | released {x : Pool ε σ β α} {t : Nat} {b b' : β} {p k : Prog ε σ β α} {s : σ}
      (ht : x.threads t = some (b, p)) (hc : cond b x.state)
      (hp : p.advance x.state = .released b' k s) : Step ops cond x (x.after t (some (b', k)) s)

/-- What a pool gets to. -/
def Reaches (ops : β → Prog ε σ β α → Prop) (cond : β → σ → Prop) :
    Pool ε σ β α → Pool ε σ β α → Prop :=
  Relation.ReflTransGen (Step ops cond)

/-! ### States that have to be repaired -/

/-- The contract of a program that keeps `inv` and, where it brings about a `bad` state, has to
come back and repair it. The flag says whether the program owes a repair; it may pass on a bad state
it found without owing it. -/
def repairs (inv bad : σ → Prop) (cond : β → σ → Prop) : Contract ε σ β Bool where
  owes o s0 _ s o' := inv s ∧ (bad s → o' = true ∨ (bad s0 ∧ o = false))
  expects b _ _ s' := inv s' ∧ cond b s'
  allows _ := True

/-- The program keeps to the contract and owes nothing when it ends. -/
def Repairs (inv bad : σ → Prop) (cond : β → σ → Prop) (o : Bool) (b : β) (p : Prog ε σ β α) :
    Prop :=
  ∀ s, inv s → cond b s →
    wp (repairs inv bad cond) (fun _ o s0 s => inv s ∧ (bad s → bad s0 ∧ o = false)) p o s s

/-- A section that started in `s0`, of a program that owed `o`, may end in `s` if the program owes
`o'` from then on. -/
def Passes (inv bad : σ → Prop) (o : Bool) (s0 s : σ) (o' : Bool) : Prop :=
  inv s ∧ (bad s → o' = true ∨ (bad s0 ∧ o = false))

/-- A piece of a program that starts at the label `b` and owes `o` then keeps to the contract, and
owes `o'` when it ends. -/
def Keeps (inv bad : σ → Prop) (cond : β → σ → Prop) (o : Bool) (b : β) (p : Prog ε σ β α)
    (o' : Bool) : Prop :=
  ∀ s, inv s → cond b s →
    wp (repairs inv bad cond) (fun _ o s0 s => Passes inv bad o s0 s o') p o s s

section
variable {inv bad : σ → Prop} {cond : β → σ → Prop} {o o' o'' : Bool} {b b' : β} {s0 s : σ}
  {p : Prog ε σ β α}

theorem Keeps.repairs (h : Keeps inv bad cond o b p false) : Repairs inv bad cond o b p := by
  intro s hs hc
  refine wp_mono (fun _ o s0 s hpass => ⟨hpass.1, fun hb => ?_⟩) (h s hs hc)
  exact (hpass.2 hb).resolve_left Bool.false_ne_true

theorem Passes.of_imp (hinv : inv s) (hbad : bad s → bad s0) : Passes inv bad o s0 s o := by
  refine ⟨hinv, fun hb => ?_⟩
  cases o with
  | true => exact .inl rfl
  | false => exact .inr ⟨hbad hb, rfl⟩

theorem Passes.same (hinv : inv s) : Passes inv bad o s s o := .of_imp hinv id

theorem Passes.of_not_bad (hinv : inv s) (hbad : ¬ bad s) : Passes inv bad o s0 s o' :=
  ⟨hinv, fun hb => absurd hb hbad⟩

theorem Passes.owing (hinv : inv s) : Passes inv bad o s0 s true := ⟨hinv, fun _ => .inl rfl⟩

theorem Passes.release (h : Passes inv bad o s0 s o') (hp : Keeps inv bad cond o' b p o'') :
    wp (Pool.repairs inv bad cond) (fun _ o s0 s => Passes inv bad o s0 s o'')
      (release b >>= fun _ => p) o s0 s :=
  ⟨o', h, fun s' hs' => hp s' hs'.1 hs'.2⟩

theorem Keeps.seq {q : α → Prog ε σ β α'} (hp : Keeps inv bad cond o b p o')
    (hq : ∀ a, Keeps inv bad cond o' b' (q a) o'') :
    Keeps inv bad cond o b (p >>= fun a => release b' >>= fun _ => q a) o'' := by
  intro s hs hc
  rw [wp_bind]
  exact wp_mono (fun a _ _ _ hpass => hpass.release (hq a)) (hp s hs hc)

theorem Keeps.map (h : Keeps inv bad cond o b p o') (g : α → α') :
    Keeps inv bad cond o b (p >>= fun a => pure (g a)) o' := by
  intro s hs hc
  rw [wp_bind]
  exact h s hs hc

theorem Keeps.modify (h : ∀ s, inv s → cond b s → Passes inv bad o s (f s) o') :
    Keeps inv bad cond o b (modify f : Prog ε σ β PUnit) o' :=
  fun s hs hc => h s hs hc

theorem Keeps.get
    (h : ∀ s, inv s → cond b s →
      wp (Pool.repairs inv bad cond) (fun _ o s0 s => Passes inv bad o s0 s o') (k s) o s s) :
    Keeps inv bad cond o b (get >>= k) o' := by
  intro s hs hc
  rw [wp_bind]
  exact h s hs hc

end

/-- The invariant of a pool of such programs: a bad state is owed by somebody. -/
structure Tended (inv bad : σ → Prop) (cond : β → σ → Prop) (x : Pool ε σ β α)
    (owing : Nat → Bool) : Prop where
  kept : inv x.state
  progs : ∀ t b p, x.threads t = some (b, p) → Repairs inv bad cond (owing t) b p
  idle : ∀ t, x.threads t = none → owing t = false
  owed : bad x.state → ∃ t, owing t = true

section
variable {inv bad : σ → Prop} {cond : β → σ → Prop} {x y : Pool ε σ β α} {owing : Nat → Bool}

theorem Tended.after (h : Tended inv bad cond x owing) (hinv : inv s)
    (hprog : ∀ b p, r = some (b, p) → Repairs inv bad cond o b p) (hidle : r = none → o = false)
    (hbad : bad s → o = true ∨ (bad x.state ∧ owing t = false)) :
    Tended inv bad cond (x.after t r s) (Function.update owing t o) where
  kept := hinv
  progs t' b p ht' := by
    rcases eq_or_ne t' t with rfl | hne
    · simp only [Pool.after, Function.update_self] at ht' ⊢
      exact hprog b p ht'
    · simp only [Pool.after, Function.update_of_ne hne] at ht' ⊢
      exact h.progs t' b p ht'
  idle t' ht' := by
    rcases eq_or_ne t' t with rfl | hne
    · simp only [Pool.after, Function.update_self] at ht' ⊢
      exact hidle ht'
    · simp only [Pool.after, Function.update_of_ne hne] at ht' ⊢
      exact h.idle t' ht'
  owed hb := by
    rcases hbad hb with ho | ⟨hx, ht⟩
    · exact ⟨t, by rw [Function.update_self]; exact ho⟩
    · obtain ⟨u, hu⟩ := h.owed hx
      have hne : u ≠ t := by rintro rfl; rw [ht] at hu; cases hu
      exact ⟨u, by rw [Function.update_of_ne hne]; exact hu⟩

theorem Tended.step (hops : ∀ b p, ops b p → Repairs inv bad cond false b p)
    (h : Tended inv bad cond x owing) (hs : Step ops cond x y) :
    ∃ owing', Tended inv bad cond y owing' := by
  cases hs with
  | @start t b p ht hp =>
    refine ⟨_, h.after (o := false) h.kept ?_ (fun _ => rfl) fun hb => .inr ⟨hb, h.idle t ht⟩⟩
    intro b' p' heq
    cases heq
    exact hops b p hp
  | @done t b p a s ht hc hp =>
    have hsat := advance_sat (h.progs t b p ht _ h.kept hc)
    rw [hp] at hsat
    exact ⟨_, h.after (o := false) hsat.1 (fun _ _ heq => by cases heq) (fun _ => rfl)
      fun hb => .inr (hsat.2 hb)⟩
  | @released t b b' p k s ht hc hp =>
    have hsat := advance_sat (h.progs t b p ht _ h.kept hc)
    rw [hp] at hsat
    obtain ⟨o', ⟨hinv, hbad⟩, hk⟩ := hsat
    refine ⟨_, h.after (o := o') hinv ?_ (fun heq => by cases heq) hbad⟩
    intro b'' p' heq
    cases heq
    exact fun s' hs' hc' => hk s' ⟨hs', hc'⟩

/-- **No bad state is left behind.** Where every operation repairs the bad states it brings about,
a pool that started in a good state with nobody at work is in a good state whenever nobody is. -/
theorem not_bad (hops : ∀ b p, ops b p → Repairs inv bad cond false b p) (hquiet : x.Quiet)
    (hinv : inv x.state) (hgood : ¬ bad x.state) (hreach : Reaches ops cond x y) :
    inv y.state ∧ (y.Quiet → ¬ bad y.state) := by
  have htended : ∃ owing, Tended inv bad cond y owing := by
    induction hreach with
    | refl =>
      exact ⟨fun _ => false,
        { kept := hinv
          progs := fun t b p ht => by rw [hquiet t] at ht; cases ht
          idle := fun _ _ => rfl
          owed := fun hb => absurd hb hgood }⟩
    | tail _ hs ih =>
      obtain ⟨owing, hx⟩ := ih
      exact hx.step hops hs
  obtain ⟨owing, hy⟩ := htended
  refine ⟨hy.kept, fun hq hb => ?_⟩
  obtain ⟨t, ht⟩ := hy.owed hb
  rw [hy.idle t (hq t)] at ht
  cases ht

end

/-! ### Schedules -/

/-- A thread starts a program, or runs a section. -/
def turn (x : Pool ε σ β α) (t : Nat) : Option (β × Prog ε σ β α) → Option (Pool ε σ β α)
  | some bp => if (x.threads t).isNone then some (x.after t (some bp) x.state) else none
  | none =>
      match x.threads t with
      | none => none
      | some (_, p) =>
          match p.advance x.state with
          | .done _ s => some (x.after t none s)
          | .released b k s => some (x.after t (some (b, k)) s)
          | .failed _ _ => none

/-- Turns one after the other. -/
def play (x : Pool ε σ β α) : List (Nat × Option (β × Prog ε σ β α)) → Option (Pool ε σ β α)
  | [] => some x
  | (t, r) :: rest => (x.turn t r).bind fun y => y.play rest

theorem step_of_turn {x y : Pool ε σ β α} {t : Nat} {r : Option (β × Prog ε σ β α)}
    (hops : ∀ bp, r = some bp → ops bp.1 bp.2) (h : x.turn t r = some y) : Step ops (fun _ _ => True) x y := by
  cases r with
  | some bp =>
    rw [turn] at h
    split at h
    · rename_i hnone
      cases h
      exact .start (Option.isNone_iff_eq_none.mp hnone) (hops bp rfl)
    · cases h
  | none =>
    rw [turn] at h
    split at h
    · cases h
    · rename_i b p ht
      split at h
      · rename_i hp
        cases h
        exact .done ht trivial hp
      · rename_i hp
        cases h
        exact .released ht trivial hp
      · cases h

theorem reaches_of_play {ops : β → Prog ε σ β α → Prop} :
    ∀ {turns : List (Nat × Option (β × Prog ε σ β α))} {x y : Pool ε σ β α},
      (∀ t bp, (t, some bp) ∈ turns → ops bp.1 bp.2) → x.play turns = some y →
      Reaches ops (fun _ _ => True) x y
  | [], x, y, _, h => by
    cases h
    exact .refl
  | (t, r) :: rest, x, y, hops, h => by
    rw [play, Option.bind_eq_some_iff] at h
    obtain ⟨z, hz, hy⟩ := h
    have hstep := step_of_turn (fun bp hbp => hops t bp (by rw [hbp]; exact List.mem_cons_self)) hz
    exact .head hstep (reaches_of_play (fun t bp hbp => hops t bp (List.mem_cons_of_mem _ hbp)) hy)

end Pool

end Locked
