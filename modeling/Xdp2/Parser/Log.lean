import Xdp2.Parser.Walk

/-!
# Reading the log

The marks of a log say which nodes were visited, which encapsulations counted and which headers
moved over. A property of every callback, given the log before it, is `EachCall P log`.

`Moves P s s'` is the frame of a computation that only makes callbacks, all of `P`. `CallRun P m`
says that `m` does nothing else; `CodeRun P S m`, of an `m` that returns a code, that it does
nothing else or ends with a callback of `S` whose code it returns. Both hold of runs that fault or
run out of fuel as well.
-/

namespace Xdp2

open StateError

variable {α : Type}

/-! ## Marks -/

/-- The nodes visited, in order. -/
def visited (log : List Event) : List NodeId :=
  log.filterMap fun
    | .node n => some n
    | _ => none

/-- The nodes at which an encapsulation was counted, in order. -/
def encapsulations (log : List Event) : List NodeId :=
  log.filterMap fun
    | .encap n _ => some n
    | _ => none

/-- The nodes at which an encapsulation was counted and found within the limit, in order. -/
def passedEncaps (log : List Event) : List NodeId :=
  log.filterMap fun
    | .encap n true => some n
    | _ => none

/-- The lengths of the headers the walk has moved over, in order. -/
def headerLengths (log : List Event) : List Nat :=
  log.filterMap fun
    | .advance len => some len
    | _ => none

/-- The callbacks made, in order. -/
def calls (log : List Event) : List Call :=
  log.filterMap fun
    | .call c => some c
    | _ => none

section
variable (l l' : List Event)

@[simp] theorem visited_nil : visited [] = [] := rfl
@[simp] theorem encapsulations_nil : encapsulations [] = [] := rfl
@[simp] theorem passedEncaps_nil : passedEncaps [] = [] := rfl
@[simp] theorem headerLengths_nil : headerLengths [] = [] := rfl
@[simp] theorem calls_nil : calls [] = [] := rfl

@[simp] theorem visited_append : visited (l ++ l') = visited l ++ visited l' :=
  List.filterMap_append

@[simp] theorem encapsulations_append :
    encapsulations (l ++ l') = encapsulations l ++ encapsulations l' := List.filterMap_append

@[simp] theorem passedEncaps_append :
    passedEncaps (l ++ l') = passedEncaps l ++ passedEncaps l' := List.filterMap_append

@[simp] theorem headerLengths_append :
    headerLengths (l ++ l') = headerLengths l ++ headerLengths l' := List.filterMap_append

@[simp] theorem calls_append : calls (l ++ l') = calls l ++ calls l' := List.filterMap_append

@[simp] theorem visited_node (n : NodeId) : visited (.node n :: l) = n :: visited l := rfl
@[simp] theorem visited_call (c : Call) : visited (.call c :: l) = visited l := rfl
@[simp] theorem visited_encap (n : NodeId) (b : Bool) : visited (.encap n b :: l) = visited l := rfl
@[simp] theorem visited_advance (h : Nat) : visited (.advance h :: l) = visited l := rfl

@[simp] theorem encapsulations_node (n : NodeId) :
    encapsulations (.node n :: l) = encapsulations l := rfl
@[simp] theorem encapsulations_call (c : Call) :
    encapsulations (.call c :: l) = encapsulations l := rfl
@[simp] theorem encapsulations_encap (n : NodeId) (b : Bool) :
    encapsulations (.encap n b :: l) = n :: encapsulations l := rfl
@[simp] theorem encapsulations_advance (h : Nat) :
    encapsulations (.advance h :: l) = encapsulations l := rfl

@[simp] theorem passedEncaps_node (n : NodeId) :
    passedEncaps (.node n :: l) = passedEncaps l := rfl
@[simp] theorem passedEncaps_call (c : Call) :
    passedEncaps (.call c :: l) = passedEncaps l := rfl
@[simp] theorem passedEncaps_within (n : NodeId) :
    passedEncaps (.encap n true :: l) = n :: passedEncaps l := rfl
@[simp] theorem passedEncaps_beyond (n : NodeId) :
    passedEncaps (.encap n false :: l) = passedEncaps l := rfl
@[simp] theorem passedEncaps_advance (h : Nat) :
    passedEncaps (.advance h :: l) = passedEncaps l := rfl

@[simp] theorem headerLengths_node (n : NodeId) :
    headerLengths (.node n :: l) = headerLengths l := rfl
@[simp] theorem headerLengths_call (c : Call) :
    headerLengths (.call c :: l) = headerLengths l := rfl
@[simp] theorem headerLengths_encap (n : NodeId) (b : Bool) :
    headerLengths (.encap n b :: l) = headerLengths l := rfl
@[simp] theorem headerLengths_advance (h : Nat) :
    headerLengths (.advance h :: l) = h :: headerLengths l := rfl

@[simp] theorem calls_node (n : NodeId) : calls (.node n :: l) = calls l := rfl
@[simp] theorem calls_call (c : Call) : calls (.call c :: l) = c :: calls l := rfl
@[simp] theorem calls_encap (n : NodeId) (b : Bool) : calls (.encap n b :: l) = calls l := rfl
@[simp] theorem calls_advance (h : Nat) : calls (.advance h :: l) = calls l := rfl

end

theorem mem_calls : k ∈ calls log ↔ .call k ∈ log := by
  simp only [calls, List.mem_filterMap]
  constructor
  · rintro ⟨e, he, heq⟩
    cases e with
    | call c => cases heq; exact he
    | node | encap | advance => cases heq
  · exact fun h => ⟨_, h, rfl⟩

@[simp] theorem St.push_log (s : St α) (e : Event) : (s.push e).log = s.log ++ [e] := rfl

@[simp] theorem St.push_var (s : St α) (e : Event) : (s.push e).var = s.var := rfl

@[simp] theorem St.push_mem (s : St α) (e : Event) : (s.push e).mem = s.mem := rfl

/-! ## Properties of every callback -/

/-- `P pre c` holds of every callback `c` in the log, `pre` being the log before it. -/
def EachCall (P : List Event → Call → Prop) (log : List Event) : Prop :=
  ∀ pre c post, log = pre ++ .call c :: post → P pre c

theorem split_append (heq : l ++ es = pre ++ e :: post) (hnot : e ∉ es) : ∃ post', l = pre ++ e :: post' ∧ post = post' ++ es := by
  rcases List.append_eq_append_iff.1 heq with ⟨as, hpre, hes⟩ | ⟨bs, hl, hpost⟩
  · exact absurd (by rw [hes]; simp) hnot
  · cases bs with
    | nil => exact absurd (by rw [← List.nil_append es, ← hpost]; simp) hnot
    | cons b bs =>
      cases hpost
      exact ⟨bs, hl, rfl⟩

/-- A list of callbacks: no mark among the events. -/
def OnlyCalls (es : List Event) : Prop := ∀ e ∈ es, ∃ c, e = .call c

theorem EachCall.nil : EachCall P [] := by
  intro pre c post h
  cases pre <;> cases h

theorem EachCall.snoc (h : EachCall P log) (he : ∀ c, e = .call c → P log c) :
    EachCall P (log ++ [e]) := by
  intro pre c post heq
  rcases List.eq_nil_or_concat post with rfl | ⟨post', e', rfl⟩
  · obtain ⟨rfl, h'⟩ := List.append_inj' heq rfl
    exact he c (by simpa using h')
  · rw [List.concat_eq_append, ← List.cons_append, ← List.append_assoc] at heq
    obtain ⟨rfl, -⟩ := List.append_inj' heq rfl
    exact h _ _ _ rfl

/-- A property that does not see callbacks before the one it is about extends over callbacks that
have it at the end of the log. -/
theorem EachCall.append_calls (h : EachCall P log)
    (hP : ∀ l k c, P l c → P (l ++ [.call k]) c) (hes : OnlyCalls es)
    (hc : ∀ c, .call c ∈ es → P log c) : EachCall P (log ++ es) := by
  induction es using List.reverseRecOn with
  | nil => simpa using h
  | append_singleton es e ih =>
    have hpre : OnlyCalls es := fun e he => hes e (by simp [he])
    rw [← List.append_assoc]
    refine (ih hpre fun c hc' => hc c (by simp [hc'])).snoc fun c he => ?_
    subst he
    -- the events between the log and the last callback are callbacks themselves
    have key : ∀ es, OnlyCalls es → P (log ++ es) c := by
      intro es
      induction es using List.reverseRecOn with
      | nil => intro _; simpa using hc c (by simp)
      | append_singleton es e ih =>
        intro hes
        obtain ⟨k, rfl⟩ := hes e (by simp)
        rw [← List.append_assoc]
        exact hP _ _ _ (ih fun e he => hes e (by simp [he]))
    exact key es hpre

theorem EachCall.mem (h : EachCall P log) (hc : .call c ∈ log) :
    ∃ pre post, log = pre ++ .call c :: post ∧ P pre c := by
  obtain ⟨pre, post, rfl⟩ := List.append_of_mem hc
  exact ⟨pre, post, rfl, h _ _ _ rfl⟩

theorem OnlyCalls.filterMap_eq_nil {β : Type} {es : List Event} (h : OnlyCalls es)
    {f : Event → Option β} (hf : ∀ c, f (.call c) = none) : es.filterMap f = [] := by
  refine List.filterMap_eq_nil_iff.2 fun e he => ?_
  obtain ⟨c, rfl⟩ := h e he
  exact hf c

/-! ## Computations that only make callbacks -/

/-- From `s` to `s'` the log has grown by callbacks that satisfy `P`; the encapsulation counter
and the stored return code are unchanged. -/
structure Moves (P : Call → Prop) (s s' : St α) : Prop where
  log : ∃ es, s'.log = s.log ++ es ∧ ∀ e ∈ es, ∃ c, e = .call c ∧ P c
  encaps : s'.var.encaps = s.var.encaps
  ret_code : s'.var.ret_code = s.var.ret_code

namespace Moves

theorem refl (s : St α) : Moves P s s := ⟨⟨[], by simp⟩, rfl, rfl⟩

theorem trans (h1 : Moves P s s1) (h2 : Moves P s1 s2) : Moves P s s2 := by
  obtain ⟨es1, hl1, he1⟩ := h1.log
  obtain ⟨es2, hl2, he2⟩ := h2.log
  refine ⟨⟨es1 ++ es2, by rw [hl2, hl1, List.append_assoc], fun e he => ?_⟩,
    h2.encaps.trans h1.encaps, h2.ret_code.trans h1.ret_code⟩
  rcases List.mem_append.1 he with he | he
  · exact he1 e he
  · exact he2 e he

theorem mono (hPQ : ∀ c, P c → Q c) (h : Moves P s s1) : Moves Q s s1 := by
  obtain ⟨es, hl, he⟩ := h.log
  refine ⟨⟨es, hl, fun e hmem => ?_⟩, h.encaps, h.ret_code⟩
  obtain ⟨c, rfl, hc⟩ := he e hmem
  exact ⟨c, rfl, hPQ c hc⟩

theorem one (hc : P c) (hl : s1.log = s.log ++ [.call c]) (hv : s1.var = s.var) :
    Moves P s s1 :=
  ⟨⟨[.call c], hl, by simpa using hc⟩, by rw [hv], by rw [hv]⟩

theorem silent (hl : s1.log = s.log) (he : s1.var.encaps = s.var.encaps)
    (hr : s1.var.ret_code = s.var.ret_code) : Moves P s s1 :=
  ⟨⟨[], by simp [hl]⟩, he, hr⟩

end Moves

theorem EachCall.moves (h : EachCall P s.log) (hP : ∀ l k c, P l c → P (l ++ [.call k]) c)
    (hm : Moves Q s s') (hQ : ∀ c, Q c → P s.log c) : EachCall P s'.log := by
  obtain ⟨es, hl, he⟩ := hm.log
  rw [hl]
  refine h.append_calls hP (fun e hmem => ?_) fun c hc => ?_
  · obtain ⟨c, rfl, -⟩ := he e hmem
    exact ⟨c, rfl⟩
  · obtain ⟨c', heq, hc'⟩ := he _ hc
    cases heq
    exact hQ _ hc'

theorem Moves.filterMap {β : Type} {Q : Call → Prop} {s s' : St α} (hm : Moves Q s s')
    {f : Event → Option β} (hf : ∀ c, f (.call c) = none) :
    s'.log.filterMap f = s.log.filterMap f := by
  obtain ⟨es, hl, he⟩ := hm.log
  have hes : OnlyCalls es := fun e hmem => by
    obtain ⟨c, rfl, -⟩ := he e hmem
    exact ⟨c, rfl⟩
  rw [hl, List.filterMap_append, hes.filterMap_eq_nil hf, List.append_nil]

theorem Moves.visited (hm : Moves Q s s') :
    visited s'.log = visited s.log := hm.filterMap fun _ => rfl

theorem Moves.encapsulations (hm : Moves Q s s') :
    encapsulations s'.log = encapsulations s.log := hm.filterMap fun _ => rfl

/-- Every run of `m` only makes callbacks that satisfy `P`. -/
def CallRun {β : Type} (P : Call → Prop) (m : ParseM α β) : Prop := Along (Moves P) m

/-- What a computation that returns a code can do from the state `s`: make callbacks that satisfy
`P`, whatever its outcome, or make such callbacks and then one that satisfies `S` and whose code,
not `XDP2_OKAY`, it returns. -/
inductive CodeOutcome (P S : Call → Prop) (s : St α) : EStateM.Result Err (St α) Int → Prop where
  | quiet {r : EStateM.Result Err (St α) Int} (h : Moves P s (final r)) : CodeOutcome P S s r
  | stopped {s1 s' : St α} {c : Call} (h : Moves P s s1) (hc : S c) (hret : c.ret ≠ Code.okay)
      (hlog : s'.log = s1.log ++ [.call c]) (henc : s'.var.encaps = s1.var.encaps)
      (hcode : s'.var.ret_code = s1.var.ret_code) : CodeOutcome P S s (.ok c.ret s')

/-- Every run of `m` has such an outcome. -/
def CodeRun (P S : Call → Prop) (m : ParseM α Int) : Prop := ∀ s, CodeOutcome P S s (m.run s)

section
variable {β γ : Type}

theorem CallRun.pure (b : β) : CallRun P (pure b : ParseM α β) := .refl

theorem CallRun.deref (b : Option β) : CallRun P (deref b : ParseM α β) := by
  intro s
  cases b <;> exact .refl s

theorem CallRun.bind (hm : CallRun P m) (hk : ∀ b, CallRun P (k b)) : CallRun P (m >>= k) :=
  Along.bind (T := Moves P) (fun _ _ _ => Moves.trans) hm hk

theorem CallRun.code (h : CallRun P m) : CodeRun P S m := fun s => .quiet (h s)

theorem CodeRun.pure (ret : Int) : CodeRun P S (pure ret : ParseM α Int) := fun s => .quiet (.refl s)

theorem CodeRun.throw (e : Err) : CodeRun P S (throw e : ParseM α Int) := fun s => .quiet (.refl s)

theorem CodeOutcome.after (hm : Moves P s s1) (h : CodeOutcome P S s1 r) : CodeOutcome P S s r := by
  cases h with
  | quiet h => exact .quiet (hm.trans h)
  | stopped h hc hret hlog henc hcode => exact .stopped (hm.trans h) hc hret hlog henc hcode

theorem CodeRun.mono (hm : CodeRun P S m) (hP : ∀ c, P c → P' c) (hS : ∀ c, S c → S' c) : CodeRun P' S' m := by
  intro s
  have h := hm s
  generalize m.run s = r at h ⊢
  cases h with
  | quiet h => exact .quiet (h.mono hP)
  | stopped h hc hret hlog henc hcode =>
    exact .stopped (h.mono hP) (hS _ hc) hret hlog henc hcode

theorem CallRun.after (hm : CallRun P m) (hk : ∀ b, CodeRun P S (k b)) : CodeRun P S (m >>= k) := by
  intro s
  have h := hm s
  cases hms : m.run s with
  | error e s' =>
    rw [run_bind_error hms]
    rw [hms] at h
    exact .quiet h
  | ok b s' =>
    rw [run_bind_ok hms]
    rw [hms] at h
    exact (hk b s').after h

theorem CodeRun.seq (hm : CodeRun P S m) (hk : CodeRun P S k) :
    CodeRun P S (m >>= fun ret => if ret ≠ Code.okay then Pure.pure ret else k) := by
  intro s
  have h := hm s
  rw [run_bind]
  generalize m.run s = r at h
  cases h with
  | stopped h hc hret hlog henc hcode =>
    simp only [if_pos hret]
    exact .stopped h hc hret hlog henc hcode
  | quiet h =>
    cases r with
    | error e s' => exact .quiet h
    | ok ret s' =>
      dsimp only
      split
      · exact .quiet h
      · exact (hk s').after h

end

end Xdp2
