import Mathlib

/-!
# Lists kept in the order of a rank

Lists of objects in the order of a rank, those of one rank in the order in which they were made.
`search` ends early and says behind which object; `insertAfter` puts a new object there. Together
they keep the order (`Sorted.insert`), and the first object with a property is the oldest one of the
least rank (`Sorted.find?_first`).
-/

namespace Ranked

variable {α β : Type}

/-! ## Searching -/

/-- A search that ends where `past` holds, or at an object it looks for. It returns the object found and
the one before the place where it has ended. -/
def search (past same : α → Bool) : (prev : Option α) → List α → Option α × Option α
  | prev, [] => (none, prev)
  | prev, e :: l =>
    if past e then (none, prev)
    else if same e then (some e, prev)
    else search past same (some e) l

/-- Where a search ends: the objects before are passed over, the one there is found, or is past the end. -/
theorem search_split (past same : α → Bool) (prev : Option α) (l : List α) :
    ∃ before after, l = before ++ after ∧ (∀ e ∈ before, past e = false ∧ same e = false) ∧
      (search past same prev l).2 = before.getLast?.or prev ∧
      (((search past same prev l).1 = none ∧ ∀ e ∈ after.head?, past e = true) ∨
        ∃ e rest, after = e :: rest ∧ past e = false ∧ same e = true ∧
          (search past same prev l).1 = some e) := by
  induction l generalizing prev with
  | nil => exact ⟨[], [], rfl, by simp, rfl, .inl ⟨rfl, by simp⟩⟩
  | cons e l ih =>
    unfold search
    cases hpast : past e with
    | true => exact ⟨[], e :: l, rfl, by simp, rfl, .inl ⟨rfl, by simpa using hpast⟩⟩
    | false =>
      cases hsame : same e with
      | true => exact ⟨[], e :: l, rfl, by simp, rfl, .inr ⟨e, l, rfl, hpast, hsame, rfl⟩⟩
      | false =>
        obtain ⟨before, after, rfl, hbefore, hprev, hend⟩ := ih (some e)
        refine ⟨e :: before, after, rfl, ?_, ?_, by simpa using hend⟩
        · intro x hx
          rcases List.mem_cons.mp hx with rfl | hx
          · exact ⟨hpast, hsame⟩
          · exact hbefore x hx
        · simp only [Bool.false_eq_true, if_false, hprev]
          cases before with
          | nil => rfl
          | cons b before => simp [List.getLast?_cons]

theorem search_snd_mem (l : List α) : ∀ p ∈ (search past same none l).2, p ∈ l := by
  obtain ⟨before, after, rfl, -, hprev, -⟩ := search_split past same none l
  intro p hp
  rw [hprev, Option.or_none] at hp
  exact List.mem_append_left _ (List.mem_of_getLast? hp)

/-! ## Inserting -/

/-- The object is put behind the one with the number `a`. -/
def insertBehind (num : α → Nat) (a : Nat) (new : α) : List α → List α
  | [] => []
  | e :: l => if num e = a then e :: new :: l else e :: insertBehind num a new l

/-- The object is put behind another one, or to the front. -/
def insertAfter (num : α → Nat) (prev : Option α) (new : α) (l : List α) : List α :=
  match prev with
  | none => new :: l
  | some p => insertBehind num (num p) new l

theorem insertAfter_eq (new : α) (hnum : (before ++ after).Pairwise fun a b => num a ≠ num b) :
    insertAfter num before.getLast? new (before ++ after) = before ++ new :: after := by
  rcases List.eq_nil_or_concat before with rfl | ⟨front, p, rfl⟩
  · rfl
  rw [List.concat_eq_append] at hnum ⊢
  rw [List.getLast?_concat, insertAfter]
  induction front with
  | nil => simp [insertBehind]
  | cons e front ih =>
    rw [List.append_assoc, List.cons_append, List.pairwise_cons] at hnum
    have hne : num e ≠ num p := hnum.1 p (by simp)
    rw [List.cons_append, List.cons_append, insertBehind, if_neg hne]
    rw [← List.append_assoc] at hnum
    rw [ih hnum.2]
    rfl

theorem insertAfter_perm (num : α → Nat) (new : α) (hprev : ∀ p ∈ prev, p ∈ l) :
    (insertAfter num prev new l).Perm (new :: l) := by
  cases prev with
  | none => exact .refl _
  | some p =>
    have hmem : ∃ e ∈ l, num e = num p := ⟨p, hprev p rfl, rfl⟩
    rw [insertAfter]
    clear hprev
    induction l with
    | nil =>
      obtain ⟨e, he, -⟩ := hmem
      cases he
    | cons a l ih =>
      unfold insertBehind
      split
      · exact .swap new a l
      · rename_i hne
        obtain ⟨e, he, hnum⟩ := hmem
        rcases List.mem_cons.mp he with rfl | he
        · exact (hne hnum).elim
        · exact ((ih ⟨e, he, hnum⟩).cons a).trans (.swap new a l)

/-! ## The order -/

/-- The order of the list: by rank, and where the ranks are the same by number. -/
def Before [LT β] (rank : α → β) (num : α → Nat) (a b : α) : Prop :=
  rank a < rank b ∨ (rank a = rank b ∧ num a < num b)

section
variable [LinearOrder β] {rank : α → β} {num : α → Nat} {l after : List α}

theorem Before.le (h : Before rank num a b) : rank a ≤ rank b := by
  rcases h with h | ⟨h, -⟩
  · exact h.le
  · exact h.le

/-- A list in that order. -/
def Sorted (rank : α → β) (num : α → Nat) (l : List α) : Prop := l.Pairwise (Before rank num)

theorem Sorted.sublist (h : Sorted rank num l) (hl : l'.Sublist l) : Sorted rank num l' :=
  List.Pairwise.sublist hl h

theorem Sorted.insert (h : Sorted rank num (before ++ after)) (hbefore : ∀ e ∈ before, rank e ≤ rank new)
    (hafter : ∀ e ∈ after.head?, rank new < rank e) (hnew : ∀ e ∈ before ++ after, num e < num new) :
    Sorted rank num (before ++ new :: after) := by
  obtain ⟨hb, ha, hba⟩ := List.pairwise_append.mp h
  have hlt : ∀ e ∈ after, rank new < rank e := by
    intro e he
    cases after with
    | nil => cases he
    | cons a after =>
      have hfirst : rank new < rank a := hafter a rfl
      rcases List.mem_cons.mp he with rfl | he
      · exact hfirst
      · exact lt_of_lt_of_le hfirst (List.rel_of_pairwise_cons ha he).le
  refine List.pairwise_append.mpr ⟨hb, List.pairwise_cons.mpr ⟨fun e he => .inl (hlt e he), ha⟩, ?_⟩
  intro a hmem b hb'
  rcases List.mem_cons.mp hb' with rfl | hb'
  · rcases lt_or_eq_of_le (hbefore a hmem) with hlt' | heq
    · exact .inl hlt'
    · exact .inr ⟨heq, hnew a (List.mem_append_left _ hmem)⟩
  · exact hba a hmem b hb'

theorem Sorted.find?_first (h : Sorted rank num l) (hfind : l.find? p = some e) :
    ∀ e' ∈ l, p e' = true → e' = e ∨ Before rank num e e' := by
  induction l with
  | nil => cases hfind
  | cons a l ih =>
    intro e' he' hp
    rw [List.find?_cons] at hfind
    cases hpa : p a with
    | true =>
      rw [hpa] at hfind
      obtain rfl : a = e := Option.some.inj hfind
      rcases List.mem_cons.mp he' with rfl | he'
      · exact .inl rfl
      · exact .inr (List.rel_of_pairwise_cons h he')
    | false =>
      rw [hpa] at hfind
      rcases List.mem_cons.mp he' with rfl | he'
      · rw [hpa] at hp
        cases hp
      · exact ih (List.Pairwise.of_cons h) hfind e' he' hp

/-- What a search with the rank `r` finds in a list in order is the first object looked for that is not past
the end. -/
theorem Sorted.search_fst (h : Sorted rank num l) (hpast : ∀ e, past e = true ↔ r < rank e)
    (prev : Option α) :
    (search past same prev l).1 = l.find? fun e => !past e && same e := by
  induction l generalizing prev with
  | nil => rfl
  | cons e l ih =>
    unfold search
    cases hp : past e with
    | true =>
      have hnone : (e :: l).find? (fun e => !past e && same e) = none := by
        rw [List.find?_eq_none]
        intro x hx
        have hx' : past x = true := by
          rw [hpast]
          rcases List.mem_cons.mp hx with rfl | hx
          · exact (hpast _).mp hp
          · exact lt_of_lt_of_le ((hpast _).mp hp) (List.rel_of_pairwise_cons h hx).le
        rw [hx']
        simp
      rw [hnone]
      rfl
    | false =>
      cases hs : same e with
      | true => simp [hp, hs]
      | false => simpa [hp, hs] using ih (List.Pairwise.of_cons h) (some e)

end

end Ranked
