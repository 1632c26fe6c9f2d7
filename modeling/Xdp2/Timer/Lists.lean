import Xdp2.Timer.Wheel

/-!
# The lists of the wheel

`Linked`: the timers that are set are those in the lists, each in the list of its own slot and once.
It is kept by adding and removing timers and by taking due ones off their lists; the bitmap may have
bits of empty slots. A scan of a slot takes some of its due timers (`wp_scanSlot`), all unless it
stops at a full batch.
-/

namespace Xdp2

open Locked

/-- The timers in the lists are the ones that are set. -/
structure Linked (w : Wheel) : Prop where
  pos : 0 < w.num_slots
  mem : ∀ i t, t ∈ w.slots i ↔ w.IsSet t ∧ (w.timers t).index = i
  nodup : ∀ i, (w.slots i).Nodup
  range : ∀ t, w.IsSet t → (w.timers t).index < w.num_slots
  bit : ∀ i, w.slots i ≠ [] → w.slot_bitmap.isset i = true

theorem Linked.zero (hn : 0 < n) : Linked (Wheel.zero n) where
  pos := hn
  mem i t := by simp [Wheel.zero, Wheel.IsSet]
  nodup _ := List.nodup_nil
  range t ht := by cases ht
  bit i h := absurd rfl h

theorem Linked.length_le (h : Linked w) (h' : Linked w') (hset : ∀ t, w'.IsSet t → w.IsSet t)
    (hindex : ∀ t, (w'.timers t).index = (w.timers t).index) (i : Nat) :
    (w'.slots i).length ≤ (w.slots i).length := by
  refine ((h'.nodup i).subperm fun t ht => ?_).length_le
  obtain ⟨ht, hi⟩ := (h'.mem i t).mp ht
  exact (h.mem i t).mpr ⟨hset t ht, by rw [← hindex]; exact hi⟩

theorem Linked.of_lists (h : Linked w) (hnum : w'.num_slots = w.num_slots)
    (hslots : w'.slots = w.slots) (htimers : w'.timers = w.timers)
    (hbitmap : w'.slot_bitmap = w.slot_bitmap) : Linked w' := by
  have hset : ∀ t, w'.IsSet t ↔ w.IsSet t := fun t => by
    unfold Wheel.IsSet
    rw [htimers]
  constructor
  · rw [hnum]; exact h.pos
  · intro i t
    rw [hslots, htimers, hset]
    exact h.mem i t
  · rw [hslots]; exact h.nodup
  · intro t ht
    rw [htimers, hnum]
    exact h.range t ((hset t).mp ht)
  · rw [hslots, hbitmap]; exact h.bit

/-- The wheels differ in their lists only. -/
structure SameTimes (w w' : Wheel) : Prop where
  num_slots : w'.num_slots = w.num_slots
  next_expire_time : w'.next_expire_time = w.next_expire_time
  last_runtime : w'.last_runtime = w.last_runtime
  running : w'.running = w.running
  run_again : w'.run_again = w.run_again
  pops : w'.pops = w.pops
  gen : ∀ t, (w'.timers t).gen = (w.timers t).gen
  index : ∀ t, (w'.timers t).index = (w.timers t).index

namespace SameTimes

variable {w : Wheel}

theorem refl (w : Wheel) : SameTimes w w := by
  constructor <;> intros <;> rfl

theorem trans (h : SameTimes w w') (h' : SameTimes w' w'') : SameTimes w w'' where
  num_slots := h'.num_slots.trans h.num_slots
  next_expire_time := h'.next_expire_time.trans h.next_expire_time
  last_runtime := h'.last_runtime.trans h.last_runtime
  running := h'.running.trans h.running
  run_again := h'.run_again.trans h.run_again
  pops := h'.pops.trans h.pops
  gen t := (h'.gen t).trans (h.gen t)
  index t := (h'.index t).trans (h.index t)

theorem expiration (h : SameTimes w w') (t : TimerId) : w'.expiration t = w.expiration t := by
  rw [Wheel.expiration, Wheel.expiration, h.gen, h.index, h.num_slots]

end SameTimes

/-! ## Taking a timer off its list -/

section
variable {w : Wheel}

@[simp] theorem unlink_isSet : (w.unlink i t).IsSet u ↔ w.IsSet u ∧ u ≠ t := by
  rcases eq_or_ne u t with rfl | hne
  · simp [Wheel.IsSet, Wheel.unlink]
  · simp [Wheel.IsSet, Wheel.unlink, hne]

theorem unlink_same (w : Wheel) (i : Nat) (t : TimerId) : SameTimes w (w.unlink i t) := by
  constructor <;> first | rfl | skip
  · intro u
    rcases eq_or_ne u t with rfl | hne
    · simp [Wheel.unlink]
    · simp [Wheel.unlink, hne]
  · intro u
    rcases eq_or_ne u t with rfl | hne
    · simp [Wheel.unlink]
    · simp [Wheel.unlink, hne]

theorem unlink_mem (h : Linked w) (ht : t ∈ w.slots i) (j : Nat) :
    u ∈ (w.unlink i t).slots j ↔ u ∈ w.slots j ∧ u ≠ t := by
  rcases eq_or_ne j i with rfl | hne
  · simp only [Wheel.unlink, Function.update_self, (h.nodup j).mem_erase_iff]
    exact and_comm
  · have hut : u ∈ w.slots j → u ≠ t := by
      rintro hu rfl
      exact hne (((h.mem j u).mp hu).2.symm.trans ((h.mem i u).mp ht).2)
    simp only [Wheel.unlink, Function.update_of_ne hne]
    exact ⟨fun hu => ⟨hu, hut hu⟩, And.left⟩

theorem Linked.unlink (h : Linked w) (ht : t ∈ w.slots i) : Linked (w.unlink i t) where
  pos := h.pos
  mem j u := by
    rw [unlink_mem h ht, h.mem, unlink_isSet, (unlink_same w i t).index]
    exact and_right_comm
  nodup j := by
    rcases eq_or_ne j i with rfl | hne
    · simpa [Wheel.unlink] using (h.nodup j).erase t
    · simpa [Wheel.unlink, hne] using h.nodup j
  range u hu := by
    rw [(unlink_same w i t).index]
    exact h.range u (unlink_isSet.mp hu).1
  bit j hj := by
    apply h.bit j
    intro hnil
    apply hj
    rw [List.eq_nil_iff_forall_not_mem]
    intro u hu
    have hu' := ((unlink_mem h ht j).mp hu).1
    rw [hnil] at hu'
    cases hu'

/-! ## Clearing the bit of an empty slot -/

@[simp] theorem clearIfEmpty_isSet : (w.clearIfEmpty i).IsSet u ↔ w.IsSet u := by
  unfold Wheel.clearIfEmpty
  split <;> rfl

@[simp] theorem clearIfEmpty_slots : (w.clearIfEmpty i).slots = w.slots := by
  unfold Wheel.clearIfEmpty
  split <;> rfl

@[simp] theorem clearIfEmpty_timers : (w.clearIfEmpty i).timers = w.timers := by
  unfold Wheel.clearIfEmpty
  split <;> rfl

@[simp] theorem clearIfEmpty_calls : (w.clearIfEmpty i).calls = w.calls := by
  unfold Wheel.clearIfEmpty
  split <;> rfl

theorem clearIfEmpty_same (w : Wheel) (i : Nat) : SameTimes w (w.clearIfEmpty i) := by
  unfold Wheel.clearIfEmpty
  split <;> constructor <;> intros <;> rfl

theorem Linked.clearIfEmpty (h : Linked w) (i : Nat) : Linked (w.clearIfEmpty i) where
  pos := by rw [(clearIfEmpty_same w i).num_slots]; exact h.pos
  mem j u := by simpa using h.mem j u
  nodup j := by simpa using h.nodup j
  range u hu := by
    rw [(clearIfEmpty_same w i).num_slots, clearIfEmpty_timers]
    exact h.range u (clearIfEmpty_isSet.mp hu)
  bit j hj := by
    rw [clearIfEmpty_slots] at hj
    unfold Wheel.clearIfEmpty
    split
    · rename_i hempty
      have hne : j ≠ i := by
        rintro rfl
        exact hj (List.isEmpty_iff.mp hempty)
      simp [Bitmap.isset_unset, h.bit j hj, hne]
    · exact h.bit j hj

/-! ## Putting a timer into a list -/

theorem link_isSet (e : Nat) : (w.link t e).IsSet u ↔ w.IsSet u ∨ u = t := by
  rcases eq_or_ne u t with rfl | hne
  · simp [Wheel.IsSet, Wheel.link]
  · simp [Wheel.IsSet, Wheel.link, hne]

theorem Linked.link (h : Linked w) (ht : ¬ w.IsSet t) (e : Nat) : Linked (w.link t e) := by
  have hnot : ∀ j, t ∉ w.slots j := fun j hj => ht ((h.mem j t).mp hj).1
  have hlt : e % w.num_slots < w.num_slots := Nat.mod_lt e h.pos
  have hslots : ∀ j, (w.link t e).slots j =
      if j = e % w.num_slots then t :: w.slots j else w.slots j := by
    intro j
    rcases eq_or_ne j (e % w.num_slots) with rfl | hne
    · simp [Wheel.link]
    · simp [Wheel.link, hne]
  constructor
  · exact h.pos
  · intro j u
    rw [hslots, link_isSet]
    rcases eq_or_ne u t with rfl | hne
    · have hindex : ((w.link u e).timers u).index = e % w.num_slots := by simp [Wheel.link]
      rw [hindex]
      split
      · rename_i hj
        simp [hj]
      · rename_i hj
        simp [hnot j, Ne.symm hj]
    · have hindex : ((w.link t e).timers u).index = (w.timers u).index := by
        simp [Wheel.link, hne]
      rw [hindex]
      split <;> simp [hne, h.mem]
  · intro j
    rw [hslots]
    split
    · exact List.nodup_cons.mpr ⟨hnot j, h.nodup j⟩
    · exact h.nodup j
  · intro u hu
    rcases eq_or_ne u t with rfl | hne
    · simpa [Wheel.link] using hlt
    · simpa [Wheel.link, hne] using h.range u (((link_isSet e).mp hu).resolve_right hne)
  · intro j hj
    rw [hslots] at hj
    change (w.slot_bitmap.set (e % w.num_slots)).isset j = true
    rw [Bitmap.isset_set _ (by decide)]
    rcases eq_or_ne j (e % w.num_slots) with hj' | hne
    · simp [hj']
    · rw [if_neg hne] at hj
      simp [h.bit j hj]

end

/-! ## Taking several timers off one list -/

/-- Take the timers `ts` off the list of a slot. -/
def Wheel.unlinkAll (w : Wheel) (i : Nat) (ts : List TimerId) : Wheel :=
  ts.foldl (fun w t => w.unlink i t) w

section
variable {w : Wheel}

@[simp] theorem unlinkAll_cons (t : TimerId) (ts : List TimerId) :
    w.unlinkAll i (t :: ts) = (w.unlink i t).unlinkAll i ts := rfl

theorem unlinkAll_isSet :
    (w.unlinkAll i ts).IsSet u ↔ w.IsSet u ∧ u ∉ ts := by
  induction ts generalizing w with
  | nil => simp [Wheel.unlinkAll]
  | cons t ts ih =>
    rw [unlinkAll_cons, ih, unlink_isSet, List.mem_cons, not_or, and_assoc]

theorem unlinkAll_same (w : Wheel) (i : Nat) (ts : List TimerId) :
    SameTimes w (w.unlinkAll i ts) := by
  induction ts generalizing w with
  | nil => exact .refl w
  | cons t ts ih => exact (unlink_same w i t).trans (ih _)

theorem unlinkAll_calls (ts : List TimerId) : (w.unlinkAll i ts).calls = w.calls := by
  induction ts generalizing w with
  | nil => rfl
  | cons t ts ih => exact ih

theorem Linked.unlinkAll (h : Linked w) (hts : ∀ t ∈ ts, t ∈ w.slots i) (hnodup : ts.Nodup) :
    Linked (w.unlinkAll i ts) := by
  induction ts generalizing w with
  | nil => exact h
  | cons t ts ih =>
    have ht := hts t List.mem_cons_self
    obtain ⟨hnot, hnodup⟩ := List.nodup_cons.mp hnodup
    refine ih (h.unlink ht) (fun u hu => ?_) hnodup
    exact (unlink_mem h ht i).mpr ⟨hts u (List.mem_cons_of_mem t hu), by rintro rfl; exact hnot hu⟩

/-! ## A scan -/

/-- The timer is not left for a later generation by a scan. -/
def Wheel.Due (w : Wheel) (gen_mx : Nat) (t : TimerId) : Prop :=
  seqnoGt (ul ((w.timers t).gen * w.num_slots)) gen_mx = false

/-- What a scan of the timers `l` may take of a wheel. -/
structure Scanned (w : Wheel) (i gen_mx : Nat) (l taken : List TimerId) (full : Bool)
    (w' : Wheel) : Prop where
  wheel : w' = w.unlinkAll i taken
  sub : taken.Sublist l
  due : ∀ t ∈ taken, w.Due gen_mx t
  all : full = false → ∀ t ∈ l, w.Due gen_mx t → t ∈ taken
  batch : full = true → taken ≠ []

theorem wp_wheelAssert {γ : Type} {c : Contract WheelErr Wheel (List TimerId) γ}
    {Q : Unit → γ → Wheel → Wheel → Prop} {g : γ} {cond : Bool}
    (h : cond = true ∨ c.allows .assertion) (hQ : Q () g w0 w) :
    wp c Q (wheelAssert cond) g w0 w := by
  cases cond with
  | true => exact hQ
  | false => exact h.resolve_left (by simp)

theorem wp_scanSlot {γ : Type} {c : Contract WheelErr Wheel (List TimerId) γ}
    {Q : List TimerId × Bool → γ → Wheel → Wheel → Prop} {gen_mx : Nat} {g : γ} {w0 : Wheel} : ∀ {l cbs : List TimerId} {w : Wheel},
      (∀ t ∈ l, seqnoGte (ul ((w.timers t).gen * w.num_slots)) old_gen_mx = true ∨
        c.allows .assertion) →
      (∀ taken full w', Scanned w i gen_mx l taken full w' → Q (cbs ++ taken, full) g w0 w') →
      wp c Q (scanSlot i gen_mx old_gen_mx l cbs) g w0 w := by
  intro l
  induction l with
  | nil =>
    intro cbs w _ hQ
    have hscan : Scanned w i gen_mx [] [] false w :=
      { wheel := rfl
        sub := .slnil
        due := fun t ht => by cases ht
        all := fun _ t ht => by cases ht
        batch := fun h => by cases h }
    have hq := hQ [] false w hscan
    rw [List.append_nil] at hq
    exact hq
  | cons t l ih =>
    intro cbs w hassert hQ
    rw [scanSlot, wp_bind, wp_get]
    dsimp only
    rw [wp_bind]
    refine wp_wheelAssert (hassert t List.mem_cons_self) ?_
    cases hgt : seqnoGt (ul ((w.timers t).gen * w.num_slots)) gen_mx with
    | true =>
      rw [if_pos rfl]
      refine ih (fun u hu => hassert u (List.mem_cons_of_mem t hu)) fun taken full w' hs => ?_
      refine hQ taken full w' ⟨hs.wheel, hs.sub.cons t, hs.due, fun hf u hu hdue => ?_, hs.batch⟩
      rcases List.mem_cons.mp hu with rfl | hu
      · rw [Wheel.Due, hgt] at hdue; cases hdue
      · exact hs.all hf u hu hdue
    | false =>
      have hsame := unlink_same w i t
      have hdue : ∀ u, (w.unlink i t).Due gen_mx u ↔ w.Due gen_mx u := by
        intro u
        rw [Wheel.Due, Wheel.Due, hsame.gen, hsame.num_slots]
      rw [if_neg (by simp), wp_bind, wp_set]
      split
      · refine hQ [t] true _ ⟨rfl, List.singleton_sublist.mpr List.mem_cons_self,
          fun u hu => ?_, (fun h => by cases h), fun _ => List.cons_ne_nil t []⟩
        rw [List.mem_singleton.mp hu]
        exact hgt
      · refine ih (fun u hu => ?_) fun taken full w' hs => ?_
        · rw [hsame.gen, hsame.num_slots]
          exact hassert u (List.mem_cons_of_mem t hu)
        · rw [List.append_assoc]
          refine hQ (t :: taken) full w' ⟨hs.wheel, hs.sub.cons_cons t, fun u hu => ?_,
            fun hf u hu hu' => ?_, fun _ => List.cons_ne_nil t taken⟩
          · rcases List.mem_cons.mp hu with rfl | hu
            · exact hgt
            · exact (hdue u).mp (hs.due u hu)
          · rcases List.mem_cons.mp hu with rfl | hu
            · exact List.mem_cons_self
            · exact List.mem_cons_of_mem t (hs.all hf u hu ((hdue u).mpr hu'))

end

end Xdp2
