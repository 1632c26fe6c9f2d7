import Xdp2.Timer.Lists

/-!
# Sweeps over the wheel

What running slots does to a wheel that nobody else uses, with callbacks that do not touch it
(`called`): `Fired P` says that exactly the set timers with `P` have been called, each once, and are
not set any more. It composes over batches (`runSlot_fired`), slots (`runSlots_fired`) and sweeps
(`runPass_ends`). All times are below `2 ^ 63`.
-/

namespace Xdp2

open Locked

/-- The callbacks of a batch have been made. -/
def called (batch : List TimerId) (w : Wheel) : Wheel := { w with calls := w.calls ++ batch }

/-! ## Comparisons -/

theorem seqnoGt_iff (hxy : x < y + 2 ^ 63) (hyx : y ≤ x + 2 ^ 63) :
    seqnoGt x y = true ↔ y < x := by
  rw [seqnoGt, seqnoDiff, ul, decide_eq_true_eq]
  omega

theorem seqnoLt_eq_gt (x y : Nat) : seqnoLt x y = seqnoGt y x := rfl

theorem ul_eq (h : n < 2 ^ 64) : ul n = n := Nat.mod_eq_of_lt h

/-! ## Timers that have been called -/

/-- Exactly the set timers with `P` have been called, each once, and taken off the wheel. -/
structure Fired (P : TimerId → Prop) (w w' : Wheel) : Prop where
  linked : Linked w'
  same : SameTimes w w'
  set : ∀ t, w'.IsSet t ↔ w.IsSet t ∧ ¬ P t
  calls : ∃ l, w'.calls = w.calls ++ l ∧ l.Nodup ∧ ∀ t, t ∈ l ↔ w.IsSet t ∧ P t

namespace Fired

theorem refl (h : Linked w) (hP : ∀ t, w.IsSet t → ¬ P t) : Fired P w w where
  linked := h
  same := .refl w
  set t := ⟨fun ht => ⟨ht, hP t ht⟩, And.left⟩
  calls := ⟨[], by simp, List.nodup_nil, fun t => by
    simp only [List.not_mem_nil, false_iff, not_and]
    exact hP t⟩

theorem trans (h : Fired P w w') (h' : Fired P' w' w'') :
    Fired (fun t => P t ∨ P' t) w w'' where
  linked := h'.linked
  same := h.same.trans h'.same
  set t := by rw [h'.set, h.set, not_or, and_assoc]
  calls := by
    obtain ⟨l, hl, hnodup, hmem⟩ := h.calls
    obtain ⟨l', hl', hnodup', hmem'⟩ := h'.calls
    refine ⟨l ++ l', by rw [hl', hl, List.append_assoc], ?_, fun t => ?_⟩
    · refine List.nodup_append'.mpr ⟨hnodup, hnodup', fun t ht ht' => ?_⟩
      have hset := (h.set t).mp ((hmem' t).mp ht').1
      exact hset.2 ((hmem t).mp ht).2
    · rw [List.mem_append, hmem, hmem', h.set]
      tauto

theorem congr (h : Fired P w w') (hP : ∀ t, w.IsSet t → (P t ↔ P' t)) : Fired P' w w' where
  linked := h.linked
  same := h.same
  set t := by rw [h.set]; exact and_congr_right fun ht => not_congr (hP t ht)
  calls := by
    obtain ⟨l, hl, hnodup, hmem⟩ := h.calls
    exact ⟨l, hl, hnodup, fun t => by rw [hmem]; exact and_congr_right (hP t)⟩

theorem length_le (h : Fired P w w') (hw : Linked w) (i : Nat) :
    (w'.slots i).length ≤ (w.slots i).length :=
  hw.length_le h.linked (fun t ht => ((h.set t).mp ht).1) h.same.index i

end Fired

theorem fired_batch (h : Linked w) (hts : ∀ t ∈ ts, t ∈ w.slots i) (hnodup : ts.Nodup) :
    Fired (· ∈ ts) w (called ts (w.unlinkAll i ts)) where
  linked := (h.unlinkAll hts hnodup).of_lists rfl rfl rfl rfl
  same := by
    have hs := unlinkAll_same w i ts
    exact ⟨hs.num_slots, hs.next_expire_time, hs.last_runtime, hs.running, hs.run_again, hs.pops,
      hs.gen, hs.index⟩
  set t := unlinkAll_isSet
  calls := ⟨ts, by rw [called, unlinkAll_calls], hnodup, fun t =>
    ⟨fun ht => ⟨((h.mem i t).mp (hts t ht)).1, ht⟩, And.right⟩⟩

theorem fired_clearIfEmpty (h : Linked w) (i : Nat) : Fired (fun _ => False) w (w.clearIfEmpty i) where
  linked := h.clearIfEmpty i
  same := clearIfEmpty_same w i
  set t := by simp
  calls := ⟨[], by simp⟩

theorem called_clearIfEmpty (ts : List TimerId) :
    called ts (w.clearIfEmpty i) = (called ts w).clearIfEmpty i := by
  rw [Wheel.clearIfEmpty, Wheel.clearIfEmpty]
  change _ = if (w.slots i).isEmpty then _ else _
  split <;> rfl

theorem unlinkAll_length (h : Linked w) (hts : ∀ t ∈ ts, t ∈ w.slots i) (hnodup : ts.Nodup) :
    ((w.unlinkAll i ts).slots i).length + ts.length = (w.slots i).length := by
  induction ts generalizing w with
  | nil => rfl
  | cons t ts ih =>
    have ht := hts t List.mem_cons_self
    obtain ⟨hnot, hnodup⟩ := List.nodup_cons.mp hnodup
    have hrest := ih (h.unlink ht) (fun u hu => (unlink_mem h ht i).mpr
      ⟨hts u (List.mem_cons_of_mem t hu), by rintro rfl; exact hnot hu⟩) hnodup
    have hlen : ((w.unlink i t).slots i).length = (w.slots i).length - 1 := by
      simp [Wheel.unlink, List.length_erase_of_mem ht]
    have hpos := List.length_pos_of_mem ht
    rw [unlinkAll_cons, List.length_cons]
    omega

/-! ## Running one slot -/

/-- No set timer is of a generation before `old_gen` or expires too late for the comparisons. -/
def Soon (w : Wheel) (old_gen : Nat) : Prop :=
  ∀ t, w.IsSet t → old_gen ≤ (w.timers t).gen ∧ w.expiration t < 2 ^ 63

theorem Soon.fired (h : Soon w old_gen) (hf : Fired P w w') :
    Soon w' old_gen := by
  intro t ht
  rw [hf.same.gen, hf.same.expiration]
  exact h t ((hf.set t).mp ht).1

theorem Soon.gen_lt (h : Soon w old_gen) (ht : w.IsSet t) :
    (w.timers t).gen * w.num_slots < 2 ^ 63 :=
  lt_of_le_of_lt (Nat.le_add_right _ _) (h t ht).2

theorem Soon.seqnoGte (h : Soon w old_gen) (ht : w.IsSet t) :
    seqnoGte (ul ((w.timers t).gen * w.num_slots)) (ul (old_gen * w.num_slots)) = true := by
  have hlt := h.gen_lt ht
  have hle := Nat.mul_le_mul_right w.num_slots (h t ht).1
  rw [ul_eq (by omega), ul_eq (by omega), Xdp2.seqnoGte, seqnoLt_eq_gt, Bool.not_eq_true',
    Bool.eq_false_iff, ne_eq, seqnoGt_iff (by omega) (by omega)]
  omega

theorem Soon.due_iff (h : Soon w old_gen) (hpos : 0 < w.num_slots)
    (hgen : gen * w.num_slots ≤ 2 ^ 63) (ht : w.IsSet t) :
    w.Due (ul (gen * w.num_slots)) t ↔ (w.timers t).gen ≤ gen := by
  have hlt := h.gen_lt ht
  rw [Wheel.Due, ul_eq (by omega), ul_eq (by omega), Bool.eq_false_iff, ne_eq,
    seqnoGt_iff (by omega) (by omega), not_lt]
  exact Nat.mul_le_mul_right_iff hpos

/-- The set timers of one slot up to a generation. -/
def Wheel.InSlot (w : Wheel) (i gen : Nat) (t : TimerId) : Prop :=
  (w.timers t).index = i ∧ (w.timers t).gen ≤ gen

theorem runSlot_fired (hgen : gen * w.num_slots ≤ 2 ^ 63) :
    ∀ {w0 : Wheel}, Linked w → Soon w old_gen → (w.slots i).length < fuel →
      wp (solo called) (fun _ _ _ w' => Fired (w.InSlot i gen) w w')
        (runSlot gen old_gen fuel i) () w0 w := by
  induction fuel generalizing w with
  | zero => intro w0 _ _ hfuel; omega
  | succ fuel ih =>
    intro w0 h hsoon hfuel
    rw [runSlot, wp_bind, wp_get, wp_bind]
    have hset : ∀ t ∈ w.slots i, w.IsSet t := fun t ht => ((h.mem i t).mp ht).1
    refine wp_scanSlot (fun t ht => .inl (hsoon.seqnoGte (hset t ht))) fun taken full w1 hs => ?_
    have hts : ∀ t ∈ taken, t ∈ w.slots i := fun t ht => hs.sub.subset ht
    have hnodup := hs.sub.nodup (h.nodup i)
    have hin : ∀ t ∈ taken, w.InSlot i gen t := fun t ht =>
      ⟨((h.mem i t).mp (hts t ht)).2,
        (hsoon.due_iff h.pos hgen (hset t (hts t ht))).mp (hs.due t ht)⟩
    have hbatch := fired_batch h hts hnodup
    rw [← hs.wheel] at hbatch
    rw [List.nil_append]
    cases full with
    | true =>
      -- a full batch: the slot is scanned again with the rest
      rw [if_pos rfl, wp_bind, wp_release]
      refine ⟨(), trivial, fun w2 hw2 => ?_⟩
      subst hw2
      have hlen := unlinkAll_length h hts hnodup
      have hpos : 0 < taken.length := List.length_pos_iff.mpr (hs.batch rfl)
      refine wp_mono (fun _ _ _ w' hf => (hbatch.trans hf).congr fun t ht => ?_)
        (ih (by rw [hbatch.same.num_slots]; exact hgen) hbatch.linked (hsoon.fired hbatch)
          (by rw [hs.wheel]; change ((w.unlinkAll i taken).slots i).length < fuel; omega))
      rw [Wheel.InSlot, Wheel.InSlot, hbatch.same.index, hbatch.same.gen]
      exact ⟨fun h => h.elim (hin t) id, .inr⟩
    | false =>
      have hall : ∀ t, w.IsSet t → (t ∈ taken ↔ w.InSlot i gen t) := fun t ht =>
        ⟨hin t, fun hP => hs.all rfl t ((h.mem i t).mpr ⟨ht, hP.1⟩)
          ((hsoon.due_iff h.pos hgen ht).mpr hP.2)⟩
      have hend : Fired (w.InSlot i gen) w (called taken (w1.clearIfEmpty i)) := by
        rw [called_clearIfEmpty]
        refine (hbatch.trans (fired_clearIfEmpty hbatch.linked i)).congr fun t ht => ?_
        rw [or_false]
        exact hall t ht
      rw [if_neg (by simp), wp_bind, wp_modify]
      cases htaken : taken with
      | nil =>
        rw [htaken, called, List.append_nil] at hend
        exact hend
      | cons t ts =>
        rw [← htaken, if_pos (by rw [htaken]; exact List.cons_ne_nil t ts), wp_release]
        exact ⟨(), trivial, fun w2 hw2 => by rw [hw2]; exact hend⟩

/-! ## Running several slots -/

/-- The set timers of the slots from `a` up to `b` and up to a generation. -/
def Wheel.InSlots (w : Wheel) (a b gen : Nat) (t : TimerId) : Prop :=
  a ≤ (w.timers t).index ∧ (w.timers t).index < b ∧ (w.timers t).gen ≤ gen

theorem forEachSlot_fired (hgen : gen * w.num_slots ≤ 2 ^ 63) (hnbits : nbits < 2 ^ 32) :
    ∀ {w0 : Wheel} {pos r : Nat}, Linked w → Soon w old_gen →
      (∀ i, (w.slots i).length < fuel) → Finds w.slot_bitmap.isset pos nbits r →
      nbits < r + turns →
      wp (solo called) (fun _ _ _ w' => Fired (w.InSlots pos nbits gen) w w')
        (forEachSlot (runSlot gen old_gen fuel) nbits turns r) () w0 w := by
  induction turns generalizing w with
  | zero => intro w0 pos r _ _ _ hfinds hturns; have := hfinds.le; omega
  | succ turns ih =>
    intro w0 pos r h hsoon hfuel hfinds hturns
    -- the slots that are passed over have no timers
    have hskip : ∀ t, w.IsSet t → pos ≤ (w.timers t).index → ¬ (w.timers t).index < r := by
      intro t ht hpos hlt
      have hbit := h.bit (w.timers t).index
        (List.ne_nil_of_mem ((h.mem _ t).mpr ⟨ht, rfl⟩))
      rw [hfinds.clear _ hpos hlt] at hbit
      cases hbit
    rw [forEachSlot]
    by_cases hr : r < nbits
    · rw [if_pos hr, wp_bind]
      refine wp_mono (fun _ _ w0 w1 hf => ?_) (runSlot_fired hgen h hsoon (hfuel r))
      rw [wp_bind, wp_get]
      refine wp_mono (fun _ _ _ w' hf' => (hf.trans hf').congr fun t ht => ?_)
        (ih (by rw [hf.same.num_slots]; exact hgen) hf.linked (hsoon.fired hf)
          (fun i => lt_of_le_of_lt (hf.length_le h i) (hfuel i))
          (bitmapFindNext_finds _ (by decide) hr hnbits) (by
            have := (bitmapFindNext_finds w1.slot_bitmap (by decide) hr hnbits).ge
            omega))
      have hpass := hskip t ht
      have hge := hfinds.ge
      rw [Wheel.InSlot, Wheel.InSlots, Wheel.InSlots, hf.same.index, hf.same.gen]
      omega
    · rw [if_neg hr]
      refine .refl h fun t ht hP => ?_
      have hle := hfinds.le
      exact hskip t ht hP.1 (by have := hP.2.1; omega)

theorem runSlots_fired (h : Linked w) (hsoon : Soon w old_gen)
    (hfuel : ∀ i, (w.slots i).length < fuel) (hgen : gen * w.num_slots ≤ 2 ^ 63)
    (hnbits : nbits < 2 ^ 32) (hpos : pos ≤ nbits) :
    wp (solo called) (fun _ _ _ w' => Fired (w.InSlots pos nbits gen) w w')
      (runSlots fuel gen old_gen pos nbits) () w0 w := by
  rw [runSlots, wp_bind, wp_get]
  exact forEachSlot_fired hgen hnbits h hsoon hfuel (bitmapFind_finds _ (by decide) hpos hnbits)
    (by omega)

/-! ## A pass over the wheel -/

/-- The set timers expire after the last run, and early enough for the comparisons. -/
def Ahead (w : Wheel) : Prop :=
  ∀ t, w.IsSet t → w.last_runtime < w.expiration t ∧ w.expiration t < 2 ^ 63

theorem mul_add_le {a b n : Nat} (h : a < b) : a * n + n ≤ b * n := by
  rw [← Nat.succ_mul]
  exact Nat.mul_le_mul_right n h

theorem Ahead.soon (h : Ahead w) (hl : Linked w) : Soon w (w.last_runtime / w.num_slots) := by
  intro t ht
  obtain ⟨hlt, hlt'⟩ := h t ht
  refine ⟨?_, hlt'⟩
  by_contra hcon
  have hle := mul_add_le (n := w.num_slots) (not_le.mp hcon)
  have hrange := hl.range t ht
  have hdiv := Nat.div_mul_le_self w.last_runtime w.num_slots
  rw [Wheel.expiration] at hlt
  omega

theorem runOldGens_fired {now : Nat} (h : Linked w) (hahead : Ahead w) (hn : w.num_slots < 2 ^ 31)
    (hle : w.last_runtime ≤ now) (hlt : now < 2 ^ 63) (hfuel : ∀ i, (w.slots i).length < fuel) :
    wp (solo called) (fun index _ _ w1 => index ≤ (now + 1) % w.num_slots ∧ ∃ P, Fired P w w1 ∧
        ∀ t, w.IsSet t → (P t ∨ w.InSlots index ((now + 1) % w.num_slots)
          ((now + 1) / w.num_slots) t ↔ w.expiration t ≤ now))
      (runOldGens fuel w (w.last_runtime / w.num_slots) ((now + 1) / w.num_slots)) () w0 w := by
  have hsoon := hahead.soon h
  have hold := Nat.div_add_mod' w.last_runtime w.num_slots
  have hnew := Nat.div_add_mod' (now + 1) w.num_slots
  have hmod := Nat.mod_lt w.last_runtime h.pos
  have hmod' := Nat.mod_lt (now + 1) h.pos
  have hgens : w.last_runtime / w.num_slots ≤ (now + 1) / w.num_slots :=
    Nat.div_le_div_right (by omega)
  generalize hog : w.last_runtime / w.num_slots = old_gen at *
  generalize hng : (now + 1) / w.num_slots = new_gen at *
  generalize hli : (now + 1) % w.num_slots = last_index at *
  rw [runOldGens]
  by_cases hsame : old_gen = new_gen
  · rw [if_pos hsame, wp_pure]
    subst hsame
    refine ⟨by omega, fun _ => False, .refl h fun _ _ => id, fun t ht => ?_⟩
    obtain ⟨hgt, -⟩ := hahead t ht
    have hgen := (hsoon t ht).1
    rw [false_or, Wheel.InSlots, Wheel.expiration] at *
    rcases hgen.lt_or_eq with hg | hg
    · have := mul_add_le (n := w.num_slots) hg
      omega
    · rw [← hg] at hgt ⊢
      omega
  · rw [if_neg hsame]
    have hgen' : (new_gen - 1) * w.num_slots ≤ 2 ^ 63 := by
      have := Nat.mul_le_mul_right w.num_slots (Nat.sub_le new_gen 1)
      omega
    by_cases hnext : old_gen + 1 = new_gen
    · rw [if_pos hnext, wp_bind]
      refine wp_mono (fun _ _ _ w1 hf => ?_)
        (runSlots_fired h hsoon hfuel hgen' (by omega) hmod.le)
      rw [wp_pure]
      refine ⟨Nat.zero_le _, _, hf, fun t ht => ?_⟩
      obtain ⟨hgt, -⟩ := hahead t ht
      have hgen := (hsoon t ht).1
      have hrange := h.range t ht
      rw [Wheel.expiration] at hgt ⊢
      rw [Wheel.InSlots, Wheel.InSlots]
      rcases lt_trichotomy (w.timers t).gen new_gen with hg | hg | hg
      · have := mul_add_le (n := w.num_slots) hg
        have hg' : (w.timers t).gen = old_gen := by omega
        rw [hg'] at hgt this ⊢
        omega
      · rw [hg]
        omega
      · have := mul_add_le (n := w.num_slots) hg
        omega
    · rw [if_neg hnext, wp_bind]
      have hprev : ul (new_gen + 2 ^ 64 - 1) = new_gen - 1 := by
        have hdiv : new_gen ≤ now + 1 := by rw [← hng]; exact Nat.div_le_self _ _
        rw [ul]
        omega
      rw [hprev]
      refine wp_mono (fun _ _ _ w1 hf => ?_)
        (runSlots_fired h hsoon hfuel hgen' (by omega) (Nat.zero_le _))
      rw [wp_pure]
      refine ⟨Nat.zero_le _, _, hf, fun t ht => ?_⟩
      have hrange := h.range t ht
      rw [Wheel.InSlots, Wheel.InSlots, Wheel.expiration]
      rcases lt_trichotomy (w.timers t).gen new_gen with hg | hg | hg
      · have := mul_add_le (n := w.num_slots) hg
        omega
      · rw [hg]
        omega
      · have := mul_add_le (n := w.num_slots) hg
        omega

/-- The wheel after a pass at the time `now`: the timers that were due have been called, and the
next time to run has been looked for. -/
def PassEnd (w : Wheel) (now : Nat) (w' : Wheel) : Prop :=
  ∃ w1, Fired (fun t => w.expiration t ≤ now) w w1 ∧
    w' = { w1 with last_runtime := now }.findNextPop ((now + 1) / w.num_slots)
      ((now + 1) % w.num_slots)

theorem runPass_ends (h : Linked w) (hahead : Ahead w) (hn : w.num_slots < 2 ^ 31)
    (hle : w.last_runtime ≤ now) (hlt : now < 2 ^ 63) (hfuel : ∀ i, (w.slots i).length < fuel) :
    wp (solo called) (fun _ _ _ w' => PassEnd w now w') (runPass fuel now) () w0 w := by
  have hassert : seqnoLte w.last_runtime now = true := by
    rw [seqnoLte, Bool.not_eq_true', Bool.eq_false_iff, ne_eq, seqnoGt_iff (by omega) (by omega)]
    omega
  have hgen : (now + 1) / w.num_slots * w.num_slots ≤ 2 ^ 63 :=
    (Nat.div_mul_le_self _ _).trans (by omega)
  rw [runPass, wp_bind, wp_get, ul_eq (by omega)]
  dsimp only
  rw [wp_bind, wheelAssert, hassert, if_pos rfl, wp_pure, wp_bind]
  refine wp_mono (fun index _ _ w1 hf => ?_) (runOldGens_fired h hahead hn hle hlt hfuel)
  obtain ⟨hindex, P, hf, hP⟩ := hf
  rw [wp_bind]
  refine wp_mono (fun _ _ _ w2 hf' => ?_)
    (runSlots_fired hf.linked ((hahead.soon h).fired hf)
      (fun i => lt_of_le_of_lt (hf.length_le h i) (hfuel i))
      (by rw [hf.same.num_slots]; exact hgen)
      ((Nat.mod_lt _ h.pos).trans (by omega)) hindex)
  rw [wp_modify]
  refine ⟨w2, (hf.trans hf').congr fun t ht => ?_, rfl⟩
  rw [← hP t ht, Wheel.InSlots, Wheel.InSlots, hf.same.index, hf.same.gen]

end Xdp2
