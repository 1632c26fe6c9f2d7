import Xdp2.Dtable.Idents

/-!
# What is in a table

The list for lookups is in the order of a rank, entries of one rank in the order of addition
(`Arranged`), so a table is the list of its live entries, `liveStep` (`Refines.step`,
`Refines.run`), and the first entry that matches is the oldest match of the least rank
(`Refines.firstMatch`).
-/

namespace Xdp2

open Ranked

variable {κ τ : Type} {kind : DtableKind κ} {t : DtableTable κ τ} {e : DtableEntry κ τ}

/-! ## The order of the list for lookups -/

/-- A kind of table whose searches end by a rank, and that has a notion of the same key. -/
structure DtableKind.Lawful (kind : DtableKind κ) (rank : κ → Int) : Prop where
  past_iff : ∀ q k, kind.past q k = true ↔ rank q < rank k
  symm : ∀ {a b}, kind.same a b = true → kind.same b a = true
  trans : ∀ {a b c}, kind.same a b = true → kind.same b c = true → kind.same a c = true

/-- An entry that a call with `q` may be for. -/
def DtableKind.hit (kind : DtableKind κ) (q k : κ) : Bool := !kind.past q k && kind.same q k

/-- The list for lookups is in order, and no two entries with the same key have the same rank. -/
structure DtableTable.Arranged (kind : DtableKind κ) (rank : κ → Int) (t : DtableTable κ τ) : Prop
    extends t.Sound where
  sorted : Sorted (fun e => rank e.keyinfo) DtableEntry.num t.entries_lookup
  apart : ∀ a ∈ t.entries, ∀ b ∈ t.entries, kind.same a.keyinfo b.keyinfo = true →
    rank a.keyinfo = rank b.keyinfo → a = b

theorem arranged_empty (kind : DtableKind κ) (rank : κ → Int) (d : τ) :
    (⟨d, [], [], 0⟩ : DtableTable κ τ).Arranged kind rank :=
  { sound_empty d with sorted := .nil, apart := fun _ ha => (List.not_mem_nil ha).elim }

theorem DtableTable.Arranged.find_eq (h : t.Arranged kind rank) (hlaw : kind.Lawful rank) (q : κ) :
    (dtableFind kind t q).1 = t.entries_lookup.find? fun e => kind.hit q e.keyinfo :=
  h.sorted.search_fst (fun e => hlaw.past_iff q e.keyinfo) none

theorem DtableTable.Arranged.find_none (h : t.Arranged kind rank) (hlaw : kind.Lawful rank) :
    (dtableFind kind t q).1 = none ↔ ∀ e ∈ t.entries, kind.hit q e.keyinfo = false := by
  rw [h.find_eq hlaw, List.find?_eq_none]
  simp only [h.perm.mem_iff, Bool.not_eq_true]

theorem DtableTable.Arranged.find_some (h : t.Arranged kind rank) (hlaw : kind.Lawful rank)
    (hfind : (dtableFind kind t q).1 = some e) :
    e ∈ t.entries ∧ kind.hit q e.keyinfo = true ∧
      ∀ x ∈ t.entries, kind.hit q x.keyinfo = true → x = e ∨ rank e.keyinfo < rank x.keyinfo := by
  rw [h.find_eq hlaw] at hfind
  have hmem := h.perm.mem_iff.mpr (List.mem_of_find?_eq_some hfind)
  have hhit := List.find?_some hfind
  refine ⟨hmem, hhit, fun x hx hxhit => ?_⟩
  rcases h.sorted.find?_first hfind x (h.perm.mem_iff.mp hx) hxhit with heq | hlt | ⟨hrank, -⟩
  · exact .inl heq
  · exact .inr hlt
  · have hse : kind.same q e.keyinfo = true := (Bool.and_eq_true_iff.mp hhit).2
    have hsx : kind.same q x.keyinfo = true := (Bool.and_eq_true_iff.mp hxhit).2
    exact .inl (h.apart x hx e hmem (hlaw.trans (hlaw.symm hsx) hse) hrank.symm)

theorem DtableTable.Arranged.del (h : t.Arranged kind rank) (e : DtableEntry κ τ) :
    (dtableDel t e).Arranged kind rank :=
  { h.toSound.del e with
    sorted := h.sorted.sublist List.filter_sublist
    apart := fun a ha b hb => h.apart a (List.mem_of_mem_filter ha) b (List.mem_of_mem_filter hb) }

theorem DtableTable.Arranged.change (h : t.Arranged kind rank) (e : DtableEntry κ τ) (v : τ) :
    (dtableChange t e v).Arranged kind rank :=
  { h.toSound.change e v with
    sorted := by
      refine List.pairwise_map.mpr (h.sorted.imp ?_)
      intro a b hab
      unfold Before at hab ⊢
      simp only [DtableEntry.retarget_keyinfo, DtableEntry.retarget_num]
      exact hab
    apart := by
      intro a ha b hb hsame hrank
      obtain ⟨x, hx, rfl⟩ := List.mem_map.mp ha
      obtain ⟨y, hy, rfl⟩ := List.mem_map.mp hb
      rw [DtableEntry.retarget_keyinfo, DtableEntry.retarget_keyinfo] at hsame hrank
      rw [h.apart x hx y hy hsame hrank] }

theorem DtableTable.Arranged.add {id : Int} {t' : DtableTable κ τ} (h : t.Arranged kind rank)
    (hlaw : kind.Lawful rank) (hfind : (dtableFind kind t q).1 = none)
    (hadd : dtableAdd malloc t (dtableFind kind t q).2 ident v q = some (t', id)) :
    t'.Arranged kind rank := by
  obtain ⟨hsound, hperm⟩ := h.toSound.add (search_snd_mem _) hadd
  obtain ⟨-, ident', want, pentry, -, -, -, rfl⟩ := dtableAdd_some hadd
  have hnone := (h.find_none hlaw).mp hfind
  refine { hsound with sorted := ?_, apart := ?_ }
  · obtain ⟨before, after, heq, hbefore, hprev, hend⟩ := search_split
      (fun e => kind.past q e.keyinfo) (fun e => kind.same q e.keyinfo) none t.entries_lookup
    have hafter : ∀ e ∈ after.head?, rank q < rank e.keyinfo := by
      rcases hend with ⟨-, hpast⟩ | ⟨e, rest, -, -, -, hfound⟩
      · exact fun e he => (hlaw.past_iff q e.keyinfo).mp (hpast e he)
      · cases hfind.symm.trans hfound
    have hplace : (dtableFind kind t q).2 = before.getLast? :=
      hprev.trans (Option.or_none)
    have hsorted := h.sorted
    have hnums := h.nums_lookup
    rw [heq] at hsorted hnums
    have hlist : insertAfter DtableEntry.num (dtableFind kind t q).2 ⟨t.allocs, id, v, q⟩ t.entries_lookup =
        before ++ ⟨t.allocs, id, v, q⟩ :: after := by
      rw [hplace, heq]
      exact insertAfter_eq _ hnums
    dsimp only
    rw [hlist]
    refine hsorted.insert ?_ hafter ?_
    · intro e he
      have hpast := (hbefore e he).1
      by_contra hlt
      rw [(hlaw.past_iff q e.keyinfo).mpr (not_le.mp hlt)] at hpast
      cases hpast
    · intro e he
      rw [← heq] at he
      exact h.fresh e (h.perm.mem_iff.mpr he)
  · -- no entry with the same key and the same rank was there
    have hnew : ∀ x ∈ t.entries, kind.same q x.keyinfo = true → rank q ≠ rank x.keyinfo := by
      intro x hx hsame hrank
      have hhit := hnone x hx
      have hpast : kind.past q x.keyinfo = false := by
        rw [Bool.eq_false_iff]
        exact fun hp => ((hlaw.past_iff q x.keyinfo).mp hp).ne hrank
      rw [DtableKind.hit, hpast, hsame] at hhit
      cases hhit
    intro a ha b hb hsame hrank
    rcases List.mem_cons.mp (hperm.mem_iff.mp ha) with rfl | ha
    · rcases List.mem_cons.mp (hperm.mem_iff.mp hb) with rfl | hb
      · rfl
      · exact (hnew b hb hsame hrank).elim
    · rcases List.mem_cons.mp (hperm.mem_iff.mp hb) with rfl | hb
      · exact (hnew a ha (hlaw.symm hsame) hrank.symm).elim
      · exact h.apart a ha b hb hsame hrank

theorem DtableTable.Arranged.step (h : t.Arranged kind rank) (hlaw : kind.Lawful rank)
    (call : DtableCall κ τ) : (dtableStep kind t call).1.Arranged kind rank := by
  rcases dtableStep_cases kind t call with heq | ⟨malloc, ident, q, v, t', id, -, hfind, hadd, heq⟩ |
    ⟨e, heq⟩ | ⟨e, v, heq⟩
  · rw [heq]
    exact h
  · rw [heq]
    exact h.add hlaw hfind hadd
  · rw [heq]
    exact h.del e
  · rw [heq]
    exact h.change e v

/-! ## Live entries -/

/-- An entry, as one who makes the calls knows it. -/
structure LiveEntry (κ τ : Type) where
  keyinfo : κ
  target : τ

/-- A call by key, with the identifier of a new entry chosen automatically. -/
inductive KeyCall (κ τ : Type)
  | add (malloc : Bool) (q : κ) (target : τ)
  | del (q : κ)
  | change (q : κ) (target : τ)

def KeyCall.toCall : KeyCall κ τ → DtableCall κ τ
  | add malloc q target => .add malloc 0 q target
  | del q => .del q
  | change q target => .change q target

/-- The live entry a call is for: no other that it may be for is of a smaller rank. -/
def Picked (kind : DtableKind κ) (rank : κ → Int) (live : List (LiveEntry κ τ)) (q : κ)
    (r : LiveEntry κ τ) : Prop :=
  kind.hit q r.keyinfo = true ∧
    ∀ r' ∈ live, kind.hit q r'.keyinfo = true → rank r.keyinfo ≤ rank r'.keyinfo

instance (live : List (LiveEntry κ τ)) (r : LiveEntry κ τ) : Decidable (Picked kind rank live q r) :=
  inferInstanceAs (Decidable (_ ∧ _))

/-- What a call that returns `code` does to the live entries, in the order of addition. -/
def liveStep (kind : DtableKind κ) (rank : κ → Int) (live : List (LiveEntry κ τ)) (code : Int) :
    KeyCall κ τ → List (LiveEntry κ τ)
  | .add _ q target => if code < 0 then live else live ++ [⟨q, target⟩]
  | .del q => live.filter fun r => ¬ Picked kind rank live q r
  | .change q target =>
    live.map fun r => if Picked kind rank live q r then { r with target := target } else r

/-- The table and its live entries after a number of calls. -/
def liveRun (kind : DtableKind κ) (rank : κ → Int) (t : DtableTable κ τ) (live : List (LiveEntry κ τ)) :
    List (KeyCall κ τ) → DtableTable κ τ × List (LiveEntry κ τ)
  | [] => (t, live)
  | call :: calls => liveRun kind rank (dtableStep kind t call.toCall).1
      (liveStep kind rank live (dtableStep kind t call.toCall).2 call) calls

def DtableEntry.live (e : DtableEntry κ τ) : LiveEntry κ τ := ⟨e.keyinfo, e.target⟩

/-- The table has the live entries, which are in the order of addition. -/
structure Refines (kind : DtableKind κ) (rank : κ → Int) (t : DtableTable κ τ)
    (live : List (LiveEntry κ τ)) : Prop extends t.Arranged kind rank where
  live_eq : ∃ es : List (DtableEntry κ τ), es.Perm t.entries ∧ (es.Pairwise fun a b => a.num < b.num) ∧
    es.map DtableEntry.live = live

theorem refines_empty (kind : DtableKind κ) (rank : κ → Int) (d : τ) :
    Refines kind rank (⟨d, [], [], 0⟩ : DtableTable κ τ) [] :=
  { arranged_empty kind rank d with live_eq := ⟨[], .refl _, .nil, rfl⟩ }

theorem DtableTable.Arranged.picked_iff {es : List (DtableEntry κ τ)} (h : t.Arranged kind rank)
    (hlaw : kind.Lawful rank) (hes : es.Perm t.entries) (hfind : (dtableFind kind t q).1 = some e)
    (hx : x ∈ t.entries) :
    Picked kind rank (es.map DtableEntry.live) q x.live ↔ x.num = e.num := by
  obtain ⟨he, hhit, hfirst⟩ := h.find_some hlaw hfind
  constructor
  · rintro ⟨hxhit, hmin⟩
    rcases hfirst x hx hxhit with heq | hlt
    · rw [heq]
    · have hle := hmin e.live (List.mem_map_of_mem (hes.mem_iff.mpr he)) hhit
      exact (not_le.mpr hlt hle).elim
  · intro hnum
    obtain rfl := h.num_inj hx he hnum
    refine ⟨hhit, fun r' hr' hr'hit => ?_⟩
    obtain ⟨y, hy, rfl⟩ := List.mem_map.mp hr'
    rcases hfirst y (hes.mem_iff.mp hy) hr'hit with heq | hlt
    · rw [heq]
    · exact hlt.le

theorem DtableTable.Arranged.not_picked {es : List (DtableEntry κ τ)} (h : t.Arranged kind rank)
    (hlaw : kind.Lawful rank) (hfind : (dtableFind kind t q).1 = none) (hx : x ∈ t.entries) : ¬ Picked kind rank (es.map DtableEntry.live) q x.live := by
  intro hpicked
  have hhit := (h.find_none hlaw).mp hfind x hx
  exact Bool.false_ne_true (hhit.symm.trans hpicked.1)

theorem live_del {es : List (DtableEntry κ τ)} [DecidablePred p]
    (hp : ∀ x ∈ es, p x.live ↔ x.num = e.num) :
    (es.filter fun x => x.num ≠ e.num).map DtableEntry.live =
      (es.map DtableEntry.live).filter fun r => ¬ p r := by
  rw [List.filter_map]
  refine congrArg _ (List.filter_congr fun x hx => ?_)
  exact decide_eq_decide.mpr (not_congr (hp x hx).symm)

theorem live_change {es : List (DtableEntry κ τ)} [DecidablePred p]
    (hp : ∀ x ∈ es, p x.live ↔ x.num = e.num) :
    (es.map (DtableEntry.retarget e.num v)).map DtableEntry.live =
      (es.map DtableEntry.live).map fun r => if p r then { r with target := v } else r := by
  rw [List.map_map, List.map_map]
  refine List.map_congr_left fun x hx => ?_
  rw [Function.comp_apply, Function.comp_apply, DtableEntry.retarget]
  by_cases hnum : x.num = e.num
  · rw [if_pos hnum, if_pos ((hp x hx).mpr hnum)]
    rfl
  · rw [if_neg hnum, if_neg fun hpx => hnum ((hp x hx).mp hpx)]

/-- **A call does to the table what it does to its live entries.** -/
theorem Refines.step (h : Refines kind rank t live) (hlaw : kind.Lawful rank)
    (hret : ∀ id, 0 ≤ id → 0 ≤ kind.addRet id) (call : KeyCall κ τ) :
    Refines kind rank (dtableStep kind t call.toCall).1
      (liveStep kind rank live (dtableStep kind t call.toCall).2 call) := by
  have harr := h.toArranged.step hlaw call.toCall
  obtain ⟨es, hes, hsorted, rfl⟩ := h.live_eq
  refine { harr with live_eq := ?_ }
  cases call with
  | add malloc q v =>
    dsimp only [KeyCall.toCall, dtableStep, liveStep]
    rcases dtableAddBy_cases kind malloc t 0 q v with ⟨-, heq⟩ | ⟨-, -, heq⟩ | ⟨t', id, -, hadd, heq⟩
    · rw [heq, if_pos (by decide : ealready < 0)]
      exact ⟨es, hes, hsorted, rfl⟩
    · rw [heq, if_pos (by decide : dtableEnomem < 0)]
      exact ⟨es, hes, hsorted, rfl⟩
    · obtain ⟨-, ident', want, pentry, hscan, hwant, hid, -⟩ := dtableAdd_some hadd
      rw [addScan_auto hscan] at hid
      rw [heq, if_neg (not_lt.mpr (hret id (by omega)))]
      have hperm := (h.toSound.add (search_snd_mem _) hadd).2
      refine ⟨es ++ [⟨t.allocs, id, v, q⟩], ?_, ?_, by rw [List.map_append]; rfl⟩
      · exact (List.perm_append_singleton _ _).trans ((hes.cons _).trans hperm.symm)
      · refine List.pairwise_append.mpr ⟨hsorted, List.pairwise_singleton _ _, ?_⟩
        intro a ha b hb
        rw [List.mem_singleton.mp hb]
        exact h.fresh a (hes.mem_iff.mp ha)
  | del q =>
    dsimp only [KeyCall.toCall, dtableStep, dtableDelBy, liveStep]
    cases hfind : (dtableFind kind t q).1 with
    | none =>
      refine ⟨es, hes, hsorted, (List.filter_eq_self.mpr fun r hr => ?_).symm⟩
      obtain ⟨x, hx, rfl⟩ := List.mem_map.mp hr
      exact decide_eq_true (h.toArranged.not_picked hlaw hfind (hes.mem_iff.mp hx))
    | some e =>
      exact ⟨_, hes.filter _, hsorted.filter _, live_del fun x hx =>
        h.toArranged.picked_iff hlaw hes hfind (hes.mem_iff.mp hx)⟩
  | change q v =>
    dsimp only [KeyCall.toCall, dtableStep, dtableChangeBy, liveStep]
    cases hfind : (dtableFind kind t q).1 with
    | none =>
      refine ⟨es, hes, hsorted, ?_⟩
      rw [List.map_map]
      refine List.map_congr_left fun x hx => ?_
      rw [Function.comp_apply, if_neg (h.toArranged.not_picked hlaw hfind (hes.mem_iff.mp hx))]
    | some e =>
      refine ⟨_, hes.map _, List.pairwise_map.mpr (hsorted.imp ?_), live_change fun x hx =>
        h.toArranged.picked_iff hlaw hes hfind (hes.mem_iff.mp hx)⟩
      intro a b hlt
      rw [DtableEntry.retarget_num, DtableEntry.retarget_num]
      exact hlt

theorem Refines.run (h : Refines kind rank t live) (hlaw : kind.Lawful rank)
    (hret : ∀ id, 0 ≤ id → 0 ≤ kind.addRet id) (calls : List (KeyCall κ τ)) :
    Refines kind rank (liveRun kind rank t live calls).1 (liveRun kind rank t live calls).2 := by
  induction calls generalizing t live with
  | nil => exact h
  | cons call calls ih => exact ih (h.step hlaw hret call)

theorem liveRun_forall {P : κ → Prop} (hcalls : ∀ malloc q v, .add malloc q v ∈ calls → P q)
    (hlive : ∀ r ∈ live, P r.keyinfo) :
    ∀ r ∈ (liveRun kind rank t live calls).2, P r.keyinfo := by
  induction calls generalizing t live with
  | nil => exact hlive
  | cons call calls ih =>
    refine ih (fun malloc q v hmem => hcalls malloc q v (List.mem_cons_of_mem _ hmem)) ?_
    intro r hr
    cases call with
    | add malloc q v =>
      dsimp only [liveStep] at hr
      split at hr
      · exact hlive r hr
      · rcases List.mem_append.mp hr with hr | hr
        · exact hlive r hr
        · rw [List.mem_singleton.mp hr]
          exact hcalls malloc q v List.mem_cons_self
    | del q => exact hlive r (List.mem_of_mem_filter hr)
    | change q v =>
      obtain ⟨x, hx, rfl⟩ := List.mem_map.mp hr
      have hx' := hlive x hx
      split
      · exact hx'
      · exact hx'

/-! ## The first match -/

/-- The match among the live entries of the least rank, and the one added first of those. -/
def FirstBest (isMatch : κ → Prop) (rank : κ → Int) (live : List (LiveEntry κ τ)) (r : LiveEntry κ τ) :
    Prop :=
  ∃ older younger, live = older ++ r :: younger ∧ isMatch r.keyinfo ∧
    (∀ r' ∈ older, isMatch r'.keyinfo → rank r.keyinfo < rank r'.keyinfo) ∧
    ∀ r' ∈ younger, isMatch r'.keyinfo → rank r.keyinfo ≤ rank r'.keyinfo

theorem firstMatch_eq {cmp : κ → Option Bool} [DecidablePred isMatch] {l : List (DtableEntry κ τ)}
    (hcmp : ∀ e ∈ l, cmp e.keyinfo = some (decide (isMatch e.keyinfo))) :
    firstMatch cmp l = some (l.find? fun e => isMatch e.keyinfo) := by
  induction l with
  | nil => rfl
  | cons e l ih =>
    rw [firstMatch, hcmp e List.mem_cons_self, List.find?_cons]
    by_cases hmatch : isMatch e.keyinfo
    · rw [decide_eq_true hmatch]
    · rw [decide_eq_false hmatch]
      exact ih fun x hx => hcmp x (List.mem_cons_of_mem _ hx)

/-- **A lookup finds the best match**, or no live entry matches. -/
theorem Refines.find?_best (h : Refines kind rank t live) (isMatch : κ → Prop) [DecidablePred isMatch] :
    (∃ e r, t.entries_lookup.find? (fun e => isMatch e.keyinfo) = some e ∧ e.live = r ∧
      FirstBest isMatch rank live r) ∨
    (t.entries_lookup.find? (fun e => isMatch e.keyinfo) = none ∧ ∀ r ∈ live, ¬ isMatch r.keyinfo) := by
  obtain ⟨es, hes, hsorted, rfl⟩ := h.live_eq
  have hlookup : es.Perm t.entries_lookup := hes.trans h.perm
  cases hfind : t.entries_lookup.find? (fun e => isMatch e.keyinfo) with
  | none =>
    right
    refine ⟨rfl, fun r hr => ?_⟩
    obtain ⟨x, hx, rfl⟩ := List.mem_map.mp hr
    have hno := List.find?_eq_none.mp hfind x (hlookup.mem_iff.mp hx)
    exact fun hmatch => hno (decide_eq_true hmatch)
  | some e =>
    left
    have he : e ∈ es := hlookup.mem_iff.mpr (List.mem_of_find?_eq_some hfind)
    have hmatch : isMatch e.keyinfo := by simpa using List.find?_some hfind
    obtain ⟨older, younger, rfl⟩ := List.append_of_mem he
    have hfirst : ∀ x ∈ older ++ e :: younger, isMatch x.keyinfo →
        x = e ∨ Before (fun e => rank e.keyinfo) DtableEntry.num e x := by
      intro x hx hxm
      exact h.sorted.find?_first hfind x (hlookup.mem_iff.mp hx) (decide_eq_true hxm)
    obtain ⟨-, hyounger, hlt⟩ := List.pairwise_append.mp hsorted
    refine ⟨e, e.live, rfl, rfl, older.map DtableEntry.live, younger.map DtableEntry.live, by simp, hmatch,
      fun r hr hrm => ?_, fun r hr hrm => ?_⟩
    · obtain ⟨x, hx, rfl⟩ := List.mem_map.mp hr
      have hnum : x.num < e.num := hlt x hx e List.mem_cons_self
      rcases hfirst x (List.mem_append_left _ hx) hrm with rfl | hrank | ⟨-, hle⟩
      · exact (Nat.lt_irrefl _ hnum).elim
      · exact hrank
      · exact (Nat.lt_asymm hnum hle).elim
    · obtain ⟨x, hx, rfl⟩ := List.mem_map.mp hr
      rcases hfirst x (List.mem_append_right _ (List.mem_cons_of_mem _ hx)) hrm with rfl | hbefore
      · exact le_refl _
      · exact hbefore.le

end Xdp2
