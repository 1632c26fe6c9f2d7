import Xdp2.Dtable.Table

/-!
# The identifiers of table entries

The two lists of a table hold the same entries (`Sound`). An entry is found by its identifier with a
search that ends early, so the list by identifier has to be in order. A given identifier goes to its
place; an automatic one goes behind the run that starts with the base identifier, or, if there is
none, to the front, before smaller identifiers (`addScan_auto`). Without the latter identifiers are
what they are for (`run_identsRight`).
-/

namespace Xdp2

open Ranked

variable {κ τ : Type} {kind : DtableKind κ} {t : DtableTable κ τ} {e : DtableEntry κ τ}

/-! ## Calls -/

/-- A call for a table of some kind, by what is kept with the key or by identifier. -/
inductive DtableCall (κ τ : Type)
  | add (malloc : Bool) (ident : Int) (q : κ) (target : τ)
  | del (q : κ)
  | change (q : κ) (target : τ)
  | delById (ident : Int)
  | changeById (ident : Int) (target : τ)

/-- The table after a call, and what it returns. -/
def dtableStep (kind : DtableKind κ) (t : DtableTable κ τ) : DtableCall κ τ → DtableTable κ τ × Int
  | .add malloc ident q target => dtableAddBy kind malloc t ident q target
  | .del q => (dtableDelBy kind t q, 0)
  | .change q target => dtableChangeBy kind t q target
  | .delById ident => (dtableDelById t ident, 0)
  | .changeById ident target => dtableChangeById t ident target

/-- The table after a number of calls. -/
def dtableRun (kind : DtableKind κ) (t : DtableTable κ τ) : List (DtableCall κ τ) → DtableTable κ τ
  | [] => t
  | call :: calls => dtableRun kind (dtableStep kind t call).1 calls

/-! ## The two lists -/

/-- The lists hold the same entries, each once. -/
structure DtableTable.Sound (t : DtableTable κ τ) : Prop where
  perm : t.entries.Perm t.entries_lookup
  nums : t.entries.Pairwise fun a b => a.num ≠ b.num
  fresh : ∀ e ∈ t.entries, e.num < t.allocs

theorem DtableTable.Sound.nums_lookup (h : t.Sound) :
    t.entries_lookup.Pairwise fun a b => a.num ≠ b.num :=
  h.perm.pairwise h.nums Ne.symm

theorem DtableTable.Sound.num_inj (h : t.Sound) (ha : a ∈ t.entries) (hb : b ∈ t.entries)
    (hnum : a.num = b.num) : a = b :=
  List.inj_on_of_nodup_map (List.pairwise_map.mpr h.nums) ha hb hnum

theorem sound_empty (d : τ) : (⟨d, [], [], 0⟩ : DtableTable κ τ).Sound :=
  ⟨.refl _, .nil, fun _ he => (List.not_mem_nil he).elim⟩

@[simp] theorem DtableEntry.retarget_num (a : Nat) (v : τ) (e : DtableEntry κ τ) :
    (e.retarget a v).num = e.num := by
  unfold retarget
  split <;> rfl

@[simp] theorem DtableEntry.retarget_ident (a : Nat) (v : τ) (e : DtableEntry κ τ) :
    (e.retarget a v).ident = e.ident := by
  unfold retarget
  split <;> rfl

@[simp] theorem DtableEntry.retarget_keyinfo (a : Nat) (v : τ) (e : DtableEntry κ τ) :
    (e.retarget a v).keyinfo = e.keyinfo := by
  unfold retarget
  split <;> rfl

theorem DtableTable.Sound.del (h : t.Sound) (e : DtableEntry κ τ) : (dtableDel t e).Sound where
  perm := h.perm.filter _
  nums := h.nums.filter _
  fresh x hx := h.fresh x (List.mem_of_mem_filter hx)

theorem DtableTable.Sound.change (h : t.Sound) (e : DtableEntry κ τ) (v : τ) :
    (dtableChange t e v).Sound where
  perm := h.perm.map _
  nums := by
    refine List.pairwise_map.mpr (h.nums.imp ?_)
    intro a b hne
    rw [DtableEntry.retarget_num, DtableEntry.retarget_num]
    exact hne
  fresh x hx := by
    obtain ⟨y, hy, rfl⟩ := List.mem_map.mp hx
    rw [DtableEntry.retarget_num]
    exact h.fresh y hy

theorem addScan_mem (h : addScan ident want pentry l = some (ident', want', pentry')) :
    ∀ p ∈ pentry', p ∈ pentry ∨ p ∈ l := by
  induction l generalizing ident want pentry with
  | nil =>
    cases h
    exact fun p hp => .inl hp
  | cons e l ih =>
    have hcons : ∀ {x y : Int} {r}, (r = pentry ∨ r = some e) →
        addScan x y r l = some (ident', want', pentry') →
        ∀ p ∈ pentry', p ∈ pentry ∨ p ∈ e :: l := by
      intro x y r hr hscan p hp
      rcases ih hscan p hp with hin | hin
      · rcases hr with rfl | rfl
        · exact .inl hin
        · obtain rfl := Option.some.inj hin
          exact .inr List.mem_cons_self
      · exact .inr (List.mem_cons_of_mem _ hin)
    unfold addScan at h
    split at h
    · split at h
      · cases h
      · split at h
        · cases h
          exact fun p hp => .inl hp
        · exact hcons (.inr rfl) h
    · split at h
      · exact hcons (.inl rfl) h
      · split at h
        · cases h
          exact fun p hp => .inl hp
        · exact hcons (.inr rfl) h

theorem dtableAdd_some {plentry : Option (DtableEntry κ τ)} {ident id : Int} {v : τ} {q : κ}
    {t' : DtableTable κ τ} (h : dtableAdd malloc t plentry ident v q = some (t', id)) :
    malloc = true ∧ ∃ ident' want pentry, addScan ident baseIdent none t.entries = some (ident', want, pentry) ∧
      0 ≤ want ∧ id = (if ident' = 0 then want else ident') ∧
      t' = { t with
        entries := insertAfter DtableEntry.num pentry ⟨t.allocs, id, v, q⟩ t.entries
        entries_lookup := insertAfter DtableEntry.num plentry ⟨t.allocs, id, v, q⟩ t.entries_lookup
        allocs := t.allocs + 1 } := by
  unfold dtableAdd at h
  split at h
  · cases h
  · rename_i ident' want pentry hscan
    split at h
    · cases h
    · rename_i hwant
      split at h
      · cases h
      · rename_i hmalloc
        cases h
        exact ⟨by simpa using hmalloc, ident', want, pentry, hscan, Int.not_lt.mp hwant, rfl, rfl⟩

theorem DtableTable.Sound.add {plentry : Option (DtableEntry κ τ)} {ident id : Int} {v : τ} {q : κ}
    {t' : DtableTable κ τ} (h : t.Sound) (hpl : ∀ p ∈ plentry, p ∈ t.entries_lookup)
    (hadd : dtableAdd malloc t plentry ident v q = some (t', id)) :
    t'.Sound ∧ t'.entries.Perm (⟨t.allocs, id, v, q⟩ :: t.entries) := by
  obtain ⟨-, ident', want, pentry, hscan, -, -, rfl⟩ := dtableAdd_some hadd
  have hp : ∀ p ∈ pentry, p ∈ t.entries := by
    intro p hp
    rcases addScan_mem hscan p hp with hin | hin
    · cases hin
    · exact hin
  have hentries := insertAfter_perm DtableEntry.num ⟨t.allocs, id, v, q⟩ hp
  have hlookup := insertAfter_perm DtableEntry.num ⟨t.allocs, id, v, q⟩ hpl
  refine ⟨⟨hentries.trans ((h.perm.cons _).trans hlookup.symm), ?_, ?_⟩, hentries⟩
  · refine hentries.symm.pairwise (List.pairwise_cons.mpr ⟨?_, h.nums⟩) Ne.symm
    intro x hx
    exact Nat.ne_of_gt (h.fresh x hx)
  · intro x hx
    rcases List.mem_cons.mp (hentries.mem_iff.mp hx) with rfl | hx
    · exact Nat.lt_succ_self _
    · exact Nat.lt_succ_of_lt (h.fresh x hx)

/-! ## What a call does -/

theorem dtableAddBy_cases (kind : DtableKind κ) (malloc : Bool) (t : DtableTable κ τ) (ident : Int) (q : κ)
    (v : τ) :
    ((dtableFind kind t q).1.isSome ∧ dtableAddBy kind malloc t ident q v = (t, ealready)) ∨
    ((dtableFind kind t q).1 = none ∧
      dtableAdd malloc t (dtableFind kind t q).2 ident v q = none ∧
      dtableAddBy kind malloc t ident q v = (t, dtableEnomem)) ∨
    ∃ t' id, (dtableFind kind t q).1 = none ∧
      dtableAdd malloc t (dtableFind kind t q).2 ident v q = some (t', id) ∧
      dtableAddBy kind malloc t ident q v = (t', kind.addRet id) := by
  unfold dtableAddBy
  rcases hfind : dtableFind kind t q with ⟨_ | found, prev⟩
  · right
    cases hadd : dtableAdd malloc t prev ident v q with
    | none => exact .inl ⟨rfl, rfl, by dsimp only; rw [hadd]⟩
    | some r => exact .inr ⟨r.1, r.2, rfl, rfl, by dsimp only; rw [hadd]⟩
  · exact .inl ⟨rfl, rfl⟩

theorem dtableStep_cases (kind : DtableKind κ) (t : DtableTable κ τ) (call : DtableCall κ τ) :
    (dtableStep kind t call).1 = t ∨
    (∃ malloc ident q v t' id, call = .add malloc ident q v ∧ (dtableFind kind t q).1 = none ∧
      dtableAdd malloc t (dtableFind kind t q).2 ident v q = some (t', id) ∧
      (dtableStep kind t call).1 = t') ∨
    (∃ e, (dtableStep kind t call).1 = dtableDel t e) ∨
    ∃ e v, (dtableStep kind t call).1 = dtableChange t e v := by
  cases call with
  | add malloc ident q v =>
    rcases dtableAddBy_cases kind malloc t ident q v with ⟨-, heq⟩ | ⟨-, -, heq⟩ |
      ⟨t', id, hfind, hadd, heq⟩
    · exact .inl (congrArg Prod.fst heq)
    · exact .inl (congrArg Prod.fst heq)
    · exact .inr (.inl ⟨malloc, ident, q, v, t', id, rfl, hfind, hadd, congrArg Prod.fst heq⟩)
  | del q =>
    unfold dtableStep dtableDelBy
    dsimp only
    split
    · exact .inr (.inr (.inl ⟨_, rfl⟩))
    · exact .inl rfl
  | change q v =>
    unfold dtableStep dtableChangeBy
    dsimp only
    split
    · exact .inl rfl
    · exact .inr (.inr (.inr ⟨_, v, rfl⟩))
  | delById ident =>
    unfold dtableStep dtableDelById
    dsimp only
    split
    · exact .inr (.inr (.inl ⟨_, rfl⟩))
    · exact .inl rfl
  | changeById ident v =>
    unfold dtableStep dtableChangeById
    dsimp only
    split
    · exact .inl rfl
    · exact .inr (.inr (.inr ⟨_, v, rfl⟩))

theorem DtableTable.Sound.step (h : t.Sound) (kind : DtableKind κ) (call : DtableCall κ τ) :
    (dtableStep kind t call).1.Sound := by
  rcases dtableStep_cases kind t call with heq | ⟨malloc, ident, q, v, t', id, -, -, hadd, heq⟩ | ⟨e, heq⟩ |
    ⟨e, v, heq⟩
  · rw [heq]
    exact h
  · rw [heq]
    exact (h.add (search_snd_mem _) hadd).1
  · rw [heq]
    exact h.del e
  · rw [heq]
    exact h.change e v

/-! ## The list by identifier -/

/-- The list by identifier is in order, and the identifiers are positive numbers of type `int`. -/
structure DtableTable.InOrder (t : DtableTable κ τ) : Prop where
  sorted : t.entries.Pairwise fun a b => a.ident < b.ident
  range : ∀ e ∈ t.entries, 0 < e.ident ∧ e.ident < 2 ^ 31

theorem addScan_given (hident : ident ≠ 0)
    (h : addScan ident want pentry l = some (ident', want', pentry')) :
    ident' = ident ∧ want' = want ∧ ∃ before after, l = before ++ after ∧
      pentry' = before.getLast?.or pentry ∧ (∀ e ∈ before, e.ident < ident) ∧
      ∀ e ∈ after.head?, ident < e.ident := by
  induction l generalizing pentry with
  | nil =>
    cases h
    exact ⟨rfl, rfl, [], [], rfl, rfl, by simp, by simp⟩
  | cons e l ih =>
    unfold addScan at h
    rw [if_pos hident] at h
    split at h
    · cases h
    · rename_i hne
      split at h
      · rename_i hgt
        cases h
        exact ⟨rfl, rfl, [], e :: l, rfl, rfl, by simp, by simpa using hgt⟩
      · rename_i hle
        obtain ⟨hident', hwant, before, after, rfl, hp, hbefore, hafter⟩ := ih h
        refine ⟨hident', hwant, e :: before, after, rfl, ?_, ?_, hafter⟩
        · rw [hp]
          cases before with
          | nil => rfl
          | cons b before => simp [List.getLast?_cons]
        · intro x hx
          rcases List.mem_cons.mp hx with rfl | hx
          · omega
          · exact hbefore x hx

theorem toInt32_of_lt (h0 : 0 ≤ x) (h : x < 2 ^ 31) : toInt32 x = x := by
  unfold toInt32
  rw [BitVec.toInt_ofInt, Int.bmod_def]
  omega

theorem addScan_small {pentry : Option (DtableEntry κ τ)} {small l : List (DtableEntry κ τ)}
    (hsmall : ∀ e ∈ small, e.ident < baseIdent) :
    addScan 0 want pentry (small ++ l) = addScan 0 want pentry l := by
  induction small with
  | nil => rfl
  | cons e small ih =>
    rw [List.cons_append, addScan, if_neg (by decide), if_pos (hsmall e List.mem_cons_self)]
    exact ih fun x hx => hsmall x (List.mem_cons_of_mem _ hx)

/-- For an automatic identifier, the search ends behind the run of identifiers that are taken. If there is no
number left, `want_ident` overflows. -/
theorem addScan_run {pentry : Option (DtableEntry κ τ)} {l : List (DtableEntry κ τ)}
    (hbase : baseIdent ≤ want) (hwant : want < 2 ^ 31)
    (hsorted : l.Pairwise fun a b => a.ident < b.ident)
    (hrange : ∀ e ∈ l, want ≤ e.ident ∧ e.ident < 2 ^ 31) :
    ∃ ident' want' pentry', addScan 0 want pentry l = some (ident', want', pentry') ∧
      ((want' < 0 ∧ 2 ^ 31 - want ≤ l.length) ∨
        ∃ run after, l = run ++ after ∧ pentry' = run.getLast?.or pentry ∧ want ≤ want' ∧ want' < 2 ^ 31 ∧
          (run = [] → want' = want) ∧ (if ident' = 0 then want' else ident') = want' ∧
          (∀ e ∈ run, e.ident < want') ∧ ∀ e ∈ after.head?, want' < e.ident) := by
  have hpos : (0 : Int) < want := Int.lt_of_lt_of_le (by decide) hbase
  induction l generalizing want pentry with
  | nil =>
    exact ⟨0, want, pentry, rfl, .inr ⟨[], [], rfl, rfl, Int.le_refl _, hwant, fun _ => rfl, rfl,
      by simp, by simp⟩⟩
  | cons e l ih =>
    obtain ⟨hge, hlt⟩ := hrange e List.mem_cons_self
    rw [List.pairwise_cons] at hsorted
    rw [addScan, if_neg (by decide), if_neg (by omega)]
    by_cases heq : e.ident = want
    · rw [if_neg (not_not.mpr heq)]
      have hrange' : ∀ x ∈ l, want + 1 ≤ x.ident ∧ x.ident < 2 ^ 31 := by
        intro x hx
        have hgt := hsorted.1 x hx
        exact ⟨by omega, (hrange x (List.mem_cons_of_mem _ hx)).2⟩
      rcases Int.lt_or_le (want + 1) (2 ^ 31) with hnext | hlast
      · rw [toInt32_of_lt (by omega) hnext]
        have hrest : ∃ ident' want' pentry', addScan 0 (want + 1) (some e) l =
            some (ident', want', pentry') ∧ _ := ih (by omega) hnext hsorted.2 hrange' (by omega)
        obtain ⟨ident', want', pentry', hscan, hend⟩ := hrest
        refine ⟨ident', want', pentry', hscan, hend.imp ?_ ?_⟩
        · rintro ⟨hneg, hlen⟩
          exact ⟨hneg, by rw [List.length_cons]; omega⟩
        · rintro ⟨run, after, rfl, hp, hle, hlt', -, hident, hrun, hafter⟩
          refine ⟨e :: run, after, rfl, ?_, by omega, hlt', by simp, hident, ?_, hafter⟩
          · rw [hp]
            cases run with
            | nil => rfl
            | cons b run => simp [List.getLast?_cons]
          · intro x hx
            rcases List.mem_cons.mp hx with rfl | hx
            · omega
            · exact hrun x hx
      · -- the last identifier is taken: nothing can be behind it
        have hnil : l = [] := by
          refine List.eq_nil_iff_forall_not_mem.mpr fun x hx => ?_
          have hx' := hrange' x hx
          omega
        subst hnil
        obtain rfl : want = 2 ^ 31 - 1 := by omega
        exact ⟨_, _, _, rfl, .inl ⟨by decide, by simp⟩⟩
    · rw [if_pos heq]
      refine ⟨want, want, pentry, rfl, .inr ⟨[], e :: l, rfl, rfl, Int.le_refl _, hwant, fun _ => rfl, ?_,
        by simp, ?_⟩⟩
      · rw [if_neg (by omega)]
      · intro x hx
        obtain rfl := Option.some.inj hx
        omega

theorem addScan_auto (h : addScan 0 want pentry l = some (ident', want', pentry')) :
    (if ident' = 0 then want' else ident') = want' := by
  induction l generalizing want pentry with
  | nil =>
    cases h
    rfl
  | cons e l ih =>
    rw [addScan, if_neg (by decide)] at h
    split at h
    · exact ih h
    · split at h
      · cases h
        split
        · rfl
        · rfl
      · exact ih h

theorem addScan_want {ident' want' : Int} {pentry pentry' : Option (DtableEntry κ τ)}
    {l : List (DtableEntry κ τ)} (hrange : ∀ e ∈ l, e.ident < 2 ^ 31)
    (hwant : want < 0 ∨ baseIdent ≤ want)
    (h : addScan 0 want pentry l = some (ident', want', pentry')) : want' < 0 ∨ baseIdent ≤ want' := by
  induction l generalizing want pentry with
  | nil =>
    cases h
    exact hwant
  | cons e l ih =>
    have hrest : ∀ x ∈ l, x.ident < 2 ^ 31 := fun x hx => hrange x (List.mem_cons_of_mem _ hx)
    rw [addScan, if_neg (by decide)] at h
    split at h
    · exact ih hrest hwant h
    · split at h
      · cases h
        exact hwant
      · rename_i hge heq
        have hlt := hrange e List.mem_cons_self
        refine ih hrest ?_ h
        have hbase : (0 : Int) < baseIdent := by decide
        rcases Int.lt_or_le (want + 1) (2 ^ 31) with hnext | hlast
        · rw [toInt32_of_lt (by omega) hnext]
          omega
        · obtain rfl : want = 2 ^ 31 - 1 := by omega
          exact .inl (by decide)

theorem split_base {l : List (DtableEntry κ τ)} (h : l.Pairwise fun a b => a.ident < b.ident) :
    ∃ small big, l = small ++ big ∧ (∀ e ∈ small, e.ident < baseIdent) ∧ ∀ e ∈ big, baseIdent ≤ e.ident := by
  induction l with
  | nil => exact ⟨[], [], rfl, by simp, by simp⟩
  | cons e l ih =>
    rw [List.pairwise_cons] at h
    rcases Int.lt_or_le e.ident baseIdent with hlt | hge
    · obtain ⟨small, big, rfl, hsmall, hbig⟩ := ih h.2
      refine ⟨e :: small, big, rfl, ?_, hbig⟩
      intro x hx
      rcases List.mem_cons.mp hx with rfl | hx
      · exact hlt
      · exact hsmall x hx
    · refine ⟨[], e :: l, rfl, by simp, ?_⟩
      intro x hx
      rcases List.mem_cons.mp hx with rfl | hx
      · exact hge
      · exact hge.trans (h.1 x hx).le

/-- An automatic identifier finds its place: no entry has a smaller one than the base identifier, or the base
identifier is taken. -/
def DtableTable.BaseFirst (t : DtableTable κ τ) : Prop :=
  (∀ e ∈ t.entries, baseIdent ≤ e.ident) ∨ ∃ e ∈ t.entries, e.ident = baseIdent

theorem DtableTable.InOrder.place (h : t.InOrder) {ident' want : Int}
    {pentry : Option (DtableEntry κ τ)} (hident : 0 ≤ ident) (hlt : ident < 2 ^ 31)
    (hbase : ident = 0 → t.BaseFirst)
    (hscan : addScan ident baseIdent none t.entries = some (ident', want, pentry))
    (hwant : 0 ≤ want) :
    ∃ id before after, (if ident' = 0 then want else ident') = id ∧ 0 < id ∧ id < 2 ^ 31 ∧
      t.entries = before ++ after ∧ pentry = before.getLast? ∧ (∀ e ∈ before, e.ident < id) ∧
      ∀ e ∈ after, id < e.ident := by
  have hall : ∀ {before after : List (DtableEntry κ τ)} {id : Int}, t.entries = before ++ after →
      (∀ e ∈ after.head?, id < e.ident) → ∀ e ∈ after, id < e.ident := by
    intro before after id heq hafter e he
    have hsorted := h.sorted
    rw [heq] at hsorted
    have hsorted := (List.pairwise_append.mp hsorted).2.1
    cases after with
    | nil => cases he
    | cons a after =>
      have hfirst := hafter a rfl
      rcases List.mem_cons.mp he with rfl | he
      · exact hfirst
      · exact hfirst.trans (List.rel_of_pairwise_cons hsorted he)
  by_cases hzero : ident = 0
  · subst hzero
    obtain ⟨small, big, heq, hsmall, hbig⟩ := split_base h.sorted
    have hsorted := h.sorted
    rw [heq] at hsorted
    have hrange : ∀ e ∈ big, baseIdent ≤ e.ident ∧ e.ident < 2 ^ 31 := by
      intro e he
      exact ⟨hbig e he, (h.range e (by rw [heq]; exact List.mem_append_right _ he)).2⟩
    rw [heq, addScan_small hsmall] at hscan
    obtain ⟨_, _, _, hscan', hend⟩ := addScan_run (Int.le_refl baseIdent) (by decide)
      (List.pairwise_append.mp hsorted).2.1 hrange
    cases hscan.symm.trans hscan'
    rcases hend with ⟨hneg, -⟩ | ⟨run, after, rfl, hp, hle, hlt', hrun, hid, hbefore, hafter⟩
    · omega
    have heq' : t.entries = small ++ run ++ after := by rw [heq, List.append_assoc]
    have hlast : pentry = (small ++ run).getLast? := by
      rw [hp, Option.or_none]
      rcases List.eq_nil_or_concat run with rfl | ⟨front, x, rfl⟩
      · rw [List.append_nil]
        rcases hbase rfl with hno | ⟨e, he, heid⟩
        · -- no entry is below the base identifier
          have hnil : small = [] := by
            refine List.eq_nil_iff_forall_not_mem.mpr fun x hx => ?_
            have hx' := hno x (by rw [heq]; exact List.mem_append_left _ hx)
            have := hsmall x hx
            omega
          rw [hnil]
        · -- the base identifier is taken, so the run is not empty
          rw [heq, List.nil_append] at he
          have hw := hrun rfl
          rcases List.mem_append.mp he with he | he
          · have := hsmall e he
            omega
          · have := hall heq' hafter e he
            omega
      · rw [List.concat_eq_append, List.getLast?_concat, ← List.append_assoc, List.getLast?_concat]
    have hpos : (0 : Int) < want := Int.lt_of_lt_of_le (by decide) hle
    refine ⟨want, small ++ run, after, hid, hpos, hlt', heq', hlast, ?_, hall heq' hafter⟩
    intro e he
    rcases List.mem_append.mp he with he | he
    · have := hsmall e he
      omega
    · exact hbefore e he
  · obtain ⟨rfl, rfl, before, after, heq, hp, hbefore, hafter⟩ := addScan_given hzero hscan
    rw [Option.or_none] at hp
    exact ⟨ident', before, after, by rw [if_neg hzero], by omega, hlt, heq, hp, hbefore,
      hall heq hafter⟩

theorem DtableTable.InOrder.add {plentry : Option (DtableEntry κ τ)} {ident id : Int} {v : τ}
    {q : κ} {t' : DtableTable κ τ} (h : t.InOrder) (hsound : t.Sound) (hident : 0 ≤ ident)
    (hlt : ident < 2 ^ 31) (hbase : ident = 0 → t.BaseFirst)
    (hadd : dtableAdd malloc t plentry ident v q = some (t', id)) : t'.InOrder := by
  obtain ⟨-, ident', want, pentry, hscan, hwant, hid, rfl⟩ := dtableAdd_some hadd
  obtain ⟨id', before, after, hid', hpos, hlt', heq, rfl, hbefore, hafter⟩ :=
    h.place hident hlt hbase hscan hwant
  obtain rfl : id = id' := hid.trans hid'
  have hnums := hsound.nums
  have hsorted := h.sorted
  have hrange := h.range
  rw [heq] at hnums hsorted hrange
  obtain ⟨hb, ha, hba⟩ := List.pairwise_append.mp hsorted
  have hentries : insertAfter DtableEntry.num before.getLast? ⟨t.allocs, id, v, q⟩ t.entries =
      before ++ ⟨t.allocs, id, v, q⟩ :: after := by
    rw [heq]
    exact insertAfter_eq _ hnums
  constructor
  · dsimp only
    rw [hentries]
    refine List.pairwise_append.mpr ⟨hb, List.pairwise_cons.mpr ⟨hafter, ha⟩, ?_⟩
    intro a hmem b hb'
    rcases List.mem_cons.mp hb' with rfl | hb'
    · exact hbefore a hmem
    · exact hba a hmem b hb'
  · dsimp only
    rw [hentries]
    intro e he
    rcases List.mem_append.mp he with he | he
    · exact hrange e (List.mem_append_left _ he)
    · rcases List.mem_cons.mp he with rfl | he
      · exact ⟨hpos, hlt'⟩
      · exact hrange e (List.mem_append_right _ he)

theorem DtableTable.InOrder.del (h : t.InOrder) (e : DtableEntry κ τ) : (dtableDel t e).InOrder where
  sorted := h.sorted.filter _
  range x hx := h.range x (List.mem_of_mem_filter hx)

theorem DtableTable.InOrder.change (h : t.InOrder) (e : DtableEntry κ τ) (v : τ) :
    (dtableChange t e v).InOrder where
  sorted := by
    refine List.pairwise_map.mpr (h.sorted.imp ?_)
    intro a b hlt
    rw [DtableEntry.retarget_ident, DtableEntry.retarget_ident]
    exact hlt
  range x hx := by
    obtain ⟨y, hy, rfl⟩ := List.mem_map.mp hx
    rw [DtableEntry.retarget_ident]
    exact h.range y hy

/-- The identifier of a new entry is automatic or a positive `int`, and an automatic one finds its place. -/
def DtableCall.InPlace (t : DtableTable κ τ) : DtableCall κ τ → Prop
  | .add _ ident _ _ => 0 ≤ ident ∧ ident < 2 ^ 31 ∧ (ident = 0 → t.BaseFirst)
  | .del _ => True
  | .change _ _ => True
  | .delById _ => True
  | .changeById _ _ => True

theorem DtableTable.InOrder.step (h : t.InOrder) (hsound : t.Sound) {call : DtableCall κ τ}
    (hcall : call.InPlace t) (kind : DtableKind κ) : (dtableStep kind t call).1.InOrder := by
  rcases dtableStep_cases kind t call with heq | ⟨malloc, ident, q, v, t', id, rfl, -, hadd, heq⟩ | ⟨e, heq⟩ |
    ⟨e, v, heq⟩
  · rw [heq]
    exact h
  · rw [heq]
    exact h.add hsound hcall.1 hcall.2.1 hcall.2.2 hadd
  · rw [heq]
    exact h.del e
  · rw [heq]
    exact h.change e v

/-! ## By identifier -/

theorem toUInt32_of_range (h : 0 < x ∧ x < 2 ^ 31) : toUInt32 x = x.toNat := by
  unfold toUInt32
  omega

theorem DtableTable.InOrder.findEntById (h : t.InOrder) (he : e ∈ t.entries) :
    dtableFindEntById t (toUInt32 e.ident) = some e := by
  have hsorted : Sorted (fun e => toUInt32 e.ident) DtableEntry.num t.entries := by
    refine h.sorted.imp_of_mem ?_
    intro a b ha hb hlt
    have hra := h.range a ha
    have hrb := h.range b hb
    refine .inl ?_
    dsimp only
    rw [toUInt32_of_range hra, toUInt32_of_range hrb]
    omega
  unfold dtableFindEntById
  rw [hsorted.search_fst (r := toUInt32 e.ident) (by simp)]
  have hfound : (t.entries.find? fun x => !decide (toUInt32 e.ident < toUInt32 x.ident) &&
      decide (toUInt32 x.ident = toUInt32 e.ident)).isSome = true := by
    rw [List.find?_isSome]
    exact ⟨e, he, by simp⟩
  obtain ⟨x, hx⟩ := Option.isSome_iff_exists.mp hfound
  rw [hx]
  have hmem := List.mem_of_find?_eq_some hx
  have hsame := List.find?_some hx
  simp only [Bool.and_eq_true, decide_eq_true_eq] at hsame
  have hident : x.ident = e.ident := by
    have heq := hsame.2
    rw [toUInt32_of_range (h.range x hmem), toUInt32_of_range (h.range e he)] at heq
    have hrx := h.range x hmem
    have hre := h.range e he
    omega
  by_contra hne
  have hne : x ≠ e := fun hxe => hne (by rw [hxe])
  have hdistinct : t.entries.Pairwise fun a b => a.ident ≠ b.ident := h.sorted.imp fun hlt => hlt.ne
  exact hne (List.inj_on_of_nodup_map (List.pairwise_map.mpr hdistinct) hmem he hident)

/-- A call with the identifier of an entry is for exactly that entry. -/
structure DtableTable.IdsFind (t : DtableTable κ τ) : Prop where
  distinct : t.entries.Pairwise fun a b => a.ident ≠ b.ident
  changed : ∀ e ∈ t.entries, ∀ v, (dtableChangeById t e.ident v).2 = 0 ∧
    ∀ x, x ∈ (dtableChangeById t e.ident v).1.entries ↔
      x = { e with target := v } ∨ (x ∈ t.entries ∧ x ≠ e)
  deleted : ∀ e ∈ t.entries, ∀ x, x ∈ (dtableDelById t e.ident).entries ↔ x ∈ t.entries ∧ x ≠ e

/-- An add does nothing and returns an error, or it returns the identifier of the new entry, which is
positive, and is the one given if one is. -/
def DtableTable.AddsTell (kind : DtableKind κ) (t : DtableTable κ τ) : Prop :=
  ∀ malloc ident q v, 0 ≤ ident → ident < 2 ^ 31 →
    ((dtableAddBy kind malloc t ident q v).1 = t ∧ (dtableAddBy kind malloc t ident q v).2 < 0) ∨
    ∃ e, (dtableAddBy kind malloc t ident q v).1.entries.Perm (e :: t.entries) ∧ e.keyinfo = q ∧
      e.target = v ∧ 0 < e.ident ∧ (ident ≠ 0 → e.ident = ident) ∧
      (dtableAddBy kind malloc t ident q v).2 = e.ident

theorem DtableTable.InOrder.idsFind (h : t.InOrder) (hsound : t.Sound) : t.IdsFind where
  distinct := h.sorted.imp fun hlt => hlt.ne
  changed e he v := by
    unfold dtableChangeById
    rw [h.findEntById he]
    refine ⟨rfl, fun x => ?_⟩
    constructor
    · intro hx
      obtain ⟨y, hy, rfl⟩ := List.mem_map.mp hx
      unfold DtableEntry.retarget
      split
      · rename_i hnum
        rw [hsound.num_inj hy he hnum]
        exact .inl rfl
      · rename_i hnum
        exact .inr ⟨hy, fun heq => hnum (by rw [heq])⟩
    · rintro (rfl | ⟨hx, hne⟩)
      · exact List.mem_map.mpr ⟨e, he, if_pos rfl⟩
      · exact List.mem_map.mpr ⟨x, hx, if_neg fun hnum => hne (hsound.num_inj hx he hnum)⟩
  deleted e he x := by
    unfold dtableDelById
    rw [h.findEntById he]
    dsimp only [dtableDel]
    rw [List.mem_filter]
    refine and_congr_right fun hx => ?_
    rw [decide_eq_true_eq]
    exact not_congr ⟨hsound.num_inj hx he, fun heq => by rw [heq]⟩

theorem DtableTable.InOrder.addsTell (h : t.InOrder) (hsound : t.Sound)
    (hret : ∀ id, 0 < id → kind.addRet id = id) : t.AddsTell kind := by
  intro malloc ident q v hident hlt
  rcases dtableAddBy_cases kind malloc t ident q v with ⟨-, heq⟩ | ⟨-, -, heq⟩ | ⟨t', id, -, hadd, heq⟩
  · rw [heq]
    exact .inl ⟨rfl, (by decide : ealready < 0)⟩
  · rw [heq]
    exact .inl ⟨rfl, (by decide : dtableEnomem < 0)⟩
  · rw [heq]
    have hperm := (hsound.add (search_snd_mem _) hadd).2
    obtain ⟨-, ident', want, pentry, hscan, hwant, hid, -⟩ := dtableAdd_some hadd
    have hid' : 0 < id ∧ (ident ≠ 0 → id = ident) := by
      by_cases hzero : ident = 0
      · subst hzero
        have hbase := addScan_want (fun e he => (h.range e he).2) (.inr (Int.le_refl _)) hscan
        have hpos : 0 < baseIdent := by decide
        rw [hid, addScan_auto hscan]
        omega
      · obtain ⟨rfl, -⟩ := addScan_given hzero hscan
        rw [if_neg hzero] at hid
        exact ⟨by omega, fun _ => hid⟩
    exact .inr ⟨_, hperm, rfl, rfl, hid'.1, hid'.2, hret id hid'.1⟩

/-! ## Runs -/

/-- Every call of a run is in place when it is made. -/
def RunInPlace (kind : DtableKind κ) : DtableTable κ τ → List (DtableCall κ τ) → Prop
  | _, [] => True
  | t, call :: calls => call.InPlace t ∧ RunInPlace kind (dtableStep kind t call).1 calls

theorem DtableTable.InOrder.run (h : t.InOrder) (hsound : t.Sound)
    (hcalls : RunInPlace kind t calls) :
    (dtableRun kind t calls).InOrder ∧ (dtableRun kind t calls).Sound := by
  induction calls generalizing t with
  | nil => exact ⟨h, hsound⟩
  | cons call calls ih => exact ih (h.step hsound hcalls.1 kind) (hsound.step kind call) hcalls.2

/-- **Identifiers are what they are for, if automatic ones are in place and are returned.** For
every kind of table and every history of calls in which an automatic identifier is only asked for
when no entry has one below the base identifier or the base identifier is taken: identifiers are
distinct and a call with one is for its entry; and if the kind of table returns them, every add that
succeeds returns the positive identifier of the new entry. -/
theorem run_identsRight (kind : DtableKind κ) (d : τ) (calls : List (DtableCall κ τ))
    (hcalls : RunInPlace kind ⟨d, [], [], 0⟩ calls) :
    (dtableRun kind ⟨d, [], [], 0⟩ calls).IdsFind ∧
      ((∀ id, 0 < id → kind.addRet id = id) → (dtableRun kind ⟨d, [], [], 0⟩ calls).AddsTell kind) := by
  have hstart : (⟨d, [], [], 0⟩ : DtableTable κ τ).InOrder := ⟨.nil, fun _ he => (List.not_mem_nil he).elim⟩
  obtain ⟨horder, hsound⟩ := hstart.run (sound_empty d) hcalls
  exact ⟨horder.idsFind hsound, horder.addsTell hsound⟩

/-- An automatic identifier and then a given one. -/
def baseThenGiven : List (DtableCall (PlainEntryKey 1) Nat) :=
  [.add true 0 ⟨1, fun _ => 1⟩ 10, .add true 5 ⟨2, fun _ => 2⟩ 20]

theorem run_identsRight_plain :
    (dtableRun (plainKind 1) ⟨0, [], [], 0⟩ baseThenGiven).IdsFind ∧
      (dtableRun (plainKind 1) ⟨0, [], [], 0⟩ baseThenGiven).AddsTell (plainKind 1) := by
  have hplace : RunInPlace (plainKind 1) ⟨0, [], [], 0⟩ baseThenGiven :=
    ⟨⟨by decide, by decide, fun _ => .inl fun _ he => (List.not_mem_nil he).elim⟩,
      ⟨by decide, by decide, fun h => by cases h⟩, trivial⟩
  exact (run_identsRight (plainKind 1) 0 baseThenGiven hplace).imp_right fun h => h fun _ _ => rfl

/-- The entry with the identifier five is behind the one with the automatic identifier that was added after
it, and is not found. For a ternary and for a longest prefix match table zero is returned for a new entry. -/
theorem identifiers_not_right :
    (∃ e ∈ (dtableRun (plainKind 1) ⟨0, [], [], 0⟩ baseThenGiven.reverse).entries, e.ident = 5 ∧
      (dtableChangeById (dtableRun (plainKind 1) ⟨0, [], [], 0⟩ baseThenGiven.reverse) e.ident 30).2 =
        enoent) ∧
    (∃ t' e, dtableAddTern true (⟨0, [], [], 0⟩ : DtableTable (TernEntryKey 1) Nat) 0 (fun _ => 1)
      (fun _ => 255) 0 10 = (t', 0) ∧ t'.entries = [e] ∧ e.ident = baseIdent) ∧
    ∃ t' e, dtableAddLpm true (⟨0, [], [], 0⟩ : DtableTable (LpmEntryKey 1) Nat) 0 (fun _ => 1) 8 10 =
      (t', 0) ∧ t'.entries = [e] ∧ e.ident = baseIdent :=
  ⟨⟨_, List.mem_cons_of_mem _ List.mem_cons_self, rfl, rfl⟩, ⟨_, _, rfl, rfl, rfl⟩, ⟨_, _, rfl, rfl, rfl⟩⟩

end Xdp2
