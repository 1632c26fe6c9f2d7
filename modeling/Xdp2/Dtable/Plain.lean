import Mathlib.Logic.Function.Basic
import Xdp2.Dtable.Lookup

/-!
# A plain table is a map

Whatever the hash function, a plain table is a map from keys to targets (`plain_map`). With
automatic identifiers only, all are from the base identifier on, and an add fails for no other
reason before they are all taken.
-/

namespace Xdp2

variable {n : Nat} {τ : Type} {siphash : Key n → UInt64} {t : DtableTable (PlainEntryKey n) τ}
  {m : Key n → Option τ} {key : Key n}

/-- A call on a plain table, with the identifier of a new entry chosen automatically: the table and what is
returned. -/
def plainStep (siphash : Key n → UInt64) (t : DtableTable (PlainEntryKey n) τ) :
    KeyCall (Key n) τ → DtableTable (PlainEntryKey n) τ × Int
  | .add malloc key target => dtableAddPlain siphash malloc t 0 key target
  | .del key => (dtableDelPlain siphash t key, 0)
  | .change key target => dtableChangePlain siphash t key target

/-- What a call that returns `code` does to a map. -/
def mapStep (m : Key n → Option τ) (code : Int) : KeyCall (Key n) τ → Key n → Option τ
  | .add _ key target => if code < 0 then m else Function.update m key (some target)
  | .del key => Function.update m key none
  | .change key target => if code < 0 then m else Function.update m key (some target)

/-- A plain table and the map after a number of calls. -/
def plainRun (siphash : Key n → UInt64) (t : DtableTable (PlainEntryKey n) τ) (m : Key n → Option τ) :
    List (KeyCall (Key n) τ) → DtableTable (PlainEntryKey n) τ × (Key n → Option τ)
  | [] => (t, m)
  | call :: calls =>
    plainRun siphash (plainStep siphash t call).1 (mapStep m (plainStep siphash t call).2 call) calls

/-- The same call, on what is kept with the key. -/
def KeyCall.plain (siphash : Key n → UInt64) : KeyCall (Key n) τ → DtableCall (PlainEntryKey n) τ
  | .add malloc key target => .add malloc 0 (plainKey siphash key) target
  | .del key => .del (plainKey siphash key)
  | .change key target => .change (plainKey siphash key) target

theorem plainStep_eq (siphash : Key n → UInt64) (t : DtableTable (PlainEntryKey n) τ)
    (call : KeyCall (Key n) τ) : plainStep siphash t call = dtableStep (plainKind n) t (call.plain siphash) := by
  cases call with
  | add malloc key target => rfl
  | del key => rfl
  | change key target => rfl

theorem hit_plainKey (k : PlainEntryKey n) :
    (plainKind n).hit (plainKey siphash key) k = true ↔ k = plainKey siphash key := by
  obtain ⟨hash, k⟩ := k
  simp only [DtableKind.hit, plainKind, plainKey, Bool.and_eq_true, Bool.not_eq_true', decide_eq_false_iff_not,
    decide_eq_true_eq, compareEqual_iff, PlainEntryKey.mk.injEq]
  constructor
  · exact fun h => h.2
  · intro h
    exact ⟨by rw [h.1]; exact UInt64.lt_irrefl (siphash key), h⟩

theorem plainKey_inj (h : plainKey siphash key = plainKey siphash key') : key = key' :=
  congrArg PlainEntryKey.key h

/-- The table has the entries of the map, and only identifiers chosen automatically. -/
structure PlainMap (siphash : Key n → UInt64) (t : DtableTable (PlainEntryKey n) τ) (m : Key n → Option τ) :
    Prop extends t.Arranged (plainKind n) (fun k => (k.hash.toNat : Int)) where
  inOrder : t.InOrder
  base : ∀ e ∈ t.entries, baseIdent ≤ e.ident
  map : ∀ key v, m key = some v ↔ ∃ e ∈ t.entries, e.keyinfo = plainKey siphash key ∧ e.target = v

theorem PlainMap.find (h : PlainMap siphash t m) (key : Key n) :
    (∃ e ∈ t.entries, (dtableFind (plainKind n) t (plainKey siphash key)).1 = some e ∧
      e.keyinfo = plainKey siphash key ∧ m key = some e.target) ∨
    ((dtableFind (plainKind n) t (plainKey siphash key)).1 = none ∧ m key = none) := by
  cases hfind : (dtableFind (plainKind n) t (plainKey siphash key)).1 with
  | none =>
    right
    refine ⟨rfl, Option.eq_none_iff_forall_ne_some.mpr fun v hv => ?_⟩
    obtain ⟨e, he, hkey, -⟩ := (h.map key v).mp hv
    have hmiss := (h.toArranged.find_none (plainKind_lawful n)).mp hfind e he
    rw [(hit_plainKey e.keyinfo).mpr hkey] at hmiss
    cases hmiss
  | some e =>
    left
    obtain ⟨he, hhit, -⟩ := h.toArranged.find_some (plainKind_lawful n) hfind
    have hkey := (hit_plainKey e.keyinfo).mp hhit
    exact ⟨e, he, rfl, hkey, (h.map key e.target).mpr ⟨e, he, hkey, rfl⟩⟩

theorem PlainMap.one (h : PlainMap siphash t m) (ha : a ∈ t.entries) (hb : b ∈ t.entries)
    (heq : a.keyinfo = b.keyinfo) : a = b := by
  refine h.apart a ha b hb ?_ (by rw [heq])
  simp [plainKind, heq, compareEqual_iff]

theorem PlainMap.base_step (h : PlainMap siphash t m) (call : KeyCall (Key n) τ) :
    ∀ e ∈ (plainStep siphash t call).1.entries, baseIdent ≤ e.ident := by
  rw [plainStep_eq]
  rcases dtableStep_cases (plainKind n) t (call.plain siphash) with heq |
    ⟨malloc, ident, q, v, t', id, hcall, -, hadd, heq⟩ | ⟨e, heq⟩ | ⟨e, v, heq⟩
  · rw [heq]
    exact h.base
  · have hident : ident = 0 := by
      cases call with
      | add _ _ _ =>
        cases hcall
        rfl
      | del _ => cases hcall
      | change _ _ => cases hcall
    subst hident
    obtain ⟨-, hperm⟩ := h.toSound.add (Ranked.search_snd_mem _) hadd
    obtain ⟨-, ident', want, pentry, hscan, hwant, hid, -⟩ := dtableAdd_some hadd
    rw [addScan_auto hscan] at hid
    rw [heq]
    intro e he
    rcases List.mem_cons.mp (hperm.mem_iff.mp he) with rfl | he
    · rcases addScan_want (fun e he => (h.inOrder.range e he).2) (.inr (Int.le_refl _)) hscan with hneg | hle
      · omega
      · exact hid ▸ hle
    · exact h.base e he
  · rw [heq]
    exact fun x hx => h.base x (List.mem_of_mem_filter hx)
  · rw [heq]
    intro x hx
    obtain ⟨y, hy, rfl⟩ := List.mem_map.mp hx
    rw [DtableEntry.retarget_ident]
    exact h.base y hy

theorem PlainMap.inPlace (h : PlainMap siphash t m) (call : KeyCall (Key n) τ) :
    (call.plain siphash).InPlace t := by
  cases call with
  | add malloc key v => exact ⟨Int.le_refl 0, by decide, fun _ => .inl h.base⟩
  | del key => trivial
  | change key v => trivial

theorem PlainMap.map_step (h : PlainMap siphash t m) (call : KeyCall (Key n) τ) (key : Key n) (v : τ) :
    mapStep m (plainStep siphash t call).2 call key = some v ↔
      ∃ e ∈ (plainStep siphash t call).1.entries, e.keyinfo = plainKey siphash key ∧ e.target = v := by
  cases call with
  | add malloc key' v' =>
    dsimp only [plainStep, mapStep, dtableAddPlain]
    rcases dtableAddBy_cases (plainKind n) malloc t 0 (plainKey siphash key') v' with ⟨-, heq⟩ |
      ⟨-, -, heq⟩ | ⟨t', id, hfind, hadd, heq⟩
    · rw [heq, if_pos (by decide : ealready < 0)]
      exact h.map key v
    · rw [heq, if_pos (by decide : dtableEnomem < 0)]
      exact h.map key v
    · have hid : ¬ (id : Int) < 0 := by
        obtain ⟨-, ident', want, pentry, hscan, hwant, hid, -⟩ := dtableAdd_some hadd
        rw [addScan_auto hscan] at hid
        omega
      obtain ⟨-, hperm⟩ := h.toSound.add (Ranked.search_snd_mem _) hadd
      have habsent : m key' = none := by
        rcases h.find key' with ⟨e, -, hfound, -⟩ | ⟨-, hnone⟩
        · cases hfind.symm.trans hfound
        · exact hnone
      rw [heq, if_neg (by exact hid)]
      simp only [hperm.mem_iff, List.mem_cons, exists_eq_or_imp]
      rcases eq_or_ne key key' with rfl | hne
      · rw [Function.update_self, ← h.map, habsent]
        simp
      · have hkey : plainKey siphash key' ≠ plainKey siphash key := fun heq => hne (plainKey_inj heq).symm
        rw [Function.update_of_ne hne, h.map]
        simp [hkey]
  | del key' =>
    dsimp only [plainStep, mapStep, dtableDelPlain, dtableDelBy]
    rcases h.find key' with ⟨e, he, hfound, hkey, -⟩ | ⟨hnone, habsent⟩
    · rw [hfound]
      rcases eq_or_ne key key' with rfl | hne
      · rw [Function.update_self]
        constructor
        · intro hno
          cases hno
        · rintro ⟨x, hx, hxkey, -⟩
          have hnum := (List.mem_filter.mp hx).2
          rw [h.one (List.mem_of_mem_filter hx) he (hxkey.trans hkey.symm)] at hnum
          simp at hnum
      · rw [Function.update_of_ne hne, h.map]
        refine exists_congr fun x => ?_
        dsimp only [dtableDel]
        rw [List.mem_filter, and_assoc]
        refine and_congr_right fun hx => (and_iff_right_of_imp fun hkv => ?_).symm
        have hnum : x.num ≠ e.num := by
          intro hnum
          rw [h.num_inj hx he hnum] at hkv
          exact hne (plainKey_inj (hkv.1.symm.trans hkey))
        exact decide_eq_true hnum
    · rw [hnone, ← habsent, Function.update_eq_self]
      exact h.map key v
  | change key' v' =>
    dsimp only [plainStep, mapStep, dtableChangePlain, dtableChangeBy]
    rcases h.find key' with ⟨e, he, hfound, hkey, -⟩ | ⟨hnone, habsent⟩
    · rw [hfound]
      dsimp only
      rw [if_neg (by decide), dtableChange]
      simp only [List.mem_map, exists_exists_and_eq_and, DtableEntry.retarget_keyinfo]
      rcases eq_or_ne key key' with rfl | hne
      · rw [Function.update_self]
        constructor
        · intro hv
          exact ⟨e, he, hkey, by simpa [DtableEntry.retarget] using hv⟩
        · rintro ⟨x, hx, hxkey, hv⟩
          rw [h.one hx he (hxkey.trans hkey.symm)] at hv
          simpa [DtableEntry.retarget] using hv
      · rw [Function.update_of_ne hne, h.map]
        refine exists_congr fun x => and_congr_right fun hx => and_congr_right fun hxkey => ?_
        have hnum : x.num ≠ e.num := by
          intro hnum
          rw [h.num_inj hx he hnum] at hxkey
          exact hne (plainKey_inj (hxkey.symm.trans hkey))
        rw [DtableEntry.retarget, if_neg hnum]
    · rw [hnone]
      exact h.map key v

theorem PlainMap.step (h : PlainMap siphash t m) (call : KeyCall (Key n) τ) :
    PlainMap siphash (plainStep siphash t call).1 (mapStep m (plainStep siphash t call).2 call) where
  toArranged := by
    rw [plainStep_eq]
    exact h.toArranged.step (plainKind_lawful n) _
  inOrder := by
    rw [plainStep_eq]
    exact h.inOrder.step h.toSound (h.inPlace call) _
  base := h.base_step call
  map := h.map_step call

theorem PlainMap.run (h : PlainMap siphash t m) (calls : List (KeyCall (Key n) τ)) :
    PlainMap siphash (plainRun siphash t m calls).1 (plainRun siphash t m calls).2 := by
  induction calls generalizing t m with
  | nil => exact h
  | cons call calls ih => exact ih (h.step call)

theorem plainMap_empty (siphash : Key n → UInt64) (d : τ) : PlainMap siphash ⟨d, [], [], 0⟩ fun _ => none where
  toArranged := arranged_empty _ _ d
  inOrder := ⟨.nil, fun _ he => (List.not_mem_nil he).elim⟩
  base _ he := (List.not_mem_nil he).elim
  map key v := by simp

theorem PlainMap.scan (h : PlainMap siphash t m) :
    ∃ ident want pentry, addScan 0 baseIdent none t.entries = some (ident, want, pentry) ∧
      (baseIdent ≤ want ∨ 2 ^ 31 - baseIdent ≤ (t.entries.length : Int)) := by
  have hrange : ∀ e ∈ t.entries, baseIdent ≤ e.ident ∧ e.ident < 2 ^ 31 := fun e he =>
    ⟨h.base e he, (h.inOrder.range e he).2⟩
  obtain ⟨ident, want, pentry, hscan, ⟨-, hfull⟩ | ⟨-, -, -, -, hwant, -⟩⟩ :=
    addScan_run (Int.le_refl baseIdent) (by decide) h.inOrder.sorted hrange
  · exact ⟨ident, want, pentry, hscan, .inr hfull⟩
  · exact ⟨ident, want, pentry, hscan, .inl hwant⟩

theorem PlainMap.add_pos (h : PlainMap siphash t m) (habsent : m key = none)
    (hlen : (t.entries.length : Int) < 2 ^ 31 - baseIdent) (v : τ) :
    0 < (dtableAddPlain siphash true t 0 key v).2 := by
  have hbase : (0 : Int) < baseIdent := by decide
  obtain ⟨ident', want, pentry, hscan, hend⟩ := h.scan
  have hwant : baseIdent ≤ want := hend.resolve_right (by omega)
  rcases dtableAddBy_cases (plainKind n) true t 0 (plainKey siphash key) v with ⟨hfound, -⟩ |
    ⟨-, hadd, -⟩ | ⟨t', id, -, hadd, heq⟩
  · rcases h.find key with ⟨e, -, -, -, hpresent⟩ | ⟨hnone, -⟩
    · cases habsent.symm.trans hpresent
    · rw [hnone] at hfound
      cases hfound
  · unfold dtableAdd at hadd
    rw [hscan] at hadd
    dsimp only at hadd
    rw [if_neg (by omega), if_neg (by decide)] at hadd
    cases hadd
  · obtain ⟨-, ident'', want', pentry', hscan', -, hid, -⟩ := dtableAdd_some hadd
    rw [addScan_auto hscan'] at hid
    cases hscan.symm.trans hscan'
    rw [dtableAddPlain, heq]
    dsimp only [plainKind]
    omega

theorem plainRun_default (siphash : Key n → UInt64) (t : DtableTable (PlainEntryKey n) τ) (m : Key n → Option τ)
    (calls : List (KeyCall (Key n) τ)) : (plainRun siphash t m calls).1.default_target = t.default_target := by
  induction calls generalizing t m with
  | nil => rfl
  | cons call calls ih =>
    refine (ih _ _).trans ?_
    rw [plainStep_eq]
    exact dtableStep_default _ t _

/-- What the calls for a key return, for a table that has the entries of a map. An add of an absent key, with
memory for the entry, succeeds as long as there are fewer entries than identifiers. -/
structure ActsAsMap (siphash : Key n → UInt64) (d : τ) (t : DtableTable (PlainEntryKey n) τ)
    (m : Key n → Option τ) : Prop where
  lookup : ∀ key, t.target (dtableLookupPlain siphash t key) = (m key).getD d
  found : ∀ key, (dtableLookupPlain siphash t key).isSome ↔ (m key).isSome
  add_already : ∀ malloc key v, (dtableAddPlain siphash malloc t 0 key v).2 = ealready ↔ (m key).isSome
  add_unchanged : ∀ malloc key v, (m key).isSome → (dtableAddPlain siphash malloc t 0 key v).1 = t
  add_absent : ∀ key v, m key = none → (t.entries.length : Int) < 2 ^ 31 - baseIdent →
    0 < (dtableAddPlain siphash true t 0 key v).2
  change_absent : ∀ key v, (dtableChangePlain siphash t key v).2 = enoent ↔ m key = none

theorem PlainMap.found_iff (h : PlainMap siphash t m) (key : Key n) :
    (dtableFind (plainKind n) t (plainKey siphash key)).1.isSome ↔ (m key).isSome := by
  rcases h.find key with ⟨e, -, hfound, -, hpresent⟩ | ⟨hnone, habsent⟩
  · rw [hfound, hpresent, Option.isSome_some, Option.isSome_some]
  · rw [hnone, habsent, Option.isSome_none, Option.isSome_none]

theorem PlainMap.add_iff (h : PlainMap siphash t m) (malloc : Bool) (key : Key n) (v : τ) :
    ((dtableAddPlain siphash malloc t 0 key v).2 = ealready ↔ (m key).isSome) ∧
      ((m key).isSome → (dtableAddPlain siphash malloc t 0 key v).1 = t) := by
  rw [← h.found_iff key, dtableAddPlain]
  rcases dtableAddBy_cases (plainKind n) malloc t 0 (plainKey siphash key) v with ⟨hfound, heq⟩ |
    ⟨hnone, -, heq⟩ | ⟨t', id, hnone, hadd, heq⟩
  · rw [heq]
    exact ⟨iff_of_true rfl hfound, fun _ => rfl⟩
  · rw [heq, hnone]
    exact ⟨iff_of_false (by decide : dtableEnomem ≠ ealready) (fun hno => by cases hno), fun _ => rfl⟩
  · obtain ⟨-, ident', want, pentry, hscan, hwant, hid, -⟩ := dtableAdd_some hadd
    rw [addScan_auto hscan] at hid
    have hne : id ≠ ealready := by
      have hneg : ealready < 0 := by decide
      omega
    rw [heq, hnone]
    exact ⟨iff_of_false hne (fun hno => by cases hno), fun hno => by cases hno⟩

theorem PlainMap.actsAsMap (h : PlainMap siphash t m) (hdefault : t.default_target = d) :
    ActsAsMap siphash d t m where
  lookup key := by
    change t.target (dtableFind (plainKind n) t (plainKey siphash key)).1 = _
    rcases h.find key with ⟨e, -, hfound, -, hpresent⟩ | ⟨hnone, habsent⟩
    · rw [hfound, hpresent]
      rfl
    · rw [hnone, habsent]
      exact hdefault
  found key := h.found_iff key
  add_already malloc key v := (h.add_iff malloc key v).1
  add_unchanged malloc key v := (h.add_iff malloc key v).2
  add_absent _ v habsent hlen := h.add_pos habsent hlen v
  change_absent key v := by
    rw [dtableChangePlain, dtableChangeBy]
    rcases h.find key with ⟨e, -, hfound, -, hpresent⟩ | ⟨hnone, habsent⟩
    · rw [hfound, hpresent]
      exact iff_of_false (by decide : (0 : Int) ≠ enoent) (fun hno => by cases hno)
    · rw [hnone, habsent]
      exact iff_of_true rfl rfl

end Xdp2
