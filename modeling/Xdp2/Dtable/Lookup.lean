import Xdp2.Dtable.Live

/-!
# What lookups return

A lookup in a ternary table returns the target of the matching live entry of the least position, one
in a longest prefix match table that of the greatest prefix length (`lookupTern_least`,
`lookupLpm_longest`). Bytes are counted with an `int`, so keys, or prefixes, have less than `2 ^ 31`
of them.
-/

namespace Xdp2

open Ranked

variable {τ : Type}

/-! ## Comparing keys -/

theorem compareEqual_iff : compareEqual a b = true ↔ a = b := by
  rw [compareEqual, decide_eq_true_eq, funext_iff]

theorem plainKind_lawful (n : Nat) : (plainKind n).Lawful fun k => (k.hash.toNat : Int) where
  past_iff q k := by simp [plainKind, UInt64.lt_iff_toNat_lt]
  symm h := by
    simp only [plainKind, Bool.and_eq_true, decide_eq_true_eq, compareEqual_iff] at h ⊢
    exact ⟨h.1.symm, h.2.symm⟩
  trans h h' := by
    simp only [plainKind, Bool.and_eq_true, decide_eq_true_eq, compareEqual_iff] at h h' ⊢
    exact ⟨h'.1.trans h.1, h'.2.trans h.2⟩

theorem ternKind_lawful (n : Nat) : (ternKind n).Lawful fun k => (k.pos : Int) where
  past_iff q k := by simp [ternKind]
  symm h := by
    simp only [ternKind, Bool.and_eq_true, compareEqual_iff] at h ⊢
    exact ⟨h.1.symm, h.2.symm⟩
  trans h h' := by
    simp only [ternKind, Bool.and_eq_true, compareEqual_iff] at h h' ⊢
    exact ⟨h'.1.trans h.1, h'.2.trans h.2⟩

theorem lpmKind_lawful (n : Nat) : (lpmKind n).Lawful fun k => -(k.prefix_len : Int) where
  past_iff q k := by simp [lpmKind]
  symm h := by
    simp only [lpmKind, Bool.and_eq_true, decide_eq_true_eq, compareEqual_iff] at h ⊢
    exact ⟨h.1.symm, h.2.symm⟩
  trans h h' := by
    simp only [lpmKind, Bool.and_eq_true, decide_eq_true_eq, compareEqual_iff] at h h' ⊢
    exact ⟨h'.1.trans h.1, h'.2.trans h.2⟩

/-- A key matches under a mask: it has the bits of the entry where the mask has ones. -/
def TernMatches (key : Key n) (k : TernEntryKey n) : Prop :=
  ∀ i, (k.key i ^^^ key i) &&& k.key_mask i = 0

instance (key : Key n) (k : TernEntryKey n) : Decidable (TernMatches key k) :=
  inferInstanceAs (Decidable (∀ _, _))

theorem compareTernFrom_eq (hn : n < 2 ^ 31) (hrest : n ≤ i + rest) :
    compareTernFrom a b mask rest i =
      some (decide (∀ j : Fin n, i ≤ j.val → (a j ^^^ b j) &&& mask j = 0)) := by
  induction rest generalizing i with
  | zero =>
    rw [compareTernFrom, decide_eq_true]
    intro j hj
    omega
  | succ rest ih =>
    rw [compareTernFrom]
    by_cases hi : i < n
    · rw [dif_pos hi]
      by_cases hbyte : (a ⟨i, hi⟩ ^^^ b ⟨i, hi⟩) &&& mask ⟨i, hi⟩ = 0
      · rw [if_neg (not_not.mpr hbyte), if_neg (by omega), ih (by omega)]
        refine congrArg some (decide_eq_decide.mpr ⟨fun h j hj => ?_, fun h j hj => h j (by omega)⟩)
        rcases Nat.lt_or_ge i j.val with hlt | hge
        · exact h j hlt
        · obtain rfl : j = ⟨i, hi⟩ := Fin.ext (by simp; omega)
          exact hbyte
      · rw [if_pos hbyte, decide_eq_false]
        exact fun h => hbyte (h ⟨i, hi⟩ (Nat.le_refl i))
    · rw [dif_neg hi, decide_eq_true]
      intro j hj
      omega

theorem compareTern_eq (hn : n < 2 ^ 31) (key : Key n) (k : TernEntryKey n) :
    compareTern k.key key k.key_mask = some (decide (TernMatches key k)) := by
  rw [compareTern, compareTernFrom_eq hn (by omega)]
  exact congrArg some (decide_eq_decide.mpr ⟨fun h i => h i (Nat.zero_le _), fun h i _ => h i⟩)

/-- A bit of a key, from the first byte and its highest bit on. -/
def keyBit (key : Key n) (i : Nat) : Bool :=
  if h : i / 8 < n then (key ⟨i / 8, h⟩).toBitVec.getMsbD (i % 8) else false

/-- A key has the prefix of an entry. -/
def PrefixMatches (key : Key n) (k : LpmEntryKey n) : Prop :=
  ∀ i < k.prefix_len, keyBit k.key i = keyBit key i

instance (key : Key n) (k : LpmEntryKey n) : Decidable (PrefixMatches key k) :=
  inferInstanceAs (Decidable (∀ i < _, _))

theorem byte_eq_iff (a b : UInt8) : a = b ↔ ∀ j < 8, a.toBitVec.getMsbD j = b.toBitVec.getMsbD j := by
  constructor
  · intro h j _
    rw [h]
  · intro h
    exact UInt8.eq_of_toBitVec_eq (BitVec.eq_of_getMsbD_eq h)

theorem masked_iff (a b : UInt8) (hpos : 0 < mod) (hlt : mod < 8) :
    (a ^^^ b) &&& (0xff <<< UInt8.ofNat (8 - mod)) = 0 ↔
      ∀ j < mod, a.toBitVec.getMsbD j = b.toBitVec.getMsbD j := by
  have hmask : ((0xff : UInt8) <<< UInt8.ofNat (8 - mod)).toBitVec = BitVec.allOnes 8 <<< (8 - mod) := by
    interval_cases mod <;> rfl
  have hones : ∀ j, (255#8).getMsbD j = decide (j < 8) := fun j => BitVec.getMsbD_allOnes
  rw [← UInt8.toBitVec_inj, UInt8.toBitVec_and, UInt8.toBitVec_xor, hmask]
  constructor
  · intro h j hj
    have hbit := congrArg (fun x => BitVec.getMsbD x j) h
    simp only [BitVec.getMsbD_and, BitVec.getMsbD_xor, BitVec.getMsbD_shiftLeft] at hbit
    by_contra hne
    simp [hones, hne] at hbit
    omega
  · intro h
    refine BitVec.eq_of_getMsbD_eq fun j hj => ?_
    simp only [BitVec.getMsbD_and, BitVec.getMsbD_xor, BitVec.getMsbD_shiftLeft]
    rcases Nat.lt_or_ge j mod with hjm | hjm
    · simp [h j hjm]
    · simp [hones]
      omega

theorem keyBits_iff (hsize : size ≤ n) :
    (∀ i : Fin n, i.val < size → a i = b i) ↔ ∀ i < 8 * size, keyBit a i = keyBit b i := by
  constructor
  · intro h i hi
    have hbyte : i / 8 < n := by omega
    rw [keyBit, keyBit, dif_pos hbyte, dif_pos hbyte, h ⟨i / 8, hbyte⟩ (by simp only; omega)]
  · intro h i hi
    rw [byte_eq_iff]
    intro j hj
    have hbit := h (8 * i.val + j) (by omega)
    have hdiv : (8 * i.val + j) / 8 = i.val := by omega
    have hmod : (8 * i.val + j) % 8 = j := by omega
    unfold keyBit at hbit
    simp only [hdiv, hmod, i.isLt, dif_pos, Fin.eta] at hbit
    exact hbit

theorem comparePrefix_eq {k : LpmEntryKey n} (hle : k.prefix_len ≤ 8 * n)
    (hlt : k.prefix_len < 2 ^ 34) :
    comparePrefix k.key key k.prefix_len = some (decide (PrefixMatches key k)) := by
  have hint : toInt32 ((k.prefix_len / 8 : Nat) : Int) = ((k.prefix_len / 8 : Nat) : Int) :=
    toInt32_of_lt (by omega) (by omega)
  have hdiv : k.prefix_len / 8 ≤ n := by omega
  have hsize : (((k.prefix_len / 8 : Nat) : Int) % 2 ^ 64).toNat = k.prefix_len / 8 := by omega
  unfold comparePrefix memcmpEq
  dsimp only
  rw [hint, hsize, if_neg (by omega), Option.bind_eq_bind, Option.bind_some]
  by_cases hbytes : ∀ i : Fin n, i.val < k.prefix_len / 8 → k.key i = key i
  · rw [decide_eq_true hbytes, if_neg (by decide)]
    have hbits := (keyBits_iff hdiv).mp hbytes
    by_cases hmod : k.prefix_len % 8 = 0
    · rw [if_pos hmod, decide_eq_true]
      exact fun i hi => hbits i (by omega)
    · have hbyte : k.prefix_len / 8 < n := by omega
      rw [if_neg hmod, dif_pos (by rw [Int.toNat_natCast]; exact hbyte)]
      simp only [Int.toNat_natCast]
      refine congrArg some ?_
      rw [Bool.eq_iff_iff, beq_iff_eq, decide_eq_true_eq,
        masked_iff _ _ (by omega) (Nat.mod_lt _ (by decide))]
      constructor
      · intro h i hi
        rcases Nat.lt_or_ge i (8 * (k.prefix_len / 8)) with hwhole | hpart
        · exact hbits i hwhole
        · have hi8 : i / 8 = k.prefix_len / 8 := by omega
          unfold keyBit
          simp only [hi8, hbyte, dif_pos]
          exact h (i % 8) (by omega)
      · intro h j hj
        have hbit := h (8 * (k.prefix_len / 8) + j) (by omega)
        have hdiv' : (8 * (k.prefix_len / 8) + j) / 8 = k.prefix_len / 8 := by omega
        have hmod' : (8 * (k.prefix_len / 8) + j) % 8 = j := by omega
        unfold keyBit at hbit
        simp only [hdiv', hmod', hbyte, dif_pos] at hbit
        exact hbit
  · rw [decide_eq_false hbytes, if_pos (by decide), decide_eq_false]
    exact fun h => hbytes ((keyBits_iff hdiv).mpr fun i hi => h i (by omega))

/-! ## Longest prefix match tables -/

/-- A longest prefix match table and its live entries after a number of calls, from an empty table. -/
def lpmRun (d : τ) (calls : List (KeyCall (LpmEntryKey n) τ)) :
    DtableTable (LpmEntryKey n) τ × List (LiveEntry (LpmEntryKey n) τ) :=
  liveRun (lpmKind n) (fun k => -(k.prefix_len : Int)) ⟨d, [], [], 0⟩ [] calls

/-- The live entry of the greatest prefix length whose prefix the key has, and the one added first of
those. -/
def LongestMatch (key : Key n) (live : List (LiveEntry (LpmEntryKey n) τ))
    (r : LiveEntry (LpmEntryKey n) τ) : Prop :=
  ∃ older younger, live = older ++ r :: younger ∧ PrefixMatches key r.keyinfo ∧
    (∀ r' ∈ older, PrefixMatches key r'.keyinfo → r'.keyinfo.prefix_len < r.keyinfo.prefix_len) ∧
    ∀ r' ∈ younger, PrefixMatches key r'.keyinfo → r'.keyinfo.prefix_len ≤ r.keyinfo.prefix_len

theorem dtableStep_default {κ : Type} (kind : DtableKind κ) (t : DtableTable κ τ) (call : DtableCall κ τ) :
    (dtableStep kind t call).1.default_target = t.default_target := by
  rcases dtableStep_cases kind t call with heq | ⟨malloc, ident, q, v, t', id, -, -, hadd, heq⟩ | ⟨e, heq⟩ |
    ⟨e, v, heq⟩
  · rw [heq]
  · obtain ⟨-, _, _, _, -, -, -, rfl⟩ := dtableAdd_some hadd
    rw [heq]
  · rw [heq]
    rfl
  · rw [heq]
    rfl

theorem liveRun_default {κ : Type} (kind : DtableKind κ) (rank : κ → Int) (t : DtableTable κ τ)
    (live : List (LiveEntry κ τ)) (calls : List (KeyCall κ τ)) :
    (liveRun kind rank t live calls).1.default_target = t.default_target := by
  induction calls generalizing t live with
  | nil => rfl
  | cons call calls ih => exact (ih _ _).trans (dtableStep_default kind t call.toCall)

/-- What a lookup by first match returns: the target of the best match among the live entries, or the default
target if no live entry matches. -/
theorem lookup_best {κ : Type} {kind : DtableKind κ} {rank : κ → Int} (hlaw : kind.Lawful rank)
    (hret : ∀ id, 0 ≤ id → 0 ≤ kind.addRet id) (d : τ) (calls : List (KeyCall κ τ)) (cmp : κ → Option Bool)
    (isMatch : κ → Prop) [DecidablePred isMatch] {t : DtableTable κ τ} {live : List (LiveEntry κ τ)}
    (hrun : (t, live) = liveRun kind rank ⟨d, [], [], 0⟩ [] calls)
    (hcmp : ∀ r ∈ live, cmp r.keyinfo = some (decide (isMatch r.keyinfo))) :
    (∃ r e, FirstBest isMatch rank live r ∧ firstMatch cmp t.entries_lookup = some (some e) ∧
      t.target (some e) = r.target) ∨
    ((∀ r ∈ live, ¬ isMatch r.keyinfo) ∧ firstMatch cmp t.entries_lookup = some none ∧
      t.target none = d) := by
  have hrefines := (refines_empty kind rank d).run hlaw hret calls
  have hdefault := liveRun_default kind rank ⟨d, [], [], 0⟩ [] calls
  rw [← hrun] at hrefines hdefault
  dsimp only at hrefines hdefault
  have heq : firstMatch cmp t.entries_lookup =
      some (t.entries_lookup.find? fun e => isMatch e.keyinfo) := by
    refine firstMatch_eq fun e he => ?_
    obtain ⟨es, hes, -, hlive⟩ := hrefines.live_eq
    refine hcmp e.live ?_
    rw [← hlive]
    exact List.mem_map_of_mem ((hes.trans hrefines.perm).mem_iff.mpr he)
  rw [heq]
  rcases hrefines.find?_best isMatch with ⟨e, r, hfind, rfl, hbest⟩ | ⟨hnone, hno⟩
  · exact .inl ⟨e.live, e, hbest, by rw [hfind], rfl⟩
  · exact .inr ⟨hno, by rw [hnone], hdefault⟩

theorem lookupLpm_cases (d : τ) (calls : List (KeyCall (LpmEntryKey n) τ))
    (hcalls : ∀ malloc q v, .add malloc q v ∈ calls → q.prefix_len ≤ 8 * n ∧ q.prefix_len / 8 < 2 ^ 31)
    (key : Key n) :
    (∃ r e, LongestMatch key (lpmRun d calls).2 r ∧ dtableLookupLpm (lpmRun d calls).1 key = some (some e) ∧
      (lpmRun d calls).1.target (some e) = r.target) ∨
    ((∀ r ∈ (lpmRun d calls).2, ¬ PrefixMatches key r.keyinfo) ∧
      dtableLookupLpm (lpmRun d calls).1 key = some none ∧ (lpmRun d calls).1.target none = d) := by
  have hlive : ∀ r ∈ (lpmRun d calls).2, r.keyinfo.prefix_len ≤ 8 * n ∧ r.keyinfo.prefix_len / 8 < 2 ^ 31 :=
    liveRun_forall hcalls fun _ hr => (List.not_mem_nil hr).elim
  have hbest := lookup_best (lpmKind_lawful n) (fun _ _ => Int.le_refl 0) d calls
    (fun k => comparePrefix k.key key k.prefix_len) (PrefixMatches key) rfl fun r hr => by
      obtain ⟨hle, hlt⟩ := hlive r hr
      exact comparePrefix_eq hle (by omega)
  refine hbest.imp_left ?_
  rintro ⟨r, e, ⟨older, younger, hsplit, hmatch, holder, hyounger⟩, hfound, htarget⟩
  refine ⟨r, e, ⟨older, younger, hsplit, hmatch, fun r' hr' hm => ?_, fun r' hr' hm => ?_⟩, hfound, htarget⟩
  · have hlt := holder r' hr' hm
    dsimp only at hlt
    omega
  · have hle := hyounger r' hr' hm
    dsimp only at hle
    omega

/-- **A lookup returns the target of the longest prefix**, the one added first of those of one
length. For every key size and every sequence of calls with prefix lengths up to that of a key,
prefixes of new entries being of less than `2 ^ 31` bytes, a lookup returns the target of the live
entry of the greatest prefix length whose prefix the key has, or the default target if there is
none. -/
theorem lookupLpm_longest (d : τ) (calls : List (KeyCall (LpmEntryKey n) τ))
    (hcalls : ∀ malloc q v, .add malloc q v ∈ calls → q.prefix_len ≤ 8 * n ∧ q.prefix_len / 8 < 2 ^ 31)
    (key : Key n) :
    (∃ r e, LongestMatch key (lpmRun d calls).2 r ∧ dtableLookupLpm (lpmRun d calls).1 key = some (some e) ∧
      (lpmRun d calls).1.target (some e) = r.target) ∨
    ((∀ r ∈ (lpmRun d calls).2, ¬ PrefixMatches key r.keyinfo) ∧
      dtableLookupLpm (lpmRun d calls).1 key = some none ∧ (lpmRun d calls).1.target none = d) :=
  lookupLpm_cases d calls hcalls key

/-- Two prefixes of one byte, of which the longer is added later. -/
def nestedPrefixes : List (KeyCall (LpmEntryKey 1) Nat) :=
  [.add true ⟨1, fun _ => 0x80⟩ 1, .add true ⟨4, fun _ => 0xa0⟩ 2, .change ⟨4, fun _ => 0xa0⟩ 3]

theorem lookupLpm_nestedPrefixes :
    ∃ r e, LongestMatch (fun _ => 0xab) (lpmRun 0 nestedPrefixes).2 r ∧
      dtableLookupLpm (lpmRun 0 nestedPrefixes).1 (fun _ => 0xab) = some (some e) ∧
      (lpmRun 0 nestedPrefixes).1.target (some e) = r.target := by
  have hcalls : ∀ malloc q v, .add malloc q v ∈ nestedPrefixes →
      q.prefix_len ≤ 8 * 1 ∧ q.prefix_len / 8 < 2 ^ 31 := by
    intro malloc q v hmem
    simp only [nestedPrefixes, List.mem_cons, KeyCall.add.injEq, List.not_mem_nil, or_false,
      reduceCtorEq] at hmem
    rcases hmem with ⟨-, rfl, -⟩ | ⟨-, rfl, -⟩ <;> decide
  rcases lookupLpm_longest 0 nestedPrefixes hcalls (fun _ => 0xab) with hfound | ⟨-, hfound, -⟩
  · exact hfound
  · exact absurd (congrArg (Option.map Option.isSome) hfound) (by decide)

theorem lookupLpm_uncompared (d v : τ) (key : Key (2 ^ 31)) :
    dtableLookupLpm (lpmRun d [.add true ⟨8 * 2 ^ 31, key⟩ v]).1 key = none := by
  have hcmp : comparePrefix key key (8 * 2 ^ 31) = none := by
    have hdiv : toInt32 ((8 * 2 ^ 31 / 8 : Nat) : Int) = -2 ^ 31 := by decide
    unfold comparePrefix
    dsimp only
    rw [hdiv, memcmpEq, if_pos (by decide), Option.bind_eq_bind, Option.bind_none]
  have hlookup : (lpmRun d [.add true ⟨8 * 2 ^ 31, key⟩ v]).1.entries_lookup =
      [⟨0, baseIdent, v, ⟨8 * 2 ^ 31, key⟩⟩] := rfl
  rw [dtableLookupLpm, hlookup, firstMatch]
  dsimp only
  rw [hcmp]

/-- A key of `2 ^ 31` bytes. -/
def longKey : Key (2 ^ 31) := fun _ => 1

/-- **A prefix of `2 ^ 31` bytes is not compared.** -/
theorem lookupLpm_longPrefix :
    dtableLookupLpm (lpmRun (0 : Nat) [.add true ⟨8 * 2 ^ 31, longKey⟩ 7]).1 longKey = none :=
  lookupLpm_uncompared 0 7 longKey

/-! ## Ternary tables -/

/-- A ternary table and its live entries after a number of calls, from an empty table. -/
def ternRun (d : τ) (calls : List (KeyCall (TernEntryKey n) τ)) :
    DtableTable (TernEntryKey n) τ × List (LiveEntry (TernEntryKey n) τ) :=
  liveRun (ternKind n) (fun k => (k.pos : Int)) ⟨d, [], [], 0⟩ [] calls

/-- The live entry of the least position that the key matches under its mask, and the one added first of
those. -/
def LeastMatch (key : Key n) (live : List (LiveEntry (TernEntryKey n) τ))
    (r : LiveEntry (TernEntryKey n) τ) : Prop :=
  ∃ older younger, live = older ++ r :: younger ∧ TernMatches key r.keyinfo ∧
    (∀ r' ∈ older, TernMatches key r'.keyinfo → r.keyinfo.pos < r'.keyinfo.pos) ∧
    ∀ r' ∈ younger, TernMatches key r'.keyinfo → r.keyinfo.pos ≤ r'.keyinfo.pos

/-- Three entries that all match one key, the last at the position of the first. -/
def samePosition : List (KeyCall (TernEntryKey 1) Nat) :=
  [.add true ⟨7, fun _ => 0xa0, fun _ => 0xf0⟩ 1, .add true ⟨9, fun _ => 0xab, fun _ => 0xff⟩ 2,
    .add true ⟨7, fun _ => 0, fun _ => 0⟩ 3]

theorem compareTernFrom_overflow {mask : Key n} (hmatch : ∀ j, (a j ^^^ b j) &&& mask j = 0)
    (hi : i < 2 ^ 31) (hrest : 2 ^ 31 ≤ i + rest) (hn : 2 ^ 31 ≤ n) :
    compareTernFrom a b mask rest i = none := by
  induction rest generalizing i with
  | zero => omega
  | succ rest ih =>
    rw [compareTernFrom, dif_pos (Nat.lt_of_lt_of_le hi hn), if_neg (not_not.mpr (hmatch _))]
    by_cases hlast : i + 1 = 2 ^ 31
    · rw [if_pos hlast]
    · rw [if_neg hlast]
      exact ih (by omega) (by omega)

theorem lookupTern_uncompared (d v : τ) (key : Key (2 ^ 31)) :
    dtableLookupTern (ternRun d [.add true ⟨0, key, fun _ => 0⟩ v]).1 key = none := by
  have hcmp : compareTern key key (fun _ => 0) = none :=
    compareTernFrom_overflow (fun j => UInt8.and_zero) (by decide) (by decide) (Nat.le_refl _)
  have hlookup : (ternRun d [.add true ⟨0, key, fun _ => 0⟩ v]).1.entries_lookup =
      [⟨0, baseIdent, v, ⟨0, key, fun _ => 0⟩⟩] := rfl
  rw [dtableLookupTern, hlookup, firstMatch]
  dsimp only
  rw [hcmp]

theorem DtableTable.Arranged.run {κ : Type} {kind : DtableKind κ} {rank : κ → Int} {t : DtableTable κ τ}
    (h : t.Arranged kind rank) (hlaw : kind.Lawful rank) (calls : List (DtableCall κ τ)) :
    (dtableRun kind t calls).Arranged kind rank := by
  induction calls generalizing t with
  | nil => exact h
  | cons call calls ih => exact ih (h.step hlaw call)

/-- **The lists of a table stay in step.** After every sequence of calls, by key and by identifier and
with allocations that may fail, both lists of a plain, a ternary or a longest-prefix table have the
same entries, each once. The list for lookups is in the order of its searches, and no key is in it
twice, for a ternary table at one position. -/
theorem dtableRun_arranged (n : Nat) (d : τ) :
    (∀ calls, (dtableRun (plainKind n) ⟨d, [], [], 0⟩ calls).Arranged (plainKind n) fun k => k.hash.toNat) ∧
      (∀ calls, (dtableRun (ternKind n) ⟨d, [], [], 0⟩ calls).Arranged (ternKind n) fun k => k.pos) ∧
      ∀ calls, (dtableRun (lpmKind n) ⟨d, [], [], 0⟩ calls).Arranged (lpmKind n) fun k => -k.prefix_len :=
  ⟨(arranged_empty _ _ d).run (plainKind_lawful n), (arranged_empty _ _ d).run (ternKind_lawful n),
    (arranged_empty _ _ d).run (lpmKind_lawful n)⟩

/-- A call by key, mask and position is for no entry but one that was added with exactly these. -/
structure TernExact (t : DtableTable (TernEntryKey n) τ) (q : TernEntryKey n) : Prop where
  del : ∀ e ∈ t.entries, e.keyinfo ≠ q → e ∈ (dtableDelTern t q.key q.key_mask q.pos).entries
  change : ∀ v, ∀ e ∈ t.entries, e.keyinfo ≠ q →
    e ∈ (dtableChangeTern t q.key q.key_mask q.pos v).1.entries
  absent : (∀ e ∈ t.entries, e.keyinfo ≠ q) → dtableDelTern t q.key q.key_mask q.pos = t ∧
    ∀ v, dtableChangeTern t q.key q.key_mask q.pos v = (t, enoent)
  already : ∀ malloc ident v, (dtableAddTern malloc t ident q.key q.key_mask q.pos v).2 = ealready →
    ∃ e ∈ t.entries, e.keyinfo = q

theorem ternKind_hit :
    (ternKind n).hit q k = true ↔ k.pos ≤ q.pos ∧ k.key = q.key ∧ k.key_mask = q.key_mask := by
  simp [DtableKind.hit, ternKind, compareEqual_iff]

/-- **A call is for its own entry just if no entry with its key and mask has a smaller position.** The search
compares keys and masks, and positions only to end, so it stops at the entry of the least position. -/
theorem ternExact_iff (d : τ) (calls : List (DtableCall (TernEntryKey n) τ)) (q : TernEntryKey n) :
    TernExact (dtableRun (ternKind n) ⟨d, [], [], 0⟩ calls) q ↔
      ∀ e ∈ (dtableRun (ternKind n) ⟨d, [], [], 0⟩ calls).entries,
        e.keyinfo.key = q.key → e.keyinfo.key_mask = q.key_mask → q.pos ≤ e.keyinfo.pos := by
  have hlaw := ternKind_lawful n
  have h := (arranged_empty (ternKind n) _ d).run hlaw calls
  generalize dtableRun (ternKind n) ⟨d, [], [], 0⟩ calls = t at h ⊢
  constructor
  · intro hexact e he hkey hmask
    by_contra hlt
    have hhit : (ternKind n).hit q e.keyinfo = true := ternKind_hit.mpr ⟨by omega, hkey, hmask⟩
    cases hfind : (dtableFind (ternKind n) t q).1 with
    | none => simp [(h.find_none hlaw).mp hfind e he] at hhit
    | some e' =>
      -- the entry of the least position is taken out, and is not at the position of the call
      obtain ⟨he', -, hfirst⟩ := h.find_some hlaw hfind
      have hpos : e'.keyinfo.pos ≤ e.keyinfo.pos := by
        rcases hfirst e he hhit with rfl | hrank
        · exact le_rfl
        · exact Int.ofNat_le.mp hrank.le
      have hmem := hexact.del e' he' fun heq => by
        rw [heq] at hpos
        exact hlt hpos
      rw [dtableDelTern, dtableDelBy, hfind] at hmem
      simp [dtableDel] at hmem
  · intro hleast
    cases hfind : (dtableFind (ternKind n) t q).1 with
    | none =>
      have hdel : dtableDelTern t q.key q.key_mask q.pos = t := by
        rw [dtableDelTern, dtableDelBy, hfind]
      have hchange : ∀ v, dtableChangeTern t q.key q.key_mask q.pos v = (t, enoent) := fun v => by
        rw [dtableChangeTern, dtableChangeBy, hfind]
      refine ⟨fun e he _ => by rwa [hdel], fun v e he _ => by rwa [hchange], fun _ => ⟨hdel, hchange⟩, ?_⟩
      intro malloc ident v hret
      rcases dtableAddBy_cases (ternKind n) malloc t ident q v with ⟨hsome, -⟩ | ⟨-, -, heq⟩ | ⟨_, _, -, -, heq⟩
      · simp [hfind] at hsome
      all_goals
        rw [dtableAddTern, heq] at hret
        simp [ealready, dtableEnomem, ternKind] at hret
    | some e =>
      obtain ⟨he, hhit, -⟩ := h.find_some hlaw hfind
      obtain ⟨hle, hkey, hmask⟩ := ternKind_hit.mp hhit
      have hq : e.keyinfo = q := by
        obtain ⟨pos, key, key_mask⟩ := q
        obtain ⟨num, ident, target, pos', key', key_mask'⟩ := e
        have hpos := hleast _ he hkey hmask
        simp_all only [TernEntryKey.mk.injEq, and_true]
        exact Nat.le_antisymm hle hpos
      have hne : ∀ x ∈ t.entries, x.keyinfo ≠ q → x.num ≠ e.num := fun x hx hxq hnum =>
        hxq (by rw [h.num_inj hx he hnum, hq])
      refine ⟨?_, ?_, fun hnone => (hnone e he hq).elim, fun _ _ _ _ => ⟨e, he, hq⟩⟩
      · intro x hx hxq
        rw [dtableDelTern, dtableDelBy, hfind]
        exact List.mem_filter.mpr ⟨hx, decide_eq_true (hne x hx hxq)⟩
      · intro v x hx hxq
        rw [dtableChangeTern, dtableChangeBy, hfind]
        refine List.mem_map.mpr ⟨x, hx, ?_⟩
        rw [DtableEntry.retarget, if_neg (hne x hx hxq)]

/-- A table whose only entry is at position 3. -/
def positionThree : DtableTable (TernEntryKey 1) Nat :=
  dtableRun (ternKind 1) ⟨0, [], [], 0⟩ [.add true 0 ⟨3, fun _ => 1, fun _ => 255⟩ 5]

/-- The entry at position 3 is deleted by a call for position 7. -/
theorem delTern_otherPosition : positionThree.entries.length = 1 ∧
    (dtableDelTern positionThree (fun _ => 1) (fun _ => 255) 7).entries.length = 0 := by
  decide

end Xdp2
