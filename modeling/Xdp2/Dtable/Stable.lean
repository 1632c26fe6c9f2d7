import Xdp2.Dtable.Lookup

/-!
# Static longest prefix match tables

The lookup that `__XDP2_STABLE_MAKE_LOOKUP_LPM_FUNC_BY_KEY` makes, and for actions
`__XDP2_SFTABLE_MAKE_LOOKUP_LPM_FUNC_BY_KEY`: one scan of the entries with the greatest prefix length
so far. That starts at zero and only longer prefixes are looked at, so an entry with a prefix of no
bits, which is a default route, is never selected (`stableLookupLpm_iff`).
-/

namespace Xdp2

variable {τ : Type}

/-- An entry of a static table, whose `prefix_len` is an `unsigned int`. -/
structure StableEntry (n : Nat) (τ : Type) where
  prefix_len : BitVec 32
  key : Key n
  target : τ

/-- The loop of a lookup. `longest_match` is an `int`, and is compared as an `unsigned int`. -/
def lpmScan (key : Key n) (longest_match : BitVec 32) (lm_def : Option (StableEntry n τ)) :
    List (StableEntry n τ) → Option (Option (StableEntry n τ))
  | [] => some lm_def
  | e :: entries =>
    if longest_match ≥ e.prefix_len then lpmScan key longest_match lm_def entries
    else
      match comparePrefix e.key key e.prefix_len.toNat with
      | none => none
      | some true => lpmScan key e.prefix_len (some e) entries
      | some false => lpmScan key longest_match lm_def entries

/-- The entries that are looked at: `num_els` is an `int`. -/
def scanned (entries : List (StableEntry n τ)) : List (StableEntry n τ) :=
  entries.take (toInt32 entries.length).toNat

/-- `_lookup_by_key`: the entry whose target is returned, or whose action is done. -/
def stableLookupLpm (entries : List (StableEntry n τ)) (key : Key n) : Option (Option (StableEntry n τ)) :=
  lpmScan key 0 none (scanned entries)

/-- The entry, as one of a dynamic table. -/
def StableEntry.live (e : StableEntry n τ) : LiveEntry (LpmEntryKey n) τ :=
  ⟨⟨e.prefix_len.toNat, e.key⟩, e.target⟩

/-! ## The scan -/

theorem lpmScan_spec (key : Key n) (longest_match : BitVec 32) (lm_def : Option (StableEntry n τ))
    (hle : ∀ e ∈ entries, e.prefix_len.toNat ≤ 8 * n) :
    (lpmScan key longest_match lm_def entries = some lm_def ∧
      ∀ e ∈ entries, PrefixMatches key e.live.keyinfo → e.prefix_len.toNat ≤ longest_match.toNat) ∨
    ∃ e, lpmScan key longest_match lm_def entries = some (some e) ∧
      longest_match.toNat < e.prefix_len.toNat ∧ LongestMatch key (entries.map StableEntry.live) e.live := by
  induction entries generalizing longest_match lm_def with
  | nil => exact .inl ⟨rfl, by simp⟩
  | cons e entries ih =>
    simp only [List.forall_mem_cons] at hle ⊢
    -- a selected entry behind one that is shorter, or does not match
    have hcons : ∀ {l : BitVec 32} {lm}, (PrefixMatches key e.live.keyinfo → e.prefix_len.toNat ≤ l.toNat) →
        (∃ x, lpmScan key l lm entries = some (some x) ∧ l.toNat < x.prefix_len.toNat ∧
          LongestMatch key (entries.map StableEntry.live) x.live) →
        ∃ x, lpmScan key l lm entries = some (some x) ∧ l.toNat < x.prefix_len.toNat ∧
          LongestMatch key ((e :: entries).map StableEntry.live) x.live := by
      rintro l lm hshort ⟨x, hx, hlt, older, younger, heq, hmatch, holder, hyounger⟩
      refine ⟨x, hx, hlt, e.live :: older, younger, by simp [heq], hmatch, ?_, hyounger⟩
      rintro r (_ | ⟨_, hr⟩) hm
      · exact Nat.lt_of_le_of_lt (hshort hm) hlt
      · exact holder r hr hm
    have hcmp : comparePrefix e.key key e.prefix_len.toNat =
        some (decide (PrefixMatches key e.live.keyinfo)) :=
      comparePrefix_eq (k := e.live.keyinfo) hle.1 (lt_trans e.prefix_len.isLt (by decide))
    rw [lpmScan]
    split
    · rename_i hge
      have hge := BitVec.le_def.mp hge
      exact (ih _ _ hle.2).imp (fun ⟨hscan, hnone⟩ => ⟨hscan, fun _ => hge, hnone⟩) (hcons fun _ => hge)
    · rename_i hlt
      have hlt := Nat.lt_of_not_le fun h => hlt (BitVec.le_def.mpr h)
      rw [hcmp]
      by_cases hmatch : PrefixMatches key e.live.keyinfo
      · rw [decide_eq_true hmatch]
        right
        rcases ih _ _ hle.2 with ⟨hscan, hnone⟩ | hsome
        · refine ⟨e, hscan, hlt, [], entries.map StableEntry.live, rfl, hmatch, by simp, ?_⟩
          intro r hr hm
          obtain ⟨x, hx, rfl⟩ := List.mem_map.mp hr
          exact hnone x hx hm
        · obtain ⟨x, hx, hlt', hlongest⟩ := hcons (fun _ => le_rfl) hsome
          exact ⟨x, hx, lt_trans hlt hlt', hlongest⟩
      · rw [decide_eq_false hmatch]
        exact (ih _ _ hle.2).imp (fun ⟨hscan, hnone⟩ => ⟨hscan, fun hm => (hmatch hm).elim, hnone⟩)
          (hcons fun hm => (hmatch hm).elim)

theorem LongestMatch.unique (h1 : LongestMatch key l r1) (h2 : LongestMatch key l r2) : r1 = r2 := by
  obtain ⟨o1, y1, rfl, hm1, ho1, hy1⟩ := h1
  obtain ⟨o2, y2, heq, hm2, ho2, hy2⟩ := h2
  -- the one that stands before the other would be both shorter and not
  rcases List.append_eq_append_iff.mp heq with ⟨c, rfl, hc⟩ | ⟨c, rfl, hc⟩
  · cases c with
    | nil => exact (List.cons.inj hc).1
    | cons x c =>
      obtain ⟨rfl, rfl⟩ := List.cons.inj hc
      have hlt := ho2 r1 (by simp) hm1
      have hle := hy1 r2 (by simp) hm2
      omega
  · cases c with
    | nil => exact (List.cons.inj hc).1.symm
    | cons x c =>
      obtain ⟨rfl, rfl⟩ := List.cons.inj hc
      have hlt := ho1 r2 (by simp) hm2
      have hle := hy2 r1 (by simp) hm1
      omega

/-! ## The dynamic table -/

/-- The calls that add the entries to a dynamic table, in order. -/
def adds (entries : List (StableEntry n τ)) : List (KeyCall (LpmEntryKey n) τ) :=
  entries.map fun e => .add true e.live.keyinfo e.target

/-- No add fails for want of memory or identifiers. -/
def FilledTable (d : τ) (entries : List (StableEntry n τ)) : Prop :=
  ∀ before e after, entries = before ++ e :: after →
    (dtableStep (lpmKind n) (lpmRun d (adds before)).1 (.add true 0 e.live.keyinfo e.target)).2 ≠ dtableEnomem

theorem liveRun_concat {κ : Type} {kind : DtableKind κ} {rank : κ → Int} {t : DtableTable κ τ}
    {live : List (LiveEntry κ τ)} (calls : List (KeyCall κ τ)) (call : KeyCall κ τ) :
    liveRun kind rank t live (calls ++ [call]) =
      ((dtableStep kind (liveRun kind rank t live calls).1 call.toCall).1,
        liveStep kind rank (liveRun kind rank t live calls).2
          (dtableStep kind (liveRun kind rank t live calls).1 call.toCall).2 call) := by
  induction calls generalizing t live with
  | nil => rfl
  | cons c calls ih => exact ih

theorem lpmRun_concat (d : τ) {entries : List (StableEntry n τ)} {e : StableEntry n τ}
    (hcode : (dtableStep (lpmKind n) (lpmRun d (adds entries)).1
      (.add true 0 e.live.keyinfo e.target)).2 ≠ dtableEnomem) :
    ((lpmRun d (adds (entries ++ [e]))).2 = (lpmRun d (adds entries)).2 ∧
      ∃ r ∈ (lpmRun d (adds entries)).2, r.keyinfo = e.live.keyinfo) ∨
    (lpmRun d (adds (entries ++ [e]))).2 = (lpmRun d (adds entries)).2 ++ [e.live] := by
  have hrefines : Refines (lpmKind n) _ (lpmRun d (adds entries)).1 (lpmRun d (adds entries)).2 :=
    (refines_empty (lpmKind n) _ d).run (lpmKind_lawful n) (fun _ _ => le_rfl) (adds entries)
  have hrun : (lpmRun d (adds (entries ++ [e]))).2 = liveStep (lpmKind n) (fun k => -(k.prefix_len : Int))
      (lpmRun d (adds entries)).2 (dtableStep (lpmKind n) (lpmRun d (adds entries)).1
        (.add true 0 e.live.keyinfo e.target)).2 (.add true e.live.keyinfo e.target) := by
    rw [adds, List.map_append]
    exact congrArg Prod.snd (liveRun_concat (adds entries) (.add true e.live.keyinfo e.target))
  rw [hrun]
  generalize lpmRun d (adds entries) = run at hcode hrefines
  rcases dtableAddBy_cases (lpmKind n) true run.1 0 e.live.keyinfo e.target with
    ⟨hsome, heq⟩ | ⟨-, -, heq⟩ | ⟨_, _, -, -, heq⟩
  · left
    obtain ⟨x, hx⟩ := Option.isSome_iff_exists.mp hsome
    obtain ⟨hmem, hhit, -⟩ := hrefines.find_some (lpmKind_lawful n) hx
    obtain ⟨es, hes, -, hlive⟩ := hrefines.live_eq
    refine ⟨by rw [dtableStep, heq]; rfl, x.live, ?_, ?_⟩
    · rw [← hlive]
      exact List.mem_map_of_mem (hes.mem_iff.mpr hmem)
    · obtain ⟨num, ident, target, len, key⟩ := x
      simp only [DtableKind.hit, lpmKind, compareEqual_iff, Bool.and_eq_true, decide_eq_true_eq] at hhit
      rw [DtableEntry.live, hhit.2.1, hhit.2.2]
  · rw [dtableStep, heq] at hcode
    exact (hcode rfl).elim
  · right
    rw [dtableStep, heq]
    rfl

theorem lpmRun_longest (d : τ) (key : Key n) (hfilled : FilledTable d entries) :
    (lpmRun d (adds entries)).2 ⊆ entries.map StableEntry.live ∧
      ∀ r, LongestMatch key (entries.map StableEntry.live) r →
        LongestMatch key (lpmRun d (adds entries)).2 r := by
  induction entries using List.reverseRecOn with
  | nil => exact ⟨List.Subset.refl _, fun r h => h⟩
  | append_singleton entries e ih =>
    obtain ⟨hsub, hlongest⟩ := ih fun before x after heq => hfilled before x (after ++ [e]) (by simp [heq])
    have hstep := lpmRun_concat d (hfilled entries e [] rfl)
    rw [List.map_append, List.map_singleton]
    refine ⟨?_, ?_⟩
    · rcases hstep with ⟨heq, -⟩ | heq
      · rw [heq]
        exact List.subset_append_of_subset_left _ hsub
      · rw [heq]
        exact List.append_subset.mpr ⟨List.subset_append_of_subset_left _ hsub, by simp⟩
    · rintro r ⟨older, younger, heq, hmatch, holder, hyounger⟩
      rcases younger.eq_nil_or_concat with rfl | ⟨younger, x, rfl⟩
      · -- the new entry is longer than all that match, so there is none with its prefix
        obtain ⟨rfl, hr⟩ := List.append_inj' heq rfl
        obtain rfl := (List.cons.inj hr).1
        rcases hstep with ⟨-, r, hr, hinfo⟩ | heq
        · have hlt := holder r (hsub hr) (by rwa [hinfo])
          rw [hinfo] at hlt
          exact (lt_irrefl _ hlt).elim
        · exact ⟨_, [], heq, hmatch, fun r hr => holder r (hsub hr), by simp⟩
      · rw [List.concat_eq_append, ← List.cons_append, ← List.append_assoc] at heq
        obtain ⟨hinit, hx⟩ := List.append_inj' heq rfl
        obtain rfl := (List.cons.inj hx).1
        obtain ⟨o, y, hl, hm, ho, hy⟩ := hlongest r ⟨older, younger, hinit, hmatch, holder, fun r' hr' =>
          hyounger r' (by simp [hr'])⟩
        rcases hstep with ⟨heq, -⟩ | heq
        · exact ⟨o, y, heq.trans hl, hm, ho, hy⟩
        · refine ⟨o, y ++ [e.live], by rw [heq, hl]; simp, hm, ho, fun r' hr' => ?_⟩
          rcases List.mem_append.mp hr' with hr' | hr'
          · exact hy r' hr'
          · rw [List.mem_singleton.mp hr']
            exact hyounger _ (by simp)

/-! ## The lookup -/

/-- A lookup selects the first entry of greatest prefix length whose prefix the key has, and none only if there
is no such entry; a dynamic table with the entries gives the same target. -/
def Selects (entries : List (StableEntry n τ)) (d : τ) (key : Key n) : Prop :=
  ∃ lm_def, stableLookupLpm entries key = some lm_def ∧
    (∀ e, lm_def = some e → LongestMatch key (entries.map StableEntry.live) e.live) ∧
    (lm_def = none → ∀ e ∈ entries, ¬ PrefixMatches key e.live.keyinfo) ∧
    (FilledTable d entries → ∃ found, dtableLookupLpm (lpmRun d (adds entries)).1 key = some found ∧
      (lpmRun d (adds entries)).1.target found = (lm_def.map StableEntry.target).getD d)

/-- **A static lookup selects the longest prefix** just if that has at least one bit and is among the entries
looked at, or if no entry matches. -/
theorem stableLookupLpm_iff (entries : List (StableEntry n τ))
    (hle : ∀ e ∈ entries, e.prefix_len.toNat ≤ 8 * n) (d : τ) (key : Key n) :
    Selects entries d key ↔
      (∃ r, LongestMatch key (entries.map StableEntry.live) r ∧ 0 < r.keyinfo.prefix_len ∧
        LongestMatch key ((scanned entries).map StableEntry.live) r) ∨
      ∀ e ∈ entries, ¬ PrefixMatches key e.live.keyinfo := by
  have hscan : ∀ e ∈ scanned entries, e ∈ entries := fun e he => List.mem_of_mem_take he
  have hspec := lpmScan_spec key 0 none fun e he => hle e (hscan e he)
  constructor
  · rintro ⟨lm_def, hlookup, hsome, hnone, -⟩
    rw [stableLookupLpm] at hlookup
    rcases hspec with ⟨heq, -⟩ | ⟨e, heq, hpos, hlongest⟩
    · exact .inr (hnone (Option.some.inj (hlookup.symm.trans heq)))
    · exact .inl ⟨e.live, hsome e (Option.some.inj (hlookup.symm.trans heq)), hpos, hlongest⟩
  · intro hcond
    -- what the dynamic table returns, by the entry selected
    have hdynamic : FilledTable d entries → _ := fun hfilled =>
      (lpmRun_longest d key hfilled).imp_right fun hlongest =>
        And.intro hlongest (lookupLpm_cases d (adds entries) (fun malloc q v hmem => by
          obtain ⟨e, he, heq⟩ := List.mem_map.mp hmem
          obtain ⟨-, rfl, -⟩ := KeyCall.add.inj heq
          have hlt := e.prefix_len.isLt
          exact ⟨hle e he, by simp only [StableEntry.live]; omega⟩) key)
    rcases hcond with ⟨r, hr, hpos, htaken⟩ | hno
    · rcases hspec with ⟨-, hnone⟩ | ⟨e, heq, -, hlongest⟩
      · obtain ⟨older, younger, hsplit, hmatch, -⟩ := htaken
        obtain ⟨x, hx, rfl⟩ := List.mem_map.mp (hsplit ▸ List.mem_append_right older List.mem_cons_self)
        exact absurd (hnone x hx hmatch) (Nat.not_le_of_lt hpos)
      · obtain rfl := htaken.unique hlongest
        refine ⟨some e, heq, fun x hx => Option.some.inj hx ▸ hr, fun h => (by cases h), fun hfilled => ?_⟩
        obtain ⟨-, hsub, hcases⟩ := hdynamic hfilled
        rcases hcases with ⟨r', e', hr', hfound, htarget⟩ | ⟨hnone, -⟩
        · exact ⟨some e', hfound, by rw [htarget, hr'.unique (hsub _ hr)]; rfl⟩
        · obtain ⟨older, younger, hsplit, hmatch, -⟩ := hsub _ hr
          exact (hnone _ (hsplit ▸ List.mem_append_right older List.mem_cons_self) hmatch).elim
    · rcases hspec with ⟨heq, -⟩ | ⟨e, -, -, older, younger, hsplit, hmatch, -⟩
      · refine ⟨none, heq, fun e he => (by cases he), fun _ => hno, fun hfilled => ?_⟩
        obtain ⟨hsub, -, hcases⟩ := hdynamic hfilled
        rcases hcases with ⟨r, e', ⟨o, y, hsplit, hmatch, -⟩, -⟩ | ⟨-, hfound, htarget⟩
        · obtain ⟨x, hx, rfl⟩ := List.mem_map.mp (hsub (hsplit ▸ List.mem_append_right o List.mem_cons_self))
          exact (hno x hx hmatch).elim
        · exact ⟨none, hfound, htarget⟩
      · obtain ⟨x, hx, heq⟩ := List.mem_map.mp (hsplit ▸ List.mem_append_right older List.mem_cons_self)
        exact (hno x (hscan x hx) (heq ▸ hmatch)).elim

/-- Two prefixes of one byte, of which the key has both. -/
theorem stableLookupLpm_nested :
    Selects [⟨1, fun _ => 0x80, 1⟩, ⟨4, fun _ => 0xa0, 2⟩] 0 (fun _ => 0xab : Key 1) :=
  (stableLookupLpm_iff _ (by decide) 0 _).mpr (.inl ⟨⟨⟨4, fun _ => 0xa0⟩, 2⟩,
    ⟨[_], [], rfl, by decide, by decide, by decide⟩, by decide,
    ⟨[_], [], rfl, by decide, by decide, by decide⟩⟩)

/-- A prefix of no bits, which every key has, is the default route of the dynamic table and is not
selected in the static one. -/
theorem stableLookupLpm_defaultRoute :
    (stableLookupLpm [⟨0, fun _ => 0, 5⟩] (fun _ => 7 : Key 1)).map Option.isSome = some false ∧
      (dtableLookupLpm (lpmRun 0 (adds [⟨0, fun _ => 0, 5⟩])).1 (fun _ => 7 : Key 1)).map
        (lpmRun 0 (adds [⟨0, fun _ => 0, 5⟩] : List (KeyCall (LpmEntryKey 1) Nat))).1.target = some 5 := by
  decide

end Xdp2
