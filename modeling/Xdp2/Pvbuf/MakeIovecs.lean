import Xdp2.Pvbuf.Leaves
import Xdp2.Pvbuf.PopSpec

/-!
# Iovecs for the system

`__xdp2_pvbuf_make_iovecs` makes an array of `struct iovec` for a range of a packet. Its test `if
(!ist->len)` is the wrong way round, so a length that was given is never counted down: each leaf
from the offset on is put in, with as many bytes as the length. And an overflow of the array is
tested for before a leaf is looked at. So the array is the range just if the packet ends where the
range does, or there is only one leaf to be put in (`make_iovecs_iff`).
-/

namespace Xdp2

open StateError

/-! ## The function -/

/-- `struct iovec` of the system. The address is given by a region and an offset in it. -/
structure SysIovec where
  place : Region
  offset : Nat
  iov_len : Nat
  deriving DecidableEq, Repr

namespace SysIovec

/-- The bytes an iovec is for. -/
def bytes (mem : Mem) (v : SysIovec) : List UInt8 := readBytes (mem.read v.place) v.offset v.iov_len

/-- An iovec for not more than `len` bytes. -/
def limit (len : Nat) (v : SysIovec) : SysIovec := { v with iov_len := min len v.iov_len }

end SysIovec

/-- `struct __xdp2_pvbuf_iter_make_iovecs`, with the part of the array that has been written. -/
structure IterMakeIovecs where
  iovecs : List SysIovec := []
  num_vec : Nat := 0
  max_vecs : Nat
  range : Range

/-- `__xdp2_pvbuf_iterate_make_iovecs`. -/
def iterateMakeIovecs (ist : IterMakeIovecs) (seg : Seg) : PvM (IterMakeIovecs × Bool) :=
  if ist.max_vecs ≤ ist.num_vec then
    return ({ ist with num_vec := (ist.num_vec + 1) % 2 ^ 32 }, false)
  else
    match ist.range.cut seg.len with
    | none => return ({ ist with range := ist.range.skip seg.len }, true)
    | some (start, len) =>
      let ist := { ist with
        iovecs := ist.iovecs ++ [⟨seg.place, seg.offset + start, len⟩]
        num_vec := ist.num_vec + 1
        range := ⟨ist.range.len, 0⟩ }
      if ist.range.len = 0 then
        -- `ist->len -= len`
        let left := (2 ^ 64 - len) % 2 ^ 64
        return ({ ist with range := ⟨left, 0⟩ }, decide (left ≠ 0))
      else return (ist, true)

/-- `__xdp2_pvbuf_make_iovecs`, with what it writes to the array. The number of iovecs is returned as
an `int`. -/
def makeIovecs (c : MgrConfig) (depth : Nat) (pv : Pvbuf) (max_vecs len offset : Nat) :
    PvM (Int × List SysIovec) := do
  let (ist, _) ← pvbufIterate c iterateMakeIovecs depth pv { max_vecs, range := ⟨len, offset⟩ }
  return (if ist.num_vec ≤ max_vecs then (BitVec.ofNat 32 ist.num_vec).toInt else -1, ist.iovecs)

/-! ## What it is for -/

/-- The number of leaves, of which the first begins at `start`, that have a byte from `lo` up to `hi`. -/
def spans (lo hi : Nat) : (start : Nat) → List Seg → Nat
  | _, [] => 0
  | start, s :: segs =>
    (if max start lo < min (start + s.len) hi then 1 else 0) + spans lo hi (start + s.len) segs

/-- The iovecs are those of a range of the packet if it spans as many leaves as there is room for, and
else -1 is returned. -/
def MadeIovecs (mem : Mem) (pv : Pvbuf) (max_vecs len offset : Nat) (r : Int × List SysIovec) : Prop :=
  (spans offset (offset + len) 0 pv.segs ≤ max_vecs → ∃ n : Nat, r.1 = n ∧
    (r.2.take n).flatMap (SysIovec.bytes mem) = ((pv.contents mem).drop offset).take len) ∧
  (max_vecs < spans offset (offset + len) 0 pv.segs → r.1 = -1)

/-! ## The leaves from an offset on -/

/-- The leaves from an offset on, the first without the bytes before it. -/
def leavesFrom : (offset : Nat) → List Seg → List SysIovec
  | _, [] => []
  | offset, s :: segs =>
    if offset ≠ 0 ∧ s.len ≤ offset then leavesFrom (offset - s.len) segs
    else ⟨s.place, s.offset + offset, s.len - offset⟩ :: leavesFrom 0 segs

section
variable {segs : List Seg} {offset : Nat} {mem : Mem}

@[simp] theorem length_leavesFrom_zero : (leavesFrom 0 segs).length = segs.length := by
  induction segs with
  | nil => rfl
  | cons s segs ih => simp [leavesFrom, ih]

theorem SysIovec.bytes_seg (s : Seg) (start n : Nat) (h : start + n ≤ s.len) :
    SysIovec.bytes mem ⟨s.place, s.offset + start, n⟩ = ((s.bytes mem).drop start).take n := by
  rw [SysIovec.bytes, Seg.bytes, drop_readBytes, take_readBytes _ _ (by omega), Seg.region_eq]

theorem bytes_leavesFrom :
    (leavesFrom offset segs).flatMap (SysIovec.bytes mem) = (segBytes mem segs).drop offset := by
  induction segs generalizing offset with
  | nil => simp [leavesFrom]
  | cons s segs ih =>
    rw [leavesFrom, segBytes_cons]
    split
    · rename_i hskip
      have hnone : (s.bytes mem).drop offset = [] :=
        List.drop_eq_nil_of_le (by rw [Seg.length_bytes]; exact hskip.2)
      rw [ih, List.drop_append, hnone, Seg.length_bytes, List.nil_append]
    · rename_i hin
      have hle : offset ≤ s.len := by omega
      have hall : ((s.bytes mem).drop offset).take (s.len - offset) = (s.bytes mem).drop offset :=
        List.take_of_length_le (by rw [List.length_drop, Seg.length_bytes])
      rw [List.flatMap_cons, SysIovec.bytes_seg _ _ _ (by omega), hall, ih, List.drop_zero,
        List.drop_append_of_le_length (by rwa [Seg.length_bytes])]

theorem spans_le (lo hi start : Nat) (segs : List Seg) :
    spans lo hi start segs ≤ (leavesFrom (lo - start) segs).length := by
  induction segs generalizing start with
  | nil => exact Nat.le_refl _
  | cons s segs ih =>
    have hrest := ih (start + s.len)
    rw [spans, leavesFrom]
    by_cases hskip : lo - start ≠ 0 ∧ s.len ≤ lo - start
    · rw [if_pos hskip, if_neg (by omega), Nat.zero_add, Nat.sub_sub]
      exact hrest
    · rw [Nat.sub_eq_zero_of_le (show lo ≤ start + s.len by omega)] at hrest
      rw [if_neg hskip, List.length_cons]
      split <;> omega

end

theorem spans_eq_zero (h : start + segsLen segs ≤ lo) :
    spans lo hi start segs = 0 := by
  induction segs generalizing start with
  | nil => rfl
  | cons s segs ih =>
    have hsum : segsLen (s :: segs) = s.len + segsLen segs := by simp [segsLen]
    rw [spans, if_neg (by omega), ih (by omega)]

/-! ## The walk -/

/-- The number of leaves that the function counts if there is room for `room` of them: without room it
does not look at the offset. -/
def leavesSeen (room offset : Nat) (segs : List Seg) : Nat :=
  if room = 0 then segs.length else (leavesFrom offset segs).length

theorem length_leavesFrom_le (offset : Nat) (segs : List Seg) :
    (leavesFrom offset segs).length ≤ segs.length := by
  induction segs generalizing offset with
  | nil => exact Nat.le_refl _
  | cons s segs ih =>
    rw [leavesFrom, List.length_cons]
    split
    · exact (ih _).trans (Nat.le_succ _)
    · exact Nat.succ_le_succ (ih 0)

theorem length_leavesFrom_le_seen (room offset : Nat) (segs : List Seg) :
    (leavesFrom offset segs).length ≤ leavesSeen room offset segs := by
  rw [leavesSeen]
  split
  · exact length_leavesFrom_le offset segs
  · exact Nat.le_refl _

theorem iterateMakeIovecs_returns (ist : IterMakeIovecs) (seg : Seg) (st : PvSt) :
    Returns (iterateMakeIovecs ist seg) st fun _ _ => True := by
  rw [iterateMakeIovecs]
  split
  · exact ⟨_, _, rfl, trivial⟩
  · cases ist.range.cut seg.len with
    | none => exact ⟨_, _, rfl, trivial⟩
    | some p =>
      dsimp only
      split
      · exact ⟨_, _, rfl, trivial⟩
      · exact ⟨_, _, rfl, trivial⟩

/-- Every leaf from the offset on is put in, with no more bytes than the length, or there is an
overflow. -/
theorem walk_makeIovecs (segs : List Seg) (ist : IterMakeIovecs) (st : PvSt)
    (hlen : ist.range.len ≠ 0) (hnum : ist.num_vec ≤ ist.max_vecs) :
    ∃ ist' cont, (walkLeaves iterateMakeIovecs segs ist).run st = .ok (ist', cont) st ∧
      (leavesSeen (ist.max_vecs - ist.num_vec) ist.range.offset segs ≤ ist.max_vecs - ist.num_vec →
        ist'.num_vec = ist.num_vec + (leavesFrom ist.range.offset segs).length ∧
        ist'.iovecs = ist.iovecs ++
          (leavesFrom ist.range.offset segs).map (SysIovec.limit ist.range.len)) ∧
      (ist.max_vecs - ist.num_vec < leavesSeen (ist.max_vecs - ist.num_vec) ist.range.offset segs →
        ist'.num_vec = (ist.max_vecs + 1) % 2 ^ 32) := by
  induction segs generalizing ist with
  | nil =>
    refine ⟨ist, true, rfl, fun _ => by simp [leavesFrom], fun h => ?_⟩
    rw [leavesSeen] at h
    split at h <;> simp [leavesFrom] at h
  | cons seg segs ih =>
    rw [walkLeaves, iterateMakeIovecs]
    by_cases hfull : ist.max_vecs ≤ ist.num_vec
    · have heq : ist.num_vec = ist.max_vecs := Nat.le_antisymm hnum hfull
      rw [if_pos hfull]
      refine ⟨_, false, rfl, fun h => ?_, fun _ => by rw [heq]⟩
      rw [leavesSeen, if_pos (by omega), List.length_cons] at h
      omega
    · have hroom : ist.max_vecs - ist.num_vec ≠ 0 := by omega
      rw [if_neg hfull, leavesSeen, if_neg hroom]
      cases hcut : ist.range.cut seg.len with
      | none =>
        have hskip := Range.cut_none_iff.mp hcut
        obtain ⟨ist', cont, hrun, hfits, hover⟩ :=
          ih { ist with range := ist.range.skip seg.len } hlen hnum
        rw [leavesSeen, if_neg hroom] at hfits hover
        rw [leavesFrom, if_pos hskip]
        exact ⟨ist', cont, hrun, hfits, hover⟩
      | some p =>
        obtain ⟨start, n⟩ := p
        obtain ⟨rfl, -, -, hn⟩ := Range.cut_some hcut
        have hskip : ¬ (ist.range.offset ≠ 0 ∧ seg.len ≤ ist.range.offset) := fun h => by
          rw [Range.cut_none_iff.mpr h] at hcut
          cases hcut
        obtain ⟨ist', cont, hrun, hfits, hover⟩ :=
          ih { ist with
            iovecs := ist.iovecs ++ [⟨seg.place, seg.offset + ist.range.offset, n⟩]
            num_vec := ist.num_vec + 1
            range := ⟨ist.range.len, 0⟩ } hlen (Nat.lt_of_not_le hfull)
        have hseen : leavesSeen (ist.max_vecs - (ist.num_vec + 1)) 0 segs = segs.length := by
          rw [leavesSeen]
          split
          · rfl
          · exact length_leavesFrom_zero
        rw [hseen] at hfits hover
        rw [length_leavesFrom_zero] at hfits
        dsimp only at hfits hover
        rw [leavesFrom, if_neg hskip, List.length_cons, length_leavesFrom_zero]
        dsimp only
        rw [if_neg hlen]
        refine ⟨ist', cont, hrun, fun h => ?_, fun h => hover (by omega)⟩
        obtain ⟨hnum', hvecs⟩ := hfits (by omega)
        refine ⟨hnum'.trans (Nat.add_right_comm _ _ _), ?_⟩
        rw [hvecs, List.map_cons, SysIovec.limit, hn hlen, List.append_assoc]
        rfl

/-! ## Pieces of a limited length -/

section
variable {α : Type} {len : Nat} {l : List Nat} {bs : List (List α)}

theorem min_sum_le_sum_min (len : Nat) (l : List Nat) : min len l.sum ≤ (l.map (min len)).sum := by
  induction l with
  | nil => simp
  | cons n l ih =>
    rw [List.map_cons, List.sum_cons, List.sum_cons]
    omega

/-- Numbers cut to a limit have a sum cut to the limit just if their sum is within it, or only one of
them is not zero. -/
theorem sum_min_eq_iff (hlen : 0 < len) : (l.map (min len)).sum = min len l.sum ↔
    l.sum ≤ len ∨ (l.filter (· ≠ 0)).length ≤ 1 := by
  induction l with
  | nil => simp
  | cons n l ih =>
    have hle := min_sum_le_sum_min len l
    have hzero : (l.filter (· ≠ 0)).length = 0 ↔ l.sum = 0 := by
      rw [List.length_eq_zero_iff, List.filter_eq_nil_iff, List.sum_eq_zero_iff]
      simp
    rw [List.map_cons, List.sum_cons, List.sum_cons, List.filter_cons]
    by_cases hn : n = 0
    · subst hn
      simpa using ih
    · rw [if_pos (decide_eq_true hn), List.length_cons]
      by_cases hrest : l.sum = 0
      · have hcut : (l.map (min len)).sum = 0 := by
          rw [List.sum_eq_zero_iff] at hrest ⊢
          simp only [List.mem_map, forall_exists_index, and_imp, forall_apply_eq_imp_iff₂]
          intro m hm
          rw [hrest m hm, Nat.min_zero]
        have hnone := hzero.mpr hrest
        omega
      · have hsome := mt hzero.mp hrest
        have hwithin : l.sum ≤ len → (l.map (min len)).sum = l.sum := fun h => by
          rw [ih.mpr (.inl h), Nat.min_eq_right h]
        omega

theorem flatten_take_of_one (h : ((bs.map List.length).filter (· ≠ 0)).length ≤ 1) :
    (bs.map (List.take len)).flatten = bs.flatten.take len := by
  induction bs with
  | nil => simp
  | cons b bs ih =>
    rw [List.map_cons, List.filter_cons] at h
    cases b with
    | nil => simpa using ih (by simpa using h)
    | cons x b =>
      have hrest : ∀ b' ∈ bs, b' = [] := by
        have hlength : ((bs.map List.length).filter (· ≠ 0)).length = 0 := by simpa using h
        rw [List.length_eq_zero_iff, List.filter_eq_nil_iff] at hlength
        simpa using hlength
      have hnone : bs.flatten = [] := List.flatten_eq_nil_iff.mpr hrest
      have hcut : (bs.map (List.take len)).flatten = [] := by
        rw [List.flatten_eq_nil_iff]
        simp only [List.mem_map, forall_exists_index, and_imp, forall_apply_eq_imp_iff₂]
        intro b' hb'
        rw [hrest b' hb', List.take_nil]
      rw [List.map_cons, List.flatten_cons, List.flatten_cons, hcut, hnone, List.append_nil,
        List.append_nil]

/-- Pieces cut to a limit are together what they were, cut to the limit, just if they are within it, or
only one of them is not empty. -/
theorem flatten_take_eq_iff (hlen : 0 < len) : (bs.map (List.take len)).flatten = bs.flatten.take len ↔
    bs.flatten.length ≤ len ∨ ((bs.map List.length).filter (· ≠ 0)).length ≤ 1 := by
  rw [List.length_flatten, ← sum_min_eq_iff hlen]
  constructor
  · intro h
    have hlength := congrArg List.length h
    rw [List.length_flatten, List.length_take, List.length_flatten, List.map_map] at hlength
    rw [← hlength, List.map_map]
    congr 2
    funext b
    simp
  · intro h
    rcases (sum_min_eq_iff hlen).mp h with hsum | hone
    · have hall : bs.map (List.take len) = bs := by
        conv_rhs => rw [← List.map_id bs]
        refine List.map_congr_left fun b hb => List.take_of_length_le ?_
        exact (List.single_le_sum (fun _ _ => Nat.zero_le _) _ (List.mem_map_of_mem hb)).trans hsum
      rw [hall, List.take_of_length_le (by rwa [List.length_flatten])]
    · exact flatten_take_of_one hone

end

/-! ## When the iovecs are right -/

/-- Only one leaf has bytes from the offset on. -/
def OneLeafFrom (offset : Nat) (segs : List Seg) : Prop :=
  (((leavesFrom offset segs).map SysIovec.iov_len).filter (· ≠ 0)).length ≤ 1

section
variable {len offset : Nat} {mem : Mem} {segs : List Seg}

/-- The iovecs of the leaves are those of the range just if it goes to the end of the packet, or only one
leaf has bytes of it. -/
theorem limit_leavesFrom_iff (hlen : 0 < len) :
    ((leavesFrom offset segs).map (SysIovec.limit len)).flatMap (SysIovec.bytes mem) =
        ((segBytes mem segs).drop offset).take len ↔
      segsLen segs ≤ offset + len ∨ OneLeafFrom offset segs := by
  have hlimit : ∀ v : SysIovec, (v.limit len).bytes mem = (v.bytes mem).take len := fun v => by
    change readBytes (mem.read v.place) v.offset (min len v.iov_len) = _
    rw [← take_readBytes _ _ (Nat.min_le_right _ _), SysIovec.bytes, List.take_eq_take_iff,
      length_readBytes]
    omega
  have hleft : ((leavesFrom offset segs).map (SysIovec.limit len)).flatMap (SysIovec.bytes mem) =
      (((leavesFrom offset segs).map (SysIovec.bytes mem)).map (List.take len)).flatten := by
    rw [List.flatMap_def, List.map_map, List.map_map]
    congr 2
    funext v
    exact hlimit v
  have hlens : ((leavesFrom offset segs).map (SysIovec.bytes mem)).map List.length =
      (leavesFrom offset segs).map SysIovec.iov_len := by
    rw [List.map_map]
    exact List.map_congr_left fun v _ => length_readBytes _ _ _
  rw [hleft, ← bytes_leavesFrom, List.flatMap_def, flatten_take_eq_iff hlen, hlens, OneLeafFrom,
    ← List.flatMap_def, bytes_leavesFrom, List.length_drop, length_segBytes]
  exact or_congr_left ⟨fun h => by omega, fun h => by omega⟩

theorem madeIovecs_all_iff (hspans : spans offset (offset + len) 0 pv.segs ≤ max_vecs)
    (hlt : vecs.length < 2 ^ 32) :
    MadeIovecs mem pv max_vecs len offset ((BitVec.ofNat 32 vecs.length).toInt, vecs) ↔
      vecs.length < 2 ^ 31 ∧
        vecs.flatMap (SysIovec.bytes mem) = ((pv.contents mem).drop offset).take len := by
  have hint := BitVec.toInt_eq_toNat_cond (BitVec.ofNat 32 vecs.length)
  rw [BitVec.toNat_ofNat, Nat.mod_eq_of_lt hlt] at hint
  constructor
  · intro h
    obtain ⟨n, hret, hbytes⟩ := h.1 hspans
    change (BitVec.ofNat 32 vecs.length).toInt = n at hret
    split at hint
    · obtain rfl : n = vecs.length := by omega
      rw [List.take_length] at hbytes
      exact ⟨by omega, hbytes⟩
    · omega
  · rintro ⟨hsmall, hbytes⟩
    rw [if_pos (by omega)] at hint
    refine ⟨fun _ => ⟨vecs.length, hint, ?_⟩, fun hover => by omega⟩
    rw [List.take_length]
    exact hbytes

theorem madeIovecs_overflow_iff :
    MadeIovecs mem pv max_vecs len offset (-1, vecs) ↔
      max_vecs < spans offset (offset + len) 0 pv.segs := by
  constructor
  · intro h
    by_contra hle
    obtain ⟨n, hret, -⟩ := h.1 (by omega)
    change (-1 : Int) = n at hret
    omega
  · exact fun hlt => ⟨fun hle => by omega, fun _ => rfl⟩

theorem madeIovecs_wrapped_iff (hlen : 0 < len) :
    MadeIovecs mem pv max_vecs len offset (0, vecs) ↔ segsLen pv.segs ≤ offset := by
  have hnil : ((pv.contents mem).drop offset).take len = [] ↔ segsLen pv.segs ≤ offset := by
    rw [List.take_eq_nil_iff, List.drop_eq_nil_iff, PvbufOf.contents, length_segBytes]
    omega
  constructor
  · intro h
    have hle : spans offset (offset + len) 0 pv.segs ≤ max_vecs := by
      by_contra hlt
      have hneg : (0 : Int) = -1 := h.2 (by omega)
      omega
    obtain ⟨n, hret, hbytes⟩ := h.1 hle
    obtain rfl : n = 0 := by
      change (0 : Int) = n at hret
      omega
    exact hnil.mp hbytes.symm
  · intro hle
    have hnone : spans offset (offset + len) 0 pv.segs = 0 := spans_eq_zero (by omega)
    exact ⟨fun _ => ⟨0, rfl, (hnil.mpr hle).symm⟩, fun hlt => by omega⟩

/-- **When the iovecs are those of the range.** There is room for all leaves from the offset on,
their number is an `int`, and the range goes to the end of the packet or only one leaf has bytes
from the offset on; or there is no room for the range; or the count wraps around and the range is
empty. -/
theorem make_iovecs_iff {n : Nat} (hwf : Wf depth pv) (hn : depth ≤ n)
    (hobjs : ∀ o ∈ pv.objs, o.2 < c.pvbuf_max_objs o.1) (st : PvSt) (max_vecs len offset : Nat)
    (hmax : max_vecs < 2 ^ 32) (hlen : 0 < len) :
    ∃ r, (makeIovecs c n pv max_vecs len offset).run st = .ok r st ∧
      (MadeIovecs st.mgr.mem pv max_vecs len offset r ↔
        leavesSeen max_vecs offset pv.segs ≤ max_vecs ∧ (leavesFrom offset pv.segs).length < 2 ^ 31 ∧
            (segsLen pv.segs ≤ offset + len ∨ OneLeafFrom offset pv.segs) ∨
          max_vecs < spans offset (offset + len) 0 pv.segs ∧ max_vecs + 1 < 2 ^ 32 ∨
          max_vecs < leavesSeen max_vecs offset pv.segs ∧ max_vecs + 1 = 2 ^ 32 ∧
            segsLen pv.segs ≤ offset) := by
  obtain ⟨r, st', hrun, hsame⟩ := pvbufIterate_walk iterateMakeIovecs_returns hn hwf hobjs
    { max_vecs, range := ⟨len, offset⟩ } st
  obtain ⟨ist, cont, hwalk, hfits, hover⟩ := walk_makeIovecs pv.segs
    { max_vecs, range := ⟨len, offset⟩ } st (Nat.pos_iff_ne_zero.mp hlen)
    (Nat.zero_le max_vecs)
  rw [hwalk] at hsame
  cases hsame
  dsimp only at hfits hover
  rw [Nat.sub_zero] at hfits hover
  refine ⟨_, run_bind_ok hrun, ?_⟩
  have hspans : spans offset (offset + len) 0 pv.segs ≤ (leavesFrom offset pv.segs).length :=
    spans_le _ _ _ _
  have hseen := length_leavesFrom_le_seen max_vecs offset pv.segs
  by_cases hroom : leavesSeen max_vecs offset pv.segs ≤ max_vecs
  · obtain ⟨hnum, hvecs⟩ := hfits hroom
    rw [Nat.zero_add] at hnum
    rw [List.nil_append] at hvecs
    have hlength : ((leavesFrom offset pv.segs).map (SysIovec.limit len)).length =
        (leavesFrom offset pv.segs).length := List.length_map _
    rw [hnum, hvecs, if_pos (by omega), ← hlength, madeIovecs_all_iff (by omega) (by omega),
      PvbufOf.contents, limit_leavesFrom_iff hlen]
    constructor
    · exact fun h => .inl ⟨hroom, h⟩
    · rintro (⟨-, h⟩ | ⟨h, -⟩ | ⟨h, -⟩)
      · exact h
      · omega
      · omega
  · have hnum := hover (by omega)
    by_cases hwrap : max_vecs + 1 = 2 ^ 32
    · rw [hwrap, Nat.mod_self] at hnum
      rw [hnum, if_pos (Nat.zero_le _)]
      refine (madeIovecs_wrapped_iff hlen).trans ?_
      constructor
      · exact fun h => .inr (.inr ⟨by omega, hwrap, h⟩)
      · rintro (⟨h, -⟩ | ⟨-, h⟩ | ⟨-, -, h⟩)
        · omega
        · omega
        · exact h
    · rw [Nat.mod_eq_of_lt (by omega)] at hnum
      rw [hnum, if_neg (by omega), madeIovecs_overflow_iff]
      constructor
      · exact fun h => .inr (.inl ⟨h, by omega⟩)
      · rintro (⟨h, -⟩ | ⟨h, -⟩ | ⟨-, h, -⟩)
        · omega
        · exact h
        · omega

end

/-- The six bytes up to the end of the packet. -/
theorem make_iovecs_iff_mixedPacket :
    ∃ r, (makeIovecs smallConfig 2 mixedPacket 8 6 3).run smallState = .ok r smallState ∧
      MadeIovecs smallState.mgr.mem mixedPacket 8 6 3 r := by
  have hobjs : ∀ o ∈ mixedPacket.objs, o.2 < smallConfig.pvbuf_max_objs o.1 := by decide
  obtain ⟨r, hrun, hiff⟩ := make_iovecs_iff mixedPacket_wf (Nat.le_refl 2) hobjs smallState 8 6 3
    (by decide) (by decide)
  exact ⟨r, hrun, hiff.mpr (.inl ⟨by decide, by decide, .inl (by decide)⟩)⟩

/-- Two bytes of the packet are asked for, which are in its first leaf; the iovecs are for six. -/
theorem makeIovecs_too_many :
    spans 0 (0 + 2) 0 mixedPacket.segs = 1 ∧
    ∃ r, (makeIovecs smallConfig 2 mixedPacket 8 2 0).run smallState = .ok r smallState ∧ r.1 = 3 ∧
      r.2.flatMap (SysIovec.bytes smallState.mgr.mem) = [8, 9, 16, 17, 32, 33] ∧
      ((mixedPacket.contents smallState.mgr.mem).drop 0).take 2 = [8, 9] :=
  ⟨by decide, _, rfl, rfl, rfl, rfl⟩

end Xdp2
