import Xdp2.Pvbuf.Compress
import Xdp2.Lib.ListEnd

/-!
# Leaves that give up bytes

A leaf that loses bytes at one end, fewer than it has, keeps its fields in range, so it is a leaf
with the bytes left and the reference it had (`Trim`).
-/

namespace Xdp2

open ListEnd

/-! ## Fields -/

theorem block_add (ho : o < 2 ^ w) (hs : s ≤ w) (hn : o % 2 ^ s + n < 2 ^ s) :
    o + n < 2 ^ w ∧ (o + n) / 2 ^ s = o / 2 ^ s ∧ (o + n) % 2 ^ s = o % 2 ^ s + n := by
  have hpos := Nat.two_pow_pos s
  have hsum : o + n = 2 ^ s * (o / 2 ^ s) + (o % 2 ^ s + n) := by
    rw [← Nat.add_assoc, Nat.div_add_mod]
  have hdiv : (o + n) / 2 ^ s = o / 2 ^ s := by
    rw [hsum, Nat.mul_add_div hpos, Nat.div_eq_of_lt hn, Nat.add_zero]
  refine ⟨?_, hdiv, ?_⟩
  · have hw : 2 ^ w = 2 ^ (w - s) * 2 ^ s := by rw [← Nat.pow_add, Nat.sub_add_cancel hs]
    rw [hw] at ho ⊢
    refine Nat.lt_mul_of_div_lt ?_ hpos
    rw [hdiv]
    exact (Nat.div_lt_iff_lt_mul hpos).mpr ho
  · rw [hsum, Nat.mul_add_mod, Nat.mod_eq_of_lt hn]

theorem toNat_sub_ofNat {v : BitVec w} (h : n ≤ v.toNat) :
    (v - BitVec.ofNat w n).toNat = v.toNat - n := by
  have hn : (BitVec.ofNat w n).toNat = n := by
    rw [BitVec.toNat_ofNat, Nat.mod_eq_of_lt (Nat.lt_of_le_of_lt h v.isLt)]
  rw [BitVec.toNat_sub_of_le (by rwa [BitVec.le_def, hn]), hn]

theorem toNat_add_ofNat (h : v.toNat + n < 2 ^ w) :
    (v + BitVec.ofNat w n).toNat = v.toNat + n := by
  rw [BitVec.toNat_add, BitVec.toNat_ofNat, Nat.add_mod_mod, Nat.mod_eq_of_lt h]

theorem LongAddr.offset_eq (a : LongAddr) (b : LongAddr2) :
    a.offset b = a.high_offset.toNat * 2 ^ 48 + b.low_offset.toNat := by
  rw [LongAddr.offset, ← Nat.shiftLeft_add_eq_or_of_lt b.low_offset.isLt, Nat.shiftLeft_eq]

theorem LongAddr.offset_setOffset (a : LongAddr) (b : LongAddr2) (ho : o < 2 ^ 64) :
    (a.setOffset o).offset (b.setOffset o) = o := by
  rw [LongAddr.offset_eq, LongAddr.setOffset, LongAddr2.setOffset, Nat.and_two_pow_sub_one_eq_mod]
  simp only [BitVec.toNat_ofNat, Nat.shiftRight_eq_div_pow]
  omega

/-! ## Trimmed leaves -/

/-- `t` is the leaf `s` cut down to the `len` bytes from the offset `off` on. -/
structure Trim (s : Seg) (off len : Nat) (t : Seg) : Prop where
  region : ∀ mem, t.region mem = s.region mem
  offset : t.offset = s.offset + off
  len : t.len = len
  refs : t.refs = s.refs
  fits : t.Fits
  slots : (IovEntry.seg t).slots.length = (IovEntry.seg s).slots.length

/-- A leaf without its first `n` bytes. -/
def Seg.dropFront (n : Nat) : Seg → Seg
  | pbuf a => .pbuf { a with
      offset := a.offset + BitVec.ofNat 36 n
      data_length := a.data_length - BitVec.ofNat 20 n }
  | short a => .short { a with
      offset := a.offset + BitVec.ofNat 44 n
      data_length := a.data_length - BitVec.ofNat 18 n }
  | long a b => .long
      { a.setOffset ((a.offset b + n) % 2 ^ 64) with data_length := a.data_length - BitVec.ofNat 32 n }
      (b.setOffset ((a.offset b + n) % 2 ^ 64))

/-- A leaf without its last `n` bytes. -/
def Seg.dropBack (n : Nat) : Seg → Seg
  | pbuf a => .pbuf { a with data_length := a.data_length - BitVec.ofNat 20 n }
  | short a => .short { a with data_length := a.data_length - BitVec.ofNat 18 n }
  | long a b => .long { a with data_length := a.data_length - BitVec.ofNat 32 n } b

theorem PbufAddr.dataLen_sub {a b : PbufAddr} {n : Nat} (htag : b.buffer_tag = a.buffer_tag)
    (hlen : b.data_length = a.data_length - BitVec.ofNat 20 n) (hn : n < a.dataLen) :
    b.dataLen = a.dataLen - n := by
  have hfull : a.isFull.toNat ≤ 1 := Bool.toNat_le _
  rw [PbufAddr.dataLen] at hn
  rw [PbufAddr.dataLen, PbufAddr.dataLen, hlen, toNat_sub_ofNat (by omega), PbufAddr.isFull, htag,
    ← PbufAddr.isFull]
  omega

theorem PbufAddr.sizeShift_le (a : PbufAddr) : a.sizeShift ≤ 36 := by
  have := a.buffer_tag.isLt
  rw [PbufAddr.sizeShift, PbufAddr.btag]
  omega

theorem Seg.dropFront_trim {s : Seg} {n : Nat} (hfit : s.Fits) (hn : n < s.len) :
    Trim s n (s.len - n) (s.dropFront n) := by
  cases s with
  | pbuf a =>
    simp only [Seg.Fits, Seg.len] at hfit hn
    obtain ⟨hlt, hdiv, hmod⟩ := block_add (n := n) a.offset.isLt a.sizeShift_le (by omega)
    have hoff := toNat_add_ofNat hlt
    have hlen := PbufAddr.dataLen_sub (a := a) (b := { a with
      offset := a.offset + BitVec.ofNat 36 n
      data_length := a.data_length - BitVec.ofNat 20 n }) rfl rfl hn
    refine ⟨fun _ => rfl, hoff, hlen, ?_, ?_, rfl⟩
    · rw [← Nat.shiftRight_eq_div_pow, ← Nat.shiftRight_eq_div_pow, ← hoff] at hdiv
      exact congrArg (fun z => [Ref.mk a.btag z a.one_ref]) hdiv
    · rw [← hoff] at hmod
      refine Nat.le_trans (Nat.le_of_eq ?_) hfit
      calc _ = (a.offset.toNat % 2 ^ a.sizeShift + n) + (a.dataLen - n) :=
            congrArg₂ (· + ·) hmod hlen
        _ = _ := by omega
  | short a =>
    simp only [Seg.Fits, Seg.len, ShortAddr.dataLen] at hfit hn
    have hoff := toNat_add_ofNat (v := a.offset) (n := n) (by omega)
    have hlen := toNat_sub_ofNat (v := a.data_length) (n := n) (by omega)
    refine ⟨fun _ => rfl, hoff, ?_, rfl, ?_, rfl⟩
    · simp only [Seg.dropFront, Seg.len, ShortAddr.dataLen, hlen]
      omega
    · simp only [Seg.dropFront, Seg.Fits, ShortAddr.dataLen, hlen, hoff]
      omega
  | long a b =>
    simp only [Seg.Fits, Seg.len] at hfit hn
    have hlen := toNat_sub_ofNat (v := a.data_length) (n := n) (by omega)
    have hoff : (a.setOffset ((a.offset b + n) % 2 ^ 64)).offset
        (b.setOffset ((a.offset b + n) % 2 ^ 64)) = a.offset b + n :=
      (LongAddr.offset_setOffset a b (Nat.mod_lt _ (Nat.two_pow_pos 64))).trans
        (Nat.mod_eq_of_lt (by omega))
    refine ⟨fun _ => rfl, hoff, hlen, rfl, ?_, rfl⟩
    refine Nat.le_trans (Nat.le_of_eq ?_) hfit
    calc _ = (a.offset b + n) + (a.data_length.toNat - n) := congrArg₂ (· + ·) hoff hlen
      _ = _ := by omega

theorem Seg.dropBack_trim {s : Seg} {n : Nat} (hfit : s.Fits) (hn : n < s.len) :
    Trim s 0 (s.len - n) (s.dropBack n) := by
  cases s with
  | pbuf a =>
    simp only [Seg.Fits, Seg.len] at hfit hn
    have hlen := PbufAddr.dataLen_sub (a := a) (b := { a with
      data_length := a.data_length - BitVec.ofNat 20 n }) rfl rfl hn
    refine ⟨fun _ => rfl, rfl, hlen, rfl, ?_, rfl⟩
    exact Nat.le_trans (Nat.add_le_add_left (hlen.trans_le (Nat.sub_le _ _)) _) hfit
  | short a =>
    simp only [Seg.Fits, Seg.len, ShortAddr.dataLen] at hfit hn
    have hlen := toNat_sub_ofNat (v := a.data_length) (n := n) (by omega)
    refine ⟨fun _ => rfl, rfl, ?_, rfl, ?_, rfl⟩
    · simp only [Seg.dropBack, Seg.len, ShortAddr.dataLen, hlen]
      omega
    · simp only [Seg.dropBack, Seg.Fits, ShortAddr.dataLen, hlen]
      omega
  | long a b =>
    simp only [Seg.Fits, Seg.len] at hfit hn
    have hlen := toNat_sub_ofNat (v := a.data_length) (n := n) (by omega)
    refine ⟨fun _ => rfl, rfl, hlen, rfl, ?_, rfl⟩
    exact Nat.le_trans (Nat.add_le_add_left (hlen.trans_le (Nat.sub_le _ _)) _) hfit

/-! ## Bytes -/

section
variable (mem : Mem)

@[simp] theorem length_readBytes (f : Nat → UInt8) (o l : Nat) : (readBytes f o l).length = l := by
  simp [readBytes]

theorem drop_readBytes (f : Nat → UInt8) (o l n : Nat) :
    (readBytes f o l).drop n = readBytes f (o + n) (l - n) := by
  rw [readBytes, readBytes, ← List.map_drop, List.drop_range', Nat.mul_one]

theorem take_readBytes (f : Nat → UInt8) (o : Nat) (h : n ≤ l) :
    (readBytes f o l).take n = readBytes f o n := by
  obtain ⟨k, rfl⟩ := Nat.exists_eq_add_of_le h
  rw [readBytes, readBytes, ← List.range'_append_1, List.map_append,
    List.take_left' (by simp)]

@[simp] theorem Seg.length_bytes (s : Seg) : (s.bytes mem).length = s.len := length_readBytes _ _ _

theorem Trim.bytes {len : Nat} (h : Trim s off len t) :
    t.bytes mem = readBytes (s.region mem) (s.offset + off) len := by
  rw [Seg.bytes, h.region, h.offset, h.len]

theorem Seg.bytes_dropFront {s : Seg} (hfit : s.Fits) (hn : n < s.len) :
    (s.dropFront n).bytes mem = keep .front n (s.bytes mem) := by
  rw [(Seg.dropFront_trim hfit hn).bytes, keep, Seg.bytes, drop_readBytes]

theorem Seg.bytes_dropBack {s : Seg} (hfit : s.Fits) (hn : n < s.len) :
    (s.dropBack n).bytes mem = keep .back n (s.bytes mem) := by
  rw [(Seg.dropBack_trim hfit hn).bytes, keep, Seg.length_bytes, Seg.bytes,
    take_readBytes _ _ (Nat.sub_le _ _), Nat.add_zero]

@[simp] theorem segBytes_nil : segBytes mem [] = [] := rfl

@[simp] theorem segBytes_cons (s : Seg) (l : List Seg) :
    segBytes mem (s :: l) = s.bytes mem ++ segBytes mem l := List.flatMap_cons

@[simp] theorem segBytes_append (l l' : List Seg) :
    segBytes mem (l ++ l') = segBytes mem l ++ segBytes mem l' := List.flatMap_append

@[simp] theorem length_segBytes (l : List Seg) : (segBytes mem l).length = segsLen l := by
  induction l with
  | nil => rfl
  | cons s l ih => rw [segBytes_cons, List.length_append, ih, Seg.length_bytes]; rfl

end

theorem Owns.bytes_eq {s : Seg} (h : Owns c mem m (s.refs ++ refs) objs) (hfit : s.Fits) :
    s.bytes m.mem = s.bytes mem := by
  cases s with
  | pbuf a =>
    refine List.map_congr_left fun o ho => ?_
    obtain ⟨hle, hlt⟩ := List.mem_range'_1.mp ho
    obtain ⟨k, rfl⟩ := Nat.exists_eq_add_of_le hle
    simp only [Seg.offset, Seg.len, Seg.Fits] at hlt hfit
    refine h.pbuf a.ref List.mem_cons_self _ ?_
    have hdiv := (block_add (n := k) a.offset.isLt a.sizeShift_le (by omega)).2.1
    rwa [← Nat.shiftRight_eq_div_pow, ← Nat.shiftRight_eq_div_pow] at hdiv
  | short a => simp only [Seg.bytes, Seg.region, h.short]
  | long a b => simp only [Seg.bytes, Seg.region, h.long]

/-! ## Leaves in their slots -/

theorem Slots.set_long (h : Slots pv (l1 ++ .long a :: .long2 b :: l2)) (hi : l1.length = i) :
    Slots ((pv.set i (.long a')).set (i + 1) (.long2 b')) (l1 ++ .long a' :: .long2 b' :: l2) := by
  have hsplit : ∀ y : Iovec, l1 ++ .long a' :: y :: l2 = (l1 ++ [.long a']) ++ y :: l2 := by simp
  have h' := h.set (y := .long a') hi rfl
  rw [hsplit] at h' ⊢
  exact h'.set (by simp [hi]) rfl

theorem dropFront_run (h : Slots pv (l1 ++ ((IovEntry.seg s).slots ++ l2))) (hi : l1.length = i)
    (n : Nat) (st : PvSt) :
    ∃ pv', (dropFront pv i n).run st = .ok pv' st ∧ pv'.obj = pv.obj ∧
      Slots pv' (l1 ++ ((IovEntry.seg (s.dropFront n)).slots ++ l2)) := by
  rw [dropFront]
  cases s with
  | pbuf a =>
    rw [h.get_at (x := .pbuf a) hi]
    exact ⟨_, rfl, rfl, h.set hi rfl⟩
  | short a =>
    rw [h.get_at (x := .short a) hi]
    exact ⟨_, rfl, rfl, h.set hi rfl⟩
  | long a b =>
    rw [h.get_at (x := .long a) hi, h.get_succ (x := .long a) (y := .long2 b) hi]
    exact ⟨_, rfl, rfl, h.set_long hi⟩

theorem dropBack_run (h : Slots pv (l1 ++ ((IovEntry.seg s).slots ++ l2))) (hi : l1.length = i)
    (n : Nat) (st : PvSt) :
    ∃ pv', (dropBack pv i n).run st = .ok pv' st ∧ pv'.obj = pv.obj ∧
      Slots pv' (l1 ++ ((IovEntry.seg (s.dropBack n)).slots ++ l2)) := by
  rw [dropBack]
  cases s with
  | pbuf a =>
    rw [h.get_at (x := .pbuf a) hi]
    exact ⟨_, rfl, rfl, h.set hi rfl⟩
  | short a =>
    rw [h.get_at (x := .short a) hi]
    exact ⟨_, rfl, rfl, h.set hi rfl⟩
  | long a b =>
    rw [h.get_at (x := .long a) hi]
    exact ⟨_, rfl, rfl, h.set hi rfl⟩

end Xdp2
