import Mathlib.Data.List.Nodup
import Mathlib.Data.List.Perm.Basic
import Mathlib.Tactic.Linarith
import Xdp2.ObjAlloc.Allocator

/-!
# The free list and the outstanding objects

The free list and the outstanding objects are together all objects, whatever is written to
outstanding ones (`objAlloc_partition`): the invariant `ObjSystem.Sound` is that the free list is
linked through the memory and with the outstanding objects is a permutation of all objects.
-/

namespace Xdp2

open Memory

variable (translators : Nat → Nat) {num_objs obj_size : Nat} {pool : ObjPool num_objs obj_size}
  {s : ObjSystem}

/-! ## Objects -/

/-- The addresses of the objects. -/
def ObjPool.objs (pool : ObjPool num_objs obj_size) : List Nat := List.range' pool.base num_objs obj_size

theorem ObjPool.mem_objs : obj ∈ pool.objs ↔ ∃ i < num_objs, obj = pool.base + obj_size * i :=
  List.mem_range'

theorem ObjPool.objs_nodup (hsize : 0 < obj_size) : pool.objs.Nodup := List.nodup_range' _ hsize

theorem ObjPool.obj_range (hobj : obj ∈ pool.objs) :
    pool.base ≤ obj ∧ obj + obj_size ≤ pool.base + num_objs * obj_size := by
  obtain ⟨i, hi, rfl⟩ := mem_objs.mp hobj
  have hmul : obj_size * (i + 1) ≤ obj_size * num_objs := Nat.mul_le_mul_left _ hi
  rw [Nat.mul_succ, Nat.mul_comm obj_size num_objs] at hmul
  omega

theorem ObjPool.objs_apart (ha : a ∈ pool.objs) (hb : b ∈ pool.objs) (hne : a ≠ b) :
    a + obj_size ≤ b ∨ b + obj_size ≤ a := by
  obtain ⟨i, -, rfl⟩ := mem_objs.mp ha
  obtain ⟨j, -, rfl⟩ := mem_objs.mp hb
  rcases Nat.lt_trichotomy i j with hlt | rfl | hlt
  · have hmul : obj_size * (i + 1) ≤ obj_size * j := Nat.mul_le_mul_left _ hlt
    rw [Nat.mul_succ] at hmul
    omega
  · exact (hne rfl).elim
  · have hmul : obj_size * (j + 1) ≤ obj_size * i := Nat.mul_le_mul_left _ hlt
    rw [Nat.mul_succ] at hmul
    omega

theorem loadPtr_storePtr_self (hptr : ptr < 2 ^ 64) :
    loadPtr (storePtr mem addr ptr) addr = ptr :=
  load_store (by exact hptr)

theorem loadPtr_storePtr_of_apart (h : addr + 8 ≤ addr' ∨ addr' + 8 ≤ addr) :
    loadPtr (storePtr mem addr ptr) addr' = loadPtr mem addr' :=
  load_store_of_disjoint h

theorem chain_range' (ha : 0 < a)
    (hnext : ∀ i < k, next (a + obj_size * i) = a + obj_size * (i + 1))
    (hlast : next (a + obj_size * k) = 0) :
    Chain next a (List.range' a (k + 1) obj_size) := by
  induction k generalizing a with
  | zero => exact ⟨rfl, Nat.ne_of_gt ha, hlast⟩
  | succ k ih =>
    rw [List.range'_succ]
    refine ⟨rfl, Nat.ne_of_gt ha, ?_⟩
    have hfirst := hnext 0 (Nat.succ_pos k)
    simp only [Nat.mul_zero, Nat.add_zero, Nat.zero_add, Nat.mul_one] at hfirst
    rw [hfirst]
    have hshift : ∀ i, a + obj_size + obj_size * i = a + obj_size * (i + 1) := fun i => by ring
    refine ih (by omega) (fun i hi => ?_) ?_
    · rw [hshift, hshift]
      exact hnext (i + 1) (by omega)
    · rw [hshift]
      exact hlast

/-! ## The start -/

theorem addrXlatTranslate_of_neg (h : num < 0) (addr : Nat) :
    addrXlatTranslate translators num addr = some addr := if_pos (.inl h)

theorem addrXlatReverseTranslate_of_neg (h : num < 0) (addr : Nat) :
    addrXlatReverseTranslate translators num addr = some addr := if_pos (.inl h)

theorem linkObjs_eq (hnum : num < 0) (hsize : 8 ≤ obj_size) (mem : Mem) (hi : i + rest < 2 ^ 31)
    (hfits : obj + obj_size * rest < 2 ^ 64) :
    ∃ mem', linkObjs translators num obj_size rest i obj mem = some (obj + obj_size * rest, mem') ∧
      (∀ j < rest, loadPtr mem' (obj + obj_size * j) = obj + obj_size * (j + 1)) ∧
      ∀ x < obj, mem' x = mem x := by
  induction rest generalizing i obj mem with
  | zero => exact ⟨mem, rfl, fun j hj => (Nat.not_lt_zero j hj).elim, fun x _ => rfl⟩
  | succ rest ih =>
    have hshift : ∀ j, obj + obj_size + obj_size * j = obj + obj_size * (j + 1) := fun j => by ring
    rw [← hshift] at hfits
    obtain ⟨mem', hlink, hnext, hkeep⟩ :=
      ih (i := i + 1) (storePtr mem obj (obj + obj_size)) (by omega) hfits
    refine ⟨mem', ?_, fun j hj => ?_, fun x hx => ?_⟩
    · rw [linkObjs, addrXlatReverseTranslate_of_neg translators hnum, Option.bind_eq_bind, Option.bind_some,
        if_neg (by omega), hlink, hshift]
    · cases j with
      | zero =>
        simp only [Nat.mul_zero, Nat.add_zero, Nat.zero_add, Nat.mul_one]
        have hfirst : loadPtr mem' obj = loadPtr (storePtr mem obj (obj + obj_size)) obj :=
          load_congr fun x _ hlt => hkeep x (by omega)
        rw [hfirst, loadPtr_storePtr_self (by omega)]
      | succ j =>
        rw [← hshift, ← hshift]
        exact hnext j (by omega)
    · rw [hkeep x (by omega)]
      exact store_of_outside (.inl hx)

/-- The fields that stay as they are set at the start. -/
structure ObjAllocator.For (allocator : ObjAllocator) (pool : ObjPool num_objs obj_size) : Prop where
  magic : allocator.magic_num = objAllocMagicNum
  max_objs : allocator.max_objs = num_objs
  obj_size : allocator.obj_size = obj_size
  base_index : allocator.base_index = objAllocBaseIndex
  no_xlat : allocator.addr_xlat_num < 0
  base : allocator.base = pool.base

/-- The free list is in the memory, and is with the outstanding objects a permutation of all objects. -/
structure ObjSystem.Sound (s : ObjSystem) (pool : ObjPool num_objs obj_size) : Prop where
  config : s.allocator.For pool
  parts : ∃ free, Chain (loadPtr s.mem) s.allocator.free_list free ∧ free.length = s.allocator.num_free ∧
    (free ++ s.outstanding).Perm pool.objs

theorem objAllocFreeListInit_sound (pool : ObjPool num_objs obj_size) (hpos : 1 ≤ num_objs)
    (hlt : num_objs < 2 ^ 31) (hsize : 8 ≤ obj_size) (hnum : num < 0) (allocator : ObjAllocator)
    (mem : Mem) :
    ∃ allocator' mem', objAllocFreeListInit translators (some pool) allocator mem num =
      some (some (allocator', mem')) ∧ ObjSystem.Sound ⟨allocator', mem', []⟩ pool := by
  obtain ⟨k, rfl⟩ : ∃ k, num_objs = k + 1 := ⟨num_objs - 1, by omega⟩
  have hfits := pool.fits
  have hmul : (k + 1) * obj_size = obj_size * k + obj_size := by ring
  obtain ⟨mem', hlink, hnext, -⟩ : ∃ mem', linkObjs translators num obj_size k 0 pool.base mem =
      some (pool.base + obj_size * k, mem') ∧ _ := linkObjs_eq translators hnum hsize mem (by omega) (by omega)
  have hrest : (k + 1 + 2 ^ 32 - 1) % 2 ^ 32 = k := by omega
  have hinit : objAllocFreeListInit translators (some pool) allocator mem num =
      some (some (⟨objAllocMagicNum, k + 1, obj_size, objAllocBaseIndex, num, pool.base, pool.base, k + 1,
        allocator.allocs, allocator.alloc_fails⟩, storePtr mem' (pool.base + obj_size * k) 0)) := by
    rw [objAllocFreeListInit, allocObjects, if_neg (by omega)]
    dsimp only
    rw [objAllocFreeListInitAt, hrest, hlink, objAllocCommonInit, addrXlatReverseTranslate_of_neg translators hnum]
    rfl
  refine ⟨_, _, hinit, ⟨rfl, rfl, rfl, rfl, hnum, rfl⟩, pool.objs, ?_, ?_, ?_⟩
  · dsimp only
    refine chain_range' pool.pos (fun i hi => ?_) (loadPtr_storePtr_self (by decide))
    rw [loadPtr_storePtr_of_apart, hnext i hi]
    have hmul' : obj_size * (i + 1) ≤ obj_size * k := Nat.mul_le_mul_left _ hi
    rw [Nat.mul_succ] at hmul'
    omega
  · exact List.length_range'
  · rw [List.append_nil]

/-! ## Steps -/

theorem ObjSystem.Sound.mem_objs (h : s.Sound pool) (hobj : obj ∈ s.outstanding) : obj ∈ pool.objs := by
  obtain ⟨free, -, -, hperm⟩ := h.parts
  exact hperm.mem_iff.mp (List.mem_append_right free hobj)

theorem ObjAllocator.For.objToIndex (h : allocator.For pool) (hsize : 0 < obj_size)
    (hlt : num_objs < 2 ^ 31) (hi : i < num_objs) :
    objAllocObjToIndex translators allocator (pool.base + obj_size * i) = some (i + 1) := by
  have hrange := pool.obj_range (pool.mem_objs.mpr ⟨i, hi, rfl⟩)
  have hfits := pool.fits
  have hsub : (pool.base + obj_size * i + 2 ^ 64 - pool.base) % 2 ^ 64 = obj_size * i := by
    have hpos := pool.pos
    omega
  rw [objAllocObjToIndex, if_neg (not_not.mpr h.magic), addrXlatTranslate_of_neg translators h.no_xlat, Option.map_some,
    h.base, h.obj_size, h.base_index, hsub, Nat.mul_div_cancel_left i hsize]
  exact congrArg some (Nat.mod_eq_of_lt (by rw [objAllocBaseIndex]; omega))

theorem ObjAllocator.For.indexToObj (h : allocator.For pool) (hsize : 0 < obj_size)
    (hlt : num_objs < 2 ^ 31) (hi : i < num_objs) :
    objAllocIndexToObj translators allocator (i + 1) = some (pool.base + obj_size * i) := by
  have hrange := pool.obj_range (pool.mem_objs.mpr ⟨i, hi, rfl⟩)
  have hfits := pool.fits
  have hpos := pool.pos
  have hsub : (i + 1 + 2 ^ 32 - 1) % 2 ^ 32 = i := by omega
  rw [objAllocIndexToObj, if_neg (not_not.mpr h.magic), h.base_index, h.max_objs,
    if_pos (by rw [objAllocBaseIndex]; omega), addrXlatTranslate_of_neg translators h.no_xlat, Option.map_some, h.base,
    objAllocIndexToOffset, h.base_index, h.obj_size, objAllocBaseIndex, hsub, Nat.mul_comm i,
    Nat.mod_eq_of_lt (by omega)]

theorem ObjSystem.Sound.alloc (h : s.Sound pool) (hsize : 0 < obj_size) (hlt : num_objs < 2 ^ 31) :
    (∃ allocator, objAllocFreeListAlloc translators s.allocator s.mem = some (allocator, none) ∧
      s.outstanding.Perm pool.objs ∧ ObjSystem.Sound { s with allocator := allocator } pool) ∨
    ∃ allocator i, i < num_objs ∧ objAllocFreeListAlloc translators s.allocator s.mem =
        some (allocator, some (pool.base + obj_size * i, i + 1)) ∧
      pool.base + obj_size * i ∉ s.outstanding ∧
      ObjSystem.Sound { s with
        allocator := allocator
        outstanding := (pool.base + obj_size * i) :: s.outstanding } pool := by
  obtain ⟨free, hchain, hlen, hperm⟩ := h.parts
  by_cases hnone : s.allocator.num_free = 0
  · left
    obtain rfl : free = [] := List.eq_nil_of_length_eq_zero (hlen.trans hnone)
    refine ⟨{ s.allocator with alloc_fails := (s.allocator.alloc_fails + 1) % 2 ^ 64 }, ?_, hperm, ?_⟩
    · rw [objAllocFreeListAlloc, if_neg (not_not.mpr h.config.magic), if_pos hnone]
    · obtain ⟨hmagic, hmax, hobj, hindex, hxlat, hbase⟩ := h.config
      exact ⟨⟨hmagic, hmax, hobj, hindex, hxlat, hbase⟩, [], hchain, hlen, hperm⟩
  · right
    obtain ⟨rest, rfl, hfirst, hrest⟩ := hchain.exists_cons fun hnil => hnone (by rw [← hlen, hnil]; rfl)
    obtain ⟨i, hi, hobj⟩ := pool.mem_objs.mp (hperm.mem_iff.mp List.mem_cons_self)
    have hnodup := (hperm.nodup_iff.mpr (pool.objs_nodup hsize))
    rw [List.length_cons] at hlen
    let allocator : ObjAllocator :=
      { s.allocator with
        free_list := loadPtr s.mem s.allocator.free_list
        num_free := s.allocator.num_free - 1
        allocs := (s.allocator.allocs + 1) % 2 ^ 64 }
    have hconfig : allocator.For pool :=
      ⟨h.config.magic, h.config.max_objs, h.config.obj_size, h.config.base_index, h.config.no_xlat,
        h.config.base⟩
    rw [hobj] at hperm hnodup
    refine ⟨allocator, i, hi, ?_, ?_, hconfig, rest, hrest, ?_, ?_⟩
    · rw [objAllocFreeListAlloc, if_neg (not_not.mpr h.config.magic), if_neg hnone,
        addrXlatTranslate_of_neg translators h.config.no_xlat, Option.bind_eq_bind, Option.bind_some, if_neg hfirst]
      have hindex := hconfig.objToIndex translators hsize hlt hi
      rw [← hobj] at hindex ⊢
      dsimp only
      rw [hindex]
      rfl
    · intro hout
      exact (List.nodup_cons.mp hnodup).1 (List.mem_append_right rest hout)
    · exact (by omega : rest.length = s.allocator.num_free - 1)
    · exact List.perm_middle.trans hperm

theorem ObjSystem.Sound.chain_congr {free : List Nat} {mem : Mem} {p : Nat} (hsize : 8 ≤ obj_size)
    (hchain : Chain (loadPtr s.mem) p free)
    (hmem : ∀ a ∈ free, ∀ x, a ≤ x → x < a + obj_size → mem x = s.mem x) : Chain (loadPtr mem) p free :=
  hchain.congr fun a ha => load_congr fun x hle hlt => hmem a ha x hle (by omega)

theorem ObjSystem.Sound.free (h : s.Sound pool) (hsize : 8 ≤ obj_size) (hlt : num_objs < 2 ^ 31) {obj : Nat}
    (hobj : obj ∈ s.outstanding) :
    ∃ allocator mem, objAllocFreeListFree translators s.allocator s.mem obj = some (allocator, mem) ∧
      ObjSystem.Sound ⟨allocator, mem, s.outstanding.erase obj⟩ pool := by
  obtain ⟨free, hchain, hlen, hperm⟩ := h.parts
  have hnodup := hperm.nodup_iff.mpr (pool.objs_nodup (by omega))
  obtain ⟨-, -, hdisjoint⟩ := List.nodup_append.mp hnodup
  have hin := h.mem_objs hobj
  have hfree : ∀ a ∈ free, a ∈ pool.objs := fun a ha => hperm.mem_iff.mp (List.mem_append_left _ ha)
  have hpos := pool.pos
  have hfits := pool.fits
  let allocator : ObjAllocator :=
    { s.allocator with free_list := obj, num_free := (s.allocator.num_free + 1) % 2 ^ 32 }
  let mem := storePtr s.mem obj s.allocator.free_list
  have hconfig : allocator.For pool :=
    ⟨h.config.magic, h.config.max_objs, h.config.obj_size, h.config.base_index, h.config.no_xlat, h.config.base⟩
  refine ⟨allocator, mem, ?_, hconfig, obj :: free, ⟨rfl, ?_, ?_⟩, ?_, ?_⟩
  · rw [objAllocFreeListFree, if_neg (not_not.mpr h.config.magic),
      addrXlatReverseTranslate_of_neg translators h.config.no_xlat]
    rfl
  · have hrange := pool.obj_range hin
    omega
  · have hhead : s.allocator.free_list < 2 ^ 64 := by
      cases free with
      | nil =>
        have hzero : s.allocator.free_list = 0 := hchain
        rw [hzero]
        decide
      | cons a rest =>
        have hrange := pool.obj_range (hfree a List.mem_cons_self)
        rw [hchain.1]
        omega
    dsimp only [mem]
    rw [loadPtr_storePtr_self hhead]
    refine chain_congr hsize hchain fun a ha x hle hlt' => store_of_outside ?_
    have happart := pool.objs_apart (hfree a ha) hin (hdisjoint a ha obj hobj)
    omega
  · have hcount := hperm.length_eq
    rw [List.length_append, ObjPool.objs, List.length_range'] at hcount
    dsimp only [allocator]
    rw [List.length_cons, hlen]
    omega
  · have herase : (free ++ s.outstanding).Perm (free ++ obj :: s.outstanding.erase obj) :=
      (List.perm_cons_erase hobj).append_left free
    exact List.perm_middle.symm.trans (herase.symm.trans hperm)

theorem ObjSystem.Sound.write (h : s.Sound pool) (hsize : 8 ≤ obj_size)
    (hlegal : (ObjCall.write addr byte).Legal s) :
    ObjSystem.Sound { s with mem := Function.update s.mem addr byte } pool := by
  obtain ⟨free, hchain, hlen, hperm⟩ := h.parts
  have hnodup := hperm.nodup_iff.mpr (pool.objs_nodup (by omega))
  obtain ⟨-, -, hdisjoint⟩ := List.nodup_append.mp hnodup
  refine ⟨h.config, free, chain_congr hsize hchain fun a ha x hle hlt => Function.update_of_ne ?_ _ _, hlen,
    hperm⟩
  intro hx
  have hin : a ∈ pool.objs := hperm.mem_iff.mp (List.mem_append_left _ ha)
  have hrange := pool.obj_range hin
  rcases hlegal with ⟨obj, hobj, hle', hlt'⟩ | hbelow | hbehind
  · rw [h.config.obj_size] at hlt'
    have happart := pool.objs_apart hin (h.mem_objs hobj) (hdisjoint a ha obj hobj)
    omega
  · rw [h.config.base] at hbelow
    omega
  · rw [h.config.base, h.config.max_objs, h.config.obj_size] at hbehind
    omega

theorem ObjSystem.Sound.step (h : s.Sound pool) (hsize : 8 ≤ obj_size) (hlt : num_objs < 2 ^ 31)
    {call : ObjCall} (hlegal : call.Legal s) :
    ∃ s', objStep translators s call = some s' ∧ s'.Sound pool := by
  cases call with
  | alloc =>
    rcases h.alloc translators (by omega) hlt with ⟨allocator, halloc, -, hsound⟩ |
      ⟨allocator, i, -, halloc, -, hsound⟩
    · exact ⟨_, by rw [objStep, halloc]; rfl, hsound⟩
    · exact ⟨_, by rw [objStep, halloc]; rfl, hsound⟩
  | free obj =>
    obtain ⟨allocator, mem, hfree, hsound⟩ := h.free translators hsize hlt hlegal
    exact ⟨_, by rw [objStep, hfree]; rfl, hsound⟩
  | write addr byte => exact ⟨_, rfl, h.write hsize hlegal⟩

theorem ObjSystem.Sound.run (h : s.Sound pool) (hsize : 8 ≤ obj_size) (hlt : num_objs < 2 ^ 31)
    (hlegal : ObjRunLegal translators s calls) :
    ∃ s', objRun translators s calls = some s' ∧ s'.Sound pool := by
  induction calls generalizing s with
  | nil => exact ⟨s, rfl, h⟩
  | cons call calls ih =>
    obtain ⟨s', hstep, hsound⟩ := h.step translators hsize hlt hlegal.1
    obtain ⟨s'', hrun, hsound'⟩ := ih hsound (hlegal.2 s' hstep)
    exact ⟨s'', by rw [objRun, hstep]; exact hrun, hsound'⟩

/-! ## What holds -/

/-- The free list holds as many distinct objects as are counted, and with the outstanding ones,
which are others, all objects. An allocation fails just if all are outstanding, and returns no
outstanding one. Indices and objects are converted into each other. -/
structure ObjSystem.Right (pool : ObjPool num_objs obj_size) (s : ObjSystem) : Prop where
  parts : ∃ free, Chain (loadPtr s.mem) s.allocator.free_list free ∧ free.length = s.allocator.num_free ∧
    free.Nodup ∧ s.outstanding.Nodup ∧ (∀ obj ∈ free, obj ∉ s.outstanding) ∧
    ∀ obj, obj ∈ pool.objs ↔ obj ∈ free ∨ obj ∈ s.outstanding
  alloc : ∃ allocator result, objAllocFreeListAlloc translators s.allocator s.mem = some (allocator, result) ∧
    (result = none ↔ ∀ obj ∈ pool.objs, obj ∈ s.outstanding) ∧
    ∀ obj index, result = some (obj, index) → obj ∈ pool.objs ∧ obj ∉ s.outstanding ∧
      objAllocObjToIndex translators s.allocator obj = some index
  index_obj : ∀ index, objAllocBaseIndex ≤ index → index < objAllocBaseIndex + num_objs →
    ∃ obj ∈ pool.objs, objAllocIndexToObj translators s.allocator index = some obj ∧
      objAllocObjToIndex translators s.allocator obj = some index
  obj_index : ∀ obj ∈ pool.objs, ∃ index, objAllocBaseIndex ≤ index ∧ index < objAllocBaseIndex + num_objs ∧
    objAllocObjToIndex translators s.allocator obj = some index ∧
    objAllocIndexToObj translators s.allocator index = some obj

theorem ObjSystem.Sound.right (h : s.Sound pool) (hsize : 8 ≤ obj_size) (hlt : num_objs < 2 ^ 31) :
    s.Right translators pool where
  parts := by
    obtain ⟨free, hchain, hlen, hperm⟩ := h.parts
    have hnodup := hperm.nodup_iff.mpr (pool.objs_nodup (by omega))
    obtain ⟨hfree, hout, hdisjoint⟩ := List.nodup_append.mp hnodup
    refine ⟨free, hchain, hlen, hfree, hout, fun obj hobj hobj' => hdisjoint obj hobj obj hobj' rfl, ?_⟩
    intro obj
    rw [← hperm.mem_iff, List.mem_append]
  alloc := by
    rcases h.alloc translators (by omega) hlt with ⟨allocator, halloc, hall, -⟩ |
      ⟨allocator, i, hi, halloc, hnot, -⟩
    · refine ⟨allocator, none, halloc, iff_of_true rfl fun obj hobj => hall.mem_iff.mpr hobj, ?_⟩
      intro obj index hno
      cases hno
    · have hin : pool.base + obj_size * i ∈ pool.objs := pool.mem_objs.mpr ⟨i, hi, rfl⟩
      refine ⟨allocator, some _, halloc, iff_of_false (fun hno => by cases hno) fun hall => hnot (hall _ hin), ?_⟩
      intro obj index heq
      cases heq
      exact ⟨hin, hnot, h.config.objToIndex translators (by omega) hlt hi⟩
  index_obj index hle hlt' := by
    obtain ⟨i, rfl⟩ : ∃ i, index = i + 1 := ⟨index - 1, by rw [objAllocBaseIndex] at hle; omega⟩
    have hi : i < num_objs := by
      rw [objAllocBaseIndex] at hlt'
      omega
    exact ⟨_, pool.mem_objs.mpr ⟨i, hi, rfl⟩, h.config.indexToObj translators (by omega) hlt hi,
      h.config.objToIndex translators (by omega) hlt hi⟩
  obj_index obj hobj := by
    obtain ⟨i, hi, rfl⟩ := pool.mem_objs.mp hobj
    exact ⟨i + 1, by rw [objAllocBaseIndex]; omega, by rw [objAllocBaseIndex]; omega,
      h.config.objToIndex translators (by omega) hlt hi, h.config.indexToObj translators (by omega) hlt hi⟩

/-- **Free and outstanding objects are all objects, and no object is both.** For an allocator
without address translation, for any number of objects of any size, and every sequence of
allocations, frees of outstanding objects and writes to them: no assertion fails, the free list
holds exactly the objects that are not outstanding, an allocation fails just if all are, and indices
and objects are converted into each other. -/
theorem objAlloc_partition (pool : ObjPool num_objs obj_size) (hpos : 1 ≤ num_objs)
    (hlt : num_objs < 2 ^ 31) (hsize : 8 ≤ obj_size) (allocator : ObjAllocator) (mem : Mem) :
    ∃ allocator' mem', objAllocFreeListInit translators (some pool) allocator mem addrXlatNoXlat =
        some (some (allocator', mem')) ∧
      ∀ calls, ObjRunLegal translators ⟨allocator', mem', []⟩ calls →
        ∃ s, objRun translators ⟨allocator', mem', []⟩ calls = some s ∧ s.Right translators pool := by
  obtain ⟨allocator', mem', hinit, hsound⟩ :=
    objAllocFreeListInit_sound translators pool hpos hlt hsize
      (by decide : addrXlatNoXlat < 0) allocator mem
  refine ⟨allocator', mem', hinit, fun calls hlegal => ?_⟩
  obtain ⟨s, hrun, hsound'⟩ := hsound.run translators hsize hlt hlegal
  exact ⟨s, hrun, hsound'.right translators hsize hlt⟩

/-- Memory for two objects of eight bytes. -/
def twoObjs : ObjPool 2 8 := ⟨16, Nat.zero_lt_succ _, by decide⟩

theorem objAlloc_partition_twoObjs :
    ∃ s allocator mem, objAllocFreeListInit (fun _ => 0) (some twoObjs) ⟨0, 0, 0, 0, 0, 0, 0, 0, 0, 0⟩
        (fun _ => 0) addrXlatNoXlat = some (some (allocator, mem)) ∧
      objRun (fun _ => 0) ⟨allocator, mem, []⟩ [.alloc, .write 20 7, .alloc, .free 16] = some s ∧
      s.Right (fun _ => 0) twoObjs := by
  obtain ⟨allocator, mem, hinit, hruns⟩ := objAlloc_partition (fun _ => 0) twoObjs (by decide) (by decide)
    (by decide) ⟨0, 0, 0, 0, 0, 0, 0, 0, 0, 0⟩ fun _ => 0
  have hlegal : ObjRunLegal (fun _ => 0) ⟨allocator, mem, []⟩ [.alloc, .write 20 7, .alloc, .free 16] := by
    cases hinit
    refine ⟨trivial, fun s' h => ?_⟩
    cases h
    refine ⟨.inl ⟨16, List.mem_cons_self, by decide, by decide⟩, fun s' h => ?_⟩
    cases h
    refine ⟨trivial, fun s' h => ?_⟩
    cases h
    exact ⟨List.mem_cons_of_mem _ List.mem_cons_self, fun _ _ => trivial⟩
  obtain ⟨s, hrun, hright⟩ := hruns _ hlegal
  exact ⟨s, allocator, mem, hinit, hrun, hright⟩

end Xdp2
