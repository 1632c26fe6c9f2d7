import Xdp2.Lib.Memory

/-!
# The object allocator

`obj_allocator.h` and `obj_allocator.c`: objects of one size in one piece of memory, the free ones
in a list linked through their first eight bytes. A failed assertion is `none`. The memory is an
argument and a result; a pointer is a number, stored in eight bytes.
-/

namespace Xdp2

open Memory

/-! ## Address translation -/

/-- `XDP2_ADDR_XLAT_MAX_TRANSLATORS`. -/
def addrXlatMaxTranslators : Nat := 10

/-- `XDP2_ADDR_XLAT_NO_XLAT`. -/
def addrXlatNoXlat : Int := -1

/-- `xdp2_addr_xlat_translate`, with the base address each translator has. -/
def addrXlatTranslate (translators : Nat → Nat) (num : Int) (addr : Nat) : Option Nat :=
  if num < 0 ∨ addr = 0 then some addr
  else if num < addrXlatMaxTranslators then some (translators num.toNat + addr)
  else none

/-- `xdp2_addr_xlat_reverse_translate`. -/
def addrXlatReverseTranslate (translators : Nat → Nat) (num : Int) (addr : Nat) : Option Nat :=
  if num < 0 ∨ addr = 0 then some addr
  else if num < addrXlatMaxTranslators then some ((addr + 2 ^ 64 - translators num.toNat) % 2 ^ 64)
  else none

/-! ## The allocator -/

/-- `XDP2_OBJ_ALLOC_MAGIC_NUM`. -/
def objAllocMagicNum : Nat := 0x43b3c9ef64bba98c

/-- `XDP2_OBJ_ALLOC_BASE_INDEX`. -/
def objAllocBaseIndex : Nat := 1

/-- `struct xdp2_obj_allocator`, with the fields of `struct xdp2_obj_allocator_free_list`. -/
structure ObjAllocator where
  magic_num : Nat
  max_objs : Nat
  obj_size : Nat
  base_index : Nat
  addr_xlat_num : Int
  base : Nat
  free_list : Nat
  num_free : Nat
  allocs : Nat
  alloc_fails : Nat

/-- A pointer in memory. -/
def loadPtr (mem : Mem) (addr : Nat) : Nat := load mem addr 8

/-- The memory with a pointer stored in it. -/
def storePtr (mem : Mem) (addr ptr : Nat) : Mem := store mem addr ptr 8

section
variable (translators : Nat → Nat)

/-- The loop of `__xdp2_obj_alloc_free_list_init`, with the number of turns left: the last object and the
memory. The counter is an `int`: it does not go on from its last value. -/
def linkObjs (addr_xlat_num : Int) (obj_size : Nat) : (rest i obj : Nat) → Mem → Option (Nat × Mem)
  | 0, _, obj, mem => some (obj, mem)
  | rest + 1, i, obj, mem => do
    let next ← addrXlatReverseTranslate translators addr_xlat_num (obj + obj_size)
    if i + 1 = 2 ^ 31 then none
    else linkObjs addr_xlat_num obj_size rest (i + 1) (obj + obj_size) (storePtr mem obj next)

/-- `__xdp2_obj_alloc_common_init`. The name, which is for messages, is left out. -/
def objAllocCommonInit (allocator : ObjAllocator) (num_objs obj_size base base_index : Nat)
    (addr_xlat_num : Int) : Option ObjAllocator :=
  (addrXlatReverseTranslate translators addr_xlat_num base).map fun base =>
    { allocator with
      magic_num := objAllocMagicNum
      base := base
      obj_size := obj_size
      max_objs := num_objs
      addr_xlat_num := addr_xlat_num
      base_index := base_index }

/-- `__xdp2_obj_alloc_free_list_init`. -/
def objAllocFreeListInitAt (allocator : ObjAllocator) (mem : Mem) (num_objs obj_size base base_index : Nat)
    (addr_xlat_num : Int) : Option (ObjAllocator × Mem) := do
  let (obj, mem) ← linkObjs translators addr_xlat_num obj_size ((num_objs + 2 ^ 32 - 1) % 2 ^ 32) 0 base mem
  let mem := storePtr mem obj 0
  let allocator ← objAllocCommonInit translators allocator num_objs obj_size base base_index addr_xlat_num
  let free_list ← addrXlatReverseTranslate translators addr_xlat_num base
  some ({ allocator with num_free := num_objs, free_list := free_list }, mem)

/-- Memory for objects: `calloc` returns no null pointer for it, and it is all within the address space. -/
structure ObjPool (num_objs obj_size : Nat) where
  base : Nat
  pos : 0 < base
  fits : base + num_objs * obj_size ≤ 2 ^ 64

/-- `alloc_objects`, for what `calloc` returns. -/
def allocObjects {num_objs obj_size : Nat} (calloc : Option (ObjPool num_objs obj_size)) :
    Option (ObjPool num_objs obj_size) :=
  if obj_size < 8 ∨ num_objs = 0 then none else calloc

/-- `xdp2_obj_alloc_free_list_init`: the allocator, or `none` inside for `false`. -/
def objAllocFreeListInit {num_objs obj_size : Nat} (calloc : Option (ObjPool num_objs obj_size))
    (allocator : ObjAllocator) (mem : Mem) (addr_xlat_num : Int) : Option (Option (ObjAllocator × Mem)) :=
  match allocObjects calloc with
  | none => some none
  | some pool =>
    (objAllocFreeListInitAt translators allocator mem num_objs obj_size pool.base objAllocBaseIndex
      addr_xlat_num).map some

/-- `xdp2_obj_alloc_index_to_offset`. -/
def objAllocIndexToOffset (allocator : ObjAllocator) (index : Nat) : Nat :=
  (index + 2 ^ 32 - allocator.base_index) % 2 ^ 32 * allocator.obj_size % 2 ^ 64

/-- `xdp2_obj_alloc_index_to_obj`. -/
def objAllocIndexToObj (allocator : ObjAllocator) (index : Nat) : Option Nat :=
  if allocator.magic_num ≠ objAllocMagicNum then none
  else if allocator.base_index ≤ index ∧ index < (allocator.max_objs + allocator.base_index) % 2 ^ 32 then
    (addrXlatTranslate translators allocator.addr_xlat_num allocator.base).map fun base =>
      base + objAllocIndexToOffset allocator index
  else none

/-- `xdp2_obj_alloc_obj_to_index`. -/
def objAllocObjToIndex (allocator : ObjAllocator) (obj : Nat) : Option Nat :=
  if allocator.magic_num ≠ objAllocMagicNum then none
  else
    (addrXlatTranslate translators allocator.addr_xlat_num allocator.base).map fun base =>
      ((obj + 2 ^ 64 - base) % 2 ^ 64 / allocator.obj_size + allocator.base_index) % 2 ^ 32

/-- `__xdp2_obj_alloc_free_list_alloc`: the allocator, and the object and its index unless there is none. -/
def objAllocFreeListAlloc (allocator : ObjAllocator) (mem : Mem) : Option (ObjAllocator × Option (Nat × Nat)) :=
  if allocator.magic_num ≠ objAllocMagicNum then none
  else if allocator.num_free = 0 then
    some ({ allocator with alloc_fails := (allocator.alloc_fails + 1) % 2 ^ 64 }, none)
  else do
    let obj ← addrXlatTranslate translators allocator.addr_xlat_num allocator.free_list
    -- the number of free objects is not zero, as the assertion here says it is
    if obj = 0 then none
    else
      let allocator :=
        { allocator with
          free_list := loadPtr mem obj
          num_free := allocator.num_free - 1
          allocs := (allocator.allocs + 1) % 2 ^ 64 }
      let num ← objAllocObjToIndex translators allocator obj
      some (allocator, some (obj, num))

/-- `__xdp2_obj_alloc_free_list_free`. -/
def objAllocFreeListFree (allocator : ObjAllocator) (mem : Mem) (obj : Nat) : Option (ObjAllocator × Mem) :=
  if allocator.magic_num ≠ objAllocMagicNum then none
  else do
    let free_list ← addrXlatReverseTranslate translators allocator.addr_xlat_num obj
    some (
      { allocator with free_list := free_list, num_free := (allocator.num_free + 1) % 2 ^ 32 },
      storePtr mem obj allocator.free_list)

/-! ## Runs -/

/-- An allocator, the memory, and the objects that are outstanding. -/
structure ObjSystem where
  allocator : ObjAllocator
  mem : Mem
  outstanding : List Nat

/-- A call, or a byte written by one who has an object. -/
inductive ObjCall
  | alloc
  | free (obj : Nat)
  | write (addr : Nat) (byte : UInt8)

def objStep (s : ObjSystem) : ObjCall → Option ObjSystem
  | .alloc => do
    let (allocator, result) ← objAllocFreeListAlloc translators s.allocator s.mem
    some { s with
      allocator := allocator
      outstanding := (result.map Prod.fst).toList ++ s.outstanding }
  | .free obj => do
    let (allocator, mem) ← objAllocFreeListFree translators s.allocator s.mem obj
    some { allocator := allocator, mem := mem, outstanding := s.outstanding.erase obj }
  | .write addr byte => some { s with mem := Function.update s.mem addr byte }

def objRun (s : ObjSystem) : List ObjCall → Option ObjSystem
  | [] => some s
  | call :: calls => do objRun (← objStep translators s call) calls

/-- Only objects that are outstanding are freed, and only their memory is written, or memory that is of no
object. -/
def ObjCall.Legal (s : ObjSystem) : ObjCall → Prop
  | .alloc => True
  | .free obj => obj ∈ s.outstanding
  | .write addr _ =>
    (∃ obj ∈ s.outstanding, obj ≤ addr ∧ addr < obj + s.allocator.obj_size) ∨
      addr < s.allocator.base ∨ s.allocator.base + s.allocator.max_objs * s.allocator.obj_size ≤ addr

/-- All calls of a run are legal. -/
def ObjRunLegal (s : ObjSystem) : List ObjCall → Prop
  | [] => True
  | call :: calls => call.Legal s ∧ ∀ s', objStep translators s call = some s' → ObjRunLegal s' calls

end

end Xdp2
